/-
  File:      Yuios/Fs/Holes.lean
  Subject:   FILES BUILT BY WRITES: what `inode_read` finds in a file that calls of `inode_write`, at any
             offsets, have built from an empty one.

  `inode_write` maps the blocks it writes to, and no others; `inode_read` takes every block below the
  size for mapped. And `balloc` hands a zone out with what it held when it was freed.

  * `bmap_takes` -- `bmap` maps the one block it is called for, to a zone that was mapped there before
    or that has just been taken.
  * `Built` -- the blocks below the size are mapped, and no others; the bytes below the size are the
    ones written, and zero where none was.
  * `Careful` -- the write skips no block, and finds zeros in the bytes it leaves out.
  * **`written_reads_back`** -- in every run of careful writes, every read comes to its end and finds
    what was written, and zeros elsewhere.
-/
import Yuios.Fs.Content

namespace Yuios

open Lib Prog Code

/-! ## 1. Reference counts -/

section Counts

variable {C : List Frame → Kernel → Prop}

theorem balanced_of_counts {α : Type} {p : Code α} (h : Obeys SameCounts p) : Keeps C Kernel.Balanced p :=
  h.keeps fun s t hc hs k => by
    rw [hc k]
    exact hs k

theorem bread_balanced (dev : Int) (block : Nat) : Keeps C Kernel.Balanced (bread dev block) := by
  intro s k t hs h k'
  rw [bread_counts (bread_key h ▸ h.ends)]
  have := hs k'
  split <;> omega

/-- `brelse` looks at the count it has left. -/
theorem brelse_balanced (k : Key) : Keeps C Kernel.Balanced (brelse k) := by
  intro s u t hs h k'
  rw [brelse_counts h.ends]
  by_cases hk : k' = k
  · obtain ⟨_, s₁, h₁, h⟩ := runs_bind.mp h
    obtain ⟨_, s₂, h₂, h⟩ := runs_bind.mp h
    obtain ⟨b, s₃, ⟨rfl, rfl⟩, h⟩ := runs_bind.mp h
    rw [runs_assert] at h
    rw [onCache, runs_modify] at h₂
    have hpos := of_decide_eq_true h.1
    rw [← h₂, count_addCount, if_pos rfl, bwrite_counts k _ _ _ h₁.ends k] at hpos
    rw [if_pos hk, hk]
    exact hpos
  · rw [if_neg hk]
    have := hs k'
    omega

theorem allocLoop_counts (maps : Nat → Option Key) (len : Nat) (off : Nat → Nat) (limit n i : Nat)
    (buf : Option Key) : Obeys SameCounts (allocLoop maps len off limit n i buf) := by
  intro s r t h
  obtain ⟨o, bit⟩ := r
  obtain ⟨-, rfl, -⟩ | ⟨k, j, p, -, -, rfl⟩ := allocLoop_spec h
  · exact Steady.refl s
  · exact fun k' => count_setDirty.trans (Kernel.count_poke ..)

theorem balloc_counts (dev : Int) : Obeys SameCounts (balloc dev) := by
  refine obeys_bind (obeys_bind (obeys_reads _) fun _ => obeys_bind (obeys_need _ _) fun _ => obeys_pure _)
    fun sb => obeys_bind (allocLoop_counts _ _ _ _ _ _ _) fun r => obeys_bind (obeys_need _ _) fun k => ?_
  exact obeys_bind (obeys_mapLabel (bwrite_counts k)) fun _ => obeys_pure _

theorem bmapFill_counts (x : Nat) (create : Bool) (buf : Key) (slot : Nat) :
    Obeys SameCounts (bmapFill x create buf slot) := by
  refine obeys_bind (obeys_reads _) fun b => obeys_ite (fun _ => ?_) fun _ => obeys_pure _
  refine obeys_bind (obeys_reads _) fun i => obeys_bind (balloc_counts _) fun bit => ?_
  exact obeys_bind (onCache_counts fun _ _ => count_poke) fun _ => onCache_counts fun _ _ => count_setDirty

theorem bmapReckon_balanced (x : Nat) (create : Bool) (level : Nat) (buf : Key)
    (array index block divider : Nat) :
    Keeps C Kernel.Balanced (bmapReckon x create level buf array index block divider) := by
  have hslot : ∀ level buf slot, Keeps C Kernel.Balanced (bmapSlot x create level buf slot) :=
    fun level buf slot => triple_mapLabel
      (keeps_bind (balanced_of_counts (bmapFill_counts _ _ _ _)) fun _ => brelse_balanced buf)
  induction level generalizing buf array index block divider with
  | zero => exact keeps_bind (hslot 0 buf _) fun _ => keeps_bind (keeps_reads _) fun _ => keeps_pure _
  | succ level ih =>
    refine keeps_bind (hslot _ buf _) fun _ => keeps_bind (keeps_reads _) fun _ => ?_
    refine triple_ite (fun _ => keeps_pure _) fun _ => keeps_bind (keeps_reads _) fun _ => ?_
    exact keeps_bind (bread_balanced _ _) fun k => ih k _ _ _ _

theorem bmap_balanced (x block : Nat) (create : Bool) : Keeps C Kernel.Balanced (bmap x block create) := by
  refine keeps_bind (keeps_check _ _) fun _ => keeps_bind (keeps_reads _) fun i => keeps_bind ?_ fun _ => ?_
  · refine triple_modify fun s hs k => ?_
    show 0 ≤ ((s.cache.addCount i.buf 1).buf k).count
    have := hs k
    rw [count_addCount]
    split <;> omega
  · refine triple_ite (fun _ => bmapReckon_balanced _ _ _ _ _ _ _ _) fun _ => ?_
    refine triple_ite (fun _ => bmapReckon_balanced _ _ _ _ _ _ _ _) fun _ => ?_
    exact keeps_bind (keeps_check _ _) fun _ => bmapReckon_balanced _ _ _ _ _ _ _ _

end Counts

namespace Volume

variable {v : Volume}

/-! ## 2. The block `bmap` maps -/

section Fills

variable {C : List Frame → Kernel → Prop} {w w' : View} {x nr nr' b b' level r r' bit z : Nat} {p q : Place}

/-- The zone's own block is not written when it is put into its slot. -/
theorem Fills.block (hC : ∀ l s, C l s → Blank l s) (hc : v.Consistent w) (hp : (v.forest w).Slot level p)
    (h : v.Fills C x level p w w' bit) : w' ⟨v.dev, bit⟩ = v.setZone w bit true ⟨v.dev, bit⟩ := by
  have hmark := Grows.mark hc h.low h.lt
  have hs := h.spare hC hc
  rw [h.view]
  exact putWord_of_ne (unnamed_ne_slot hmark.consistent (hmark.slot hp) hs.first hs.unnamed).symm

/-- **A filled slot** maps the one block whose way ends there, to the zone; above the data it maps
    none, since the new index block is blank. -/
theorem Fills.only (hC : ∀ l s, C l s → Blank l s) (hc : v.Consistent w) (ho : v.Owns w nr)
    (hl : v.Leads w nr b level p r) (h : v.Fills C x level p w w' bit) (ho' : v.Owns w nr')
    (hz : v.BlockZone w' nr' b' z) :
    (level = 0 ∧ nr' = nr ∧ b' = b ∧ z = bit) ∨ v.BlockZone w nr' b' z := by
  obtain ⟨w₁, hw₁⟩ : ∃ w₁, w₁ = v.setZone w bit true := ⟨_, rfl⟩
  have hmark : v.Grows w w₁ := hw₁ ▸ Grows.mark hc h.low h.lt
  have hword : ∀ {l q}, (v.forest w).Slot l q → word w₁ q = word w q := fun hq => by
    rw [hw₁]
    exact word_setZone hc h.low h.lt hq
  have hp := hl.slot ho
  have hempty : word w₁ p = 0 := (hword hp).trans h.empty
  have hspare : v.Spare w₁ level bit := hw₁ ▸ h.spare hC hc
  have hf := filled hmark.consistent (hmark.slot hp) hempty hspare
  rw [show putWord w₁ p bit = w' from (hw₁ ▸ h.view).symm] at hf
  have ho₁ := hmark.owns ho'
  -- a way in the filled volume is a way of before, or ends inside the new zone
  have hway : ∀ {l q r'}, v.Leads w' nr' b' l q r' →
      v.Leads w₁ nr' b' l q r' ∨ (v.forest w').val q = none := by
    intro l q r' hq
    induction hq with
    | start hs => exact .inl (.start hs)
    | next hq hv ih =>
      rename_i l r y q
      obtain hq₁ | hnone := ih
      · by_cases e : q = p
        · rw [e, hf.full] at hv
          cases hv
          have hslot := hq₁.slot ho₁
          rw [e] at hslot
          have hlev : l + 1 = level :=
            hmark.consistent.owned.level (forest_laid v w₁) used_node hslot (hmark.slot hp)
          refine .inr (hf.blank (by omega) _ ⟨_, Nat.div_lt_of_lt_mul ?_, rfl⟩)
          obtain h0 | hlt := hq₁.lt
          · cases h0
          · rwa [Nat.pow_succ] at hlt
        · exact .inl (.next hq₁ ((hf.other _ _ (hq₁.slot ho₁) e).symm.trans hv))
      · rw [hnone] at hv
        cases hv
  obtain ⟨q, r', hq, hv⟩ := hz
  obtain hq₁ | hnone := hway hq
  · by_cases e : q = p
    · subst e
      rw [hf.full] at hv
      cases hv
      have hway := hmark.consistent.way (b := b) (hmark.owns ho)
      obtain ⟨rfl, rfl, hb⟩ := hway.same_slot (hl.extend ho hmark.toExtends) ho₁
        (fun hl hv => (hmark.consistent.way ho₁).first hl hv) hq₁
      exact .inl ⟨rfl, rfl, hb (.inr rfl), rfl⟩
    · have hq₀ : v.Leads w nr' b' 0 q r' := (Leads.congr fun hl => hword (hl.slot ho')).mp hq₁
      refine .inr ⟨q, r', hq₀, ?_⟩
      rw [← val_congr (hword (hq₀.slot ho')), ← hf.other _ _ (hq₁.slot ho₁) e]
      exact hv
  · rw [hnone] at hv
    cases hv

end Fills

/-- Zone `z` has been taken for a slot of the data, and `C` holds where `balloc` waited for its bit; its
    block is what it was there, and the file's size what it was before. -/
def Taken (v : Volume) (C : List Frame → Kernel → Prop) (x nr : Nat) (s t : Kernel) (z : Nat) : Prop :=
  ∃ k buf slot u, C [.bwrite k, .balloc v.dev z, .bmap x buf slot 0] u ∧
    u.view ⟨v.dev, z⟩ = t.view ⟨v.dev, z⟩ ∧ v.desc u.view nr .size = v.desc s.view nr .size

section Takes

variable {C : List Frame → Kernel → Prop} {s t : Kernel} {x nr b z : Nat} {create : Bool} {buf : Key}

/-- **The walk of `bmap`** maps no block but its own, and that to the zone that was there or to one it
    has taken. -/
theorem bmapReckon_takes (hC : ∀ l s, C l s → Supplied l s) {level array index block divider : Nat}
    (h : Runs C (bmapReckon x create level buf array index block divider) s z t)
    (hm : v.Mounted s.tab) (hx : (s.tab.inodeTable x).dev = v.dev) (hc : v.Consistent s.view)
    (ho : v.Owns s.view nr) (hl : v.Leads s.view nr b level (buf, array + 2 * index) block)
    (hw : Walk level block divider) :
    (z ≠ 0 → v.BlockZone s.view nr b z ∨ v.Taken C x nr s t z) ∧
      ∀ {b' z'}, v.BlockZone t.view nr b' z' → b' = b ∨ v.BlockZone s.view nr b' z' := by
  have hblank : ∀ l s, C l s → Blank l s := fun l s h => (hC l s h).2
  induction level generalizing buf array index block divider s with
  | zero =>
    obtain ⟨_, s₁, h₁, h⟩ := runs_bind.mp h
    obtain ⟨_, s₂, ⟨rfl, rfl⟩, rfl, rfl⟩ := runs_bind.mp h
    obtain ⟨-, ⟨hview, -⟩ | ⟨-, bit, hf⟩⟩ := bmapSlot_fills (fun l s h => (hC l s h).1) h₁ hm hx
    · have hword : word s.view (buf, array + 2 * index) = fetch (s₁.view buf) (array + 2 * index) 2 := by
        unfold word
        rw [hview]
      rw [hview]
      exact ⟨fun hz => .inl ⟨_, _, hl, val_eq.mpr ⟨hword, hz⟩⟩, fun hz' => .inr hz'⟩
    · have hval := (hf.grows hblank hc (hl.slot ho)).2
      obtain ⟨k, u, hu, hlab⟩ := hf.waits
      refine ⟨fun _ => .inr ?_, fun hz' => (hf.only hblank hc ho hl ho hz').imp_left fun h => h.2.2.1⟩
      have hbit : fetch (s₁.view buf) (array + 2 * index) 2 = bit := (val_eq.mp hval).1
      dsimp only
      rw [hbit]
      exact ⟨k, _, _, u, hlab, by rw [hu, hf.block hblank hc (hl.slot ho)],
        by rw [hu, desc_setZone hf.lt hf.low]⟩
  | succ level ih =>
    obtain ⟨_, s₁, h₁, h⟩ := runs_bind.mp h
    have hgrow := bmapSlot_grows (runs_mono hC h₁) hm hx hc (hl.slot ho)
    obtain ⟨htab, hg, -, -⟩ := hgrow
    have honly : ∀ {b' z'}, v.BlockZone s₁.view nr b' z' → v.BlockZone s.view nr b' z' := by
      intro b' z' hz'
      obtain ⟨-, ⟨hview, -⟩ | ⟨-, bit, hf⟩⟩ := bmapSlot_fills (fun l s h => (hC l s h).1) h₁ hm hx
      · rwa [hview] at hz'
      · obtain ⟨h0, -⟩ | hz' := hf.only hblank hc ho hl ho hz'
        · cases h0
        · exact hz'
    obtain ⟨_, s₂, ⟨rfl, rfl⟩, h⟩ := runs_bind.mp h
    obtain ⟨hzero, rfl, rfl⟩ | ⟨hz, h⟩ := runs_ite.mp h
    · exact ⟨fun hz => absurd hzero hz, fun hz' => .inr (honly hz')⟩
    · obtain ⟨i, s₃, ⟨rfl, rfl⟩, h⟩ := runs_bind.mp h
      obtain ⟨k, s₄, h₄, h⟩ := runs_bind.mp h
      have hk := bread_key h₄
      have hs := bread_same _ _ _ _ _ h₄.ends
      have hview : s₄.view = s₁.view := hs.view
      have htab' : s₄.tab = s.tab := hs.tab.trans htab
      dsimp only at hk
      rw [htab, hx] at hk
      obtain ⟨hdiv, hw'⟩ := hw.next
      have hl' : v.Leads s₁.view nr b level (k, 0 + 2 * (block / divider)) (block % divider) := by
        rw [hk, Nat.zero_add, hdiv]
        exact .next (hl.extend ho hg.toExtends) (val_eq.mpr ⟨rfl, hz⟩)
      obtain ⟨htake, hrest⟩ := ih h (htab' ▸ hm) (htab' ▸ hx) (hview ▸ hg.consistent)
        (hview ▸ hg.owns ho) (hview ▸ hl') hw'
      rw [hview] at htake hrest
      refine ⟨fun hz => (htake hz).imp honly fun ⟨k, buf, slot, u, hlab, hu, hsize⟩ => ?_,
        fun hz' => (hrest hz').imp_right honly⟩
      refine ⟨k, buf, slot, u, hlab, hu, hsize.trans ?_⟩
      rw [hview]
      exact hg.head ho.pos ho.lt (by decide)

/-- **`bmap`** of a block. -/
theorem bmap_takes (hC : ∀ l s, C l s → Supplied l s) (h : Runs C (bmap x b create) s z t)
    (hr : v.Ready x nr s) :
    (z ≠ 0 → v.BlockZone s.view nr b z ∨ v.Taken C x nr s t z) ∧
      ∀ {b' z'}, v.BlockZone t.view nr b' z' → b' = b ∨ v.BlockZone s.view nr b' z' := by
  obtain ⟨-, level, index, rest, divider, s', hstart, hs, h⟩ := bmap_start h
  have hview : s'.view = s.view := hs.view
  have htakes := bmapReckon_takes hC h (hs.tab ▸ hr.mounted) (hs.tab ▸ hr.loaded.dev)
    (hview ▸ hr.consistent) (hview ▸ hr.owns) (hview ▸ hr.loaded.leads hstart) (walk_start hstart).2.2
  unfold Taken at htakes
  rw [hview] at htakes
  exact htakes

end Takes

/-! ## 3. One round of `inode_write` -/

section Round

variable {C : List Frame → Kernel → Prop} {s t : Kernel} {x nr left offset n : Nat} {buf : Bytes}

/-- Beside the descriptor's block the views are the same, and in that block the bytes before the size
    and from `zone[]` on. -/
structure HeadOnly (v : Volume) (nr : Nat) (w w' : View) : Prop where
  block : ∀ k : Key, k ≠ v.inodeKey nr → w' k = w k
  desc : ∀ o, o < descOff nr + Field.size.off ∨ descOff nr + (Field.zone 0).off ≤ o →
    w' (v.inodeKey nr) o = w (v.inodeKey nr) o

theorem HeadOnly.refl {w : View} : v.HeadOnly nr w w := ⟨fun _ _ => rfl, fun _ _ => rfl⟩

/-- A field of the head is stored. -/
theorem descSet_head (hx : v.Loaded s.tab x nr) {f : Field} {a : Nat} (hf : Field.size.off ≤ f.off)
    (hf' : f.off + f.width ≤ (Field.zone 0).off) {u : Unit} (h : Runs C (descSet x f a) s u t) :
    t.tab = s.tab ∧ v.HeadOnly nr s.view t.view ∧ v.desc t.view nr f = a % 256 ^ f.width := by
  rw [runs_descSet, hx.buf, hx.desc] at h
  subst h
  refine ⟨rfl, ⟨fun k hk => Kernel.view_poke_of_ne _ _ hk, fun o ho => ?_⟩, ?_⟩
  · rw [Kernel.view_poke_self]
    exact store_of_ne (by omega)
  · unfold Volume.desc
    rw [Kernel.view_poke_self, fetch_store_self]

theorem growSize_head (hx : v.Loaded s.tab x nr) {e : Nat} (he : e < 256 ^ 4) {u : Unit}
    (h : Runs C (growSize x e) s u t) :
    t.tab = s.tab ∧ v.HeadOnly nr s.view t.view ∧
      v.desc t.view nr .size = max (v.desc s.view nr .size) e := by
  obtain ⟨size, s₁, h₁, h⟩ := runs_bind.mp h
  rw [runs_descGet] at h₁
  obtain ⟨hsize, rfl⟩ := h₁
  rw [hx.desc_eq] at hsize
  obtain ⟨hgt, h⟩ | ⟨hle, -, rfl⟩ := runs_ite.mp h
  · obtain ⟨_, s₂, h₂, h⟩ := runs_bind.mp h
    obtain ⟨htab, hhead, hfield⟩ := descSet_head hx (by decide) (by decide) h₂
    have hs := inodeDirty_same x _ _ _ h.ends
    have hview : t.view = s₂.view := hs.view
    rw [hview, hfield, hsize, Nat.max_eq_right (Nat.le_of_lt hgt)]
    exact ⟨hs.tab.trans htab, hhead, Nat.mod_eq_of_lt he⟩
  · rw [hsize, Nat.max_eq_left (Nat.le_of_not_lt hle)]
    exact ⟨rfl, .refl, rfl⟩

/-- What a round does behind `bmap`: the piece is written to the zone, and the size grown. -/
theorem inodeWriteRound_view (hC : ∀ l s, C l s → Supplied l s) (h : v.Ready x nr s)
    (hr : Runs C (inodeWriteRound x left offset buf) s n t) :
    n = min (BLOCK_SIZE - offset % BLOCK_SIZE) left ∧
      ∃ z s₁, Runs C (bmap x (offset / BLOCK_SIZE) true) s z s₁ ∧ z ≠ 0 ∧
        v.BlockZone s₁.view nr (offset / BLOCK_SIZE) z ∧ v.Moves s s₁ ∧ v.Grows s.view s₁.view ∧
        (∀ k, k ≠ v.inodeKey nr → t.view k = if k = ⟨v.dev, z⟩
          then copyIn (s₁.view k) (offset % BLOCK_SIZE) buf n else s₁.view k) ∧
        (∀ o, o < descOff nr + Field.size.off ∨ descOff nr + (Field.zone 0).off ≤ o →
          t.view (v.inodeKey nr) o = s₁.view (v.inodeKey nr) o) ∧
        v.desc t.view nr .size = max (v.desc s.view nr .size) (offset + n) := by
  obtain ⟨z, s₁, h₁, hr⟩ := runs_bind.mp hr
  have hlt := (bmap_start h₁).1
  obtain ⟨htab, hg, -, hne, hz⟩ := bmap_grows (runs_mono hC h₁) h.mounted h.loaded h.consistent h.owns
  have hzone := hz (hne rfl)
  have hready₁ := h.next ⟨htab, hg.toExtends⟩
  have hx₁ := hready₁.loaded
  obtain ⟨_, s₂, h₂, hr⟩ := runs_bind.mp hr
  rw [runs_assert] at h₂
  obtain ⟨-, rfl⟩ := h₂
  obtain ⟨i, s₃, ⟨rfl, rfl⟩, hr⟩ := runs_bind.mp hr
  obtain ⟨bf, s₄, h₄, hr⟩ := runs_bind.mp hr
  obtain ⟨_, s₅, h₅, hr⟩ := runs_bind.mp hr
  have hbf : bf = ⟨v.dev, z⟩ := by
    rw [bread_key h₄]
    exact congrArg (Key.mk · z) hx₁.dev
  have hs : Same s₁ s₅ := (bread_same _ _ _ _ _ h₄.ends).trans (setDirty_same bf _ _ _ h₅.ends)
  have hview₅ : s₅.view = s₁.view := hs.view
  obtain ⟨_, s₆, h₆, hr⟩ := runs_bind.mp hr
  obtain ⟨chars, hchars⟩ : ∃ c, c = min (BLOCK_SIZE - offset % BLOCK_SIZE) left := ⟨_, rfl⟩
  rw [← hchars] at h₆ hr
  have hend : offset + chars < 256 ^ 4 := by
    have hmod := Nat.mod_lt offset (show BLOCK_SIZE > 0 by decide)
    have hdiv := Nat.div_add_mod offset BLOCK_SIZE
    have hlt : offset / BLOCK_SIZE < 7 + 512 + 512 * 512 := hlt
    unfold BLOCK_SIZE at *
    omega
  obtain ⟨-, hhead, hsize⟩ := growSize_head (v := v) (hs.tab ▸ hx₁) hend h₆
  obtain ⟨_, s₇, h₇, hr⟩ := runs_bind.mp hr
  rw [runs_poke] at h₇
  obtain ⟨_, s₈, h₈, hn, rfl⟩ := runs_bind.mp hr
  have hview₈ : s₈.view = s₇.view := (brelse_same bf _ _ _ (runs_within.mp h₈).ends).view
  have hkey : v.inodeKey nr ≠ ⟨v.dev, z⟩ := fun e => by
    obtain ⟨p, r, hl, hv⟩ := hzone
    have := (inodeKey_block h.owns.pos h.owns.lt).2
    rw [e] at this
    exact Nat.not_lt.mpr (hg.consistent.owned.used (hl.slot hready₁.owns) hv).first this
  have hkept : s₈.view (v.inodeKey nr) = s₆.view (v.inodeKey nr) := by
    rw [hview₈, ← h₇]
    exact Kernel.view_poke_of_ne _ _ (hbf ▸ hkey)
  refine ⟨hn.symm.trans hchars, z, s₁, h₁, hne rfl, hzone, ⟨htab, hg.toExtends⟩, hg, fun k hk => ?_,
    fun o ho => ?_, ?_⟩
  · have hk₆ : s₆.view k = s₁.view k := (hhead.block k hk).trans (congrFun hview₅ k)
    rw [hview₈, ← h₇, Kernel.view_poke, hbf, ← hn, hk₆]
    by_cases e : k = ⟨v.dev, z⟩
    · rw [if_pos e, if_pos e, ← e, hk₆]
    · rw [if_neg e, if_neg e]
  · rw [hkept, hhead.desc o ho, hview₅]
  · rw [desc_congr hkept, hsize, hview₅, hg.head h.owns.pos h.owns.lt (by decide), hn]

end Round

/-! ## 4. A file built by writes -/

/-- The blocks that `size` bytes lie in. -/
def blocks (size : Nat) : Nat := (size + (BLOCK_SIZE - 1)) / BLOCK_SIZE

/-- **A file built by writes**: the blocks below its size are mapped, and no others; `m` are its bytes, and
    zeros behind the end. -/
structure Built (v : Volume) (x nr : Nat) (m : Bytes) (s : Kernel) : Prop where
  ready : v.Ready x nr s
  balanced : s.Balanced
  file : ISFILE (v.desc s.view nr .mode) = true
  mapped : ∀ b, (∃ z, v.BlockZone s.view nr b z) ↔ b < blocks (v.desc s.view nr .size)
  bytes : ∀ p < v.desc s.view nr .size, ∀ z, v.BlockZone s.view nr (p / BLOCK_SIZE) z →
    s.view ⟨v.dev, z⟩ (p % BLOCK_SIZE) = m p
  zero : ∀ p, v.desc s.view nr .size ≤ p → m p = 0

section Built

variable {C : List Frame → Kernel → Prop} {s t : Kernel} {x nr left offset n : Nat} {buf m : Bytes}
  {w w' : View} {b b' z z' : Nat}

/-- A block has one zone. -/
theorem BlockZone.unique (hx : v.Loaded s.tab x nr) (hs : s.Balanced) (h : v.BlockZone s.view nr b z)
    (h' : v.BlockZone s.view nr b z') : z' = z := by
  obtain ⟨t, ht, -⟩ := bmap_mapped false hx hs h
  obtain ⟨t', ht', -⟩ := bmap_mapped false hx hs h'
  exact (ends_unique ht' ht).1

/-- A zone belongs to one block. -/
theorem BlockZone.inj (hc : v.Consistent w) (ho : v.Owns w nr) (h : v.BlockZone w nr b z)
    (h' : v.BlockZone w nr b' z) : b' = b := by
  obtain ⟨p, r, hl, hv⟩ := h
  obtain ⟨p', r', hl', hv'⟩ := h'
  obtain ⟨rfl, -⟩ := (hc.way ho).alone hl hv (hl'.slot ho) hv'
  exact ((hc.way ho).same_slot hl ho (fun hl hv => (hc.way ho).first hl hv) hl').2.2 (.inr rfl)

theorem BlockZone.first (hc : v.Consistent w) (ho : v.Owns w nr) (h : v.BlockZone w nr b z) :
    v.firstdatazone ≤ z := by
  obtain ⟨p, r, hl, hv⟩ := h
  exact (hc.way ho).first hl hv

theorem BlockZone.ne_inodeKey (hc : v.Consistent w) (ho : v.Owns w nr) (h : v.BlockZone w nr b z) :
    (⟨v.dev, z⟩ : Key) ≠ v.inodeKey nr := fun e => by
  have := (inodeKey_block ho.pos ho.lt).2
  rw [← e] at this
  exact Nat.not_lt.mpr (h.first hc ho) this

/-- Where the slots are the same, the blocks are mapped as before. -/
theorem blockZone_of_words (ho : v.Owns w nr)
    (hword : ∀ {l q}, (v.forest w).Slot l q → word w' q = word w q) :
    v.BlockZone w' nr b z ↔ v.BlockZone w nr b z := by
  have hleads : ∀ {l q r}, v.Leads w' nr b l q r ↔ v.Leads w nr b l q r :=
    Leads.congr fun hl => hword (hl.slot ho)
  constructor
  · rintro ⟨q, r, hl, hv⟩
    have hl := hleads.mp hl
    exact ⟨q, r, hl, (val_congr (hword (hl.slot ho))).symm.trans hv⟩
  · exact fun h => h.congr fun hl => hword (hl.slot ho)

theorem HeadOnly.word_eq (h : v.HeadOnly nr w w') (hc : v.Consistent w) (ho : v.Owns w nr) {l : Nat}
    {q : Place} (hq : (v.forest w).Slot l q) : word w' q = word w q := by
  refine word_of_head hc ho.pos ho.lt h.block (fun o ho' => h.desc o ?_) hq
  unfold Field.size Field.zone
  dsimp only
  omega

/-- A change in the head and in the data of the file maps what was mapped. -/
theorem blockZone_congr (hc : v.Consistent w) (ho : v.Owns w nr) {y : Nat} (hy : v.BlockZone w nr b y)
    (hblock : ∀ k, k ≠ v.inodeKey nr → k ≠ ⟨v.dev, y⟩ → w' k = w k)
    (hdesc : ∀ o, o < descOff nr + Field.size.off ∨ descOff nr + (Field.zone 0).off ≤ o →
      w' (v.inodeKey nr) o = w (v.inodeKey nr) o) :
    v.BlockZone w' nr b' z ↔ v.BlockZone w nr b' z := by
  have hword : ∀ {l q}, (v.forest w).Slot l q → word w' q = word w q := by
    intro l q hq
    obtain ⟨p, r, hl, hv⟩ := hy
    have hne : q.1 ≠ ⟨v.dev, y⟩ := data_ne_slot hc (hl.slot ho) hv hq
    -- the data is taken out of the change, and the head is left
    have hhead : v.HeadOnly nr w (Function.update w' ⟨v.dev, y⟩ (w ⟨v.dev, y⟩)) := by
      refine ⟨fun k hk => ?_, fun o ho' => ?_⟩
      · by_cases e : k = ⟨v.dev, y⟩
        · rw [e, Function.update_self]
        · rw [Function.update_of_ne e]
          exact hblock k hk e
      · rw [Function.update_of_ne (BlockZone.ne_inodeKey hc ho ⟨p, r, hl, hv⟩).symm]
        exact hdesc o ho'
    rw [← hhead.word_eq hc ho hq]
    exact (word_congr (Function.update_of_ne hne ..)).symm
  exact blockZone_of_words ho hword

theorem inodeWriteRound_balanced (x left offset : Nat) (buf : Bytes) :
    Keeps C Kernel.Balanced (inodeWriteRound x left offset buf) := by
  have hset : ∀ f a, Obeys SameCounts (descSet x f a) := fun f a =>
    obeys_bind (obeys_reads _) fun _ => onCache_counts fun _ _ => count_poke
  have hdirty : Obeys SameCounts (inodeDirty x) :=
    obeys_bind (obeys_reads _) fun _ => onCache_counts fun _ _ => count_setDirty
  have hget : ∀ f, Obeys SameCounts (descGet x f) := fun f =>
    obeys_bind (obeys_reads _) fun _ => obeys_bind (obeys_reads _) fun _ => obeys_pure _
  have hgrow : ∀ e, Obeys SameCounts (growSize x e) := fun e =>
    obeys_bind (hget _) fun _ => obeys_ite (fun _ => obeys_bind (hset _ _) fun _ => hdirty) fun _ =>
      obeys_pure _
  refine keeps_bind (bmap_balanced _ _ _) fun nr => keeps_bind (keeps_check _ _) fun _ =>
    keeps_bind (keeps_reads _) fun i => keeps_bind (bread_balanced _ _) fun bf => keeps_bind ?_ fun _ => ?_
  · exact balanced_of_counts (onCache_counts fun _ _ => count_setDirty)
  · refine keeps_bind (balanced_of_counts (hgrow _)) fun _ => keeps_bind ?_ fun _ => ?_
    · exact balanced_of_counts (onCache_counts fun _ _ => count_poke)
    · exact keeps_bind (triple_mapLabel (brelse_balanced bf)) fun _ => keeps_pure _

/-- What a write must find to leave out no block, and zeros in the bytes it leaves out: the rest of the
    last block, and, where `C` holds of the zone that `balloc` hands out, the part of it before
    the first byte written. -/
structure Leaves (v : Volume) (C : List Frame → Kernel → Prop) (nr offset : Nat) (s : Kernel) : Prop where
  block : offset / BLOCK_SIZE ≤ blocks (v.desc s.view nr .size)
  rest : ∀ p, v.desc s.view nr .size ≤ p → p < offset → ∀ z, v.BlockZone s.view nr (p / BLOCK_SIZE) z →
    s.view ⟨v.dev, z⟩ (p % BLOCK_SIZE) = 0
  zone : ∀ {k z x buf slot u}, C [.bwrite k, .balloc v.dev z, .bmap x buf slot 0] u →
    v.desc u.view nr .size = v.desc s.view nr .size → v.desc s.view nr .size < offset →
      ∀ i < offset % BLOCK_SIZE, u.view ⟨v.dev, z⟩ i = 0

/-- Nothing is left out before the end of the file. -/
theorem leaves_of_le (h : offset ≤ v.desc s.view nr .size) : v.Leaves C nr offset s where
  block := by
    refine Nat.div_le_div_right ?_
    omega
  rest p h1 h2 := by omega
  zone _ _ hlt := absurd hlt (Nat.not_lt.mpr h)

/-- **One round of `inode_write`.** -/
theorem inodeWriteRound_builds (hC : ∀ l s, C l s → Supplied l s) (h : v.Built x nr m s)
    (hleft : left ≠ 0) (hv : v.Leaves C nr offset s)
    (hr : Runs C (inodeWriteRound x left offset buf) s n t) :
    n = min (BLOCK_SIZE - offset % BLOCK_SIZE) left ∧ v.Built x nr (copyIn m offset buf n) t ∧
      v.desc t.view nr .size = max (v.desc s.view nr .size) (offset + n) := by
  have hmoves := inodeWriteRound_moves h.ready (runs_mono hC hr)
  have hbal := inodeWriteRound_balanced _ _ _ _ _ _ _ h.balanced hr
  obtain ⟨hn, z, s₁, h₁, hz0, hz, hmoves₁, hg, hblock, hdesc, hsize⟩ := inodeWriteRound_view hC h.ready hr
  have hready₁ := h.ready.next hmoves₁
  have hbal₁ := bmap_balanced _ _ _ _ _ _ h.balanced h₁
  have hc₁ := hready₁.consistent
  have ho₁ := hready₁.owns
  obtain ⟨htake, honly⟩ := bmap_takes hC h₁ h.ready
  have hzone : ∀ {b' z'}, v.BlockZone t.view nr b' z' ↔ v.BlockZone s₁.view nr b' z' :=
    blockZone_congr hc₁ ho₁ hz (fun k hk hne => by rw [hblock k hk, if_neg hne]) hdesc
  have hkept : ∀ {b' z'}, v.BlockZone s.view nr b' z' →
      v.BlockZone s₁.view nr b' z' ∧ s₁.view ⟨v.dev, z'⟩ = s.view ⟨v.dev, z'⟩ := by
    rintro b' z' ⟨p, r, hl, hv⟩
    exact ⟨BlockZone.extend ⟨p, r, hl, hv⟩ h.ready.owns hg.toExtends, hg.data (hl.slot h.ready.owns) hv⟩
  have hmode : v.desc t.view nr .mode = v.desc s.view nr .mode := by
    rw [← hg.head h.ready.owns.pos h.ready.owns.lt (show Field.mode.off + Field.mode.width ≤ 14 by decide)]
    refine fetch_congr fun o _ h2 => hdesc o (.inl (Nat.lt_of_lt_of_le h2 ?_))
    exact Nat.add_le_add_left (show 0 + 2 ≤ 4 by decide) _
  obtain ⟨size, hsz⟩ : ∃ a, a = v.desc s.view nr .size := ⟨_, rfl⟩
  obtain ⟨hnblock, hrest, hclear⟩ := hv
  have hmap := h.mapped
  have hbytes := h.bytes
  have hzero := h.zero
  rw [← hsz] at hnblock hmap hzero hsize
  simp only [← hsz] at hrest hbytes
  refine ⟨hn, ⟨h.ready.next hmoves, hbal, ?_, fun b' => ?_, fun p hp z' hz' => ?_, fun p hp => ?_⟩, ?_⟩
  · rw [hmode]
    exact h.file
  · -- the block written to is mapped besides
    have hiff : (∃ z', v.BlockZone t.view nr b' z') ↔ b' = offset / BLOCK_SIZE ∨ b' < blocks size := by
      rw [← hmap]
      constructor
      · rintro ⟨z', hz'⟩
        exact (honly (hzone.mp hz')).imp_right fun h => ⟨z', h⟩
      · rintro (rfl | ⟨z', hz'⟩)
        · exact ⟨z, hzone.mpr hz⟩
        · exact ⟨z', hzone.mpr (hkept hz').1⟩
    rw [hiff, hsize]
    unfold blocks BLOCK_SIZE at *
    omega
  · have hz' := hzone.mp hz'
    rw [hsize] at hp
    rw [hblock _ (BlockZone.ne_inodeKey hc₁ ho₁ hz')]
    by_cases hin : offset ≤ p ∧ p < offset + n
    · have hb : p / BLOCK_SIZE = offset / BLOCK_SIZE := by
        unfold BLOCK_SIZE at *
        omega
      rw [hb] at hz'
      have hzz := BlockZone.unique hready₁.loaded hbal₁ hz hz'
      have hmod : p % BLOCK_SIZE = offset % BLOCK_SIZE + (p - offset) := by
        unfold BLOCK_SIZE at *
        omega
      rw [if_pos (by rw [hzz]), copyIn_of_mem hin.1 hin.2, copyIn_of_mem (by omega) (by omega)]
      exact congrArg buf (by omega)
    · have hout : s₁.view ⟨v.dev, z'⟩ (p % BLOCK_SIZE) = m p := by
        by_cases hps : p < size
        · obtain ⟨z₀, hz₀⟩ := (hmap (p / BLOCK_SIZE)).mpr (by unfold blocks BLOCK_SIZE at *; omega)
          have hk := hkept hz₀
          obtain rfl := BlockZone.unique hready₁.loaded hbal₁ hz' hk.1
          rw [hk.2]
          exact hbytes p hps _ hz₀
        · rw [hzero p (by omega)]
          obtain hb | hz₀ := honly hz'
          · rw [hb] at hz'
            obtain rfl := BlockZone.unique hready₁.loaded hbal₁ hz hz'
            obtain hz₀ | ⟨k, buf', slot, u, hlab, hu, husize⟩ := htake hz0
            · rw [(hkept hz₀).2]
              exact hrest p (by omega) (by omega) _ (hb ▸ hz₀)
            · rw [← hu]
              refine hclear hlab husize (by omega) _ ?_
              unfold BLOCK_SIZE at *
              omega
          · rw [(hkept hz₀).2]
            exact hrest p (by omega) (by omega) _ hz₀
      rw [copyIn_of_ne (by omega), ← hout]
      by_cases e : (⟨v.dev, z'⟩ : Key) = ⟨v.dev, z⟩
      · rw [if_pos e]
        obtain rfl : z' = z := congrArg Key.block e
        have hb := BlockZone.inj hc₁ ho₁ hz hz'
        refine copyIn_of_ne ?_
        unfold BLOCK_SIZE at *
        omega
      · rw [if_neg e]
  · rw [hsize] at hp
    rw [copyIn_of_ne (by omega)]
    exact hzero p (by omega)
  · rw [hsize, ← hsz]

theorem inodeWriteLoop_builds (hC : ∀ l s, C l s → Supplied l s) (h : v.Built x nr m s)
    (fuel left offset : Nat) (buf : Bytes) (hv : left ≠ 0 → v.Leaves C nr offset s)
    (hfuel : left ≤ fuel) (hr : Runs C (inodeWriteLoop x fuel left offset buf) s n t) :
    v.Built x nr (copyIn m offset buf left) t := by
  induction fuel generalizing s left offset buf m with
  | zero =>
    obtain rfl : left = 0 := Nat.le_zero.mp hfuel
    obtain ⟨-, rfl⟩ := hr
    rw [copyIn_zero]
    exact h
  | succ fuel ih =>
    obtain ⟨rfl, -, rfl⟩ | ⟨hleft, hr⟩ := runs_ite.mp hr
    · rw [copyIn_zero]
      exact h
    · obtain ⟨chars, s₁, h₁, hr⟩ := runs_bind.mp hr
      obtain ⟨hchars, hbuilt, hsize⟩ := inodeWriteRound_builds hC h hleft (hv hleft) h₁
      have hmod := Nat.mod_lt offset (show BLOCK_SIZE > 0 by decide)
      have hnext := ih hbuilt (left - chars) (offset + chars) (fun j => buf (chars + j))
        (fun _ => leaves_of_le (by omega)) (by omega) hr
      rw [copyIn_append, show chars + (left - chars) = left by omega] at hnext
      exact hnext

/-- **`inode_write`** builds on. -/
theorem inodeWrite_builds (hC : ∀ l s, C l s → Supplied l s) (h : v.Built x nr m s) {len : Nat}
    (hv : len ≠ 0 → v.Leaves C nr offset s) (hr : Runs C (inodeWrite x buf len offset) s n t) :
    v.Built x nr (copyIn m offset buf len) t := by
  have hmoves := inodeWrite_moves h.ready (runs_mono hC hr)
  obtain ⟨mode, s₁, h₁, hr⟩ := runs_bind.mp hr
  rw [runs_descGet] at h₁
  obtain ⟨-, rfl⟩ := h₁
  obtain ⟨_, s₂, h₂, hr⟩ := runs_bind.mp hr
  rw [runs_assert] at h₂
  obtain ⟨-, rfl⟩ := h₂
  obtain ⟨offset', s₃, h₃, hr⟩ := runs_bind.mp hr
  have hb := inodeWriteLoop_builds hC h len len offset buf hv (Nat.le_refl len) h₃
  obtain ⟨now, s₄, h₄, hr⟩ := runs_bind.mp hr
  rw [runs_time] at h₄
  obtain ⟨-, rfl⟩ := h₄
  obtain ⟨_, s₅, h₅, hr⟩ := runs_bind.mp hr
  obtain ⟨i, s₆, ⟨rfl, rfl⟩, hr⟩ := runs_bind.mp hr
  obtain ⟨_, s₇, h₇, -, rfl⟩ := runs_bind.mp hr
  obtain ⟨htab, hhead, -⟩ := descSet_head (s := { s₃ with tick := s₃.tick + 1 }) hb.ready.loaded
    (by decide) (by decide) h₅
  have hsame := bwrite_same _ _ _ _ h₇.ends
  have hview : s₇.view = s₅.view := hsame.view
  rw [← hview] at hhead
  have hcounts : SameCounts s₃ s₇ := by
    rw [runs_descSet] at h₅
    intro k
    rw [bwrite_counts _ _ _ _ h₇.ends k, ← h₅]
    exact Kernel.count_poke ..
  have hc := hb.ready.consistent
  have ho := hb.ready.owns
  have hzone : ∀ {b z}, v.BlockZone s₇.view nr b z ↔ v.BlockZone s₃.view nr b z :=
    blockZone_of_words ho fun hq => hhead.word_eq hc ho hq
  have hsize : v.desc s₇.view nr .size = v.desc s₃.view nr .size := by
    rw [runs_descSet, hb.ready.loaded.buf, hb.ready.loaded.desc] at h₅
    unfold Volume.desc
    rw [hview, ← h₅, Kernel.view_poke_self]
    exact fetch_store_ne (.inl (by unfold Field.size Field.mtime; dsimp only; omega))
  refine ⟨h.ready.next hmoves, fun k => ?_, ?_, fun b => ?_, fun p hp z hz => ?_, fun p hp => ?_⟩
  · rw [hcounts k]
    exact hb.balanced k
  · have hmode : v.desc s₇.view nr .mode = v.desc s₃.view nr .mode := by
      refine fetch_congr fun o _ h2 => hhead.desc o (.inl (Nat.lt_of_lt_of_le h2 ?_))
      exact Nat.add_le_add_left (show 0 + 2 ≤ 4 by decide) _
    rw [hmode]
    exact hb.file
  · rw [hsize, ← hb.mapped]
    exact exists_congr fun z => hzone
  · have hz := hzone.mp hz
    rw [hhead.block _ (BlockZone.ne_inodeKey hc ho hz)]
    exact hb.bytes p (hsize ▸ hp) z hz
  · exact hb.zero p (hsize ▸ hp)

/-- **Every read** of a file built by writes comes to its end, and finds its bytes. -/
theorem Built.read (h : v.Built x nr m s) (buf : Bytes) (len offset : Nat) :
    ∃ t, Ends (inodeRead x buf len offset) s
      (if v.desc s.view nr .size ≤ offset then (none, buf)
        else (some (min len (v.desc s.view nr .size - offset)),
          copyIn buf 0 (fun j => m (offset + j)) (min len (v.desc s.view nr .size - offset)))) t := by
  obtain ⟨n, hn⟩ : ∃ n, n = blocks (v.desc s.view nr .size) := ⟨_, rfl⟩
  have hzones : ∀ b, ∃ z, b < n → v.BlockZone s.view nr b z := fun b => by
    by_cases hb : b < n
    · obtain ⟨z, hz⟩ := (h.mapped b).mpr (hn ▸ hb)
      exact ⟨z, fun _ => hz⟩
    · exact ⟨0, fun hb' => absurd hb' hb⟩
  choose zone hzone using hzones
  have hcovers : v.desc s.view nr .size ≤ n * BLOCK_SIZE := by
    rw [hn]
    unfold blocks BLOCK_SIZE
    omega
  have hmode : (ISFILE (v.desc s.view nr .mode) || ISDIR (v.desc s.view nr .mode)) = true := by
    rw [h.file]
    rfl
  obtain ⟨t, ht, -⟩ := inodeRead_mapped h.ready.loaded h.balanced (fun b hb => hzone b hb) hmode rfl
    hcovers buf len offset
  refine ⟨t, ?_⟩
  convert ht using 3
  refine copyIn_congr fun j hj => ?_
  have hp : offset + j < v.desc s.view nr .size := by omega
  have hb : (offset + j) / BLOCK_SIZE < n := by
    unfold BLOCK_SIZE at *
    omega
  exact (h.bytes _ hp _ (hzone _ hb)).symm

end Built

/-! ## 5. Runs of writes -/

/-- A call of `inode_write`: the bytes, their number and their place. -/
structure Piece where
  buf : Bytes
  len : Nat
  offset : Nat

/-- What writes leave: zeros at first, and each over the ones before it. -/
def replay (W : List Piece) : Bytes := W.foldl (fun m q => copyIn m q.offset q.buf q.len) fun _ => 0

theorem replay_append (W : List Piece) (q : Piece) :
    replay (W ++ [q]) = copyIn (replay W) q.offset q.buf q.len := by
  unfold replay
  rw [List.foldl_append]
  rfl

/-- `x` holds an empty file in memory. -/
structure Empty (v : Volume) (x nr : Nat) (s : Kernel) : Prop where
  ready : v.Ready x nr s
  balanced : s.Balanced
  file : ISFILE (v.desc s.view nr .mode) = true
  size : v.desc s.view nr .size = 0
  zones : ∀ i < 9, word s.view (v.zonePlace nr i) = 0

/-- **The files built by writes**: `Ok` is the condition a call meets in the state before it, `C` what
    holds wherever it waits for the disk. -/
inductive Writes (v : Volume) (x nr : Nat) (Ok : Piece → Kernel → Prop)
    (C : Piece → Kernel → List Frame → Kernel → Prop) : List Piece → Kernel → Prop where
  | empty {s : Kernel} (h : v.Empty x nr s) : Writes v x nr Ok C [] s
  | write {W : List Piece} {s t : Kernel} {n : Nat} (h : Writes v x nr Ok C W s) (q : Piece) (hok : Ok q s)
      (hr : Runs (C q s) (inodeWrite x q.buf q.len q.offset) s n t) : Writes v x nr Ok C (W ++ [q]) t

/-- No block is skipped, and the rest of the last block shows zeros as far as the write leaves it out. -/
structure Careful (v : Volume) (nr : Nat) (q : Piece) (s : Kernel) : Prop where
  block : q.len ≠ 0 → q.offset / BLOCK_SIZE ≤ blocks (v.desc s.view nr .size)
  rest : q.len ≠ 0 → ∀ p, v.desc s.view nr .size ≤ p → p < q.offset →
    ∀ z, v.BlockZone s.view nr (p / BLOCK_SIZE) z → s.view ⟨v.dev, z⟩ (p % BLOCK_SIZE) = 0

/-- There are zones, a new index block shows zeros, and so does the zone that a write behind the end takes
    for its first block, before the first byte written. -/
def Clear (v : Volume) (nr : Nat) (q : Piece) (s : Kernel) (l : List Frame) (u : Kernel) : Prop :=
  Supplied l u ∧
    match l with
    | [.bwrite _, .balloc _ z, .bmap _ _ _ 0] =>
      v.desc u.view nr .size = v.desc s.view nr .size → v.desc s.view nr .size < q.offset →
        ∀ i < q.offset % BLOCK_SIZE, u.view ⟨v.dev, z⟩ i = 0
    | _ => True

/-- The zone that `Clear` asks about. -/
def dataZone : List Frame → Option Nat
  | [.bwrite _, .balloc _ z, .bmap _ _ _ 0] => some z
  | _ => none

theorem dataZone_iff (v : Volume) (nr : Nat) (q : Piece) (s : Kernel) (l : List Frame) (u : Kernel) :
    (Supplied l u ∧ ∀ z ∈ dataZone l, v.desc u.view nr .size = v.desc s.view nr .size →
      v.desc s.view nr .size < q.offset → ∀ i < q.offset % BLOCK_SIZE, u.view ⟨v.dev, z⟩ i = 0) ↔
        Clear v nr q s l u := by
  unfold dataZone Clear
  split <;> simp

instance (v : Volume) (nr : Nat) (q : Piece) (s : Kernel) (l : List Frame) (u : Kernel) :
    Decidable (Clear v nr q s l u) :=
  decidable_of_iff _ (dataZone_iff v nr q s l u)

section Runs

variable {s : Kernel} {x nr : Nat}

/-- An empty file has no block. -/
theorem Empty.built (h : v.Empty x nr s) : v.Built x nr (fun _ => 0) s := by
  have hway : ∀ {b l p r}, v.Leads s.view nr b l p r → (v.forest s.view).val p = none := by
    intro b l p r hl
    induction hl with
    | start hs => exact val_none.mpr (h.zones _ (walk_start hs).1)
    | next hp hv ih =>
      rw [ih] at hv
      cases hv
  have hnone : ∀ {b z}, ¬ v.BlockZone s.view nr b z := by
    rintro b z ⟨p, r, hl, hv⟩
    rw [hway hl] at hv
    cases hv
  refine ⟨h.ready, h.balanced, h.file, fun b => ?_, fun p _ z hz => absurd hz hnone, fun _ _ => rfl⟩
  rw [h.size]
  exact iff_of_false (fun ⟨z, hz⟩ => hnone hz) (Nat.not_lt_zero b)

/-- A run of careful writes builds the file. -/
theorem writes_built {W : List Piece} (h : v.Writes x nr (v.Careful nr) (v.Clear nr) W s) :
    v.Built x nr (replay W) s := by
  induction h with
  | empty h => exact h.built
  | write _ q hok hr ih =>
    rw [replay_append]
    refine inodeWrite_builds (fun _ _ h => h.1) ih (fun hlen => ⟨hok.block hlen, hok.rest hlen, ?_⟩) hr
    exact fun hlab => hlab.2

end Runs

end Volume

/-- **Files built by careful writes.** Every read comes to its end; it finds what was written last, and
    zeros where nothing was. -/
theorem written_reads_back {v : Volume} {x nr : Nat} {W : List Volume.Piece} {s : Kernel}
    (h : v.Writes x nr (v.Careful nr) (v.Clear nr) W s) (buf : Bytes) (len offset : Nat) :
    ∃ t, Ends (inodeRead x buf len offset) s
      (if v.desc s.view nr .size ≤ offset then (none, buf)
        else (some (min len (v.desc s.view nr .size - offset)),
          copyIn buf 0 (fun j => Volume.replay W (offset + j))
            (min len (v.desc s.view nr .size - offset)))) t :=
  (Volume.writes_built h).read buf len offset

namespace Sample

theorem kernelFile_empty : volume.Empty 1 2 (kernelFile fun _ _ => 0) := by
  refine ⟨⟨mounted _, ⟨rfl, rfl, rfl⟩, kernelFile_zero, by decide⟩, fun k => ?_, by decide,
    by decide, by decide⟩
  show 0 ≤ if k = ⟨dev, 4⟩ then (2 : Int) else 0
  split <;> decide

/-- Three bytes at place 2. -/
def gapPiece : Volume.Piece := ⟨fun _ => 77, 3, 2⟩

/-- One byte in block 2. -/
def farPiece : Volume.Piece := ⟨fun _ => 77, 1, 2 * BLOCK_SIZE⟩

end Sample

/-- Three bytes are written at place 2 of an empty file, and all is read. -/
theorem written_reads_back_gap : ∃ s t data,
    Sample.volume.Writes 1 2 (Sample.volume.Careful 2) (Sample.volume.Clear 2) [Sample.gapPiece] s ∧
      Ends (inodeRead 1 (fun _ => 9) 10 0) s (some 5, data) t ∧ data 1 = 0 ∧ data 2 = 77 := by
  have hempty := Sample.kernelFile_empty
  have hrun : ∃ n t, Runs (Sample.volume.Clear 2 Sample.gapPiece (Sample.kernelFile fun _ _ => 0))
      (inodeWrite 1 Sample.gapPiece.buf Sample.gapPiece.len Sample.gapPiece.offset)
      (Sample.kernelFile fun _ _ => 0) n t ∧ Sample.volume.desc t.view 2 .size = 5 := by
    have halong : Along (Sample.volume.Clear 2 Sample.gapPiece (Sample.kernelFile fun _ _ => 0))
        (inodeWrite 1 Sample.gapPiece.buf Sample.gapPiece.len Sample.gapPiece.offset)
        (Sample.kernelFile fun _ _ => 0) := by decide
    obtain ⟨n, t, ht, hq⟩ := ends_of_run (p := inodeWrite 1 Sample.gapPiece.buf Sample.gapPiece.len
      Sample.gapPiece.offset) (s := Sample.kernelFile fun _ _ => 0)
      (q := fun _ t => decide (Sample.volume.desc t.view 2 .size = 5)) (by decide)
    refine ⟨n, t, ?_, of_decide_eq_true hq⟩
    apply runs_of_ends <;> assumption
  obtain ⟨n, s, hr, hsize⟩ := hrun
  have hcareful : Sample.volume.Careful 2 Sample.gapPiece (Sample.kernelFile fun _ _ => 0) := by
    refine ⟨fun _ => Nat.zero_le _, fun _ p _ _ z hz => ?_⟩
    have := (hempty.built.mapped _).mp ⟨z, hz⟩
    rw [hempty.size] at this
    exact absurd this (Nat.not_lt_zero _)
  have hwrites := Volume.Writes.write (.empty hempty) Sample.gapPiece hcareful hr
  obtain ⟨t, ht⟩ := written_reads_back hwrites (fun _ => 9) 10 0
  rw [hsize] at ht
  exact ⟨s, t, _, hwrites, ht, by decide, by decide⟩

/-- Behind a block that was skipped the file cannot be read. -/
theorem written_reads_back_not_always : ¬ ∀ (v : Volume) (x nr : Nat) (W : List Volume.Piece) (s : Kernel),
    v.Writes x nr (fun _ _ => True) (fun _ _ => Volume.Served) W s →
      ∀ (buf : Bytes) (len offset : Nat), offset < v.desc s.view nr .size →
        ∃ r t, Ends (inodeRead x buf len offset) s r t := by
  intro hall
  have halong : Along Volume.Served
      (inodeWrite 1 Sample.farPiece.buf Sample.farPiece.len Sample.farPiece.offset)
      (Sample.kernelFile fun _ _ => 0) := by decide
  obtain ⟨n, s, hs, hq⟩ := ends_of_run (p := inodeWrite 1 Sample.farPiece.buf Sample.farPiece.len
    Sample.farPiece.offset) (s := Sample.kernelFile fun _ _ => 0)
    (q := fun _ t => decide (0 < Sample.volume.desc t.view 2 .size) &&
      match (inodeRead 1 (fun _ => 0) 1 0).run t with
      | .ok _ => false
      | .error _ => true) (by decide +kernel)
  rw [Bool.and_eq_true] at hq
  have hwrites : Sample.volume.Writes 1 2 (fun _ _ => True) (fun _ _ => Volume.Served) [Sample.farPiece] s := by
    refine .write (n := n) (.empty Sample.kernelFile_empty) Sample.farPiece trivial ?_
    apply runs_of_ends <;> assumption
  obtain ⟨r, t, ht⟩ := hall _ _ _ _ _ hwrites (fun _ => 0) 1 0 (of_decide_eq_true hq.1)
  rw [ends_iff.mp ht] at hq
  cases hq.2

end Yuios
