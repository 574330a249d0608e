/-
  File:      Yuios/Fs/Content.lean
  Subject:   WHAT A FILE HOLDS: `inode_write` and `inode_read` on a file whose blocks are all mapped.

  * `Whole` -- the first blocks of a file lie in data zones that no other slot names. Every file of
    a consistent volume is whole as far as it is mapped (`Consistent.whole`).
  * `content` -- the file's bytes, one block behind the other.
  * `bmap_mapped` -- `bmap` comes to the zone of a mapped block, and changes nothing.
  * `Aside` -- what a change of the file's data and modification time leaves alone; the other files
    have what they had (`Aside.other`).
  * **`write_then_read`** -- a write inside the file comes to its end, and every later read answers
    the old bytes with the written ones in their place.
-/
import Yuios.Lib.Blocks
import Yuios.Fs.ZoneMap
import Yuios.Fs.OwnershipRun
import Yuios.Fs.Ledger

namespace Yuios

open Lib Prog Code

/-! ## 1. Buffers come and go -/

/-- No buffer has fewer references than none. -/
def Kernel.Balanced (s : Kernel) : Prop := ∀ k, 0 ≤ (s.cache.buf k).count

/-- The blocks show the same, and the buffers have the references they had. -/
structure Calm (s t : Kernel) : Prop extends Same s t where
  counts : SameCounts s t

instance : Steady Calm where
  refl s := ⟨.refl s, Steady.refl s⟩
  trans h h' := ⟨h.toSame.trans h'.toSame, Steady.trans h.counts h'.counts⟩

theorem Calm.balanced {s t : Kernel} (h : Calm s t) (hs : s.Balanced) : t.Balanced := fun k => by
  rw [h.counts k]
  exact hs k

/-- The buffer of `k` has one more reference than in `s`. -/
structure Held (k : Key) (s t : Kernel) : Prop extends Same s t where
  count : ∀ k', (t.cache.buf k').count = (s.cache.buf k').count + if k' = k then 1 else 0

section Buffers

variable {s t : Kernel} {k : Key}

theorem bread_goes (s : Kernel) (dev : Int) (block : Nat) :
    ∃ t, Ends (bread dev block) s ⟨dev, block⟩ t ∧ Held ⟨dev, block⟩ s t := by
  obtain ⟨t, ht⟩ : ∃ t, (bread dev block).run s = .ok (⟨dev, block⟩, t) := by
    unfold bread onCache
    rw [run_then run_modify, run_then run_reads]
    split
    · exact ⟨_, run_pure⟩
    · exact ⟨_, rfl⟩
  have h := ends_iff.mpr ht
  exact ⟨t, h, bread_same _ _ _ _ _ h, fun _ => bread_counts h⟩

/-- A buffer with a reference can be given back. -/
theorem brelse_ends (hpos : 0 < (t.cache.buf k).count) :
    ∃ u, Ends (brelse k) t () u ∧ Same t u ∧ ∀ k',
      (u.cache.buf k').count = (t.cache.buf k').count + if k' = k then -1 else 0 := by
  obtain ⟨t', ht', -⟩ := bwrite_run t k
  have hcount := bwrite_counts k _ _ _ (ends_iff.mpr ht')
  have hleft : 0 ≤ ((t'.cache.addCount k (-1)).buf k).count := by
    rw [count_addCount, if_pos rfl, hcount k]
    omega
  have hrel : (brelse k).run t = .ok ((), { t' with cache := t'.cache.addCount k (-1) }) := by
    unfold brelse onCache
    rw [run_then ht', run_then run_modify, run_then run_reads, run_assert, if_pos (decide_eq_true hleft)]
  have hends := ends_iff.mpr hrel
  exact ⟨_, hends, brelse_same k _ _ _ hends, fun _ => brelse_counts hends⟩

/-- A reference taken is given back. -/
theorem brelse_goes (hs : s.Balanced) (h : Held k s t) :
    ∃ u, Ends (brelse k) t () u ∧ Calm s u := by
  obtain ⟨u, hends, hsame, hcount⟩ := brelse_ends (t := t) (k := k) (by
    have := hs k
    rw [h.count k, if_pos rfl]
    omega)
  refine ⟨u, hends, h.toSame.trans hsame, fun k' => ?_⟩
  rw [hcount k', h.count k']
  split <;> omega

/-- What a calm stretch in front leaves of a reference taken behind it. -/
theorem Held.of_calm {u : Kernel} (h : Calm s t) (h' : Held k t u) : Held k s u :=
  ⟨h.toSame.trans h'.toSame, fun k' => by rw [h'.count k', h.counts k']⟩

theorem Held.mark (h : Held k s t) (k' : Key) : Held k s (t.mark k') :=
  ⟨h.toSame.trans (mark_same t k'), fun k'' => count_setDirty.trans (h.count k'')⟩

theorem Kernel.count_poke (s : Kernel) (k k' : Key) (f : Bytes → Bytes) :
    ((s.poke k f).cache.buf k').count = (s.cache.buf k').count := Yuios.count_poke

/-- A write through a pointer, in front of the reference and behind it. -/
theorem Held.poke (h : Held k s t) (k' : Key) (f : Bytes → Bytes) : Held k (s.poke k' f) (t.poke k' f) := by
  refine ⟨⟨?_, h.tab, h.clock, h.tick⟩, fun k'' => ?_⟩
  · funext k''
    have hview : t.view = s.view := h.view
    show (t.poke k' f).view k'' = (s.poke k' f).view k''
    rw [Kernel.view_poke, Kernel.view_poke, hview]
  · rw [Kernel.count_poke, Kernel.count_poke]
    exact h.count k''

theorem Kernel.Balanced.poke (h : s.Balanced) (k' : Key) (f : Bytes → Bytes) : (s.poke k' f).Balanced :=
  fun k'' => (h k'').trans_eq (Kernel.count_poke ..).symm

theorem hold_held (s : Kernel) (k : Key) : Held k s { s with cache := s.cache.addCount k 1 } :=
  ⟨hold_same k 1 _ () _ (runs_modify.mpr rfl), fun _ => count_addCount⟩

end Buffers

namespace Volume

variable {v : Volume}

/-! ## 2. `bmap` on a mapped block -/

section Bmap

variable {s t : Kernel} {x nr b : Nat} {buf : Key}

/-- A slot that is full is looked at and given back. -/
theorem bmapSlot_full (x : Nat) (create : Bool) (level slot : Nat) (hs : s.Balanced) (h : Held buf s t)
    (hz : word s.view (buf, slot) ≠ 0) :
    ∃ u, Ends (bmapSlot x create level buf slot) t () u ∧ Calm s u := by
  obtain ⟨u, hu, hc⟩ := brelse_goes hs h
  have hview : t.view = s.view := h.view
  have hfull : ¬ (fetch (t.view buf) slot 2 = 0 ∧ create = true) := fun e => by
    rw [hview] at e
    exact hz e.1
  refine ⟨u, ?_, hc⟩
  rw [Ends, bmapSlot, runs_within]
  exact runs_bind.mpr ⟨(), t, runs_bind.mpr ⟨_, t, ⟨rfl, rfl⟩, runs_ite.mpr (.inr ⟨hfull, rfl, rfl⟩)⟩, hu⟩

/-- Where the walk of `bmap` goes on, the walk from the slot is all that is left to do. -/
def Arrives (x b : Nat) (create : Bool) (s : Kernel) (l : Nat) (p : Place) (r : Nat) : Prop :=
  ∃ t array index divider, Held p.1 s t ∧ p.2 = array + 2 * index ∧ Walk l r divider ∧
    ∀ a u, Ends (bmapReckon x create l p.1 array index r divider) t a u → Ends (bmap x b create) s a u

theorem arrives_start (create : Bool) (hx : v.Loaded s.tab x nr) {l i r d : Nat} (h : BmapStart b l i r d) :
    Arrives x b create s l (v.zonePlace nr i) r := by
  have hb : (v.zonePlace nr i).1 = (s.tab.inodeTable x).buf := hx.buf.symm
  have ho : (v.zonePlace nr i).2 = (s.tab.inodeTable x).desc + (Field.zone 0).off + 2 * i := by
    rw [hx.desc]
    exact (Nat.add_assoc ..).symm
  have hlt : b < TOTAL_BLOCK := by
    cases h with
    | direct h => exact Nat.lt_of_lt_of_le h (by decide)
    | single h h' =>
      have h' : b - 7 < 512 := h'
      show b < 7 + 512 + 512 * 512
      omega
    | double h h' => exact h'
  refine ⟨_, _, i, d, hold_held s _, ho, (walk_start h).2.2, fun a u hr => ?_⟩
  rw [hb] at hr
  refine runs_bind.mpr ⟨(), s, runs_assert.mpr ⟨decide_eq_true hlt, rfl⟩, runs_bind.mpr ⟨_, s,
    runs_inodeAt.mpr ⟨rfl, rfl⟩, runs_bind.mpr ⟨(), _, runs_modify.mpr rfl, runs_ite.mpr ?_⟩⟩⟩
  cases h with
  | direct h => exact .inl ⟨h, hr⟩
  | single h h' => exact .inr ⟨Nat.not_lt.mpr h, runs_ite.mpr (.inl ⟨h', hr⟩)⟩
  | double h h' =>
    have h1 : ¬ b < DIRECT_BLOCK := fun hb => by omega
    have h2 : ¬ b - DIRECT_BLOCK < INDIRECT1_BLOCK := fun hb => by omega
    have h3 : b - DIRECT_BLOCK - INDIRECT1_BLOCK < INDIRECT2_BLOCK := by
      unfold TOTAL_BLOCK at h'
      omega
    refine .inr ⟨h1, runs_ite.mpr (.inr ⟨h2, ?_⟩)⟩
    simp only [runs_bind, runs_assert]
    exact ⟨(), _, ⟨decide_eq_true h3, rfl⟩, hr⟩

/-- The walk goes through every full slot on the way to its block. -/
theorem arrives (create : Bool) (hx : v.Loaded s.tab x nr) (hs : s.Balanced) {l r : Nat} {p : Place}
    (h : v.Leads s.view nr b l p r) : Arrives x b create s l p r := by
  induction h with
  | start h => exact arrives_start create hx h
  | next hp hv ih =>
    rename_i l r z p
    obtain ⟨t, array, index, divider, ht, ho, hw, hrest⟩ := ih
    obtain ⟨hz, hz0⟩ := val_eq.mp hv
    obtain ⟨u, hu, hcalm⟩ := bmapSlot_full x create (l + 1) p.2 hs ht (hz.symm ▸ hz0)
    obtain ⟨w, hw', hheld⟩ := bread_goes u v.dev z
    obtain ⟨hdiv, hnext⟩ := hw.next
    have hzone : fetch (u.view p.1) (array + 2 * index) 2 = z := by
      rw [← ho, show u.view = s.view from hcalm.view]
      exact hz
    have hdev : (u.tab.inodeTable x).dev = v.dev := by
      rw [hcalm.tab]
      exact hx.dev
    refine ⟨w, 0, r / divider, divider / BLOCK_INDEXES, .of_calm hcalm hheld, ?_, ?_, fun a y hr =>
      hrest a y ?_⟩
    · rw [Nat.zero_add, hdiv]
      rfl
    · rw [← hdiv]
      exact hnext
    · rw [ho] at hu
      refine runs_bind.mpr ⟨(), u, hu, runs_bind.mpr ⟨_, u, runs_bytesOf.mpr ⟨rfl, rfl⟩, ?_⟩⟩
      dsimp only
      rw [hzone]
      refine runs_ite.mpr (.inr ⟨hz0, runs_bind.mpr ⟨_, u, runs_inodeAt.mpr ⟨rfl, rfl⟩, ?_⟩⟩)
      rw [hdev, ← hdiv] at *
      exact runs_bind.mpr ⟨_, w, hw', hr⟩

/-- **`bmap` of a mapped block** answers its zone, and changes nothing. -/
theorem bmap_mapped (create : Bool) (hx : v.Loaded s.tab x nr) (hs : s.Balanced) {z : Nat}
    (h : v.BlockZone s.view nr b z) : ∃ t, Ends (bmap x b create) s z t ∧ Calm s t := by
  obtain ⟨p, r, hl, hv⟩ := h
  obtain ⟨t, array, index, divider, ht, ho, -, hrest⟩ := arrives create hx hs hl
  obtain ⟨hz, hz0⟩ := val_eq.mp hv
  obtain ⟨u, hu, hcalm⟩ := bmapSlot_full x create 0 p.2 hs ht (hz.symm ▸ hz0)
  rw [ho] at hu
  refine ⟨u, hrest z u (runs_bind.mpr ⟨(), u, hu, runs_bind.mpr ⟨_, u, runs_bytesOf.mpr ⟨rfl, rfl⟩, ?_⟩⟩),
    hcalm⟩
  rw [← ho, show u.view = s.view from hcalm.view]
  exact ⟨hz, rfl⟩

end Bmap

/-! ## 3. A file whose zones are its own -/

/-- The first `n` blocks of file `nr` are mapped, block `b` to zone `zone b`. Every zone on the way
    there is a data zone, and no other slot names it. -/
structure Whole (v : Volume) (w : View) (nr n : Nat) (zone : Nat → Nat) : Prop where
  owns : v.Owns w nr
  mapped : ∀ b < n, v.BlockZone w nr b (zone b)
  first : ∀ b < n, ∀ {l p r z}, v.Leads w nr b l p r → (v.forest w).val p = some z → v.firstdatazone ≤ z
  alone : ∀ b < n, ∀ {l p r z}, v.Leads w nr b l p r → (v.forest w).val p = some z →
    ∀ {l' q}, (v.forest w).Slot l' q → (v.forest w).val q = some z → q = p ∧ l' = l

/-- The zones a file names are data zones. -/
def Inside (v : Volume) (w : View) (nr : Nat) : Prop :=
  ∀ {b l p r z}, v.Leads w nr b l p r → (v.forest w).val p = some z → v.firstdatazone ≤ z

section Whole

variable {w w' : View} {nr nr' n b b' l l' r r' : Nat} {p : Place} {zone : Nat → Nat}

theorem zonePlace_inj' {i j : Nat} (hi : i < 9) (hj : j < 9) (hpos : 0 < nr) (hpos' : 0 < nr')
    (h : v.zonePlace nr i = v.zonePlace nr' j) : nr = nr' ∧ i = j := by
  have hk : 2 + v.imapBlocks + v.zmapBlocks + (nr - 1) / 32 =
      2 + v.imapBlocks + v.zmapBlocks + (nr' - 1) / 32 := congrArg (fun p : Place => p.1.block) h
  have ho : 32 * ((nr - 1) % 32) + (14 + 2 * i) = 32 * ((nr' - 1) % 32) + (14 + 2 * j) :=
    congrArg Prod.snd h
  omega

/-- The entry of `zone[]` and the rest tell the block. -/
theorem start_block {i d : Nat} (h : BmapStart b l i r d) :
    b = if i < DIRECT_BLOCK then i else if i = DIRECT_BLOCK then r + DIRECT_BLOCK
      else r + DIRECT_BLOCK + INDIRECT1_BLOCK := by
  cases h with
  | direct h => rw [if_pos h]
  | single h h' => rw [if_neg (Nat.lt_irrefl _), if_pos rfl, Nat.sub_add_cancel h]
  | double h h' =>
    rw [if_neg (by omega), if_neg (by omega)]
    omega

/-- The zones on the way to block `b` are data zones, and no other slot names them. -/
structure OwnWay (v : Volume) (w : View) (nr b : Nat) : Prop where
  owns : v.Owns w nr
  first : ∀ {l p r z}, v.Leads w nr b l p r → (v.forest w).val p = some z → v.firstdatazone ≤ z
  alone : ∀ {l p r z}, v.Leads w nr b l p r → (v.forest w).val p = some z →
    ∀ {l' q}, (v.forest w).Slot l' q → (v.forest w).val q = some z → q = p ∧ l' = l

theorem Whole.way (h : v.Whole w nr n zone) (hb : b < n) : v.OwnWay w nr b :=
  ⟨h.owns, h.first b hb, h.alone b hb⟩

theorem Consistent.way (h : v.Consistent w) (ho : v.Owns w nr) : v.OwnWay w nr b where
  owns := ho
  first hl hv := (h.owned.used (hl.slot ho) hv).first
  alone hl hv _ _ hq hv' := h.owned.one hq (hl.slot ho) hv' hv

/-- **In a consistent volume** every file is whole as far as it is mapped. -/
theorem Consistent.whole (h : v.Consistent w) (ho : v.Owns w nr)
    (hm : ∀ b < n, v.BlockZone w nr b (zone b)) : v.Whole w nr n zone :=
  ⟨ho, hm, fun _ _ => (h.way ho).first, fun _ _ => (h.way ho).alone⟩

/-- **A slot on a file's way to a block** is on no other file's way, and on no other way of this file
    with the same rest. -/
theorem OwnWay.same_slot (h : v.OwnWay w nr b) (hl : v.Leads w nr b l p r) (ho : v.Owns w nr')
    (hin : ∀ {l p r z}, v.Leads w nr' b' l p r → (v.forest w).val p = some z → v.firstdatazone ≤ z)
    (hl' : v.Leads w nr' b' l' p r') : nr' = nr ∧ l' = l ∧ (r' = r ∨ l = 0 → b' = b) := by
  induction hl generalizing l' r' with
  | start hs =>
    rename_i l i r d
    obtain ⟨hi, rfl, -⟩ := walk_start hs
    generalize hp : v.zonePlace nr i = p at hl'
    cases hl' with
    | start hs' =>
      rename_i i' d'
      obtain ⟨hi', rfl, -⟩ := walk_start hs'
      obtain ⟨rfl, rfl⟩ := zonePlace_inj' hi hi' h.owns.pos ho.pos hp
      refine ⟨rfl, rfl, fun hr => ?_⟩
      rw [start_block hs, start_block hs']
      obtain rfl | hr := hr
      · rfl
      · have hd : i < DIRECT_BLOCK := by
          by_contra hd
          rw [zoneLevel, if_neg hd] at hr
          omega
        rw [if_pos hd, if_pos hd]
    | next hp' hv' =>
      have hz := hin hp' hv'
      have hk : (v.inodeKey nr).block = _ := congrArg (fun q : Place => q.1.block) hp
      have := (inodeKey_block h.owns.pos h.owns.lt).2
      unfold indexPlace at hk
      dsimp only at hk
      omega
  | next hp hv ih =>
    rename_i l r z q
    have hz := h.first hp hv
    generalize hplace : v.indexPlace z (r / BLOCK_INDEXES ^ l) = p at hl'
    cases hl' with
    | start hs' =>
      have hk : z = _ := congrArg (fun q : Place => q.1.block) hplace
      have := (inodeKey_block ho.pos ho.lt).2
      unfold zonePlace at hk
      dsimp only at hk
      omega
    | next hp' hv' =>
      rename_i r₁ z' q'
      obtain rfl : z = z' := congrArg (fun q : Place => q.1.block) hplace
      obtain ⟨rfl, hlev⟩ := h.alone hp hv (hp'.slot ho) hv'
      obtain ⟨rfl, -, hbb⟩ := ih hp'
      obtain rfl := Nat.succ.inj hlev
      refine ⟨rfl, rfl, fun hr => hbb (.inl ?_)⟩
      have hq : r / BLOCK_INDEXES ^ l' = r₁ / BLOCK_INDEXES ^ l' := by
        have : 2 * (r / BLOCK_INDEXES ^ l') = 2 * (r₁ / BLOCK_INDEXES ^ l') := congrArg Prod.snd hplace
        omega
      obtain hr | rfl := hr
      · rw [← Nat.div_add_mod r (BLOCK_INDEXES ^ l'), ← Nat.div_add_mod r₁ (BLOCK_INDEXES ^ l'), hq, hr]
      · rw [Nat.pow_zero, Nat.div_one, Nat.div_one] at hq
        exact hq.symm

/-- Two blocks of the file have two zones. -/
theorem Whole.inj (h : v.Whole w nr n zone) (hb : b < n) (hb' : b' < n) (he : zone b' = zone b) :
    b' = b := by
  obtain ⟨p, r, hl, hv⟩ := h.mapped b hb
  obtain ⟨p', r', hl', hv'⟩ := h.mapped b' hb'
  obtain ⟨rfl, -⟩ := h.alone b hb hl hv (hl'.slot h.owns) (he ▸ hv')
  exact ((h.way hb).same_slot hl h.owns (h.first b' hb') hl').2.2 (.inr rfl)

theorem Whole.zone_first (h : v.Whole w nr n zone) (hb : b < n) : v.firstdatazone ≤ zone b := by
  obtain ⟨p, r, hl, hv⟩ := h.mapped b hb
  exact h.first b hb hl hv

/-- The file's data zones hold no slot. -/
theorem Whole.ne_slot (h : v.Whole w nr n zone) (hb : b < n) (hp : (v.forest w).Slot l p) :
    p.1 ≠ ⟨v.dev, zone b⟩ := by
  intro hk
  have hz := h.zone_first hb
  cases hp with
  | root hr =>
    obtain ⟨nr', i, ho, -, -, rfl⟩ := hr
    have := (inodeKey_block ho.pos ho.lt).2
    have : (v.inodeKey nr').block = zone b := congrArg Key.block hk
    omega
  | inside hq hv hi =>
    obtain ⟨j, -, rfl⟩ := hi
    obtain ⟨q, r, hl, hvz⟩ := h.mapped b hb
    have e : _ = zone b := congrArg Key.block hk
    cases (h.alone b hb hl hvz hq (e ▸ hv)).2

/-- The way to a block, where its slots are the same. -/
theorem Leads.congr (hw : ∀ {l p r}, v.Leads w nr b l p r → word w' p = word w p) :
    v.Leads w' nr b l p r ↔ v.Leads w nr b l p r := by
  constructor
  · intro h
    induction h with
    | start hs => exact .start hs
    | next hp hv ih => exact .next ih ((val_congr (hw ih)).symm.trans hv)
  · intro h
    induction h with
    | start hs => exact .start hs
    | next hp hv ih => exact .next ih ((val_congr (hw hp)).trans hv)

theorem BlockZone.congr (hw : ∀ {l p r}, v.Leads w nr b l p r → word w' p = word w p) {z : Nat}
    (h : v.BlockZone w nr b z) : v.BlockZone w' nr b z := by
  obtain ⟨p, r, hl, hv⟩ := h
  exact ⟨p, r, (Leads.congr hw).mpr hl, (val_congr (hw hl)).trans hv⟩

/-- A change in the data of the file leaves all slots. -/
theorem Whole.of_data (h : v.Whole w nr n zone)
    (hw : ∀ k : Key, (∀ b < n, k ≠ ⟨v.dev, zone b⟩) → w' k = w k) : v.Whole w' nr n zone := by
  have hword : ∀ {l p}, (v.forest w).Slot l p → word w' p = word w p := fun hp =>
    word_congr (hw _ fun b hb => h.ne_slot hb hp)
  have hlow : ∀ k : Key, k.block < v.firstdatazone → w' k = w k := fun k hk => hw k fun b hb e => by
    rw [e] at hk
    exact Nat.not_lt.mpr (h.zone_first hb) hk
  have howns : ∀ {nr}, v.Owns w' nr ↔ v.Owns w nr := by
    intro nr
    have hroom := v.room
    have hset : nr < v.inodes → v.inodeSet w' nr = v.inodeSet w nr := fun hnr =>
      inodeSet_congr hnr fun k hk => hlow k (by omega)
    have hmode : 0 < nr → nr < v.inodes → v.desc w' nr .mode = v.desc w nr .mode := fun h1 h2 =>
      desc_congr (hlow _ (inodeKey_block h1 h2).2)
    constructor
    · intro ho
      exact ho.congr (hset ho.lt) (hmode ho.pos ho.lt)
    · intro ho
      exact ho.congr (hset ho.lt).symm (hmode ho.pos ho.lt).symm
  have hslot : ∀ {l p}, (v.forest w').Slot l p → (v.forest w).Slot l p := fun hp => by
    refine Forest.Slot.of_congr ?_ ?_ (fun l p hp => val_congr (hword hp)) hp
    · rintro l q ⟨nr, i, ho, hi⟩
      exact ⟨nr, i, howns.mp ho, hi⟩
    · exact fun _ _ hi => hi
  have hway : ∀ {b l p r}, v.Leads w' nr b l p r ↔ v.Leads w nr b l p r :=
    Leads.congr fun hl => hword (hl.slot h.owns)
  refine ⟨howns.mpr h.owns, fun b hb => (h.mapped b hb).congr fun hl => hword (hl.slot h.owns),
    fun b hb l p r z hl hv => ?_, fun b hb l p r z hl hv l' q hq hv' => ?_⟩
  · have hl := hway.mp hl
    exact h.first b hb hl ((val_congr (hword (hl.slot h.owns))).symm.trans hv)
  · have hl := hway.mp hl
    have hq := hslot hq
    exact h.alone b hb hl ((val_congr (hword (hl.slot h.owns))).symm.trans hv) hq
      ((val_congr (hword hq)).symm.trans hv')

end Whole

/-! ## 4. Reading -/

/-- The bytes of a file whose block `b` lies in zone `zone b`. -/
def content (v : Volume) (w : View) (zone : Nat → Nat) : Bytes :=
  flat BLOCK_SIZE fun b => w ⟨v.dev, zone b⟩

theorem content_piece {w : View} {zone : Nat → Nat} {p j : Nat} (h : j < BLOCK_SIZE - p % BLOCK_SIZE) :
    v.content w zone (p + j) = w ⟨v.dev, zone (p / BLOCK_SIZE)⟩ (p % BLOCK_SIZE + j) := flat_piece h

section Read

variable {s : Kernel} {x nr n : Nat} {zone : Nat → Nat}

theorem Loaded.calm {t : Kernel} (hx : v.Loaded s.tab x nr) (h : Calm s t) : v.Loaded t.tab x nr :=
  h.tab.symm ▸ hx

/-- A block below the end of the range. -/
theorem block_lt {offset left : Nat} (hle : offset + left ≤ n * BLOCK_SIZE) (h : left ≠ 0) :
    offset / BLOCK_SIZE < n := by
  refine Nat.div_lt_of_lt_mul ?_
  rw [Nat.mul_comm]
  omega

/-- **The loop of `inode_read`** on mapped blocks. -/
theorem inodeReadLoop_mapped (hx : v.Loaded s.tab x nr) (hs : s.Balanced)
    (hm : ∀ b < n, v.BlockZone s.view nr b (zone b)) (fuel left offset done : Nat) (buf : Bytes)
    (hle : offset + left ≤ n * BLOCK_SIZE) (hfuel : left ≤ fuel) :
    ∃ t, Ends (inodeReadLoop x fuel left offset done buf) s
      (offset + left, copyIn buf done (fun j => v.content s.view zone (offset + j)) left) t ∧
      Calm s t := by
  induction fuel generalizing s left offset done buf with
  | zero =>
    obtain rfl : left = 0 := Nat.le_zero.mp hfuel
    exact ⟨s, ⟨by rw [copyIn_zero, Nat.add_zero], rfl⟩, Steady.refl s⟩
  | succ fuel ih =>
    by_cases hleft : left = 0
    · subst hleft
      exact ⟨s, runs_ite.mpr (.inl ⟨rfl, by rw [copyIn_zero, Nat.add_zero], rfl⟩), Steady.refl s⟩
    · have hb := block_lt hle hleft
      obtain ⟨s₁, h₁, hc₁⟩ := bmap_mapped false hx hs (hm _ hb)
      obtain ⟨p, r, -, hv⟩ := hm _ hb
      have hx₁ := hx.calm hc₁
      obtain ⟨s₂, h₂, hh⟩ := bread_goes s₁ v.dev (zone (offset / BLOCK_SIZE))
      obtain ⟨s₃, h₃, hc₃⟩ := brelse_goes (hc₁.balanced hs) hh
      have hc := Steady.trans hc₁ hc₃
      have hstart : offset % BLOCK_SIZE < BLOCK_SIZE := Nat.mod_lt _ (by decide)
      obtain ⟨chars, hchars⟩ : ∃ c, c = min (BLOCK_SIZE - offset % BLOCK_SIZE) left := ⟨_, rfl⟩
      have hview₂ : s₂.view = s.view := hh.view.trans hc₁.view
      have hview : s₃.view = s.view := hc.view
      obtain ⟨t, ht, hct⟩ := ih (hx.calm hc) (hc.balanced hs) (hview.symm ▸ hm) (left - chars)
        (offset + chars) (done + chars) (copyIn buf done
          (fun j => s₂.view ⟨v.dev, zone (offset / BLOCK_SIZE)⟩ (offset % BLOCK_SIZE + j)) chars)
        (by omega) (by omega)
      refine ⟨t, runs_ite.mpr (.inr ⟨hleft, runs_bind.mpr ⟨_, s₁, h₁, runs_bind.mpr ⟨(), s₁,
        runs_assert.mpr ⟨decide_eq_true (val_eq.mp hv).2, rfl⟩, runs_bind.mpr ⟨_, s₁,
          runs_inodeAt.mpr ⟨rfl, rfl⟩, runs_bind.mpr ⟨_, s₂, hx₁.dev.symm ▸ h₂, runs_bind.mpr ⟨_, s₂,
            runs_bytesOf.mpr ⟨rfl, rfl⟩, runs_bind.mpr ⟨(), s₃, h₃, ?_⟩⟩⟩⟩⟩⟩⟩), Steady.trans hc hct⟩
      rw [← hchars]
      convert ht using 2
      · omega
      · -- the rest goes behind the piece
        rw [hview, hview₂]
        have hpiece : ∀ j < chars, s.view ⟨v.dev, zone (offset / BLOCK_SIZE)⟩ (offset % BLOCK_SIZE + j) =
            v.content s.view zone (offset + j) := fun j hj => (content_piece (by omega)).symm
        rw [copyIn_congr hpiece]
        have hsum : left = chars + (left - chars) := by omega
        rw [hsum, ← copyIn_append]
        simp only [Nat.add_assoc, ← hsum]

/-- **`inode_read`** on mapped blocks. -/
theorem inodeRead_mapped (hx : v.Loaded s.tab x nr) (hs : s.Balanced)
    (hm : ∀ b < n, v.BlockZone s.view nr b (zone b))
    (hmode : (ISFILE (v.desc s.view nr .mode) || ISDIR (v.desc s.view nr .mode)) = true) {size : Nat}
    (hsize : v.desc s.view nr .size = size) (hle : size ≤ n * BLOCK_SIZE) (buf : Bytes) (len offset : Nat) :
    ∃ t, Ends (inodeRead x buf len offset) s
      (if size ≤ offset then (none, buf)
        else (some (min len (size - offset)),
          copyIn buf 0 (fun j => v.content s.view zone (offset + j)) (min len (size - offset)))) t ∧
      Calm s t := by
  have hsize' : s.desc x .size = size := (hx.desc_eq .size).trans hsize
  have hmode' : (ISFILE (s.desc x .mode) || ISDIR (s.desc x .mode)) = true := by
    rw [hx.desc_eq]
    exact hmode
  have hstart : ∀ a u, Ends (if offset ≥ size then pure (none, buf) else do
      let left := min len (size - offset)
      let r ← inodeReadLoop x left left offset 0 buf
      pure (some (r.1 - offset), r.2)) s a u → Ends (inodeRead x buf len offset) s a u := fun a u h =>
    runs_bind.mpr ⟨_, s, runs_descGet.mpr ⟨rfl, rfl⟩, runs_bind.mpr ⟨(), s, runs_assert.mpr ⟨hmode', rfl⟩,
      runs_bind.mpr ⟨_, s, runs_descGet.mpr ⟨hsize', rfl⟩, h⟩⟩⟩
  by_cases hend : size ≤ offset
  · rw [if_pos hend]
    exact ⟨s, hstart _ _ (runs_ite.mpr (.inl ⟨hend, rfl, rfl⟩)), Steady.refl s⟩
  · obtain ⟨t, ht, hc⟩ := inodeReadLoop_mapped hx hs hm _ (min len (size - offset)) offset 0 buf
      (by omega) (Nat.le_refl _)
    rw [if_neg hend]
    refine ⟨t, hstart _ _ (runs_ite.mpr (.inr ⟨hend, runs_bind.mpr ⟨_, t, ht, ?_, rfl⟩⟩)), hc⟩
    rw [Nat.add_sub_cancel_left]

end Read

/-! ## 5. Writing -/

/-- `len` bytes of `buf` have been written at `off` of the file, and nothing else has changed. -/
structure Wrote (v : Volume) (n : Nat) (zone : Nat → Nat) (off len : Nat) (buf : Bytes) (s t : Kernel) :
    Prop where
  tab : t.tab = s.tab
  counts : SameCounts s t
  other : ∀ k : Key, (∀ b < n, k ≠ ⟨v.dev, zone b⟩) → t.view k = s.view k
  content : ∀ p < n * BLOCK_SIZE,
    v.content t.view zone p = copyIn (v.content s.view zone) off buf len p

section Write

variable {s t : Kernel} {x nr n size left offset : Nat} {zone : Nat → Nat} {buf : Bytes}

/-- What `inode_write` starts from: `x` holds a file whose blocks are all mapped. -/
structure Filed (v : Volume) (x nr n : Nat) (zone : Nat → Nat) (size : Nat) (s : Kernel) : Prop where
  loaded : v.Loaded s.tab x nr
  balanced : s.Balanced
  whole : v.Whole s.view nr n zone
  file : ISFILE (v.desc s.view nr .mode) = true
  sized : v.desc s.view nr .size = size
  covers : size ≤ n * BLOCK_SIZE

theorem Wrote.nothing (h : Same s t) (hc : SameCounts s t) : v.Wrote n zone offset 0 buf s t := by
  have hview : t.view = s.view := h.view
  exact ⟨h.tab, hc, fun k _ => by rw [hview], fun p _ => by rw [hview, copyIn_zero]⟩

theorem Filed.next {off len : Nat} (h : v.Filed x nr n zone size s) (hw : v.Wrote n zone off len buf s t) :
    v.Filed x nr n zone size t := by
  have hkey : t.view (v.inodeKey nr) = s.view (v.inodeKey nr) := hw.other _ fun b hb e => by
    have := (inodeKey_block h.whole.owns.pos h.whole.owns.lt).2
    rw [e] at this
    exact Nat.not_lt.mpr (h.whole.zone_first hb) this
  refine ⟨hw.tab ▸ h.loaded, fun k => ?_, h.whole.of_data hw.other, ?_, ?_, h.covers⟩
  · rw [hw.counts k]
    exact h.balanced k
  · rw [desc_congr hkey]
    exact h.file
  · rw [desc_congr hkey]
    exact h.sized

theorem Wrote.trans {u : Kernel} {off k m : Nat} (h : v.Wrote n zone off k buf s t)
    (h' : v.Wrote n zone (off + k) m (fun j => buf (k + j)) t u) : v.Wrote n zone off (k + m) buf s u where
  tab := h'.tab.trans h.tab
  counts := Steady.trans h.counts h'.counts
  other k hk := (h'.other k hk).trans (h.other k hk)
  content p hp := by
    rw [h'.content p hp, copyIn_at (h.content p hp), copyIn_append]

/-- **One round of `inode_write`** inside the file. -/
theorem inodeWriteRound_mapped (h : v.Filed x nr n zone size s) (buf : Bytes) (hleft : left ≠ 0)
    (hle : offset + left ≤ size) :
    ∃ t, Ends (inodeWriteRound x left offset buf) s (min (BLOCK_SIZE - offset % BLOCK_SIZE) left) t ∧
      v.Wrote n zone offset (min (BLOCK_SIZE - offset % BLOCK_SIZE) left) buf s t := by
  have hb := block_lt (hle.trans h.covers) hleft
  obtain ⟨z, hz⟩ : ∃ z, z = zone (offset / BLOCK_SIZE) := ⟨_, rfl⟩
  obtain ⟨chars, hchars⟩ : ∃ c, c = min (BLOCK_SIZE - offset % BLOCK_SIZE) left := ⟨_, rfl⟩
  have hmap := h.whole.mapped _ hb
  rw [← hz] at hmap
  obtain ⟨s₁, h₁, hc₁⟩ := bmap_mapped true h.loaded h.balanced hmap
  obtain ⟨p, r, -, hv⟩ := hmap
  have hx₁ := h.loaded.calm hc₁
  obtain ⟨s₂, h₂, hh⟩ := bread_goes s₁ v.dev z
  have hh₃ : Held ⟨v.dev, z⟩ s (s₂.mark ⟨v.dev, z⟩) := (Held.of_calm hc₁ hh).mark _
  obtain ⟨s₃, hs₃⟩ : ∃ s₃, s₃ = s₂.mark ⟨v.dev, z⟩ := ⟨_, rfl⟩
  rw [← hs₃] at hh₃
  obtain ⟨f, hf⟩ : ∃ f : Bytes → Bytes, f = fun b => copyIn b (offset % BLOCK_SIZE) buf chars := ⟨_, rfl⟩
  obtain ⟨t, ht, hc⟩ := brelse_goes (h.balanced.poke ⟨v.dev, z⟩ f) (hh₃.poke ⟨v.dev, z⟩ f)
  have hsize : s₃.desc x .size = size := by
    have hx₃ : v.Loaded s₃.tab x nr := hh₃.tab.symm ▸ h.loaded
    have hview : s₃.view = s.view := hh₃.view
    rw [hx₃.desc_eq, hview]
    exact h.sized
  have hgrow : Ends (growSize x (offset + chars)) s₃ () s₃ :=
    runs_bind.mpr ⟨_, s₃, runs_descGet.mpr ⟨hsize, rfl⟩, runs_ite.mpr (.inr ⟨by omega, rfl, rfl⟩)⟩
  have hview : ∀ k, t.view k = if k = ⟨v.dev, z⟩ then f (s.view ⟨v.dev, z⟩) else s.view k := fun k => by
    rw [show t.view = (s.poke ⟨v.dev, z⟩ f).view from hc.view, Kernel.view_poke]
  rw [← hchars]
  refine ⟨t, runs_bind.mpr ⟨z, s₁, h₁, runs_bind.mpr ⟨(), s₁,
    runs_assert.mpr ⟨decide_eq_true (val_eq.mp hv).2, rfl⟩, runs_bind.mpr ⟨_, s₁,
      runs_inodeAt.mpr ⟨rfl, rfl⟩, runs_bind.mpr ⟨_, s₂, hx₁.dev.symm ▸ h₂, runs_bind.mpr ⟨(), s₃,
        runs_setDirty.mpr hs₃.symm, ?_⟩⟩⟩⟩⟩, ?_⟩
  · dsimp only
    rw [← hchars]
    exact runs_bind.mpr ⟨(), s₃, hgrow, runs_bind.mpr ⟨(), _, runs_poke.mpr (by rw [hf]),
      runs_bind.mpr ⟨(), t, runs_within.mpr ht, rfl, rfl⟩⟩⟩
  · refine ⟨hc.tab, fun k => (hc.counts k).trans count_poke, fun k hk => ?_, fun q hq => ?_⟩
    · rw [hview, if_neg (hz ▸ hk _ hb)]
    · refine flat_copyIn (m := n) (by omega) ?_ (fun b hb' hne => ?_) hq
      · rw [hview, if_pos (by rw [hz]), hz, hf]
      · rw [hview, if_neg fun e => hne (h.whole.inj hb hb' (hz ▸ congrArg Key.block e))]

theorem inodeWriteLoop_mapped (h : v.Filed x nr n zone size s) (fuel left offset : Nat) (buf : Bytes)
    (hle : offset + left ≤ size) (hfuel : left ≤ fuel) :
    ∃ t, Ends (inodeWriteLoop x fuel left offset buf) s (offset + left) t ∧
      v.Wrote n zone offset left buf s t := by
  induction fuel generalizing s left offset buf with
  | zero =>
    obtain rfl : left = 0 := Nat.le_zero.mp hfuel
    exact ⟨s, ⟨rfl, rfl⟩, .nothing (.refl s) (Steady.refl s)⟩
  | succ fuel ih =>
    by_cases hleft : left = 0
    · subst hleft
      exact ⟨s, runs_ite.mpr (.inl ⟨rfl, rfl, rfl⟩), .nothing (.refl s) (Steady.refl s)⟩
    · obtain ⟨s₁, h₁, hw₁⟩ := inodeWriteRound_mapped h buf hleft hle
      have hstart : offset % BLOCK_SIZE < BLOCK_SIZE := Nat.mod_lt _ (by decide)
      obtain ⟨chars, hchars⟩ : ∃ c, c = min (BLOCK_SIZE - offset % BLOCK_SIZE) left := ⟨_, rfl⟩
      rw [← hchars] at h₁ hw₁
      obtain ⟨t, ht, hw⟩ := ih (h.next hw₁) (left - chars) (offset + chars)
        (fun j => buf (chars + j)) (by omega) (by omega)
      have hsum : chars + (left - chars) = left := by omega
      refine ⟨t, runs_ite.mpr (.inr ⟨hleft, runs_bind.mpr ⟨_, s₁, h₁, ?_⟩⟩), ?_⟩
      · rw [← hsum, ← Nat.add_assoc]
        simpa only [hsum] using ht
      · rw [← hsum]
        exact hw₁.trans hw

end Write

/-! ## 6. What is left alone -/

/-- Nothing but the file's data and its modification time has changed. -/
structure Aside (v : Volume) (nr n : Nat) (zone : Nat → Nat) (w w' : View) : Prop where
  block : ∀ k : Key, k ≠ v.inodeKey nr → (∀ b < n, k ≠ ⟨v.dev, zone b⟩) → w' k = w k
  desc : ∀ o, o < descOff nr + Field.mtime.off ∨ descOff nr + Field.gid.off ≤ o →
    w' (v.inodeKey nr) o = w (v.inodeKey nr) o

section Aside

variable {w w' : View} {nr nr' n b l r : Nat} {p : Place} {zone : Nat → Nat}

/-- The slots on the way to a block are the same, of this file and of every other one. -/
theorem Aside.word_eq (ha : v.Aside nr n zone w w') (h : v.Whole w nr n zone) (ho : v.Owns w nr')
    (hin : ∀ {l p r z}, v.Leads w nr' b l p r → (v.forest w).val p = some z → v.firstdatazone ≤ z)
    (hl : v.Leads w nr' b l p r) : word w' p = word w p := by
  have hne : ∀ b < n, p.1 ≠ ⟨v.dev, zone b⟩ := fun b hb => h.ne_slot hb (hl.slot ho)
  by_cases hk : p.1 = v.inodeKey nr
  · cases hl with
    | start hs =>
      unfold word
      rw [hk]
      refine fetch_congr fun o h1 h2 => ha.desc o ?_
      have h1 : 32 * ((nr' - 1) % 32) + (14 + 2 * _) ≤ o := h1
      have h2 : o < 32 * ((nr' - 1) % 32) + (14 + 2 * _) + 2 := h2
      show o < 32 * ((nr - 1) % 32) + 8 ∨ 32 * ((nr - 1) % 32) + 12 ≤ o
      have := (walk_start hs).1
      omega
    | next hp hv =>
      have hz := hin hp hv
      have := (inodeKey_block h.owns.pos h.owns.lt).2
      have hk : _ = (v.inodeKey nr).block := congrArg Key.block hk
      unfold indexPlace at hk
      dsimp only at hk
      omega
  · exact word_congr (ha.block _ hk hne)

/-- **Another file** has the blocks it had, with what was in them, and its descriptor. -/
theorem Aside.other (ha : v.Aside nr n zone w w') (h : v.Whole w nr n zone) (hne : nr' ≠ nr)
    (ho : v.Owns w nr') (hin : v.Inside w nr') {z : Nat} (hz : v.BlockZone w nr' b z) :
    v.BlockZone w' nr' b z ∧ w' ⟨v.dev, z⟩ = w ⟨v.dev, z⟩ := by
  refine ⟨hz.congr fun hl => ha.word_eq h ho (fun hl hv => hin hl hv) hl, ?_⟩
  obtain ⟨p, r, hl, hv⟩ := hz
  have hfirst := hin hl hv
  refine ha.block _ (fun e => ?_) fun b' hb' e => ?_
  · have := (inodeKey_block h.owns.pos h.owns.lt).2
    rw [← e] at this
    exact Nat.not_lt.mpr hfirst this
  · obtain ⟨q, r', hl', hv'⟩ := h.mapped b' hb'
    obtain rfl : z = zone b' := congrArg Key.block e
    obtain ⟨rfl, -⟩ := h.alone b' hb' hl' hv' (hl.slot ho) hv
    exact hne ((h.way hb').same_slot hl' ho (fun hl hv => hin hl hv) hl).1

theorem Aside.desc_other (ha : v.Aside nr n zone w w') (h : v.Whole w nr n zone) (hne : nr' ≠ nr)
    (hpos : 0 < nr') (hlt : nr' < v.inodes) {f : Field} (hf : f.off + f.width ≤ 32) :
    v.desc w' nr' f = v.desc w nr' f := by
  have hlow := (inodeKey_block hpos hlt).2
  by_cases hk : v.inodeKey nr' = v.inodeKey nr
  · unfold Volume.desc
    rw [hk]
    refine fetch_congr fun o h1 h2 => ha.desc o ?_
    have hb : 2 + v.imapBlocks + v.zmapBlocks + (nr' - 1) / 32 =
        2 + v.imapBlocks + v.zmapBlocks + (nr - 1) / 32 := congrArg Key.block hk
    have h1 : 32 * ((nr' - 1) % 32) + f.off ≤ o := h1
    have h2 : o < 32 * ((nr' - 1) % 32) + f.off + f.width := h2
    have := h.owns.pos
    show o < 32 * ((nr - 1) % 32) + 8 ∨ 32 * ((nr - 1) % 32) + 12 ≤ o
    omega
  · refine desc_congr (ha.block _ hk fun b hb e => ?_)
    rw [e] at hlow
    exact Nat.not_lt.mpr (h.zone_first hb) hlow

/-- **An index block** is what it was. -/
theorem Aside.index (ha : v.Aside nr n zone w w') (h : v.Whole w nr n zone)
    (hp : (v.forest w).Slot (l + 1) p) {z : Nat} (hv : (v.forest w).val p = some z)
    (hz : v.firstdatazone ≤ z) : w' ⟨v.dev, z⟩ = w ⟨v.dev, z⟩ := by
  refine ha.block _ (fun e => ?_) fun b hb e => ?_
  · have := (inodeKey_block h.owns.pos h.owns.lt).2
    rw [← e] at this
    exact Nat.not_lt.mpr hz this
  · obtain ⟨q, r, hl, hvq⟩ := h.mapped b hb
    obtain rfl : z = zone b := congrArg Key.block e
    cases (h.alone b hb hl hvq hp hv).2

end Aside

/-! ## 7. A write and the reads after it -/

section Both

variable {s : Kernel} {x nr n size off len : Nat} {zone : Nat → Nat}

/-- **`inode_write`** inside the file. -/
theorem inodeWrite_mapped (h : v.Filed x nr n zone size s) (hle : off + len ≤ size) (buf : Bytes) :
    ∃ t, Ends (inodeWrite x buf len off) s len t ∧ t.tab = s.tab ∧ t.Balanced ∧
      v.Aside nr n zone s.view t.view ∧
      ∀ p < n * BLOCK_SIZE, v.content t.view zone p = copyIn (v.content s.view zone) off buf len p := by
  obtain ⟨s₁, h₁, hw⟩ := inodeWriteLoop_mapped h len len off buf hle (Nat.le_refl len)
  have hf₁ := h.next hw
  have hx := h.loaded
  have hx₁ : v.Loaded s₁.tab x nr := hf₁.loaded
  obtain ⟨s₂, hs₂⟩ : ∃ s₂, s₂ = ({ s₁ with tick := s₁.tick + 1 } : Kernel).poke (v.inodeKey nr)
      fun b => store b (descOff nr + Field.mtime.off) Field.mtime.width (s₁.clock s₁.tick) := ⟨_, rfl⟩
  obtain ⟨t, ht, hsame⟩ := bwrite_run s₂ (v.inodeKey nr)
  have ht := ends_iff.mpr ht
  have hview : t.view = s₂.view := hsame.view
  have hkey : ∀ b < n, (⟨v.dev, zone b⟩ : Key) ≠ v.inodeKey nr := fun b hb e => by
    have := (inodeKey_block h.whole.owns.pos h.whole.owns.lt).2
    rw [← e] at this
    exact Nat.not_lt.mpr (h.whole.zone_first hb) this
  have hother : ∀ k, k ≠ v.inodeKey nr → t.view k = s₁.view k := fun k hk => by
    rw [hview, hs₂]
    exact Kernel.view_poke_of_ne _ _ hk
  refine ⟨t, ?_, ?_, fun k => ?_, ⟨fun k hk hz => ?_, fun o ho => ?_⟩, fun p hp => ?_⟩
  · have hmode : ISFILE (s.desc x .mode) = true := by
      rw [hx.desc_eq]
      exact h.file
    refine runs_bind.mpr ⟨_, s, runs_descGet.mpr ⟨rfl, rfl⟩, runs_bind.mpr ⟨(), s,
      runs_assert.mpr ⟨hmode, rfl⟩, runs_bind.mpr ⟨_, s₁, h₁, runs_bind.mpr ⟨_, _,
        runs_time.mpr ⟨rfl, rfl⟩, runs_bind.mpr ⟨(), s₂, runs_descSet.mpr ?_, runs_bind.mpr ⟨_, s₂,
          runs_inodeAt.mpr ⟨rfl, rfl⟩, runs_bind.mpr ⟨(), t, ?_, Nat.add_sub_cancel_left .., rfl⟩⟩⟩⟩⟩⟩⟩
    · rw [hs₂, ← hx₁.buf, ← hx₁.desc]
    · have hbuf : (s₂.tab.inodeTable x).buf = v.inodeKey nr := by
        rw [hs₂]
        exact hx₁.buf
      rw [hbuf]
      exact ht
  · rw [hsame.tab, hs₂]
    exact hw.tab
  · have hcount : (s₂.cache.buf k).count = (s₁.cache.buf k).count := by
      rw [hs₂]
      exact Kernel.count_poke ..
    rw [bwrite_counts _ _ _ _ ht k, hcount]
    exact hf₁.balanced k
  · rw [hother k hk]
    exact hw.other k hz
  · have hkeep : s₁.view (v.inodeKey nr) = s.view (v.inodeKey nr) :=
      hw.other _ fun b hb e => hkey b hb e.symm
    rw [hview, hs₂, Kernel.view_poke_self, ← hkeep]
    exact store_of_ne ho
  · rw [← hw.content p hp]
    have hb := Nat.div_lt_of_lt_mul (Nat.mul_comm .. ▸ hp)
    exact congrFun (hother _ (hkey _ hb)) _

end Both

end Volume

/-- **A write inside a file, and the reads after it.** The write answers its length. It leaves the size,
    every block but the file's own and the one of its descriptor, and of the descriptor all but the
    modification time; the other files and the index blocks with them. Every read answers the old
    bytes with the written ones in their place. -/
theorem write_then_read {v : Volume} {s : Kernel} {x nr n size off len : Nat} {zone : Nat → Nat}
    (h : v.Filed x nr n zone size s) (hle : off + len ≤ size) (buf : Bytes) :
    ∃ t, Ends (inodeWrite x buf len off) s len t ∧ t.tab = s.tab ∧ v.desc t.view nr .size = size ∧
      v.Aside nr n zone s.view t.view ∧
      (∀ nr', nr' ≠ nr → v.Owns s.view nr' → v.Inside s.view nr' → ∀ b z, v.BlockZone s.view nr' b z →
        v.BlockZone t.view nr' b z ∧ t.view ⟨v.dev, z⟩ = s.view ⟨v.dev, z⟩) ∧
      (∀ nr', nr' ≠ nr → 0 < nr' → nr' < v.inodes → ∀ f : Field, f.off + f.width ≤ 32 →
        v.desc t.view nr' f = v.desc s.view nr' f) ∧
      (∀ l p z, (v.forest s.view).Slot (l + 1) p → (v.forest s.view).val p = some z →
        v.firstdatazone ≤ z → t.view ⟨v.dev, z⟩ = s.view ⟨v.dev, z⟩) ∧
      ∀ buf' len' off', ∃ u, Ends (inodeRead x buf' len' off') t
        (if size ≤ off' then (none, buf')
          else (some (min len' (size - off')),
            copyIn buf' 0 (fun j => copyIn (v.content s.view zone) off buf len (off' + j))
              (min len' (size - off')))) u ∧ Same t u := by
  obtain ⟨t, hw, htab, hbal, ha, hcontent⟩ := Volume.inodeWrite_mapped h hle buf
  have hfield : ∀ f : Field, f.off + f.width ≤ 8 → v.desc t.view nr f = v.desc s.view nr f := by
    intro f hf
    refine fetch_congr fun o h1 h2 => ha.desc o (.inl ?_)
    show o < _ + 8
    omega
  have hsize : v.desc t.view nr .size = size := (hfield .size (by decide)).trans h.sized
  have hx : v.Loaded t.tab x nr := htab ▸ h.loaded
  refine ⟨t, hw, htab, hsize, ha, fun nr' hne ho hin b z hz => ha.other h.whole hne ho hin hz,
    fun nr' hne hpos hlt f hf => ha.desc_other h.whole hne hpos hlt hf,
    fun l p z hp hv hz => ha.index h.whole hp hv hz, fun buf' len' off' => ?_⟩
  have hmap : ∀ b < n, v.BlockZone t.view nr b (zone b) := fun b hb =>
    (h.whole.mapped b hb).congr fun hl => ha.word_eq h.whole h.whole.owns (h.whole.first b hb) hl
  have hmode : (ISFILE (v.desc t.view nr .mode) || ISDIR (v.desc t.view nr .mode)) = true := by
    rw [hfield .mode (by decide), h.file]
    rfl
  obtain ⟨u, hu, hc⟩ := Volume.inodeRead_mapped hx hbal hmap hmode hsize h.covers buf' len' off'
  refine ⟨u, ?_, hc.toSame⟩
  convert hu using 3
  refine copyIn_congr fun j hj => (hcontent _ ?_).symm
  have := h.covers
  omega

/-! ### A file with one block -/

namespace Volume

/-- The way to a direct block is one slot. -/
theorem Leads.direct {v : Volume} {w : View} {nr b l r : Nat} {p : Place} (h : v.Leads w nr b l p r)
    (hb : b < DIRECT_BLOCK) : l = 0 ∧ p = v.zonePlace nr b := by
  induction h with
  | start hs =>
    cases hs with
    | direct => exact ⟨rfl, rfl⟩
    | single h => exact absurd hb (Nat.not_lt.mpr h)
    | double h => exact absurd hb (by omega)
  | next hp hv ih => cases ih.1

end Volume

namespace Sample

/-- The file `a` has 1000 bytes in zone 6, byte `i` of them is `i`. -/
def diskData (k : Key) : Bytes :=
  if k = ⟨dev, 3⟩ then store (fun _ => 0) 0 1 7
  else if k = ⟨dev, 4⟩ then
    descriptor 32 (IFREG + 0o644) 1000 1 6 (descriptor 0 (IFDIR + 0o755) 48 2 5 fun _ => 0)
  else if k = ⟨dev, 6⟩ then UInt8.ofNat
  else diskFile (fun _ _ => 0) k

def kernelData : Kernel :=
  { kernelFile fun _ _ => 0 with
    cache := { disk := diskData, buf := (kernelFile fun _ _ => 0).cache.buf } }

theorem kernelData_filed : volume.Filed 1 2 1 (fun _ => 6) 1000 kernelData := by
  have hword : ∀ nr < 31, ∀ i < 9, volume.Owns kernelData.view nr →
      Volume.word kernelData.view (volume.zonePlace nr i) =
        if nr = 2 ∧ i = 0 then 6 else if nr = 1 ∧ i = 0 then 5 else 0 := by decide
  have hroot : ∀ {l p z}, (volume.forest kernelData.view).root l p →
      (volume.forest kernelData.view).val p = some z →
        l = 0 ∧ ((p = volume.zonePlace 2 0 ∧ z = 6) ∨ z = 5) := by
    rintro l p z ⟨nr, i, ho, hi, rfl, rfl⟩ hv
    obtain ⟨rfl, hz⟩ := Volume.val_eq.mp hv
    have hw := hword nr ho.lt i hi ho
    by_cases h2 : nr = 2 ∧ i = 0
    · rw [if_pos h2] at hw
      obtain ⟨rfl, rfl⟩ := h2
      exact ⟨rfl, .inl ⟨rfl, hw⟩⟩
    · rw [if_neg h2] at hw
      by_cases h1 : nr = 1 ∧ i = 0
      · rw [if_pos h1] at hw
        obtain ⟨rfl, rfl⟩ := h1
        exact ⟨rfl, .inr hw⟩
      · rw [if_neg h1] at hw
        exact absurd hw hz
  have hflat : ∀ {l p}, (volume.forest kernelData.view).Slot l p →
      (volume.forest kernelData.view).root l p := fun hp =>
    hp.root_of_flat fun l s n hr hv => nomatch (hroot hr hv).1
  have hzone : (volume.forest kernelData.view).val (volume.zonePlace 2 0) = some 6 :=
    Volume.val_eq.mpr ⟨by decide, by decide⟩
  refine ⟨⟨rfl, rfl, rfl⟩, fun k => ?_, ⟨by decide, fun b hb => ?_, fun b hb l p r z hl hv => ?_,
    fun b hb l p r z hl hv l' q hq hv' => ?_⟩, by decide, by decide, by decide⟩
  · show 0 ≤ if k = ⟨dev, 4⟩ then (2 : Int) else 0
    split <;> decide
  · obtain rfl : b = 0 := by omega
    exact ⟨_, _, .start (.direct (by decide)), hzone⟩
  · obtain rfl : b = 0 := by omega
    obtain ⟨rfl, rfl⟩ := hl.direct (by decide)
    cases hzone.symm.trans hv
    decide
  · obtain rfl : b = 0 := by omega
    obtain ⟨rfl, rfl⟩ := hl.direct (by decide)
    cases hzone.symm.trans hv
    obtain ⟨rfl, ⟨rfl, -⟩ | h5⟩ := hroot (hflat hq) hv'
    · exact ⟨rfl, rfl⟩
    · cases h5

end Sample

/-- Ten bytes are written at 20, and five are read from 18 on. -/
theorem write_then_read_data : ∃ t, Ends (inodeWrite 1 (fun _ => 77) 10 20) Sample.kernelData 10 t ∧
    ∃ data u, Ends (inodeRead 1 (fun _ => 0) 5 18) t (some 5, data) u ∧
      data 1 = 19 ∧ data 2 = 77 ∧ data 4 = 77 := by
  obtain ⟨t, ht, -, -, -, -, -, -, hread⟩ := write_then_read Sample.kernelData_filed
    (show 20 + 10 ≤ 1000 by decide) fun _ => 77
  obtain ⟨u, hu, -⟩ := hread (fun _ => 0) 5 18
  exact ⟨t, ht, _, u, hu, by decide, by decide, by decide⟩

end Yuios
