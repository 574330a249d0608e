/-
  File:      Yuios/Fs/Creation.lean
  Subject:   A NEW FILE ON A CONSISTENT VOLUME: `add_entry`, `ialloc` and `new_inode`, one after the
             other, as `inode_open` calls them.

  * `Unmoved` -- the blocks show the same bytes, and the same task runs. Every walk obeys it.
  * `Spares` -- the volume stays consistent, and the inode bitmap as it is. `add_entry` does no
    more (`addEntry_spares`).
  * `ialloc_view` -- `ialloc` sets one clear bit of the inode bitmap.
  * `openCreate_takes` -- a file that has been created has taken an inode that was free.
-/
import Yuios.Fs.OwnershipRun
import Yuios.Fs.OwnedCalls

namespace Yuios

open Lib Prog Code

/-! ## 1. Walks -/

section Walks

variable {s t : Kernel}

/-- The same task runs. -/
structure SameTask (s t : Kernel) : Prop where
  task : t.tab.task = s.tab.task
  running : t.tab.running = s.tab.running

/-- The blocks show the same bytes, and the same task runs. -/
structure Unmoved (s t : Kernel) : Prop extends SameTask s t where
  view : t.view = s.view

instance : Steady SameTask where
  refl _ := ⟨rfl, rfl⟩
  trans h h' := ⟨h'.task.trans h.task, h'.running.trans h.running⟩

instance : Steady Unmoved where
  refl _ := ⟨⟨rfl, rfl⟩, rfl⟩
  trans h h' := ⟨Steady.trans h.toSameTask h'.toSameTask, h'.view.trans h.view⟩

theorem unmoved_of_same {α : Type} {p : Code α} (h : Obeys Same p) : Obeys Unmoved p := by
  intro s a t hr
  have hs := h s a t hr
  exact ⟨⟨by rw [hs.tab], by rw [hs.tab]⟩, hs.view⟩

theorem sameTask_of_still {α : Type} {p : Code α} (h : Obeys Still p) : Obeys SameTask p := by
  intro s a t hr
  have hs : t.tab = s.tab := h s a t hr
  exact ⟨by rw [hs], by rw [hs]⟩

theorem walks_unmoved : Walks Unmoved :=
  Reading.walks ⟨fun dev block => unmoved_of_same (bread_same dev block),
    fun k => unmoved_of_same (bwrite_same k), fun k => unmoved_of_same (brelse_same k),
    fun k => unmoved_of_same (hold_same k 1)⟩
    (fun _ _ => obeys_modify fun _ => ⟨⟨rfl, rfl⟩, rfl⟩)
    fun _ _ => obeys_modify fun _ => ⟨⟨rfl, rfl⟩, rfl⟩

end Walks

/-! ## 2. `find_entry` once more -/

section Find

variable {s t : Kernel} {dir d : Nat} {name : List UInt8} {r : Option (Key × Nat × List UInt8)}

/-- What `find_entry` answers is what it has found in the directory it answers. -/
theorem findEntry_answer (h : Ends (findEntry dir name) s (d, r) t) :
    r = (t.tab.inodeTable d).find t.view name := by
  obtain ⟨mode, s₁, h₁, h⟩ := runs_bind.mp h
  obtain ⟨_, s₂, h₂, h⟩ := runs_bind.mp h
  obtain ⟨d', s₃, h₃, h⟩ := runs_bind.mp h
  obtain ⟨size, s₄, h₄, h⟩ := runs_bind.mp h
  obtain ⟨rfl, rfl⟩ := runs_descGet.mp h₄
  obtain ⟨r', s₅, h₅, h⟩ := runs_bind.mp h
  obtain ⟨e, rfl⟩ := runs_pure.mp h
  obtain ⟨rfl, rfl⟩ := Prod.mk.inj e
  obtain ⟨hs, hr⟩ := findEntryLoop_find (by exact rfl) h₅
  rw [hr, hs.tab, hs.views, ← List.range_eq_range']
  rfl

/-- It does not leave the directory but by `..` from a root. -/
theorem findEntry_stays
    (hno : ¬ ((matchName (ofString DOTDOT) 0 name).isSome ∧ (s.tab.inodeTable dir).nr = 1))
    (h : Ends (findEntry dir name) s (d, r) t) : d = dir ∧ Same s t := by
  obtain ⟨mode, s₁, h₁, h⟩ := runs_bind.mp h
  obtain ⟨rfl, rfl⟩ := runs_descGet.mp h₁
  obtain ⟨_, s₂, h₂, h⟩ := runs_bind.mp h
  obtain ⟨-, rfl⟩ := runs_assert.mp h₂
  obtain ⟨d', s₃, h₃, h⟩ := runs_bind.mp h
  obtain ⟨ino, s₄, ⟨rfl, rfl⟩, h₃⟩ := runs_bind.mp h₃
  rw [if_neg hno] at h₃
  obtain ⟨rfl, rfl⟩ := runs_pure.mp h₃
  obtain ⟨size, s₄, h₄, h⟩ := runs_bind.mp h
  obtain ⟨rfl, rfl⟩ := runs_descGet.mp h₄
  obtain ⟨r', s₅, h₅, h⟩ := runs_bind.mp h
  obtain ⟨e, rfl⟩ := runs_pure.mp h
  obtain ⟨rfl, rfl⟩ := Prod.mk.inj e
  exact ⟨rfl, (findEntryLoop_find (by exact rfl) h₅).1⟩

end Find

namespace Volume

variable {v : Volume} {x nr : Nat} {s t : Kernel}

/-! ## 3. `add_entry` -/

/-- The volume has what it had, and the inode bitmap is the same. -/
structure Spares (v : Volume) (s t : Kernel) : Prop extends Moves v s t where
  inode : ∀ {nr}, nr < v.inodes → v.inodeSet t.view nr = v.inodeSet s.view nr

theorem Spares.trans {u : Kernel} (h : v.Spares s t) (h' : v.Spares t u) : v.Spares s u :=
  ⟨h.toMoves.trans h'.toMoves, fun hnr => (h'.inode hnr).trans (h.inode hnr)⟩

theorem spares_of_same (hc : v.Consistent s.view) (h : Same s t) : v.Spares s t :=
  ⟨moves_of_same hc h, fun _ => by rw [h.views]⟩

/-- The block of a file's or directory's data. -/
def IsData (v : Volume) (w : View) (k : Key) : Prop :=
  ∃ p z, (v.forest w).Slot 0 p ∧ (v.forest w).val p = some z ∧ k = ⟨v.dev, z⟩

theorem IsData.next {k : Key} (h : v.IsData s.view k) (hm : v.Moves s t) : v.IsData t.view k := by
  obtain ⟨p, z, hp, hv, hk⟩ := h
  exact ⟨p, z, hm.view.slot hp, hm.view.val hp hv, hk⟩

theorem IsData.block {w : View} {k : Key} (h : v.IsData w k) (hc : v.Consistent w) :
    v.firstdatazone ≤ k.block := by
  obtain ⟨p, z, hp, hv, rfl⟩ := h
  exact (hc.owned.used hp hv).first

theorem poke_spares (hc : v.Consistent s.view) {k : Key} (hk : v.IsData s.view k)
    (f : Bytes → Bytes) : v.Spares s (s.poke k f) := by
  have hlow := hk.block hc
  obtain ⟨p, z, hp, hv, rfl⟩ := hk
  have hother : ∀ k : Key, k ≠ ⟨v.dev, z⟩ → (s.poke ⟨v.dev, z⟩ f).view k = s.view k :=
    fun k hk => Kernel.view_poke_of_ne _ _ hk
  refine ⟨⟨rfl, .of_data hc hp hv hother⟩, fun hnr => inodeSet_congr hnr fun k hk => hother k ?_⟩
  have := v.room
  rintro rfl
  dsimp only at hlow hk
  omega

theorem descSet_spares (h : v.Ready x nr s) (f : Field) (n : Nat) (h2 : 2 ≤ f.off)
    (h14 : f.off + f.width ≤ 14) {C : List Frame → Kernel → Prop} {u : Unit}
    (hr : Runs C (descSet x f n) s u t) : v.Spares s t := by
  refine ⟨descSet_moves h f n h2 h14 hr, fun hnr => inodeSet_congr hnr fun k hk => ?_⟩
  rw [runs_descSet] at hr
  subst hr
  refine Kernel.view_poke_of_ne _ _ fun e => ?_
  have := (inodeKey_block h.owns.pos h.owns.lt).1
  rw [e, h.loaded.buf] at hk
  omega

section AddEntry

variable {i entry e fuel : Nat} {buf : Option Key} {k : Key} {name : List UInt8}

theorem dentryAt_spares (h : v.Ready x nr s) (hb : ∀ k, buf = some k → v.IsData s.view k)
    (hr : Runs Supplied (dentryAt x true i buf entry) s (k, e) t) :
    v.Spares s t ∧ v.IsData t.view k := by
  unfold dentryAt at hr
  split at hr
  next k' hk' =>
    obtain ⟨e, rfl⟩ := runs_pure.mp hr
    obtain ⟨rfl, -⟩ := Prod.mk.inj e
    refine ⟨spares_of_same h.consistent (.refl s), hb _ ?_⟩
    split at hk'
    · exact hk'
    · cases hk'
  next =>
    obtain ⟨_, s₁, h₁, hr⟩ := runs_bind.mp hr
    have hs₁ := spares_of_same h.consistent (brelse?_same _ _ _ _ h₁.ends)
    have hr₁ := h.next hs₁.toMoves
    obtain ⟨z, s₂, h₂, hr⟩ := runs_bind.mp hr
    obtain ⟨htab, hg, -, hne, hz⟩ := bmap_grows h₂ hr₁.mounted hr₁.loaded hr₁.consistent hr₁.owns
    have hs₂ : v.Spares s₁ s₂ := ⟨⟨htab, hg.toExtends⟩, hg.inode⟩
    have hr₂ := hr₁.next hs₂.toMoves
    obtain ⟨p, r, hl, hv⟩ := hz (hne rfl)
    obtain ⟨_, s₃, h₃, hr⟩ := runs_bind.mp hr
    obtain ⟨-, rfl⟩ := runs_assert.mp h₃
    obtain ⟨ino, s₃, ⟨rfl, rfl⟩, hr⟩ := runs_bind.mp hr
    obtain ⟨k', s₃, h₃, hr⟩ := runs_bind.mp hr
    obtain ⟨e, rfl⟩ := runs_pure.mp hr
    obtain ⟨rfl, -⟩ := Prod.mk.inj e
    have hs₃ := spares_of_same hr₂.consistent (bread_same _ _ _ _ _ h₃.ends)
    refine ⟨(hs₁.trans hs₂).trans hs₃, IsData.next ⟨p, z, hl.slot hr₂.owns, hv, ?_⟩ hs₃.toMoves⟩
    rw [bread_key h₃, hr₂.loaded.dev]

theorem extendDir_spares (h : v.Ready x nr s) (hk : v.IsData s.view k) {u : Unit}
    (hr : Runs Supplied (extendDir x i k entry) s u t) : v.Spares s t := by
  obtain ⟨size, s₁, h₁, hr⟩ := runs_bind.mp hr
  obtain ⟨rfl, rfl⟩ := runs_descGet.mp h₁
  obtain ⟨-, hr⟩ | ⟨-, -, rfl⟩ := runs_ite.mp hr
  · obtain ⟨_, s₁, h₁, hr⟩ := runs_bind.mp hr
    have hs₁ := poke_spares h.consistent hk fun b => store b entry 2 0
    rw [runs_poke.mp h₁] at hs₁
    obtain ⟨_, s₂, h₂, hr⟩ := runs_bind.mp hr
    have hs₂ := descSet_spares (h.next hs₁.toMoves) .size _ (by decide) (by decide) h₂
    have hs := hs₁.trans hs₂
    exact hs.trans (spares_of_same hs.view.consistent (inodeDirty_same x _ _ _ hr.ends))
  · exact spares_of_same h.consistent (.refl s)

theorem addEntryLoop_spares (h : v.Ready x nr s) (hb : ∀ k, buf = some k → v.IsData s.view k)
    (hr : Runs Supplied (addEntryLoop x name fuel i buf entry) s (k, e) t) :
    v.Spares s t ∧ v.IsData t.view k := by
  induction fuel generalizing i buf entry s with
  | zero => exact hr.elim
  | succ fuel ih =>
    obtain ⟨⟨k', entry'⟩, s₁, h₁, hr⟩ := runs_bind.mp hr
    obtain ⟨hs₁, hk₁⟩ := dentryAt_spares h hb h₁
    have hr₁ := h.next hs₁.toMoves
    obtain ⟨_, s₂, h₂, hr⟩ := runs_bind.mp hr
    have hs₂ := extendDir_spares hr₁ hk₁ h₂
    have hr₂ := hr₁.next hs₂.toMoves
    have hk₂ := hk₁.next hs₂.toMoves
    obtain ⟨nr, s₃, h₃, hr⟩ := runs_bind.mp hr
    obtain ⟨rfl, rfl⟩ := runs_dentryNr.mp h₃
    obtain ⟨-, hr⟩ | ⟨-, hr⟩ := runs_ite.mp hr
    · obtain ⟨hs, hk⟩ := ih hr₂ (fun k hk => by rw [← Option.some.inj hk]; exact hk₂) hr
      exact ⟨(hs₁.trans hs₂).trans hs, hk⟩
    · obtain ⟨_, s₃, h₃, hr⟩ := runs_bind.mp hr
      have hs₃ := poke_spares hr₂.consistent hk₂ (strncpy (entry' + 2) name NAME_LEN)
      rw [runs_poke.mp h₃] at hs₃
      obtain ⟨_, s₄, h₄, hr⟩ := runs_bind.mp hr
      have hs₄ := hs₃.trans (spares_of_same hs₃.view.consistent (setDirty_same k' _ _ _ h₄.ends))
      have hr₄ := hr₂.next hs₄.toMoves
      obtain ⟨now, s₅, h₅, hr⟩ := runs_bind.mp hr
      obtain ⟨-, rfl⟩ := runs_time.mp h₅
      have hr₅ : v.Ready x _ { s₄ with tick := s₄.tick + 1 } := ⟨hr₄.1, hr₄.2, hr₄.3, hr₄.4⟩
      obtain ⟨_, s₆, h₆, hr⟩ := runs_bind.mp hr
      have hs₆ : v.Spares s₄ s₆ := by
        have := descSet_spares hr₅ .mtime now (by decide) (by decide) h₆
        exact ⟨⟨this.tab, this.view⟩, this.inode⟩
      obtain ⟨_, s₇, h₇, hr⟩ := runs_bind.mp hr
      have hs₇ := spares_of_same hs₆.view.consistent (inodeDirty_same x _ _ _ h₇.ends)
      obtain ⟨e, rfl⟩ := runs_pure.mp hr
      obtain ⟨rfl, -⟩ := Prod.mk.inj e
      have hs := (hs₄.trans hs₆).trans hs₇
      exact ⟨(hs₁.trans hs₂).trans hs, hk₂.next hs.toMoves⟩

/-- **`add_entry`** in a directory that does not have the name. -/
theorem addEntry_spares (h : v.Ready x nr s) (hnone : (s.tab.inodeTable x).find s.view name = none)
    (hno : ¬ ((matchName (ofString DOTDOT) 0 name).isSome ∧ (s.tab.inodeTable x).nr = 1))
    (hr : Runs Supplied (addEntry x name) s (k, e) t) : v.Spares s t ∧ v.IsData t.view k := by
  obtain ⟨⟨d, r⟩, s₁, h₁, hr⟩ := runs_bind.mp hr
  obtain ⟨rfl, hs⟩ := findEntry_stays hno h₁.ends
  have hfind := findEntry_answer h₁.ends
  rw [hs.tab, hs.views, hnone] at hfind
  subst hfind
  obtain ⟨_, s₂, h₂, hr⟩ := runs_bind.mp hr
  obtain ⟨-, rfl⟩ := runs_assert.mp h₂
  have hs₁ := spares_of_same h.consistent hs
  obtain ⟨hs₂, hk⟩ := addEntryLoop_spares (h.next hs₁.toMoves) (fun k hb => by cases hb) hr
  exact ⟨hs₁.trans hs₂, hk⟩

end AddEntry

/-! ## 4. `ialloc` and `new_inode` -/

section Inodes

variable {C : List Frame → Kernel → Prop}

/-- **`ialloc`** sets a clear bit of the inode bitmap. It never answers `EOF`. -/
theorem ialloc_view {bit : Nat} (hm : v.Mounted s.tab) (h : Runs C (ialloc v.dev) s bit t) :
    t.tab = s.tab ∧ bit < v.inodes ∧ v.inodeSet s.view bit = false ∧
      t.view = withBit s.view v.dev 2 bit true := by
  obtain ⟨sb, s₁, h₁, h⟩ := runs_bind.mp h
  obtain ⟨hd, rfl⟩ := runs_superOf_mounted hm h₁
  obtain ⟨⟨o, bit'⟩, s₂, h₂, h⟩ := runs_bind.mp h
  obtain ⟨k, s₃, h₃, h⟩ := runs_bind.mp h
  obtain ⟨ho, rfl⟩ := runs_need.mp h₃
  obtain ⟨_, s₄, h₄, h⟩ := runs_bind.mp h
  obtain ⟨rfl, rfl⟩ := runs_pure.mp h
  have hs := bwrite_same k _ _ _ (runs_within.mp h₄).ends
  obtain ⟨-, -, hz | hl⟩ | ⟨k', j, p, ho', ht, rfl⟩ := allocLoop_spec h₂
  · cases hz
  · exact absurd hl (by decide)
  · obtain rfl := Option.some.inj (ho.symm.trans ho')
    have hnum := ht.number
    have hblock := ht.inBlock
    have hdiv : bit' / BLOCK_BITS = j := by
      rw [hnum, Nat.add_mul_div_right _ _ (by decide), Nat.div_eq_of_lt hblock, Nat.zero_add]
    have hmod : bit' % BLOCK_BITS = p := by
      rw [hnum, Nat.add_mul_mod_self_right, Nat.mod_eq_of_lt hblock]
    have hkey : k = ⟨v.dev, 2 + bit' / BLOCK_BITS⟩ := by
      have hmap := ht.map
      unfold SuperBlock.imap at hmap
      split at hmap
      · rw [← Option.some.inj hmap, hdiv, hd.dev]
      · cases hmap
    refine ⟨hs.tab, hd.inodes ▸ ht.below, ?_, ?_⟩
    · rw [inodeSet, bitOf, hmod, ← hkey]
      exact ht.clear
    · refine hs.views.trans ?_
      funext k'
      rw [Kernel.putBit, (mark_same _ _).views, Kernel.view_poke, withBit, ← hkey, hmod]
      by_cases e : k' = k
      · rw [if_pos e, e, Function.update_self]
      · rw [if_neg e, Function.update_of_ne e]

/-- The descriptors of the inodes in memory are outside the inode bitmap. -/
def Shelved (v : Volume) (T : Tables) : Prop :=
  ∀ x, (T.inodeTable x).buf.dev = v.dev → 2 + v.imapBlocks ≤ (T.inodeTable x).buf.block

/-- The buffers of the inodes in memory, and the super blocks but for their lists, are as they were. -/
structure Rests (s t : Kernel) : Prop where
  buf : ∀ x, (t.tab.inodeTable x).buf = (s.tab.inodeTable x).buf
  super : ∀ i, t.tab.superTable i =
    { s.tab.superTable i with inodeList := (t.tab.superTable i).inodeList }

instance : Steady Rests where
  refl _ := ⟨fun _ => rfl, fun _ => rfl⟩
  trans h h' := ⟨fun x => (h'.buf x).trans (h.buf x), fun i => by rw [h'.super i, h.super i]⟩

theorem rests_of_still {α : Type} {p : Code α} (h : Obeys Still p) : Obeys Rests p := by
  intro s a t hr
  have hs : t.tab = s.tab := h s a t hr
  exact ⟨fun x => by rw [hs], fun i => by rw [hs]⟩

theorem onInode_rests (x : Nat) {f : Inode → Inode} (hf : ∀ i, (f i).buf = i.buf) :
    Obeys Rests (onInode x f) := by
  refine obeys_modify fun s => ⟨fun y => ?_, fun _ => rfl⟩
  by_cases e : y = x
  · simp [Tables.setInode, e, hf]
  · simp [Tables.setInode, e]

theorem setList_rests (i : Nat) (f : List Nat → List Nat) : Obeys Rests (onTables fun t =>
    t.setSuper i { t.superTable i with inodeList := f (t.superTable i).inodeList }) := by
  refine obeys_modify fun s => ⟨fun _ => rfl, fun j => ?_⟩
  by_cases e : j = i
  · simp [Tables.setSuper, e]
  · simp [Tables.setSuper, e]

theorem Shelved.rests (h : v.Shelved s.tab) (hr : Rests s t) : v.Shelved t.tab := by
  intro x hx
  rw [hr.buf x] at hx ⊢
  exact h x hx

theorem iput_rests (x : Nat) : Obeys Rests (iput x) := by
  intro s u t h
  have hp := iput_putAway h
  refine ⟨fun y => ?_, hp.around.super⟩
  generalize t.tab = T at hp
  cases hp
  all_goals by_cases e : y = x <;> simp [Tables.setInode, Tables.setSuper, e]

theorem fitInode_rests (x : Nat) : Obeys Rests (fitInode x) := by
  refine obeys_bind (inodeAt_obeys x) fun i => obeys_ite (fun _ => obeys_pure _) fun _ => ?_
  exact obeys_bind (superOf_obeys _) fun _ => obeys_bind (iput_rests x) fun _ =>
    obeys_bind (obeys_need _ _) fun y => obeys_bind (onInode_rests y fun _ => rfl) fun _ =>
      obeys_pure _

/-- `iget` puts the descriptor into its block of the inode table. -/
theorem iget_shelved {n : Nat} (hm : v.Mounted s.tab) (hs : v.Shelved s.tab)
    (h : Ends (iget v.dev n) s x t) : v.Shelved t.tab := by
  obtain ⟨r, s₁, h₁, h⟩ := runs_bind.mp h
  obtain ⟨i, hi, rfl, -⟩ := runs_findInode h₁
  cases r with
  | some y =>
    obtain ⟨_, s₂, h₂, h⟩ := runs_bind.mp h
    have hr : Rests s s₂ := onInode_rests y (by exact fun _ => rfl) _ _ _ h₂
    exact hs.rests (Steady.trans hr (fitInode_rests y _ _ _ h))
  | none =>
    obtain ⟨sb, s₁, h₁, h⟩ := runs_bind.mp h
    obtain ⟨hd, rfl⟩ := runs_superOf_mounted hm h₁
    obtain ⟨_, s₁, h₁, h⟩ := runs_bind.mp h
    obtain ⟨-, rfl⟩ := runs_assert.mp h₁
    obtain ⟨y, s₁, h₁, h⟩ := runs_bind.mp h
    obtain ⟨-, -, rfl⟩ := runs_getFreeInode h₁
    obtain ⟨_, s₂, h₂, h⟩ := runs_bind.mp h
    have hr₂ : Rests s s₂ := onInode_rests y (by exact fun _ => rfl) _ _ _ h₂
    obtain ⟨_, s₃, h₃, h⟩ := runs_bind.mp h
    have hr₃ : Rests s₂ s₃ := (obeys_bind (obeys_reads _) fun _ => obeys_bind (obeys_need _ _)
      fun i => obeys_bind (obeys_check _ _) fun _ => setList_rests i (y :: ·)) _ _ _ h₃
    obtain ⟨k, s₄, h₄, h⟩ := runs_bind.mp h
    have hr₄ := rests_of_still (bread_still _ _) _ _ _ h₄
    have hs₄ := hs.rests (Steady.trans (Steady.trans hr₂ hr₃) hr₄)
    obtain ⟨_, s₅, h₅, h⟩ := runs_bind.mp h
    obtain ⟨-, rfl⟩ := runs_pure.mp h
    rw [runs_onInode h₅, bread_key h₄]
    intro z hz
    by_cases e : z = y
    · simp only [e, Tables.setInode, Function.update_self, inodeBlock, hd.imapBlocks]
      exact (Nat.le_add_right _ _).trans (Nat.le_add_right _ _)
    · simp only [Tables.setInode, Function.update_of_ne e] at hz ⊢
      exact hs₄ z hz

/-- The inode bitmap is the same. -/
def SameInodes (v : Volume) (s t : Kernel) : Prop :=
  ∀ {m}, m < v.inodes → v.inodeSet t.view m = v.inodeSet s.view m

theorem descSet_inodes (hs : v.Shelved s.tab) {f : Field} {n : Nat} {u : Unit}
    (h : Ends (descSet x f n) s u t) : v.SameInodes s t ∧ v.Shelved t.tab := by
  refine ⟨fun {m} hm => ?_, (descSet_still x f n _ _ _ h).symm ▸ hs⟩
  rw [Ends, runs_descSet] at h
  subst h
  refine bitOf_congr (Kernel.view_poke_of_ne _ _ fun e => ?_)
  have := hs x (by rw [← e])
  have := inodeBit_block hm
  rw [← e] at *
  dsimp only at *
  omega

theorem newInode_inodes {n : Nat} (hm : v.Mounted s.tab) (hs : v.Shelved s.tab)
    (h : Ends (newInode v.dev n) s x t) : v.SameInodes s t ∧ v.Shelved t.tab := by
  obtain ⟨task, s₁, h₁, h⟩ := runs_bind.mp h
  obtain ⟨rfl, rfl⟩ := runs_runningTask.mp h₁
  obtain ⟨y, s₂, h₂, h⟩ := runs_bind.mp h
  have hsh₂ := iget_shelved hm hs h₂
  have hv₂ := (walks_unmoved.iget _ _ _ _ _ h₂).view
  obtain ⟨_, s₃, h₃, h⟩ := runs_bind.mp h
  have hsame := inodeDirty_same _ _ _ _ h₃
  have hsh₃ : v.Shelved s₃.tab := hsame.tab ▸ hsh₂
  obtain ⟨_, s₄, h₄, h⟩ := runs_bind.mp h
  obtain ⟨hi₄, hsh₄⟩ := descSet_inodes hsh₃ h₄
  obtain ⟨_, s₅, h₅, h⟩ := runs_bind.mp h
  obtain ⟨hi₅, hsh₅⟩ := descSet_inodes hsh₄ h₅
  obtain ⟨_, s₆, h₆, h⟩ := runs_bind.mp h
  obtain ⟨hi₆, hsh₆⟩ := descSet_inodes hsh₅ h₆
  obtain ⟨now, s₇, h₇, h⟩ := runs_bind.mp h
  obtain ⟨-, rfl⟩ := runs_time.mp h₇
  obtain ⟨_, s₈, h₈, h⟩ := runs_bind.mp h
  obtain ⟨hi₈, hsh₈⟩ := descSet_inodes (by exact hsh₆) h₈
  obtain ⟨_, s₉, h₉, h⟩ := runs_bind.mp h
  obtain ⟨hi₉, hsh₉⟩ := descSet_inodes hsh₈ h₉
  obtain ⟨_, s₁₀, h₁₀, h⟩ := runs_bind.mp h
  obtain ⟨hi₁₀, hsh₁₀⟩ := descSet_inodes hsh₉ h₁₀
  obtain ⟨rfl, rfl⟩ := runs_pure.mp h
  refine ⟨fun {m} hm => ?_, hsh₁₀⟩
  calc v.inodeSet s₁₀.view m = v.inodeSet s₆.view m := (hi₁₀ hm).trans ((hi₉ hm).trans (hi₈ hm))
    _ = v.inodeSet s₂.view m := by rw [hi₆ hm, hi₅ hm, hi₄ hm, hsame.views]
    _ = v.inodeSet s.view m := by rw [hv₂]

/-- **A file that has been created has taken an inode that was free.** -/
theorem openCreate_takes {dir mode : Nat} {name : List UInt8} {buf : Key} (hr : v.Ready dir nr s)
    (hs : v.Shelved s.tab) (hnone : (s.tab.inodeTable dir).find s.view name = none)
    (hno : ¬ ((matchName (ofString DOTDOT) 0 name).isSome ∧ (s.tab.inodeTable dir).nr = 1))
    (h : Runs Supplied (openCreate dir name mode) s (buf, x) t) :
    ∃ m < v.inodes, v.inodeSet s.view m = false ∧ v.inodeSet t.view m = true := by
  obtain ⟨⟨k, entry⟩, s₁, h₁, h⟩ := runs_bind.mp h
  obtain ⟨hs₁, hk⟩ := addEntry_spares hr hnone hno h₁
  have hr₁ := hr.next hs₁.toMoves
  obtain ⟨n, s₂, h₂, h⟩ := runs_bind.mp h
  obtain ⟨ino, s₃, ⟨rfl, rfl⟩, h₂⟩ := runs_bind.mp h₂
  obtain ⟨bit, s₃, h₃, h₂⟩ := runs_bind.mp h₂
  rw [hr₁.loaded.dev] at h₃
  obtain ⟨htab₃, hlt, hclear, hview₃⟩ := ialloc_view hr₁.mounted (runs_within.mp h₃).ends
  refine ⟨bit, hlt, (hs₁.inode hlt).symm.trans hclear, ?_⟩
  have hset : v.inodeSet s₃.view bit = true := by
    rw [inodeSet, hview₃, bitOf_withBit, if_pos rfl]
  obtain ⟨_, s₄, h₄, h₂⟩ := runs_bind.mp h₂
  have h₄ := runs_poke.mp h₄
  obtain ⟨rfl, rfl⟩ := runs_dentryNr.mp h₂
  have hset₄ : v.inodeSet s₄.view bit = true := by
    refine (inodeSet_congr hlt fun k' hk' => ?_).trans hset
    rw [← h₄]
    refine Kernel.view_poke_of_ne _ _ fun e => ?_
    have := hk.block hs₁.view.consistent
    have := v.room
    rw [e] at hk'
    omega
  have htab₄ : s₄.tab = s.tab := by
    rw [← h₄]
    exact htab₃.trans hs₁.tab
  obtain ⟨d, s₅, ⟨rfl, rfl⟩, h⟩ := runs_bind.mp h
  obtain ⟨y, s₅, h₅, h⟩ := runs_bind.mp h
  dsimp only at h₅
  rw [htab₄, hr.loaded.dev] at h₅
  obtain ⟨hi₅, hsh₅⟩ := newInode_inodes (htab₄ ▸ hr.mounted) (htab₄ ▸ hs) h₅.ends
  obtain ⟨task, s₆, ⟨rfl, rfl⟩, h⟩ := runs_bind.mp h
  obtain ⟨_, s₆, h₆, h⟩ := runs_bind.mp h
  obtain ⟨hi₆, -⟩ := descSet_inodes hsh₅ h₆.ends
  obtain ⟨-, rfl⟩ := runs_pure.mp h
  rw [hi₆ hlt, hi₅ hlt]
  exact hset₄

end Inodes

end Volume

end Yuios
