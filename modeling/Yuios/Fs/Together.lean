/-
  File:      Yuios/Fs/Together.lean
  Subject:   MANY TASKS IN `bmap` OF ONE INODE, taking turns where they wait for the disk.

  `bmap` looks whether a slot is empty, calls `balloc`, which waits for the zone bitmap to be
  written, and then stores the zone without looking again. Two tasks that wait in `balloc` for the
  same slot both store: the first zone is lost.

  * `Taking` -- what a task that waits in `balloc` is about to store, read off its label.
  * `Shared` -- the invariant: the volume is consistent, and the zones that are marked but not
    named are the ones tasks wait with, each for an empty slot.
  * `Leads.block_eq` -- a slot belongs to one block.
  * `bmap_together` -- while no two tasks wait in `balloc` for the same slot, the calls agree.
-/
import Yuios.Lib.Interleave
import Yuios.Fs.OwnershipRun

namespace Yuios

open Lib Prog Code

namespace Volume

variable {v : Volume} {w w' : View}

/-! ## 1. A slot belongs to one block -/

theorem zonePlace_ne_indexPlace {nr i z j : Nat} (ho : v.Owns w nr) (hz : v.firstdatazone ≤ z) :
    v.zonePlace nr i ≠ v.indexPlace z j := by
  intro e
  have hk : (v.inodeKey nr).block = z := congrArg (fun p : Place => p.1.block) e
  have := (inodeKey_block ho.pos ho.lt).2
  omega

/-- The walk's start in numbers. -/
theorem start_numbers {b l i r d : Nat} (h : BmapStart b l i r d) :
    (b < 7 ∧ l = 0 ∧ i = b ∧ r = b) ∨ (7 ≤ b ∧ b < 519 ∧ l = 1 ∧ i = 7 ∧ r + 7 = b) ∨
      (519 ≤ b ∧ l = 2 ∧ i = 8 ∧ r + 519 = b) := by
  cases h with
  | direct hd => exact .inl ⟨hd, rfl, rfl, rfl⟩
  | single hd hd' =>
    have h7 : 7 ≤ b := hd
    have h519 : b - 7 < 512 := hd'
    exact .inr (.inl ⟨h7, by omega, rfl, rfl, Nat.sub_add_cancel h7⟩)
  | double hd _ =>
    have h519 : 519 ≤ b := hd
    refine .inr (.inr ⟨h519, rfl, rfl, ?_⟩)
    show b - 7 - 512 + 519 = b
    omega

/-- A walk that comes to a slot with the same number below it is the walk for the same block. -/
theorem Leads.block_eq (hc : v.Consistent w) {nr b b' l r : Nat} {p : Place} (ho : v.Owns w nr)
    (h : v.Leads w nr b l p r) (h' : v.Leads w nr b' l p r) : b = b' := by
  induction h with
  | start hs =>
    rename_i l i r d
    generalize hp : v.zonePlace nr i = p at h'
    cases h' with
    | start hs' =>
      have := zonePlace_inj hp
      have := start_numbers hs
      have := start_numbers hs'
      omega
    | next hp' hv' =>
      exact absurd hp (zonePlace_ne_indexPlace ho (hc.owned.used (hp'.slot ho) hv').first)
  | next hq hv ih =>
    rename_i l r z q
    generalize hp : v.indexPlace z (r / BLOCK_INDEXES ^ l) = p at h'
    generalize hr : r % BLOCK_INDEXES ^ l = m at h'
    cases h' with
    | start hs' =>
      exact absurd hp.symm (zonePlace_ne_indexPlace ho (hc.owned.used (hq.slot ho) hv).first)
    | next hq' hv' =>
      rename_i r' z' q'
      have hz : z = z' := congrArg (fun p : Place => p.1.block) hp
      have hj : 2 * (r / BLOCK_INDEXES ^ l) = 2 * (r' / BLOCK_INDEXES ^ l) :=
        congrArg Prod.snd hp
      subst hz
      have hqq := (hc.owned.one (hq.slot ho) (hq'.slot ho) hv hv').1
      have hrr : r = r' := by
        rw [← Nat.div_add_mod r (BLOCK_INDEXES ^ l), ← Nat.div_add_mod r' (BLOCK_INDEXES ^ l),
          hr, Nat.eq_of_mul_eq_mul_left (by decide) hj]
      subst hqq hrr
      exact ih hq'

/-- At the data the slot alone says which block it is. -/
theorem Leads.rest_eq (hc : v.Consistent w) {nr b b' r r' : Nat} {p : Place} (ho : v.Owns w nr)
    (h : v.Leads w nr b 0 p r) (h' : v.Leads w nr b' 0 p r') : r = r' := by
  generalize hl : 0 = l at h h'
  cases h with
  | start hs =>
    rename_i i d
    generalize hp : v.zonePlace nr i = p at h'
    cases h' with
    | start hs' =>
      have := zonePlace_inj hp
      have := start_numbers hs
      have := start_numbers hs'
      omega
    | next hp' hv' =>
      exact absurd hp (zonePlace_ne_indexPlace ho (hc.owned.used (hp'.slot ho) hv').first)
  | next hq hv =>
    rename_i r z q
    generalize hp : v.indexPlace z (r / BLOCK_INDEXES ^ l) = p at h'
    cases h' with
    | start hs' =>
      exact absurd hp.symm (zonePlace_ne_indexPlace ho (hc.owned.used (hq.slot ho) hv).first)
    | next hq' hv' =>
      rw [← hl, Nat.pow_zero, Nat.mod_one, Nat.mod_one]

/-- A zone is one block of an inode. -/
theorem BlockZone.block_eq (hc : v.Consistent w) {nr b b' z : Nat} (ho : v.Owns w nr)
    (h : v.BlockZone w nr b z) (h' : v.BlockZone w nr b' z) : b = b' := by
  obtain ⟨p, r, hl, hv⟩ := h
  obtain ⟨p', r', hl', hv'⟩ := h'
  have e := (hc.owned.one (hl.slot ho) (hl'.slot ho) hv hv').1
  subst e
  have e := hl.rest_eq hc ho hl'
  subst e
  exact hl.block_eq hc ho hl'

/-- A walk comes down from where it starts. -/
theorem Leads.start_le {nr b l r : Nat} {p : Place} (h : v.Leads w nr b l p r) :
    ∃ m i r d, BmapStart b m i r d ∧ l ≤ m := by
  induction h with
  | start hs => exact ⟨_, _, _, _, hs, Nat.le_refl _⟩
  | next _ _ ih =>
    obtain ⟨m, i, r, d, hs, hle⟩ := ih
    exact ⟨m, i, r, d, hs, Nat.le_of_succ_le hle⟩

/-- The walk for a block comes to one slot. -/
theorem Leads.place_eq {nr b l r r' : Nat} {p p' : Place}
    (h : v.Leads w nr b l p r) (h' : v.Leads w nr b l p' r') : p = p' ∧ r = r' := by
  induction h generalizing p' r' with
  | start hs =>
    cases h' with
    | start hs' =>
      rename_i i r d i' d'
      have := start_numbers hs
      have := start_numbers hs'
      have hi : i = i' := by omega
      exact ⟨by rw [hi], by omega⟩
    | next hq' _ =>
      obtain ⟨m, i, r, d, hs', hle⟩ := hq'.start_le
      have := start_numbers hs
      have := start_numbers hs'
      omega
  | next hq hv ih =>
    cases h' with
    | start hs' =>
      obtain ⟨m, i, r, d, hs, hle⟩ := hq.start_le
      have := start_numbers hs
      have := start_numbers hs'
      omega
    | next hq' hv' =>
      obtain ⟨rfl, rfl⟩ := ih hq'
      cases hv.symm.trans hv'
      exact ⟨rfl, rfl⟩

/-- A block of an inode is one zone. -/
theorem BlockZone.zone_eq {nr b z z' : Nat} (h : v.BlockZone w nr b z)
    (h' : v.BlockZone w nr b z') : z = z' := by
  obtain ⟨p, r, hl, hv⟩ := h
  obtain ⟨p', r', hl', hv'⟩ := h'
  obtain ⟨rfl, -⟩ := hl.place_eq hl'
  exact Option.some.inj (hv.symm.trans hv')

/-! ## 2. What the tasks share -/

/-- What a task in `balloc` is about to store: the zone, and the slot with its level. -/
structure Taking where
  place : Place
  level : Nat
  zone : Nat

/-- Read off the label the task sleeps at. -/
def taking : List Frame → Option Taking
  | [.bwrite _, .balloc _ bit, .bmap _ buf off level] => some ⟨(buf, off), level, bit⟩
  | _ => none

section Shared

variable {ι : Type} [DecidableEq ι]

/-- What task `i` is about to store. -/
def takes (F : ι → Option (List Frame)) (i : ι) : Option Taking := (F i).bind taking

/-- No two tasks wait in `balloc` for the same slot. -/
def Alone (F : ι → Option (List Frame)) : Prop :=
  ∀ i j a b, takes F i = some a → takes F j = some b → a.place = b.place → i = j

/-- **The invariant.** `w₀` is what the volume was before the calls. -/
structure Shared (v : Volume) (nr : Nat) (T : Tables) (w₀ : View) (F : ι → Option (List Frame))
    (s : Kernel) : Prop where
  tab : s.tab = T
  consistent : v.Consistent s.view
  owns : v.Owns s.view nr
  slot : ∀ i a, takes F i = some a → (v.forest s.view).Slot a.level a.place
  empty : ∀ i a, takes F i = some a → word s.view a.place = 0
  spare : ∀ i a, takes F i = some a → v.Spare s.view a.level a.zone
  distinct : ∀ i j a b, takes F i = some a → takes F j = some b → a.zone = b.zone → i = j
  kept : ∀ z, v.firstdatazone ≤ z → z < v.zones → v.zoneSet s.view z = true →
    v.zoneSet w₀ z = true ∨ (∃ l p, (v.forest s.view).Slot l p ∧ (v.forest s.view).val p = some z) ∨
      ∃ i a, takes F i = some a ∧ a.zone = z

/-- The tables are the same, and a consistent volume has what it had. -/
def Later (v : Volume) (s t : Kernel) : Prop :=
  t.tab = s.tab ∧ (v.Consistent s.view → v.Extends s.view t.view)

theorem Later.refl (s : Kernel) : v.Later s s := ⟨rfl, fun h => .refl h⟩

theorem Later.trans {s t u : Kernel} (h : v.Later s t) (h' : v.Later t u) : v.Later s u :=
  ⟨h'.1.trans h.1, fun hc => (h.2 hc).trans (h'.2 (h.2 hc).consistent)⟩

theorem later_of_same {s t : Kernel} (h : Same s t) : v.Later s t := by
  have hview : t.view = s.view := h.view
  refine ⟨h.tab, fun hc => ?_⟩
  rw [hview]
  exact .refl hc

variable {nr : Nat} {T : Tables} {w₀ : View} {F F' : ι → Option (List Frame)} {s t : Kernel}
  {i : ι}

omit [DecidableEq ι] in
theorem Shared.same (h : v.Shared nr T w₀ F s) (hs : Same s t) : v.Shared nr T w₀ F t := by
  have hview : t.view = s.view := hs.view
  refine ⟨hs.tab.trans h.tab, ?_, ?_, ?_, ?_, ?_, h.distinct, ?_⟩
  all_goals rw [hview]
  exacts [h.consistent, h.owns, h.slot, h.empty, h.spare, h.kept]

omit [DecidableEq ι] in
/-- The invariant sees a label only through what the task is about to store. -/
theorem Shared.congr (h : v.Shared nr T w₀ F s) (hF : takes F' = takes F) :
    v.Shared nr T w₀ F' s := by
  refine ⟨h.tab, h.consistent, h.owns, ?_, ?_, ?_, ?_, ?_⟩
  all_goals rw [hF]
  exacts [h.slot, h.empty, h.spare, h.distinct, h.kept]

theorem takes_update (F : ι → Option (List Frame)) (i : ι) (o : Option (List Frame)) :
    takes (Function.update F i o) = Function.update (takes F) i (o.bind taking) := by
  funext j
  by_cases e : j = i
  · subst e
    simp [takes]
  · simp [takes, e]

theorem takes_idle (h : takes F i = none) {o : Option (List Frame)} (ho : o.bind taking = none) :
    takes (Function.update F i o) = takes F := by
  rw [takes_update, ho, ← h, Function.update_eq_self]

/-- **A task marks a zone** and falls asleep with it. -/
theorem Shared.mark (h : v.Shared nr T w₀ F s) (hi : takes F i = none) {l : List Frame} {a : Taking}
    (hl : taking l = some a) (hslot : (v.forest s.view).Slot a.level a.place)
    (hempty : word s.view a.place = 0) (hz : v.firstdatazone ≤ a.zone + 1)
    (hlt : a.zone < v.zones) (hfree : v.zoneSet s.view a.zone = false)
    (hblank : 0 < a.level → ∀ j < BLOCK_INDEXES,
      word (v.setZone s.view a.zone true) (v.indexPlace a.zone j) = 0)
    (htab : t.tab = s.tab) (hview : t.view = v.setZone s.view a.zone true) :
    v.Shared nr T w₀ (Function.update F i (some l)) t := by
  have hg := Grows.mark h.consistent hz hlt
  have htakes : ∀ j, takes (Function.update F i (some l)) j = if j = i then some a else takes F j :=
    fun j => by
      rw [takes_update, Option.bind_some, hl, Function.update_apply]
  -- what a task takes now: the zone that has been marked, or what it took before
  have hcases : ∀ j b, takes (Function.update F i (some l)) j = some b →
      (j = i ∧ b = a) ∨ takes F j = some b := fun j b hb => by
    rw [htakes] at hb
    split at hb
    next e => exact .inl ⟨e, (Option.some.inj hb).symm⟩
    next => exact .inr hb
  have hword : ∀ {l p}, (v.forest s.view).Slot l p →
      word (v.setZone s.view a.zone true) p = word s.view p := fun hp =>
    word_setZone h.consistent hz hlt hp
  have hset : ∀ {b : Taking} {j}, takes F j = some b → b.zone ≠ a.zone := fun hb e => by
    have := (h.spare _ _ hb).set
    rw [e, hfree] at this
    cases this
  refine ⟨htab.trans h.tab, ?_, ?_, fun j b hb => ?_, fun j b hb => ?_, fun j b hb => ?_,
    fun j k b c hb hc e => ?_, fun z h1 h2 h3 => ?_⟩
  · exact hview ▸ hg.consistent
  · exact hview ▸ hg.owns h.owns
  · rw [hview]
    rcases hcases j b hb with ⟨-, rfl⟩ | hb
    · exact hg.slot hslot
    · exact hg.slot (h.slot j b hb)
  · rw [hview]
    rcases hcases j b hb with ⟨-, rfl⟩ | hb
    · exact (hword hslot).trans hempty
    · exact (hword (h.slot j b hb)).trans (h.empty j b hb)
  · rw [hview]
    rcases hcases j b hb with ⟨-, rfl⟩ | hb
    · exact spare_of_mark h.consistent hz hlt hfree hblank
    · have hs := h.spare j b hb
      have hroom := v.room
      have hfirst := hs.first
      refine ⟨⟨hs.first, hs.lt, ?_⟩, fun m q hq hv => ?_, fun hl j hj => ?_⟩
      · rw [zoneSet_setZone hz (Nat.le_succ_of_le hs.first), hs.set]
        exact ite_self _
      · obtain ⟨hq', hv'⟩ := mark_val h.consistent hz hlt hq hv
        exact hs.unnamed m q hq' hv'
      · refine (word_congr (setZone_of_ne hlt hz (.inr ?_))).trans (hs.blank hl j hj)
        unfold indexPlace
        dsimp only
        omega
  · rcases hcases j b hb with ⟨hj, hb'⟩ | hb'
    · rcases hcases k c hc with ⟨hk, -⟩ | hc'
      · exact hj.trans hk.symm
      · exact absurd (e.symm.trans (congrArg Taking.zone hb')) (hset hc')
    · rcases hcases k c hc with ⟨-, hc'⟩ | hc'
      · exact absurd (e.trans (congrArg Taking.zone hc')) (hset hb')
      · exact h.distinct j k b c hb' hc' e
  · rw [hview] at h3 ⊢
    by_cases e : z = a.zone
    · exact .inr (.inr ⟨i, a, by rw [htakes, if_pos rfl], e.symm⟩)
    · rw [zoneSet_setZone hz (Nat.le_succ_of_le h1), if_neg e] at h3
      rcases h.kept z h1 h2 h3 with h0 | ⟨l, p, hp, hv⟩ | ⟨j, b, hb, rfl⟩
      · exact .inl h0
      · exact .inr (.inl ⟨l, p, hg.slot hp, hg.val hp hv⟩)
      · have hji : j ≠ i := fun e' => by
          rw [e', hi] at hb
          cases hb
        exact .inr (.inr ⟨j, b, by rw [htakes, if_neg hji]; exact hb, rfl⟩)

/-- **A task stores the zone** it has slept with, in a slot no other task waits for. -/
theorem Shared.fill (h : v.Shared nr T w₀ F s) {a : Taking} (hi : takes F i = some a)
    (halone : Alone F) (htab : t.tab = s.tab) (hview : t.view = putWord s.view a.place a.zone) :
    v.Shared nr T w₀ (Function.update F i none) t ∧ v.Extends s.view t.view ∧
      word t.view a.place = a.zone ∧ a.zone ≠ 0 := by
  have hslot := h.slot i a hi
  have hempty := h.empty i a hi
  have hspare := h.spare i a hi
  obtain ⟨hg, hval⟩ := Grows.fill h.consistent hslot hempty hspare
  have htakes : ∀ j, takes (Function.update F i none) j = if j = i then none else takes F j :=
    fun j => by
      rw [takes_update, Option.bind_none, Function.update_apply]
  have hcases : ∀ j b, takes (Function.update F i none) j = some b →
      takes F j = some b ∧ j ≠ i := fun j b hb => by
    rw [htakes] at hb
    split at hb
    next => cases hb
    next e => exact ⟨hb, e⟩
  have hsame : ∀ y, v.firstdatazone ≤ y → y < v.zones →
      v.zoneSet (putWord s.view a.place a.zone) y = v.zoneSet s.view y := fun y h1 h2 =>
    zoneSet_putWord h.consistent hslot (Nat.le_succ_of_le h1) h2
  refine ⟨⟨htab.trans h.tab, ?_, ?_, fun j b hb => ?_, fun j b hb => ?_, fun j b hb => ?_,
    fun j k b c hb hc e => ?_, fun z h1 h2 h3 => ?_⟩, ?_, ?_⟩
  · exact hview ▸ hg.consistent
  · exact hview ▸ hg.owns h.owns
  · exact hview ▸ hg.slot (h.slot j b (hcases j b hb).1)
  · obtain ⟨hb, hne⟩ := hcases j b hb
    have hp : b.place ≠ a.place := fun e => hne (halone j i b a hb hi e)
    rw [hview]
    exact (word_putWord_of_ne (slot_place h.consistent hslot).2
      (slot_place h.consistent (h.slot j b hb)).2 hp).trans (h.empty j b hb)
  · obtain ⟨hb, hne⟩ := hcases j b hb
    have hs := h.spare j b hb
    rw [hview]
    refine ⟨⟨hs.first, hs.lt, (hsame _ hs.first hs.lt).trans hs.set⟩, fun m q hq hv => ?_,
      fun hl k hk => ?_⟩
    · rcases fill_val h.consistent hslot hempty hspare hq hv with ⟨-, e⟩ | ⟨hq', hv'⟩
      · exact hne (h.distinct j i b a hb hi e)
      · exact hs.unnamed m q hq' hv'
    · have hb' := unnamed_ne_slot h.consistent hslot hs.first hs.unnamed
      exact (word_congr (putWord_of_ne hb'.symm)).trans (hs.blank hl k hk)
  · exact h.distinct j k b c (hcases j b hb).1 (hcases k c hc).1 e
  · rw [hview] at h3 ⊢
    rcases h.kept z h1 h2 ((hsame z h1 h2).symm.trans h3) with h0 | ⟨l, p, hp, hv⟩ | ⟨j, b, hb, rfl⟩
    · exact .inl h0
    · exact .inr (.inl ⟨l, p, hg.slot hp, hg.val hp hv⟩)
    · by_cases e : j = i
      · subst e
        cases hb.symm.trans hi
        exact .inr (.inl ⟨_, _, hg.slot hslot, hval⟩)
      · exact .inr (.inr ⟨j, b, by rw [htakes, if_neg e]; exact hb, rfl⟩)
  · exact hview ▸ hg.toExtends
  · exact hview ▸ val_eq.mp hval

end Shared

/-! ## 3. The calls -/

section Calls

variable {ι : Type} [DecidableEq ι]

/-- `balloc` finds zones, and a zone taken for an index block is blank. -/
def AllSupplied (F : ι → Option (List Frame)) (s : Kernel) : Prop :=
  ∀ i l, F i = some l → Supplied l s

/-- The condition on the states between turns: besides, no two tasks wait in `balloc` for one
    slot. -/
def BmapOk (F : ι → Option (List Frame)) (s : Kernel) : Prop := Alone F ∧ AllSupplied F s

/-- The rules of the tasks in `bmap`. -/
def rules (ι : Type) (v : Volume) (nr : Nat) (T : Tables) (w₀ : View) :
    Rules ι Kernel (List Frame) where
  Inv := v.Shared nr T w₀
  Ok := BmapOk
  Later := v.Later
  refl := Later.refl
  trans := Later.trans

variable {nr x level slot : Nat} {buf : Key} {T : Tables} {w₀ : View}
  {F : ι → Option (List Frame)} {s₀ s : Kernel} {i : ι} {g : List Frame → List Frame}

/-- Task `i` in its turn, with no zone in its hands. -/
structure Turn (v : Volume) (nr : Nat) (T : Tables) (w₀ : View) (i : ι)
    (F : ι → Option (List Frame)) (s₀ s : Kernel) : Prop where
  shared : v.Shared nr T w₀ (Function.update F i none) s
  later : v.Later s₀ s

theorem Turn.same {t : Kernel} (h : v.Turn nr T w₀ i F s₀ s) (hs : Same s t) :
    v.Turn nr T w₀ i F s₀ t :=
  ⟨h.shared.same hs, h.later.trans (later_of_same hs)⟩

/-- Waiting with no zone in the hands. -/
theorem wp_wait {l : List Frame} (hl : taking (g l) = none) (h : v.Turn nr T w₀ i F s₀ s)
    {Q : Post ι Kernel (List Frame) Unit}
    (hQ : ∀ F' s', v.Turn nr T w₀ i F' s' s' → v.Later s s' → Q () F' s' s') :
    Wp (rules ι v nr T w₀) i g (sleep l : Code Unit) Q F s₀ s := by
  refine wp_sleep.mpr fun _ => ⟨h.later, h.shared.congr ?_, fun F' s' hi hl' hinv _ => ?_⟩
  · rw [takes_update, takes_update, Option.bind_some, hl, Option.bind_none]
  · have hidle : takes F' i = none := by
      rw [takes, hi]
      exact hl
    exact hQ F' s' ⟨Shared.congr hinv (takes_idle hidle rfl), Later.refl s'⟩ hl'

theorem wp_bwrite {k : Key} (hl : taking (g [.bwrite k]) = none) (h : v.Turn nr T w₀ i F s₀ s)
    {Q : Post ι Kernel (List Frame) Unit}
    (hQ : ∀ F' s₀' s', v.Turn nr T w₀ i F' s₀' s' → v.Later s s' → Q () F' s₀' s') :
    Wp (rules ι v nr T w₀) i g (bwrite k) Q F s₀ s := by
  refine wp_bind.mpr (wp_reads.mpr (wp_ite (fun _ => ?_) fun _ => ?_))
  · have hs : Same s { s with cache := s.cache.flush k } := ⟨view_flush, rfl, rfl, rfl⟩
    refine wp_bind.mpr (wp_modify.mpr (wp_bind.mpr (wp_wait hl (h.same hs) fun F' s' ht hl' => ?_)))
    have hs' : Same s' { s' with cache := s'.cache.flushed k } := ⟨view_flushed, rfl, rfl, rfl⟩
    exact wp_modify.mpr (hQ _ _ _ (ht.same hs')
      (((later_of_same hs).trans hl').trans (later_of_same hs')))
  · exact hQ _ _ _ h (Later.refl s)

theorem wp_brelse {k : Key} (hl : taking (g [.bwrite k]) = none) (h : v.Turn nr T w₀ i F s₀ s)
    {Q : Post ι Kernel (List Frame) Unit}
    (hQ : ∀ F' s₀' s', v.Turn nr T w₀ i F' s₀' s' → v.Later s s' → Q () F' s₀' s') :
    Wp (rules ι v nr T w₀) i g (brelse k) Q F s₀ s := by
  refine wp_bind.mpr (wp_bwrite hl h fun F' s₀' s' ht hl' => ?_)
  have hs' : Same s' { s' with cache := s'.cache.addCount k (-1) } :=
    ⟨view_addCount, rfl, rfl, rfl⟩
  refine wp_bind.mpr (wp_modify.mpr (wp_bind.mpr (wp_reads.mpr (wp_check fun _ => ?_))))
  exact hQ _ _ _ (ht.same hs') (hl'.trans (later_of_same hs'))

theorem wp_bread {dev : Int} {block : Nat} (hl : taking (g [.bread ⟨dev, block⟩]) = none)
    (h : v.Turn nr T w₀ i F s₀ s) {Q : Post ι Kernel (List Frame) Key}
    (hQ : ∀ F' s₀' s', v.Turn nr T w₀ i F' s₀' s' → v.Later s s' → Q ⟨dev, block⟩ F' s₀' s') :
    Wp (rules ι v nr T w₀) i g (bread dev block) Q F s₀ s := by
  have hs : Same s { s with cache := s.cache.addCount ⟨dev, block⟩ 1 } :=
    ⟨view_addCount, rfl, rfl, rfl⟩
  refine wp_bind.mpr (wp_modify.mpr (wp_bind.mpr (wp_reads.mpr (wp_ite (fun _ => ?_) fun _ => ?_))))
  · exact wp_pure.mpr (hQ _ _ _ (h.same hs) (later_of_same hs))
  · refine wp_bind.mpr (wp_wait hl (h.same hs) fun F' s' ht hl' => ?_)
    have hs' : Same s' { s' with cache := s'.cache.load ⟨dev, block⟩ } := ⟨view_load, rfl, rfl, rfl⟩
    exact wp_bind.mpr (wp_modify.mpr (wp_pure.mpr (hQ _ _ _ (ht.same hs')
      (((later_of_same hs).trans hl').trans (later_of_same hs')))))

theorem quiet_superOf (dev : Int) : Quiet (superOf dev) :=
  quiet_bind (quiet_reads _) fun _ => quiet_bind (quiet_need _ _) fun _ => quiet_pure _

theorem quiet_lift {α : Type} (r : Except Stop α) : Quiet (lift r) := by
  cases r with
  | ok a => exact quiet_pure a
  | error e => exact quiet_stop e

theorem quiet_allocLoop (maps : Nat → Option Key) (len : Nat) (off : Nat → Nat) (limit n j : Nat)
    (o : Option Key) : Quiet (allocLoop maps len off limit n j o) := by
  induction n generalizing j o with
  | zero => exact quiet_pure _
  | succ n ih =>
    refine quiet_bind (quiet_need _ _) fun k => quiet_bind (quiet_bind (quiet_reads _) fun _ =>
      quiet_pure _) fun map => quiet_bind (quiet_lift _) fun r => ?_
    rcases r with _ | ⟨bit, map⟩
    · exact ih _ _
    · exact quiet_bind (quiet_modify _) fun _ => quiet_bind (quiet_check _ _) fun _ =>
        quiet_bind (quiet_modify _) fun _ => quiet_pure _

/-- **`balloc` for an empty slot.** The task comes back with a zone in its hands, or with `EOF`. -/
theorem wp_balloc (hm : v.Mounted T) (h : v.Turn nr T w₀ i F s₀ s)
    (hslot : (v.forest s.view).Slot level (buf, slot)) (hempty : word s.view (buf, slot) = 0)
    {Q : Post ι Kernel (List Frame) Nat}
    (hQ : ∀ bit F' s₀' s', takes F' i = some ⟨(buf, slot), level, bit⟩ → v.Shared nr T w₀ F' s' →
      Alone F' → v.Later s₀' s' → v.Later s s' → Q bit F' s₀' s')
    (hEOF : ∀ s', Same s s' → Q EOF F s₀ s') :
    Wp (rules ι v nr T w₀) i (· ++ [.bmap x buf slot level]) (balloc v.dev) Q F s₀ s := by
  have hT := h.shared.tab
  refine wp_bind.mpr (wp_quiet (quiet_superOf _) fun sb s₁ h₁ => ?_)
  obtain ⟨hd, rfl⟩ := runs_superOf_mounted (hT ▸ hm) h₁
  refine wp_bind.mpr (wp_quiet (quiet_allocLoop _ _ _ _ _ _ _) fun r s₂ h₂ => ?_)
  obtain ⟨o, bit⟩ := r
  refine wp_bind.mpr (wp_quiet (quiet_need _ _) fun k s₃ h₃ => ?_)
  rw [Ends, runs_need] at h₃
  obtain ⟨ho, rfl⟩ := h₃
  refine wp_bind.mpr (wp_mapLabel.mpr (wp_bind.mpr (wp_reads.mpr ?_)))
  rcases allocLoop_spec h₂ with ⟨rfl, rfl, -⟩ | ⟨k', j, p, ho', ht, rfl⟩
  · -- the block last looked at may be dirty for another task's sake
    refine wp_ite (fun _ => wp_bind.mpr (wp_modify.mpr (wp_bind.mpr (wp_sleep.mpr fun hok => ?_))))
      fun _ => wp_pure.mpr (wp_pure.mpr (hEOF _ (.refl s)))
    exact absurd rfl (hok.2 i _ (Function.update_self ..)).1
  · cases ho.symm.trans ho'
    obtain ⟨hlow, hview, hget⟩ := hd.putBit (s := s) (b := true) ht.map ht.number ht.inBlock
    have hfree : v.zoneSet s.view bit = false := hget ▸ ht.clear
    have hlt : bit < v.zones := hd.zones ▸ ht.below
    have hs₁ : Same (s.putBit k p true)
        { s.putBit k p true with cache := (s.putBit k p true).cache.flush k } :=
      ⟨view_flush, rfl, rfl, rfl⟩
    have hview₁ : ({ s.putBit k p true with
        cache := (s.putBit k p true).cache.flush k } : Kernel).view = v.setZone s.view bit true :=
      Eq.trans hs₁.view hview
    refine wp_ite (fun _ => wp_bind.mpr (wp_modify.mpr (wp_bind.mpr (wp_sleep.mpr fun hok => ?_))))
      fun hno => absurd (mark_dirty _ _) hno
    have hblank := (hok.2 i _ (Function.update_self ..)).2
    have hinv := h.shared.mark (i := i) (a := ⟨(buf, slot), level, bit⟩) (t := { s.putBit k p true
      with cache := (s.putBit k p true).cache.flush k }) (l := [.bwrite k, .balloc v.dev bit,
        .bmap x buf slot level]) (by rw [takes_update, Function.update_self]; rfl) rfl hslot hempty
      hlow hlt hfree (fun hl j hj => ?_) rfl hview₁
    · rw [Function.update_idem] at hinv
      have hmoved : v.Later s { s.putBit k p true with
          cache := (s.putBit k p true).cache.flush k } :=
        ⟨rfl, fun hc => hview₁ ▸ (Grows.mark hc hlow hlt).toExtends⟩
      refine ⟨h.later.trans hmoved, hinv, fun F' s' hi hl' hinv' hok' => ?_⟩
      have hs' : Same s' { s' with cache := s'.cache.flushed k } := ⟨view_flushed, rfl, rfl, rfl⟩
      refine wp_modify.mpr (wp_pure.mpr (hQ bit F' _ _ ?_ (Shared.same hinv' hs') hok'.1
        (later_of_same hs') ((hmoved.trans hl').trans (later_of_same hs'))))
      rw [takes, hi]
      rfl
    · obtain ⟨l, rfl⟩ := Nat.exists_eq_succ_of_ne_zero (Nat.ne_of_gt hl)
      rw [← hview₁]
      exact blank_words hblank hj

/-- **`bmap` at one slot.** -/
theorem wp_bmapSlot (hm : v.Mounted T) (hx : (T.inodeTable x).dev = v.dev)
    (h : v.Turn nr T w₀ i F s₀ s) (hslot : (v.forest s.view).Slot level (buf, slot))
    {Q : Post ι Kernel (List Frame) Unit}
    (hQ : ∀ F' s₀' s', v.Turn nr T w₀ i F' s₀' s' → v.Later s s' →
      word s'.view (buf, slot) ≠ 0 → Q () F' s₀' s') :
    Wp (rules ι v nr T w₀) i id (bmapSlot x true level buf slot) Q F s₀ s := by
  refine wp_mapLabel.mpr (wp_bind.mpr (wp_bind.mpr (wp_reads.mpr (wp_ite (fun hc => ?_) fun hc => ?_))))
  · have hdev : (s.tab.inodeTable x).dev = v.dev := h.shared.tab ▸ hx
    refine wp_bind.mpr (wp_reads.mpr (wp_bind.mpr ?_))
    rw [hdev]
    refine wp_balloc hm h hslot hc.1 (fun bit F' s₀' s' htake hsh halone hl₀ hl => ?_)
      fun s' hs => ?_
    · obtain ⟨hsh', hext, hword, hne⟩ := Shared.fill (t := s'.poke buf fun b => store b slot 2 bit)
        hsh htake halone rfl (view_poke_word s' buf slot bit)
      have hlater : v.Later s' (s'.poke buf fun b => store b slot 2 bit) := ⟨rfl, fun _ => hext⟩
      have hturn := Turn.same ⟨hsh', hl₀.trans hlater⟩ (mark_same _ buf)
      have hlater' := hlater.trans (later_of_same (mark_same _ buf))
      refine wp_bind.mpr (wp_modify.mpr (wp_modify.mpr (wp_brelse rfl hturn
        fun F'' s₀'' s'' ht hl' => hQ _ _ _ ht ((hl.trans hlater').trans hl') ?_)))
      -- what has been stored is still there when the buffer has been given back
      have hmark : ((s'.poke buf fun b => store b slot 2 bit).mark buf).view =
          (s'.poke buf fun b => store b slot 2 bit).view := (mark_same _ buf).view
      have hext' := hl'.2 hturn.shared.consistent
      rw [hmark] at hext'
      have hval := hext'.val (hext.slot (hsh.slot i _ htake)) (val_eq.mpr ⟨hword, hne⟩)
      exact (val_eq.mp hval).1 ▸ hne
    · refine wp_bind.mpr (wp_modify.mpr (wp_modify.mpr (wp_bind.mpr (wp_bind.mpr (wp_reads.mpr
        (wp_ite (fun _ => ?_) fun hno => absurd (mark_dirty _ _) hno))))))
      refine wp_bind.mpr (wp_modify.mpr (wp_bind.mpr (wp_sleep.mpr fun hok => ?_)))
      refine absurd ?_ (hok.2 i _ (Function.update_self ..)).1
      show fetch (((s'.poke buf fun b => store b slot 2 EOF).mark buf).cache.flush buf |>.view buf)
        slot 2 = _
      rw [view_flush, (mark_same _ buf).view]
      refine (congrArg (fetch · slot 2) (Kernel.view_poke_self ..)).trans (fetch_store_EOF _ _)
  · have hne : word s.view (buf, slot) ≠ 0 := fun e => hc ⟨e, rfl⟩
    refine wp_pure.mpr (wp_brelse rfl h fun F' s₀' s' ht hl => hQ _ _ _ ht hl ?_)
    have hz : (v.forest s.view).val (buf, slot) = some (word s.view (buf, slot)) :=
      val_eq.mpr ⟨rfl, hne⟩
    have hval := (hl.2 h.shared.consistent).val hslot hz
    exact (val_eq.mp hval).1 ▸ (val_eq.mp hval).2

/-- **The walk of `bmap`.** -/
theorem wp_bmapReckon {array index block divider b : Nat} (hm : v.Mounted T)
    (hx : (T.inodeTable x).dev = v.dev) (h : v.Turn nr T w₀ i F s₀ s)
    (hl : v.Leads s.view nr b level (buf, array + 2 * index) block) (hw : Walk level block divider)
    {Q : Post ι Kernel (List Frame) Nat}
    (hQ : ∀ z F' s₀' s', v.Turn nr T w₀ i F' s₀' s' → v.BlockZone s'.view nr b z →
      Q z F' s₀' s') :
    Wp (rules ι v nr T w₀) i id (bmapReckon x true level buf array index block divider) Q F s₀ s := by
  induction level generalizing buf array index block divider F s₀ s with
  | zero =>
    have ho := h.shared.owns
    refine wp_bind.mpr (wp_bmapSlot hm hx h (hl.slot ho) fun F' s₀' s' ht hlt hne => ?_)
    refine wp_bind.mpr (wp_reads.mpr (wp_pure.mpr (hQ _ _ _ _ ht ?_)))
    exact ⟨_, _, hl.extend ho (hlt.2 h.shared.consistent), val_eq.mpr ⟨rfl, hne⟩⟩
  | succ level ih =>
    have ho := h.shared.owns
    refine wp_bind.mpr (wp_bmapSlot hm hx h (hl.slot ho) fun F' s₀' s' ht hlt hne => ?_)
    have hl' := hl.extend ho (hlt.2 h.shared.consistent)
    refine wp_bind.mpr (wp_reads.mpr (wp_ite (fun e => absurd e hne) fun _ => ?_))
    have hdev : (s'.tab.inodeTable x).dev = v.dev := ht.shared.tab ▸ hx
    refine wp_bind.mpr (wp_reads.mpr (wp_bind.mpr (wp_bread rfl ht fun F'' s₀'' s'' ht' hlt' => ?_)))
    obtain ⟨hdiv, hw'⟩ := hw.next
    refine ih ht' ?_ hw'
    rw [hdev, Nat.zero_add, hdiv]
    have hnext := Leads.next hl' (val_eq.mpr ⟨rfl, hne⟩)
    exact hnext.extend ht.shared.owns (hlt'.2 ht.shared.consistent)

/-- **`bmap`** answers the zone of its block. -/
theorem wp_bmap {block : Nat} (hm : v.Mounted T) (hx : v.Loaded T x nr)
    (h : v.Turn nr T w₀ i F s₀ s) {Q : Post ι Kernel (List Frame) Nat}
    (hQ : ∀ z F' s₀' s', v.Turn nr T w₀ i F' s₀' s' → v.BlockZone s'.view nr block z →
      Q z F' s₀' s') :
    Wp (rules ι v nr T w₀) i id (bmap x block true) Q F s₀ s := by
  refine wp_bind.mpr (wp_check fun hlt => wp_bind.mpr (wp_reads.mpr (wp_bind.mpr (wp_modify.mpr ?_))))
  have hlt := of_decide_eq_true hlt
  have hs : Same s { s with cache := s.cache.addCount (s.tab.inodeTable x).buf 1 } :=
    ⟨view_addCount, rfl, rfl, rfl⟩
  have ht := h.same hs
  have hloaded : v.Loaded s.tab x nr := h.shared.tab ▸ hx
  have hview : ({ s with cache := s.cache.addCount (s.tab.inodeTable x).buf 1 } : Kernel).view =
      s.view := hs.view
  have go : ∀ {level index rest divider}, BmapStart block level index rest divider →
      Wp (rules ι v nr T w₀) i id (bmapReckon x true level (s.tab.inodeTable x).buf
        ((s.tab.inodeTable x).desc + (Field.zone 0).off) index rest divider) Q F s₀
        { s with cache := s.cache.addCount (s.tab.inodeTable x).buf 1 } := fun hstart =>
    wp_bmapReckon hm hx.dev ht (hview ▸ hloaded.leads hstart) (walk_start hstart).2.2 hQ
  refine wp_ite (fun hd => go (.direct hd)) fun hd => ?_
  refine wp_ite (fun hi => go (.single (Nat.le_of_not_lt hd) hi)) fun hi => ?_
  have hdouble := go (.double (by omega) hlt)
  generalize block - DIRECT_BLOCK - INDIRECT1_BLOCK = rest at hdouble ⊢
  exact wp_bind.mpr (wp_check fun _ => hdouble)

end Calls

end Volume

/-! ## 4. Any number of calls -/

/-- The calls agree: calls for the same block have the same result and calls for different blocks
    different ones, and when all have come to their ends every zone that is marked and was not
    (`w₀`) is named by a slot. -/
structure Volume.Agreed {ι : Type} (v : Volume) (block : ι → Nat) (w₀ : View)
    (M : Pool ι Stop Kernel (List Frame) Nat) : Prop where
  zone : ∀ i j y z, M.thread i = .done y → M.thread j = .done z → (block i = block j ↔ y = z)
  kept : (∀ i, ∃ z, M.thread i = .done z) → ∀ z, v.firstdatazone ≤ z → z < v.zones →
    v.zoneSet M.shared.view z = true → v.zoneSet w₀ z = false →
    ∃ l p, (v.forest M.shared.view).Slot l p ∧ (v.forest M.shared.view).val p = some z

/-- The tasks before their first turns. -/
def bmapPool {ι : Type} (x : Nat) (block : ι → Nat) (s : Kernel) :
    Pool ι Stop Kernel (List Frame) Nat :=
  ⟨s, fun i => .ready (bmap x (block i) true)⟩

/-- **Any number of tasks in `bmap` of one inode**, in any order of turns: they agree while no two
    of them wait in `balloc` for the same slot. -/
theorem bmap_together {ι : Type} [DecidableEq ι] {v : Volume} {x nr : Nat} {block : ι → Nat}
    {s : Kernel} (hm : v.Mounted s.tab) (hx : v.Loaded s.tab x nr) (hc : v.Consistent s.view)
    (ho : v.Owns s.view nr) {M : Pool ι Stop Kernel (List Frame) Nat}
    (h : Pool.Turns Volume.BmapOk (bmapPool x block s) M) : v.Agreed block s.view M := by
  have idle : ∀ i a, Volume.takes (fun _ : ι => none) i ≠ some a := fun i a e => by cases e
  have hinit : v.Shared nr s.tab s.view (fun _ : ι => none) s :=
    ⟨rfl, hc, ho, fun i a e => absurd e (idle i a), fun i a e => absurd e (idle i a),
      fun i a e => absurd e (idle i a), fun i _ a _ e => absurd e (idle i a), fun _ _ _ e => .inl e⟩
  have later : ∀ (i : ι) z t u, v.Later t u →
      v.Consistent t.view ∧ v.Owns t.view nr ∧ v.BlockZone t.view nr (block i) z →
      v.Consistent u.view ∧ v.Owns u.view nr ∧ v.BlockZone u.view nr (block i) z :=
    fun i z t u hl hq => by
      have hx := hl.2 hq.1
      exact ⟨hx.consistent, hx.owns hq.2.1, hq.2.2.extend hq.2.1 hx⟩
  obtain ⟨hinv, hsafe⟩ := turns_safe (R := Volume.rules ι v nr s.tab s.view)
    (Q := fun i z t => v.Consistent t.view ∧ v.Owns t.view nr ∧ v.BlockZone t.view nr (block i) z)
    later h hinit fun i F t hF _ hi _ => by
      have hidle : Volume.takes F i = none := by rw [Volume.takes, hF, Option.bind_none]
      have hturn : v.Turn nr s.tab s.view i F t t :=
        ⟨Volume.Shared.congr hi (Volume.takes_idle hidle rfl), Volume.Later.refl t⟩
      exact Volume.wp_bmap hm hx hturn fun z F' s₀' s' ht hz _ =>
        ⟨ht.later, ht.shared, ht.shared.consistent, ht.shared.owns, hz⟩
  have hdone : ∀ i z, M.thread i = .done z → v.BlockZone M.shared.view nr (block i) z :=
    fun i z e => by
      have := hsafe i
      rw [e] at this
      exact this.2.2
  refine ⟨fun i j y z hi hj => ?_, fun hall z h1 h2 h3 h4 => ?_⟩
  · have hy := hdone i y hi
    have hz := hdone j z hj
    constructor
    · intro e
      exact (e ▸ hy).zone_eq hz
    · intro e
      exact hy.block_eq hinv.consistent hinv.owns (e ▸ hz)
  · rcases hinv.kept z h1 h2 h3 with h0 | hnamed | ⟨i, a, htake, -⟩
    · exact absurd (h0.symm.trans h4) (by decide)
    · exact hnamed
    · obtain ⟨y, hy⟩ := hall i
      have : M.labels i = none := by
        rw [Pool.labels, hy]
        rfl
      rw [Volume.takes, this] at htake
      cases htake

/-! ### Two tasks, one empty slot -/

namespace Volume

instance {n : Nat} (F : Fin n → Option (List Frame)) : Decidable (Alone F) :=
  decidable_of_iff (∀ i j, (takes F i).isSome → (takes F j).isSome →
      (takes F i).map Taking.place = (takes F j).map Taking.place → i = j) <| by
    constructor
    · intro h i j a b ha hb e
      exact h i j (by rw [ha]; rfl) (by rw [hb]; rfl) (by rw [ha, hb]; exact congrArg some e)
    · intro h i j hi hj e
      obtain ⟨a, ha⟩ := Option.isSome_iff_exists.mp hi
      obtain ⟨b, hb⟩ := Option.isSome_iff_exists.mp hj
      rw [ha, hb] at e
      exact h i j a b ha hb (Option.some.inj e)

instance {n : Nat} (F : Fin n → Option (List Frame)) (s : Kernel) : Decidable (AllSupplied F s) :=
  decidable_of_iff (∀ i, ∀ l ∈ F i, Supplied l s) Iff.rfl

instance {n : Nat} (F : Fin n → Option (List Frame)) (s : Kernel) : Decidable (BmapOk F s) :=
  inferInstanceAs (Decidable (_ ∧ _))

end Volume

namespace Sample

/-- Tasks 0 and 1 have ended, with results that `f` accepts. -/
def ended (f : Nat → Nat → Bool) (M : Pool (Fin 2) Stop Kernel (List Frame) Nat) : Bool :=
  match M.thread ⟨0, Nat.two_pos⟩, M.thread ⟨1, Nat.one_lt_two⟩ with
  | .done y, .done z => f y z
  | _, _ => false

theorem ended_iff {f : Nat → Nat → Bool} {M : Pool (Fin 2) Stop Kernel (List Frame) Nat}
    (h : ended f M = true) : ∃ y z, M.thread 0 = .done y ∧ M.thread 1 = .done z ∧ f y z = true := by
  unfold ended at h
  split at h
  next y z hy hz => exact ⟨y, z, hy, hz, h⟩
  next => cases h

theorem loaded (junk : Key → Bytes) : volume.Loaded (kernelFile junk).tab 1 2 := ⟨rfl, rfl, rfl⟩

theorem owns : volume.Owns (kernelFile fun _ _ => 0).view 2 := by decide

end Sample

/-- One task fills the slot before the other looks. -/
theorem bmap_together_in_turn : ∃ M, Pool.Turns Volume.BmapOk
    (bmapPool 1 (fun _ : Fin 2 => 0) (Sample.kernelFile fun _ _ => 0)) M ∧
    Sample.volume.Agreed (fun _ : Fin 2 => 0) (Sample.kernelFile fun _ _ => 0).view M := by
  obtain ⟨M, hM, -⟩ := Pool.turns_of_check Volume.BmapOk (fun _ => true) [0, 0, 0, 1]
    (bmapPool 1 (fun _ : Fin 2 => 0) (Sample.kernelFile fun _ _ => 0)) (by decide)
    (by decide)
  exact ⟨M, hM, bmap_together (Sample.mounted _) (Sample.loaded _) Sample.kernelFile_zero
    Sample.owns hM⟩

/-- Both tasks find block 0 without a zone and wait in `balloc`; the second to come back stores its
    zone over the first one's. -/
theorem bmap_together_not_always : ¬ ∀ {ι : Type} [DecidableEq ι] (v : Volume) (x nr : Nat)
    (block : ι → Nat) (s : Kernel) (M : Pool ι Stop Kernel (List Frame) Nat),
    v.Mounted s.tab → v.Loaded s.tab x nr → v.Consistent s.view → v.Owns s.view nr →
    Pool.Turns Volume.AllSupplied (bmapPool x block s) M → v.Agreed block s.view M := by
  intro h
  obtain ⟨M, hM, hf⟩ := Pool.turns_of_check Volume.AllSupplied (Sample.ended (· != ·))
    [0, 1, 0, 0, 1, 1] (bmapPool 1 (fun _ : Fin 2 => 0) (Sample.kernelFile fun _ _ => 0))
    (by decide) (by decide)
  obtain ⟨y, z, hy, hz, hne⟩ := Sample.ended_iff hf
  have hagree := h Sample.volume 1 2 (fun _ : Fin 2 => 0) _ M (Sample.mounted _) (Sample.loaded _)
    Sample.kernelFile_zero Sample.owns hM
  exact absurd ((hagree.zone 0 1 y z hy hz).mp rfl) (bne_iff_ne.mp hne)

end Yuios
