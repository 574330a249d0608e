/-
  File:      Yuios/Kernel/Slice.lean
  Subject:   TIME SLICES: the `ticks` of the running task.

  The field is what is left of a slice, and the wake-up time while a task sleeps. `task_wakeup` sets
  it to 0 and `schedule` sets it to the priority for the outgoing task only, so a task that has slept
  runs with 0 ticks, goes below at the next clock interrupt, and is not pre-empted.

  * `Sliced` -- the invariant. A task sleeps, or has been woken with 0 ticks, or is in its slice.
  * `Meets` -- the step does not switch to a task with 0 ticks.
  * **`slice_kept`** -- in every run of such steps; and a step that is not one breaks it.
  * `slice_lost` -- init sleeps and runs again.
-/
import Mathlib.Algebra.Group.Int.Defs
import Mathlib.Algebra.Group.Nat.Defs
import Yuios.Kernel.Sched

namespace Yuios.Slice

open Kernel Sched

/-! ## 1. Runs -/

/-- The task has ticks left, and no more than its priority. -/
def InSlice (t : Task) : Prop := 1 ≤ t.ticks.toInt ∧ t.ticks.toInt ≤ t.priority.toNat

instance (t : Task) : Decidable (InSlice t) :=
  inferInstanceAs (Decidable (1 ≤ t.ticks.toInt ∧ t.ticks.toInt ≤ t.priority.toNat))

/-- The running task, unless it is idle, is in its slice. -/
def RunsInSlice (s : State) : Prop :=
  ∀ t, s.table s.current = some t → s.current ≠ 0 → InSlice t

/-- Task `p` has no ticks. -/
def Spent (s : State) (p : Nat) : Prop := ∃ t, s.table p = some t ∧ t.ticks = 0

/-- **The step does not switch to a task that has no ticks**, one woken by `task_wakeup`. -/
def Meets (s : State) : Action → Prop
  | .tick => ∀ t s₁, s.table s.current = some t → t.ticks - 1 = 0 → taskWakeup s = .ok s₁ →
      ¬ Spent s₁ (taskSearch s₁)
  | .yield | .sleep _ | .block .. => ¬ Spent s (taskSearch s)
  | .unblock _ | .fork => True

/-- The states reached. -/
inductive Reached : State → Prop where
  | init : Reached taskInit
  | step {s s' : State} (h : Reached s) (a : Action) (ha : Enabled s a) (hs : act s a = .ok s') :
      Reached s'

/-- The states reached by steps that meet the condition. -/
inductive Kept : State → Prop where
  | init : Kept taskInit
  | step {s s' : State} (h : Kept s) (a : Action) (ha : Enabled s a) (hm : Meets s a)
      (hs : act s a = .ok s') : Kept s'

/-- Task `p` runs on from `s` to `s'` without a switch, through `n` clock interrupts. -/
inductive Stays (p : Nat) (s : State) : Nat → State → Prop where
  | start (h : s.current = p) : Stays p s 0 s
  | step {n : Nat} {s' s'' : State} (h : Stays p s n s') (a : Action) (ha : Enabled s' a)
      (hs : act s' a = .ok s'') (hp : s''.current = p) :
      Stays p s (if a = .tick then n + 1 else n) s''

/-! ## 2. The invariant -/

/-- The states of a `ticks` field. -/
def Ticks (i : Nat) (t : Task) : Prop :=
  t.state = .sleeping ∨ (i ≠ 0 ∧ t.state = .ready ∧ t.ticks = 0) ∨ InSlice t

structure Sliced (s : State) : Prop where
  priority : ∀ i t, s.table i = some t → 1 ≤ t.priority.toNat ∧ t.priority.toNat < 2 ^ 31
  ticks : ∀ i t, s.table i = some t → Ticks i t
  runs : ∃ t, s.table s.current = some t ∧ t.state = .running ∧ t.node = none

/-- Where `schedule` is called, the running task may have no ticks left. -/
structure Ticking (s : State) : Prop where
  priority : ∀ i t, s.table i = some t → 1 ≤ t.priority.toNat ∧ t.priority.toNat < 2 ^ 31
  ticks : ∀ i t, s.table i = some t → Ticks i t ∨ (i = s.current ∧ t.ticks = 0)

section Slices

variable {s s' : State} {i : Nat} {t u : Task}

theorem inSlice_iff (h : t.priority.toNat < 2 ^ 31) :
    InSlice t ↔ 1 ≤ t.ticks.toNat ∧ t.ticks.toNat ≤ t.priority.toNat := by
  unfold InSlice
  have := t.ticks.isLt
  rw [BitVec.toInt_eq_toNat_cond]
  split <;> omega

/-- A new slice. -/
theorem inSlice_full (h : 1 ≤ t.priority.toNat ∧ t.priority.toNat < 2 ^ 31)
    (ht : t.ticks = t.priority) : InSlice t :=
  (inSlice_iff h.2).mpr (by rw [ht]; exact ⟨h.1, Nat.le_refl _⟩)

theorem InSlice.ne_zero (h : InSlice t) : t.ticks ≠ 0 := by
  intro e
  have h1 := h.1
  rw [e] at h1
  exact absurd h1 (by decide)

theorem InSlice.congr (h : InSlice t) (ht : u.ticks = t.ticks) (hp : u.priority = t.priority) :
    InSlice u := by
  unfold InSlice
  rw [ht, hp]
  exact h

theorem Sliced.inSlice (h : Sliced s) (hc : s.table s.current = some t) : InSlice t := by
  obtain ⟨u, hu, hr, -⟩ := h.runs
  cases hc.symm.trans hu
  rcases h.ticks _ t hc with hst | ⟨-, hst, -⟩ | hin
  · cases hr.symm.trans hst
  · cases hr.symm.trans hst
  · exact hin

theorem Ticking.sliced (h : Ticking s) (hc : s.table s.current = some t) (hr : t.state = .running)
    (hn : t.node = none) (hin : InSlice t) : Sliced s := by
  refine ⟨h.priority, fun i u hi => ?_, t, hc, hr, hn⟩
  rcases h.ticks i u hi with htick | ⟨rfl, -⟩
  · exact htick
  · cases hc.symm.trans hi
    exact .inr (.inr hin)

theorem Sliced.ticking (h : Sliced s) : Ticking s :=
  ⟨h.priority, fun i t hi => .inl (h.ticks i t hi)⟩

theorem sliced_init : Sliced taskInit := by
  have hslot : ∀ i t, taskInit.table i = some t →
      InSlice t ∧ 1 ≤ t.priority.toNat ∧ t.priority.toNat < 2 ^ 31 := by
    intro i t h
    unfold taskInit at h
    dsimp only at h
    split at h
    · cases h
      exact ⟨by decide, by decide⟩
    · split at h
      · cases h
        exact ⟨by decide, by decide⟩
      · split at h
        · cases h
          exact ⟨by decide, by decide⟩
        · cases h
  exact ⟨fun i t h => (hslot i t h).2, fun i t h => .inr (.inr (hslot i t h).1), ⟨_, rfl, rfl, rfl⟩⟩

/-- The record of one task is another one. -/
theorem Sliced.change {p : Nat} {t' : Task} (h : Sliced s) (hch : Changed s s' p t t')
    (hp : t'.priority = t.priority) (ht : Ticks p t' ∨ (p = s.current ∧ t'.ticks = 0)) :
    Ticking s' := by
  refine ⟨fun i u hi => ?_, fun i u hi => ?_⟩
  all_goals
    rw [hch.table] at hi
    split at hi
  · cases hi
    rw [hp]
    exact h.priority p t hch.was
  · exact h.priority i u hi
  · next e =>
      cases hi
      rw [e, hch.current]
      exact ht
  · exact .inl (h.ticks i u hi)

/-- Those woken have no ticks. -/
theorem Sliced.woken {w rest : List Nat} (h : Sliced s) (hs : Linked s) (hw : Woken s s' w rest) :
    Sliced s' := by
  have hsleep : ∀ i ∈ w, ∃ t, s.table i = some t ∧ t.state = .sleeping := by
    intro i hi
    have hm : i ∈ s.lists .sleep := hw.split ▸ List.mem_append_left _ hi
    obtain ⟨t, ht, hn⟩ := (hs.linked .sleep i).mp hm
    exact ⟨t, ht, (hs.sleeping i t ht).mp hn⟩
  have hslot : ∀ i u, s'.table i = some u →
      ∃ v, s.table i = some v ∧ ((i ∈ w ∧ u = v.wake) ∨ (i ∉ w ∧ u = v)) := by
    intro i u hi
    rw [hw.table] at hi
    split at hi
    · next hm =>
        obtain ⟨v, hv, rfl⟩ := Option.map_eq_some_iff.mp hi
        exact ⟨v, hv, .inl ⟨hm, rfl⟩⟩
    · next hm => exact ⟨u, hi, .inr ⟨hm, rfl⟩⟩
  refine ⟨fun i u hi => ?_, fun i u hi => ?_, ?_⟩
  · obtain ⟨v, hv, ⟨-, rfl⟩ | ⟨-, rfl⟩⟩ := hslot i u hi
    · exact h.priority i v hv
    · exact h.priority i u hv
  · obtain ⟨v, hv, ⟨hm, rfl⟩ | ⟨-, rfl⟩⟩ := hslot i u hi
    · refine .inr (.inl ⟨?_, rfl, rfl⟩)
      rintro rfl
      obtain ⟨t, ht, hst⟩ := hsleep 0 hm
      obtain ⟨t', ht', hidle⟩ := hs.idle
      cases ht.symm.trans ht'
      rw [hst] at hidle
      rcases hidle with hidle | hidle <;> cases hidle
    · exact h.ticks i u hv
  · obtain ⟨t, ht, hr, hn⟩ := h.runs
    refine ⟨t, ?_, hr, hn⟩
    rw [hw.current, hw.table, if_neg, ht]
    intro hm
    obtain ⟨t', ht', hst⟩ := hsleep _ hm
    cases ht.symm.trans ht'
    cases hr.symm.trans hst

end Slices

/-! ## 3. The switch -/

section Switch

variable {s s' : State} {i : Nat} {v : Task}

/-- The outgoing task keeps what it has of its slice, or gets a new one. -/
theorem leave_inSlice (hp : 1 ≤ v.priority.toNat ∧ v.priority.toNat < 2 ^ 31)
    (h : InSlice v ∨ v.ticks = 0) : InSlice v.leave := by
  by_cases e : v.ticks = 0
  · exact inSlice_full hp (if_pos e)
  · exact (h.resolve_right e).congr (if_neg e) rfl

theorem switched_ticks (hs : Linked s) (ht : Ticking s) (hv : s.table i = some v)
    (hok : i = taskSearch s → i ≠ s.current → v.ticks ≠ 0) : Ticks i (switched s i v) := by
  have hprio := ht.priority i v hv
  have hkind := ht.ticks i v hv
  unfold switched
  dsimp only
  by_cases e : i = taskSearch s
  · -- the task switched to is not asleep
    have hin : InSlice v ∨ v.ticks = 0 := by
      obtain ⟨w, hw, hst⟩ := hs.search
      cases hv.symm.trans (e ▸ hw)
      rcases hkind with (hsl | ⟨-, -, h0⟩ | hin) | ⟨-, h0⟩
      · rw [hsl] at hst
        rcases hst with hst | hst <;> cases hst
      · exact .inr h0
      · exact .inl hin
      · exact .inr h0
    rw [if_pos e]
    by_cases ec : i = s.current
    · rw [if_pos ec]
      exact .inr (.inr ((leave_inSlice hprio hin).congr rfl rfl))
    · rw [if_neg ec]
      exact .inr (.inr ((hin.resolve_right (hok e ec)).congr rfl rfl))
  · rw [if_neg e]
    by_cases ec : i = s.current
    · rw [if_pos ec]
      rcases hkind with (hsl | ⟨-, -, h0⟩ | hin) | ⟨-, h0⟩
      · refine .inl ((leave_state ?_).trans hsl)
        rw [hsl]
        nofun
      · exact .inr (.inr (leave_inSlice hprio (.inr h0)))
      · exact .inr (.inr (leave_inSlice hprio (.inl hin)))
      · exact .inr (.inr (leave_inSlice hprio (.inr h0)))
    · rw [if_neg ec]
      exact hkind.resolve_right fun h => ec h.1

/-- **The switch** keeps the invariant exactly where the task it switches to has ticks left. -/
theorem switched_sliced (hs : Linked s) (ht : Ticking s) (h : Switched s s') :
    ((taskSearch s = s.current ∨ ¬ Spent s (taskSearch s)) → Sliced s') ∧
      (RunsInSlice s' ↔ taskSearch s = s.current ∨ ¬ Spent s (taskSearch s)) := by
  have hkeep : (taskSearch s = s.current ∨ ¬ Spent s (taskSearch s)) → Sliced s' := by
    refine fun hok => ⟨fun i u hi => ?_, fun i u hi => ?_, h.runs hs⟩
    · obtain ⟨v, hv, rfl⟩ := h.slot hi
      rw [switched_priority]
      exact ht.priority i v hv
    · obtain ⟨v, hv, rfl⟩ := h.slot hi
      refine switched_ticks hs ht hv fun e ec h0 => ?_
      rcases hok with hc | hn
      · exact ec (e.trans hc)
      · exact hn ⟨v, e ▸ hv, h0⟩
  refine ⟨hkeep, fun hin => ?_, fun hok t hc _ => (hkeep hok).inSlice hc⟩
  by_contra hno
  obtain ⟨hne, hsp⟩ := not_or.mp hno
  obtain ⟨v, hv, h0⟩ := not_not.mp hsp
  have hu : s'.table s'.current = some { v with state := .running } := by
    rw [h.current, h.table, hv]
    unfold switched
    simp [hne]
  have hidle : taskSearch s ≠ 0 := by
    intro e
    rcases ht.ticks _ v hv with (hsl | ⟨hn0, -⟩ | hin) | ⟨hc, -⟩
    · obtain ⟨w, hw, hst⟩ := hs.search
      cases hv.symm.trans hw
      rw [hsl] at hst
      rcases hst with hst | hst <;> cases hst
    · exact hn0 e
    · exact hin.ne_zero h0
    · exact hne hc
  exact (hin _ hu (h.current ▸ hidle)).ne_zero h0

end Switch

/-! ## 4. The actions -/

section Actions

variable {s s' : State} {t : Task}

/-- An action ends without a switch, or in `schedule`, or `task_fork` finds no slot. -/
inductive Outcome (s : State) (a : Action) : Prop where
  | stays (s' : State) (hs : act s a = .ok s') (hl : Linked s') (hsl : Sliced s') (hm : Meets s a)
      (hc : s'.current = s.current)
      (ht : ∀ t, s.table s.current = some t → ∃ t', s'.table s.current = some t' ∧
        t.ticks.toNat = t'.ticks.toNat + if a = .tick then 1 else 0)
  | switch (s₁ : State) (hs : act s a = schedule s₁) (hl : Linked s₁) (ht : Ticking s₁)
      (hc : s₁.current = s.current)
      (hm : Meets s a ↔ taskSearch s₁ = s₁.current ∨ ¬ Spent s₁ (taskSearch s₁))
  | full (hs : act s a = .error .panic) (ha : a = .fork) (hfull : ∀ i < NR_TASKS, s.table i ≠ none)

/-- The search passes over the running task, and does not see its record. -/
theorem spent_congr {s₁ : State} (hc : s₁.current = s.current)
    (ht : ∀ i, i ≠ s.current → s₁.table i = s.table i) (hne : taskSearch s ≠ s.current) :
    Spent s₁ (taskSearch s₁) ↔ Spent s (taskSearch s) := by
  unfold Spent
  rw [taskSearch_congr hc ht, ht _ hne]

/-- Another task than the running one is found, if that is not idle. -/
theorem taskSearch_ne (h0 : s.current ≠ 0) : taskSearch s ≠ s.current := by
  obtain ⟨-, -, -, hne⟩ | ⟨hidle, -⟩ := taskSearch_cases s
  · exact Ne.symm hne
  · exact fun e => h0 (e.symm.trans hidle)

/-- An action that only changes the running task, not idle, and calls `schedule`. -/
theorem outcome_leave {a : Action} {s₁ : State} {t' : Task} (hS : Sliced s)
    (hs : act s a = schedule s₁) (hl : Linked s₁) (hch : Changed s s₁ s.current t t')
    (hp : t'.priority = t.priority) (ht : Ticks s.current t') (h0 : s.current ≠ 0)
    (hm : Meets s a ↔ ¬ Spent s (taskSearch s)) : Outcome s a := by
  have hne := taskSearch_ne h0
  have hsame : ∀ i, i ≠ s.current → s₁.table i = s.table i := fun i hi => by
    rw [hch.table, if_neg hi]
  refine .switch s₁ hs hl (hS.change hch hp (.inl ht)) hch.current (hm.trans ?_)
  rw [spent_congr hch.current hsame hne, taskSearch_congr hch.current hsame, hch.current]
  exact ⟨.inr, fun h => h.resolve_left hne⟩

theorem tick_outcome (hL : Linked s) (hS : Sliced s) : Outcome s .tick := by
  obtain ⟨t, hc, hr, hn⟩ := hS.runs
  obtain ⟨s₁, s₂, w, rest, hwake, hw, hl₁, hch, -, -, hl₂, hrun⟩ := clockHandler_spec hL hc hn
  have hS₁ := hS.woken hL hw
  have hin := hS.inSlice hc
  have hprio := hS.priority _ t hc
  by_cases e : t.ticks - 1 = 0
  · rw [if_pos e] at hrun
    have hcur : s₂.current = s₁.current := hch.current
    have hsame : ∀ i, i ≠ s₁.current → s₂.table i = s₁.table i := fun i hi => by
      rw [hch.table, if_neg (hw.current ▸ hi)]
    refine .switch s₂ hrun hl₂ (hS₁.change hch rfl (.inr ⟨hw.current.symm, e⟩))
      (hcur.trans hw.current) ?_
    have hmeets : Meets s .tick ↔ ¬ Spent s₁ (taskSearch s₁) := by
      refine ⟨fun h => h t s₁ hc e hwake, fun h t' s₁' _ _ hwake' => ?_⟩
      cases hwake.symm.trans hwake'
      exact h
    rw [hmeets, taskSearch_congr hcur hsame, hcur]
    by_cases hne : taskSearch s₁ = s₁.current
    · refine iff_of_true ?_ (.inl hne)
      rintro ⟨v, hv, h0⟩
      exact (hS₁.inSlice (hne ▸ hv)).ne_zero h0
    · have hspent := spent_congr hcur hsame hne
      rw [taskSearch_congr hcur hsame] at hspent
      rw [hspent]
      exact ⟨.inr, fun h => h.resolve_left hne⟩
  · rw [if_neg e] at hrun
    have hle : 1 ≤ t.ticks.toNat ∧ t.ticks.toNat ≤ t.priority.toNat := (inSlice_iff hprio.2).mp hin
    have hsub : (t.ticks - 1).toNat + 1 = t.ticks.toNat := by
      have h1 : (1 : U32).toNat = 1 := rfl
      have := BitVec.toNat_sub_of_le (x := t.ticks) (y := 1) (by simpa [BitVec.le_def] using hle.1)
      omega
    have hne : (t.ticks - 1).toNat ≠ 0 := fun h0 => e (BitVec.eq_of_toNat_eq h0)
    have hc₂ : s₂.table s.current = some (t.tick (s.jiffies + 1)) := (hch.table _).trans (if_pos rfl)
    have hcur : s₂.current = s.current := hch.current.trans hw.current
    have htick : InSlice (t.tick (s.jiffies + 1)) := by
      refine (inSlice_iff (t := t.tick (s.jiffies + 1)) hprio.2).mpr ?_
      show 1 ≤ (t.ticks - 1).toNat ∧ (t.ticks - 1).toNat ≤ t.priority.toNat
      omega
    have hT := hS₁.change hch rfl (.inl (.inr (.inr htick)))
    have hS₂ := hT.sliced (t := t.tick (s.jiffies + 1)) (by rw [hcur, hc₂]) hr hn htick
    refine .stays s₂ hrun hl₂ hS₂ (fun t' _ hc' h0 => ?_) hcur fun t' hc' => ⟨_, hc₂, ?_⟩
    · cases hc.symm.trans hc'
      exact absurd h0 e
    · cases hc.symm.trans hc'
      exact hsub.symm

theorem unblock_outcome (hL : Linked s) (hS : Sliced s) {p : Nat} (ha : Enabled s (.unblock p)) :
    Outcome s (.unblock p) := by
  obtain ⟨u, l, hu, hn, hl⟩ := ha
  obtain ⟨s', hrun, hch, -, -, hL'⟩ := taskUnblock_spec hL hu hn
  obtain ⟨t, hc, hr, hnode⟩ := hS.runs
  have hne : s.current ≠ p := fun e => by
    rw [e, hu] at hc
    cases hc
    cases hn.symm.trans hnode
  have hc' : s'.table s'.current = some t := by
    rw [hch.current, hch.table, if_neg hne, hc]
  -- a task in a list is not ready; one that does not sleep is in its slice
  have hin : InSlice u := by
    have hq := hL.queued p u hu
    rw [hn] at hq
    rcases hS.ticks p u hu with hsl | ⟨-, hst, -⟩ | hin
    · exact absurd (Option.some.inj (hn.symm.trans ((hL.sleeping p u hu).mpr hsl))) hl
    · rw [hst] at hq
      cases hq
    · exact hin
  have hT : Ticking s' := hS.change hch rfl
    (.inl (.inr (.inr (hin.congr rfl rfl))))
  refine .stays s' hrun hL' (hT.sliced hc' hr hnode (hS.inSlice hc)) trivial hch.current fun t' h => ?_
  cases hc.symm.trans h
  exact ⟨t, hch.current ▸ hc', by rw [if_neg nofun]; rfl⟩

theorem fork_outcome (hL : Linked s) (hS : Sliced s) : Outcome s .fork := by
  obtain ⟨t, hc, hr, hn⟩ := hS.runs
  have hprio := hS.priority _ t hc
  obtain ⟨n, -, hfree, hrun, hL'⟩ | ⟨hpanic, hfull⟩ := taskFork_spec hL hc hn hr
  · have hne : s.current ≠ n := fun e => by
      rw [← e, hc] at hfree
      cases hfree
    have hslot : ∀ i u, (s.setTask n { t with ticks := t.priority, state := .ready }).table i = some u →
        s.table i = some u ∨ u = { t with ticks := t.priority, state := .ready } := by
      intro i u hi
      rw [State.table_setTask] at hi
      split at hi
      · exact .inr (Option.some.inj hi).symm
      · exact .inl hi
    have hc' : (s.setTask n { t with ticks := t.priority, state := .ready }).table s.current = some t := by
      rw [State.table_setTask, if_neg hne, hc]
    refine .stays _ hrun hL' ⟨fun i u hi => ?_, fun i u hi => ?_, t, hc', hr, hn⟩ trivial rfl
      fun t' h => ?_
    · obtain hi | rfl := hslot i u hi
      · exact hS.priority i u hi
      · exact hprio
    · obtain hi | rfl := hslot i u hi
      · exact hS.ticks i u hi
      · exact .inr (.inr (inSlice_full hprio rfl))
    · cases hc.symm.trans h
      exact ⟨t, hc', by rw [if_neg nofun]; rfl⟩
  · exact .full hpanic rfl hfull

theorem act_outcome (hL : Linked s) (hS : Sliced s) (a : Action) (ha : Enabled s a) :
    Outcome s a := by
  obtain ⟨t, hc, hr, hn⟩ := hS.runs
  cases a with
  | tick => exact tick_outcome hL hS
  | yield =>
    refine .switch s rfl hL hS.ticking rfl ⟨.inr, fun h => ?_⟩
    rcases h with hself | h
    · rintro ⟨v, hv, h0⟩
      exact (hS.inSlice (hself ▸ hv)).ne_zero h0
    · exact h
  | sleep ms =>
    obtain ⟨s₁, hrun, hch, -, -, hl⟩ := taskSleep_spec hL hc hn ha ms
    exact outcome_leave hS hrun hl hch rfl (.inl rfl) ha Iff.rfl
  | block l st =>
    obtain ⟨h0, hl, hst⟩ := ha
    obtain ⟨s₁, hrun, hch, -, -, hl₁⟩ := taskBlock_spec hL hc hn h0 hl hst
    exact outcome_leave hS hrun hl₁ hch rfl (.inr (.inr ((hS.inSlice hc).congr rfl rfl))) h0 Iff.rfl
  | unblock p => exact unblock_outcome hL hS ha
  | fork => exact fork_outcome hL hS

end Actions

/-! ## 5. Runs -/

section Runs

variable {s s' : State} {t : Task}

theorem step_kept (hL : Linked s) (hS : Sliced s) {a : Action} (ha : Enabled s a)
    (hs : act s a = .ok s') :
    Linked s' ∧ (Meets s a → Sliced s') ∧ (RunsInSlice s' ↔ Meets s a) := by
  cases act_outcome hL hS a ha with
  | stays s₁ hs₁ hl hsl hm _ _ =>
    cases hs₁.symm.trans hs
    exact ⟨hl, fun _ => hsl, iff_of_true (fun t hc _ => hsl.inSlice hc) hm⟩
  | switch s₁ hs₁ hl ht _ hm =>
    obtain ⟨s₂, hs₂, hsw⟩ := schedule_switched hl
    cases hs₂.symm.trans (hs₁.symm.trans hs)
    obtain ⟨hkeep, hruns⟩ := switched_sliced hl ht hsw
    exact ⟨hsw.linked hl, fun h => hkeep (hm.mp h), hruns.trans hm.symm⟩
  | full hpanic _ _ => cases hpanic.symm.trans hs

theorem kept_sliced (h : Kept s) : Linked s ∧ Sliced s := by
  induction h with
  | init => exact ⟨linked_init, sliced_init⟩
  | step _ a ha hm hs ih =>
    obtain ⟨hl, hsl, -⟩ := step_kept ih.1 ih.2 ha hs
    exact ⟨hl, hsl hm⟩

/-- While a task runs on, each clock interrupt takes one of its ticks. -/
theorem stays_ticks {p n : Nat} (hL : Linked s) (hS : Sliced s) (h0 : p ≠ 0)
    (hp : s.table p = some t) (h : Stays p s n s') :
    Linked s' ∧ Sliced s' ∧ s'.current = p ∧
      ∃ t', s'.table p = some t' ∧ t.ticks.toNat = t'.ticks.toNat + n := by
  induction h with
  | start hc => exact ⟨hL, hS, hc, t, hp, rfl⟩
  | @step n s₁ s₂ _ a ha hs hc ih =>
    obtain ⟨hl₁, hS₁, hc₁, t₁, ht₁, hticks⟩ := ih
    cases act_outcome hl₁ hS₁ a ha with
    | stays s₃ hs₃ hl hsl _ _ ht =>
      cases hs₃.symm.trans hs
      obtain ⟨t₂, ht₂, heq⟩ := ht t₁ (hc₁ ▸ ht₁)
      refine ⟨hl, hsl, hc, t₂, hc₁ ▸ ht₂, ?_⟩
      split at heq <;> next e => simp only [e, if_true, if_false]; omega
    | switch s₃ hs₃ hl _ hcur _ =>
      -- a switch leaves a task other than idle
      obtain ⟨s₄, hs₄, hsw⟩ := schedule_switched hl
      cases hs₄.symm.trans (hs₃.symm.trans hs)
      have hcur' : s₃.current = p := hcur.trans hc₁
      exact absurd (hsw.current.symm.trans (hc.trans hcur'.symm)) (taskSearch_ne (hcur' ▸ h0))
    | full hpanic _ _ => cases hpanic.symm.trans hs

/-- **In every run of steps that do not switch to a task without ticks**, the running task but idle
    is in its slice, and runs on for less than its priority of clock interrupts. A step that is not
    such a step ends outside of a slice. The calls end, but for a `task_fork` without a free slot. -/
theorem slice_kept (h : Kept s) :
    RunsInSlice s ∧
      (∀ a s', Enabled s a → act s a = .ok s' → (RunsInSlice s' ↔ Meets s a)) ∧
      (s.current ≠ 0 → ∀ t, s.table s.current = some t →
        ∀ n s', Stays s.current s n s' → n < t.priority.toNat) ∧
      ∀ a, Enabled s a → (∃ s', act s a = .ok s') ∨
        (act s a = .error .panic ∧ a = .fork ∧ ∀ i < NR_TASKS, s.table i ≠ none) := by
  obtain ⟨hL, hS⟩ := kept_sliced h
  refine ⟨fun t hc _ => hS.inSlice hc, fun a s' ha hs => (step_kept hL hS ha hs).2.2,
    fun h0 t hc n s' hst => ?_, fun a ha => ?_⟩
  · obtain ⟨-, hS', hc', t', ht', hticks⟩ := stays_ticks hL hS h0 hc hst
    have hlt := (hS.priority _ t hc).2
    have hle := ((inSlice_iff hlt).mp (hS.inSlice hc)).2
    have hpos := ((inSlice_iff (hS'.priority _ t' ht').2).mp (hS'.inSlice (hc' ▸ ht'))).1
    omega
  · cases act_outcome hL hS a ha with
    | stays s' hs _ _ _ _ _ => exact .inl ⟨s', hs⟩
    | switch s₁ hs hl _ _ _ =>
      obtain ⟨s', hs', -⟩ := schedule_switched hl
      exact .inl ⟨s', hs.trans hs'⟩
    | full hs ha hfull => exact .inr ⟨hs, ha, hfull⟩

/-- Init yields to test. -/
theorem slice_kept_yield : ∃ s : State, s.current = 2 ∧ RunsInSlice s := by
  have h := Kept.init.step .yield trivial (fun ⟨t, ht, h0⟩ => by
    cases ht
    cases h0) rfl
  exact ⟨_, rfl, (slice_kept h).1⟩

/-- **Init sleeps for 10 ms while test is blocked: then it runs without a tick**, and for more
    clock interrupts than its priority, 5. -/
theorem slice_lost : ∃ s : State, Reached s ∧ ¬ RunsInSlice s ∧ s.current = 1 ∧
    ∃ s', Stays 1 s 6 s' := by
  have h₁ := Reached.init.step (.sleep 10) Nat.one_ne_zero rfl
  have h₂ := h₁.step (.block .block .blocked) ⟨Nat.succ_ne_zero 1, nofun, .inl rfl⟩ rfl
  have h₃ := h₂.step .tick trivial rfl
  have h₄ := h₃.step .tick trivial rfl
  have hstart : ∀ {s : State}, Reached s → s.current = 1 → Stays 1 s 0 s := fun _ => .start
  have hst := (((hstart h₄ rfl).step .tick trivial rfl rfl).step .tick trivial rfl rfl).step .tick
    trivial rfl rfl
  have hst' := ((hst.step .tick trivial rfl rfl).step .tick trivial rfl rfl).step .tick trivial rfl rfl
  exact ⟨_, h₄, fun h => absurd (h _ rfl Nat.one_ne_zero) (by decide), rfl, _, hst'⟩

end Runs

end Yuios.Slice
