/-
  File:      Yuios/Kernel/Waitpid.lean
  Subject:   ONE CALL OF `task_waitpid`: what it returns, stores and frees, from any task table.

  The tasks are those of `Family`; beside them stand the page that each `task_t` fills and the bitmap
  that `free_kpage` clears it in.

  * `waitpidPass` -- one round of the loop, and with it what stands behind `rollback`.
  * `Call` -- the rounds of a call. While the caller sleeps the others may do anything.
  * `Right` -- what a call is for: a child that has ended is answered, or there is none to wait for and
    an error is returned.
  * **`waitpid_right_iff`** -- the call is right exactly if its last round finds a child.
  * `waitpid_alone` -- a task without children reads through NULL.
-/
import Yuios.Kernel.Family
import Yuios.Kernel.KernelPages

namespace Yuios.Family

open Kernel Paging Lib

/-! ## 1. The call -/

/-- The tasks, the page of the `task_t` in each slot, and the kernel's pages. -/
structure World where
  tasks : State
  page : Nat → Nat
  map : Bitmap

/-- How a round ends: a value is returned and a status is stored, or the caller sleeps. -/
inductive Outcome where
  | returned (ret : Int) (status : Option Int)
  | blocked

/-- One round of `task_waitpid(pid)` by task `p`. -/
def waitpidPass (p : Nat) (pid : Int) (w : World) : Except Stop (Outcome × World) :=
  match w.tasks.table p with
  | none => .error .fault
  | some task =>
    match searchChild w.tasks p pid (List.range' 2 (NR_TASKS - 2)) false with
    | (some (i, child), _) => do
      let map ← freeKpage w.map (w.page i) 1
      return (.returned i (some child.status), { w with tasks := w.tasks.setTask i none, map := map })
    | (none, true) => do
      let tasks ← taskBlock w.tasks p { task with waitpid := pid }
      return (.blocked, { w with tasks := tasks })
    -- the loop is left, and `child` is NULL behind `rollback`
    | (none, false) => .error .fault

/-- The page of every task is allocated, and no two tasks share one. -/
structure Paged (w : World) : Prop where
  runs : ∃ n l, Marked n ⟨w.map, l⟩ ∧ ∀ i u, w.tasks.table i = some u → (w.page i, 1) ∈ l
  apart : ∀ i j u v, w.tasks.table i = some u → w.tasks.table j = some v → w.page i = w.page j → i = j

/-- Task `p` runs. -/
structure Ready (p : Nat) (w : World) : Prop where
  slot : ∃ t, w.tasks.table p = some t ∧ t.state = .ready
  unlinked : p ∉ w.tasks.blockList
  paged : Paged w

/-- **A call**: its rounds from `w` on. The last of them starts in `w'` and ends with `r`. -/
inductive Call (p : Nat) (pid : Int) : World → World → Except Stop (Outcome × World) → Prop where
  | ends {w : World} (hend : ∀ w₁, waitpidPass p pid w ≠ .ok (.blocked, w₁)) :
      Call p pid w w (waitpidPass p pid w)
  | again {w w₁ w₂ w' : World} {r : Except Stop (Outcome × World)}
      (hb : waitpidPass p pid w = .ok (.blocked, w₁)) (hw : Ready p w₂) (h : Call p pid w₂ w' r) :
      Call p pid w w' r

/-! ## 2. What it is for -/

/-- Of the bits that are set, one page's are cleared. -/
def Freed (map map' : Bitmap) (page : Nat) : Prop :=
  ∀ k, getBit map'.bits k = true ↔ getBit map.bits k = true ∧ ¬Covers (page, 1) k

/-- The answer to `task_waitpid(pid)` of task `p`, from `w`. -/
inductive Right (p : Nat) (pid : Int) (w : World) : Except Stop (Outcome × World) → Prop where
  | reaped (c : Nat) (u : Task) (map : Bitmap) (hc : Child w.tasks p pid c u) (hd : u.state = .died)
      (hf : Freed w.map map (w.page c)) :
      Right p pid w (.ok (.returned c (some u.status),
        { w with tasks := w.tasks.setTask c none, map := map }))
  | refused (e : Int) (he : e < 0) (hno : ∀ c u, ¬Child w.tasks p pid c u) :
      Right p pid w (.ok (.returned e none, w))

/-- Task `p` has a child that it asks for, in a slot that is searched. -/
def Answerable (s : State) (p : Nat) (pid : Int) : Prop :=
  ∃ c u, 2 ≤ c ∧ c < NR_TASKS ∧ Child s p pid c u

section Rounds

variable {p : Nat} {pid : Int} {w w' : World} {r : Except Stop (Outcome × World)}

/-- A run of pages that is freed. -/
theorem freed_of_marked {n : Nat} {l : List PageRun} {map map' : Bitmap} {a : Nat}
    (hm : Marked n ⟨map, l⟩) (hm' : Marked n ⟨map', l.erase (a, 1)⟩) (ha : (a, 1) ∈ l) : Freed map map' a := by
  intro k
  rw [hm.bits, hm'.bits]
  constructor
  · intro hk
    cases hk with
    | inl hk =>
      have hlow := (hm.inside (a, 1) ha).2.2.1
      refine ⟨.inl hk, fun hc => ?_⟩
      unfold Covers at hc
      omega
    | inr hk =>
      obtain ⟨r, hr, hk⟩ := hk
      obtain ⟨hne, hr⟩ := (List.Nodup.mem_erase_iff hm.nodup).mp hr
      refine ⟨.inr ⟨r, hr, hk⟩, fun hc => ?_⟩
      have hap := hm.apart_of ha hr hne.symm
      unfold Paging.Apart at hap
      unfold Covers at hc hk
      omega
  · intro ⟨hk, hout⟩
    cases hk with
    | inl hk => exact .inl hk
    | inr hk =>
      obtain ⟨r, hr, hk⟩ := hk
      refine .inr ⟨r, (List.Nodup.mem_erase_iff hm.nodup).mpr ⟨?_, hr⟩, hk⟩
      intro e
      exact hout (e ▸ hk)

/-- The page of a task is freed. -/
theorem Paged.free (h : Paged w) {i : Nat} {u : Task} (hi : w.tasks.table i = some u) :
    ∃ map, freeKpage w.map (w.page i) 1 = .ok map ∧ Freed w.map map (w.page i) ∧
      Paged { w with tasks := w.tasks.setTask i none, map := map } := by
  obtain ⟨n, l, hm, hl⟩ := h.runs
  obtain ⟨map, hfree, hm'⟩ := freeKpage_spec hm (hl i u hi)
  have hback : ∀ j v, (w.tasks.setTask i none).table j = some v → j ≠ i ∧ w.tasks.table j = some v := by
    intro j v hj
    by_cases e : j = i
    · rw [e] at hj
      simp [State.setTask] at hj
    · refine ⟨e, ?_⟩
      have hj : Function.update w.tasks.table i none j = some v := hj
      rwa [Function.update_of_ne e] at hj
  refine ⟨map, hfree, freed_of_marked hm hm' (hl i u hi), ⟨n, _, hm', fun j v hj => ?_⟩, fun j k v x hj hk => ?_⟩
  · obtain ⟨hne, hj⟩ := hback j v hj
    refine (List.Nodup.mem_erase_iff hm.nodup).mpr ⟨fun e => hne ?_, hl j v hj⟩
    exact h.apart j i v u hj hi (congrArg Prod.fst e)
  · exact h.apart j k v x (hback j v hj).2 (hback k x hk).2

/-- **How a round ends**: with a child that has ended, asleep, or at NULL. -/
inductive Passed (p : Nat) (pid : Int) (w : World) : Except Stop (Outcome × World) → Prop where
  | reaped (c : Nat) (u : Task) (map : Bitmap) (hslot : 2 ≤ c ∧ c < NR_TASKS) (hc : Child w.tasks p pid c u)
      (hd : u.state = .died) (hf : Freed w.map map (w.page c))
      (hp : Paged { w with tasks := w.tasks.setTask c none, map := map }) :
      Passed p pid w (.ok (.returned c (some u.status),
        { w with tasks := w.tasks.setTask c none, map := map }))
  | slept (t : Task) (ht : w.tasks.table p = some t) (ha : Answerable w.tasks p pid)
      (hlive : ∀ c u, 2 ≤ c → c < NR_TASKS → Child w.tasks p pid c u → u.state ≠ .died) :
      Passed p pid w (.ok (.blocked, { w with tasks := { w.tasks.setTask p
        (some { t with waitpid := pid, state := .waiting }) with blockList := p :: w.tasks.blockList } }))
  | missing (hno : ¬Answerable w.tasks p pid) : Passed p pid w (.error .fault)

theorem mem_slots (c : Nat) : c ∈ List.range' 2 (NR_TASKS - 2) ↔ 2 ≤ c ∧ c < NR_TASKS := by
  rw [List.mem_range'_1]
  unfold NR_TASKS
  omega

theorem waitpidPass_spec (h : Ready p w) : Passed p pid w (waitpidPass p pid w) := by
  obtain ⟨t, ht, -⟩ := h.slot
  have hspec := searchChild_spec w.tasks p pid (List.range' 2 (NR_TASKS - 2)) false
  unfold waitpidPass
  rw [ht]
  dsimp only
  generalize searchChild w.tasks p pid (List.range' 2 (NR_TASKS - 2)) false = r at hspec ⊢
  cases hspec with
  | dead i u b' hi hc hd =>
    obtain ⟨map, hfree, hf, hp⟩ := h.paged.free hc.slot
    dsimp only
    rw [hfree]
    exact .reaped i u map ((mem_slots i).mp hi) hc hd hf hp
  | none b' halive hb =>
    cases b' with
    | true =>
      have hsome := hb.mp rfl
      have ha : Answerable w.tasks p pid := by
        cases hsome with
        | inl h => cases h
        | inr h =>
          obtain ⟨c, hc, u, hu⟩ := h
          exact ⟨c, u, ((mem_slots c).mp hc).1, ((mem_slots c).mp hc).2, hu⟩
      have hblock : taskBlock w.tasks p { t with waitpid := pid } = .ok { w.tasks.setTask p
          (some { t with waitpid := pid, state := .waiting }) with blockList := p :: w.tasks.blockList } := by
        simp only [taskBlock, h.unlinked, not_false_eq_true, decide_true]
        rfl
      dsimp only
      rw [hblock]
      exact .slept t ht ha fun c u h2 hlt => halive c ((mem_slots c).mpr ⟨h2, hlt⟩) u
    | false =>
      refine .missing fun ⟨c, u, h2, hlt, hu⟩ => ?_
      exact Bool.false_ne_true (hb.mpr (.inr ⟨c, (mem_slots c).mpr ⟨h2, hlt⟩, u, hu⟩))

/-- The last round of a call. -/
theorem Call.last (h : Call p pid w w' r) (hw : Ready p w) :
    Ready p w' ∧ waitpidPass p pid w' = r ∧ ∀ w₁, r ≠ .ok (.blocked, w₁) := by
  induction h with
  | ends hend => exact ⟨hw, rfl, hend⟩
  | again hb hw₂ h ih => exact ih hw₂

/-- **`task_waitpid` is right exactly if its last round finds a child**: then it returns the pid of one
    that has ended, stores its status and frees its slot and its page. -/
theorem waitpid_right_iff (hw : Ready p w) (h : Call p pid w w' r) :
    Right p pid w' r ↔ Answerable w'.tasks p pid := by
  obtain ⟨hw', hr, hend⟩ := h.last hw
  have hp : Passed p pid w' (waitpidPass p pid w') := waitpidPass_spec hw'
  rw [hr] at hp
  cases hp with
  | reaped c u map hslot hc hd hf _ => exact ⟨fun _ => ⟨c, u, hslot.1, hslot.2, hc⟩, fun _ => .reaped c u map hc hd hf⟩
  | slept t ht ha hlive => exact absurd rfl (hend _)
  | missing hno => exact ⟨nofun, fun ha => absurd ha hno⟩

/-! ## 3. The round in `Family` -/

/-- A task but for where it stands. -/
def Task.fields (t : Task) : Task := { t with pc := none }

end Rounds

/-! ## 4. A child that has ended, and a task without children -/

/-- Pages for the first `k` tasks of a machine with 4400 frames. -/
theorem sample_pages (k : Nat) (hk : k ≤ 64) : ∃ (page : Nat → Nat) (s : Kpages), Marked 2 s ∧
    (∀ i, 2 + k ≤ i → getBit s.map.bits i = false) ∧ (∀ i < k, (page i, 1) ∈ s.runs) ∧
    ∀ i j, i < k → j < k → page i = page j → i = j := by
  induction k with
  | zero =>
    obtain ⟨map, hs⟩ := allocated_init
    have htwo : divRoundUp 4400 PAGE_SIZE = 2 := by decide
    refine ⟨fun _ => 0, ⟨map, []⟩, htwo ▸ allocated_marked hs, fun i hi => ?_, nofun, nofun⟩
    exact allocated_clear hs 2 (i + 1) (Nat.le_refl 2) i hi (by omega)
  | succ k ih =>
    obtain ⟨page, s, hm, hclear, hin, hinj⟩ := ih (by omega)
    obtain ⟨-, -, hall⟩ := kernel_idx
    have hrun : ClearRun s.map (2 + k) 1 := fun i h1 _ => hclear i h1
    obtain ⟨a, map, ha⟩ := allocKpage_ok hm (by decide : 0 < 1) (by omega) hrun
    obtain ⟨hm', i, rfl, -, hf⟩ := allocKpage_spec hm ha
    have hle : i ≤ 2 + k := by
      by_contra hlt
      exact hf.2.2 (2 + k) (by omega) hrun
    have hfresh := (List.nodup_cons.mp hm'.nodup).1
    refine ⟨Function.update page k (PAGE (i + IDX MEMORY_BASE)), _, hm', fun j hj => ?_, fun j hj => ?_,
      fun j l hj hl e => ?_⟩
    · rw [Bool.eq_false_iff]
      intro hset
      have hnot := hclear j (by omega)
      rw [Bool.eq_false_iff, Ne, hm.bits] at hnot
      cases (hm'.bits j).mp hset with
      | inl h => exact hnot (.inl h)
      | inr h =>
        obtain ⟨r, hr, hc⟩ := h
        cases hr with
        | head =>
          unfold Covers at hc
          rw [idx_page] at hc
          omega
        | tail _ hr => exact hnot (.inr ⟨r, hr, hc⟩)
    · by_cases e : j = k
      · rw [e, Function.update_self]
        exact List.mem_cons_self
      · rw [Function.update_of_ne e]
        exact List.mem_cons_of_mem _ (hin j (by omega))
    · by_cases ej : j = k
      · by_cases el : l = k
        · rw [ej, el]
        · rw [ej, Function.update_self, Function.update_of_ne el] at e
          exact absurd (e ▸ hin l (by omega)) hfresh
      · by_cases el : l = k
        · rw [el, Function.update_self, Function.update_of_ne ej] at e
          exact absurd (e ▸ hin j (by omega)) hfresh
        · rw [Function.update_of_ne ej, Function.update_of_ne el] at e
          exact hinj j l (by omega) (by omega) e

/-- The tasks of a table have pages. -/
theorem ready_sample {p : Nat} {s : State} {t : Task} (hp : s.table p = some t) (hr : t.state = .ready)
    (hb : s.blockList = []) (hbound : ∀ i u, s.table i = some u → i < NR_TASKS) :
    ∃ page map, Ready p ⟨s, page, map⟩ := by
  obtain ⟨page, ⟨map, l⟩, hm, -, hin, hinj⟩ := sample_pages NR_TASKS (Nat.le_refl _)
  refine ⟨page, map, ⟨t, hp, hr⟩, hb ▸ List.not_mem_nil, ⟨2, l, hm, fun i u hi => hin i (hbound i u hi)⟩, ?_⟩
  exact fun i j u v hi hj e => hinj i j (hbound i u hi) (hbound j v hj) e

/-- After `task_init`, and task 2 has ended as a child of task 1. -/
def endedTest : State := taskInit.setTask 2 (some ⟨1, .died, 7, 0, none, 2⟩)

theorem bound_init : ∀ i u, taskInit.table i = some u → i < NR_TASKS := by
  intro i u hi
  unfold taskInit at hi
  dsimp only at hi
  split at hi
  · unfold NR_TASKS
    omega
  · cases hi

/-- Task 1 is answered. -/
theorem waitpid_right_first : ∃ w r, Ready 1 w ∧ Call 1 (-1) w w r ∧ Right 1 (-1) w r := by
  have hbound : ∀ i u, endedTest.table i = some u → i < NR_TASKS := by
    intro i u hi
    by_cases e : i = 2
    · rw [e]
      decide
    · have hi : Function.update taskInit.table 2 _ i = some u := hi
      rw [Function.update_of_ne e] at hi
      exact bound_init i u hi
  obtain ⟨page, map, hw⟩ := ready_sample (p := 1) (s := endedTest) rfl rfl rfl hbound
  obtain ⟨map', hfree, -, -⟩ := hw.paged.free (i := 2) rfl
  have hpass : waitpidPass 1 (-1) ⟨endedTest, page, map⟩ =
      .ok (.returned 2 (some 7), ⟨endedTest.setTask 2 none, page, map'⟩) := bind_of_ok hfree rfl
  have hcall : Call 1 (-1) ⟨endedTest, page, map⟩ ⟨endedTest, page, map⟩ _ := .ends fun w₁ h => by
    rw [hpass] at h
    cases h
  exact ⟨_, _, hw, hcall, (waitpid_right_iff hw hcall).mpr ⟨2, _, by decide, by decide, rfl, rfl, .inr rfl⟩⟩

/-- **A task without children reads through NULL**: no error is returned. -/
theorem waitpid_alone : ∃ w, Ready 1 w ∧ (∀ c u, ¬Child w.tasks 1 (-1) c u) ∧
    Call 1 (-1) w w (.error .fault) ∧ ¬Right 1 (-1) w (.error .fault) := by
  obtain ⟨page, map, hw⟩ := ready_sample (p := 1) (s := taskInit) rfl rfl rfl bound_init
  have hno : ∀ c u, ¬Child taskInit 1 (-1) c u := by
    intro c u hu
    have hslot := hu.slot
    have hppid := hu.ppid
    unfold taskInit at hslot
    dsimp only at hslot
    split at hslot
    · cases hslot
      cases hppid
    · cases hslot
  have hcall : Call 1 (-1) ⟨taskInit, page, map⟩ ⟨taskInit, page, map⟩
      (waitpidPass 1 (-1) ⟨taskInit, page, map⟩) := .ends fun w₁ h => nomatch h
  exact ⟨_, hw, hno, hcall, nofun⟩

end Yuios.Family
