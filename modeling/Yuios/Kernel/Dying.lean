/-
  File:      Yuios/Kernel/Dying.lean
  Subject:   THE END OF A TASK: what becomes of `TASK_DIED`.

  After `task_exit` has set the state, it puts back directories, program and files, and each of these
  may write a dirty inode to its disk. `ide_pio_write` polls if the state is not `TASK_RUNNING`, but
  behind other requests, or before a lock that is taken, `task_block` overwrites the state.

  * `Meets` -- a dying task finds no other request for the disk, and the lock of its controller free.
  * `Dead` -- the invariant.
  * **`exit_final`** -- in every run of such steps.
  * `exit_returns` -- a task ends while another one reads the disk, and comes back.
-/
import Yuios.Kernel.Queues

namespace Yuios.Dying

open Kernel Sched Queues

/-- **A dying task does not have to wait**: its request is the only one for the disk, and the
    controller is free. -/
def Meets (ctrl : Nat → Option Nat) (s : Queues.State) : Queues.Action → Prop
  | .request d _ => s.dying s.self = true → s.queue d = []
  | .go _ => s.dying s.self = true → ∀ d n m, s.pc s.self = .queued d n → ctrl d = some m →
      s.value m = false
  | _ => True

/-- The states reached by steps that meet the condition. -/
inductive Kept (ctrl : Nat → Option Nat) : Queues.State → Prop where
  | init : Kept ctrl Queues.init
  | step {s s' : Queues.State} (h : Kept ctrl s) (a : Queues.Action) (ha : Queues.Enabled s a)
      (hm : Meets ctrl s a) (hs : Queues.act ctrl s a = .ok s') : Kept ctrl s'

/-- Who is dying is dead, does not wait for a lock, and does not run after `task_exit`. -/
structure Dead (s : Queues.State) : Prop where
  died : ∀ p t, s.dying p = true → s.sched.table p = some t → t.state = .died
  locking : ∀ p m io, s.dying p = true → s.pc p ≠ .locking m io
  ended : ∀ p, s.pc p = .ended → s.dying p = true ∧ p ≠ s.self

/-- Who is not dead was not dead before; nobody leaves. -/
structure Still (s s' : Sched.State) : Prop where
  alive : ∀ p t', s'.table p = some t' → t'.state ≠ .died →
    ∃ t, s.table p = some t ∧ t.state ≠ .died
  slot : ∀ p t, s.table p = some t → ∃ t', s'.table p = some t'

theorem dead_init : Dead Queues.init := ⟨nofun, nofun, nofun⟩

/-! ## 1. The scheduler -/

section Still

variable {s s' s₁ : Sched.State} {p : Nat} {t t' : Sched.Task} {l : ListId} {st : TaskState}

theorem Still.refl (s : Sched.State) : Still s s := ⟨fun _ t' h hd => ⟨t', h, hd⟩, fun _ t h => ⟨t, h⟩⟩

theorem Still.trans (h : Still s s₁) (h' : Still s₁ s') : Still s s' := by
  refine ⟨fun p t' hp hd => ?_, fun p t hp => ?_⟩
  · obtain ⟨u, hu, hd'⟩ := h'.alive p t' hp hd
    exact h.alive p u hu hd'
  · obtain ⟨u, hu⟩ := h.slot p t hp
    exact h'.slot p u hu

theorem still_changed (h : Changed s s' p t t') (hd : t.state = .died → t'.state = .died) :
    Still s s' := by
  refine ⟨fun q u hq hu => ?_, fun q u hq => ?_⟩
  · rw [h.table] at hq
    split at hq
    · next e =>
        cases hq
        exact ⟨t, e ▸ h.was, mt hd hu⟩
    · exact ⟨u, hq, hu⟩
  · rw [h.table]
    split
    · exact ⟨t', rfl⟩
    · exact ⟨u, hq⟩

theorem still_schedule (hl : Linked s) (hs : schedule s = .ok s') : Still s s' := by
  obtain ⟨s₁, hs₁, hsw⟩ := schedule_switched hl
  cases hs₁.symm.trans hs
  refine ⟨fun p t' hp hd => ?_, fun p t hp => ⟨switched s p t, by rw [hsw.table, hp]; rfl⟩⟩
  obtain ⟨v, hv, -, -, -, -, hdied⟩ := hsw.state hl hp
  exact ⟨v, hv, fun h => hd (hdied.mpr h)⟩

/-- A task in a list is not dead. -/
theorem not_died (hl : Linked s) (hp : s.table p = some t) (hn : t.node = some l) :
    t.state ≠ .died := by
  intro hd
  have hq := hl.queued p t hp
  rw [hn, hd] at hq
  cases hq

theorem still_unblock (hl : Linked s) (hs : taskUnblock s p = .ok s') : Still s s' := by
  obtain ⟨t, l, hp, hn, hch, -⟩ := taskUnblock_linked hl hs
  exact still_changed hch fun hd => absurd hd (not_died hl hp hn)

theorem still_block (hl : Linked s) (hc : s.table s.current = some t) (hn : t.node = none)
    (h0 : s.current ≠ 0) (hlive : t.state ≠ .died) (hne : l ≠ .sleep)
    (hst : st = .blocked ∨ st = .waiting) (hs : taskBlock s s.current l st = .ok s') : Still s s' := by
  obtain ⟨s₁, hrun, hch, -, -, hl₁⟩ := taskBlock_spec hl hc hn h0 hne hst
  exact (still_changed hch fun hd => absurd hd hlive).trans (still_schedule hl₁ (hrun.symm.trans hs))

theorem still_sleep {ms : U32} (hl : Linked s) (hc : s.table s.current = some t) (hn : t.node = none)
    (h0 : s.current ≠ 0) (hlive : t.state ≠ .died) (hs : taskSleep s ms = .ok s') : Still s s' := by
  obtain ⟨s₁, hrun, hch, -, -, hl₁⟩ := taskSleep_spec hl hc hn h0 ms
  exact (still_changed hch fun hd => absurd hd hlive).trans (still_schedule hl₁ (hrun.symm.trans hs))

theorem still_woken {w rest : List Nat} (hl : Linked s) (hw : Woken s s' w rest) : Still s s' := by
  refine ⟨fun p t' hp hd => ?_, fun p t hp => ?_⟩
  · rw [hw.table] at hp
    split at hp
    · next hm =>
        have hm' : p ∈ s.lists .sleep := hw.split ▸ List.mem_append_left _ hm
        obtain ⟨u, hu, hn⟩ := (hl.linked .sleep p).mp hm'
        exact ⟨u, hu, not_died hl hu hn⟩
    · exact ⟨t', hp, hd⟩
  · rw [hw.table]
    split
    · exact ⟨t.wake, by rw [hp]; rfl⟩
    · exact ⟨t, hp⟩

theorem still_tick (hl : Linked s) (hc : s.table s.current = some t) (hn : t.node = none)
    (hs : clockHandler s = .ok s') : Still s s' := by
  obtain ⟨s₁, s₂, w, rest, -, hw, -, hch, -, -, hl₂, hrun⟩ := clockHandler_spec hl hc hn
  have hstill := (still_woken hl hw).trans (still_changed hch id)
  rw [hrun] at hs
  split at hs
  · exact hstill.trans (still_schedule hl₂ hs)
  · cases hs
    exact hstill

end Still

/-! ## 2. The steps -/

section Steps

variable {ctrl : Nat → Option Nat} {s s' : Queues.State} {pc : Pc} {d n m : Nat}

/-- A step on which nobody dies, is born, leaves or ends. -/
structure Goes (s s' : Queues.State) : Prop where
  still : Still s.sched s'.sched
  dying : s'.dying = s.dying
  locking : ∀ p m io, s.dying p = true → s'.pc p = .locking m io → s.pc p = .locking m io
  ended : ∀ p, s'.pc p = .ended → s.pc p = .ended

/-- The task that runs is alive, unless it is in `task_exit`. -/
theorem live (h : Sound s) (hd : s.dying s.self = false) :
    ∃ t, s.sched.table s.self = some t ∧ t.node = none ∧ t.state ≠ .died := by
  obtain ⟨t, hc, hn, hst⟩ := h.runs
  have hr : t.state = .running := hst.resolve_right fun ⟨_, hdy⟩ => by
    rw [hd] at hdy
    cases hdy
  refine ⟨t, hc, hn, ?_⟩
  rw [hr]
  nofun

theorem goes_same (hstill : Still s.sched s'.sched) (hd : s'.dying = s.dying) (hpc : s'.pc = s.pc) :
    Goes s s' :=
  ⟨hstill, hd, fun p _ _ _ h => congrFun hpc p ▸ h, fun p h => congrFun hpc p ▸ h⟩

theorem goes_pc (hstill : Still s.sched s'.sched) (hd : s'.dying = s.dying)
    (hpc : s'.pc = Function.update s.pc s.self pc) (hne : pc ≠ .ended)
    (hl : s.dying s.self = true → ∀ m io, pc ≠ .locking m io) : Goes s s' := by
  have hat : ∀ p, s'.pc p = if p = s.self then pc else s.pc p := fun p => by
    rw [hpc, Function.update_apply]
  refine ⟨hstill, hd, fun p m io hp h => ?_, fun p h => ?_⟩
  · rw [hat] at h
    split at h
    · next e => exact absurd h (hl (e ▸ hp) m io)
    · exact h
  · rw [hat] at h
    split at h
    · exact absurd h hne
    · exact h

theorem mutexLock_goes {io : Option (Nat × Nat)} (h : Sound s) (h0 : s.self ≠ 0)
    (hfree : s.value m = true → s.dying s.self = false) (hs : mutexLock s m io = .ok s') :
    Goes s s' := by
  unfold mutexLock at hs
  split at hs
  · next hv =>
      obtain ⟨t, hc, hn, hlive⟩ := live h (hfree hv)
      obtain ⟨r, hrun, rfl⟩ := run_ok hs
      refine goes_pc (still_block (l := .waiters m) h.linked hc hn h0 hlive nofun (.inl rfl) hrun) rfl
        rfl nofun ?_
      intro hd
      rw [hfree hv] at hd
      cases hd
  · cases hs
    refine goes_pc (Still.refl _) rfl rfl ?_ fun _ _ _ => ?_
    · split <;> nofun
    · split <;> nofun

theorem mutexUnlock_goes (h : Sound s) (hne : pc ≠ .ended) (hl : ∀ m io, pc ≠ .locking m io)
    (hs : mutexUnlock s m pc = .ok s') : Goes s s' := by
  obtain ⟨-, -, hs⟩ := ok_of_bind hs
  dsimp only at hs
  split at hs
  · cases hs
    exact goes_pc (Still.refl _) rfl rfl hne fun _ => hl
  · obtain ⟨t, hun, hs⟩ := ok_of_bind hs
    obtain ⟨_, _, -, -, -, hlt⟩ := taskUnblock_linked h.linked hun
    obtain ⟨r, hrun, rfl⟩ := run_ok hs
    exact goes_pc ((still_unblock h.linked hun).trans (still_schedule hlt hrun)) rfl rfl hne fun _ => hl

theorem deviceRequest_goes (h : Sound s) (h0 : s.self ≠ 0)
    (hfree : s.dying s.self = true → s.queue d = []) (hs : deviceRequest s d n = .ok s') :
    Goes s s' := by
  unfold deviceRequest at hs
  dsimp only at hs
  split at hs
  · cases hs
    exact goes_pc (Still.refl _) rfl rfl nofun nofun
  · next he =>
      have hd : s.dying s.self = false := by
        refine Bool.eq_false_iff.mpr fun hd => he ?_
        rw [hfree hd]
        rfl
      obtain ⟨t, hc, hn, hlive⟩ := live h hd
      obtain ⟨r, hrun, rfl⟩ := run_ok hs
      exact goes_pc (still_block (l := .block) h.linked hc hn h0 hlive nofun (.inl rfl) hrun) rfl rfl
        nofun nofun

theorem doRequest_goes (h : Sound s) (h0 : s.self ≠ 0)
    (hfree : s.dying s.self = true → ∀ m, ctrl d = some m → s.value m = false)
    (hs : doRequest ctrl s d n = .ok s') : Goes s s' := by
  unfold doRequest at hs
  split at hs
  · cases hs
    exact goes_pc (Still.refl _) rfl rfl nofun nofun
  · next m hm =>
      refine mutexLock_goes h h0 (fun hv => Bool.eq_false_iff.mpr fun hd => ?_) hs
      rw [hfree hd m hm] at hv
      cases hv

theorem idePio_goes (h : Sound s) (h0 : s.self ≠ 0) (hs : idePio ctrl s d n = .ok s') :
    Goes s s' := by
  unfold idePio at hs
  split at hs
  · refine mutexUnlock_goes h ?_ ?_ hs <;> nofun
  · cases hs
  · cases hs
  · next n task hc =>
      dsimp only at hs
      split at hs
      · next hr =>
          obtain ⟨t, hc', hn, -⟩ := h.runs
          cases hc.symm.trans hc'
          obtain ⟨r, hrun, rfl⟩ := run_ok hs
          have hlive : task.state ≠ .died := by
            rw [hr]
            nofun
          exact goes_pc (still_block (l := .block) h.linked hc hn h0 hlive nofun (.inl rfl) hrun) rfl
            rfl nofun nofun
      · cases hs
        exact goes_pc (Still.refl _) rfl rfl nofun nofun

theorem requestDone_goes {q : Nat} (h : Sound s) (hs : requestDone s d q = .ok s') : Goes s s' := by
  unfold requestDone at hs
  dsimp only at hs
  split at hs
  · cases hs
    exact goes_pc (Still.refl _) rfl rfl nofun nofun
  · obtain ⟨r, hrun, rfl⟩ := run_ok hs
    exact goes_pc (still_unblock h.linked hrun) rfl rfl nofun nofun

/-- `task_waitpid` frees the slot of a dead child, or waits. -/
theorem taskWaitpid_cases {pid : Int} (h : Sound s) (h0 : s.self ≠ 0) (hd : s.dying s.self = false)
    (hs : taskWaitpid s pid = .ok s') : Goes s s' ∨
      ∃ i, s.ppid i = s.self ∧ s' = ({ s with sched := { s.sched with
        table := Function.update s.sched.table i none } } : Queues.State).setPc s.self .out := by
  unfold taskWaitpid at hs
  split at hs
  · next i b hi =>
      cases hs
      exact .inr ⟨i, (searchChild_some hi).2.1, rfl⟩
  · obtain ⟨t, hc, hn, hlive⟩ := live h hd
    obtain ⟨r, hrun, rfl⟩ := run_ok hs
    exact .inl (goes_pc (still_block (l := .block) h.linked hc hn h0 hlive nofun (.inr rfl) hrun) rfl
      rfl nofun nofun)
  · cases hs

/-- The task that runs after a step is not one that has ended. -/
theorem Dead.next (hD : Dead s) (hmv : Moved s.sched s'.sched) (hg : Goes s s') :
    Dead s' := by
  have hdied : ∀ p t, s'.dying p = true → s'.sched.table p = some t → t.state = .died := by
    intro p t hd hp
    by_contra hlive
    obtain ⟨u, hu, hne⟩ := hg.still.alive p t hp hlive
    exact hne (hD.died p u (hg.dying ▸ hd) hu)
  refine ⟨hdied, fun p m io hd hpc => ?_, fun p hpc => ?_⟩
  · rw [hg.dying] at hd
    exact hD.locking p m io hd (hg.locking p m io hd hpc)
  · obtain ⟨hd, hne⟩ := hD.ended p (hg.ended p hpc)
    have hd' : s'.dying p = true := hg.dying ▸ hd
    refine ⟨hd', ?_⟩
    cases hmv with
    | stays hc => exact fun e => hne (e.trans hc)
    | switch s₁ hc hl hs₁ =>
      rintro rfl
      obtain ⟨s₂, hs₂, hsw⟩ := schedule_switched hl
      cases hs₂.symm.trans hs₁
      obtain ⟨t, ht, hr, -⟩ := hsw.runs hl
      cases (hdied _ t hd' ht).symm.trans hr

/-- A child is born. -/
theorem fork_dead (hS : Sound s) (hD : Dead s) (hs : fork s = .ok s') :
    Dead s' ∧ ∀ p t, s.sched.table p = some t → ∃ t', s'.sched.table p = some t' := by
  obtain ⟨pid, hpid, hs⟩ := ok_of_bind hs
  obtain ⟨t, hfork, hs⟩ := ok_of_bind hs
  cases hs
  obtain ⟨-, hnone⟩ := getFreeTask_ok hpid
  obtain ⟨c, hc, hn, hst⟩ := hS.runs
  have hself : s.self ≠ pid := fun e => by
    rw [← e, hc] at hnone
    cases hnone
  obtain ⟨u, rfl⟩ : ∃ u, t = s.sched.setTask pid u := by
    unfold taskFork at hfork
    rw [hc] at hfork
    obtain ⟨-, -, hfork⟩ := ok_of_bind hfork
    obtain ⟨n, hn', hfork⟩ := ok_of_bind hfork
    cases hn'.symm.trans hpid
    exact ⟨_, (Except.ok.inj hfork).symm⟩
  have hpc : ∀ p, Function.update s.pc pid .out p = if p = pid then .out else s.pc p := fun p =>
    Function.update_apply ..
  have hdy : ∀ p, Function.update s.dying pid false p = true → p ≠ pid ∧ s.dying p = true := by
    intro p hp
    rw [Function.update_apply] at hp
    split at hp
    · cases hp
    · next e => exact ⟨e, hp⟩
  refine ⟨⟨fun p v hd hp => ?_, fun p m io hd h => ?_, fun p h => ?_⟩, fun p v hp => ?_⟩
  · obtain ⟨e, hd⟩ := hdy p hd
    exact hD.died p v hd (((State.table_setTask ..).trans (if_neg e)).symm.trans hp)
  · obtain ⟨e, hd⟩ := hdy p hd
    exact hD.locking p m io hd (((hpc p).trans (if_neg e)).symm.trans h)
  · have e : p ≠ pid := fun e => by
      have h' := ((hpc p).trans (if_pos e)).symm.trans h
      cases h'
    obtain ⟨hd, hne⟩ := hD.ended p (((hpc p).trans (if_neg e)).symm.trans h)
    exact ⟨(Function.update_of_ne e _ _).trans hd, hne⟩
  · by_cases e : p = pid
    · exact ⟨u, (State.table_setTask ..).trans (if_pos e)⟩
    · exact ⟨v, (State.table_setTask ..).trans ((if_neg e).trans hp)⟩

theorem taskExit_dead (hS : Sound s) (hD : Dead s) (hout : s.pc s.self = .out)
    (hs : taskExit s = .ok s') :
    Dead s' ∧ ∀ p t, s.sched.table p = some t → ∃ t', s'.sched.table p = some t' := by
  obtain ⟨t, hc, hn, -⟩ := hS.runs
  unfold taskExit at hs
  rw [hc] at hs
  obtain ⟨-, -, hs⟩ := ok_of_bind hs
  cases hs
  have htable : ∀ p, (s.sched.setTask s.self { t with state := .died }).table p =
      if p = s.self then some { t with state := .died } else s.sched.table p := fun p =>
    State.table_setTask ..
  have hdy : ∀ p, p ≠ s.self → Function.update s.dying s.self true p = true → s.dying p = true :=
    fun p e hp => (Function.update_of_ne e _ _).symm.trans hp
  refine ⟨⟨fun p u hd hp => ?_, fun p m io hd h => ?_, fun p h => ?_⟩, fun p u hp => ?_⟩
  · by_cases e : p = s.self
    · cases ((htable p).trans (if_pos e)).symm.trans hp
      rfl
    · exact hD.died p u (hdy p e hd) (((htable p).trans (if_neg e)).symm.trans hp)
  · by_cases e : p = s.self
    · cases hout.symm.trans (e ▸ h)
    · exact hD.locking p m io (hdy p e hd) h
  · obtain ⟨hd, hne⟩ := hD.ended p h
    exact ⟨(Function.update_of_ne hne _ _).trans hd, hne⟩
  · by_cases e : p = s.self
    · exact ⟨_, (htable p).trans (if_pos e)⟩
    · exact ⟨u, (htable p).trans ((if_neg e).trans hp)⟩

/-- The last switch: the task is dead, so it is not the one that runs then. -/
theorem exitTail_dead (hS : Sound s) (hD : Dead s) (hd : s.dying s.self = true)
    (hs : exitTail s = .ok s') :
    Dead s' ∧ ∀ p t, s.sched.table p = some t → ∃ t', s'.sched.table p = some t' := by
  obtain ⟨hstill, hrun, hpc, hdy⟩ : Still s.sched s'.sched ∧
      (∃ t, s'.sched.table s'.self = some t ∧ t.state = .running) ∧
      s'.pc = Function.update s.pc s.self .ended ∧ s'.dying = s.dying := by
    have hlast : ∀ {s₁ : Sched.State} {s₀ : Queues.State}, Linked s₁ → Still s.sched s₁ →
        s₀.run (schedule s₁) = .ok s' → s₀.pc = Function.update s.pc s.self .ended →
        s₀.dying = s.dying → Still s.sched s'.sched ∧
        (∃ t, s'.sched.table s'.self = some t ∧ t.state = .running) ∧
        s'.pc = Function.update s.pc s.self .ended ∧ s'.dying = s.dying := by
      intro s₁ s₀ hl hst hs hp hdy
      obtain ⟨r, hr, rfl⟩ := run_ok hs
      obtain ⟨s₂, hs₂, hsw⟩ := schedule_switched hl
      cases hs₂.symm.trans hr
      obtain ⟨t, ht, hrun, -⟩ := hsw.runs hl
      exact ⟨hst.trans (still_schedule hl hr), ⟨t, ht, hrun⟩, hp, hdy⟩
    unfold exitTail at hs
    dsimp only at hs
    split at hs
    · cases hs
    · split at hs
      · obtain ⟨t, hun, hs⟩ := ok_of_bind hs
        obtain ⟨_, _, -, -, -, hl⟩ := taskUnblock_linked hS.linked hun
        exact hlast hl (still_unblock hS.linked hun) hs rfl rfl
      · exact hlast hS.linked (Still.refl _) hs rfl rfl
  have hdied : ∀ p t, s'.dying p = true → s'.sched.table p = some t → t.state = .died := by
    intro p t hd hp
    by_contra hlive
    obtain ⟨u, hu, hne⟩ := hstill.alive p t hp hlive
    exact hne (hD.died p u (hdy ▸ hd) hu)
  have hpc' : ∀ p, s'.pc p = if p = s.self then .ended else s.pc p := fun p => by
    rw [hpc, Function.update_apply]
  refine ⟨⟨hdied, fun p m io hd h => ?_, fun p h => ?_⟩, hstill.slot⟩
  · rw [hpc'] at h
    split at h
    · cases h
    · exact hD.locking p m io (hdy ▸ hd) h
  · have hdp : s'.dying p = true := by
      rw [hdy]
      rw [hpc'] at h
      split at h
      · next e => exact e ▸ hd
      · exact (hD.ended p h).1
    refine ⟨hdp, ?_⟩
    rintro rfl
    obtain ⟨t, ht, hr⟩ := hrun
    cases (hdied _ t hdp ht).symm.trans hr

/-- `task_waitpid` takes a dead child away. -/
theorem reap_dead (hD : Dead s) (i : Nat) (hs : s' = ({ s with sched := { s.sched with
    table := Function.update s.sched.table i none } } : Queues.State).setPc s.self .out) :
    Dead s' ∧ ∀ p t, s.sched.table p = some t → s'.sched.table p = none → p = i := by
  subst hs
  have hpc : ∀ p, Function.update s.pc s.self .out p = if p = s.self then .out else s.pc p :=
    fun p => Function.update_apply ..
  refine ⟨⟨fun p t hd hp => ?_, fun p m io hd h => ?_, fun p h => ?_⟩, fun p t hp hnone => ?_⟩
  · have e : p ≠ i := by
      rintro rfl
      cases (Function.update_self ..).symm.trans hp
    exact hD.died p t hd ((Function.update_of_ne e _ _).symm.trans hp)
  · have h' := (hpc p).symm.trans h
    split at h'
    · cases h'
    · exact hD.locking p m io hd h'
  · have h' := (hpc p).symm.trans h
    split at h'
    · cases h'
    · exact hD.ended p h'
  · by_contra e
    cases hp.symm.trans ((Function.update_of_ne e _ _).symm.trans hnone)

/-- A slot is freed by the parent. -/
def Freed (s s' : Queues.State) (a : Queues.Action) : Prop :=
  ∀ p t, s.sched.table p = some t → s'.sched.table p = none →
    s.ppid p = s.self ∧ ∃ pid, a = .waitpid pid ∨ s.pc s.self = .waiting pid

theorem freed_of_slot {a : Queues.Action}
    (h : ∀ p t, s.sched.table p = some t → ∃ t', s'.sched.table p = some t') : Freed s s' a := by
  intro p t hp hnone
  obtain ⟨t', ht'⟩ := h p t hp
  cases hnone.symm.trans ht'

theorem waitpid_dead {a : Queues.Action} {pid : Int} (hS : Sound s)
    (hmv : Moved s.sched s'.sched) (hD : Dead s) (h0 : s.self ≠ 0) (hd : s.dying s.self = false)
    (ha : a = .waitpid pid ∨ s.pc s.self = .waiting pid) (hs : taskWaitpid s pid = .ok s') :
    Dead s' ∧ Freed s s' a := by
  obtain hg | ⟨i, hi, rfl⟩ := taskWaitpid_cases hS h0 hd hs
  · exact ⟨hD.next hmv hg, freed_of_slot hg.still.slot⟩
  · obtain ⟨hD', hfreed⟩ := reap_dead hD i rfl
    exact ⟨hD', fun p t hp hnone => ⟨hfreed p t hp hnone ▸ hi, pid, ha⟩⟩

theorem step_dead (hS : Sound s) (hD : Dead s) {a : Queues.Action} (ha : Queues.Enabled s a)
    (hm : Meets ctrl s a) (hs : Queues.act ctrl s a = .ok s') : Dead s' ∧ Freed s s' a := by
  obtain ⟨-, hmv⟩ := Queues.step_sound hS ha hs
  have hgoes : Goes s s' → Dead s' ∧ Freed s s' a := fun hg =>
    ⟨hD.next hmv hg, freed_of_slot hg.still.slot⟩
  obtain ⟨c, hc, hn, -⟩ := hS.runs
  cases a with
  | tick =>
    obtain ⟨r, hrun, rfl⟩ := run_ok hs
    exact hgoes (goes_same (still_tick hS.linked hc hn hrun) rfl rfl)
  | yield =>
    obtain ⟨r, hrun, rfl⟩ := run_ok hs
    exact hgoes (goes_same (still_schedule hS.linked hrun) rfl rfl)
  | sleep ms =>
    obtain ⟨t, hc, hn, hlive⟩ := live hS ha.1.2
    obtain ⟨r, hrun, rfl⟩ := run_ok hs
    exact hgoes (goes_same (still_sleep hS.linked hc hn ha.2 hlive hrun) rfl rfl)
  | block l st =>
    obtain ⟨hout, h0, hl, hst⟩ := ha
    obtain ⟨t, hc, hn, hlive⟩ := live hS hout.2
    obtain ⟨r, hrun, rfl⟩ := run_ok hs
    exact hgoes (goes_same (still_block hS.linked hc hn h0 hlive hl hst hrun) rfl rfl)
  | unblock q =>
    obtain ⟨r, hrun, rfl⟩ := run_ok hs
    exact hgoes (goes_same (still_unblock hS.linked hrun) rfl rfl)
  | lock m => exact hgoes (mutexLock_goes hS ha.2 (fun _ => ha.1.2) hs)
  | unlock m => exact hgoes (by refine mutexUnlock_goes hS ?_ ?_ hs <;> nofun)
  | request d n => exact hgoes (deviceRequest_goes hS ha.2 hm hs)
  | fork =>
    obtain ⟨hD', hslot⟩ := fork_dead hS hD hs
    exact ⟨hD', freed_of_slot hslot⟩
  | waitpid pid => exact waitpid_dead hS hmv hD ha.2 ha.1.2 (.inl rfl) hs
  | exit =>
    obtain ⟨hD', hslot⟩ := taskExit_dead hS hD ha.1.1 hs
    exact ⟨hD', freed_of_slot hslot⟩
  | finish =>
    obtain ⟨hD', hslot⟩ := exitTail_dead hS hD ha.2 hs
    exact ⟨hD', freed_of_slot hslot⟩
  | go q =>
    have h0 : s.self ≠ 0 := fun e => ha.1 (e ▸ hS.placed.idle.1)
    unfold Queues.act go at hs
    dsimp only at hs
    split at hs
    · next hpc => exact absurd hpc ha.1
    · next hpc =>
        exact waitpid_dead hS hmv hD h0 (hS.placed.waits _ _ hpc) (.inr hpc) hs
    · next m io hpc =>
        refine hgoes (mutexLock_goes hS h0 (fun _ => Bool.eq_false_iff.mpr fun hd => ?_) hs)
        exact hD.locking _ m io hd hpc
    · next d n hpc =>
        exact hgoes (doRequest_goes hS h0 (fun hd m hmc => hm hd d n m hpc hmc) hs)
    · exact hgoes (idePio_goes hS h0 hs)
    · exact hgoes (requestDone_goes hS hs)
    · next hpc => exact absurd rfl (hD.ended _ hpc).2

/-- **In every run in which no dying task has to wait for a disk**: who is dying is dead, the running
    task is never one whose `task_exit` has come to its end, and a slot is freed only by a
    `task_waitpid` of the parent. -/
theorem exit_final (h : Kept ctrl s) :
    (∀ p t, s.dying p = true → s.sched.table p = some t → t.state = .died) ∧
      (∀ p, s.pc p = .ended → s.self ≠ p) ∧
      ∀ a s', Queues.Enabled s a → Meets ctrl s a → Queues.act ctrl s a = .ok s' → Freed s s' a := by
  have hsound : Sound s ∧ Dead s := by
    induction h with
    | init => exact ⟨Queues.sound_init, dead_init⟩
    | step _ a ha hm hs ih => exact ⟨(Queues.step_sound ih.1 ha hs).1, (step_dead ih.1 ih.2 ha hm hs).1⟩
  obtain ⟨hS, hD⟩ := hsound
  exact ⟨hD.died, fun p hp => Ne.symm (hD.ended p hp).2, fun a s' ha hm hs =>
    (step_dead hS hD ha hm hs).2⟩

/-- Init forks and waits; the child ends. -/
theorem exit_final_child : ∃ s : Queues.State, s.dying 3 = true ∧ s.self = 1 ∧
    ∀ p t, s.dying p = true → s.sched.table p = some t → t.state = .died := by
  have h₁ := (@Kept.init fun _ => none).step .fork ⟨⟨rfl, rfl⟩, Nat.one_ne_zero⟩ trivial rfl
  have h₂ := h₁.step (.waitpid (-1)) ⟨⟨rfl, rfl⟩, Nat.one_ne_zero⟩ trivial rfl
  have h₃ := h₂.step (.sleep 1000) ⟨⟨rfl, rfl⟩, Nat.succ_ne_zero 1⟩ trivial rfl
  have h₄ := h₃.step .exit ⟨⟨rfl, rfl⟩, Nat.succ_ne_zero 2⟩ trivial rfl
  have h₅ := h₄.step .finish ⟨rfl, rfl⟩ trivial rfl
  exact ⟨_, rfl, rfl, (exit_final h₅).1⟩

/-- **A child ends while init reads the disk**: its request comes second, it blocks, and at last its
    `task_exit` returns. -/
theorem exit_returns : ∃ ctrl, ∃ s : Queues.State, Queues.Reached ctrl s ∧ s.dying 3 = true ∧
    (∃ t, s.sched.table 3 = some t ∧ t.state = .running) ∧ s.pc 3 = .ended ∧ s.self = 3 := by
  have out : ∀ {s : Queues.State} {n : Nat}, s.pc s.self = .out → s.dying s.self = false →
      s.self = n + 1 → Queues.Outside s ∧ s.self ≠ 0 := fun hp hd e =>
    ⟨⟨hp, hd⟩, e ▸ Nat.succ_ne_zero _⟩
  -- init has forked a child and waits for its sector; test sleeps
  have h₁ := (@Queues.Reached.init some).step .fork (out rfl rfl rfl) rfl
  have h₂ := h₁.step (.request 0 1) ⟨rfl, Nat.one_ne_zero⟩ rfl
  have h₃ := (h₂.step (.go 0) ⟨nofun, nofun⟩ rfl).step (.go 0) ⟨nofun, nofun⟩ rfl
  have h₄ := h₃.step (.sleep 1000) (out rfl rfl rfl) rfl
  -- the child ends, and its request waits
  have h₅ := h₄.step .exit (out rfl rfl rfl) rfl
  have h₆ := h₅.step (.request 0 1) ⟨rfl, Nat.succ_ne_zero 2⟩ rfl
  -- the interrupt; init has its sector and wakes the child
  have h₇ := (h₆.step (.unblock 1) trivial rfl).step .yield ⟨rfl, rfl⟩ rfl
  have h₈ := (h₇.step (.go 0) ⟨nofun, nofun⟩ rfl).step (.go 3) ⟨nofun, fun d hd _ => by
    cases hd
    exact .head _⟩ rfl
  have h₉ := h₈.step (.sleep 1000) (out rfl rfl rfl) rfl
  -- the child has its sector and comes to the end
  have h₁₀ := (h₉.step (.go 0) ⟨nofun, nofun⟩ rfl).step (.go 0) ⟨nofun, nofun⟩ rfl
  have h₁₁ := (h₁₀.step (.unblock 3) trivial rfl).step .yield ⟨rfl, rfl⟩ rfl
  have h₁₂ := (h₁₁.step (.go 0) ⟨nofun, nofun⟩ rfl).step (.go 0) ⟨nofun, fun d hd hne => by
    cases hd
    exact absurd rfl hne⟩ rfl
  have h₁₃ := (h₁₂.step .finish ⟨rfl, rfl⟩ rfl).step .yield ⟨rfl, rfl⟩ rfl
  exact ⟨some, _, h₁₃, rfl, ⟨_, rfl, rfl⟩, rfl, rfl⟩

end Steps

end Yuios.Dying
