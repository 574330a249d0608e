/-
  File:      Yuios/Kernel/Queues.lean
  Subject:   TASKS AND THEIR LISTS: mutexes, disk requests, `task_waitpid` and `task_exit` over the
             scheduler.

  The running task goes on in small pieces, each up to the next switch at most; where a task stands
  is its program point (`Pc`). Interrupt handlers may wake any task at any time.

  * `dying` is the history: `task_exit` has set the state of the task.
  * `Sound` -- the invariant. The scheduler is `Linked`, and the running task is in no list.
  * **`queues_kept`** -- in every state reached.
-/
import Yuios.Kernel.Sched

namespace Yuios.Queues

open Kernel Sched

/-! ## 1. The state -/

/-- Where a task stands. A disk request is on device `d`, with `n` sectors to go. -/
inductive Pc where
  /-- outside, or between two calls of `task_exit` -/
  | out
  /-- in `task_waitpid` -/
  | waiting (pid : Int)
  /-- in `mutex_lock`, by itself or for a disk request -/
  | locking (m : Nat) (io : Option (Nat × Nat))
  /-- in `device_request`, the request is in the list -/
  | queued (d n : Nat)
  /-- in `ide_pio_read` or `ide_pio_write`, with the lock of the controller -/
  | transfer (d n : Nat)
  /-- in `device_request`, after `do_request` -/
  | tail (d : Nat)
  /-- in the last `schedule` of `task_exit` -/
  | ended
  deriving DecidableEq

/-- The scheduler; the mutexes; the `request_list`s, as the tasks whose requests they hold; and of
    each task its `ppid`, `waitpid`, program point and history. -/
structure State where
  sched : Sched.State
  value : Nat → Bool
  queue : Nat → List Nat
  ppid : Nat → Nat
  waitpid : Nat → Int
  pc : Nat → Pc
  dying : Nat → Bool

def init : State where
  sched := taskInit
  value := fun _ => false
  queue := fun _ => []
  ppid := fun _ => 0
  waitpid := fun _ => 0
  pc := fun _ => .out
  dying := fun _ => false

namespace State

/-- `running_task()`. -/
abbrev self (s : State) : Nat := s.sched.current

def setPc (s : State) (p : Nat) (pc : Pc) : State := { s with pc := Function.update s.pc p pc }

/-- The rest of a call is the scheduler's. -/
def run (s : State) (r : Except Stop Sched.State) : Except Stop State :=
  r.map fun t => { s with sched := t }

end State

/-! ## 2. Mutexes and disk requests -/

/-- `mutex_lock`, one round of its loop. -/
def mutexLock (s : State) (m : Nat) (io : Option (Nat × Nat)) : Except Stop State :=
  if s.value m = true then
    (s.setPc s.self (.locking m io)).run (taskBlock s.sched s.self (.waiters m) .blocked)
  else
    let s := { s with value := Function.update s.value m true }
    .ok (s.setPc s.self (match io with
      | none => .out
      | some (d, n) => .transfer d n))

/-- `mutex_unlock`: the first of the waiters is woken, and the task yields. -/
def mutexUnlock (s : State) (m : Nat) (next : Pc) : Except Stop State := do
  assert (s.value m)
  let s := { s with value := Function.update s.value m false }
  let s := s.setPc s.self next
  match (s.sched.lists (.waiters m)).getLast? with
  | none => return s
  | some task => do
    let t ← taskUnblock s.sched task
    s.run (taskYield t)

/-- `device_request`, up to `do_request`: behind other requests the task blocks. -/
def deviceRequest (s : State) (d n : Nat) : Except Stop State :=
  let empty := (s.queue d).isEmpty
  let s := { s with queue := Function.update s.queue d (s.self :: s.queue d) }
  let s := s.setPc s.self (.queued d n)
  if empty then .ok s
  else s.run (taskBlock s.sched s.self .block .blocked)

/-- `do_request`: to a ramdisk at once, to a disk with the lock of its controller. -/
def doRequest (ctrl : Nat → Option Nat) (s : State) (d n : Nat) : Except Stop State :=
  match ctrl d with
  | none => .ok (s.setPc s.self (.tail d))
  | some m => mutexLock s m (some (d, n))

/-- The loop of `ide_pio_read` and `ide_pio_write`: only a task in state `TASK_RUNNING` waits for the
    interrupt, others poll. -/
def idePio (ctrl : Nat → Option Nat) (s : State) (d n : Nat) : Except Stop State :=
  match n, ctrl d, s.sched.table s.self with
  | 0, some m, _ => mutexUnlock s m (.tail d)
  | 0, none, _ => .error .fault
  | _ + 1, _, none => .error .fault
  | n + 1, _, some task =>
    let s := s.setPc s.self (.transfer d n)
    if task.state = .running then s.run (taskBlock s.sched s.self .block .blocked)
    else .ok s

/-- The end of `device_request`: `q` is the next request's task, if there is another request. -/
def requestDone (s : State) (d q : Nat) : Except Stop State :=
  let s := { s with queue := Function.update s.queue d ((s.queue d).erase s.self) }
  let s := s.setPc s.self .out
  if (s.queue d).isEmpty then .ok s
  else s.run (taskUnblock s.sched q)

/-! ## 3. `task_fork`, `task_waitpid` and `task_exit` -/

/-- `task_fork`. -/
def fork (s : State) : Except Stop State := do
  let pid ← getFreeTask s.sched
  let t ← taskFork s.sched
  return { s with
    sched := t
    ppid := Function.update s.ppid pid s.self
    waitpid := Function.update s.waitpid pid (s.waitpid s.self)
    pc := Function.update s.pc pid .out
    dying := Function.update s.dying pid false }

/-- The loop of `task_waitpid` over the slots: a child that has ended, and `has_child`. -/
def searchChild (s : State) (pid : Int) : List Nat → Bool → Option Nat × Bool
  | [], hasChild => (none, hasChild)
  | i :: l, hasChild =>
    match s.sched.table i with
    | none => searchChild s pid l hasChild
    | some ptr =>
      if s.ppid i ≠ s.self then searchChild s pid l hasChild
      else if pid ≠ i ∧ pid ≠ -1 then searchChild s pid l hasChild
      else if ptr.state = .died then (some i, hasChild)
      else searchChild s pid l true

/-- `task_waitpid(pid)`, one round of its loop. -/
def taskWaitpid (s : State) (pid : Int) : Except Stop State :=
  match searchChild s pid (List.range' 2 (NR_TASKS - 2)) false with
  | (some i, _) =>
    let s := { s with sched := { s.sched with table := Function.update s.sched.table i none } }
    .ok (s.setPc s.self .out)
  | (none, true) =>
    let s := { s with waitpid := Function.update s.waitpid s.self pid }
    (s.setPc s.self (.waiting pid)).run (taskBlock s.sched s.self .block .waiting)
  | (none, false) => .error .fault

/-- `task_exit`, up to the releases of the directories, the program and the files. -/
def taskExit (s : State) : Except Stop State :=
  match s.sched.table s.self with
  | none => .error .fault
  | some task => do
    assert (task.node = none ∧ task.state = .running)
    return { s with
      sched := s.sched.setTask s.self { task with state := .died }
      dying := Function.update s.dying s.self true }

/-- The end of `task_exit`: the children are handed on, the parent is woken, and the last switch. -/
def exitTail (s : State) : Except Stop State := do
  let p := s.self
  let s := { s with ppid := fun i => if s.ppid i = p then s.ppid p else s.ppid i }
  let s := s.setPc p .ended
  match s.sched.table (s.ppid p) with
  | none => .error .fault
  | some parent =>
    if parent.state = .waiting ∧ (s.waitpid (s.ppid p) = -1 ∨ s.waitpid (s.ppid p) = p) then do
      let t ← taskUnblock s.sched (s.ppid p)
      s.run (schedule t)
    else s.run (schedule s.sched)

/-! ## 4. Runs -/

/-- What can happen: an interrupt, a call of the running task, or a release in `task_exit`; `go`
    runs on from where the task stands, with `q` for the task whose request is next. -/
inductive Action where
  | tick
  | yield
  | sleep (ms : U32)
  | block (blist : ListId) (state : TaskState)
  | unblock (q : Nat)
  | lock (m : Nat)
  | unlock (m : Nat)
  | request (d n : Nat)
  | fork
  | waitpid (pid : Int)
  | exit
  | finish
  | go (q : Nat)

/-- The running task is outside of the calls. -/
def Outside (s : State) : Prop := s.pc s.self = .out ∧ s.dying s.self = false

/-- Idle, task 0, only halts and yields. In `task_exit` a task makes disk requests. -/
def Enabled (s : State) : Action → Prop
  | .tick | .unblock _ => True
  | .yield => Outside s
  | .sleep _ | .lock _ | .unlock _ | .fork | .waitpid _ | .exit => Outside s ∧ s.self ≠ 0
  | .block blist state =>
    Outside s ∧ s.self ≠ 0 ∧ blist ≠ .sleep ∧ (state = .blocked ∨ state = .waiting)
  | .request _ _ => s.pc s.self = .out ∧ s.self ≠ 0
  | .finish => s.pc s.self = .out ∧ s.dying s.self = true
  | .go q => s.pc s.self ≠ .out ∧ ∀ d, s.pc s.self = .tail d → (s.queue d).erase s.self ≠ [] →
      q ∈ (s.queue d).erase s.self

/-- The running task goes on; from `ended`, `task_exit` returns. -/
def go (ctrl : Nat → Option Nat) (s : State) (q : Nat) : Except Stop State :=
  match s.pc s.self with
  | .out => .ok s
  | .waiting pid => taskWaitpid s pid
  | .locking m io => mutexLock s m io
  | .queued d n => doRequest ctrl s d n
  | .transfer d n => idePio ctrl s d n
  | .tail d => requestDone s d q
  | .ended => .ok (s.setPc s.self .out)

def act (ctrl : Nat → Option Nat) (s : State) : Action → Except Stop State
  | .tick => s.run (clockHandler s.sched)
  | .yield => s.run (taskYield s.sched)
  | .sleep ms => s.run (taskSleep s.sched ms)
  | .block blist state => s.run (taskBlock s.sched s.self blist state)
  | .unblock q => s.run (taskUnblock s.sched q)
  | .lock m => mutexLock s m none
  | .unlock m => mutexUnlock s m .out
  | .request d n => deviceRequest s d n
  | .fork => fork s
  | .waitpid pid => taskWaitpid s pid
  | .exit => taskExit s
  | .finish => exitTail s
  | .go q => go ctrl s q

/-- The states reached, with `ctrl` the mutex of each disk's controller. -/
inductive Reached (ctrl : Nat → Option Nat) : State → Prop where
  | init : Reached ctrl init
  | step {s s' : State} (h : Reached ctrl s) (a : Action) (ha : Enabled s a)
      (hs : act ctrl s a = .ok s') : Reached ctrl s'

/-! ## 5. The invariant -/

/-- The program points: idle has none, and nobody waits in `task_exit`. -/
structure Placed (s : State) : Prop where
  idle : s.pc 0 = .out ∧ s.dying 0 = false
  waits : ∀ p pid, s.pc p = .waiting pid → s.dying p = false

structure Sound (s : State) : Prop where
  linked : Linked s.sched
  runs : ∃ t, s.sched.table s.self = some t ∧ t.node = none ∧
    (t.state = .running ∨ (t.state = .died ∧ s.dying s.self = true))
  placed : Placed s

/-- A step of the scheduler: the running task runs on, or there is one switch. -/
inductive Moved (s s' : Sched.State) : Prop where
  | stays (hc : s'.current = s.current)
  | switch (s₁ : Sched.State) (hc : s₁.current = s.current) (hl : Linked s₁)
      (hs : schedule s₁ = .ok s')

theorem sound_init : Sound init :=
  ⟨linked_init, ⟨_, rfl, rfl, .inl rfl⟩, ⟨rfl, rfl⟩, nofun⟩

section Steps

variable {ctrl : Nat → Option Nat} {s s' : State} {p : Nat} {pc : Pc} {t : Task}

theorem run_ok {r : Except Stop Sched.State} (h : s.run r = .ok s') :
    ∃ t, r = .ok t ∧ s' = { s with sched := t } := by
  cases r with
  | error e => cases h
  | ok t => exact ⟨t, rfl, (Except.ok.inj h).symm⟩

theorem Placed.setPc (h : Placed s) (hp : p ≠ 0) (hpc : ∀ pid, pc ≠ .waiting pid) :
    Placed (s.setPc p pc) := by
  refine ⟨⟨?_, h.idle.2⟩, fun q pid hq => ?_⟩
  · exact (Function.update_of_ne (Ne.symm hp) _ _).trans h.idle.1
  · by_cases e : q = p
    · have hself : (s.setPc p pc).pc q = pc := by
        rw [e]
        exact Function.update_self ..
      exact absurd (hself.symm.trans hq) (hpc pid)
    · exact h.waits q pid ((Function.update_of_ne e _ _).symm.trans hq)

/-- After the switch. -/
theorem Placed.switch {s₁ t : Sched.State} (h : Placed s) (hl : Linked s₁)
    (hs : schedule s₁ = .ok t) : Sound { s with sched := t } := by
  obtain ⟨t', ht', hsw⟩ := schedule_switched hl
  cases ht'.symm.trans hs
  obtain ⟨u, hu, hr, hn⟩ := hsw.runs hl
  exact ⟨hsw.linked hl, ⟨u, hu, hn, .inl hr⟩, h.idle, h.waits⟩

theorem schedule_sound {s₁ : Sched.State} (h : Placed s) (hl : Linked s₁)
    (hc : s₁.current = s.self) (hs : s.run (schedule s₁) = .ok s') :
    Sound s' ∧ Moved s.sched s'.sched := by
  obtain ⟨t, hrun, rfl⟩ := run_ok hs
  exact ⟨h.switch hl hrun, .switch s₁ hc hl hrun⟩

theorem block_sound {l : ListId} {st : TaskState} (h : Placed s) (hl : Linked s.sched)
    (hc : s.sched.table s.self = some t) (hn : t.node = none) (h0 : s.self ≠ 0)
    (hne : l ≠ .sleep) (hst : st = .blocked ∨ st = .waiting)
    (hs : s.run (taskBlock s.sched s.self l st) = .ok s') : Sound s' ∧ Moved s.sched s'.sched := by
  obtain ⟨s₁, hrun, hch, -, -, hl₁⟩ := taskBlock_spec hl hc hn h0 hne hst
  refine schedule_sound h hl₁ hch.current ?_
  rw [← hrun]
  exact hs

/-- The running task wakes another one and goes on. -/
theorem unblock_sound {q : Nat} (h : Sound s) (hs : s.run (taskUnblock s.sched q) = .ok s') :
    Sound s' ∧ Moved s.sched s'.sched := by
  obtain ⟨t, hrun, rfl⟩ := run_ok hs
  obtain ⟨u, l, hu, hn, hch, hl⟩ := taskUnblock_linked h.linked hrun
  obtain ⟨c, hc, hnode, hst⟩ := h.runs
  have hne : s.self ≠ q := fun e => by
    rw [e, hu] at hc
    cases hc
    cases hn.symm.trans hnode
  refine ⟨⟨hl, ⟨c, ?_, hnode, ?_⟩, h.placed.idle, h.placed.waits⟩, .stays hch.current⟩
  · show t.table t.current = _
    rw [hch.current, hch.table, if_neg hne, hc]
  · show c.state = .running ∨ (c.state = .died ∧ s.dying t.current = true)
    rw [hch.current]
    exact hst

/-- The state but for the scheduler, the history and the program points plays no part. -/
theorem Sound.congr (h : Sound s) (hsched : s'.sched = s.sched) (hd : s'.dying = s.dying)
    (hp : Placed s') : Sound s' := by
  refine ⟨hsched ▸ h.linked, ?_, hp⟩
  unfold State.self
  rw [hsched, hd]
  exact h.runs

theorem mutexLock_sound {m : Nat} {io : Option (Nat × Nat)} (h : Sound s) (h0 : s.self ≠ 0)
    (hs : mutexLock s m io = .ok s') : Sound s' ∧ Moved s.sched s'.sched := by
  unfold mutexLock at hs
  split at hs
  · obtain ⟨t, hc, hn, -⟩ := h.runs
    have hplaced : Placed (s.setPc s.self (.locking m io)) := h.placed.setPc h0 nofun
    have hsound := block_sound (l := .waiters m) hplaced h.linked hc hn h0 nofun (.inl rfl) hs
    exact hsound
  · cases hs
    refine ⟨h.congr rfl rfl (Placed.setPc ⟨h.placed.idle, h.placed.waits⟩ h0 fun pid => ?_), .stays rfl⟩
    split <;> nofun

theorem mutexUnlock_sound {m : Nat} {next : Pc} (h : Sound s) (h0 : s.self ≠ 0)
    (hnext : ∀ pid, next ≠ .waiting pid) (hs : mutexUnlock s m next = .ok s') :
    Sound s' ∧ Moved s.sched s'.sched := by
  obtain ⟨-, -, hs⟩ := ok_of_bind hs
  have hplaced : Placed ({ s with value := Function.update s.value m false }.setPc s.self next) :=
    Placed.setPc ⟨h.placed.idle, h.placed.waits⟩ h0 hnext
  dsimp only at hs
  split at hs
  · cases hs
    exact ⟨h.congr rfl rfl hplaced, .stays rfl⟩
  · obtain ⟨t, hun, hs⟩ := ok_of_bind hs
    obtain ⟨_, _, -, -, hch, hl⟩ := taskUnblock_linked h.linked hun
    have hsound := schedule_sound hplaced hl hch.current hs
    exact hsound

theorem deviceRequest_sound {d n : Nat} (h : Sound s) (h0 : s.self ≠ 0)
    (hs : deviceRequest s d n = .ok s') : Sound s' ∧ Moved s.sched s'.sched := by
  have hplaced : Placed ({ s with queue := Function.update s.queue d (s.self :: s.queue d) }.setPc
      s.self (.queued d n)) := Placed.setPc ⟨h.placed.idle, h.placed.waits⟩ h0 nofun
  unfold deviceRequest at hs
  dsimp only at hs
  split at hs
  · cases hs
    exact ⟨h.congr rfl rfl hplaced, .stays rfl⟩
  · obtain ⟨t, hc, hn, -⟩ := h.runs
    have hsound := block_sound (l := .block) hplaced h.linked hc hn h0 nofun (.inl rfl) hs
    exact hsound

theorem doRequest_sound {d n : Nat} (h : Sound s) (h0 : s.self ≠ 0)
    (hs : doRequest ctrl s d n = .ok s') : Sound s' ∧ Moved s.sched s'.sched := by
  unfold doRequest at hs
  split at hs
  · cases hs
    exact ⟨h.congr rfl rfl (h.placed.setPc h0 nofun), .stays rfl⟩
  · exact mutexLock_sound h h0 hs

theorem idePio_sound {d n : Nat} (h : Sound s) (h0 : s.self ≠ 0)
    (hs : idePio ctrl s d n = .ok s') : Sound s' ∧ Moved s.sched s'.sched := by
  unfold idePio at hs
  split at hs
  · refine mutexUnlock_sound h h0 ?_ hs
    nofun
  · cases hs
  · cases hs
  · next n task _ =>
      have hplaced : Placed (s.setPc s.self (.transfer d n)) := h.placed.setPc h0 nofun
      dsimp only at hs
      split at hs
      · obtain ⟨t, hc, hn, -⟩ := h.runs
        have hsound := block_sound (l := .block) hplaced h.linked hc hn h0 nofun (.inl rfl) hs
        exact hsound
      · cases hs
        exact ⟨h.congr rfl rfl hplaced, .stays rfl⟩

theorem requestDone_sound {d q : Nat} (h : Sound s) (h0 : s.self ≠ 0)
    (hs : requestDone s d q = .ok s') : Sound s' ∧ Moved s.sched s'.sched := by
  have hsound : Sound ({ s with queue := Function.update s.queue d ((s.queue d).erase s.self) }.setPc
      s.self .out) := h.congr rfl rfl (Placed.setPc ⟨h.placed.idle, h.placed.waits⟩ h0 nofun)
  unfold requestDone at hs
  dsimp only at hs
  split at hs
  · cases hs
    exact ⟨hsound, .stays rfl⟩
  · have hmoved := unblock_sound hsound hs
    exact hmoved

theorem tick_sound (h : Sound s) (hs : s.run (clockHandler s.sched) = .ok s') :
    Sound s' ∧ Moved s.sched s'.sched := by
  obtain ⟨t, hc, hn, hst⟩ := h.runs
  obtain ⟨s₁, s₂, w, rest, -, hw, -, hch, -, -, hl, hrun⟩ := clockHandler_spec h.linked hc hn
  have hcur : s₂.current = s.sched.current := hch.current.trans hw.current
  rw [hrun] at hs
  split at hs
  · exact schedule_sound h.placed hl hcur hs
  · cases hs
    refine ⟨⟨hl, ⟨t.tick (s.sched.jiffies + 1), ?_, hn, ?_⟩, h.placed.idle, h.placed.waits⟩, .stays hcur⟩
    · show s₂.table s₂.current = _
      rw [hch.table, if_pos hcur]
    · show t.state = .running ∨ (t.state = .died ∧ s.dying s₂.current = true)
      rw [hcur]
      exact hst

theorem sleep_sound {ms : U32} (h : Sound s) (h0 : s.self ≠ 0)
    (hs : s.run (taskSleep s.sched ms) = .ok s') : Sound s' ∧ Moved s.sched s'.sched := by
  obtain ⟨t, hc, hn, -⟩ := h.runs
  obtain ⟨s₁, hrun, hch, -, -, hl⟩ := taskSleep_spec h.linked hc hn h0 ms
  rw [hrun] at hs
  exact schedule_sound h.placed hl hch.current hs

theorem fork_sound (h : Sound s) (hs : fork s = .ok s') : Sound s' ∧ Moved s.sched s'.sched := by
  obtain ⟨pid, hpid, hs⟩ := ok_of_bind hs
  obtain ⟨t, hfork, hs⟩ := ok_of_bind hs
  cases hs
  obtain ⟨c, hc, hn, hst⟩ := h.runs
  have hr : c.state = .running := by
    unfold taskFork at hfork
    rw [hc] at hfork
    obtain ⟨_, ha, -⟩ := ok_of_bind hfork
    by_cases hok : c.node = none ∧ c.state = .running
    · exact hok.2
    · rw [decide_eq_false hok] at ha
      cases ha
  obtain ⟨n, -, hfree, hrun, hl⟩ | ⟨hpanic, -⟩ := taskFork_spec h.linked hc hn hr
  · cases hrun.symm.trans hfork
    obtain ⟨-, hnone⟩ := getFreeTask_ok hpid
    have hne : s.self ≠ n := fun e => by
      rw [← e, hc] at hfree
      cases hfree
    have hself : s.self ≠ pid := fun e => by
      rw [← e, hc] at hnone
      cases hnone
    have hidle : 0 ≠ pid := fun e => by
      obtain ⟨u, hu, -⟩ := h.linked.idle
      rw [e, hnone] at hu
      cases hu
    refine ⟨⟨hl, ⟨c, ?_, hn, .inl hr⟩, ⟨?_, ?_⟩, fun p q hq => ?_⟩, .stays rfl⟩
    · exact (State.table_setTask ..).trans ((if_neg hne).trans hc)
    · exact (Function.update_of_ne hidle _ _).trans h.placed.idle.1
    · exact (Function.update_of_ne hidle _ _).trans h.placed.idle.2
    · by_cases e : p = pid
      · show Function.update s.dying pid false p = false
        rw [e]
        exact Function.update_self ..
      · exact (Function.update_of_ne e _ _).trans
          (h.placed.waits p q ((Function.update_of_ne e _ _).symm.trans hq))
  · cases hpanic.symm.trans hfork

theorem searchChild_some {pid : Int} {i : Nat} {b b' : Bool} {l : List Nat}
    (h : searchChild s pid l b = (some i, b')) :
    i ∈ l ∧ s.ppid i = s.self ∧ ∃ u, s.sched.table i = some u ∧ u.state = .died := by
  induction l generalizing b with
  | nil => cases h
  | cons j l ih =>
    have hnext : ∀ {b}, searchChild s pid l b = (some i, b') → i ∈ j :: l ∧ s.ppid i = s.self ∧
        ∃ u, s.sched.table i = some u ∧ u.state = .died := fun h =>
      ⟨List.mem_cons_of_mem j (ih h).1, (ih h).2⟩
    unfold searchChild at h
    split at h
    · exact hnext h
    · next u hu =>
        split at h
        · exact hnext h
        · next hpp =>
            split at h
            · exact hnext h
            · split at h
              · next hd =>
                  cases h
                  exact ⟨List.mem_cons_self, not_not.mp hpp, u, hu, hd⟩
              · exact hnext h

theorem taskWaitpid_sound {pid : Int} (h : Sound s) (h0 : s.self ≠ 0) (hd : s.dying s.self = false)
    (hs : taskWaitpid s pid = .ok s') : Sound s' ∧ Moved s.sched s'.sched := by
  obtain ⟨t, hc, hn, hst⟩ := h.runs
  have hr : t.state = .running := hst.resolve_right fun ⟨_, hdy⟩ => by
    rw [hd] at hdy
    cases hdy
  unfold taskWaitpid at hs
  split at hs
  · next i b hi =>
      cases hs
      obtain ⟨hm, -, u, hu, hdead⟩ := searchChild_some hi
      have hm := List.mem_range'_1.mp hm
      have hne : s.self ≠ i := fun e => by
        rw [← e, hc] at hu
        cases hu
        rw [hr] at hdead
        cases hdead
      have hplaced : Placed (s.setPc s.self .out) := h.placed.setPc h0 nofun
      refine ⟨⟨h.linked.reap hu hdead hne (by omega), ⟨t, ?_, hn, .inl hr⟩,
        hplaced.idle, hplaced.waits⟩, .stays rfl⟩
      exact (Function.update_of_ne hne _ _).trans hc
  · have hplaced : Placed (({ s with waitpid := Function.update s.waitpid s.self pid } : State).setPc
        s.self (.waiting pid)) := by
      refine ⟨⟨(Function.update_of_ne (Ne.symm h0) _ _).trans h.placed.idle.1, h.placed.idle.2⟩,
        fun p q hq => ?_⟩
      by_cases e : p = s.self
      · rw [e]
        exact hd
      · exact h.placed.waits p q ((Function.update_of_ne e _ _).symm.trans hq)
    have hsound := block_sound (l := .block) hplaced h.linked hc hn h0 nofun (.inr rfl) hs
    exact hsound
  · cases hs

theorem taskExit_sound (h : Sound s) (hout : s.pc s.self = .out) (h0 : s.self ≠ 0)
    (hs : taskExit s = .ok s') : Sound s' ∧ Moved s.sched s'.sched := by
  obtain ⟨t, hc, hn, -⟩ := h.runs
  unfold taskExit at hs
  rw [hc] at hs
  obtain ⟨-, -, hs⟩ := ok_of_bind hs
  cases hs
  have hch : Changed s.sched (s.sched.setTask s.self { t with state := .died }) s.self t
      { t with state := .died } := ⟨hc, fun j => State.table_setTask _ _ j _, rfl⟩
  have hfree := h.linked.unlisted hc hn
  refine ⟨⟨h.linked.change hch (fun l i => ?_) h.linked.nodup ?_ ?_ (fun e => absurd e h0) nofun,
    ⟨_, (hch.table _).trans (if_pos rfl), hn, .inr ⟨rfl, Function.update_self ..⟩⟩,
    ⟨h.placed.idle.1, (Function.update_of_ne (Ne.symm h0) _ _).trans h.placed.idle.2⟩,
    fun p q hq => ?_⟩, .stays rfl⟩
  · rw [State.lists_setTask]
    split
    · next e => exact iff_of_false (e ▸ hfree l) fun hl => nomatch hn.symm.trans hl
    · exact Iff.rfl
  · show t.node.isSome = false
    rw [hn]
    rfl
  · show t.node = some .sleep ↔ _
    rw [hn]
    exact ⟨nofun, nofun⟩
  · have e : p ≠ s.self := fun e => by
      rw [e] at hq
      cases hout.symm.trans hq
    exact (Function.update_of_ne e _ _).trans (h.placed.waits p q hq)

theorem exitTail_sound (h : Sound s) (h0 : s.self ≠ 0) (hs : exitTail s = .ok s') :
    Sound s' ∧ Moved s.sched s'.sched := by
  have hplaced : Placed (({ s with
      ppid := fun i => if s.ppid i = s.self then s.ppid s.self else s.ppid i } : State).setPc
      s.self .ended) := Placed.setPc ⟨h.placed.idle, h.placed.waits⟩ h0 nofun
  unfold exitTail at hs
  dsimp only at hs
  split at hs
  · cases hs
  · split at hs
    · obtain ⟨t, hun, hs⟩ := ok_of_bind hs
      obtain ⟨_, _, -, -, hch, hl⟩ := taskUnblock_linked h.linked hun
      have hsound := schedule_sound hplaced hl hch.current hs
      exact hsound
    · have hsound := schedule_sound hplaced h.linked rfl hs
      exact hsound

theorem step_sound (h : Sound s) {a : Action} (ha : Enabled s a) (hs : act ctrl s a = .ok s') :
    Sound s' ∧ Moved s.sched s'.sched := by
  cases a with
  | tick => exact tick_sound h hs
  | yield => exact schedule_sound h.placed h.linked rfl hs
  | sleep ms => exact sleep_sound h ha.2 hs
  | block l st =>
    obtain ⟨-, h0, hl, hst⟩ := ha
    obtain ⟨t, hc, hn, -⟩ := h.runs
    exact block_sound h.placed h.linked hc hn h0 hl hst hs
  | unblock q => exact unblock_sound h hs
  | lock m => exact mutexLock_sound h ha.2 hs
  | unlock m =>
    refine mutexUnlock_sound h ha.2 ?_ hs
    nofun
  | request d n => exact deviceRequest_sound h ha.2 hs
  | fork => exact fork_sound h hs
  | waitpid pid => exact taskWaitpid_sound h ha.2 ha.1.2 hs
  | exit => exact taskExit_sound h ha.1.1 ha.2 hs
  | finish =>
    refine exitTail_sound h (fun e => ?_) hs
    cases (e ▸ ha.2).symm.trans h.placed.idle.2
  | go q =>
    have h0 : s.self ≠ 0 := fun e => ha.1 (e ▸ h.placed.idle.1)
    unfold act go at hs
    dsimp only at hs
    split at hs
    · next hpc => exact absurd hpc ha.1
    · next hpc => exact taskWaitpid_sound h h0 (h.placed.waits _ _ hpc) hs
    · exact mutexLock_sound h h0 hs
    · exact doRequest_sound h h0 hs
    · exact idePio_sound h h0 hs
    · exact requestDone_sound h h0 hs
    · cases hs
      exact ⟨h.congr rfl rfl (h.placed.setPc h0 nofun), .stays rfl⟩

theorem reached_sound (h : Reached ctrl s) : Sound s := by
  induction h with
  | init => exact sound_init
  | step _ a ha hs ih => exact (step_sound ih ha hs).1

/-- **In every state reached**, a task whose state says that it waits is in one list, once; any other
    is in none, with both pointers of its node NULL; and only tasks are in lists. A step that switches
    goes to a task that was ready where `schedule` was called, or from idle back to idle. -/
theorem queues_kept (h : Reached ctrl s) :
    (∀ i t, s.sched.table i = some t → t.state = .blocked ∨ t.state = .sleeping ∨ t.state = .waiting →
      ∃ l, t.node = some l ∧ ∀ k, (s.sched.lists k).count i = if k = l then 1 else 0) ∧
    (∀ i t, s.sched.table i = some t → t.state = .ready ∨ t.state = .running ∨ t.state = .died →
      t.node = none ∧ ∀ k, i ∉ s.sched.lists k) ∧
    (∀ k, ∀ i ∈ s.sched.lists k, ∃ t, s.sched.table i = some t) ∧
    ∀ a s', Enabled s a → act ctrl s a = .ok s' → s'.self = s.self ∨
      ∃ s₁, schedule s₁ = .ok s'.sched ∧ s₁.current = s.self ∧ ∃ t, s₁.table s'.self = some t ∧
        (t.state = .ready ∨ (s'.self = 0 ∧ s.self = 0)) := by
  have hsound := reached_sound h
  have hl := hsound.linked
  refine ⟨fun i t hi hst => ?_, fun i t hi hst => ?_, fun k i hi => ?_, fun a s' ha hs => ?_⟩
  · have hq := hl.queued i t hi
    obtain ⟨l, hn⟩ : ∃ l, t.node = some l := by
      refine Option.isSome_iff_exists.mp (hq.trans ?_)
      rcases hst with hst | hst | hst <;> rw [hst] <;> rfl
    refine ⟨l, hn, fun k => ?_⟩
    split
    · next e => exact List.count_eq_one_of_mem (hl.nodup k) (e ▸ hl.listed hi hn)
    · next e =>
        refine List.count_eq_zero.mpr fun hm => ?_
        obtain ⟨u, hu, hk⟩ := (hl.linked k i).mp hm
        cases hi.symm.trans hu
        exact e (Option.some.inj (hk.symm.trans hn))
  · have hq := hl.queued i t hi
    have hn : t.node = none := by
      refine Option.isNone_iff_eq_none.mp (Option.isSome_eq_false_iff.mp (hq.trans ?_))
      rcases hst with hst | hst | hst <;> rw [hst] <;> rfl
    exact ⟨hn, hl.unlisted hi hn⟩
  · obtain ⟨t, ht, -⟩ := (hl.linked k i).mp hi
    exact ⟨t, ht⟩
  · cases (step_sound hsound ha hs).2 with
    | stays hc => exact .inl hc
    | switch s₁ hc hl₁ hs₁ =>
      obtain ⟨s₂, hs₂, hsw⟩ := schedule_switched hl₁
      have hcur : s'.self = taskSearch s₁ := by
        cases hs₂.symm.trans hs₁
        exact hsw.current
      obtain ⟨t, ht, hst⟩ := hl₁.target
      rw [← hcur] at ht hst
      exact .inr ⟨s₁, hs₁, hc, t, ht, hst.imp_right fun ⟨h0, h0'⟩ => ⟨h0, hc.symm.trans h0'⟩⟩

/-- Init sleeps, and test waits for a mutex that it has locked. -/
theorem queues_kept_two : ∃ s : State, s.sched.lists .sleep = [1] ∧
    s.sched.lists (.waiters 0) = [2] ∧ s.self = 0 ∧
    ∀ k, ∀ i ∈ s.sched.lists k, ∃ t, s.sched.table i = some t := by
  have h₁ := (@Reached.init fun _ => none).step (.sleep 10)
    ⟨⟨rfl, rfl⟩, Nat.one_ne_zero⟩ rfl
  have h₂ := h₁.step (.lock 0) ⟨⟨rfl, rfl⟩, Nat.succ_ne_zero 1⟩ rfl
  have h₃ := h₂.step (.lock 0) ⟨⟨rfl, rfl⟩, Nat.succ_ne_zero 1⟩ rfl
  exact ⟨_, rfl, rfl, rfl, (queues_kept h₃).2.2.1⟩

end Steps

end Yuios.Queues
