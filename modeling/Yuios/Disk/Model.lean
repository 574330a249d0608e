/-
  File:      Yuios/Disk/Model.lean
  Subject:   REQUESTS FOR DISKS: `device_request` of `kernel/device.c` with the sorted insertion of
             `lib/list.c`, among tasks.

  Any number of tasks call it, on disks and on partitions. A call runs without interruption up to
  where it sleeps: in `task_block`, while other requests of the disk are under way, or inside the
  driver that `do_request` calls. A driver may sleep as often as it likes; all that is known of it
  is that the transfer is complete when it returns.

  * A list is the sequence of what is linked into it, head first. A request is named by a serial
    number; two that are under way never share an address.
  * `performed` and `returned` are the history: the transfers completed and the calls that have
    returned, in order.
-/
import Mathlib.Algebra.Group.Nat.Defs
import Yuios.Kernel.Block

namespace Yuios.Disk

open Kernel

def DEVICE_NR : Nat := 64
def REQ_READ : Nat := 0
def REQ_WRITE : Nat := 1

/-! ## 1. The state -/

inductive DevType where
  | null
  | char
  | block
  deriving DecidableEq

inductive Direct where
  | up
  | down
  deriving DecidableEq

/-- A `request_t`. -/
structure Request where
  serial : Nat
  dev : Nat
  type : Nat
  idx : Nat
  count : Nat
  flags : Int
  buf : Nat
  task : Option Nat
  deriving DecidableEq

/-- A `device_t`; `start` is what its driver answers to `DEV_CMD_SECTOR_START`, `parent` is 0 for
    what is no partition. -/
structure Device where
  type : DevType
  parent : Nat
  start : Nat
  requestList : List Request
  direct : Direct

/-- Where a task stands: outside, asleep in `device_request`, or inside the driver. -/
inductive Pc where
  | out
  | blocked (req : Request)
  | driving (req : Request)
  deriving DecidableEq

structure State where
  devices : Nat → Device
  sched : Scheduler
  pc : Nat → Pc
  calls : Nat
  performed : List Request
  returned : List Nat

/-- With the devices installed and no request made. -/
def init (type : Nat → DevType) (parent start : Nat → Nat) : State where
  devices := fun d => ⟨type d, parent d, start d, [], .up⟩
  sched := .init
  pc := fun _ => .out
  calls := 0
  performed := []
  returned := []

namespace State

def setPc (s : State) (t : Nat) (p : Pc) : State := { s with pc := Function.update s.pc t p }

/-- The list of disk `d` and its direction. -/
def setQueue (s : State) (d : Nat) (l : List Request) (direct : Direct) : State :=
  { s with
    devices := Function.update s.devices d { s.devices d with requestList := l, direct := direct } }

def queue (s : State) (d : Nat) : List Request := (s.devices d).requestList

def direct (s : State) (d : Nat) : Direct := (s.devices d).direct

@[simp] theorem queue_setQueue_self (s : State) (d : Nat) (l : List Request) (direct : Direct) :
    (s.setQueue d l direct).queue d = l := by simp [queue, setQueue]

@[simp] theorem direct_setQueue_self (s : State) (d : Nat) (l : List Request) (direct : Direct) :
    (s.setQueue d l direct).direct d = direct := by simp [State.direct, setQueue]

theorem queue_setQueue_of_ne {s : State} {d e : Nat} (l : List Request) (direct : Direct)
    (h : e ≠ d) : (s.setQueue d l direct).queue e = s.queue e := by simp [queue, setQueue, h]

theorem direct_setQueue_of_ne {s : State} {d e : Nat} (l : List Request) (direct : Direct)
    (h : e ≠ d) : (s.setQueue d l direct).direct e = s.direct e := by
  simp [State.direct, setQueue, h]

theorem type_setQueue (s : State) (d : Nat) (l : List Request) (direct : Direct) (e : Nat) :
    ((s.setQueue d l direct).devices e).type = (s.devices e).type := by
  by_cases h : e = d
  · simp [setQueue, h]
  · simp [setQueue, h]

@[simp] theorem setPc_self (s : State) (t : Nat) (p : Pc) : (s.setPc t p).pc t = p :=
  Function.update_self ..

theorem setPc_of_ne {s : State} {t u : Nat} (p : Pc) (h : u ≠ t) :
    (s.setPc t p).pc u = s.pc u := Function.update_of_ne h ..

end State

/-! ## 2. The list -/

/-- `element_node_key`: `idx` read as an `int`. -/
def key (req : Request) : Int := (BitVec.ofNat 32 req.idx).toInt

/-- `list_insert_sort`: before the first node with a greater key. -/
def listInsertSort (req : Request) : List Request → List Request
  | [] => [req]
  | p :: l => if key p > key req then req :: p :: l else p :: listInsertSort req l

/-- `req->node.next`, none where it is `&list->tail`. -/
def nodeNext (req : Request) : List Request → Option Request
  | [] => none
  | p :: l => if p = req then l.head? else nodeNext req l

/-- `req->node.prev`, none where it is `&list->head`. -/
def nodePrev (req : Request) (l : List Request) : Option Request := nodeNext req l.reverse

/-- `request_nextreq`: the request and the direction the disk has then. -/
def requestNextreq (device : Device) (req : Request) : Option Request × Direct :=
  let next := nodeNext req device.requestList
  let prev := nodePrev req device.requestList
  let direct :=
    if device.direct = .up ∧ next = none then .down
    else if device.direct = .down ∧ prev = none then .up
    else device.direct
  (match direct with
    | .up => next
    | .down => prev, direct)

/-! ## 3. The call -/

/-- The request of the call a task is in. -/
def Pc.req : Pc → Option Request
  | .out => none
  | .blocked req => some req
  | .driving req => some req

def deviceGet (s : State) (dev : Nat) : Except Stop Device := do
  assert (dev < DEVICE_NR)
  assert ((s.devices dev).type != .null)
  return s.devices dev

/-- `do_request` up to the driver; `device_read` and `device_write` look the device up. -/
def doRequest (s : State) (t : Nat) (req : Request) : Except Stop State :=
  if req.type = REQ_READ ∨ req.type = REQ_WRITE then do
    let _ ← deviceGet s req.dev
    return s.setPc t (.driving req)
  else .error .panic

/-- The disk whose list a request for `dev` goes to. -/
def diskOf (s : State) (dev : Nat) : Nat :=
  if (s.devices dev).parent = 0 then dev else (s.devices dev).parent

/-- The request a call of task `t` makes; `task` is filled in when the list is not empty. -/
def requestOf (s : State) (t dev buf count idx : Nat) (flags : Int) (type : Nat) : Request :=
  { serial := s.calls, dev := diskOf s dev, type := type
    idx := (idx + (s.devices dev).start) % 2 ^ 32, count := count, flags := flags, buf := buf
    task := if (s.queue (diskOf s dev)).isEmpty then none else some t }

/-- `device_request` with the request made: into the list, and to sleep unless that was empty. -/
def enqueue (s : State) (t : Nat) (req : Request) : Except Stop State := do
  let empty := (s.queue req.dev).isEmpty
  let s := { s.setQueue req.dev (listInsertSort req (s.queue req.dev)) (s.direct req.dev) with
    calls := s.calls + 1 }
  if empty then doRequest s t req
  else
    let sched ← s.sched.taskBlock t
    return { s with sched := sched }.setPc t (.blocked req)

/-- `device_request` up to its first blocking point. -/
def deviceRequest (s : State) (t dev buf count idx : Nat) (flags : Int) (type : Nat) :
    Except Stop State := do
  let device ← deviceGet s dev
  assert (device.type == .block)
  let _ ← deviceGet s (diskOf s dev)
  enqueue s t (requestOf s t dev buf count idx flags type)

/-- `if (nextreq)`: the task of the next request is made ready. -/
def wakeNext (s : State) : Option Request → Except Stop State
  | none => .ok s
  | some next =>
    match next.task with
    | none => .error .fault
    | some w => do
      let sched ← s.sched.taskUnblock w
      return { s with sched := sched }

/-- `device_request` from the end of the transfer on. -/
def finish (s : State) (t : Nat) (req : Request) : Except Stop State := do
  let s := { s with performed := s.performed ++ [req] }
  let (nextreq, direct) := requestNextreq (s.devices req.dev) req
  assert (req ∈ s.queue req.dev)
  let s := s.setQueue req.dev ((s.queue req.dev).erase req) direct
  wakeNext ({ s with returned := s.returned ++ [req.serial] }.setPc t .out) nextreq

/-! ## 4. The tasks -/

/-- What can happen: a task asks for a transfer, runs on after it was woken, or comes back from the
    driver. -/
inductive Action where
  | request (t dev buf count idx : Nat) (flags : Int) (type : Nat)
  | resume (t : Nat)
  | complete (t : Nat)

def Enabled (s : State) : Action → Prop
  | .request t _ _ _ _ _ _ => s.pc t = .out
  | .resume t => (∃ req, s.pc t = .blocked req) ∧ s.sched.ready t = true
  | .complete t => ∃ req, s.pc t = .driving req

/-- The action, up to the next blocking point. -/
def act (s : State) : Action → Except Stop State
  | .request t dev buf count idx flags type => deviceRequest s t dev buf count idx flags type
  | .resume t =>
    match s.pc t with
    | .blocked req => doRequest s t req
    | _ => .ok s
  | .complete t =>
    match s.pc t with
    | .driving req => finish s t req
    | _ => .ok s

/-- The states reached. -/
inductive Reached : State → Prop where
  | init (type : Nat → DevType) (parent start : Nat → Nat) : Reached (init type parent start)
  | step {s s' : State} (h : Reached s) (a : Action) (ha : Enabled s a) (hs : act s a = .ok s') :
      Reached s'

end Yuios.Disk
