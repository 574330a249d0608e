/-
  File:      Yuios/Fs/Process.lean
  Subject:   THE CALLS OF PROCESSES THAT TAKE AND GIVE BACK REFERENCES: `sys_chdir` and
             `sys_chroot` of `fs/namei.c`, `sys_dup`, `sys_dup2`, `sys_pipe`, `sys_stat`,
             and what `task_fork` and `task_exit` do with inodes and files.

  Page tables, the text of the working directory and the family of a process are other parts of the kernel.
-/
import Yuios.Fs.Super

namespace Yuios

open Lib Code

/-! ## 1. Directories -/

/-- `sys_chdir`. -/
def sysChdir (pathname : List UInt8) : Code Bool := do
  let task ← runningTask
  match ← namei pathname with
  | none => return false
  | some inode =>
    let mode ← descGet inode .mode
    if !ISDIR mode ∨ inode = task.ipwd then
      iput inode
      return false
    else
      iput task.ipwd
      onTask fun t => { t with ipwd := inode }
      return true

/-- `sys_chroot`. -/
def sysChroot (pathname : List UInt8) : Code Bool := do
  let task ← runningTask
  match ← namei pathname with
  | none => return false
  | some inode =>
    let mode ← descGet inode .mode
    if !ISDIR mode ∨ inode = task.iroot then
      iput inode
      return false
    else
      iput task.iroot
      onTask fun t => { t with iroot := inode }
      return true

/-- A `stat_t`. -/
structure Stat where
  dev : Int
  nr : Nat
  mode : Nat
  nlinks : Nat
  uid : Nat
  gid : Nat
  rdev : Nat
  size : Nat
  mtime : Nat

/-- `copy_stat`. -/
def copyStat (inode : Nat) : Code Stat := do
  let ino ← inodeAt inode
  let mode ← descGet inode .mode
  let nlinks ← descGet inode .nlinks
  let uid ← descGet inode .uid
  let gid ← descGet inode .gid
  let rdev ← descGet inode (.zone 0)
  let size ← descGet inode .size
  let mtime ← descGet inode .mtime
  return ⟨ino.dev, ino.nr, mode, nlinks, uid, gid, rdev, size, mtime⟩

/-- `sys_stat`. -/
def sysStat (filename : List UInt8) : Code (Option Stat) := do
  match ← namei filename with
  | none => return none
  | some inode =>
    let stat ← copyStat inode
    iput inode
    return some stat

/-! ## 2. Descriptors -/

/-- `dupfd`: the first free descriptor from `arg` on. -/
def dupfd (fd arg : Nat) : Code (Option Nat) := do
  let task ← runningTask
  if fd ≥ TASK_FILE_NR then
    return none
  else
    match task.files fd with
    | none => return none
    | some f =>
      match ((List.range TASK_FILE_NR).drop arg).find? fun i => (task.files i).isNone with
      | none => return none
      | some arg =>
        onTask fun t => { t with files := Function.update t.files arg (some f) }
        onFile f fun file => { file with count := file.count + 1 }
        return some arg

/-- `sys_dup`. -/
def sysDup (oldfd : Nat) : Code (Option Nat) := dupfd oldfd 0

/-- `sys_dup2`. -/
def sysDup2 (oldfd newfd : Nat) : Code (Option Nat) := do
  sysClose newfd
  dupfd oldfd newfd

/-- `get_pipe_inode`: the device `-2` is none, but not a free slot's either. -/
def getPipeInode : Code Nat := do
  let x ← getFreeInode
  onInode x fun i => { i with dev := -2, count := 2, pipe := true }
  return x

/-- `task->files[fd] = get_file()` for a free descriptor `fd`. -/
def newFile : Code (Nat × Nat) := do
  let fd ← taskGetFd
  let f ← getFile
  onTask fun t => { t with files := Function.update t.files fd (some f) }
  return (fd, f)

def O_WRONLY : Nat := 1

/-- `sys_pipe`. -/
def sysPipe : Code (Nat × Nat) := do
  let inode ← getPipeInode
  let (fd₀, f₀) ← newFile
  let (fd₁, f₁) ← newFile
  onFile f₀ fun file => { file with inode := some inode, flags := O_RDONLY }
  onFile f₁ fun file => { file with inode := some inode, flags := O_WRONLY }
  return (fd₀, fd₁)

/-! ## 3. Processes -/

/-- `task->iexec` of the running task. -/
def runningExec : Call (Option Nat) := Prog.reads fun S => S.iexec S.kernel.tab.running

/-- `get_free_task`. -/
def getFreeTask : Call Nat := do
  let S ← Prog.read
  Prog.need .panic ((List.range NR_TASKS).find? fun p => S.state p == .free)

/-- `task_fork`: the child's descriptors are the parent's. -/
def taskFork : Call Nat := do
  let child ← getFreeTask
  let task ← runningTask
  let exec ← runningExec
  Prog.modify fun S =>
    { S with
      kernel := { S.kernel with
        tab := { S.kernel.tab with task := Function.update S.kernel.tab.task child task } }
      iexec := Function.update S.iexec child exec
      state := Function.update S.state child .alive }
  onInode task.ipwd fun i => { i with count := i.count + 1 }
  onInode task.iroot fun i => { i with count := i.count + 1 }
  exec.forM fun x => onKernel (onInode x fun i => { i with count := i.count + 1 })
  (List.range TASK_FILE_NR).forM fun fd =>
    (task.files fd).forM fun f => onKernel (onFile f fun file => { file with count := file.count + 1 })
  return child

/-- `task_exit`: the process is dead before it gives back what it holds. -/
def taskExit : Call Unit := do
  Prog.modify fun S => { S with state := Function.update S.state S.kernel.tab.running .died }
  let task ← runningTask
  let exec ← runningExec
  iput task.ipwd
  iput task.iroot
  iput? exec
  (List.range TASK_FILE_NR).forM fun fd => onKernel (sysClose fd)

end Yuios
