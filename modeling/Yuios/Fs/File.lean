/-
  File:      Yuios/Fs/File.lean
  Subject:   OPEN FILES: the open file table of `fs/file.c`.

  A descriptor of a task is an entry of `files`; the entry is the index of a `file_t` in the
  system's table. Entries below 3 belong to the console and are never handed out.
-/
import Yuios.Fs.Syscall

namespace Yuios

open Lib Code

def Tables.setFile (t : Tables) (f : Nat) (file : File) : Tables :=
  { t with fileTable := Function.update t.fileTable f file }

/-- Change the open file `f`. -/
def onFile (f : Nat) (g : File → File) : Code Unit :=
  onTables fun t => t.setFile f (g (t.fileTable f))

/-- Change the running task. -/
def onTask (g : Task → Task) : Code Unit :=
  onTables fun t => { t with task := Function.update t.task t.running (g (t.task t.running)) }

/-- `task->files[fd]`. -/
def fileOf (fd : Nat) : Code (Option Nat) := do
  let task ← runningTask
  return task.files fd

/-- The first number from 3 below `n` with the property. -/
def firstFree (n : Nat) (p : Nat → Bool) : Option Nat :=
  ((List.range n).drop 3).find? p

/-- `task_get_fd`. -/
def taskGetFd : Code Nat := do
  let task ← runningTask
  Prog.need .panic (firstFree TASK_FILE_NR fun fd => (task.files fd).isNone)

/-- `get_file`. -/
def getFile : Code Nat := do
  let t ← Prog.reads Kernel.tab
  let f ← Prog.need .panic (firstFree FILE_NR fun f => (t.fileTable f).count == 0)
  onFile f fun file => { file with count := file.count + 1 }
  return f

/-- `put_file`. -/
def putFile (f : Nat) : Code Unit := do
  let t ← Prog.reads Kernel.tab
  assert ((t.fileTable f).count > 0)
  onFile f fun file => { file with count := file.count - 1 }
  let t ← Prog.reads Kernel.tab
  if (t.fileTable f).count = 0 then
    iput? (t.fileTable f).inode
  else
    return ()

/-- `sys_open`: the descriptor, `none` for `EOF`. -/
def sysOpen (filename : List UInt8) (flags mode : Nat) : Code (Option Nat) := do
  match ← inodeOpen filename flags mode with
  | none => return none
  | some inode =>
    let fd ← taskGetFd
    let f ← getFile
    let old ← fileOf fd
    assert old.isNone
    onTask fun t => { t with files := Function.update t.files fd (some f) }
    let imode ← descGet inode .mode
    let size ← descGet inode .size
    onFile f fun _ =>
      { inode := some inode, flags := flags, count := 1, mode := imode
        offset := if flags &&& O_APPEND ≠ 0 then size else 0 }
    return some fd

/-- `sys_creat`. -/
def sysCreat (filename : List UInt8) (mode : Nat) : Code (Option Nat) :=
  sysOpen filename (O_CREAT ||| O_TRUNC) mode

/-- `sys_close`. -/
def sysClose (fd : Nat) : Code Unit := do
  assert (fd < TASK_FILE_NR)
  match ← fileOf fd with
  | none => return ()
  | some f =>
    let t ← Prog.reads Kernel.tab
    assert (t.fileTable f).inode.isSome
    putFile f
    onTask fun t => { t with files := Function.update t.files fd none }

end Yuios
