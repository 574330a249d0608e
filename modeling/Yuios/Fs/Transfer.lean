/-
  File:      Yuios/Fs/Transfer.lean
  Subject:   AN OPEN FILE IN USE: what `sys_read` and `sys_write` of `fs/file.c` have in common.

  The tests of the flags, the descriptor's file, the offset behind a transfer. The calls themselves are in
  `Yuios/Fs/Counts.lean`, over the machine, and in `Yuios/Fs/Seek.lean`, over machine words; there a pipe
  and a device have their own calls, which are given (`Io`).
-/
import Yuios.Fs.Process

namespace Yuios

open Lib Code

def O_ACCMODE : Nat := 3

/-- `device_read`, `device_write`, `pipe_read` and `pipe_write`: what they transfer, `none` for
    `EOF`. -/
structure Io where
  deviceRead : (dev : Nat) → Bytes → (count idx : Nat) → Code (Option Nat × Bytes)
  deviceWrite : (dev : Nat) → Bytes → (count idx : Nat) → Code (Option Nat)
  pipeRead : (inode : Nat) → Bytes → (count : Nat) → Code (Option Nat × Bytes)
  pipeWrite : (inode : Nat) → Bytes → (count : Nat) → Code (Option Nat)

/-- `(file->flags & O_ACCMODE) != O_WRONLY`: past the test of `sys_read`. -/
def File.readable (file : File) : Bool := file.flags &&& O_ACCMODE != O_WRONLY

/-- `(file->flags & O_ACCMODE) != O_RDONLY`: past the test of `sys_write`. -/
def File.writable (file : File) : Bool := file.flags &&& O_ACCMODE != O_RDONLY

/-- `if (len != EOF) file->offset += len;` -/
def advance (f : Nat) (len : Option Nat) : Code Unit :=
  match len with
  | none => return ()
  | some len => onFile f fun file => { file with offset := file.offset + len }

/-- `task->files[fd]`, which has to be there. -/
def openFile (fd : Nat) : Code (Nat × File) := do
  let f ← fileOf fd
  let f ← Prog.need .assertion f
  let t ← Prog.reads Kernel.tab
  return (f, t.fileTable f)

end Yuios
