/-
  File:      Yuios/Kernel/Program.lean
  Subject:   STARTING A PROGRAM: `sys_execve` and `load_elf` of `kernel/execve.c`, over the file system and over
             the memory of the caller.

  The kernel keeps the headers of the file in the memory of the process, next to the segments it loads, and
  reads them there again and again. Every access is one to a page: it faults where the page is not there.

  * `Image` -- `task->name`, what the pages show, and the address space with `brk` and `end`.
  * `touch` -- the faults of an access of the kernel.
  * `loadElf`, `loadProgram`, `sysExecve` -- the model.
-/
import Yuios.Fs.Process
import Yuios.Kernel.StackImage

namespace Yuios.Execve

open Lib Code

def TASK_NAME_LEN : Nat := 16
def ET_EXEC : Nat := 2
def EM_386 : Nat := 3
def EV_CURRENT : Nat := 1
def PT_LOAD : Nat := 1

/-- The sizes of `Elf32_Ehdr` and `Elf32_Phdr`. -/
def EHDR_SIZE : Nat := 52
def PHDR_SIZE : Nat := 32

/-- What a process has that `sys_execve` replaces; `memory` holds the bytes its pages show. -/
structure Image where
  name : Bytes
  memory : Bytes
  mem : Paging.Mem
  proc : Paging.Proc

namespace Image

/-- The address space. -/
def space (im : Image) : Paging.Space := ⟨im.mem, im.proc.pde⟩

def setSpace (im : Image) (S : Paging.Space) : Image :=
  { im with mem := S.mem, proc := { im.proc with pde := S.pde } }

/-- A program header of the program in memory. -/
def phdr (im : Image) (ptr : Nat) : Paging.Phdr where
  vaddr := fetch im.memory (ptr + 8) 4
  filesz := fetch im.memory (ptr + 16) 4
  memsz := fetch im.memory (ptr + 20) 4
  writable := fetch im.memory (ptr + 24) 4 &&& Paging.PF_W ≠ 0
  align := fetch im.memory (ptr + 28) 4

end Image

/-! ## 1. Accesses -/

/-- The kernel reads or writes page `idx`. Nothing happens where the page is there, and `page_fault` is
    called where it is not. At an address that is not the user's the kernel changes its own memory or
    ends the task: the model stops. -/
def touchPage (im : Image) (idx : Nat) : Except Stop Image :=
  let page := Paging.PAGE idx
  if Paging.USER_EXEC_ADDR ≤ page && page < Paging.USER_STACK_TOP && im.space.mapped page then
    .ok im
  else
    match Paging.pageFault im.mem im.proc page false true with
    | .error e => .error e
    | .ok none => .error .fault
    | .ok (some (mem, proc)) => .ok { im with mem, proc }

def touchPages : (n idx : Nat) → Image → Except Stop Image
  | 0, _, im => return im
  | n + 1, idx, im => do
    let im ← touchPage im idx
    touchPages n (idx + 1) im

/-- It reads or writes the `n` bytes from `addr` on. -/
def touch (im : Image) (addr n : Nat) : Except Stop Image :=
  if n = 0 then .ok im
  else touchPages (Paging.IDX (addr + n - 1) + 1 - Paging.IDX addr) (Paging.IDX addr) im

/-- `inode_read` to the address `addr`. -/
def readTo (inode : Nat) (im : Image) (addr len offset : Nat) : Code (Option Nat × Image) := do
  let (n, buf) ← inodeRead inode (fun j => im.memory (addr + j)) len offset
  let im ← Code.lift (touch im addr (n.getD 0))
  return (n, { im with memory := copyIn im.memory addr buf (n.getD 0) })

/-- `memset` of `n` bytes from `addr` on to zero. -/
def clear (im : Image) (addr n : Nat) : Except Stop Image := do
  let im ← touch im addr n
  return { im with memory := copyIn im.memory addr (fun _ => 0) n }

/-! ## 2. The program file -/

/-- `elf_validate` of the header at `addr`. -/
def elfValidate (memory : Bytes) (addr : Nat) : Bool :=
  ([0o177, 69, 76, 70, 1, 1, 1].zipIdx.all fun (c, i) => memory (addr + i) == c) &&
    fetch memory (addr + 16) 2 == ET_EXEC && fetch memory (addr + 18) 2 == EM_386 &&
    fetch memory (addr + 20) 4 == EV_CURRENT && fetch memory (addr + 42) 2 == PHDR_SIZE

/-- `load_segment`: the program header at `ptr` is read again after the file, and after the zeros. -/
def loadSegment (inode : Nat) (im : Image) (ptr : Nat) : Code Image := do
  let im ← Code.lift (touch im ptr PHDR_SIZE)
  let ph := im.phdr ptr
  let (mem, proc) ← Code.lift (Paging.loadSegment im.mem im.proc ptr ph)
  let im := { im with mem, proc }
  let (_, im) ← readTo inode im ph.vaddr ph.filesz (fetch im.memory (ptr + 4) 4)
  let read := im.phdr ptr
  let im ← Code.lift (if read.filesz < read.memsz then
      clear im ((ph.vaddr + read.filesz) % 2 ^ 32) (read.memsz - read.filesz)
    else .ok im)
  let (mem, proc) ← Code.lift (Paging.endSegment im.mem im.proc
    { ph with writable := (im.phdr ptr).writable })
  return { im with mem, proc }

/-- `e_phnum` of the program in memory. -/
def phnum (memory : Bytes) : Nat := fetch memory (Paging.USER_EXEC_ADDR + 44) 2

/-- The loop of `load_elf` in round `i`: only a segment that is loaded moves `ptr` on. -/
def loadSegments (inode : Nat) : (fuel : Nat) → Image → (i ptr : Nat) → Code Image
  | 0, _, _, _ => Prog.stop .outOfBuffer
  | fuel + 1, im, i, ptr => do
    if phnum im.memory ≤ i then
      return im
    else
      let im ← Code.lift (touch im ptr 4)
      if fetch im.memory ptr 4 ≠ PT_LOAD then
        loadSegments inode fuel im (i + 1) ptr
      else
        let im ← loadSegment inode im ptr
        loadSegments inode fuel im (i + 1) (ptr + PHDR_SIZE)

/-- More rounds than a 16-bit `e_phnum` allows. -/
def ROUNDS : Nat := 2 ^ 16

/-- `ehdr->e_entry`: a header can have `EOF` there. -/
def entryPoint (memory : Bytes) : Option Nat :=
  let entry := fetch memory (Paging.USER_EXEC_ADDR + 24) 4
  if entry = EOF then none else some entry

/-- `load_elf` behind `elf_validate`. -/
def loadHeaders (inode : Nat) (im : Image) : Code (Option Nat × Image) := do
  let phdr := Paging.USER_EXEC_ADDR + EHDR_SIZE
  let (_, im) ← readTo inode im phdr (phnum im.memory * PHDR_SIZE)
    (fetch im.memory (Paging.USER_EXEC_ADDR + 28) 4)
  let im ← loadSegments inode ROUNDS im 0 phdr
  return (entryPoint im.memory, im)

/-- `load_elf`: the entry point, `none` for `EOF`. -/
def loadElf (inode : Nat) (im : Image) : Code (Option Nat × Image) := do
  let S ← Code.lift (Paging.linkPage im.space Paging.USER_EXEC_ADDR)
  let (n, im) ← readTo inode (im.setSpace S) Paging.USER_EXEC_ADDR EHDR_SIZE 0
  assert (n = some EHDR_SIZE)
  if !elfValidate im.memory Paging.USER_EXEC_ADDR then
    return (none, im)
  else
    loadHeaders inode im

/-- What `sys_execve` does with the file, once the arguments are on the stack and the heap is freed. -/
def loadProgram (inode : Nat) (im : Image) : Code (Option Nat × Image) := do
  match ← loadElf inode im with
  | (none, im) => return (none, im)
  | (some entry, im) =>
    let (mem, proc, _) ← Code.lift (Paging.sysBrk im.mem im.proc im.proc.end_)
    return (some entry, { im with mem, proc })

/-! ## 3. The call -/

/-- The faults of the copy to the stack: `n` pages from `page` on are linked. -/
def linkStack : (n page : Nat) → Paging.Space → Except Stop Paging.Space
  | 0, _, S => return S
  | n + 1, page, S => do
    let S ← Paging.linkPage S page
    linkStack n (page + Paging.PAGE_SIZE) S

/-- `copy_argv_envp` of the caller. -/
def copyArgs (im : Image) (pages argvk : Bytes) (filename : CString) (argv envp : Strings) :
    Except Stop (Nat × Image) := do
  let (top, memory) ← copyArgvEnvp pages argvk filename argv envp im.memory
  let first := Paging.IDX top
  let S ← linkStack (Paging.IDX Paging.USER_STACK_TOP - first) (Paging.PAGE first) im.space
  return (top, { im.setSpace S with memory })

/-- `task->end = USER_EXEC_ADDR; sys_brk(USER_EXEC_ADDR);` -- the pages that are gone will show what the
    frames hold that come in their place. -/
def freeHeap (im : Image) (stale : Bytes) : Except Stop Image := do
  let proc := { im.proc with end_ := Paging.USER_EXEC_ADDR }
  let (mem, proc, _) ← Paging.sysBrk im.mem proc Paging.USER_EXEC_ADDR
  let memory : Bytes := fun a =>
    if Paging.USER_EXEC_ADDR ≤ a ∧ a < im.proc.brk then stale a else im.memory a
  return { im with memory, mem, proc }

/-- `sys_execve`: where the program begins and its stack pointer, `none` for `EOF`. `alloc_kpage` leaves
    `pages` and `argvk`. -/
def sysExecve (im : Image) (pages argvk stale : Bytes) (filename : CString) (argv envp : Strings) :
    Call (Option (Nat × Nat) × Image) := do
  match ← namei filename with
  | none => return (none, im)
  | some inode =>
    let mode ← descGet inode .mode
    let ok ← permission inode P_EXEC
    if !ISFILE mode ∨ !ok then
      iput inode
      return (none, im)
    else
      let im := { im with name := strncpy 0 filename TASK_NAME_LEN im.name }
      let (top, im) ← (Code.lift (copyArgs im pages argvk filename argv envp) : Code _)
      let im ← (Code.lift (freeHeap im stale) : Code _)
      match ← loadProgram inode im with
      | (none, im) =>
        iput inode
        return (none, im)
      | (some entry, im) =>
        let old ← runningExec
        iput? old
        Prog.modify fun S =>
          { S with iexec := Function.update S.iexec S.kernel.tab.running (some inode) }
        return (some (entry, top), im)

end Yuios.Execve
