/-
  File:      Yuios/Kernel/Paging.lean
  Subject:   PAGING: `kernel/memory.c` from `get_page` on, and how `kernel/execve.c` loads a program.

  The kernel runs with interrupts off, so a call is one step, except where it waits for a disk: a
  segment is loaded in several (`Proc.segment`), and so is the file of `sys_mmap` (`kernelStore`).

  * Addresses are numbers; a frame is 1024 words, and a `Word` is a `page_entry_t` where a frame is a
    page table, and four bytes of data where it is not; a store is one of a whole word.
  * `Proc.pde` is the page directory: slots 0 to 3 are the kernel's, and slot 1023, which maps the
    directory itself, shows up only as the addresses from `SELF_MAP` on.
  * The page that `copy_page` links at address 0 while it copies is left out, and so is the cache of
    translations: every change of an entry in use is followed by a flush.
-/
import Mathlib.Data.Finset.Erase
import Mathlib.Data.Finset.Insert
import Mathlib.Logic.Function.Basic
import Yuios.Fs.Bitmap
import Yuios.Kernel.Block

namespace Yuios.Paging

def PAGE_SIZE : Nat := 0x1000
def MEMORY_BASE : Nat := 0x100000
def KERNEL_MEMORY_SIZE : Nat := 0x1000000
def USER_EXEC_ADDR : Nat := KERNEL_MEMORY_SIZE
def USER_MMAP_ADDR : Nat := 0x8000000
def USER_MMAP_SIZE : Nat := 0x8000000
def USER_STACK_TOP : Nat := 0x10000000
def USER_STACK_SIZE : Nat := 0x200000
def USER_STACK_BOTTOM : Nat := USER_STACK_TOP - USER_STACK_SIZE

/-- Where the last slot of a directory shows the page tables (`PDE_MASK`). -/
def SELF_MAP : Nat := 0xffc00000

/-- The user's slots of a directory. -/
def FIRST_SLOT : Nat := 4
def LAST_SLOT : Nat := 1023

def IDX (addr : Nat) : Nat := addr / PAGE_SIZE
def PAGE (idx : Nat) : Nat := idx * PAGE_SIZE
def DIDX (addr : Nat) : Nat := addr / 2 ^ 22 % 1024
def TIDX (addr : Nat) : Nat := addr / 2 ^ 12 % 1024

/-- The number of the word in its page. -/
def WIDX (addr : Nat) : Nat := addr / 4 % 1024

/-- `div_round_up`, in 32 bits. -/
def divRoundUp (num size : Nat) : Nat := (num + size - 1) % 2 ^ 32 / size

/-! ## 1. Memory -/

/-- A `page_entry_t`; `flags` are the bits from `pwt` to `global`, which no code reads. -/
structure Word where
  present : Bool
  write : Bool
  user : Bool
  flags : Nat
  shared : Bool
  privat : Bool
  readonly : Bool
  index : Nat
  deriving DecidableEq

/-- A word of zeros. -/
def Word.zero : Word := ⟨false, false, false, 0, false, false, false, 0⟩

/-- The word as a number. -/
def Word.bits (w : Word) : Nat :=
  w.present.toNat + 2 * w.write.toNat + 4 * w.user.toNat + 8 * (w.flags % 64) +
    512 * w.shared.toNat + 1024 * w.privat.toNat + 2048 * w.readonly.toNat + 4096 * (w.index % 2 ^ 20)

/-- `entry_init`. -/
def entryInit (index : Nat) : Word := { Word.zero with present := true, write := true, user := true, index }

/-- The frame an entry names. -/
def target (e : Word) : Option Nat := if e.present then some e.index else none

/-- Physical memory: `total_pages`, `start_page`, `free_pages`, `memory_map` and the frames. -/
structure Mem where
  totalPages : Nat
  startPage : Nat
  freePages : Nat
  memoryMap : Nat → Nat
  frame : Nat → Nat → Word

/-- A store to word `t` of a frame. -/
def Mem.setWord (m : Mem) (f t : Nat) (w : Word) : Mem :=
  { m with frame := Function.update m.frame f (Function.update (m.frame f) t w) }

/-- `memcpy` of a whole page, and `memset` of one to zero. -/
def Mem.fill (m : Mem) (f : Nat) (r : Nat → Word) : Mem :=
  { m with frame := Function.update m.frame f r }

/-- `memory_map[f] = n`. -/
def Mem.setCount (m : Mem) (f n : Nat) : Mem :=
  { m with memoryMap := Function.update m.memoryMap f n }

/-- The search of `get_page`. -/
def firstFree (map : Nat → Nat) : (n i : Nat) → Option Nat
  | 0, _ => none
  | n + 1, i => if map i = 0 then some i else firstFree map n (i + 1)

/-- `get_page`: the frame's number. The frame is as its last owner left it. -/
def getPage (m : Mem) : Except Stop (Mem × Nat) := do
  match firstFree m.memoryMap (m.totalPages - m.startPage) m.startPage with
  | none => .error .panic
  | some i =>
    let freePages := (m.freePages + 2 ^ 32 - 1) % 2 ^ 32
    Kernel.assert (0 < freePages)
    return ({ m.setCount i 1 with freePages }, i)

/-- `put_page`. -/
def putPage (m : Mem) (idx : Nat) : Except Stop Mem := do
  Kernel.assert (m.startPage ≤ idx && idx < m.totalPages)
  Kernel.assert (1 ≤ m.memoryMap idx)
  let freePages := if m.memoryMap idx - 1 = 0 then m.freePages + 1 else m.freePages
  Kernel.assert (0 < freePages && freePages < m.totalPages)
  return { m.setCount idx (m.memoryMap idx - 1) with freePages }

/-! ## 2. An address space -/

/-- Memory and the page directory in use. -/
structure Space where
  mem : Mem
  pde : Nat → Word

/-- The entry for an address, if its table is there. -/
def Space.entry (S : Space) (vaddr : Nat) : Word := S.mem.frame (S.pde (DIDX vaddr)).index (TIDX vaddr)

/-- A store to the entry for an address. -/
def Space.setEntry (S : Space) (vaddr : Nat) (e : Word) : Space :=
  { S with mem := S.mem.setWord (S.pde (DIDX vaddr)).index (TIDX vaddr) e }

/-- `get_pte`: afterwards the table is there. -/
def getPte (S : Space) (vaddr : Nat) (create : Bool) : Except Stop Space := do
  Kernel.assert (create || (S.pde (DIDX vaddr)).present)
  if (S.pde (DIDX vaddr)).present then
    return S
  else
    let (mem, page) ← getPage S.mem
    return ⟨mem.fill page fun _ => .zero, Function.update S.pde (DIDX vaddr) (entryInit page)⟩

/-- `link_page`. -/
def linkPage (S : Space) (vaddr : Nat) : Except Stop Space := do
  Kernel.assert (vaddr % PAGE_SIZE = 0)
  let S ← getPte S vaddr true
  if (S.entry vaddr).present then
    return S
  else
    let (mem, page) ← getPage S.mem
    return { S with mem }.setEntry vaddr (entryInit page)

/-- `unlink_page`. -/
def unlinkPage (S : Space) (vaddr : Nat) : Except Stop Space := do
  Kernel.assert (vaddr % PAGE_SIZE = 0)
  if !(S.pde (DIDX vaddr)).present || !(S.entry vaddr).present then
    return S
  else
    let entry := S.entry vaddr
    let S := S.setEntry vaddr { entry with present := false }
    let mem ← putPage S.mem entry.index
    return { S with mem }

/-- `copy_page`. -/
def copyPage (m : Mem) (page : Nat) : Except Stop (Mem × Nat) := do
  let (m, paddr) ← getPage m
  return (m.fill paddr (m.frame page), paddr)

/-- What `copy_pde` makes of the entry of a page. -/
def shareEntry (entry : Word) : Word := if entry.shared then entry else { entry with write := false }

/-- The inner loop of `copy_pde`. -/
def copyEntries (pte : Nat) : (n tidx : Nat) → Mem → Except Stop Mem
  | 0, _, m => return m
  | n + 1, tidx, m =>
    let entry := m.frame pte tidx
    if !entry.present then
      copyEntries pte n (tidx + 1) m
    else do
      Kernel.assert (0 < m.memoryMap entry.index)
      let m := m.setWord pte tidx (shareEntry entry)
      Kernel.assert (m.memoryMap entry.index + 1 < 255)
      copyEntries pte n (tidx + 1) (m.setCount entry.index (m.memoryMap entry.index + 1))

/-- The outer loop of `copy_pde`: `pde` is the copy, and its tables are the running task's. -/
def copyTables : (n didx : Nat) → Mem → (pde : Nat → Word) → Except Stop (Mem × (Nat → Word))
  | 0, _, m, pde => return (m, pde)
  | n + 1, didx, m, pde =>
    let dentry := pde didx
    if !dentry.present then
      copyTables n (didx + 1) m pde
    else do
      let m ← copyEntries dentry.index 1024 0 m
      let (m, paddr) ← copyPage m dentry.index
      copyTables n (didx + 1) m (Function.update pde didx { dentry with index := paddr })

/-- `copy_pde`. -/
def copyPde (S : Space) : Except Stop (Mem × (Nat → Word)) :=
  copyTables (LAST_SLOT - FIRST_SLOT) FIRST_SLOT S.mem S.pde

/-- The inner loop of `free_pde`. -/
def freeEntries (pte : Nat) : (n tidx : Nat) → Mem → Except Stop Mem
  | 0, _, m => return m
  | n + 1, tidx, m =>
    let entry := m.frame pte tidx
    if !entry.present then
      freeEntries pte n (tidx + 1) m
    else do
      Kernel.assert (0 < m.memoryMap entry.index)
      let m ← putPage m entry.index
      freeEntries pte n (tidx + 1) m

/-- The outer loop of `free_pde`. -/
def freeTables (pde : Nat → Word) : (n didx : Nat) → Mem → Except Stop Mem
  | 0, _, m => return m
  | n + 1, didx, m =>
    let dentry := pde didx
    if !dentry.present then
      freeTables pde n (didx + 1) m
    else do
      let m ← freeEntries dentry.index 1024 0 m
      let m ← putPage m dentry.index
      freeTables pde n (didx + 1) m

/-- `free_pde`. -/
def freePde (S : Space) : Except Stop Mem := freeTables S.pde (LAST_SLOT - FIRST_SLOT) FIRST_SLOT S.mem

/-! ## 3. The calls -/

def PF_W : Nat := 2

/-- What `load_segment` reads of an `Elf32_Phdr`; `writable` is `p_flags & PF_W`. -/
structure Phdr where
  vaddr : Nat
  filesz : Nat
  memsz : Nat
  writable : Bool
  align : Nat
  deriving DecidableEq

/-- A segment that `load_segment` has linked and not yet protected. `ph` is what it has read of the header at
    `ptr` so far: the address and the number of pages stay in its variables, the sizes and the flags are read
    again behind the file. `clear` is where `memset` begins and for how many bytes, once that is known. -/
structure Segment where
  ptr : Nat
  ph : Phdr
  clear : Option (Nat × Nat)

/-- The fields of a `task_t`. -/
structure Proc where
  pde : Nat → Word
  vmap : Bitmap
  brk : Nat
  end_ : Nat
  segment : Option Segment

/-- `prot & PROT_WRITE`, `flags & MAP_SHARED` and `flags & MAP_PRIVATE` of `sys_mmap`. -/
structure MapFlags where
  write : Bool
  shared : Bool
  privat : Bool

/-- `scan_page`. -/
def scanPage (map : Bitmap) (count : Nat) : Except Stop (Nat × Bitmap) := do
  Kernel.assert (0 < count)
  match ← bitmapScan map count with
  | none => .error .panic
  | some (index, map) => return (PAGE index, map)

/-- The entry of a page that `sys_mmap` maps. -/
def mapEntry (fl : MapFlags) (e : Word) : Word :=
  { e with user := true, write := fl.write, readonly := !fl.write, shared := e.shared || fl.shared,
           privat := e.privat || fl.privat }

/-- The loop of `sys_mmap`. -/
def mmapPages (fl : MapFlags) : (n page : Nat) → Space → Bitmap → Except Stop (Space × Bitmap)
  | 0, _, S, vmap => return (S, vmap)
  | n + 1, page, S, vmap => do
    let S ← linkPage S page
    let vmap ← bitmapSet vmap (IDX page) true
    let S ← getPte S page false
    mmapPages fl n (page + PAGE_SIZE) (S.setEntry page (mapEntry fl (S.entry page))) vmap

/-- Where `sys_mmap` maps. -/
def mmapAddr (q : Proc) (addr count : Nat) : Except Stop (Nat × Bitmap) :=
  if addr = 0 then scanPage q.vmap count else .ok (addr, q.vmap)

/-- `sys_mmap` up to the read of the file: the address. -/
def sysMmap (m : Mem) (q : Proc) (addr length : Nat) (fl : MapFlags) :
    Except Stop (Mem × Proc × Nat) := do
  Kernel.assert (addr % PAGE_SIZE = 0)
  let count := divRoundUp length PAGE_SIZE
  let (vaddr, vmap) ← mmapAddr q addr count
  Kernel.assert (USER_MMAP_ADDR ≤ vaddr && vaddr < USER_STACK_BOTTOM)
  let (S, vmap) ← mmapPages fl count vaddr ⟨m, q.pde⟩ vmap
  return (S.mem, { q with pde := S.pde, vmap }, vaddr)

/-- The loop of `sys_munmap`. -/
def munmapPages : (n page : Nat) → Space → Bitmap → Except Stop (Space × Bitmap)
  | 0, _, S, vmap => return (S, vmap)
  | n + 1, page, S, vmap => do
    let S ← unlinkPage S page
    let set ← bitmapTest vmap (IDX page)
    Kernel.assert set
    let vmap ← bitmapSet vmap (IDX page) false
    munmapPages n (page + PAGE_SIZE) S vmap

/-- `sys_munmap`. -/
def sysMunmap (m : Mem) (q : Proc) (addr length : Nat) : Except Stop (Mem × Proc × Int) := do
  Kernel.assert (USER_MMAP_ADDR ≤ addr && addr < USER_STACK_BOTTOM)
  Kernel.assert (addr % PAGE_SIZE = 0)
  let (S, vmap) ← munmapPages (divRoundUp length PAGE_SIZE) addr ⟨m, q.pde⟩ q.vmap
  return (S.mem, { q with pde := S.pde, vmap }, 0)

/-- The loop of `sys_brk`. -/
def unlinkPages : (n page : Nat) → Space → Except Stop Space
  | 0, _, S => return S
  | n + 1, page, S => do
    let S ← unlinkPage S page
    unlinkPages n (page + PAGE_SIZE) S

/-- `sys_brk`; the task is a user's. -/
def sysBrk (m : Mem) (q : Proc) (brk : Nat) : Except Stop (Mem × Proc × Int) := do
  Kernel.assert (brk % PAGE_SIZE = 0)
  Kernel.assert (q.end_ ≤ brk && brk ≤ USER_MMAP_ADDR)
  if brk < q.brk then
    let S ← unlinkPages (divRoundUp (q.brk - brk) PAGE_SIZE) brk ⟨m, q.pde⟩
    return (S.mem, { q with pde := S.pde, brk }, 0)
  else if m.freePages < IDX (brk - q.brk) then
    return (m, q, -1)
  else
    return (m, { q with brk }, 0)

/-- `page_fault`: nothing where it ends the task. `present` and `write` are bits of the error code. -/
def pageFault (m : Mem) (q : Proc) (vaddr : Nat) (present write : Bool) :
    Except Stop (Option (Mem × Proc)) := do
  if vaddr < USER_EXEC_ADDR || USER_STACK_TOP ≤ vaddr then
    return none
  else if present then
    Kernel.assert write
    let S ← getPte ⟨m, q.pde⟩ vaddr false
    let entry := S.entry vaddr
    Kernel.assert entry.present
    Kernel.assert (!entry.shared)
    Kernel.assert (!entry.readonly)
    Kernel.assert (0 < S.mem.memoryMap entry.index)
    if S.mem.memoryMap entry.index = 1 then
      return some ((S.setEntry vaddr { entry with write := true }).mem, q)
    else
      let (mem, paddr) ← copyPage S.mem entry.index
      let mem := mem.setCount entry.index (mem.memoryMap entry.index - 1)
      return some (({ S with mem }.setEntry vaddr (entryInit paddr)).mem, q)
  else if vaddr < q.brk || USER_STACK_BOTTOM ≤ vaddr then
    let S ← linkPage ⟨m, q.pde⟩ (PAGE (IDX vaddr))
    return some (S.mem, { q with pde := S.pde })
  else
    .error .panic

/-- The first loop of `load_segment`. -/
def linkSegment : (n addr : Nat) → Space → Except Stop Space
  | 0, _, S => return S
  | n + 1, addr, S => do
    Kernel.assert (USER_EXEC_ADDR ≤ addr && addr < USER_MMAP_ADDR)
    let S ← linkPage S addr
    linkSegment n (addr + PAGE_SIZE) S

/-- The pages of a segment. -/
def Phdr.pages (ph : Phdr) : Nat := divRoundUp (max ph.memsz ph.filesz) PAGE_SIZE

/-- `load_segment` up to the read of the file; `ph` is the header at `ptr`. -/
def loadSegment (m : Mem) (q : Proc) (ptr : Nat) (ph : Phdr) : Except Stop (Mem × Proc) := do
  Kernel.assert (ph.align = 0x1000)
  Kernel.assert (ph.vaddr % PAGE_SIZE = 0)
  let S ← linkSegment ph.pages ph.vaddr ⟨m, q.pde⟩
  return (S.mem, { q with pde := S.pde, segment := some ⟨ptr, ph, none⟩ })

/-- The sizes are read again: `ph` is the header now. -/
def Segment.again (sg : Segment) (ph : Phdr) : Segment :=
  { sg with clear := some ((sg.ph.vaddr + ph.filesz) % 2 ^ 32, ph.memsz - ph.filesz) }

/-- The second loop of `load_segment`. -/
def protectSegment : (n addr : Nat) → Space → Except Stop Space
  | 0, _, S => return S
  | n + 1, addr, S => do
    let S ← getPte S addr false
    let S := S.setEntry addr { S.entry addr with write := false, readonly := true }
    protectSegment n (addr + PAGE_SIZE) S

/-- The end of `load_segment`. -/
def endSegment (m : Mem) (q : Proc) (ph : Phdr) : Except Stop (Mem × Proc) := do
  let S ← protectSegment (if ph.writable then 0 else ph.pages) ph.vaddr ⟨m, q.pde⟩
  let end_ := max q.end_ (ph.vaddr + ph.pages * PAGE_SIZE)
  return (S.mem, { q with pde := S.pde, end_, segment := none })

/-- `sys_execve` before the first segment: the heap is freed and the page for the headers linked. -/
def execve (m : Mem) (q : Proc) : Except Stop (Mem × Proc) := do
  let (m, q, _) ← sysBrk m { q with end_ := USER_EXEC_ADDR } USER_EXEC_ADDR
  let S ← linkPage ⟨m, q.pde⟩ USER_EXEC_ADDR
  return (S.mem, { q with pde := S.pde })

/-! ## 4. Loads and stores -/

/-- The address has a page. -/
def Space.mapped (S : Space) (vaddr : Nat) : Bool :=
  (S.pde (DIDX vaddr)).present && (S.entry vaddr).present

/-- The user may write there: the directory and the table say so. -/
def Space.mayWrite (S : Space) (vaddr : Nat) : Bool :=
  (S.pde (DIDX vaddr)).write && (S.pde (DIDX vaddr)).user && (S.entry vaddr).write &&
    (S.entry vaddr).user

/-- What is read at an address. -/
def Space.read (S : Space) (v : Nat) : Option Word :=
  if S.mapped v then some (S.mem.frame (S.entry v).index (WIDX v)) else none

/-- The program header at `ptr`, which is in the program's memory: `load_elf` keeps the headers there. -/
def headerAt (read : Nat → Option Word) (ptr : Nat) : Option Phdr :=
  if USER_EXEC_ADDR ≤ ptr && ptr < USER_MMAP_ADDR then do
    let vaddr ← read (ptr + 8)
    let filesz ← read (ptr + 16)
    let memsz ← read (ptr + 20)
    let flags ← read (ptr + 24)
    let align ← read (ptr + 28)
    return { vaddr := vaddr.bits, filesz := filesz.bits, memsz := memsz.bits,
             writable := flags.bits &&& PF_W ≠ 0, align := align.bits }
  else
    none

/-- A store to the page at an address. -/
def Space.put (S : Space) (vaddr : Nat) (w : Word) : Mem :=
  S.mem.setWord (S.entry vaddr).index (WIDX vaddr) w

/-- A load: it faults where there is no page. -/
def load (m : Mem) (q : Proc) (vaddr : Nat) : Except Stop (Option (Mem × Proc)) :=
  if SELF_MAP ≤ vaddr || Space.mapped ⟨m, q.pde⟩ vaddr then
    .ok (some (m, q))
  else
    pageFault m q vaddr false false

/-- A store behind the directory's last slot: to the directory itself or to a table, if that is there. -/
def tableStore (m : Mem) (q : Proc) (vaddr : Nat) (w : Word) : Option (Mem × Proc) :=
  let didx := TIDX vaddr
  if didx = LAST_SLOT then
    some (m, { q with pde := Function.update q.pde (WIDX vaddr) w })
  else if (q.pde didx).present then
    some (m.setWord (q.pde didx).index (WIDX vaddr) w, q)
  else
    none

/-- A store in user mode: the kernel's pages are not the user's, and elsewhere both entries must
    allow it. `entry_init` lets the user into the tables behind the directory's last slot as well. -/
def userStore (m : Mem) (q : Proc) (vaddr : Nat) (w : Word) : Except Stop (Option (Mem × Proc)) :=
  let S : Space := ⟨m, q.pde⟩
  if SELF_MAP ≤ vaddr then
    .ok (if TIDX vaddr < FIRST_SLOT then none else tableStore m q vaddr w)
  else if vaddr < USER_EXEC_ADDR then
    pageFault m q vaddr true true
  else if S.mapped vaddr then
    if S.mayWrite vaddr then
      .ok (some (S.put vaddr w, q))
    else
      pageFault m q vaddr true true
  else
    pageFault m q vaddr false true

/-- Byte `k` of a word. -/
def Word.byte (w : Word) (k : Nat) : Nat := w.bits / 256 ^ k % 256

/-- A store in kernel mode: with `CR0.WP` clear the processor does not look at `write`. Of the
    kernel's own memory the model has `memory_map`, and of its tables nothing. -/
def kernelStore (m : Mem) (q : Proc) (vaddr : Nat) (w : Word) : Except Stop (Option (Mem × Proc)) :=
  let S : Space := ⟨m, q.pde⟩
  if vaddr < USER_EXEC_ADDR then
    if MEMORY_BASE ≤ vaddr && vaddr + 4 ≤ MEMORY_BASE + m.totalPages then
      let f := vaddr - MEMORY_BASE
      .ok (some ((((m.setCount f (w.byte 0)).setCount (f + 1) (w.byte 1)).setCount (f + 2)
        (w.byte 2)).setCount (f + 3) (w.byte 3), q))
    else
      .error .outOfBuffer
  else if SELF_MAP ≤ vaddr then
    if TIDX vaddr < FIRST_SLOT then .error .outOfBuffer else .ok (tableStore m q vaddr w)
  else if S.mapped vaddr then
    .ok (some (S.put vaddr w, q))
  else
    pageFault m q vaddr false true

namespace Segment

/-- Where word `i` of the file goes. -/
def word (sg : Segment) (i : Nat) : Nat := (sg.ph.vaddr + 4 * i) % 2 ^ 32

/-- `w` is word `i` as the read of the file leaves it: bytes behind the segment's file bytes are as before. -/
def fills (sg : Segment) (S : Space) (i : Nat) (w : Word) : Bool :=
  4 * i < sg.ph.filesz && (S.read (sg.word i)).all fun old =>
    (List.range 4).all fun k => 4 * i + k < sg.ph.filesz || w.byte k = old.byte k

/-- `w` is the word at `v` as `memset` leaves it, which reaches one of its bytes at least. -/
def clears (sg : Segment) (S : Space) (v : Nat) (w : Word) : Bool :=
  sg.clear.any fun (start, len) =>
    let reached := fun k => (v + k + 2 ^ 32 - start) % 2 ^ 32 < len
    v % 4 = 0 && v < 2 ^ 32 && (List.range 4).any (fun k => reached k) &&
      (List.range 4).all fun k =>
        if reached k then w.byte k = 0 else (S.read v).all fun old => w.byte k = old.byte k

end Segment

/-! ## 5. The system -/

/-- `live` are the numbers of the processes there are. -/
structure State where
  mem : Mem
  procs : Nat → Option Proc
  live : Finset Nat

/-- Process `p` after a call. -/
def State.setProc (s : State) (p : Nat) (m : Mem) (q : Proc) : State :=
  { s with mem := m, procs := Function.update s.procs p (some q) }

/-- `task_to_user_mode`: no page, and an empty `vmap`. -/
def taskToUserMode : Proc where
  pde := fun _ => .zero
  vmap := ⟨fun _ => 0, USER_MMAP_SIZE / PAGE_SIZE / 8, USER_MMAP_ADDR / PAGE_SIZE, PAGE_SIZE⟩
  brk := USER_EXEC_ADDR
  end_ := USER_EXEC_ADDR
  segment := none

/-- What happens. A store by the kernel is through a pointer a call was given, or one of the words
    `memcpy` and `memset` of `load_segment` write; `load_segment` reads the program header three times, and
    `ph` is what it finds. -/
inductive Action where
  | start (c : Nat)
  | fork (p c : Nat)
  | load (p vaddr : Nat)
  | userStore (p vaddr : Nat) (w : Word)
  | kernelStore (p vaddr : Nat) (w : Word)
  | mmap (p addr length : Nat) (fl : MapFlags)
  | munmap (p addr length : Nat)
  | brk (p addr : Nat)
  | execve (p : Nat)
  | loadSegment (p ptr : Nat) (ph : Phdr)
  | segmentWord (p i : Nat) (w : Word)
  | readAgain (p : Nat) (ph : Phdr)
  | segmentZero (p vaddr : Nat) (w : Word)
  | endSegment (p : Nat) (ph : Phdr)
  | exit (p : Nat)

/-- The process that acts. -/
def Action.actor : Action → Nat
  | .start c => c
  | .fork p _ | .load p _ | .userStore p _ _ | .kernelStore p _ _ | .mmap p _ _ _ | .munmap p _ _
  | .brk p _ | .execve p | .loadSegment p _ _ | .segmentWord p _ _ | .readAgain p _ | .segmentZero p _ _
  | .endSegment p _ | .exit p => p

/-- `task_exit`: `free_pde`, and the process is no more. -/
def taskExit (s : State) (p : Nat) (q : Proc) : Except Stop State := do
  let m ← freePde ⟨s.mem, q.pde⟩
  return { mem := m, procs := Function.update s.procs p none, live := s.live.erase p }

/-- The state after an access, which may have ended the process. -/
def accessed (s : State) (p : Nat) (q : Proc) : Option (Mem × Proc) → Except Stop State
  | none => taskExit s p q
  | some (m, q') => .ok (s.setProc p m q')

/-- A new process. -/
def born (s : State) (m : Mem) (c : Nat) (q : Proc) : State :=
  ⟨m, Function.update s.procs c (some q), insert c s.live⟩

/-- The segment that process `p` is loading, and the memory it is loaded to, are as `c` says. -/
def State.loads (s : State) (p : Nat) (c : Space → Segment → Bool) : Bool :=
  (s.procs p).any fun q => q.segment.any fun sg => c ⟨s.mem, q.pde⟩ sg

/-- When an action can happen: a new process gets a free number; a segment is loaded and cleared word by word,
    and a program header that is read is the one in memory. -/
def Enabled (s : State) : Action → Bool
  | .start c => (s.procs c).isNone
  | .fork _ c => (s.procs c).isNone
  | .loadSegment p ptr ph => (s.procs p).any fun q =>
    q.segment.isNone && headerAt (Space.read ⟨s.mem, q.pde⟩) ptr = some ph
  | .segmentWord p i w => s.loads p fun S sg => sg.clear.isNone && sg.fills S i w
  | .readAgain p ph => s.loads p fun S sg => sg.clear.isNone && headerAt S.read sg.ptr = some ph
  | .segmentZero p vaddr w => s.loads p fun S sg => sg.clears S vaddr w
  | .endSegment p ph => s.loads p fun S sg => sg.clear.isSome && headerAt S.read sg.ptr = some ph
  | _ => true

/-- An action of the running process `p`, with its record `q`. -/
def run (s : State) (p : Nat) (q : Proc) : Action → Except Stop State
  | .start _ => .error .fault
  | .fork _ c => do
    let (m, pde) ← copyPde ⟨s.mem, q.pde⟩
    return born s m c { q with pde, segment := none }
  | .load _ vaddr => do accessed s p q (← load s.mem q vaddr)
  | .userStore _ vaddr w => do accessed s p q (← userStore s.mem q vaddr w)
  | .kernelStore _ vaddr w => do accessed s p q (← kernelStore s.mem q vaddr w)
  | .mmap _ addr length fl => do
    let (m, q, _) ← sysMmap s.mem q addr length fl
    return s.setProc p m q
  | .munmap _ addr length => do
    let (m, q, _) ← sysMunmap s.mem q addr length
    return s.setProc p m q
  | .brk _ addr => do
    let (m, q, _) ← sysBrk s.mem q addr
    return s.setProc p m q
  | .execve _ => do
    let (m, q) ← execve s.mem q
    return s.setProc p m q
  | .loadSegment _ ptr ph => do
    let (m, q) ← loadSegment s.mem q ptr ph
    return s.setProc p m q
  | .segmentWord _ i w =>
    match q.segment with
    | none => .error .fault
    | some sg => do accessed s p q (← kernelStore s.mem q (sg.word i) w)
  | .readAgain _ ph =>
    match q.segment with
    | none => .error .fault
    | some sg => return s.setProc p s.mem { q with segment := some (sg.again ph) }
  | .segmentZero _ vaddr w => do accessed s p q (← kernelStore s.mem q vaddr w)
  | .endSegment _ ph =>
    match q.segment with
    | none => .error .fault
    | some sg => do
      let (m, q) ← endSegment s.mem q { sg.ph with writable := ph.writable }
      return s.setProc p m q
  | .exit _ => taskExit s p q

/-- One action. -/
def act (s : State) : Action → Except Stop State
  | .start c => .ok (born s s.mem c taskToUserMode)
  | a => match s.procs a.actor with
      | none => .error .fault
      | some q => run s a.actor q a

/-- **The kernel after `memory_map_init` and `mapping_init`**: `pages` frames, of which the kernel has
    the first 4096; they hold whatever was in memory. -/
structure Boot (pages : Nat) (s : State) : Prop where
  enough : KERNEL_MEMORY_SIZE / PAGE_SIZE + MEMORY_BASE / PAGE_SIZE ≤ pages
  small : pages ≤ 2 ^ 20
  totalPages : s.mem.totalPages = pages
  startPage : s.mem.startPage = MEMORY_BASE / PAGE_SIZE + divRoundUp pages PAGE_SIZE
  freePages : s.mem.freePages = pages - MEMORY_BASE / PAGE_SIZE - divRoundUp pages PAGE_SIZE
  memoryMap : ∀ f, s.mem.memoryMap f = if f < KERNEL_MEMORY_SIZE / PAGE_SIZE then 1 else 0
  procs : ∀ p, s.procs p = none
  live : s.live = ∅

/-- A machine with `pages` frames whose memory is all zeros. -/
def bootState (pages : Nat) : State where
  mem :=
    { totalPages := pages
      startPage := MEMORY_BASE / PAGE_SIZE + divRoundUp pages PAGE_SIZE
      freePages := pages - MEMORY_BASE / PAGE_SIZE - divRoundUp pages PAGE_SIZE
      memoryMap := fun f => if f < KERNEL_MEMORY_SIZE / PAGE_SIZE then 1 else 0
      frame := fun _ _ => .zero }
  procs := fun _ => none
  live := ∅

theorem boot_bootState {pages : Nat}
    (h1 : KERNEL_MEMORY_SIZE / PAGE_SIZE + MEMORY_BASE / PAGE_SIZE ≤ pages) (h2 : pages ≤ 2 ^ 20) :
    Boot pages (bootState pages) :=
  ⟨h1, h2, rfl, rfl, rfl, fun _ => rfl, fun _ => rfl, rfl⟩

/-- The states of a machine with `pages` frames, reached by actions that `ok` admits. -/
inductive Run (ok : State → Action → Bool) (pages : Nat) : State → Prop where
  | boot {s : State} (h : Boot pages s) : Run ok pages s
  | step {s s' : State} (h : Run ok pages s) (a : Action) (ha : Enabled s a = true)
      (hok : ok s a = true) (hs : act s a = .ok s') : Run ok pages s'

/-- All states of the machine. -/
abbrev Reached : Nat → State → Prop := Run fun _ _ => true

/-- Actions one after the other. -/
def actAll (ok : State → Action → Bool) (s : State) : List Action → Option State
  | [] => some s
  | a :: as =>
    if Enabled s a && ok s a then
      match act s a with
      | .ok s => actAll ok s as
      | .error _ => none
    else none

theorem Run.all {ok : State → Action → Bool} {pages : Nat} {s s' : State} {as : List Action}
    (h : Run ok pages s) (hs : actAll ok s as = some s') : Run ok pages s' := by
  induction as generalizing s with
  | nil =>
    cases hs
    exact h
  | cons a as ih =>
    rw [actAll] at hs
    split at hs
    · next hen =>
        rw [Bool.and_eq_true] at hen
        split at hs
        · next s₁ ha => exact ih (h.step a hen.1 hen.2 ha) hs
        · cases hs
    · cases hs

end Yuios.Paging
