/-
  File:      Yuios/Fs/Seek.lean
  Subject:   FILE OFFSETS: `sys_open`, `sys_lseek`, `sys_read` and `sys_write` of `fs/file.c` in the
             32-bit arithmetic they are written in.

  `Yuios/Fs/Counts.lean` has the offset of an open file as a natural number. Here it is the signed
  word it is in the source, next to a `u32` size, and `bmap` tells its range assertion from the others.

  * `Machine` -- the kernel, and the word `file->offset` of every entry of the file table.
  * `inodeReadLoop_eq`, `inodeWriteLoop_eq` -- below the last block the two loops are those of
    `Yuios/Fs/Inode.lean`.
  * `Exact` -- a call moves the offset by exactly what is asked, and no other offset.
  * `Meets` -- the condition on a call.
  * **`offsets_exact`** -- in a run whose calls meet it every offset is non-negative, and a further call
    that meets it is exact and does not fail the range assertion.
-/
import Yuios.Fs.Counts
import Yuios.Fs.FullVolume
import Yuios.Fs.Holders

namespace Yuios.Seek

open Lib Prog Code

/-! ## 1. The machine -/

/-- How a call stops: at the range assertion of `bmap`, or as the rest of the kernel does. -/
inductive Fail where
  | range
  | stop (e : Stop)
  deriving DecidableEq, Repr

/-- The kernel and the `file->offset` of each open file; the offset in `File` is not used. -/
structure Machine where
  kernel : Kernel
  offset : Nat → Int32

abbrev Act := StateT Machine (Except Fail)

/-- Kernel code that does not touch an offset. -/
def kernel {α : Type} (p : Code α) : Act α := fun m =>
  match Prog.run p m.kernel with
  | .ok (a, s) => .ok (a, { m with kernel := s })
  | .error e => .error (.stop e)

/-- `file->offset`. -/
def offsetOf (f : Nat) : Act Int32 := fun m => .ok (m.offset f, m)

/-- `file->offset = offset;` -/
def setOffset (f : Nat) (offset : Int32) : Act Unit := fun m =>
  .ok ((), { m with offset := Function.update m.offset f offset })

/-- `EOF`. -/
def eof : Int32 := -1

def SEEK_SET : Nat := 1
def SEEK_CUR : Nat := 2
def SEEK_END : Nat := 3

/-! ## 2. The blocks of a file -/

/-- `bmap`, its range assertion apart. -/
def bmap (x : Nat) (block : UInt32) (create : Bool) : Act Nat :=
  if block.toNat < TOTAL_BLOCK then
    kernel (Yuios.bmap x block.toNat create)
  else
    fun _ => .error .range

/-- `offset / BLOCK_SIZE`, as an `index_t`. -/
def blockOf (offset : Int32) : UInt32 := (offset / 1024).toUInt32

/-- `u32 start = offset % BLOCK_SIZE;` -/
def startOf (offset : Int32) : UInt32 := (offset % 1024).toUInt32

/-- `u32 chars = MIN(BLOCK_SIZE - start, left);` -/
def charsOf (left : UInt32) (offset : Int32) : UInt32 :=
  if 1024 - startOf offset < left then 1024 - startOf offset else left

/-- `offset += chars;` -/
def plus (offset : Int32) (chars : UInt32) : Int32 := (offset.toUInt32 + chars).toInt32

/-- The bytes `[start, start + chars)` of the block `nr` go to `buf + done`. -/
def readBlock (x nr start chars done : Nat) (buf : Bytes) : Code Bytes := do
  assert (nr ≠ 0)
  let i ← inodeAt x
  let bf ← bread i.dev nr
  let data ← bytesOf bf
  Prog.check (start + chars ≤ BLOCK_SIZE) .outOfBuffer
  brelse bf
  return copyIn buf done (fun j => data (start + j)) chars

/-- The loop of `inode_read`. -/
def inodeReadLoop (x : Nat) : (fuel : Nat) → (left : UInt32) → (offset : Int32) → (done : Nat) →
    (buf : Bytes) → Act (Int32 × Bytes)
  | 0, _, offset, _, buf => return (offset, buf)
  | fuel + 1, left, offset, done, buf => do
    if left = 0 then
      return (offset, buf)
    else
      let nr ← bmap x (blockOf offset) false
      let chars := charsOf left offset
      let buf ← kernel (readBlock x nr (startOf offset).toNat chars.toNat done buf)
      inodeReadLoop x fuel (left - chars) (plus offset chars) (done + chars.toNat) buf

/-- `inode_read`: the offset is compared with the size as a `u32`. -/
def inodeRead (x : Nat) (buf : Bytes) (len : UInt32) (offset : Int32) : Act (Int32 × Bytes) := do
  let mode ← kernel (descGet x .mode)
  kernel (assert (ISFILE mode || ISDIR mode))
  let size ← kernel (descGet x .size)
  if offset.toUInt32 ≥ UInt32.ofNat size then
    return (eof, buf)
  else
    let most := UInt32.ofNat size - offset.toUInt32
    let left := if len < most then len else most
    let (offset', buf) ← inodeReadLoop x left.toNat left offset 0 buf
    return ((offset'.toUInt32 - offset.toUInt32).toInt32, buf)

/-- The block `nr` gets `chars` bytes of `buf` at `start`; the file ends at `offset` at least. -/
def writeBlock (x nr start chars offset : Nat) (buf : Bytes) : Code Unit := do
  assert (nr ≠ 0)
  let i ← inodeAt x
  let bf ← bread i.dev nr
  setDirty bf
  growSize x offset
  Prog.check (start + chars ≤ BLOCK_SIZE) .outOfBuffer
  poke bf fun b => copyIn b start buf chars
  within (.inodeWrite x) (brelse bf)

/-- The loop of `inode_write`. -/
def inodeWriteLoop (x : Nat) : (fuel : Nat) → (left : UInt32) → (offset : Int32) → (buf : Bytes) → Act Int32
  | 0, _, offset, _ => return offset
  | fuel + 1, left, offset, buf => do
    if left = 0 then
      return offset
    else
      let nr ← bmap x (blockOf offset) true
      let chars := charsOf left offset
      let next := plus offset chars
      kernel (writeBlock x nr (startOf offset).toNat chars.toNat next.toUInt32.toNat buf)
      inodeWriteLoop x fuel (left - chars) next fun j => buf (chars.toNat + j)

/-- `inode_write`. -/
def inodeWrite (x : Nat) (buf : Bytes) (len : UInt32) (offset : Int32) : Act Int32 := do
  let mode ← kernel (descGet x .mode)
  kernel (assert (ISFILE mode))
  let offset' ← inodeWriteLoop x len.toNat len offset buf
  let now ← kernel time
  kernel (descSet x .mtime now)
  let i ← kernel (inodeAt x)
  kernel (bwrite i.buf)
  return (offset'.toUInt32 - offset.toUInt32).toInt32

/-! ## 3. The calls -/

/-- The descriptor `fd` and the file `f` of `sys_open` get the inode; its size. -/
def install (fd f inode flags : Nat) : Code Nat := do
  let old ← fileOf fd
  assert old.isNone
  onTask fun t => { t with files := Function.update t.files fd (some f) }
  let imode ← descGet inode .mode
  onFile f fun _ => { inode := some inode, flags := flags, count := 1, mode := imode, offset := 0 }
  descGet inode .size

/-- `sys_open`. -/
def sysOpen (filename : List UInt8) (flags mode : Nat) : Act Int32 := do
  match ← kernel (inodeOpen filename flags mode) with
  | none => return eof
  | some inode =>
    let fd ← kernel taskGetFd
    let f ← kernel getFile
    let size ← kernel (install fd f inode flags)
    setOffset f (if flags &&& O_APPEND ≠ 0 then (UInt32.ofNat size).toInt32 else 0)
    return Int32.ofNat fd

/-- `sys_lseek`. The sum of `SEEK_CUR` is signed, that of `SEEK_END` unsigned, and so its assertion always
    holds. -/
def sysLseek (fd : Nat) (offset : Int32) (whence : Nat) : Act Int32 := do
  kernel (assert (fd < TASK_FILE_NR))
  let (f, file) ← kernel (openFile fd)
  let inode ← kernel (Prog.need .assertion file.inode)
  let old ← offsetOf f
  if whence = SEEK_SET then
    kernel (assert (0 ≤ offset))
    setOffset f offset
    return offset
  else if whence = SEEK_CUR then
    kernel (assert (0 ≤ old + offset))
    setOffset f (old + offset)
    return old + offset
  else if whence = SEEK_END then
    let size ← kernel (descGet inode .size)
    kernel (assert (0 ≤ UInt32.ofNat size + offset.toUInt32))
    setOffset f (UInt32.ofNat size + offset.toUInt32).toInt32
    return (UInt32.ofNat size + offset.toUInt32).toInt32
  else
    kernel (Prog.stop .panic)

/-- `if (len != EOF) file->offset += len;` -/
def advance (f : Nat) (len : Int32) : Act Unit := do
  let offset ← offsetOf f
  setOffset f (if len ≠ eof then offset + len else offset)

/-- What a call of `Io` has transferred. -/
def answer (len : Option Nat) : Int32 := len.elim eof Int32.ofNat

/-- `device_read` of a node; a block device's counts blocks. -/
def readDevice (io : Io) (inode mode : Nat) (offset : Int32) (buf : Bytes) (count : Int32) :
    Code (Int32 × Bytes) := do
  let dev ← descGet inode (.zone 0)
  assert (dev ≠ 0)
  if ISCHR mode then
    let (len, buf) ← io.deviceRead dev buf count.toUInt32.toNat 0
    return (answer len, buf)
  else
    assert (offset % 1024 = 0)
    assert (count % 1024 = 0)
    let (len, buf) ← io.deviceRead dev buf (blockOf count).toNat (blockOf offset).toNat
    return (answer len, buf)

def readPipe (io : Io) (inode : Nat) (buf : Bytes) (count : Int32) : Code (Int32 × Bytes) := do
  let (len, buf) ← io.pipeRead inode buf count.toUInt32.toNat
  return (answer len, buf)

/-- `sys_read`. -/
def sysRead (io : Io) (fd : Nat) (buf : Bytes) (count : Int32) : Act (Int32 × Bytes) := do
  let (f, file) ← kernel (openFile fd)
  kernel (assert (0 < count))
  if !file.readable then
    return (eof, buf)
  else
    let inode ← kernel (Prog.need .fault file.inode)
    let ino ← kernel (inodeAt inode)
    if ino.pipe then
      kernel (readPipe io inode buf count)
    else
      let mode ← kernel (descGet inode .mode)
      let offset ← offsetOf f
      if ISCHR mode || ISBLK mode then
        kernel (readDevice io inode mode offset buf count)
      else
        let (len, buf) ← inodeRead inode buf count.toUInt32 offset
        advance f len
        return (len, buf)

/-- `device_write` of a node. -/
def writeDevice (io : Io) (inode mode : Nat) (offset : Int32) (buf : Bytes) (count : Int32) : Code Int32 := do
  let dev ← descGet inode (.zone 0)
  assert (dev ≠ 0)
  if ISCHR mode then
    let len ← io.deviceWrite dev buf count.toUInt32.toNat 0
    return answer len
  else
    assert (offset % 1024 = 0)
    assert (count % 1024 = 0)
    let len ← io.deviceWrite dev buf (blockOf count).toNat (blockOf offset).toNat
    return answer len

def writePipe (io : Io) (inode : Nat) (buf : Bytes) (count : Int32) : Code Int32 := do
  let len ← io.pipeWrite inode buf count.toUInt32.toNat
  return answer len

/-- `sys_write`. -/
def sysWrite (io : Io) (fd : Nat) (buf : Bytes) (count : Int32) : Act Int32 := do
  let (f, file) ← kernel (openFile fd)
  kernel (assert (0 < count))
  if !file.writable then
    return eof
  else
    let inode ← kernel (Prog.need .assertion file.inode)
    let ino ← kernel (inodeAt inode)
    if ino.pipe then
      kernel (writePipe io inode buf count)
    else
      let mode ← kernel (descGet inode .mode)
      let offset ← offsetOf f
      if ISCHR mode || ISBLK mode then
        kernel (writeDevice io inode mode offset buf count)
      else
        let len ← inodeWrite inode buf count.toUInt32 offset
        advance f len
        return len

/-! ## 4. What is said of them -/

namespace Machine

/-- The file of a descriptor of the running task. -/
def entry (m : Machine) (fd : Nat) : Option Nat := (m.kernel.tab.task m.kernel.tab.running).files fd

def file (m : Machine) (f : Nat) : File := m.kernel.tab.fileTable f

/-- The size of the file that is open. -/
def size (m : Machine) (f : Nat) : Nat := (m.file f).inode.elim 0 fun x => m.kernel.desc x .size

/-- The file has blocks of its own: it is neither a pipe nor a node for a device. -/
def Plain (m : Machine) (f : Nat) : Prop :=
  ∀ x, (m.file f).inode = some x → (m.kernel.tab.inodeTable x).pipe = false ∧
    ISCHR (m.kernel.desc x .mode) = false ∧ ISBLK (m.kernel.desc x .mode) = false

/-- The offset of `f` is `z` now, and no other has moved. -/
def Moves (m : Machine) (f : Nat) (z : Int) (m' : Machine) : Prop :=
  (m'.offset f).toInt = z ∧ ∀ g, g ≠ f → m'.offset g = m.offset g

end Machine

inductive Call where
  | sysOpen (filename : List UInt8) (flags mode : Nat)
  | sysLseek (fd : Nat) (offset : Int32) (whence : Nat)
  | sysRead (fd : Nat) (buf : Bytes) (count : Int32)
  | sysWrite (fd : Nat) (buf : Bytes) (count : Int32)

/-- What the call answers. -/
def Call.run (io : Io) : Call → Act Int32
  | .sysOpen filename flags mode => Seek.sysOpen filename flags mode
  | .sysLseek fd offset whence => Seek.sysLseek fd offset whence
  | .sysRead fd buf count => Prod.fst <$> Seek.sysRead io fd buf count
  | .sysWrite fd buf count => Seek.sysWrite io fd buf count

/-- What `lseek` counts from. -/
def Machine.base (m : Machine) (f whence : Nat) : Int :=
  if whence = SEEK_SET then 0 else if whence = SEEK_CUR then (m.offset f).toInt else m.size f

/-- `r` bytes have been transferred, at most `count`, and a file's offset is as many further. -/
def Advanced (m : Machine) (f : Nat) (count r : Int32) (m' : Machine) : Prop :=
  (m.Plain f → r ≠ eof →
    0 ≤ r.toInt ∧ r.toInt ≤ count.toInt ∧ m.Moves f ((m.offset f).toInt + r.toInt) m') ∧
  (¬ m.Plain f ∨ r = eof → m.Moves f (m.offset f).toInt m')

/-- **The call moves the offset by exactly what is asked**, as integers. -/
def Call.Exact (m : Machine) (r : Int32) (m' : Machine) : Call → Prop
  | .sysOpen _ flags _ =>
    r = eof ∧ m'.offset = m.offset ∨
      ∃ fd f, r = Int32.ofNat fd ∧ m'.entry fd = some f ∧
        m.Moves f (if flags &&& O_APPEND ≠ 0 then m'.size f else 0) m'
  | .sysLseek fd offset whence =>
    ∃ f, m.entry fd = some f ∧ r = m'.offset f ∧ m.Moves f (m.base f whence + offset.toInt) m'
  | .sysRead fd _ count | .sysWrite fd _ count => ∃ f, m.entry fd = some f ∧ Advanced m f count r m'

/-- The bytes of a file that has every block. -/
def MAX_SIZE : Nat := TOTAL_BLOCK * BLOCK_SIZE

/-- **The condition on a call**: a file opened for appending is shorter than 2 GiB, a seek from the end
    stays between 0 and that, and what is read or written is below the last block a file can have. -/
def Meets (m : Machine) : Call → Prop
  | .sysOpen filename flags mode =>
    flags &&& O_APPEND ≠ 0 → ∀ x s, Ends (inodeOpen filename flags mode) m.kernel (some x) s →
      s.desc x .size < 2 ^ 31
  | .sysLseek fd offset whence =>
    whence = SEEK_END → ∀ f, m.entry fd = some f →
      0 ≤ m.size f + offset.toInt ∧ m.size f + offset.toInt < 2 ^ 31
  | .sysRead fd _ count =>
    ∀ f, m.entry fd = some f → m.Plain f → (m.file f).readable = true → (m.offset f).toInt < m.size f →
      (m.offset f).toInt + count.toInt ≤ MAX_SIZE ∨ m.size f ≤ MAX_SIZE
  | .sysWrite fd _ count =>
    ∀ f, m.entry fd = some f → m.Plain f → (m.file f).writable = true →
      (m.offset f).toInt + count.toInt ≤ MAX_SIZE

/-- Every offset is non-negative. -/
def Machine.Positive (m : Machine) : Prop := ∀ f, 0 ≤ (m.offset f).toInt

/-- **A run of accepted calls that meet a condition.** What else happens to the kernel between two of
    them, another task's turn or a file that is closed, shortened or removed, leaves the offsets. -/
inductive Reached (io : Io) (P : Machine → Call → Prop) (m₀ : Machine) : Machine → Prop where
  | start : Reached io P m₀ m₀
  | other {m : Machine} (s : Kernel) (h : Reached io P m₀ m) : Reached io P m₀ { m with kernel := s }
  | call {m m' : Machine} {c : Call} {r : Int32} (h : Reached io P m₀ m) (hc : P m c)
      (hr : c.run io m = .ok (r, m')) : Reached io P m₀ m'

/-- Past the range assertion, and a result that meets `Q` where there is one. -/
def Clear {α : Type} (p : Act α) (m : Machine) (Q : α → Machine → Prop) : Prop :=
  match p m with
  | .ok (a, m') => Q a m'
  | .error e => e ≠ .range

/-! ## 5. Rules -/

section Rules

variable {α β : Type} {m : Machine}

theorem clear_bind {p : Act α} {f : α → Act β} {Q : β → Machine → Prop}
    (h : Clear p m fun a m' => Clear (f a) m' Q) : Clear (p >>= f) m Q := by
  show Clear (StateT.bind p f) m Q
  unfold Clear StateT.bind at *
  cases hp : p m with
  | error e =>
    rw [hp] at h
    exact h
  | ok r =>
    rw [hp] at h
    exact h

theorem Clear.mono {p : Act α} {Q R : α → Machine → Prop} (h : Clear p m Q) (hQ : ∀ a m', Q a m' → R a m') :
    Clear p m R := by
  unfold Clear at *
  cases hp : p m with
  | error e =>
    rw [hp] at h
    exact h
  | ok r =>
    rw [hp] at h
    exact hQ _ _ h

theorem clear_pure {a : α} {Q : α → Machine → Prop} (h : Q a m) : Clear (pure a) m Q := h

theorem clear_kernel {p : Code α} {Q : α → Machine → Prop}
    (h : ∀ a s, Ends p m.kernel a s → Q a { m with kernel := s }) : Clear (kernel p) m Q := by
  unfold Clear kernel
  cases hp : Prog.run p m.kernel with
  | error e => exact nofun
  | ok r => exact h _ _ (ends_iff.mpr hp)

theorem clear_map {p : Act α} {g : α → β} {Q : β → Machine → Prop} (h : Clear p m fun a => Q (g a)) :
    Clear (g <$> p) m Q := by
  rw [map_eq_pure_bind]
  exact clear_bind h

/-- Kernel code, and then the rest. -/
theorem clear_then {p : Code α} {f : α → Act β} {Q : β → Machine → Prop}
    (h : ∀ a s, Ends p m.kernel a s → Clear (f a) { m with kernel := s } Q) : Clear (kernel p >>= f) m Q :=
  clear_bind (clear_kernel h)

/-- Kernel code that only looks. -/
theorem clear_look {p : Code α} {f : α → Act β} {Q : β → Machine → Prop}
    (h : ∀ a s, Ends p m.kernel a s → m.kernel = s ∧ Clear (f a) m Q) : Clear (kernel p >>= f) m Q := by
  refine clear_then fun a s ha => ?_
  obtain ⟨rfl, hf⟩ := h a s ha
  exact hf

theorem clear_descGet {x : Nat} {g : Field} {f : Nat → Act β} {Q : β → Machine → Prop}
    (h : Clear (f (m.kernel.desc x g)) m Q) : Clear (kernel (descGet x g) >>= f) m Q :=
  clear_look fun v s hv => by
    obtain ⟨rfl, hs⟩ := runs_descGet.mp hv
    exact ⟨hs, h⟩

theorem clear_inodeAt {x : Nat} {f : Inode → Act β} {Q : β → Machine → Prop}
    (h : Clear (f (m.kernel.tab.inodeTable x)) m Q) : Clear (kernel (inodeAt x) >>= f) m Q :=
  clear_look fun i s hi => by
    obtain ⟨rfl, hs⟩ := runs_inodeAt.mp hi
    exact ⟨hs, h⟩

theorem clear_assert {c : Bool} {f : Unit → Act β} {Q : β → Machine → Prop}
    (h : c = true → Clear (f ()) m Q) : Clear (kernel (assert c) >>= f) m Q :=
  clear_look fun _ s ha => by
    obtain ⟨hc, hs⟩ := runs_assert.mp ha
    exact ⟨hs, h hc⟩

theorem clear_need {e : Stop} {o : Option α} {f : α → Act β} {Q : β → Machine → Prop}
    (h : ∀ a, o = some a → Clear (f a) m Q) : Clear (kernel (Prog.need e o) >>= f) m Q :=
  clear_look fun a s ha => by
    obtain ⟨ho, hs⟩ := runs_need.mp ha
    exact ⟨hs, h a ho⟩

theorem clear_openFile {fd : Nat} {g : Nat × File → Act β} {Q : β → Machine → Prop}
    (h : ∀ f, m.entry fd = some f → Clear (g (f, m.file f)) m Q) : Clear (kernel (openFile fd) >>= g) m Q :=
  clear_look fun ⟨f, file⟩ s ha => by
    obtain ⟨hf, rfl, hs⟩ := Rw.ends_openFile ha
    exact ⟨hs, h f hf⟩

theorem clear_offsetOf {f : Nat} {g : Int32 → Act β} {Q : β → Machine → Prop}
    (h : Clear (g (m.offset f)) m Q) : Clear (offsetOf f >>= g) m Q := clear_bind h

theorem clear_setOffset {f : Nat} {offset : Int32} {Q : Unit → Machine → Prop}
    (h : Q () { m with offset := Function.update m.offset f offset }) : Clear (setOffset f offset) m Q := h

theorem clear_ite {c : Prop} [Decidable c] {p q : Act α} {Q : α → Machine → Prop}
    (hp : c → Clear p m Q) (hq : ¬ c → Clear q m Q) : Clear (if c then p else q) m Q := by
  by_cases h : c
  · rw [if_pos h]
    exact hp h
  · rw [if_neg h]
    exact hq h

theorem kernel_pure (a : α) : kernel (pure a) = pure a := rfl

theorem kernel_bind (p : Code α) (f : α → Code β) :
    kernel (p >>= f) = kernel p >>= fun a => kernel (f a) := by
  funext m
  show kernel (p >>= f) m = StateT.bind (kernel p) (fun a => kernel (f a)) m
  unfold kernel StateT.bind
  simp only [run_bind]
  cases Prog.run p m.kernel <;> rfl

end Rules

/-! ## 6. Below the last block -/

section Range

variable {x fuel done : Nat} {left : UInt32} {offset : Int32} {buf : Bytes}

/-- The offset as a natural number, when it is one. -/
def nat (offset : Int32) : Nat := offset.toNatClampNeg

theorem toNat_toUInt32 (h : 0 ≤ offset) : offset.toUInt32.toNat = nat offset := Int32.toNat_toUInt32_of_le h

theorem toInt_eq (h : 0 ≤ offset) : offset.toInt = nat offset := (Int32.cast_toNatClampNeg offset h).symm

/-- A word below 2^31 is the same number signed. -/
theorem toInt_toInt32 {u : UInt32} (h : u.toNat < 2 ^ 31) : u.toInt32.toInt = u.toNat := by
  show u.toBitVec.toInt = u.toNat
  rw [BitVec.toInt_eq_toNat_bmod, Int.bmod_def]
  show _ = (u.toBitVec.toNat : Int)
  have : u.toBitVec.toNat < 2 ^ 31 := h
  omega

theorem toNat_blockOf (h : 0 ≤ offset) : (blockOf offset).toNat = nat offset / BLOCK_SIZE := by
  have hd : (offset / 1024).toInt = offset.toInt / 1024 := by
    rw [Int32.toInt_div_of_ne_right _ _ (by decide)]
    exact Int.tdiv_eq_ediv_of_nonneg (Int32.le_iff_toInt_le.mp h)
  have hz := Int32.le_iff_toInt_le.mp h
  have h0 : 0 ≤ offset / 1024 := by
    rw [Int32.le_iff_toInt_le, hd]
    exact Int.ediv_nonneg hz (by decide)
  have hn := toInt_eq h
  have hn' := toInt_eq h0
  rw [blockOf, toNat_toUInt32 h0]
  simp only [BLOCK_SIZE]
  omega

theorem toNat_startOf (h : 0 ≤ offset) : (startOf offset).toNat = nat offset % BLOCK_SIZE := by
  have hd : (offset % 1024).toInt = offset.toInt % 1024 := by
    rw [Int32.toInt_mod]
    exact Int.tmod_eq_emod_of_nonneg (Int32.le_iff_toInt_le.mp h)
  have h0 : 0 ≤ offset % 1024 := by
    rw [Int32.le_iff_toInt_le, hd]
    exact Int.emod_nonneg _ (by decide)
  have hn := toInt_eq h
  have hn' := toInt_eq h0
  rw [startOf, toNat_toUInt32 h0]
  simp only [BLOCK_SIZE]
  omega

theorem toNat_charsOf (h : 0 ≤ offset) :
    (charsOf left offset).toNat = min (BLOCK_SIZE - nat offset % BLOCK_SIZE) left.toNat := by
  have hs := toNat_startOf h
  have hlt : nat offset % BLOCK_SIZE < BLOCK_SIZE := Nat.mod_lt _ (by decide)
  simp only [BLOCK_SIZE] at *
  have hrest : (1024 - startOf offset).toNat = 1024 - (startOf offset).toNat :=
    UInt32.toNat_sub_of_le _ _ (UInt32.le_iff_toNat_le.mpr (by rw [hs]; exact hlt.le))
  unfold charsOf
  split
  · have := UInt32.lt_iff_toNat_lt.mp ‹_›
    omega
  · have := UInt32.not_lt.mp ‹_›
    have := UInt32.le_iff_toNat_le.mp this
    omega

theorem plus_spec {chars : UInt32} (h : 0 ≤ offset) (hsum : nat offset + chars.toNat < 2 ^ 31) :
    0 ≤ plus offset chars ∧ nat (plus offset chars) = nat offset + chars.toNat := by
  have hu : (offset.toUInt32 + chars).toNat = nat offset + chars.toNat := by
    rw [UInt32.toNat_add, toNat_toUInt32 h]
    exact Nat.mod_eq_of_lt (by omega)
  have hp : (plus offset chars).toInt = (nat offset + chars.toNat : Nat) := by
    rw [plus, toInt_toInt32 (by omega), hu]
  have h0 : 0 ≤ plus offset chars := by
    rw [Int32.le_iff_toInt_le, hp]
    exact Int.natCast_nonneg _
  exact ⟨h0, by have := toInt_eq h0; omega⟩

/-- `bmap` of a block that a file can have. -/
theorem bmap_eq {block : UInt32} {create : Bool} (h : block.toNat < TOTAL_BLOCK) :
    bmap x block create = kernel (Yuios.bmap x block.toNat create) := if_pos h

theorem block_lt {o n : Nat} (h : o + n ≤ MAX_SIZE) (hn : 0 < n) : o / BLOCK_SIZE < TOTAL_BLOCK :=
  Nat.div_lt_of_lt_mul (by unfold MAX_SIZE at h; rw [Nat.mul_comm]; omega)

/-- The bytes of one round are in one block. -/
theorem fits_block (o left : Nat) : o % BLOCK_SIZE + min (BLOCK_SIZE - o % BLOCK_SIZE) left ≤ BLOCK_SIZE := by
  have : o % BLOCK_SIZE < BLOCK_SIZE := Nat.mod_lt _ (by decide)
  omega

/-- One round of the loop of `inode_read`. -/
theorem inodeReadLoop_succ {fuel left offset done : Nat} (h : left ≠ 0) :
    Yuios.inodeReadLoop x (fuel + 1) left offset done buf =
      Yuios.bmap x (offset / BLOCK_SIZE) false >>= fun nr =>
        readBlock x nr (offset % BLOCK_SIZE) (min (BLOCK_SIZE - offset % BLOCK_SIZE) left) done buf >>=
        fun buf =>
          Yuios.inodeReadLoop x fuel (left - min (BLOCK_SIZE - offset % BLOCK_SIZE) left)
            (offset + min (BLOCK_SIZE - offset % BLOCK_SIZE) left)
            (done + min (BLOCK_SIZE - offset % BLOCK_SIZE) left) buf := by
  simp only [Yuios.inodeReadLoop, if_neg h, readBlock, bind_assoc, pure_bind, Prog.check,
    decide_eq_true (fits_block offset left), if_true]
  rfl

theorem max_lt : MAX_SIZE < 2 ^ 31 := by decide

/-- What a round leaves. -/
theorem toNat_left (h : 0 ≤ offset) : (left - charsOf left offset).toNat =
    left.toNat - min (BLOCK_SIZE - nat offset % BLOCK_SIZE) left.toNat := by
  have hle : charsOf left offset ≤ left := by
    rw [UInt32.le_iff_toNat_le, toNat_charsOf h]
    exact Nat.min_le_right ..
  rw [UInt32.toNat_sub_of_le _ _ hle, toNat_charsOf h]

/-- The next round starts behind this one, and reaches as far. -/
theorem next_round (h : 0 ≤ offset) (hb : nat offset + left.toNat ≤ MAX_SIZE) :
    0 ≤ plus offset (charsOf left offset) ∧
      nat (plus offset (charsOf left offset)) =
        nat offset + min (BLOCK_SIZE - nat offset % BLOCK_SIZE) left.toNat ∧
      nat (plus offset (charsOf left offset)) + (left - charsOf left offset).toNat ≤ MAX_SIZE := by
  have hmax := max_lt
  have hle := Nat.min_le_right (BLOCK_SIZE - nat offset % BLOCK_SIZE) left.toNat
  have hc := @toNat_charsOf left offset h
  obtain ⟨h0, hn⟩ := @plus_spec offset (charsOf left offset) h (by omega)
  refine ⟨h0, by rw [hn, hc], ?_⟩
  rw [hn, hc, toNat_left h]
  omega

theorem toNat_ne_zero (h : left ≠ 0) : left.toNat ≠ 0 := fun h' => h (UInt32.toNat_inj.mp h')

/-- **The loop of `inode_read` below the last block** is that over natural numbers. -/
theorem inodeReadLoop_eq (h : 0 ≤ offset) (hb : nat offset + left.toNat ≤ MAX_SIZE) :
    inodeReadLoop x fuel left offset done buf =
      (fun r => (Int32.ofNat r.1, r.2)) <$>
        kernel (Yuios.inodeReadLoop x fuel left.toNat (nat offset) done buf) := by
  have hself : Int32.ofNat (nat offset) = offset := Int32.ofNat_toNatClampNeg offset h
  induction fuel generalizing left offset done buf with
  | zero =>
    simp only [inodeReadLoop, Yuios.inodeReadLoop, kernel_pure, map_pure, hself]
  | succ fuel ih =>
    by_cases hleft : left = 0
    · simp only [inodeReadLoop, Yuios.inodeReadLoop, hleft, UInt32.toNat_zero, if_true, kernel_pure,
        map_pure, hself]
    · obtain ⟨h0, hn, hb'⟩ := next_round h hb
      have hpos := toNat_ne_zero hleft
      have hlt : (blockOf offset).toNat < TOTAL_BLOCK := by
        rw [toNat_blockOf h]
        exact block_lt hb (Nat.pos_of_ne_zero hpos)
      rw [inodeReadLoop_succ hpos, kernel_bind, map_bind]
      simp only [inodeReadLoop, if_neg hleft, bmap_eq hlt, toNat_blockOf h, toNat_startOf h,
        toNat_charsOf h]
      congr 1
      funext nr
      rw [kernel_bind, map_bind]
      congr 1
      funext b
      rw [ih h0 hb' (Int32.ofNat_toNatClampNeg _ h0), toNat_left h, hn]

/-- One round of the loop of `inode_write`. -/
theorem inodeWriteLoop_succ {fuel left offset : Nat} (h : left ≠ 0) :
    Yuios.inodeWriteLoop x (fuel + 1) left offset buf =
      Yuios.bmap x (offset / BLOCK_SIZE) true >>= fun nr =>
        writeBlock x nr (offset % BLOCK_SIZE) (min (BLOCK_SIZE - offset % BLOCK_SIZE) left)
            (offset + min (BLOCK_SIZE - offset % BLOCK_SIZE) left) buf >>= fun _ =>
          Yuios.inodeWriteLoop x fuel (left - min (BLOCK_SIZE - offset % BLOCK_SIZE) left)
            (offset + min (BLOCK_SIZE - offset % BLOCK_SIZE) left)
            fun j => buf (min (BLOCK_SIZE - offset % BLOCK_SIZE) left + j) := by
  simp only [Yuios.inodeWriteLoop, Yuios.inodeWriteRound, if_neg h, writeBlock, bind_assoc, pure_bind,
    Prog.check, decide_eq_true (fits_block offset left), if_true]
  rfl

/-- **The loop of `inode_write` below the last block.** -/
theorem inodeWriteLoop_eq (h : 0 ≤ offset) (hb : nat offset + left.toNat ≤ MAX_SIZE) :
    inodeWriteLoop x fuel left offset buf =
      Int32.ofNat <$> kernel (Yuios.inodeWriteLoop x fuel left.toNat (nat offset) buf) := by
  have hself : Int32.ofNat (nat offset) = offset := Int32.ofNat_toNatClampNeg offset h
  induction fuel generalizing left offset buf with
  | zero =>
    simp only [inodeWriteLoop, Yuios.inodeWriteLoop, kernel_pure, map_pure, hself]
  | succ fuel ih =>
    by_cases hleft : left = 0
    · simp only [inodeWriteLoop, Yuios.inodeWriteLoop, hleft, UInt32.toNat_zero, if_true, kernel_pure,
        map_pure, hself]
    · obtain ⟨h0, hn, hb'⟩ := next_round h hb
      have hpos := toNat_ne_zero hleft
      have hlt : (blockOf offset).toNat < TOTAL_BLOCK := by
        rw [toNat_blockOf h]
        exact block_lt hb (Nat.pos_of_ne_zero hpos)
      rw [inodeWriteLoop_succ hpos, kernel_bind, map_bind]
      simp only [inodeWriteLoop, if_neg hleft, bmap_eq hlt, toNat_blockOf h, toNat_startOf h,
        toNat_charsOf h, toNat_toUInt32 h0, hn]
      congr 1
      funext nr
      rw [kernel_bind, map_bind]
      congr 1
      funext _
      rw [ih h0 hb' (Int32.ofNat_toNatClampNeg _ h0), toNat_left h, hn]

end Range

/-! ## 7. One call -/

section Step

variable {m m' : Machine} {io : Io} {x f fd : Nat} {buf : Bytes} {offset count r : Int32} {len : UInt32}

/-- The loop of `inode_read` comes to the end of what is asked. -/
theorem inodeReadLoop_end {fuel left offset done : Nat} {s t : Kernel} {r : Nat × Bytes} (hf : left ≤ fuel)
    (h : Ends (Yuios.inodeReadLoop x fuel left offset done buf) s r t) : r.1 = offset + left := by
  induction fuel generalizing left offset done buf s with
  | zero =>
    obtain ⟨rfl, -⟩ := runs_pure.mp h
    show offset = offset + left
    omega
  | succ fuel ih =>
    by_cases hl : left = 0
    · obtain ⟨-, h⟩ | ⟨hn, -⟩ := runs_ite.mp h
      · obtain ⟨rfl, -⟩ := runs_pure.mp h
        rw [hl]
        rfl
      · exact absurd hl hn
    · rw [inodeReadLoop_succ hl] at h
      obtain ⟨nr, s₁, -, h⟩ := runs_bind.mp h
      obtain ⟨b, s₂, -, h⟩ := runs_bind.mp h
      have hpos : offset % BLOCK_SIZE < BLOCK_SIZE := Nat.mod_lt _ (by decide)
      have := ih (by omega) h
      omega

/-- `offset - begin`. -/
theorem toInt_minus {n : Nat} (h : 0 ≤ offset) (hn : nat offset + n < 2 ^ 31) :
    ((Int32.ofNat (nat offset + n)).toUInt32 - offset.toUInt32).toInt32.toInt = n := by
  have hu : ((Int32.ofNat (nat offset + n)).toUInt32 - offset.toUInt32).toNat = n := by
    rw [Int32.toUInt32_ofNat', UInt32.toNat_sub, toNat_toUInt32 h, UInt32.toNat_ofNat']
    omega
  rw [toInt_toInt32 (by omega), hu]

/-- What a transfer of a file answers, and where it ends. -/
def Within (offset : Int32) (len : Nat) (r : Int32) : Prop :=
  0 ≤ r.toInt ∧ r.toInt ≤ len ∧ offset.toInt + r.toInt ≤ MAX_SIZE

theorem within_minus {n len : Nat} (h : 0 ≤ offset) (hn : nat offset + n ≤ MAX_SIZE) (hl : n ≤ len) :
    Within offset len ((Int32.ofNat (nat offset + n)).toUInt32 - offset.toUInt32).toInt32 := by
  have hmax := max_lt
  have ho := toInt_eq h
  unfold Within
  rw [toInt_minus h (by omega)]
  omega

/-- **`inode_read`**, where what it reads is below the last block. -/
theorem inodeRead_clear (h : 0 ≤ offset) (hb : nat offset < m.kernel.desc x .size →
      nat offset + len.toNat ≤ MAX_SIZE ∨ m.kernel.desc x .size ≤ MAX_SIZE) :
    Clear (inodeRead x buf len offset) m fun r m' =>
      m'.offset = m.offset ∧ (r.1 ≠ eof → Within offset len.toNat r.1) := by
  unfold inodeRead
  refine clear_descGet (clear_assert fun _ => clear_descGet ?_)
  obtain ⟨size, hsize⟩ : ∃ size, m.kernel.desc x .size = size := ⟨_, rfl⟩
  rw [hsize] at hb ⊢
  have hlt : size < 2 ^ 32 := by
    rw [← hsize]
    exact fetch_lt _ _ _
  have hs : (UInt32.ofNat size).toNat = size := by
    rw [UInt32.toNat_ofNat']
    exact Nat.mod_eq_of_lt hlt
  refine clear_ite (fun _ => clear_pure ⟨rfl, fun hne => absurd rfl hne⟩) fun hge => ?_
  have hin : nat offset < size := by
    have := UInt32.lt_iff_toNat_lt.mp (UInt32.not_le.mp hge)
    rw [toNat_toUInt32 h, hs] at this
    exact this
  have hmost : (UInt32.ofNat size - offset.toUInt32).toNat = size - nat offset := by
    rw [UInt32.toNat_sub_of_le _ _ (UInt32.le_iff_toNat_le.mpr (by rw [toNat_toUInt32 h, hs]; exact hin.le)),
      hs, toNat_toUInt32 h]
  obtain ⟨left, hleft⟩ : ∃ left, left = if len < UInt32.ofNat size - offset.toUInt32 then len
      else UInt32.ofNat size - offset.toUInt32 := ⟨_, rfl⟩
  have hmin : left.toNat = min len.toNat (size - nat offset) := by
    rw [hleft]
    split
    · have := UInt32.lt_iff_toNat_lt.mp ‹_›
      omega
    · have := UInt32.le_iff_toNat_le.mp (UInt32.not_lt.mp ‹_›)
      omega
  have hend : nat offset + left.toNat ≤ MAX_SIZE := by
    have := hb hin
    omega
  show Clear (inodeReadLoop x (if _ then _ else _ : UInt32).toNat _ offset 0 buf >>= _) m _
  rw [← hleft, inodeReadLoop_eq h hend]
  refine clear_bind (clear_map (clear_kernel fun a s₄ h₄ => clear_pure ⟨rfl, fun _ => ?_⟩))
  rw [inodeReadLoop_end (Nat.le_refl _) h₄]
  exact within_minus h hend (by omega)

/-- **`inode_write`**, where what it writes is below the last block. -/
theorem inodeWrite_clear (h : 0 ≤ offset) (hb : nat offset + len.toNat ≤ MAX_SIZE) :
    Clear (inodeWrite x buf len offset) m fun r m' => m'.offset = m.offset ∧ Within offset len.toNat r := by
  unfold inodeWrite
  refine clear_then fun mode s₁ _ => clear_then fun _ s₂ _ => ?_
  rw [inodeWriteLoop_eq h hb]
  refine clear_bind (clear_map (clear_kernel fun e s₃ h₃ => ?_))
  refine clear_then fun now s₄ _ => clear_then fun _ s₅ _ => ?_
  refine clear_then fun i s₆ _ => clear_then fun _ s₇ _ => clear_pure ⟨rfl, ?_⟩
  rw [inodeWriteLoop_end (Nat.le_refl _) h₃]
  exact within_minus h hb (Nat.le_refl _)

theorem moves_same (h : m'.offset = m.offset) : m.Moves f (m.offset f).toInt m' :=
  ⟨by rw [h], fun g _ => by rw [h]⟩

theorem Machine.Moves.positive {z : Int} (h : m.Moves f z m') (hz : 0 ≤ z) (hm : m.Positive) :
    m'.Positive := by
  intro g
  by_cases hg : g = f
  · rw [hg, h.1]
    exact hz
  · rw [h.2 g hg]
    exact hm g

theorem Advanced.positive (h : Advanced m f count r m') (hm : m.Positive) : m'.Positive := by
  by_cases hc : m.Plain f ∧ r ≠ eof
  · obtain ⟨hr, -, hmoves⟩ := h.1 hc.1 hc.2
    exact hmoves.positive (Int.add_nonneg (hm f) hr) hm
  · exact (h.2 (by tauto)).positive (hm f) hm

/-- Nothing has moved. -/
theorem advanced_same (h : m'.offset = m.offset) (hc : ¬ m.Plain f ∨ r = eof) : Advanced m f count r m' :=
  ⟨fun hp hr => (hc.elim (· hp) hr).elim, fun _ => moves_same h⟩

theorem toInt_add_of_lt {a b : Int32} (ha : 0 ≤ a.toInt) (hb : 0 ≤ b.toInt) (h : a.toInt + b.toInt < 2 ^ 31) :
    (a + b).toInt = a.toInt + b.toInt := by
  rw [Int32.toInt_add, Int.bmod_def]
  omega

/-- `if (len != EOF) file->offset += len;` -/
theorem clear_advance (hf : m.Plain f) (h : m'.offset = m.offset)
    (hr : r ≠ eof → Within (m.offset f) count.toUInt32.toNat r) (hc : 0 < count) (hm : m.Positive) :
    Clear (advance f r) m' fun _ m'' => Advanced m f count r m'' := by
  have hcount : (count.toUInt32.toNat : Int) = count.toInt := by
    have h0 : 0 ≤ count := Int32.le_of_lt hc
    rw [toNat_toUInt32 h0, toInt_eq h0]
  have hmax := max_lt
  refine clear_offsetOf (clear_setOffset ?_)
  by_cases he : r = eof
  · refine advanced_same ?_ (.inr he)
    show Function.update m'.offset f (if r ≠ eof then m'.offset f + r else m'.offset f) = m.offset
    rw [if_neg (not_not.mpr he), Function.update_eq_self, h]
  · obtain ⟨h0, hle, hend⟩ := hr he
    refine ⟨fun _ _ => ⟨h0, by omega, ?_, fun g hg => ?_⟩, fun hn => ?_⟩
    · show (Function.update m'.offset f _ f).toInt = _
      rw [Function.update_self, if_pos he, h]
      exact toInt_add_of_lt (hm f) h0 (by omega)
    · show Function.update m'.offset f _ g = _
      rw [Function.update_of_ne hg, h]
    · exact (hn.elim (· hf) he).elim

theorem Machine.not_plain {inode : Nat} (hi : (m.file f).inode = some inode)
    (h : (m.kernel.tab.inodeTable inode).pipe = true ∨
      (ISCHR (m.kernel.desc inode .mode) || ISBLK (m.kernel.desc inode .mode)) = true) : ¬ m.Plain f := by
  intro hp
  obtain ⟨h1, h2, h3⟩ := hp inode hi
  rw [h1, h2, h3] at h
  simp at h

theorem Machine.plain {inode : Nat} (hi : (m.file f).inode = some inode)
    (hp : ¬ (m.kernel.tab.inodeTable inode).pipe = true)
    (h : ¬ (ISCHR (m.kernel.desc inode .mode) || ISBLK (m.kernel.desc inode .mode)) = true) : m.Plain f := by
  intro x hx
  rw [hi] at hx
  obtain rfl := Option.some.inj hx
  simp only [Bool.or_eq_true, not_or, Bool.not_eq_true] at h hp
  exact ⟨hp, h.1, h.2⟩

theorem nonneg (h : 0 ≤ offset.toInt) : 0 ≤ offset := Int32.le_iff_toInt_le.mpr h

/-- **`sys_read`.** -/
theorem sysRead_clear (hm : m.Positive) (hc : Meets m (.sysRead fd buf count)) :
    Clear (sysRead io fd buf count) m fun r m' => Call.Exact m r.1 m' (.sysRead fd buf count) := by
  unfold sysRead
  refine clear_openFile fun f hf => clear_assert fun hcount => ?_
  refine clear_ite (fun _ => clear_pure ⟨f, hf, advanced_same rfl (.inr rfl)⟩) fun hread => ?_
  refine clear_need fun inode hi => clear_inodeAt (clear_ite (fun hp => ?_) fun hp => ?_)
  · exact clear_kernel fun a s _ => ⟨f, hf, advanced_same rfl (.inl (Machine.not_plain hi (.inl hp)))⟩
  · refine clear_descGet (clear_offsetOf (clear_ite (fun hd => ?_) fun hd => ?_))
    · exact clear_kernel fun a s _ => ⟨f, hf, advanced_same rfl (.inl (Machine.not_plain hi (.inr hd)))⟩
    · have hplain := Machine.plain hi hp hd
      have h0 := nonneg (hm f)
      have hcount : 0 < count := by simpa using hcount
      have hlen : count.toUInt32.toNat = nat count := toNat_toUInt32 (Int32.le_of_lt hcount)
      have hsize : m.size f = m.kernel.desc inode .size := by
        unfold Machine.size
        rw [hi]
        rfl
      refine clear_bind ((inodeRead_clear h0 fun hlt => ?_).mono fun r m' hr => ?_)
      · have hread : (m.file f).readable = true := by simpa using hread
        have hmeets := hc f hf hplain hread
        rw [hsize, toInt_eq h0, toInt_eq (Int32.le_of_lt hcount)] at hmeets
        have := hmeets (by omega)
        omega
      · exact clear_bind ((clear_advance hplain hr.1 hr.2 hcount hm).mono fun _ m'' h =>
          clear_pure ⟨f, hf, h⟩)

/-- **`sys_write`.** -/
theorem sysWrite_clear (hm : m.Positive) (hc : Meets m (.sysWrite fd buf count)) :
    Clear (sysWrite io fd buf count) m fun r m' => Call.Exact m r m' (.sysWrite fd buf count) := by
  unfold sysWrite
  refine clear_openFile fun f hf => clear_assert fun hcount => ?_
  refine clear_ite (fun _ => clear_pure ⟨f, hf, advanced_same rfl (.inr rfl)⟩) fun hwrite => ?_
  refine clear_need fun inode hi => clear_inodeAt (clear_ite (fun hp => ?_) fun hp => ?_)
  · exact clear_kernel fun a s _ => ⟨f, hf, advanced_same rfl (.inl (Machine.not_plain hi (.inl hp)))⟩
  · refine clear_descGet (clear_offsetOf (clear_ite (fun hd => ?_) fun hd => ?_))
    · exact clear_kernel fun a s _ => ⟨f, hf, advanced_same rfl (.inl (Machine.not_plain hi (.inr hd)))⟩
    · have hplain := Machine.plain hi hp hd
      have h0 := nonneg (hm f)
      have hcount : 0 < count := by simpa using hcount
      have hlen : count.toUInt32.toNat = nat count := toNat_toUInt32 (Int32.le_of_lt hcount)
      refine clear_bind ((inodeWrite_clear h0 ?_).mono fun r m' hr => ?_)
      · have hwrite : (m.file f).writable = true := by simpa using hwrite
        have hmeets := hc f hf hplain hwrite
        rw [toInt_eq h0, toInt_eq (Int32.le_of_lt hcount)] at hmeets
        omega
      · exact clear_bind ((clear_advance hplain hr.1 (fun _ => hr.2) hcount hm).mono fun _ m'' h =>
          clear_pure ⟨f, hf, h⟩)

theorem moves_set {z : Int} (h : offset.toInt = z) :
    m.Moves f z { m with offset := Function.update m.offset f offset } :=
  ⟨by rw [← h]; exact congrArg Int32.toInt (Function.update_self ..), fun g hg => Function.update_of_ne hg ..⟩

/-- The signed sum that is not negative has not wrapped. -/
theorem toInt_add_of_nonneg {a b : Int32} (ha : 0 ≤ a.toInt) (h : 0 ≤ a + b) :
    (a + b).toInt = a.toInt + b.toInt := by
  have h := Int32.le_iff_toInt_le.mp h
  have ha' := a.toInt_lt
  have hb := b.le_toInt
  have hb' := b.toInt_lt
  rw [Int32.toInt_add, Int.bmod_def] at *
  simp only [Int32.toInt_zero] at h
  omega

/-- The unsigned sum, where it is the sum of the integers. -/
theorem toInt_sum {size : Nat} (h : 0 ≤ size + offset.toInt) (h' : size + offset.toInt < 2 ^ 31) :
    (UInt32.ofNat size + offset.toUInt32).toInt32.toInt = size + offset.toInt := by
  have ho : offset.toInt = if 2 * offset.toUInt32.toNat < 2 ^ 32 then (offset.toUInt32.toNat : Int)
      else offset.toUInt32.toNat - (2 ^ 32 : Nat) := BitVec.toInt_eq_toNat_cond _
  have hu : (UInt32.ofNat size + offset.toUInt32).toNat = (size + offset.toInt).toNat := by
    rw [UInt32.toNat_add, UInt32.toNat_ofNat']
    split at ho <;> omega
  rw [toInt_toInt32 (by omega), hu]
  omega

/-- **`sys_lseek`.** -/
theorem sysLseek_clear {whence : Nat} (hm : m.Positive) (hc : Meets m (.sysLseek fd offset whence)) :
    Clear (sysLseek fd offset whence) m fun r m' =>
      Call.Exact m r m' (.sysLseek fd offset whence) ∧ 0 ≤ r.toInt := by
  unfold sysLseek
  refine clear_assert fun _ => clear_openFile fun f hf => clear_need fun inode hi => clear_offsetOf ?_
  have hself : ∀ o, o = Function.update m.offset f o f := fun o => (Function.update_self f o m.offset).symm
  refine clear_ite (fun hset => ?_) fun hset => clear_ite (fun hcur => ?_) fun hcur =>
    clear_ite (fun hend => ?_) fun _ => clear_kernel fun _ _ h => h.elim
  · refine clear_assert fun h0 => clear_bind (clear_setOffset (clear_pure ?_))
    have h0 : 0 ≤ offset := by simpa using h0
    refine ⟨⟨f, hf, hself _, moves_set ?_⟩, Int32.le_iff_toInt_le.mp h0⟩
    rw [Machine.base, if_pos hset, Int.zero_add]
  · refine clear_assert fun h0 => clear_bind (clear_setOffset (clear_pure ?_))
    have h0 : 0 ≤ m.offset f + offset := by simpa using h0
    refine ⟨⟨f, hf, hself _, moves_set ?_⟩, Int32.le_iff_toInt_le.mp h0⟩
    rw [Machine.base, if_neg hset, if_pos hcur]
    exact toInt_add_of_nonneg (hm f) h0
  · refine clear_descGet (clear_assert fun _ => clear_bind (clear_setOffset (clear_pure ?_)))
    have hsize : m.size f = m.kernel.desc inode .size := by
      unfold Machine.size
      rw [hi]
      rfl
    obtain ⟨hlow, hhigh⟩ := hc hend f hf
    rw [hsize] at hlow hhigh
    have hsum := toInt_sum hlow hhigh
    refine ⟨⟨f, hf, hself _, moves_set ?_⟩, by rw [hsum]; exact hlow⟩
    rw [Machine.base, if_neg hset, if_neg hcur, hsize, hsum]

/-- What `sys_open` enters. -/
theorem install_spec {inode flags size : Nat} {s t : Kernel} (h : Ends (install fd f inode flags) s size t) :
    (t.tab.task t.tab.running).files fd = some f ∧ (t.tab.fileTable f).inode = some inode ∧
      t.desc inode .size = size ∧ s.desc inode .size = size := by
  obtain ⟨old, s₁, h₁, h⟩ := runs_bind.mp h
  obtain ⟨-, rfl⟩ := runs_fileOf h₁
  obtain ⟨_, s₂, h₂, h⟩ := runs_bind.mp h
  obtain ⟨-, rfl⟩ := runs_assert.mp h₂
  obtain ⟨_, s₃, h₃, h⟩ := runs_bind.mp h
  have h₃ := runs_onTask h₃
  obtain ⟨mode, s₄, h₄, h⟩ := runs_bind.mp h
  obtain ⟨-, rfl⟩ := runs_descGet.mp h₄
  obtain ⟨_, s₅, h₅, h⟩ := runs_bind.mp h
  have h₅ := runs_onFile h₅
  obtain ⟨hsize, rfl⟩ := runs_descGet.mp h
  refine ⟨?_, ?_, hsize, ?_⟩
  · simp [h₅, h₃, Tables.setFile]
  · simp [h₅, Tables.setFile]
  · rw [← hsize, h₅, h₃]
    rfl

/-- **`sys_open`.** -/
theorem sysOpen_clear {filename : List UInt8} {flags mode : Nat}
    (hc : Meets m (.sysOpen filename flags mode)) :
    Clear (sysOpen filename flags mode) m fun r m' =>
      Call.Exact m r m' (.sysOpen filename flags mode) ∧ (m.Positive → m'.Positive) := by
  unfold sysOpen
  refine clear_then fun found s₁ h₁ => ?_
  cases found with
  | none => exact clear_pure ⟨.inl ⟨rfl, rfl⟩, id⟩
  | some inode =>
    refine clear_then fun fd s₂ h₂ => ?_
    obtain ⟨-, -, rfl⟩ := runs_taskGetFd h₂
    refine clear_then fun f s₃ h₃ => ?_
    have h₃ := (runs_getFile h₃).2.2
    refine clear_then fun size s₄ h₄ => ?_
    obtain ⟨hentry, hinode, hsize, hsame⟩ := install_spec h₄
    refine clear_bind (clear_setOffset (clear_pure ?_))
    have hbefore : s₁.desc inode .size = size := by
      rw [← hsame, h₃]
      rfl
    have hnew : (if flags &&& O_APPEND ≠ 0 then (UInt32.ofNat size).toInt32 else 0).toInt =
        if flags &&& O_APPEND ≠ 0 then (size : Int) else 0 := by
      split
      · have hlt := hc ‹_› inode s₁ h₁
        have hu : (UInt32.ofNat size).toNat = size := by
          rw [UInt32.toNat_ofNat']
          omega
        rw [toInt_toInt32 (by omega), hu]
      · rfl
    have hmoves := moves_set (m := { m with kernel := s₄ }) (f := f) hnew
    refine ⟨.inr ⟨fd, f, rfl, hentry, ?_⟩, fun hm => ?_⟩
    · have hthis : Machine.size ⟨s₄, Function.update m.offset f
          (if flags &&& O_APPEND ≠ 0 then (UInt32.ofNat size).toInt32 else 0)⟩ f = size := by
        unfold Machine.size Machine.file
        rw [hinode]
        exact hsize
      rw [hthis]
      exact hmoves
    · exact hmoves.positive (by split <;> omega) hm

end Step

/-! ## 8. Every run -/

/-- **A call that meets the condition** is exact, and leaves every offset non-negative. -/
theorem call_clear {io : Io} {c : Call} {m : Machine} (hm : m.Positive) (hc : Meets m c) :
    Clear (c.run io) m fun r m' => c.Exact m r m' ∧ m'.Positive := by
  cases c with
  | sysOpen filename flags mode => exact (sysOpen_clear hc).mono fun r m' h => ⟨h.1, h.2 hm⟩
  | sysLseek fd offset whence =>
    refine (sysLseek_clear hm hc).mono fun r m' h => ⟨h.1, ?_⟩
    obtain ⟨⟨f, -, rfl, hmoves⟩, h0⟩ := h
    exact hmoves.positive (hmoves.1 ▸ h0) hm
  | sysRead fd buf count =>
    refine clear_map ((sysRead_clear hm hc).mono fun r m' h => ⟨h, ?_⟩)
    obtain ⟨f, -, hadv⟩ := h
    exact hadv.positive hm
  | sysWrite fd buf count =>
    refine (sysWrite_clear hm hc).mono fun r m' h => ⟨h, ?_⟩
    obtain ⟨f, -, hadv⟩ := h
    exact hadv.positive hm

theorem Clear.post {α : Type} {p : Act α} {m m' : Machine} {a : α} {Q : α → Machine → Prop} (h : Clear p m Q)
    (hp : p m = .ok (a, m')) : Q a m' := by
  unfold Clear at h
  rw [hp] at h
  exact h

theorem Reached.positive {io : Io} {m₀ m : Machine} (h : Reached io Meets m₀ m) (h₀ : m₀.Positive) :
    m.Positive := by
  induction h with
  | start => exact h₀
  | other s h ih => exact ih
  | call h hc hr ih => exact ((call_clear ih hc).post hr).2

/-- **In every run of calls that meet the condition every offset is non-negative**, and a further one that
    meets it moves its offset by exactly what is asked and does not fail the range assertion of `bmap`. -/
theorem offsets_exact {io : Io} {m₀ m : Machine} (h₀ : m₀.Positive) (h : Reached io Meets m₀ m) :
    m.Positive ∧ ∀ c : Call, Meets m c → c.run io m ≠ .error .range ∧
      ∀ r m', c.run io m = .ok (r, m') → c.Exact m r m' ∧ m'.Positive := by
  refine ⟨h.positive h₀, fun c hc => ⟨fun hr => ?_, fun r m' hr => ?_⟩⟩
  · have hclear := @call_clear io c m (h.positive h₀) hc
    unfold Clear at hclear
    rw [hr] at hclear
    exact hclear rfl
  · exact (call_clear (h.positive h₀) hc).post hr

/-! ## 9. Runs on the sample volume -/

namespace Sample

/-- No pipe and no device. -/
def io : Io where
  deviceRead _ buf _ _ := return (none, buf)
  deviceWrite _ _ _ _ := return none
  pipeRead _ buf _ := return (none, buf)
  pipeWrite _ _ _ := return none

/-- The volume with the empty file `a`, before anything is opened. -/
def start : Machine := ⟨Yuios.Sample.kernelFile fun _ _ => 0, fun _ => 0⟩

/-- The machine after an accepted call. -/
def after (c : Call) (m : Machine) : Machine :=
  match c.run io m with
  | .ok (_, m') => m'
  | .error _ => m

/-- The call is accepted. -/
def accepts (c : Call) (m : Machine) : Bool :=
  match c.run io m with
  | .ok _ => true
  | .error _ => false

theorem run_after {c : Call} {m : Machine} (h : accepts c m = true) :
    ∃ r, c.run io m = .ok (r, after c m) := by
  unfold accepts at h
  unfold after
  cases hr : c.run io m with
  | error e => simp [hr] at h
  | ok r => exact ⟨r.1, rfl⟩

/-- The call fails the range assertion. -/
def leaves (c : Call) (m : Machine) : Bool :=
  match c.run io m with
  | .error .range => true
  | _ => false

theorem run_leaves {c : Call} {m : Machine} (h : leaves c m = true) : c.run io m = .error .range := by
  unfold leaves at h
  split at h
  · assumption
  · cases h

theorem reached_after {P : Machine → Call → Prop} {m₀ m : Machine} {c : Call} (h : Reached io P m₀ m)
    (hc : P m c) (ha : accepts c m = true) : Reached io P m₀ (after c m) := by
  obtain ⟨r, hr⟩ := run_after ha
  exact h.call hc hr

/-- `open("/a", O_RDWR)`. -/
def opening : Call := .sysOpen Yuios.Sample.fileA O_RDWR 0

def opened : Machine := after opening start

theorem start_positive : start.Positive := fun _ => Int.le_refl 0

end Sample

/-- The file opened, and any call that meets the condition. -/
theorem offsets_exact_opened : Sample.start.Positive ∧ Reached Sample.io Meets Sample.start Sample.opened ∧
    Sample.opened.Positive ∧ ∀ c : Call, Meets Sample.opened c →
      c.run Sample.io Sample.opened ≠ .error .range ∧
        ∀ r m', c.run Sample.io Sample.opened = .ok (r, m') → c.Exact Sample.opened r m' ∧ m'.Positive := by
  have hopen : Meets Sample.start Sample.opening := fun h => absurd h (by decide)
  have hr : Reached Sample.io Meets Sample.start Sample.opened :=
    Sample.reached_after .start hopen (by decide)
  exact ⟨Sample.start_positive, hr, offsets_exact Sample.start_positive hr⟩

/-- **Not in every run**: a seek to one before the end of the empty file is accepted and leaves the offset at
    -1, and after one to 1 GiB a write of one byte fails the range assertion. -/
theorem offsets_exact_not_always :
    (¬ ∀ (io : Io) (m₀ m : Machine), m₀.Positive → Reached io (fun _ _ => True) m₀ m → m.Positive) ∧
      ¬ ∀ (io : Io) (m₀ m : Machine) (c : Call), m₀.Positive → Reached io (fun _ _ => True) m₀ m →
        c.run io m ≠ .error .range := by
  have hr : Reached Sample.io (fun _ _ => True) Sample.start Sample.opened :=
    Sample.reached_after .start trivial (by decide)
  constructor
  · intro h
    have hm := h Sample.io Sample.start _ Sample.start_positive
      (Sample.reached_after (c := .sysLseek 3 (-1) SEEK_END) hr trivial (by decide)) 3
    exact absurd hm (by decide)
  · intro h
    refine h Sample.io Sample.start _ (.sysWrite 3 (fun _ => 0) 1) Sample.start_positive
      (Sample.reached_after (c := .sysLseek 3 0x40000000 SEEK_SET) hr trivial (by decide))
      (Sample.run_leaves (by decide))

end Yuios.Seek
