/-
  File:      Yuios/Fs/Counts.lean
  Subject:   WHAT `sys_read` AND `sys_write` ANSWER, and how many bytes they have carried.

  A descriptor names a regular file or a directory, a pipe, or a device; its branch counts bytes, 1024-byte
  blocks or 512-byte sectors.

  * `sysRead`, `sysWrite` -- `fs/file.c` over the machine: the bytes go to memory and come from there.
  * `inodeRead_is`, `inodeWrite_is` -- the file's part of it is that of `Yuios/Fs/Inode.lean`.
  * `AsSaid` -- the answer is the number of bytes carried, and a block device's call has carried the
    device's bytes from the file's offset on and advanced it.
  * `InBytes` -- the call counts bytes from its descriptor down to the driver.
  * **`counts_inBytes`** -- a call that does not answer `EOF` does what is said exactly when it is
    `InBytes`.
-/
import Yuios.Fs.Machine
import Yuios.Fs.Transfer
import Yuios.Fs.Sample
import Yuios.Fs.View
import Yuios.Lib.Blocks

namespace Yuios.Rw

open Lib Prog Code Disk

/-! ## 1. The calls -/

/-- `memcpy` to memory. -/
def copyOut (addr : UInt32) (l : List UInt8) : Act Unit := Prog.modify fun M =>
  (M.setMem fun a => (l[(a - addr).toNat]?).getD (M.world.mem a)).carry l

/-- The loop of `inode_read`: `left` bytes from `offset` on go to `buf`. -/
def inodeReadLoop (x : Nat) : (fuel left offset : Nat) → (buf : UInt32) → Act Nat
  | 0, _, offset, _ => return offset
  | fuel + 1, left, offset, buf => do
    if left = 0 then
      return offset
    else
      let nr ← onKernel (bmap x (offset / BLOCK_SIZE) false)
      onKernel (Code.assert (nr ≠ 0))
      let i ← onKernel (inodeAt x)
      let bf ← onKernel (bread i.dev nr)
      let start := offset % BLOCK_SIZE
      let chars := min (BLOCK_SIZE - start) left
      let data ← onKernel (bytesOf bf)
      copyOut buf ((List.range chars).map fun j => data (start + j))
      onKernel (brelse bf)
      inodeReadLoop x fuel (left - chars) (offset + chars) (buf + UInt32.ofNat chars)

/-- `inode_read`: the number of bytes, `none` for `EOF`. -/
def inodeRead (x : Nat) (buf : UInt32) (len offset : Nat) : Act (Option Nat) := do
  let mode ← onKernel (descGet x .mode)
  onKernel (Code.assert (ISFILE mode || ISDIR mode))
  let size ← onKernel (descGet x .size)
  if offset ≥ size then
    return none
  else
    let left := min len (size - offset)
    let offset' ← inodeReadLoop x left left offset buf
    return some (offset' - offset)

/-- The loop of `inode_write`. -/
def inodeWriteLoop (x : Nat) : (fuel left offset : Nat) → (buf : UInt32) → Act Nat
  | 0, _, offset, _ => return offset
  | fuel + 1, left, offset, buf => do
    if left = 0 then
      return offset
    else
      let data ← Prog.reads fun M => M.bytes buf
      let chars ← onKernel (inodeWriteRound x left offset data)
      Prog.modify fun M => M.carry ((List.range chars).map data)
      inodeWriteLoop x fuel (left - chars) (offset + chars) (buf + UInt32.ofNat chars)

/-- `inode_write`. -/
def inodeWrite (x : Nat) (buf : UInt32) (len offset : Nat) : Act Nat := do
  let mode ← onKernel (descGet x .mode)
  onKernel (Code.assert (ISFILE mode))
  let offset' ← inodeWriteLoop x len len offset buf
  let now ← onKernel time
  onKernel (descSet x .mtime now)
  let i ← onKernel (inodeAt x)
  onKernel (bwrite i.buf)
  return offset' - offset

/-- What the two calls do with the device of a node; of a block device they count blocks. -/
def deviceCall (call : (dev : Nat) → (buf count idx : UInt32) → Act Int) (inode mode : Nat) (file : File)
    (buf : UInt32) (count : Nat) : Act Int := do
  let dev ← onKernel (descGet inode (.zone 0))
  onKernel (Code.assert (dev ≠ 0))
  if ISCHR mode then
    call dev buf (UInt32.ofNat count) 0
  else
    let _device ← deviceGet dev
    onKernel (Code.assert (file.offset % BLOCK_SIZE = 0))
    onKernel (Code.assert (count % BLOCK_SIZE = 0))
    call dev buf (UInt32.ofNat (count / BLOCK_SIZE)) (UInt32.ofNat (file.offset / BLOCK_SIZE))

/-- What `sys_read` does past its test. -/
def readOpen (f : Nat) (file : File) (buf : UInt32) (count : Nat) : Act Int := do
  let inode ← Prog.need .fault file.inode
  let ino ← onKernel (inodeAt inode)
  if ino.pipe then
    pipeRead inode buf count
  else
    let mode ← onKernel (descGet inode .mode)
    if ISCHR mode ∨ ISBLK mode then
      deviceCall deviceRead inode mode file buf count
    else
      let len ← inodeRead inode buf count file.offset
      onKernel (advance f len)
      return len.elim eof Int.ofNat

/-- `sys_read`. -/
def sysRead (fd : Nat) (buf : UInt32) (count : Nat) : Act Int := do
  let (f, file) ← onKernel (openFile fd)
  onKernel (Code.assert (0 < count))
  if file.readable then
    readOpen f file buf count
  else
    return eof

/-- What `sys_write` does past its test. -/
def writeOpen (f : Nat) (file : File) (buf : UInt32) (count : Nat) : Act Int := do
  let inode ← Prog.need .assertion file.inode
  let ino ← onKernel (inodeAt inode)
  if ino.pipe then
    pipeWrite inode buf count
  else
    let mode ← onKernel (descGet inode .mode)
    if ISCHR mode ∨ ISBLK mode then
      deviceCall deviceWrite inode mode file buf count
    else
      let len ← inodeWrite inode buf count file.offset
      onKernel (advance f (some len))
      return len

/-- `sys_write`. -/
def sysWrite (fd : Nat) (buf : UInt32) (count : Nat) : Act Int := do
  let (f, file) ← onKernel (openFile fd)
  onKernel (Code.assert (0 < count))
  if file.writable then
    writeOpen f file buf count
  else
    return eof

inductive Direction where
  | read
  | write
  deriving DecidableEq

def Direction.call : Direction → (fd : Nat) → (buf : UInt32) → (count : Nat) → Act Int
  | .read => sysRead
  | .write => sysWrite

/-! ## 2. What is said of them -/

/-- The byte `p` of a block device. -/
def byteAt (d : Driver) (w : Disk.World) (p : Nat) : UInt8 :=
  match d with
  | .ramdisk i => w.mem (ramdiskStart i + UInt32.ofNat p)
  | .disk k => w.sector k (p / 512) (p % 512)
  | .part q => w.sector q.disk (q.start.toNat + p / 512) (p % 512)
  | .char _ _ => 0

/-- The file and the inode of a descriptor of the running task. -/
structure At (M : Machine) (fd f x : Nat) : Prop where
  file : (M.kernel.tab.task M.kernel.tab.running).files fd = some f
  inode : (M.kernel.tab.fileTable f).inode = some x

/-- The inode is a node for a device. -/
structure Node (M : Machine) (x : Nat) (device : Device) : Prop where
  pipe : (M.kernel.tab.inodeTable x).pipe = false
  mode : ISCHR (M.kernel.desc x .mode) ∨ ISBLK (M.kernel.desc x .mode)
  device : M.devices (M.kernel.desc x (.zone 0)) = some device

/-- **What is said of a call**: it answers with the number of bytes it has carried; from a descriptor of a
    block device these are the device's bytes from the offset on, and the offset is behind them. -/
def AsSaid (d : Direction) (M : Machine) (fd count : Nat) (r : Int) (M' : Machine) : Prop :=
  ∃ l, M'.moved = M.moved ++ l ∧ r = l.length ∧
    ∀ f x b, At M fd f x → Node M x (.block b) → ISBLK (M.kernel.desc x .mode) = true →
      let offset := (M.kernel.tab.fileTable f).offset
      l = (List.range count).map (fun j => byteAt b.1 (if d = .read then M.world else M'.world) (offset + j)) ∧
        (M'.kernel.tab.fileTable f).offset = offset + count

/-- **The call counts bytes all the way down**: the descriptor is not a node for a block device (a RAM disk
    behind a character node answers with 0 to a multiple of 256), and it does not write to the console. -/
def InBytes (d : Direction) (M : Machine) (fd count : Nat) : Prop :=
  ∀ f x device, At M fd f x → Node M x device →
    match device with
    | .char c => ¬ (d = .write ∧ c = .console)
    | .block b => ISCHR (M.kernel.desc x .mode) = true ∧ (∃ i, b.1 = .ramdisk i) ∧ count % 256 = 0

/-! ## 3. Files -/

section File

variable {M M' : Machine} {x fuel left offset off len : Nat} {buf : UInt32}

/-- `n` bytes of `src`. -/
def first (src : Bytes) (n : Nat) : List UInt8 := (List.range n).map src

@[simp] theorem length_first (src : Bytes) (n : Nat) : (first src n).length = n := by simp [first]

theorem first_congr {src src' : Bytes} {n : Nat} (h : ∀ j < n, src j = src' j) : first src n = first src' n :=
  List.map_congr_left fun j hj => h j (List.mem_range.mp hj)

theorem first_add (src : Bytes) (m n : Nat) :
    first src (m + n) = first src m ++ first (fun j => src (m + j)) n := by
  rw [first, List.range_add, List.map_append, List.map_map]
  rfl

/-- `m` bytes of `src` and behind them `src'`. -/
def behind (src : Bytes) (m : Nat) (src' : Bytes) : Bytes := fun j => if j < m then src j else src' (j - m)

theorem behind_lt {src src' : Bytes} {m j : Nat} (h : j < m) : behind src m src' j = src j := if_pos h

theorem behind_add (src src' : Bytes) (m : Nat) : (fun j => behind src m src' (m + j)) = src' := by
  funext j
  rw [behind, if_neg (by omega), Nat.add_sub_cancel_left]

theorem first_behind (src src' : Bytes) (m n : Nat) :
    first (behind src m src') (m + n) = first src m ++ first src' n := by
  rw [first_add, behind_add, first_congr fun j hj => behind_lt hj]

theorem copyIn_behind (b src src' : Bytes) (done m n : Nat) :
    copyIn (copyIn b done src m) (done + m) src' n = copyIn b done (behind src m src') (m + n) := by
  rw [← copyIn_append, behind_add, copyIn_congr fun j hj => behind_lt hj]

/-- **The loop of `inode_read` is the file system's**; the bytes it has carried are those that go to the
    buffer. -/
theorem inodeReadLoop_is (h : Ends (inodeReadLoop x fuel left offset buf) M off M') (done : Nat) (b : Bytes) :
    ∃ src n, M'.moved = M.moved ++ first src n ∧ off = offset + n ∧
      Ends (Yuios.inodeReadLoop x fuel left offset done b) M.kernel (off, copyIn b done src n) M'.kernel := by
  induction fuel generalizing left offset buf M done b with
  | zero =>
    obtain ⟨rfl, rfl⟩ := runs_pure.mp h
    exact ⟨b, 0, (List.append_nil _).symm, rfl, by rw [copyIn_zero]; exact ⟨rfl, rfl⟩⟩
  | succ fuel ih =>
    obtain ⟨h0, h⟩ | ⟨h0, h⟩ := runs_ite.mp h
    · obtain ⟨rfl, rfl⟩ := runs_pure.mp h
      refine ⟨b, 0, (List.append_nil _).symm, rfl, runs_ite.mpr (.inl ⟨h0, ?_⟩)⟩
      rw [copyIn_zero]
      exact ⟨rfl, rfl⟩
    · obtain ⟨nr, M₁, h₁, h⟩ := runs_bind.mp h
      obtain ⟨k₁, hk₁, rfl⟩ := ends_kernel.mp h₁
      obtain ⟨_, M₂, h₂, h⟩ := runs_bind.mp h
      obtain ⟨k₂, hk₂, rfl⟩ := ends_kernel.mp h₂
      obtain ⟨i, M₃, h₃, h⟩ := runs_bind.mp h
      obtain ⟨k₃, hk₃, rfl⟩ := ends_kernel.mp h₃
      obtain ⟨bf, M₄, h₄, h⟩ := runs_bind.mp h
      obtain ⟨k₄, hk₄, rfl⟩ := ends_kernel.mp h₄
      obtain ⟨data, M₅, h₅, h⟩ := runs_bind.mp h
      obtain ⟨k₅, hk₅, rfl⟩ := ends_kernel.mp h₅
      obtain ⟨_, M₆, h₆, h⟩ := runs_bind.mp h
      obtain rfl := runs_modify.mp h₆
      obtain ⟨_, M₇, h₇, h⟩ := runs_bind.mp h
      obtain ⟨k₇, hk₇, rfl⟩ := ends_kernel.mp h₇
      obtain ⟨start, hs⟩ : ∃ start, start = offset % BLOCK_SIZE := ⟨_, rfl⟩
      obtain ⟨chars, hc⟩ : ∃ chars, chars = min (BLOCK_SIZE - start) left := ⟨_, rfl⟩
      rw [← hs, ← hc] at h
      obtain ⟨src, n, hmoved, rfl, hrest⟩ := ih h (done + chars) (copyIn b done (fun j => data (start + j)) chars)
      refine ⟨behind (fun j => data (start + j)) chars src, chars + n, ?_, (Nat.add_assoc _ _ _), ?_⟩
      · rw [first_behind, ← List.append_assoc, hmoved, hs, hc, hs]
        rfl
      · rw [copyIn_behind] at hrest
        refine runs_ite.mpr (.inr ⟨h0, runs_bind.mpr ⟨nr, k₁, hk₁, runs_bind.mpr ⟨(), k₂, hk₂, ?_⟩⟩⟩)
        refine runs_bind.mpr ⟨i, k₃, hk₃, runs_bind.mpr ⟨bf, k₄, hk₄, runs_bind.mpr ⟨data, k₅, hk₅, ?_⟩⟩⟩
        refine runs_bind.mpr ⟨(), k₇, hk₇, ?_⟩
        rw [← hs, ← hc]
        exact hrest

/-- `inode_read` answers with the number of bytes it has carried. -/
theorem inodeRead_is {r : Option Nat} (h : Ends (inodeRead x buf len offset) M r M') (b : Bytes) :
    ∃ src n, M'.moved = M.moved ++ first src n ∧ (∀ k, r = some k → k = n) ∧
      Ends (Yuios.inodeRead x b len offset) M.kernel (r, copyIn b 0 src n) M'.kernel := by
  obtain ⟨mode, M₁, h₁, h⟩ := runs_bind.mp h
  obtain ⟨k₁, hk₁, rfl⟩ := ends_kernel.mp h₁
  obtain ⟨_, M₂, h₂, h⟩ := runs_bind.mp h
  obtain ⟨k₂, hk₂, rfl⟩ := ends_kernel.mp h₂
  obtain ⟨size, M₃, h₃, h⟩ := runs_bind.mp h
  obtain ⟨k₃, hk₃, rfl⟩ := ends_kernel.mp h₃
  obtain ⟨hge, h⟩ | ⟨hlt, h⟩ := runs_ite.mp h
  · obtain ⟨rfl, rfl⟩ := runs_pure.mp h
    refine ⟨b, 0, (List.append_nil _).symm, nofun, ?_⟩
    refine runs_bind.mpr ⟨mode, k₁, hk₁, runs_bind.mpr ⟨(), k₂, hk₂, runs_bind.mpr ⟨size, k₃, hk₃, ?_⟩⟩⟩
    rw [copyIn_zero]
    exact runs_ite.mpr (.inl ⟨hge, rfl, rfl⟩)
  · obtain ⟨off, M₄, h₄, h⟩ := runs_bind.mp h
    obtain ⟨rfl, rfl⟩ := runs_pure.mp h
    obtain ⟨src, n, hmoved, rfl, hloop⟩ := inodeReadLoop_is h₄ 0 b
    refine ⟨src, n, hmoved, fun k hk => ?_, ?_⟩
    · rw [← Option.some.inj hk, Nat.add_sub_cancel_left]
    · refine runs_bind.mpr ⟨mode, k₁, hk₁, runs_bind.mpr ⟨(), k₂, hk₂, runs_bind.mpr ⟨size, k₃, hk₃, ?_⟩⟩⟩
      exact runs_ite.mpr (.inr ⟨hlt, runs_bind.mpr ⟨_, _, hloop, rfl, rfl⟩⟩)

theorem bytes_add (M : Machine) (addr : UInt32) (n : Nat) :
    (fun j => M.bytes addr (n + j)) = M.bytes (addr + UInt32.ofNat n) := by
  funext j
  show M.world.mem (addr + UInt32.ofNat (n + j)) = M.world.mem (addr + UInt32.ofNat n + UInt32.ofNat j)
  rw [UInt32.ofNat_add, UInt32.add_assoc]

/-- **The loop of `inode_write` is the file system's**, with the bytes at `buf`. -/
theorem inodeWriteLoop_is (h : Ends (inodeWriteLoop x fuel left offset buf) M off M') :
    ∃ n, M'.moved = M.moved ++ first (M.bytes buf) n ∧ off = offset + n ∧
      Ends (Yuios.inodeWriteLoop x fuel left offset (M.bytes buf)) M.kernel off M'.kernel := by
  induction fuel generalizing left offset buf M with
  | zero =>
    obtain ⟨rfl, rfl⟩ := runs_pure.mp h
    exact ⟨0, (List.append_nil _).symm, rfl, rfl, rfl⟩
  | succ fuel ih =>
    obtain ⟨h0, h⟩ | ⟨h0, h⟩ := runs_ite.mp h
    · obtain ⟨rfl, rfl⟩ := runs_pure.mp h
      exact ⟨0, (List.append_nil _).symm, rfl, runs_ite.mpr (.inl ⟨h0, rfl, rfl⟩)⟩
    · obtain ⟨data, M₁, ⟨rfl, rfl⟩, h⟩ := runs_bind.mp h
      obtain ⟨chars, M₂, h₂, h⟩ := runs_bind.mp h
      obtain ⟨k₂, hk₂, rfl⟩ := ends_kernel.mp h₂
      obtain ⟨_, M₃, h₃, h⟩ := runs_bind.mp h
      obtain rfl := runs_modify.mp h₃
      obtain ⟨n, hmoved, rfl, hrest⟩ := ih h
      refine ⟨chars + n, ?_, (Nat.add_assoc _ _ _), runs_ite.mpr (.inr ⟨h0, ?_⟩)⟩
      · rw [hmoved, first_add, bytes_add, ← List.append_assoc]
        rfl
      · refine runs_bind.mpr ⟨chars, k₂, hk₂, ?_⟩
        rw [bytes_add]
        exact hrest

/-- `inode_write` answers with the number of bytes it has carried. -/
theorem inodeWrite_is {r : Nat} (h : Ends (inodeWrite x buf len offset) M r M') :
    M'.moved = M.moved ++ first (M.bytes buf) r ∧
      Ends (Yuios.inodeWrite x (M.bytes buf) len offset) M.kernel r M'.kernel := by
  obtain ⟨mode, M₁, h₁, h⟩ := runs_bind.mp h
  obtain ⟨k₁, hk₁, rfl⟩ := ends_kernel.mp h₁
  obtain ⟨_, M₂, h₂, h⟩ := runs_bind.mp h
  obtain ⟨k₂, hk₂, rfl⟩ := ends_kernel.mp h₂
  obtain ⟨off, M₃, h₃, h⟩ := runs_bind.mp h
  obtain ⟨now, M₄, h₄, h⟩ := runs_bind.mp h
  obtain ⟨k₄, hk₄, rfl⟩ := ends_kernel.mp h₄
  obtain ⟨_, M₅, h₅, h⟩ := runs_bind.mp h
  obtain ⟨k₅, hk₅, rfl⟩ := ends_kernel.mp h₅
  obtain ⟨i, M₆, h₆, h⟩ := runs_bind.mp h
  obtain ⟨k₆, hk₆, rfl⟩ := ends_kernel.mp h₆
  obtain ⟨_, M₇, h₇, h⟩ := runs_bind.mp h
  obtain ⟨k₇, hk₇, rfl⟩ := ends_kernel.mp h₇
  obtain ⟨rfl, rfl⟩ := runs_pure.mp h
  obtain ⟨n, hmoved, rfl, hloop⟩ := inodeWriteLoop_is h₃
  rw [Nat.add_sub_cancel_left]
  refine ⟨hmoved, runs_bind.mpr ⟨mode, k₁, hk₁, runs_bind.mpr ⟨(), k₂, hk₂, ?_⟩⟩⟩
  refine runs_bind.mpr ⟨_, M₃.kernel, hloop, runs_bind.mpr ⟨now, k₄, hk₄, runs_bind.mpr ⟨(), k₅, hk₅, ?_⟩⟩⟩
  exact runs_bind.mpr ⟨i, k₆, hk₆, runs_bind.mpr ⟨(), k₇, hk₇, Nat.add_sub_cancel_left .., rfl⟩⟩

end File

/-! ## 4. Devices -/

section Devices

variable {M M' : Machine} {d : Direction} {dev : Nat} {buf count idx : UInt32} {r : Int}

/-- What a call of `device_read` or `device_write` does, when it does not answer `EOF`. -/
def Handed (d : Direction) (device : Device) (n : Nat) (M : Machine) (r : Int) (M' : Machine) : Prop :=
  ∃ k, Carried k M M' ∧
    match device with
    | .char c => (r = k ↔ ¬ (d = .write ∧ c = .console))
    | .block b => M'.kernel = M.kernel ∧ (r = k ↔ (∃ i, b.1 = .ramdisk i) ∧ n % 256 = 0)

def Direction.deviceCall : Direction → (dev : Nat) → (buf count idx : UInt32) → Act Int
  | .read => deviceRead
  | .write => deviceWrite

theorem ends_deviceGet {device : Device} (h : Ends (deviceGet dev) M device M') :
    M.devices dev = some device ∧ M' = M := by
  obtain ⟨_, M₁, h₁, h⟩ := runs_bind.mp h
  obtain ⟨-, rfl⟩ := runs_check.mp h₁
  obtain ⟨M₂, M₃, ⟨rfl, rfl⟩, h⟩ := runs_bind.mp h
  obtain ⟨hd, rfl⟩ := runs_need.mp h
  exact ⟨hd, rfl⟩

theorem Counts.handed {n : Nat} {p : Act Int} (hp : Counts n p) {c : CharDevice}
    (hc : ¬ (d = .write ∧ c = .console)) (h : Ends p M r M') : Handed d (.char c) n M r M' := by
  obtain ⟨hn, hr⟩ := hp M r M' h
  exact ⟨n, hn, iff_of_true hr hc⟩

theorem charRead_handed {c : CharDevice} (h : Ends (c.read buf count) M r M') (hr : r ≠ eof) :
    Handed .read (.char c) count.toNat M r M' := by
  cases c with
  | console => exact absurd (runs_pure.mp h).1.symm hr
  | keyboard => exact counts_keyboardRead.handed nofun h
  | serial i => exact (counts_serialRead i).handed nofun h

theorem charWrite_handed {c : CharDevice} (h : Ends (c.write buf count) M r M') (hr : r ≠ eof) :
    Handed .write (.char c) count.toNat M r M' := by
  cases c with
  | console =>
    obtain ⟨hn, rfl⟩ := consoleWrite_over h
    exact ⟨_, hn, iff_of_false (by omega) (not_not_intro ⟨rfl, rfl⟩)⟩
  | keyboard => exact absurd (runs_pure.mp h).1.symm hr
  | serial i => exact (counts_serialWrite i).handed nofun h

theorem device_handed (h : Ends (d.deviceCall dev buf count idx) M r M') (hr : r ≠ eof) :
    ∃ device, M.devices dev = some device ∧ Handed d device count.toNat M r M' := by
  cases d with
  | read =>
    obtain ⟨device, M₁, h₁, h⟩ := runs_bind.mp h
    obtain ⟨hd, rfl⟩ := ends_deviceGet h₁
    refine ⟨device, hd, ?_⟩
    cases device with
    | char c => exact charRead_handed h hr
    | block b =>
      obtain ⟨x, hx, rfl, rfl⟩ := ends_blockRead h
      exact ⟨_, carried_carry rfl, rfl, (read_sectors b.2 _ hx).counts⟩
  | write =>
    obtain ⟨device, M₁, h₁, h⟩ := runs_bind.mp h
    obtain ⟨hd, rfl⟩ := ends_deviceGet h₁
    refine ⟨device, hd, ?_⟩
    cases device with
    | char c => exact charWrite_handed h hr
    | block b =>
      obtain ⟨x, hx, rfl, rfl⟩ := ends_blockWrite h
      exact ⟨_, carried_carry rfl, rfl, (write_sectors b.2 x.world hx).counts⟩

end Devices

/-! ## 5. The answer -/

section Answer

variable {M M' : Machine} {d : Direction} {fd f x count : Nat} {buf : UInt32} {r : Int} {file : File}

theorem ends_openFile {s t : Kernel} (h : Ends (openFile fd) s (f, file) t) :
    (s.tab.task s.tab.running).files fd = some f ∧ file = s.tab.fileTable f ∧ s = t := by
  obtain ⟨o, s₁, h₁, h⟩ := runs_bind.mp h
  obtain ⟨task, s₂, ⟨rfl, rfl⟩, h₁⟩ := runs_bind.mp h₁
  obtain ⟨rfl, rfl⟩ := runs_pure.mp h₁
  obtain ⟨f', s₃, h₃, h⟩ := runs_bind.mp h
  obtain ⟨hf, rfl⟩ := runs_need.mp h₃
  obtain ⟨tab, s₄, ⟨rfl, rfl⟩, h⟩ := runs_bind.mp h
  obtain ⟨e, rfl⟩ := runs_pure.mp h
  obtain ⟨rfl, rfl⟩ := Prod.mk.inj e
  exact ⟨hf, rfl, rfl⟩

/-- The three ways of a call that does not answer `EOF`. -/
inductive Way (d : Direction) (M : Machine) (x : Nat) (file : File) (count : Nat) (r : Int)
    (M' : Machine) : Prop where
  /-- a pipe: there is no node -/
  | pipe (hp : (M.kernel.tab.inodeTable x).pipe = true) (h : ∃ k, Carried k M M' ∧ r = k)
  /-- a regular file or a directory -/
  | file (hm : ¬ (ISCHR (M.kernel.desc x .mode) = true ∨ ISBLK (M.kernel.desc x .mode) = true))
      (h : ∃ k, Carried k M M' ∧ r = k)
  /-- a node, with the units its branch counts in -/
  | node (device : Device) (hn : Node M x device)
      (h : Handed d device (if ISCHR (M.kernel.desc x .mode) then count else count / BLOCK_SIZE) M r M')

theorem deviceCall_way (hc : count < 2 ^ 31) (hp : (M.kernel.tab.inodeTable x).pipe = false)
    (hm : ISCHR (M.kernel.desc x .mode) = true ∨ ISBLK (M.kernel.desc x .mode) = true)
    (h : Ends (deviceCall d.deviceCall x (M.kernel.desc x .mode) file buf count) M r M') (hr : r ≠ eof) :
    Way d M x file count r M' := by
  obtain ⟨dev, M₁, h₁, h⟩ := runs_bind.mp h
  obtain ⟨k₁, hk₁, rfl⟩ := ends_kernel.mp h₁
  obtain ⟨rfl, rfl⟩ := runs_descGet.mp hk₁
  obtain ⟨_, M₂, h₂, h⟩ := runs_bind.mp h
  obtain ⟨k₂, hk₂, rfl⟩ := ends_kernel.mp h₂
  obtain ⟨-, rfl⟩ := runs_assert.mp hk₂
  have hn {n : Nat} (hn : n < 2 ^ 31) : (UInt32.ofNat n).toNat = n :=
    UInt32.toNat_ofNat_of_lt (Nat.lt_trans hn (by decide))
  obtain ⟨hchr, h⟩ | ⟨hblk, h⟩ := runs_ite.mp h
  · obtain ⟨device, hd, hh⟩ := device_handed h hr
    refine .node device ⟨hp, hm, hd⟩ ?_
    rw [if_pos hchr]
    rwa [hn hc] at hh
  · obtain ⟨_, M₃, h₃, h⟩ := runs_bind.mp h
    obtain ⟨-, rfl⟩ := ends_deviceGet h₃
    obtain ⟨_, M₄, h₄, h⟩ := runs_bind.mp h
    obtain ⟨k₄, hk₄, rfl⟩ := ends_kernel.mp h₄
    obtain ⟨-, rfl⟩ := runs_assert.mp hk₄
    obtain ⟨_, M₅, h₅, h⟩ := runs_bind.mp h
    obtain ⟨k₅, hk₅, rfl⟩ := ends_kernel.mp h₅
    obtain ⟨-, rfl⟩ := runs_assert.mp hk₅
    obtain ⟨device, hd, hh⟩ := device_handed h hr
    refine .node device ⟨hp, hm, hd⟩ ?_
    rw [if_neg hblk]
    rwa [hn (Nat.lt_of_le_of_lt (Nat.div_le_self _ _) hc)] at hh

theorem readOpen_way (hc : count < 2 ^ 31) (hi : file.inode = some x)
    (h : Ends (readOpen f file buf count) M r M') (hr : r ≠ eof) : Way .read M x file count r M' := by
  obtain ⟨inode, M₁, h₁, h⟩ := runs_bind.mp h
  obtain ⟨hx, rfl⟩ := runs_need.mp h₁
  obtain rfl := Option.some.inj (hi.symm.trans hx)
  obtain ⟨ino, M₂, h₂, h⟩ := runs_bind.mp h
  obtain ⟨k₂, hk₂, rfl⟩ := ends_kernel.mp h₂
  obtain ⟨rfl, rfl⟩ := runs_inodeAt.mp hk₂
  obtain ⟨hp, h⟩ | ⟨hp, h⟩ := runs_ite.mp h
  · exact .pipe hp ⟨count, counts_pipeRead x M r M' h⟩
  · obtain ⟨mode, M₃, h₃, h⟩ := runs_bind.mp h
    obtain ⟨k₃, hk₃, rfl⟩ := ends_kernel.mp h₃
    obtain ⟨rfl, rfl⟩ := runs_descGet.mp hk₃
    obtain ⟨hm, h⟩ | ⟨hm, h⟩ := runs_ite.mp h
    · exact deviceCall_way (d := .read) hc (Bool.eq_false_iff.mpr hp) hm h hr
    · obtain ⟨len, M₄, h₄, h⟩ := runs_bind.mp h
      obtain ⟨_, M₅, h₅, h⟩ := runs_bind.mp h
      obtain ⟨k₅, -, rfl⟩ := ends_kernel.mp h₅
      obtain ⟨rfl, rfl⟩ := runs_pure.mp h
      obtain ⟨src, n, hmoved, hn, -⟩ := inodeRead_is h₄ fun _ => 0
      cases len with
      | none => exact absurd rfl hr
      | some k =>
        obtain rfl := hn k rfl
        exact .file hm ⟨k, ⟨first src k, length_first src k, hmoved⟩, rfl⟩

theorem writeOpen_way (hc : count < 2 ^ 31) (hi : file.inode = some x)
    (h : Ends (writeOpen f file buf count) M r M') (hr : r ≠ eof) : Way .write M x file count r M' := by
  obtain ⟨inode, M₁, h₁, h⟩ := runs_bind.mp h
  obtain ⟨hx, rfl⟩ := runs_need.mp h₁
  obtain rfl := Option.some.inj (hi.symm.trans hx)
  obtain ⟨ino, M₂, h₂, h⟩ := runs_bind.mp h
  obtain ⟨k₂, hk₂, rfl⟩ := ends_kernel.mp h₂
  obtain ⟨rfl, rfl⟩ := runs_inodeAt.mp hk₂
  obtain ⟨hp, h⟩ | ⟨hp, h⟩ := runs_ite.mp h
  · exact .pipe hp ⟨count, counts_pipeWrite x M r M' h⟩
  · obtain ⟨mode, M₃, h₃, h⟩ := runs_bind.mp h
    obtain ⟨k₃, hk₃, rfl⟩ := ends_kernel.mp h₃
    obtain ⟨rfl, rfl⟩ := runs_descGet.mp hk₃
    obtain ⟨hm, h⟩ | ⟨hm, h⟩ := runs_ite.mp h
    · exact deviceCall_way (d := .write) hc (Bool.eq_false_iff.mpr hp) hm h hr
    · obtain ⟨len, M₄, h₄, h⟩ := runs_bind.mp h
      obtain ⟨_, M₅, h₅, h⟩ := runs_bind.mp h
      obtain ⟨k₅, -, rfl⟩ := ends_kernel.mp h₅
      obtain ⟨rfl, rfl⟩ := runs_pure.mp h
      obtain ⟨hmoved, -⟩ := inodeWrite_is h₄
      exact .file hm ⟨len, ⟨_, length_first _ len, hmoved⟩, rfl⟩

/-- A call that does not answer `EOF` has gone one of the ways. -/
theorem call_way (hc : count < 2 ^ 31) (h : Ends (d.call fd buf count) M r M') (hr : r ≠ eof) :
    0 < count ∧ ∃ f x, At M fd f x ∧ Way d M x (M.kernel.tab.fileTable f) count r M' := by
  cases d with
  | read =>
    obtain ⟨⟨f, file⟩, M₁, h₁, h⟩ := runs_bind.mp h
    obtain ⟨k₁, hk₁, rfl⟩ := ends_kernel.mp h₁
    obtain ⟨hf, rfl, rfl⟩ := ends_openFile hk₁
    obtain ⟨_, M₂, h₂, h⟩ := runs_bind.mp h
    obtain ⟨k₂, hk₂, rfl⟩ := ends_kernel.mp h₂
    obtain ⟨hpos, rfl⟩ := runs_assert.mp hk₂
    obtain ⟨-, h⟩ | ⟨-, h⟩ := runs_ite.mp h
    · obtain ⟨x, M₃, h₃, -⟩ := runs_bind.mp h
      obtain ⟨hx, -⟩ := runs_need.mp h₃
      exact ⟨of_decide_eq_true hpos, f, x, ⟨hf, hx⟩, readOpen_way hc hx h hr⟩
    · exact absurd (runs_pure.mp h).1.symm hr
  | write =>
    obtain ⟨⟨f, file⟩, M₁, h₁, h⟩ := runs_bind.mp h
    obtain ⟨k₁, hk₁, rfl⟩ := ends_kernel.mp h₁
    obtain ⟨hf, rfl, rfl⟩ := ends_openFile hk₁
    obtain ⟨_, M₂, h₂, h⟩ := runs_bind.mp h
    obtain ⟨k₂, hk₂, rfl⟩ := ends_kernel.mp h₂
    obtain ⟨hpos, rfl⟩ := runs_assert.mp hk₂
    obtain ⟨-, h⟩ | ⟨-, h⟩ := runs_ite.mp h
    · obtain ⟨x, M₃, h₃, -⟩ := runs_bind.mp h
      obtain ⟨hx, -⟩ := runs_need.mp h₃
      exact ⟨of_decide_eq_true hpos, f, x, ⟨hf, hx⟩, writeOpen_way hc hx h hr⟩
    · exact absurd (runs_pure.mp h).1.symm hr

theorem At.unique {f' x' : Nat} (h : At M fd f x) (h' : At M fd f' x') : f' = f ∧ x' = x := by
  obtain rfl := Option.some.inj (h.file.symm.trans h'.file)
  exact ⟨rfl, Option.some.inj (h'.inode.symm.trans h.inode)⟩

theorem Node.unique {device device' : Device} (h : Node M x device) (h' : Node M x device') :
    device' = device := Option.some.inj (h'.device.symm.trans h.device)

theorem not_isBlk {mode : Nat} (h : ISCHR mode = true) : ¬ ISBLK mode = true := by
  intro h'
  have h : mode &&& IFMT = IFCHR := beq_iff_eq.mp h
  have h' : mode &&& IFMT = IFBLK := beq_iff_eq.mp h'
  exact absurd (h.symm.trans h') (by decide)

/-- Where the descriptor is no node, or one without a block device, only the number counts. -/
theorem asSaid_iff {k : Nat} (hk : Carried k M M')
    (hb : ∀ f x b, At M fd f x → Node M x (.block b) → ¬ ISBLK (M.kernel.desc x .mode) = true) :
    AsSaid d M fd count r M' ↔ r = k := by
  constructor
  · rintro ⟨l, hl, rfl, -⟩
    rw [hk.unique (carried_carry hl)]
  · rintro rfl
    obtain ⟨l, rfl, hl⟩ := hk
    exact ⟨l, hl, rfl, fun f x b hat hn hblk => absurd hblk (hb f x b hat hn)⟩

/-- **When `sys_read` and `sys_write` answer with the number of bytes they have carried**: when they count
    in bytes from the descriptor down to the driver. -/
theorem counts_inBytes (hc : count < 2 ^ 31) (h : Ends (d.call fd buf count) M r M') (hr : r ≠ eof) :
    AsSaid d M fd count r M' ↔ InBytes d M fd count := by
  obtain ⟨hpos, f, x, hat, hway⟩ := call_way hc h hr
  -- what is not a node is counted in bytes
  have hplain (hno : ∀ device, ¬ Node M x device) (hk : ∃ k, Carried k M M' ∧ r = k) :
      AsSaid d M fd count r M' ↔ InBytes d M fd count := by
    obtain ⟨k, hk, hrk⟩ := hk
    refine iff_of_true ((asSaid_iff hk fun f' x' b hat' hn => ?_).mpr hrk) fun f' x' device hat' hn => ?_
    · obtain ⟨rfl, rfl⟩ := hat.unique hat'
      exact absurd hn (hno _)
    · obtain ⟨rfl, rfl⟩ := hat.unique hat'
      exact absurd hn (hno _)
  cases hway with
  | pipe hp hk => exact hplain (fun device hn => absurd hn.pipe (by rw [hp]; decide)) hk
  | file hm hk => exact hplain (fun device hn => hm hn.mode) hk
  | node device hn hh =>
    obtain ⟨k, hk, hcase⟩ := hh
    cases device with
    | char c =>
      have hcase : r = k ↔ ¬ (d = .write ∧ c = .console) := hcase
      rw [asSaid_iff hk fun f' x' b hat' hn' => ?_, hcase]
      · constructor
        · intro hno f' x' device hat' hn'
          obtain ⟨rfl, rfl⟩ := hat.unique hat'
          rw [hn.unique hn']
          exact hno
        · exact fun hin => hin f x _ hat hn
      · obtain ⟨rfl, rfl⟩ := hat.unique hat'
        exact absurd (hn.unique hn') nofun
    | block b =>
      obtain ⟨hsame, hcase⟩ := hcase
      by_cases hchr : ISCHR (M.kernel.desc x .mode) = true
      · rw [if_pos hchr] at hcase
        rw [asSaid_iff hk fun f' x' b' hat' hn' => ?_, hcase]
        · constructor
          · intro hyes f' x' device hat' hn'
            obtain ⟨rfl, rfl⟩ := hat.unique hat'
            rw [hn.unique hn']
            exact ⟨hchr, hyes⟩
          · exact fun hin => (hin f x _ hat hn).2
        · obtain ⟨rfl, rfl⟩ := hat.unique hat'
          exact not_isBlk hchr
      · -- the offset of a block device's file is not advanced
        refine iff_of_false ?_ fun hin => hchr (hin f x _ hat hn).1
        rintro ⟨l, -, -, hoff⟩
        have hadv := (hoff f x b hat hn (hn.mode.resolve_left hchr)).2
        rw [hsame] at hadv
        omega

end Answer

/-! ## 6. Two descriptors -/

/-- Slot 1 holds a node with the mode `mode` for device 1, open for reading and writing as descriptor 3. -/
def nodeKernel (mode : Nat) : Kernel :=
  let s := Sample.kernelFile fun _ _ => 0
  { s with
    cache := { s.cache with
      disk := fun _ => Sample.descriptor 32 mode 0 1 1 fun _ => 0 }
    tab := { s.tab with
      task := fun _ => ⟨0, 0, 0, 0, 0, fun fd => if fd = 3 then some 0 else none⟩
      fileTable := fun _ => ⟨some 1, 1, 0, 2, mode⟩ } }

/-- A machine with `device` as device 1, and two bytes in every ring. -/
def sample (mode : Nat) (device : Device) : Machine where
  kernel := nodeKernel mode
  world := blankWorld
  devices := fun dev => if dev = 1 then some device else none
  console := ⟨MEM_BASE, MEM_BASE, 0, 0⟩
  channel := fun _ => ⟨⟨fun i => if i = 0 then 104 else 105, 64, 2, 0⟩, none, none⟩
  outside := ⟨fun _ c => c, fun _ => LSR_THRE, 1⟩
  sleeps := 0
  looks := 0
  moved := []

/-- Two keys are read. -/
theorem counts_inBytes_keyboard : ∃ M', Ends (Direction.read.call 3 0x8000000 2)
    (sample IFCHR (.char .keyboard)) 2 M' ∧
    (AsSaid .read (sample IFCHR (.char .keyboard)) 3 2 2 M' ↔
      InBytes .read (sample IFCHR (.char .keyboard)) 3 2) := by
  obtain ⟨r, M', h, hr⟩ := ends_of_run (p := Direction.read.call 3 0x8000000 2)
    (s := sample IFCHR (.char .keyboard)) (q := fun r _ => r == 2) (by decide)
  obtain rfl := beq_iff_eq.mp hr
  exact ⟨M', h, counts_inBytes (by decide) h (by decide)⟩

/-- The RAM disk's block 0. -/
def ramdiskNode : Machine := sample IFBLK (.block ⟨.ramdisk 0, rfl⟩)

/-- **One block of a RAM disk**: 512 bytes are carried, and the answer is 1. -/
theorem ramdisk_counts_sectors : ¬ ∀ (d : Direction) (M M' : Machine) (fd count : Nat) (buf : UInt32) (r : Int),
    count < 2 ^ 31 → Ends (d.call fd buf count) M r M' → r ≠ eof → AsSaid d M fd count r M' := by
  intro hall
  obtain ⟨r, M', h, hr⟩ := ends_of_run (p := Direction.read.call 3 0x8000000 1024) (s := ramdiskNode)
    (q := fun r M' => r == 1 && M'.moved.length == 512) (by decide +kernel)
  rw [Bool.and_eq_true, beq_iff_eq, beq_iff_eq] at hr
  obtain ⟨rfl, hlen⟩ := hr
  obtain ⟨l, hl, h1, -⟩ := hall .read ramdiskNode M' 3 1024 _ 1 (by decide) h (by decide)
  rw [hl] at hlen
  have : l.length = 512 := hlen
  omega

end Yuios.Rw
