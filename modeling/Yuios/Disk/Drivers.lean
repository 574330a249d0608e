/-
  File:      Yuios/Disk/Drivers.lean
  Subject:   WHAT A TRANSFER TOUCHES: the drivers of `kernel/ramdisk.c` and `kernel/ide.c`, and
             `device_read`, `device_write` and `device_request` of `kernel/device.c` above them.

  One call at a time: the lock of a disk's controller and the list of `device_request` let one transfer
  finish before the next begins. Sizes and positions have the widths of the source, so that sums wrap
  where they do.

  * A `Cell` is a byte of memory or a sector of a disk. A driver also says which cells of the device it
    has read or written.
  * `Own` -- the cells of a device: `[start, start + size)` of a RAM disk, the sectors
    `[start, start + count)` of a partition.
  * `Inside` -- what the source would have to ask of a call, and does not.
  * **`transfer_inside`** -- a call that is accepted stays in the cells of its device exactly when it is
    `Inside`.
-/
import Yuios.Disk.Model
import Yuios.Lib.Bytes

namespace Yuios.Disk

open Lib Kernel

/-! ## 1. The drivers -/

def SECTOR_SIZE : UInt32 := 512
abbrev RAMDISK_NR : Nat := 4
def KERNEL_MEMORY_SIZE : UInt32 := 0x1000000
def KERNEL_RAMDISK_MEM : UInt32 := 0xc00000
def KERNEL_RAMDISK_SIZE : UInt32 := 0x400000

/-- A byte of memory, or a sector of a disk. -/
inductive Cell where
  | ram (addr : UInt32)
  | sector (disk lba : Nat)
  deriving DecidableEq

/-- The memory, and the sectors of the disks. -/
structure World where
  mem : UInt32 → UInt8
  sector : Nat → Nat → Bytes

/-- A call of a driver that has returned: `touched` are the cells of the device it has accessed. -/
structure Done where
  ret : Int
  world : World
  touched : List Cell

/-- `memcpy`, byte by byte. -/
def memcpy (mem : UInt32 → UInt8) (dest src : UInt32) : Nat → UInt32 → UInt8
  | 0 => mem
  | n + 1 =>
    let mem := memcpy mem dest src n
    Function.update mem (dest + UInt32.ofNat n) (mem (src + UInt32.ofNat n))

/-- The bytes from `addr` on. -/
def ramCells (addr : UInt32) (n : Nat) : List Cell := (List.range n).map fun k => .ram (addr + UInt32.ofNat k)

/-- The sectors from `lba` on. -/
def sectorCells (disk lba n : Nat) : List Cell := (List.range n).map fun k => .sector disk (lba + k)

/-- The four RAM disks of `ramdisk_init`: `size` and `start`. -/
def ramdiskSize : UInt32 := KERNEL_RAMDISK_SIZE / UInt32.ofNat RAMDISK_NR

def ramdiskStart (i : Fin RAMDISK_NR) : UInt32 := KERNEL_RAMDISK_MEM + ramdiskSize * UInt32.ofNat i

def ramdiskRead (i : Fin RAMDISK_NR) (w : World) (buf : UInt32) (count : UInt8) (lba : UInt32) :
    Except Stop Done := do
  let addr := ramdiskStart i + lba * SECTOR_SIZE
  let len := count.toUInt32 * SECTOR_SIZE
  assert (addr + len < KERNEL_RAMDISK_MEM + KERNEL_MEMORY_SIZE)
  return ⟨count.toNat, { w with mem := memcpy w.mem buf addr len.toNat }, ramCells addr len.toNat⟩

def ramdiskWrite (i : Fin RAMDISK_NR) (w : World) (buf : UInt32) (count : UInt8) (lba : UInt32) :
    Except Stop Done := do
  let addr := ramdiskStart i + lba * SECTOR_SIZE
  let len := count.toUInt32 * SECTOR_SIZE
  assert (addr + len < KERNEL_RAMDISK_MEM + KERNEL_MEMORY_SIZE)
  return ⟨count.toNat, { w with mem := memcpy w.mem addr buf len.toNat }, ramCells addr len.toNat⟩

/-- `ide_select_sector`: the number in the four registers. -/
def ideSelectSector (lba : UInt32) : Nat :=
  (lba &&& 0xff).toNat + 2 ^ 8 * ((lba >>> 8) &&& 0xff).toNat +
    2 ^ 16 * ((lba >>> 16) &&& 0xff).toNat + 2 ^ 24 * ((lba >>> 24) &&& 0xf).toNat

/-- `ide_pio_read_sector` in the loop: the sectors from `lba` on go to `buf`. -/
def readSectors (w : World) (disk lba : Nat) (buf : UInt32) : Nat → World
  | 0 => w
  | n + 1 =>
    let w := readSectors w disk lba buf n
    let offset (a : UInt32) : Nat := (a - (buf + UInt32.ofNat n * SECTOR_SIZE)).toNat
    { w with mem := fun a => if offset a < 512 then w.sector disk (lba + n) (offset a) else w.mem a }

/-- `ide_pio_write_sector` in the loop. -/
def writeSectors (w : World) (disk lba : Nat) (buf : UInt32) : Nat → World
  | 0 => w
  | n + 1 =>
    let w := writeSectors w disk lba buf n
    let data : Bytes := fun j => w.mem (buf + UInt32.ofNat n * SECTOR_SIZE + UInt32.ofNat j)
    { w with sector := Function.update w.sector disk (Function.update (w.sector disk) (lba + n) data) }

def idePioRead (disk : Nat) (w : World) (buf : UInt32) (count : UInt8) (lba : UInt32) :
    Except Stop Done := do
  assert (0 < count)
  return ⟨0, readSectors w disk (ideSelectSector lba) buf count.toNat,
    sectorCells disk (ideSelectSector lba) count.toNat⟩

def idePioWrite (disk : Nat) (w : World) (buf : UInt32) (count : UInt8) (lba : UInt32) :
    Except Stop Done := do
  assert (0 < count)
  return ⟨0, writeSectors w disk (ideSelectSector lba) buf count.toNat,
    sectorCells disk (ideSelectSector lba) count.toNat⟩

/-- An `ide_part_t`: two words of the disk's first sector. -/
structure Part where
  disk : Nat
  start : UInt32
  count : UInt32

def idePioPartRead (part : Part) (w : World) (buf : UInt32) (count : UInt8) (lba : UInt32) :
    Except Stop Done := idePioRead part.disk w buf count (part.start + lba)

def idePioPartWrite (part : Part) (w : World) (buf : UInt32) (count : UInt8) (lba : UInt32) :
    Except Stop Done := idePioWrite part.disk w buf count (part.start + lba)

/-! ## 2. The devices -/

/-- `ptr` with the functions `ioctl`, `read` and `write`; those of a character device are its own, `NULL`
    is none. -/
inductive Driver where
  | ramdisk (i : Fin RAMDISK_NR)
  | disk (d : Nat)
  | part (p : Part)
  | char (read write : Option (World → (buf count idx : UInt32) → Except Stop Done))

namespace Driver

def type : Driver → DevType
  | .char _ _ => .char
  | _ => .block

def EOF : Int := -1

/-- `ioctl` with `DEV_CMD_SECTOR_START`. -/
def sectorStart : Driver → UInt32
  | .ramdisk _ => 0
  | .disk _ => 0
  | .part p => p.start
  | .char _ _ => UInt32.ofInt EOF

/-- `device->read(device->ptr, ...)`: the drivers of the block devices take the low byte of the count. -/
def read (driver : Driver) (w : World) (buf count idx : UInt32) : Except Stop Done :=
  match driver with
  | .ramdisk i => ramdiskRead i w buf count.toUInt8 idx
  | .disk d => idePioRead d w buf count.toUInt8 idx
  | .part p => idePioPartRead p w buf count.toUInt8 idx
  | .char none _ => .ok ⟨EOF, w, []⟩
  | .char (some f) _ => f w buf count idx

/-- `device->write(device->ptr, ...)`. -/
def write (driver : Driver) (w : World) (buf count idx : UInt32) : Except Stop Done :=
  match driver with
  | .ramdisk i => ramdiskWrite i w buf count.toUInt8 idx
  | .disk d => idePioWrite d w buf count.toUInt8 idx
  | .part p => idePioPartWrite p w buf count.toUInt8 idx
  | .char _ none => .ok ⟨EOF, w, []⟩
  | .char _ (some f) => f w buf count idx

end Driver

/-- An installed `device_t`; its list is in `Yuios/Disk/Model.lean`. -/
structure Installed where
  driver : Driver
  parent : Nat

/-- The devices, none where the type is `DEV_NULL`. -/
abbrev Table := Nat → Option Installed

namespace Table

/-- `device_get`. -/
def get (devices : Table) (dev : Nat) : Except Stop Installed := do
  assert (dev < DEVICE_NR)
  match devices dev with
  | none => .error .assertion
  | some device => return device

/-- `device_read`. -/
def read (devices : Table) (w : World) (dev : Nat) (buf count idx : UInt32) : Except Stop Done := do
  let device ← devices.get dev
  device.driver.read w buf count idx

/-- `device_write`. -/
def write (devices : Table) (w : World) (dev : Nat) (buf count idx : UInt32) : Except Stop Done := do
  let device ← devices.get dev
  device.driver.write w buf count idx

def doRequest (devices : Table) (w : World) (dev : Nat) (buf count idx : UInt32) (type : Nat) :
    Except Stop Done :=
  if type = REQ_READ then devices.read w dev buf count idx
  else if type = REQ_WRITE then devices.write w dev buf count idx
  else .error .panic

/-- `device_request`, when the list has come to the request. -/
def request (devices : Table) (w : World) (dev : Nat) (buf : UInt32) (count : UInt8) (idx : UInt32)
    (type : Nat) : Except Stop Done := do
  let device ← devices.get dev
  assert (device.driver.type == .block)
  let offset := idx + device.driver.sectorStart
  if device.parent = 0 then devices.doRequest w dev buf count.toUInt32 offset type
  else do
    let _ ← devices.get device.parent
    devices.doRequest w device.parent buf count.toUInt32 offset type

end Table

/-! ## 3. The installation -/

/-- A `part_entry_t`, as it is on the disk. -/
structure PartEntry where
  start : UInt32
  count : UInt32

/-- An `ide_disk_t` after `ide_identify` and `ide_part_init`. -/
structure IdeDisk where
  nr : Nat
  totalLba : UInt32
  entries : List PartEntry

namespace Table

/-- `get_null_device`, from device `i` on. -/
def getNullDevice (devices : Table) (i : Nat) : Nat → Except Stop Nat
  | 0 => .error .panic
  | n + 1 => if (devices i).isNone then .ok i else getNullDevice devices (i + 1) n

/-- `device_install`. -/
def install (devices : Table) (driver : Driver) (parent : Nat) : Except Stop (Nat × Table) := do
  let dev ← devices.getNullDevice 1 (DEVICE_NR - 1)
  return (dev, Function.update devices dev (some ⟨driver, parent⟩))

/-- `ramdisk_init`, for the RAM disks of the list. -/
def ramdiskInit : List (Fin RAMDISK_NR) → Table → Except Stop Table
  | [], devices => return devices
  | i :: rest, devices => do
    let (_, devices) ← devices.install (.ramdisk i) 0
    ramdiskInit rest devices

/-- `ide_install`, the inner loop: the partitions that have sectors. -/
def installParts (disk dev : Nat) : List PartEntry → Table → Except Stop Table
  | [], devices => return devices
  | entry :: rest, devices =>
    if entry.count = 0 then installParts disk dev rest devices
    else do
      let (_, devices) ← devices.install (.part ⟨disk, entry.start, entry.count⟩) dev
      installParts disk dev rest devices

/-- `ide_install`: the disks that have sectors. -/
def ideInstall : List IdeDisk → Table → Except Stop Table
  | [], devices => return devices
  | disk :: rest, devices =>
    if disk.totalLba = 0 then ideInstall rest devices
    else do
      let (dev, devices) ← devices.install (.disk disk.nr) 0
      let devices ← installParts disk.nr dev disk.entries devices
      ideInstall rest devices

end Table

/-! ## 4. What belongs to a device -/

/-- What the installations leave: the parent of a partition is its disk. -/
structure Table.Wired (devices : Table) : Prop where
  part : ∀ dev p parent, devices dev = some ⟨.part p, parent⟩ →
    parent ≠ 0 ∧ ∃ above, devices parent = some ⟨.disk p.disk, above⟩
  whole : ∀ dev device, devices dev = some device → (∀ p, device.driver ≠ .part p) → device.parent = 0

section Wired

variable {devices devices' : Table} {driver : Driver} {parent dev : Nat}

theorem of_getNullDevice {i n : Nat} (h : devices.getNullDevice i n = .ok dev) :
    devices dev = none ∧ i ≤ dev := by
  induction n generalizing i with
  | zero => cases h
  | succ n ih =>
    rw [Table.getNullDevice] at h
    by_cases hi : (devices i).isNone
    · rw [if_pos hi] at h
      obtain rfl := Except.ok.inj h
      exact ⟨Option.isNone_iff_eq_none.mp hi, Nat.le_refl _⟩
    · rw [if_neg hi] at h
      obtain ⟨hnone, hle⟩ := ih h
      exact ⟨hnone, Nat.le_of_succ_le hle⟩

/-- An installed device is new, and has a number. -/
theorem of_install (h : devices.install driver parent = .ok (dev, devices')) :
    devices dev = none ∧ dev ≠ 0 ∧ devices' = Function.update devices dev (some ⟨driver, parent⟩) := by
  obtain ⟨d, hget, h⟩ := ok_of_bind h
  obtain ⟨rfl, rfl⟩ := Prod.mk.inj (Except.ok.inj h)
  obtain ⟨hnone, hle⟩ := of_getNullDevice hget
  exact ⟨hnone, Nat.one_le_iff_ne_zero.mp hle, rfl⟩

theorem install_keeps (h : devices.install driver parent = .ok (dev, devices')) {d : Nat} {x : Installed}
    (hx : devices d = some x) : devices' d = some x := by
  obtain ⟨hnone, -, rfl⟩ := of_install h
  rw [Function.update_of_ne, hx]
  rintro rfl
  rw [hnone] at hx
  cases hx

theorem wired_empty : Table.Wired fun _ => none := ⟨nofun, nofun⟩

theorem Table.Wired.install (hw : devices.Wired) (h : devices.install driver parent = .ok (dev, devices'))
    (hpart : ∀ p, driver = .part p → parent ≠ 0 ∧ ∃ above, devices parent = some ⟨.disk p.disk, above⟩)
    (hwhole : (∀ p, driver ≠ .part p) → parent = 0) : devices'.Wired := by
  have hkeep {d : Nat} {x : Installed} := @install_keeps devices devices' driver parent dev h d x
  obtain ⟨-, -, rfl⟩ := of_install h
  refine ⟨fun d p q hd => ?_, fun d x hd hne => ?_⟩
  · by_cases e : d = dev
    · rw [e, Function.update_self] at hd
      cases hd
      obtain ⟨hpos, above, ha⟩ := hpart p rfl
      exact ⟨hpos, above, hkeep ha⟩
    · rw [Function.update_of_ne e] at hd
      obtain ⟨hpos, above, ha⟩ := hw.part d p q hd
      exact ⟨hpos, above, hkeep ha⟩
  · by_cases e : d = dev
    · rw [e, Function.update_self] at hd
      cases hd
      exact hwhole hne
    · rw [Function.update_of_ne e] at hd
      exact hw.whole d x hd hne

theorem ramdiskInit_wired {l : List (Fin RAMDISK_NR)} (hw : devices.Wired)
    (h : devices.ramdiskInit l = .ok devices') : devices'.Wired := by
  induction l generalizing devices with
  | nil => exact Except.ok.inj h ▸ hw
  | cons i rest ih =>
    obtain ⟨⟨dev, devices₁⟩, hins, h⟩ := ok_of_bind h
    exact ih (hw.install hins nofun fun _ => rfl) h

theorem installParts_wired {d above : Nat} {l : List PartEntry} (hw : devices.Wired) (hdev : dev ≠ 0)
    (hdisk : devices dev = some ⟨.disk d, above⟩)
    (h : devices.installParts d dev l = .ok devices') : devices'.Wired := by
  induction l generalizing devices with
  | nil => exact Except.ok.inj h ▸ hw
  | cons entry rest ih =>
    rw [Table.installParts] at h
    by_cases hc : entry.count = 0
    · rw [if_pos hc] at h
      exact ih hw hdisk h
    · rw [if_neg hc] at h
      obtain ⟨⟨dev₁, devices₁⟩, hins, h⟩ := ok_of_bind h
      refine ih (hw.install hins ?_ fun hne => absurd rfl (hne _)) (install_keeps hins hdisk) h
      intro p hp
      cases hp
      exact ⟨hdev, above, hdisk⟩

theorem ideInstall_wired {l : List IdeDisk} (hw : devices.Wired) (h : devices.ideInstall l = .ok devices') :
    devices'.Wired := by
  induction l generalizing devices with
  | nil => exact Except.ok.inj h ▸ hw
  | cons disk rest ih =>
    rw [Table.ideInstall] at h
    by_cases hc : disk.totalLba = 0
    · rw [if_pos hc] at h
      exact ih hw h
    · rw [if_neg hc] at h
      obtain ⟨⟨dev, devices₁⟩, hins, h⟩ := ok_of_bind h
      obtain ⟨devices₂, hparts, h⟩ := ok_of_bind h
      obtain ⟨-, hdev, htab⟩ := of_install hins
      have hdisk : devices₁ dev = some ⟨.disk disk.nr, 0⟩ :=
        (congrFun htab dev).trans (Function.update_self ..)
      exact ih (installParts_wired (hw.install hins nofun fun _ => rfl) hdev hdisk hparts) h

end Wired

/-- The cells of a RAM disk and of a partition. -/
def Driver.Own : Driver → Cell → Prop
  | .ramdisk i, .ram addr => ramdiskStart i ≤ addr ∧ addr < ramdiskStart i + ramdiskSize
  | .part p, .sector d lba => d = p.disk ∧ p.start.toNat ≤ lba ∧ lba < p.start.toNat + p.count.toNat
  | _, _ => False

/-- The cell is as before. -/
def Same (w w' : World) : Cell → Prop
  | .ram addr => w'.mem addr = w.mem addr
  | .sector d lba => w'.sector d lba = w.sector d lba

/-- A call of `device_request`, `device_read` or `device_write`. -/
inductive Transfer where
  | request (buf : UInt32) (count : UInt8) (idx : UInt32) (type : Nat)
  | read (buf count idx : UInt32)
  | write (buf count idx : UInt32)

namespace Transfer

def run (devices : Table) (w : World) (dev : Nat) : Transfer → Except Stop Done
  | .request buf count idx type => devices.request w dev buf count idx type
  | .read buf count idx => devices.read w dev buf count idx
  | .write buf count idx => devices.write w dev buf count idx

/-- It writes to the device. -/
def Writes : Transfer → Prop
  | .request _ _ _ type => type = REQ_WRITE
  | .read _ _ _ => False
  | .write _ _ _ => True

/-- The sectors a driver is asked for. -/
def sectors : Transfer → Nat
  | .request _ count _ _ => count.toNat
  | .read _ count _ => count.toUInt8.toNat
  | .write _ count _ => count.toUInt8.toNat

def idx : Transfer → UInt32
  | .request _ _ idx _ => idx
  | .read _ _ idx => idx
  | .write _ _ idx => idx

end Transfer

/-- **The transfer stays in the device**: it touches no cell of anything else, and a write leaves every
    other cell as it was. -/
structure Kept (driver : Driver) (w : World) (tr : Transfer) (r : Done) : Prop where
  touched : ∀ c ∈ r.touched, driver.Own c
  rest : tr.Writes → ∀ c, ¬ driver.Own c → Same w r.world c

/-- **What nothing asks**: a RAM disk has 2048 sectors, and the index is taken modulo 2^23; a partition
    has `count` sectors, and the disk knows 28 bits of the index. -/
def Inside (driver : Driver) (tr : Transfer) : Prop :=
  match driver with
  | .ramdisk _ => tr.sectors = 0 ∨ tr.idx.toNat % 2 ^ 23 + tr.sectors ≤ 2048
  | .part p => p.start.toNat + tr.idx.toNat % 2 ^ 28 < 2 ^ 28 ∧ tr.idx.toNat % 2 ^ 28 + tr.sectors ≤ p.count.toNat
  | _ => False

/-! ## 5. The cells of a call -/

section Cells

theorem mem_ramCells {addr : UInt32} {n : Nat} {c : Cell} :
    c ∈ ramCells addr n ↔ ∃ k < n, c = .ram (addr + UInt32.ofNat k) := by
  rw [ramCells, List.mem_map]
  constructor
  · rintro ⟨k, hk, rfl⟩
    exact ⟨k, List.mem_range.mp hk, rfl⟩
  · rintro ⟨k, hk, rfl⟩
    exact ⟨k, List.mem_range.mpr hk, rfl⟩

theorem mem_sectorCells {d lba n : Nat} {c : Cell} :
    c ∈ sectorCells d lba n ↔ ∃ k < n, c = .sector d (lba + k) := by
  rw [sectorCells, List.mem_map]
  constructor
  · rintro ⟨k, hk, rfl⟩
    exact ⟨k, List.mem_range.mp hk, rfl⟩
  · rintro ⟨k, hk, rfl⟩
    exact ⟨k, List.mem_range.mpr hk, rfl⟩

/-- A byte that `memcpy` does not reach. -/
theorem memcpy_other {mem : UInt32 → UInt8} {dest src a : UInt32} {n : Nat}
    (h : .ram a ∉ ramCells dest n) : memcpy mem dest src n a = mem a := by
  induction n with
  | zero => rfl
  | succ n ih =>
    have hne : a ≠ dest + UInt32.ofNat n := fun e =>
      h (mem_ramCells.mpr ⟨n, Nat.lt_succ_self n, congrArg Cell.ram e⟩)
    have hrest : Cell.ram a ∉ ramCells dest n := fun hm => by
      obtain ⟨k, hk, e⟩ := mem_ramCells.mp hm
      exact h (mem_ramCells.mpr ⟨k, Nat.lt_succ_of_lt hk, e⟩)
    exact (Function.update_of_ne hne _ _).trans (ih hrest)

/-- A sector that is not written. -/
theorem writeSectors_other {w : World} {d lba n d' l : Nat} {buf : UInt32}
    (h : .sector d' l ∉ sectorCells d lba n) :
    (writeSectors w d lba buf n).sector d' l = w.sector d' l := by
  induction n with
  | zero => rfl
  | succ n ih =>
    have hrest : Cell.sector d' l ∉ sectorCells d lba n := fun hm => by
      obtain ⟨k, hk, e⟩ := mem_sectorCells.mp hm
      exact h (mem_sectorCells.mpr ⟨k, Nat.lt_succ_of_lt hk, e⟩)
    rw [← ih hrest, writeSectors]
    by_cases hd : d' = d
    · have hne : l ≠ lba + n := fun e =>
        h (mem_sectorCells.mpr ⟨n, Nat.lt_succ_self n, by rw [hd, e]⟩)
      subst hd
      exact (congrFun (Function.update_self ..) l).trans (Function.update_of_ne hne _ _)
    · exact congrFun (Function.update_of_ne hd _ _) l

theorem writeSectors_mem (w : World) (d lba : Nat) (buf : UInt32) (n : Nat) :
    (writeSectors w d lba buf n).mem = w.mem := by
  induction n with
  | zero => rfl
  | succ n ih => exact ih

theorem writeSectors_same {w : World} {d lba n : Nat} {buf : UInt32} {c : Cell}
    (h : c ∉ sectorCells d lba n) : Same w (writeSectors w d lba buf n) c := by
  cases c with
  | ram addr => exact congrFun (writeSectors_mem w d lba buf n) addr
  | sector d' l => exact writeSectors_other h

/-- The disk knows 28 bits of the number. -/
theorem ideSelectSector_eq (lba : UInt32) : ideSelectSector lba = lba.toNat % 2 ^ 28 := by
  have hbyte (n : Nat) : n &&& 255 = n % 2 ^ 8 := Nat.and_two_pow_sub_one_eq_mod n 8
  have hnibble (n : Nat) : n &&& 15 = n % 2 ^ 4 := Nat.and_two_pow_sub_one_eq_mod n 4
  have e8 : (8 : UInt32).toNat % 32 = 8 := rfl
  have e16 : (16 : UInt32).toNat % 32 = 16 := rfl
  have e24 : (24 : UInt32).toNat % 32 = 24 := rfl
  have e255 : (0xff : UInt32).toNat = 255 := rfl
  have e15 : (0xf : UInt32).toNat = 15 := rfl
  simp only [ideSelectSector, UInt32.toNat_and, UInt32.toNat_shiftRight, e8, e16, e24, e255, e15, hbyte,
    hnibble, Nat.shiftRight_eq_div_pow]
  omega

end Cells

/-! ## 6. The calls -/

/-- The cells that a driver goes to. -/
def Driver.reach (driver : Driver) (count : Nat) (idx : UInt32) : List Cell :=
  match driver with
  | .ramdisk i => ramCells (ramdiskStart i + idx * SECTOR_SIZE) (count * 512)
  | .disk d => sectorCells d (idx.toNat % 2 ^ 28) count
  | .part p => sectorCells p.disk ((p.start + idx).toNat % 2 ^ 28) count
  | .char _ _ => []

section Calls

variable {driver : Driver} {w : World} {buf count idx : UInt32} {r : Done}

theorem toNat_len (count : UInt8) : (count.toUInt32 * SECTOR_SIZE).toNat = count.toNat * 512 := by
  have h := count.toNat_lt
  rw [UInt32.toNat_mul, UInt8.toNat_toUInt32]
  show count.toNat * 512 % 2 ^ 32 = _
  omega

/-- What a driver of a block device is known to do. -/
structure Reaches (driver : Driver) (count : UInt8) (idx : UInt32) (r : Done) : Prop where
  cells : r.touched = driver.reach count.toNat idx
  some : (∀ i, driver ≠ .ramdisk i) → 0 < count.toNat

theorem of_idePio {n : UInt8} {x : Done} (h : (Kernel.assert (0 < n) >>= fun _ => pure x) = .ok r) :
    0 < n.toNat ∧ x = r := by
  obtain ⟨hn, hx⟩ := of_assert h
  exact ⟨UInt8.lt_iff_toNat_lt.mp (of_decide_eq_true hn), Except.ok.inj hx⟩

theorem read_reaches (hb : driver.type = .block) (h : driver.read w buf count idx = .ok r) :
    Reaches driver count.toUInt8 idx r := by
  cases driver with
  | ramdisk i =>
    obtain ⟨-, hr⟩ := of_assert h
    rw [← Except.ok.inj hr]
    exact ⟨by rw [toNat_len]; rfl, fun hne => absurd rfl (hne i)⟩
  | disk d =>
    obtain ⟨hn, rfl⟩ := of_idePio h
    exact ⟨by rw [ideSelectSector_eq]; rfl, fun _ => hn⟩
  | part p =>
    obtain ⟨hn, rfl⟩ := of_idePio h
    exact ⟨by rw [ideSelectSector_eq]; rfl, fun _ => hn⟩
  | char f g => cases hb

theorem write_reaches (hb : driver.type = .block) (h : driver.write w buf count idx = .ok r) :
    Reaches driver count.toUInt8 idx r ∧ ∀ c, c ∉ r.touched → Same w r.world c := by
  cases driver with
  | ramdisk i =>
    obtain ⟨-, hr⟩ := of_assert h
    rw [← Except.ok.inj hr]
    refine ⟨⟨by rw [toNat_len]; rfl, fun hne => absurd rfl (hne i)⟩, fun c hc => ?_⟩
    cases c with
    | ram addr => exact memcpy_other hc
    | sector d lba => rfl
  | disk d =>
    obtain ⟨hn, rfl⟩ := of_idePio h
    exact ⟨⟨by rw [ideSelectSector_eq]; rfl, fun _ => hn⟩, fun c hc => writeSectors_same hc⟩
  | part p =>
    obtain ⟨hn, rfl⟩ := of_idePio h
    exact ⟨⟨by rw [ideSelectSector_eq]; rfl, fun _ => hn⟩, fun c hc => writeSectors_same hc⟩
  | char f g => cases hb

theorem of_get {devices : Table} {dev : Nat} {device : Installed} (h : devices.get dev = .ok device) :
    devices dev = some device := by
  obtain ⟨-, h⟩ := of_assert h
  cases hd : devices dev with
  | none =>
    rw [hd] at h
    cases h
  | some d =>
    rw [hd] at h
    rw [Except.ok.inj h]

theorem doRequest_reaches {devices : Table} {device : Installed} {dev type : Nat} {count : UInt8}
    (hd : devices dev = some device) (hb : device.driver.type = .block)
    (h : devices.doRequest w dev buf count.toUInt32 idx type = .ok r) :
    Reaches device.driver count idx r ∧ (type = REQ_WRITE → ∀ c, c ∉ r.touched → Same w r.world c) := by
  rw [Table.doRequest] at h
  by_cases hread : type = REQ_READ
  · rw [if_pos hread] at h
    obtain ⟨d, hg, h⟩ := ok_of_bind h
    obtain rfl := Option.some.inj (hd.symm.trans (of_get hg))
    have := read_reaches hb h
    rw [UInt8.toUInt8_toUInt32] at this
    refine ⟨this, fun hwrite => ?_⟩
    rw [hread] at hwrite
    cases hwrite
  · rw [if_neg hread] at h
    by_cases hwrite : type = REQ_WRITE
    · rw [if_pos hwrite] at h
      obtain ⟨d, hg, h⟩ := ok_of_bind h
      obtain rfl := Option.some.inj (hd.symm.trans (of_get hg))
      have := write_reaches hb h
      rw [UInt8.toUInt8_toUInt32] at this
      exact ⟨this.1, fun _ => this.2⟩
    · rw [if_neg hwrite] at h
      cases h

/-- A partition's start is added above its disk. -/
theorem reach_part {p : Part} {n : Nat} :
    (Driver.disk p.disk).reach n (idx + (Driver.part p).sectorStart) = (Driver.part p).reach n idx := by
  show sectorCells p.disk ((idx + p.start).toNat % 2 ^ 28) n = _
  rw [UInt32.add_comm]
  rfl

/-- **What a call does** that is accepted for a block device. -/
theorem run_reaches {devices : Table} {device : Installed} {dev : Nat} {tr : Transfer}
    (hw : devices.Wired) (hd : devices dev = some device) (hb : device.driver.type = .block)
    (h : tr.run devices w dev = .ok r) :
    r.touched = device.driver.reach tr.sectors tr.idx ∧
      ((∀ i, device.driver ≠ .ramdisk i) → 0 < tr.sectors) ∧
      (tr.Writes → ∀ c, c ∉ r.touched → Same w r.world c) := by
  cases tr with
  | read buf count idx =>
    obtain ⟨d, hg, h⟩ := ok_of_bind h
    obtain rfl := Option.some.inj (hd.symm.trans (of_get hg))
    obtain ⟨hcells, hsome⟩ := read_reaches hb h
    exact ⟨hcells, hsome, nofun⟩
  | write buf count idx =>
    obtain ⟨d, hg, h⟩ := ok_of_bind h
    obtain rfl := Option.some.inj (hd.symm.trans (of_get hg))
    obtain ⟨⟨hcells, hsome⟩, hrest⟩ := write_reaches hb h
    exact ⟨hcells, hsome, fun _ => hrest⟩
  | request buf count idx type =>
    obtain ⟨d, hg, h⟩ := ok_of_bind h
    obtain rfl := Option.some.inj (hd.symm.trans (of_get hg))
    obtain ⟨-, h⟩ := of_assert h
    obtain ⟨driver, parent⟩ := device
    by_cases hp : parent = 0
    · rw [if_pos hp] at h
      obtain ⟨⟨hcells, hsome⟩, hrest⟩ := doRequest_reaches hd hb h
      refine ⟨hcells.trans ?_, hsome, hrest⟩
      cases driver with
      | ramdisk i => exact congrArg ((Driver.ramdisk i).reach count.toNat) (UInt32.add_zero idx)
      | disk d => exact congrArg ((Driver.disk d).reach count.toNat) (UInt32.add_zero idx)
      | part p => exact absurd hp (hw.part dev p parent hd).1
      | char f g => cases hb
    · rw [if_neg hp] at h
      obtain ⟨disk, hg', h⟩ := ok_of_bind h
      obtain ⟨p, rfl⟩ : ∃ p, driver = .part p := by
        by_contra hne
        exact hp (hw.whole dev _ hd fun p e => hne ⟨p, e⟩)
      obtain ⟨above, habove⟩ := (hw.part dev p parent hd).2
      obtain rfl := Option.some.inj (habove.symm.trans (of_get hg'))
      obtain ⟨⟨hcells, hsome⟩, hrest⟩ := doRequest_reaches (of_get hg') rfl h
      exact ⟨hcells.trans reach_part, fun _ => hsome nofun, hrest⟩

end Calls

/-! ## 7. Inside and outside -/

section Inside

theorem ramdiskStart_toNat (i : Fin RAMDISK_NR) :
    (ramdiskStart i).toNat = 12582912 + 1048576 * i.val ∧
      (ramdiskStart i + ramdiskSize).toNat = 12582912 + 1048576 * i.val + 1048576 := by
  revert i
  decide

theorem toNat_byte (a : UInt32) {k : Nat} (hk : k < 2 ^ 32) :
    (a + UInt32.ofNat k).toNat = (a.toNat + k) % 2 ^ 32 := by
  rw [UInt32.toNat_add, UInt32.toNat_ofNat_of_lt' hk]

/-- The bytes of a RAM disk. -/
theorem ramdisk_inside (i : Fin RAMDISK_NR) (n : Nat) (idx : UInt32) (hn : n < 256) :
    (∀ c ∈ (Driver.ramdisk i).reach n idx, (Driver.ramdisk i).Own c) ↔
      n = 0 ∨ idx.toNat % 2 ^ 23 + n ≤ 2048 := by
  obtain ⟨hstart, hend⟩ := ramdiskStart_toNat i
  have hi : i.val < 4 := i.isLt
  have hidx := idx.toNat_lt
  have haddr : (ramdiskStart i + idx * SECTOR_SIZE).toNat =
      (12582912 + 1048576 * i.val + idx.toNat % 2 ^ 23 * 512) % 2 ^ 32 := by
    rw [UInt32.toNat_add, UInt32.toNat_mul, hstart]
    show (_ + idx.toNat * 512 % 2 ^ 32) % 2 ^ 32 = _
    omega
  have hown (k : Nat) (hk : k < n * 512) :
      (Driver.ramdisk i).Own (.ram (ramdiskStart i + idx * SECTOR_SIZE + UInt32.ofNat k)) ↔
        12582912 + 1048576 * i.val ≤ (12582912 + 1048576 * i.val + idx.toNat % 2 ^ 23 * 512 + k) % 2 ^ 32 ∧
        (12582912 + 1048576 * i.val + idx.toNat % 2 ^ 23 * 512 + k) % 2 ^ 32 <
          12582912 + 1048576 * i.val + 1048576 := by
    show ramdiskStart i ≤ _ ∧ _ < ramdiskStart i + ramdiskSize ↔ _
    rw [UInt32.le_iff_toNat_le, UInt32.lt_iff_toNat_lt, toNat_byte _ (by omega), haddr, hstart, hend,
      Nat.mod_add_mod]
  constructor
  · intro h
    by_contra hout
    rw [not_or, not_le] at hout
    -- the first byte behind the RAM disk, or the first of the transfer
    obtain ⟨k, hk⟩ : ∃ k, k = 1048576 - idx.toNat % 2 ^ 23 * 512 := ⟨_, rfl⟩
    have := (hown k (by omega)).mp (h _ (mem_ramCells.mpr ⟨k, by omega, rfl⟩))
    omega
  · intro hin c hc
    obtain ⟨k, hk, rfl⟩ := mem_ramCells.mp hc
    refine (hown k hk).mpr ?_
    omega

/-- The sectors of a partition. -/
theorem part_inside (p : Part) (n : Nat) (idx : UInt32) (hn : 0 < n) :
    (∀ c ∈ (Driver.part p).reach n idx, (Driver.part p).Own c) ↔
      p.start.toNat + idx.toNat % 2 ^ 28 < 2 ^ 28 ∧ idx.toNat % 2 ^ 28 + n ≤ p.count.toNat := by
  have hlba : (p.start + idx).toNat % 2 ^ 28 = (p.start.toNat + idx.toNat % 2 ^ 28) % 2 ^ 28 := by
    rw [UInt32.toNat_add]
    omega
  constructor
  · intro h
    have hfirst := h _ (mem_sectorCells.mpr ⟨0, hn, rfl⟩)
    have hlast := h _ (mem_sectorCells.mpr ⟨n - 1, by omega, rfl⟩)
    obtain ⟨-, h1, h2⟩ := hfirst
    obtain ⟨-, h3, h4⟩ := hlast
    rw [hlba] at h1 h2 h3 h4
    omega
  · intro ⟨hdisk, hroom⟩ c hc
    obtain ⟨k, hk, rfl⟩ := mem_sectorCells.mp hc
    refine ⟨rfl, ?_, ?_⟩
    · rw [hlba]
      omega
    · rw [hlba]
      omega

theorem Transfer.sectors_lt (tr : Transfer) : tr.sectors < 256 := by
  cases tr with
  | request buf count idx type => exact count.toNat_lt
  | read buf count idx => exact count.toUInt8.toNat_lt
  | write buf count idx => exact count.toUInt8.toNat_lt

/-- **A call that is accepted for a RAM disk or a partition stays inside exactly when its sectors lie in
    the device**, the index taken modulo 2^23 or 2^28. -/
theorem transfer_inside {devices : Table} {device : Installed} {w : World} {dev : Nat} {tr : Transfer}
    {r : Done} (hw : devices.Wired) (hd : devices dev = some device)
    (harea : (∃ i, device.driver = .ramdisk i) ∨ ∃ p, device.driver = .part p)
    (h : tr.run devices w dev = .ok r) : Kept device.driver w tr r ↔ Inside device.driver tr := by
  obtain ⟨driver, parent⟩ := device
  have hb : driver.type = .block := by
    rcases harea with ⟨i, rfl⟩ | ⟨p, rfl⟩
    · rfl
    · rfl
  obtain ⟨hcells, hsome, hrest⟩ := run_reaches hw hd hb h
  have htouched : Kept driver w tr r ↔ ∀ c ∈ driver.reach tr.sectors tr.idx, driver.Own c := by
    rw [← hcells]
    exact ⟨fun hk => hk.touched, fun ht => ⟨ht, fun hwr c hc => hrest hwr c fun hm => hc (ht c hm)⟩⟩
  refine htouched.trans ?_
  rcases harea with ⟨i, rfl⟩ | ⟨p, rfl⟩
  · exact ramdisk_inside i _ _ tr.sectors_lt
  · exact part_inside p _ _ (hsome nofun)

end Inside

/-- The four RAM disks, and a disk with one partition. -/
def installed : Except Stop Table := do
  let devices ← Table.ramdiskInit (List.finRange RAMDISK_NR) fun _ => none
  devices.ideInstall [⟨0, 1000, [⟨63, 100⟩]⟩]

def bootTable : Table := installed.toOption.getD fun _ => none

theorem bootTable_wired : bootTable.Wired := by
  have hok : installed.isOk := rfl
  rw [bootTable]
  cases h : installed with
  | error e =>
    rw [h] at hok
    cases hok
  | ok devices =>
    obtain ⟨devices₁, hram, hide⟩ := ok_of_bind h
    exact ideInstall_wired (ramdiskInit_wired wired_empty hram) hide

def blankWorld : World := ⟨fun _ => 0, fun _ _ _ => 0⟩

/-- The last two sectors of the first RAM disk. -/
theorem transfer_inside_last : ∃ r, (Transfer.write 0 2 2046).run bootTable blankWorld 1 = .ok r ∧
    Kept (.ramdisk 0) blankWorld (.write 0 2 2046) r := by
  have hd : bootTable 1 = some ⟨.ramdisk 0, 0⟩ := rfl
  obtain ⟨r, hrun⟩ : ∃ r, (Transfer.write 0 2 2046).run bootTable blankWorld 1 = .ok r := ⟨_, rfl⟩
  exact ⟨r, hrun, (transfer_inside bootTable_wired hd (.inl ⟨0, rfl⟩) hrun).mpr (.inr (by decide))⟩

/-- **The two sectors behind a RAM disk** belong to the next: the write is accepted. -/
theorem ramdisk_overruns : ¬ ∀ (devices : Table) (device : Installed) (w : World) (dev : Nat) (tr : Transfer)
    (r : Done), devices.Wired → devices dev = some device →
      ((∃ i, device.driver = .ramdisk i) ∨ ∃ p, device.driver = .part p) →
      tr.run devices w dev = .ok r → Kept device.driver w tr r := by
  intro h
  have hd : bootTable 1 = some ⟨.ramdisk 0, 0⟩ := rfl
  obtain ⟨r, hrun⟩ : ∃ r, (Transfer.write 0 2 2048).run bootTable blankWorld 1 = .ok r := ⟨_, rfl⟩
  have hk := h bootTable _ blankWorld 1 (.write 0 2 2048) r bootTable_wired hd (.inl ⟨0, rfl⟩) hrun
  obtain ⟨hcells, -, -⟩ := run_reaches bootTable_wired hd rfl hrun
  have hinside := (ramdisk_inside 0 2 2048 (by decide)).mp (hcells ▸ hk.touched)
  revert hinside
  decide

end Yuios.Disk
