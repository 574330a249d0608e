/-
  File:      Yuios/Cache/Place.lean
  Subject:   WHERE A BLOCK IS: the sectors that a pair of a device and a block names for
             `device_request`.

  The cache knows a block by its device and its number. On the disk a block is two sectors, and two
  pairs can name the same ones: a partition lies on a disk, the numbers are multiplied in 32 bits.

  * `request_touched` -- the cells of a request are those the drivers of `Yuios/Disk/Drivers.lean` touch.
  * `Apart` -- a block shares no sector with another block of a set.
  * `deviceRequest_part`, `deviceRequest_wrap` -- two pairs, one request.
-/
import Mathlib.Data.Set.Defs
import Yuios.Cache.Model

namespace Yuios.BufferCache

open Kernel

/-! ## 1. The cells of a request -/

section Request

variable {r r' : Request}

/-- The two sectors are two. -/
theorem Request.cell_inj {i j : Fin BLOCK_SECS} (h : r.cell i = r.cell j) : i = j := by
  obtain ⟨drive, lba⟩ := r
  cases drive with
  | disk d =>
    have := (Disk.Cell.sector.inj h).2
    omega
  | ramdisk d =>
    have hoff := UInt32.add_right_inj _ |>.mp (Disk.Cell.ram.inj h)
    clear h
    revert i j
    decide

/-- What a driver touches for the request. -/
def Request.touched (r : Request) : List Disk.Cell :=
  match r.drive with
  | .ramdisk i => Disk.ramCells (r.addr i) 1024
  | .disk d => Disk.sectorCells d (Disk.ideSelectSector r.lba) BLOCK_SECS

theorem Request.cell_touched (r : Request) (k : Fin BLOCK_SECS) : r.cell k ∈ r.touched := by
  obtain ⟨drive, lba⟩ := r
  cases drive with
  | disk d => exact Disk.mem_sectorCells.mpr ⟨k, k.isLt, rfl⟩
  | ramdisk i =>
    have hk : k.val < 2 := k.isLt
    refine Disk.mem_ramCells.mpr ⟨k * 512, by omega, ?_⟩
    rw [UInt32.ofNat_mul]
    rfl

/-- RAM disks and sectors begin at multiples of 512. -/
theorem Request.addr_toNat (r : Request) (i : Fin Disk.RAMDISK_NR) :
    (r.addr i).toNat = (12582912 + 1048576 * i.val + r.lba.toNat % 2 ^ 23 * 512) % 2 ^ 32 := by
  obtain ⟨hstart, -⟩ := Disk.ramdiskStart_toNat i
  have hi : i.val < 4 := i.isLt
  have hlba := r.lba.toNat_lt
  rw [Request.addr, UInt32.toNat_add, UInt32.toNat_mul, hstart]
  show (_ + r.lba.toNat * 512 % 2 ^ 32) % 2 ^ 32 = _
  omega

/-- **Requests that share no sector touch nothing in common.** -/
theorem Request.touched_apart (h : ∀ i j, r.cell i ≠ r'.cell j) {c : Disk.Cell} (hc : c ∈ r.touched) :
    c ∉ r'.touched := by
  intro hc'
  cases hr : r.drive with
  | disk d =>
    rw [Request.touched, hr] at hc
    obtain ⟨k, hk, rfl⟩ := Disk.mem_sectorCells.mp hc
    cases hr' : r'.drive with
    | ramdisk i =>
      rw [Request.touched, hr'] at hc'
      obtain ⟨_, _, e⟩ := Disk.mem_ramCells.mp hc'
      cases e
    | disk d' =>
      rw [Request.touched, hr'] at hc'
      obtain ⟨k', hk', e⟩ := Disk.mem_sectorCells.mp hc'
      refine h ⟨k, hk⟩ ⟨k', hk'⟩ ?_
      simpa only [Request.cell, hr, hr'] using e
  | ramdisk i =>
    rw [Request.touched, hr] at hc
    obtain ⟨k, hk, rfl⟩ := Disk.mem_ramCells.mp hc
    cases hr' : r'.drive with
    | disk d =>
      rw [Request.touched, hr'] at hc'
      obtain ⟨_, _, e⟩ := Disk.mem_sectorCells.mp hc'
      cases e
    | ramdisk i' =>
      rw [Request.touched, hr'] at hc'
      obtain ⟨k', hk', e⟩ := Disk.mem_ramCells.mp hc'
      refine h ⟨k / 512, Nat.div_lt_of_lt_mul hk⟩ ⟨k' / 512, Nat.div_lt_of_lt_mul hk'⟩ ?_
      simp only [Request.cell, hr, hr']
      have e := congrArg UInt32.toNat (Disk.Cell.ram.inj e)
      have ha := r.addr_toNat i
      have ha' := r'.addr_toNat i'
      refine congrArg Disk.Cell.ram (UInt32.toNat_inj.mp ?_)
      rw [Disk.toNat_byte _ (by omega), Disk.toNat_byte _ (by omega)] at e
      rw [UInt32.toNat_add, UInt32.toNat_add, UInt32.toNat_mul, UInt32.toNat_mul,
        UInt32.toNat_ofNat_of_lt' (by show k / 512 < 2 ^ 32; omega),
        UInt32.toNat_ofNat_of_lt' (by show k' / 512 < 2 ^ 32; omega)]
      show (_ + k / 512 * 512 % 2 ^ 32) % 2 ^ 32 = (_ + k' / 512 * 512 % 2 ^ 32) % 2 ^ 32
      omega

end Request

/-! ## 2. The request for a block -/

section Block

variable {devices : Disk.Table} {dev : Int} {block : Nat} {r : Request}

theorem driverRequest_reach {driver : Disk.Driver} {idx : UInt32} (h : driverRequest driver idx = .ok r) :
    driver.reach BLOCK_SECS idx = r.touched := by
  cases driver with
  | ramdisk i => cases h; rfl
  | disk d =>
    cases h
    rw [Request.touched, Disk.ideSelectSector_eq]
    rfl
  | part p =>
    cases h
    rw [Request.touched, Disk.ideSelectSector_eq]
    rfl
  | char f g => cases h

/-- **What `device_request` touches** for a block are the cells of its request. -/
theorem request_touched {n : Nat} (hr : deviceRequest devices n block = .ok r) {w : Disk.World} {buf : UInt32}
    {type : Nat} {d : Disk.Done}
    (h : devices.request w n buf 2 (UInt32.ofNat block * 2) type = .ok d) : d.touched = r.touched := by
  obtain ⟨device, hget, hr⟩ := ok_of_bind hr
  rw [deviceGet, if_neg (by omega), Int.toNat_natCast] at hget
  obtain ⟨hblock, hr⟩ := of_assert hr
  obtain ⟨device', hget', h⟩ := ok_of_bind h
  cases hget.symm.trans hget'
  obtain ⟨-, h⟩ := of_assert h
  have hb : device.driver.type = .block := beq_iff_eq.mp hblock
  by_cases hp : device.parent = 0
  · rw [if_pos hp] at h
    simp only [if_pos hp] at hr
    exact (Disk.doRequest_reaches (Disk.of_get hget) hb h).1.cells.trans (driverRequest_reach hr)
  · rw [if_neg hp] at h
    simp only [if_neg hp] at hr
    obtain ⟨above, ha, h⟩ := ok_of_bind h
    obtain ⟨above', ha', hr⟩ := ok_of_bind hr
    cases ha.symm.trans ha'
    have hab : above.driver.type = .block := by
      cases e : above.driver with
      | char f g =>
        rw [e] at hr
        cases hr
      | _ => rfl
    exact (Disk.doRequest_reaches (Disk.of_get ha) hab h).1.cells.trans (driverRequest_reach hr)

/-- **The number wraps**: `block * BLOCK_SECS` has 32 bits. -/
theorem deviceRequest_wrap (devices : Disk.Table) (dev : Int) (block : Nat) :
    deviceRequest devices dev (block + 2 ^ 31) = deviceRequest devices dev block := by
  have e : UInt32.ofNat (block + 2 ^ 31) * UInt32.ofNat BLOCK_SECS =
      UInt32.ofNat block * UInt32.ofNat BLOCK_SECS := by
    rw [UInt32.ofNat_add, UInt32.add_mul]
    exact UInt32.add_zero _
  rw [deviceRequest, e]
  rfl

/-- **A block of a partition is one of the disk.** -/
theorem deviceRequest_part {n disk : Nat} {p : Disk.Part} {d k : Nat}
    (hpart : devices.get n = .ok ⟨.part p, disk⟩) (hdisk : devices.get disk = .ok ⟨.disk d, 0⟩)
    (hne : disk ≠ 0) (hstart : p.start = UInt32.ofNat (2 * k)) :
    deviceRequest devices n block = deviceRequest devices disk (k + block) := by
  have hidx : UInt32.ofNat block * UInt32.ofNat BLOCK_SECS + p.start =
      UInt32.ofNat (k + block) * UInt32.ofNat BLOCK_SECS + 0 := by
    rw [hstart, UInt32.ofNat_mul, UInt32.ofNat_add, UInt32.add_mul, UInt32.add_zero, UInt32.add_comm,
      UInt32.mul_comm]
  have hget {m : Nat} {x : Disk.Installed} (hx : devices.get m = .ok x) : deviceGet devices m = .ok x := by
    rw [deviceGet, if_neg (Int.not_lt.mpr (Int.natCast_nonneg m))]
    exact hx
  have hleft : deviceRequest devices n block =
      .ok ⟨.disk d, UInt32.ofNat block * UInt32.ofNat BLOCK_SECS + p.start⟩ := by
    refine bind_of_ok (hget hpart) (bind_of_ok rfl ?_)
    dsimp only
    rw [if_neg hne, hdisk]
    rfl
  have hright : deviceRequest devices disk (k + block) =
      .ok ⟨.disk d, UInt32.ofNat (k + block) * UInt32.ofNat BLOCK_SECS + 0⟩ :=
    bind_of_ok (hget hdisk) rfl
  rw [hleft, hright, hidx]

end Block

/-! ## 3. The sectors of a block -/

/-- The sectors of a block, if there is a request for it. -/
def place (devices : Disk.Table) (dev : Int) (block : Nat) : Fin BLOCK_SECS → Disk.Cell :=
  match deviceRequest devices dev block with
  | .ok r => r.cell
  | .error _ => fun k => .sector 0 k

/-- **The block shares no sector** with another one of `keys`. -/
def Apart (devices : Disk.Table) (keys : Set (Int × Nat)) (key : Int × Nat) : Prop :=
  ∀ k ∈ keys, k ≠ key → ∀ i j, place devices k.1 k.2 i ≠ place devices key.1 key.2 j

/-- The sectors of a block, of the store or of the disks, changed. -/
def setBlock {α : Type} (d : Disk.Cell → α) (cells : Fin BLOCK_SECS → Disk.Cell) (v : Sectors α) :
    Disk.Cell → α :=
  (List.finRange BLOCK_SECS).foldl (fun d i => Function.update d (cells i) (v i)) d

section Place

variable {α : Type} {devices : Disk.Table} {dev : Int} {block : Nat} {r : Request}

theorem place_of (h : deviceRequest devices dev block = .ok r) : place devices dev block = r.cell := by
  rw [place, h]

theorem place_inj {i j : Fin BLOCK_SECS} (h : place devices dev block i = place devices dev block j) :
    i = j := by
  cases hr : deviceRequest devices dev block with
  | ok r =>
    rw [place_of hr] at h
    exact Request.cell_inj h
  | error e =>
    simp only [place, hr, Disk.Cell.sector.injEq, true_and] at h
    exact Fin.ext h

theorem setBlock_at (d : Disk.Cell → α) (v : Sectors α) (i : Fin BLOCK_SECS) :
    setBlock d (place devices dev block) v (place devices dev block i) = v i := by
  change Function.update (Function.update d (place devices dev block 0) (v 0)) (place devices dev block 1) (v 1) _ = _
  match i with
  | 0 =>
    rw [Function.update_of_ne fun e => absurd (place_inj e) (by decide), Function.update_self]
  | 1 => rw [Function.update_self]

theorem setBlock_of_ne (d : Disk.Cell → α) (v : Sectors α) {cells : Fin BLOCK_SECS → Disk.Cell} {c : Disk.Cell}
    (h : ∀ i, c ≠ cells i) : setBlock d cells v c = d c := by
  change Function.update (Function.update d (cells 0) (v 0)) (cells 1) (v 1) c = _
  rw [Function.update_of_ne (h 1), Function.update_of_ne (h 0)]

end Place

end Yuios.BufferCache
