/-
  File:      Yuios/Kernel/KernelPages.lean
  Subject:   THE KERNEL'S PAGES: `alloc_kpage` and `free_kpage` over the bitmap `kernel_bitmap`.

  * `bitmapScan_spec` -- the scan takes the lowest run of clear bits, `resetPage_spec` clears one.
  * `Marked` -- the invariant: the bits that are set are those of the memory array and of the runs that
    are allocated, which do not meet.
  * `RoomBelow` -- what `memory_map_init` does not see to: below the buffer cache there is a run that
    is long enough.
  * **`kpages_apart`** -- in every state reached, the run that is returned meets no other run and not
    the memory array; it meets neither the buffer cache nor the RAM disks exactly if there was room
    below.
  * `kpages_meet` -- seven megabytes for one caller.
-/
import Mathlib.Data.List.Pairwise
import Mathlib.Order.CompletePartialOrder
import Mathlib.Order.Interval.Set.Disjoint
import Yuios.Fs.Scan
import Yuios.Kernel.Moves

namespace Yuios.Paging

open Lib
open Kernel (of_assert)

def KERNEL_BUFFER_MEM : Nat := 0x800000
def KERNEL_BUFFER_SIZE : Nat := 0x400000
def KERNEL_RAMDISK_MEM : Nat := KERNEL_BUFFER_MEM + KERNEL_BUFFER_SIZE
def KERNEL_RAMDISK_SIZE : Nat := 0x400000

/-! ## 1. The bitmap of the kernel's pages -/

/-- `bitmap_init` of `kernel_bitmap`. -/
def kernelBitmap : Bitmap where
  bits := fun _ => 0
  length := (IDX KERNEL_MEMORY_SIZE - IDX MEMORY_BASE) / 8
  offset := IDX MEMORY_BASE
  room := (IDX KERNEL_MEMORY_SIZE - IDX MEMORY_BASE) / 8

/-- The end of `memory_map_init`: the pages of the memory array are taken. -/
def memoryMapInit (totalPages : Nat) : Except Stop Bitmap := do
  match ← bitmapScan kernelBitmap (divRoundUp totalPages PAGE_SIZE) with
  | none => return kernelBitmap
  | some (_, map) => return map

/-- The loop of `reset_page`. -/
def resetLoop : (map : Bitmap) → (n index : Nat) → Except Stop Bitmap
  | map, 0, _ => return map
  | map, n + 1, index => do
    let set ← bitmapTest map index
    Kernel.assert set
    let map ← bitmapSet map index false
    resetLoop map n (index + 1)

/-- `reset_page`. -/
def resetPage (map : Bitmap) (addr count : Nat) : Except Stop Bitmap := do
  Kernel.assert (addr % PAGE_SIZE = 0)
  Kernel.assert (0 < count)
  resetLoop map count (IDX addr)

/-- `alloc_kpage`. -/
def allocKpage (map : Bitmap) (count : Nat) : Except Stop (Nat × Bitmap) := do
  Kernel.assert (0 < count)
  scanPage map count

/-- `free_kpage`. -/
def freeKpage (map : Bitmap) (vaddr count : Nat) : Except Stop Bitmap := do
  Kernel.assert (vaddr % PAGE_SIZE = 0)
  Kernel.assert (0 < count)
  resetPage map vaddr count

/-- A run of pages: its address and how many. -/
abbrev PageRun := Nat × Nat

/-- The bitmap, and the runs that are allocated. -/
structure Kpages where
  map : Bitmap
  runs : List PageRun

/-- The states of a machine with `pages` frames: runs are allocated, and those that are allocated are
    freed. -/
inductive Allocated (pages : Nat) : Kpages → Prop where
  | init (map : Bitmap) (hlow : KERNEL_MEMORY_SIZE / PAGE_SIZE + MEMORY_BASE / PAGE_SIZE ≤ pages)
      (hhigh : pages ≤ 2 ^ 20) (h : memoryMapInit pages = .ok map) : Allocated pages ⟨map, []⟩
  | alloc {s : Kpages} (h : Allocated pages s) (count vaddr : Nat) (map : Bitmap)
      (ha : allocKpage s.map count = .ok (vaddr, map)) : Allocated pages ⟨map, (vaddr, count) :: s.runs⟩
  | free {s : Kpages} (h : Allocated pages s) (r : PageRun) (map : Bitmap) (hr : r ∈ s.runs)
      (hf : freeKpage s.map r.1 r.2 = .ok map) : Allocated pages ⟨map, s.runs.erase r⟩

/-! ## 2. The scan -/

section Scan

variable {map map' : Bitmap} {count n i : Nat}

/-- The bits from `i` on are clear. -/
def ClearRun (map : Bitmap) (i n : Nat) : Prop := ∀ k, i ≤ k → k < i + n → getBit map.bits k = false

/-- What the search finds: the lowest run that is clear. -/
def Found (map : Bitmap) (count : Nat) : Option Nat → Prop
  | none => ∀ i, i + count ≤ map.length * 8 → ¬ClearRun map i count
  | some i => i + count ≤ map.length * 8 ∧ ClearRun map i count ∧ ∀ j < i, ¬ClearRun map j count

/-- The counter is the length of the run that ends here; no run before it is long enough. -/
theorem scanLoop_spec {left next c : Nat} (hroom : map.length ≤ map.room)
    (hleft : next + left = map.length * 8) (hc : c < count) (hcn : c ≤ next)
    (hrun : ClearRun map (next - c) c) (hbreak : c < next → getBit map.bits (next - c - 1) = true)
    (hprev : ∀ i, i + count ≤ next → ¬ClearRun map i count) :
    ∃ r, scanLoop map count left next c = .ok r ∧ Found map count r := by
  induction left generalizing next c with
  | zero => exact ⟨none, rfl, fun i hi => hprev i (by omega)⟩
  | succ left ih =>
    rw [scanLoop, bitmapTest_at (p := next) (by omega) (by omega)]
    cases hbit : getBit map.bits next with
    | true =>
      show ∃ r, (if 0 = count then _ else _) = _ ∧ _
      rw [if_neg (by omega)]
      show ∃ r, scanLoop map count left (next + 1) 0 = _ ∧ _
      refine ih (by omega) (by omega) (by omega) (fun k h1 h2 => by omega) (fun _ => by simpa using hbit) ?_
      intro i hi h
      by_cases hlast : i + count ≤ next
      · exact hprev i hlast h
      · rw [h next (by omega) (by omega)] at hbit
        cases hbit
    | false =>
      have hrun' : ClearRun map (next - c) (c + 1) := by
        intro k h1 h2
        by_cases hk : k = next
        · rw [hk, hbit]
        · exact hrun k h1 (by omega)
      show ∃ r, (if c + 1 = count then _ else _) = _ ∧ _
      by_cases hlast : c + 1 = count
      · rw [if_pos hlast]
        refine ⟨_, rfl, by omega, ?_, fun j hj => hprev j (by omega)⟩
        rw [show next + 1 - count = next - c by omega, ← hlast]
        exact hrun'
      · rw [if_neg hlast]
        show ∃ r, scanLoop map count left (next + 1) (c + 1) = _ ∧ _
        refine ih (by omega) (by omega) (by omega) ?_ ?_ ?_
        · rwa [show next + 1 - (c + 1) = next - c by omega]
        · intro h
          rw [show next + 1 - (c + 1) - 1 = next - c - 1 by omega]
          exact hbreak (by omega)
        · intro i hi h
          by_cases hprior : i + count ≤ next
          · exact hprev i hprior h
          · have hset := hbreak (by omega)
            rw [h (next - c - 1) (by omega) (by omega)] at hset
            cases hset

/-- The bits of a run are set, the others stay. -/
theorem markLoop_spec (hroom : i + n ≤ map.room * 8) : ∃ map', markLoop map n i = .ok map' ∧
    map'.length = map.length ∧ map'.offset = map.offset ∧ map'.room = map.room ∧
    ∀ k, getBit map'.bits k = true ↔ (i ≤ k ∧ k < i + n) ∨ getBit map.bits k = true := by
  induction n generalizing map i with
  | zero => exact ⟨map, rfl, rfl, rfl, rfl, fun k => (or_iff_right (by omega)).symm⟩
  | succ n ih =>
    obtain ⟨map₁, hmap₁⟩ : ∃ m : Bitmap, m = { map with bits := setBit map.bits i true } := ⟨_, rfl⟩
    have h1 : bitmapSet map (map.offset + i) true = .ok map₁ := by
      rw [hmap₁]
      exact bitmapSet_at (by omega)
    have hroom₁ : i + 1 + n ≤ map₁.room * 8 := by
      rw [hmap₁]
      show _ ≤ map.room * 8
      omega
    obtain ⟨map', h, hl, ho, hr, hbits⟩ := ih hroom₁
    refine ⟨map', ?_, by rw [hl, hmap₁], by rw [ho, hmap₁], by rw [hr, hmap₁], fun k => ?_⟩
    · rw [markLoop, h1]
      exact h
    · rw [hbits, hmap₁]
      show _ ∨ getBit (setBit map.bits i true) k = true ↔ _
      rw [getBit_setBit]
      by_cases e : k = i
      · simp [e]
      · rw [if_neg e]
        have : i + 1 ≤ k ∧ k < i + 1 + n ↔ i ≤ k ∧ k < i + (n + 1) := by omega
        rw [this]

/-- **The scan takes the lowest run that is clear.** -/
theorem bitmapScan_spec (hroom : map.length ≤ map.room) (hcount : 0 < count) :
    (bitmapScan map count = .ok none ∧ Found map count none) ∨
      ∃ i map', bitmapScan map count = .ok (some (i + map.offset, map')) ∧ Found map count (some i) ∧
        map'.length = map.length ∧ map'.offset = map.offset ∧ map'.room = map.room ∧
        ∀ k, getBit map'.bits k = true ↔ (i ≤ k ∧ k < i + count) ∨ getBit map.bits k = true := by
  have hnone : ClearRun map (0 - 0) 0 := fun k h1 h2 => by omega
  obtain ⟨r, hr, hf⟩ := scanLoop_spec hroom (Nat.zero_add (map.length * 8)) hcount (Nat.le_refl 0) hnone
    (fun h => by omega) (fun i hi => by omega)
  unfold bitmapScan
  rw [hr]
  cases r with
  | none => exact .inl ⟨rfl, hf⟩
  | some i =>
    have hin := hf.1
    have hin' : i + count ≤ map.room * 8 := by omega
    obtain ⟨map', h, hspec⟩ := markLoop_spec hin'
    refine .inr ⟨i, map', ?_, hf, hspec⟩
    show (markLoop map count i >>= fun map' => _) = _
    rw [h]
    rfl

/-- A run that is set is cleared, and nothing else. -/
theorem resetLoop_spec (hroom : map.length ≤ map.room) (hlen : i + n ≤ map.length * 8)
    (hset : ∀ k, i ≤ k → k < i + n → getBit map.bits k = true) :
    ∃ map', resetLoop map n (map.offset + i) = .ok map' ∧ map'.length = map.length ∧
      map'.offset = map.offset ∧ map'.room = map.room ∧
      ∀ k, getBit map'.bits k = true ↔ ¬(i ≤ k ∧ k < i + n) ∧ getBit map.bits k = true := by
  induction n generalizing map i with
  | zero => exact ⟨map, rfl, rfl, rfl, rfl, fun k => (and_iff_right (by omega)).symm⟩
  | succ n ih =>
    obtain ⟨map₁, hmap₁⟩ : ∃ m : Bitmap, m = { map with bits := setBit map.bits i false } := ⟨_, rfl⟩
    have h1 : bitmapSet map (map.offset + i) false = .ok map₁ := by
      rw [hmap₁]
      exact bitmapSet_at (by omega)
    have hbit : ∀ k, getBit map₁.bits k = if k = i then false else getBit map.bits k := fun k => by
      rw [hmap₁]
      exact getBit_setBit _ _ _ _
    have hroom₁ : map₁.length ≤ map₁.room := by
      rw [hmap₁]
      exact hroom
    have hlen₁ : i + 1 + n ≤ map₁.length * 8 := by
      rw [hmap₁]
      show _ ≤ map.length * 8
      omega
    have hset₁ : ∀ k, i + 1 ≤ k → k < i + 1 + n → getBit map₁.bits k = true := by
      intro k h1 h2
      rw [hbit, if_neg (by omega)]
      exact hset k (by omega) (by omega)
    obtain ⟨map', h, hl, ho, hr, hbits⟩ := ih hroom₁ hlen₁ hset₁
    refine ⟨map', ?_, by rw [hl, hmap₁], by rw [ho, hmap₁], by rw [hr, hmap₁], fun k => ?_⟩
    · rw [resetLoop, bitmapTest_at (p := i) (by omega) (by omega), hset i (by omega) (by omega)]
      show (bitmapSet map (map.offset + i) false >>= fun b => resetLoop b n (map.offset + i + 1)) = _
      have ho₁ : map.offset + i + 1 = map₁.offset + (i + 1) := by
        rw [hmap₁]
        exact Nat.add_assoc _ _ _
      rw [h1, ho₁]
      exact h
    · rw [hbits, hbit]
      by_cases e : k = i
      · simp [e]
      · rw [if_neg e]
        have : i + 1 ≤ k ∧ k < i + 1 + n ↔ i ≤ k ∧ k < i + (n + 1) := by omega
        rw [this]

end Scan

/-! ## 3. The runs that are allocated -/

/-- The first bit past the kernel's memory. -/
def kernelBits : Nat := IDX KERNEL_MEMORY_SIZE - IDX MEMORY_BASE

/-- The bit is one of the run's. -/
def Covers (r : PageRun) (k : Nat) : Prop := IDX r.1 ≤ k + IDX MEMORY_BASE ∧ k + IDX MEMORY_BASE < IDX r.1 + r.2

/-- Two runs do not meet. -/
def Apart (r r' : PageRun) : Prop := IDX r.1 + r.2 ≤ IDX r'.1 ∨ IDX r'.1 + r'.2 ≤ IDX r.1

instance : Std.Symm Apart := ⟨fun _ _ h => h.symm⟩

/-- **The bits that are set are those of the memory array's `n` pages and of the runs**, which do not
    meet. -/
structure Marked (n : Nat) (s : Kpages) : Prop where
  length : s.map.length = kernelBits / 8
  offset : s.map.offset = IDX MEMORY_BASE
  room : s.map.room = kernelBits / 8
  bits : ∀ k, getBit s.map.bits k = true ↔ k < n ∨ ∃ r ∈ s.runs, Covers r k
  inside : ∀ r ∈ s.runs, r.1 % PAGE_SIZE = 0 ∧ 0 < r.2 ∧ IDX MEMORY_BASE + n ≤ IDX r.1 ∧
    IDX r.1 + r.2 ≤ IDX KERNEL_MEMORY_SIZE
  apart : s.runs.Pairwise Apart

section Runs

variable {n pages count vaddr : Nat} {map : Bitmap} {s : Kpages} {r r' : PageRun}

theorem kernel_idx : IDX MEMORY_BASE = 256 ∧ IDX KERNEL_MEMORY_SIZE = 4096 ∧ kernelBits = 3840 :=
  ⟨by decide, by decide, by decide⟩

theorem idx_page (i : Nat) : IDX (PAGE i) = i := Nat.mul_div_cancel _ (by decide)

theorem getBit_zero (k : Nat) : getBit (fun _ => 0) k = false := by
  show (0 : UInt8).toNat.testBit (k % 8) = false
  exact Nat.zero_testBit _

theorem Marked.fits (hm : Marked n s) : s.map.length ≤ s.map.room := by rw [hm.length, hm.room]

/-- The memory array's pages. -/
theorem memoryMapInit_marked (hlow : KERNEL_MEMORY_SIZE / PAGE_SIZE + MEMORY_BASE / PAGE_SIZE ≤ pages)
    (hhigh : pages ≤ 2 ^ 20) (h : memoryMapInit pages = .ok map) :
    Marked (divRoundUp pages PAGE_SIZE) ⟨map, []⟩ := by
  have hn : 0 < divRoundUp pages PAGE_SIZE ∧ divRoundUp pages PAGE_SIZE ≤ 256 := by
    unfold divRoundUp PAGE_SIZE
    unfold KERNEL_MEMORY_SIZE MEMORY_BASE PAGE_SIZE at hlow
    omega
  have hclear : ClearRun kernelBitmap 0 (divRoundUp pages PAGE_SIZE) := fun k _ _ => getBit_zero k
  have hbits : kernelBitmap.length * 8 = 3840 := by decide
  unfold memoryMapInit at h
  have hroom : kernelBitmap.length ≤ kernelBitmap.room := Nat.le_refl _
  obtain ⟨-, hnone⟩ | ⟨i, map', hscan, hf, hl, ho, hr, hb⟩ := bitmapScan_spec hroom hn.1
  · exact absurd hclear (hnone 0 (by omega))
  · rw [hscan] at h
    cases h
    have hi : i = 0 := by
      by_contra hne
      exact hf.2.2 0 (by omega) hclear
    subst hi
    refine ⟨hl, ho, hr, fun k => ?_, fun r hr => absurd hr List.not_mem_nil, .nil⟩
    rw [hb]
    simp [kernelBitmap, getBit_zero]

/-- **A run is allocated**: the lowest that is clear. -/
theorem allocKpage_spec (hm : Marked n s) (h : allocKpage s.map count = .ok (vaddr, map)) :
    Marked n ⟨map, (vaddr, count) :: s.runs⟩ ∧ ∃ i, vaddr = PAGE (i + IDX MEMORY_BASE) ∧ 0 < count ∧
      Found s.map count (some i) := by
  obtain ⟨hbase, htop, hall⟩ := kernel_idx
  have hlen := hm.length
  have hoff := hm.offset
  unfold allocKpage scanPage at h
  obtain ⟨hc, h⟩ := of_assert h
  obtain ⟨-, h⟩ := of_assert h
  rw [decide_eq_true_eq] at hc
  obtain ⟨hscan, -⟩ | ⟨i, map', hscan, hf, hl, ho, hr, hb⟩ := bitmapScan_spec hm.fits hc
  · rw [hscan] at h
    cases h
  · rw [hscan] at h
    cases h
    have hin := hf.1
    have hclear := hf.2.1
    have hidx : IDX (PAGE (i + s.map.offset)) = i + 256 := by rw [idx_page, hoff, hbase]
    have hfree : ∀ k, i ≤ k → k < i + count → ¬(k < n ∨ ∃ r ∈ s.runs, Covers r k) := by
      intro k h1 h2 hk
      rw [← hm.bits, hclear k h1 h2] at hk
      cases hk
    refine ⟨⟨hl.trans hm.length, ho.trans hm.offset, hr.trans hm.room, fun k => ?_, ?_, ?_⟩, i, by rw [hoff], hc, hf⟩
    · rw [hb, hm.bits]
      have hcov : Covers (PAGE (i + s.map.offset), count) k ↔ i ≤ k ∧ k < i + count := by
        unfold Covers
        rw [hidx, hbase]
        omega
      simp only [List.mem_cons, exists_eq_or_imp, hcov]
      exact or_left_comm
    · intro r hr
      obtain rfl | hr := List.mem_cons.mp hr
      · refine ⟨Nat.mul_mod_left _ _, hc, ?_, ?_⟩
        · show IDX MEMORY_BASE + n ≤ IDX (PAGE _)
          have hge : n ≤ i := by
            by_contra hlt
            exact hfree i (Nat.le_refl i) (by omega) (.inl (not_le.mp hlt))
          omega
        · show IDX (PAGE _) + count ≤ _
          omega
      · exact hm.inside r hr
    · refine List.pairwise_cons.mpr ⟨fun r hr => ?_, hm.apart⟩
      obtain ⟨-, hpos, hlow, -⟩ := hm.inside r hr
      show IDX (PAGE _) + count ≤ IDX r.1 ∨ IDX r.1 + r.2 ≤ IDX (PAGE _)
      by_contra hmeet
      -- the larger of the two starts is in both
      refine hfree (max i (IDX r.1 - 256)) (by omega) (by omega) (.inr ⟨r, hr, ?_⟩)
      unfold Covers
      omega

/-- **It returns** if a run is clear. -/
theorem allocKpage_ok {i : Nat} (hm : Marked n s) (hc : 0 < count) (hi : i + count ≤ kernelBits)
    (hclear : ClearRun s.map i count) : ∃ vaddr map, allocKpage s.map count = .ok (vaddr, map) := by
  have hlen := hm.length
  have hall := kernel_idx.2.2
  obtain ⟨-, hnone⟩ | ⟨j, map', hscan, -⟩ := bitmapScan_spec hm.fits hc
  · exact absurd hclear (hnone i (by omega))
  · refine ⟨PAGE (j + s.map.offset), map', ?_⟩
    simp only [allocKpage, scanPage, hc, decide_true, Kernel.assert_true, hscan]
    rfl

/-- No run is there twice. -/
theorem Marked.nodup (hm : Marked n s) : s.runs.Nodup := by
  refine hm.apart.imp_of_mem fun {r r'} hr _ h e => ?_
  subst e
  have hpos := (hm.inside r hr).2.1
  unfold Apart at h
  omega

theorem Marked.apart_of (hm : Marked n s) (hr : r ∈ s.runs) (hr' : r' ∈ s.runs) (hne : r ≠ r') : Apart r r' :=
  hm.apart.forall hr hr' hne

/-- **A run that is allocated is freed**, and no assertion fails. -/
theorem freeKpage_spec (hm : Marked n s) (hr : r ∈ s.runs) :
    ∃ map, freeKpage s.map r.1 r.2 = .ok map ∧ Marked n ⟨map, s.runs.erase r⟩ := by
  obtain ⟨hbase, htop, hall⟩ := kernel_idx
  have hoff := hm.offset
  have hlen := hm.length
  obtain ⟨halign, hpos, hlow, hhigh⟩ := hm.inside r hr
  have hcov : ∀ k, Covers r k ↔ IDX r.1 - 256 ≤ k ∧ k < IDX r.1 - 256 + r.2 := by
    intro k
    unfold Covers
    omega
  have hin : IDX r.1 - 256 + r.2 ≤ s.map.length * 8 := by omega
  obtain ⟨map, h, hl, ho, hrm, hb⟩ := resetLoop_spec hm.fits hin
    fun k h1 h2 => (hm.bits k).mpr (.inr ⟨r, hr, (hcov k).mpr ⟨h1, h2⟩⟩)
  rw [show s.map.offset + (IDX r.1 - 256) = IDX r.1 by omega] at h
  refine ⟨map, ?_, hl.trans hm.length, ho.trans hm.offset, hrm.trans hm.room, fun k => ?_,
    fun r' hr' => hm.inside r' (List.mem_of_mem_erase hr'), hm.apart.sublist List.erase_sublist⟩
  · simp only [freeKpage, resetPage, halign, hpos, h, decide_true, Kernel.assert_true]
    rfl
  · rw [hb, hm.bits, ← hcov]
    constructor
    · rintro ⟨hout, hk | ⟨r', hr', hk⟩⟩
      · exact .inl hk
      · refine .inr ⟨r', (List.Nodup.mem_erase_iff hm.nodup).mpr ⟨?_, hr'⟩, hk⟩
        rintro rfl
        exact hout hk
    · rintro (hk | ⟨r', hr', hk⟩)
      · refine ⟨fun h => ?_, .inl hk⟩
        unfold Covers at h
        omega
      · obtain ⟨hne, hr'⟩ := (List.Nodup.mem_erase_iff hm.nodup).mp hr'
        refine ⟨fun h => ?_, .inr ⟨r', hr', hk⟩⟩
        have := hm.apart_of hr hr' hne.symm
        unfold Apart at this
        unfold Covers at h hk
        omega

/-- The invariant of every state reached. -/
theorem allocated_marked (h : Allocated pages s) : Marked (divRoundUp pages PAGE_SIZE) s := by
  induction h with
  | init map hlow hhigh h => exact memoryMapInit_marked hlow hhigh h
  | alloc h count vaddr map ha ih => exact (allocKpage_spec ih ha).1
  | free h r map hr hf ih =>
    obtain ⟨map', hf', hm⟩ := freeKpage_spec ih hr
    cases hf.symm.trans hf'
    exact hm

/-! ## 4. The regions of the kernel's memory -/

/-- The memory of a run. -/
def extent (r : PageRun) : Set Nat := Set.Ico r.1 (r.1 + r.2 * PAGE_SIZE)

/-- The memory array. -/
def memoryArray (pages : Nat) : Set Nat :=
  Set.Ico MEMORY_BASE (MEMORY_BASE + divRoundUp pages PAGE_SIZE * PAGE_SIZE)

/-- The buffer cache. -/
def bufferCache : Set Nat := Set.Ico KERNEL_BUFFER_MEM (KERNEL_BUFFER_MEM + KERNEL_BUFFER_SIZE)

/-- The RAM disks. -/
def ramdisks : Set Nat := Set.Ico KERNEL_RAMDISK_MEM (KERNEL_RAMDISK_MEM + KERNEL_RAMDISK_SIZE)

/-- **Below the buffer cache there are `count` pages in a row that are not taken.** -/
def RoomBelow (map : Bitmap) (count : Nat) : Prop :=
  ∃ i, i + count ≤ IDX KERNEL_BUFFER_MEM - IDX MEMORY_BASE ∧ ClearRun map i count

/-- What a run that is returned should not meet. -/
structure KeptApart (pages : Nat) (s : Kpages) (r : PageRun) : Prop where
  runs : ∀ r' ∈ s.runs, Disjoint (extent r) (extent r')
  array : Disjoint (extent r) (memoryArray pages)
  buffers : Disjoint (extent r) bufferCache
  ramdisks : Disjoint (extent r) ramdisks

theorem extent_disjoint (hr : r.1 % PAGE_SIZE = 0) (hr' : r'.1 % PAGE_SIZE = 0) (h : Apart r r') :
    Disjoint (extent r) (extent r') := by
  unfold Apart IDX PAGE_SIZE at h
  unfold PAGE_SIZE at hr hr'
  unfold extent PAGE_SIZE
  rw [Set.Ico_disjoint_Ico]
  omega

/-- **No two runs that are allocated meet**, and none meets the memory array. -/
theorem kpages_disjoint (hs : Allocated pages s) :
    (∀ r ∈ s.runs, ∀ r' ∈ s.runs, r ≠ r' → Disjoint (extent r) (extent r')) ∧
      ∀ r ∈ s.runs, Disjoint (extent r) (memoryArray pages) := by
  have hm := allocated_marked hs
  refine ⟨fun r hr r' hr' hne => ?_, fun r hr => ?_⟩
  · exact extent_disjoint (hm.inside r hr).1 (hm.inside r' hr').1 (hm.apart_of hr hr' hne)
  · obtain ⟨halign, -, hlow, -⟩ := hm.inside r hr
    rw [kernel_idx.1] at hlow
    unfold IDX at hlow
    unfold extent memoryArray MEMORY_BASE
    rw [Set.Ico_disjoint_Ico]
    generalize divRoundUp pages PAGE_SIZE = n at *
    unfold PAGE_SIZE at *
    omega

/-- **What the kernel does not see to**: a run that is returned meets no other run and not the memory
    array; and it meets neither the buffer cache nor the RAM disks if and only if below them there was
    room. -/
theorem kpages_apart (hs : Allocated pages s) (h : allocKpage s.map count = .ok (vaddr, map)) :
    KeptApart pages s (vaddr, count) ↔ RoomBelow s.map count := by
  have hm := allocated_marked hs
  have hs' := hs.alloc count vaddr map h
  obtain ⟨hm', i, rfl, hc, hf⟩ := allocKpage_spec hm h
  obtain ⟨hbase, htop, -⟩ := kernel_idx
  have hbuf : IDX KERNEL_BUFFER_MEM = 2048 := by decide
  have hhigh := (hm'.inside _ (List.mem_cons_self ..)).2.2.2
  rw [idx_page, hbase, htop] at hhigh
  have hextent : extent (PAGE (i + IDX MEMORY_BASE), count) = Set.Ico ((i + 256) * 4096) ((i + 256 + count) * 4096) := by
    unfold extent
    rw [hbase, PAGE, PAGE_SIZE, ← Nat.add_mul]
  have hcache : bufferCache = Set.Ico 0x800000 0xc00000 := rfl
  have hdisks : ramdisks = Set.Ico 0xc00000 0x1000000 := rfl
  constructor
  · intro hk
    refine ⟨i, ?_, hf.2.1⟩
    have h1 := hk.buffers
    have h2 := hk.ramdisks
    rw [hextent, hcache, Set.Ico_disjoint_Ico] at h1
    rw [hextent, hdisks, Set.Ico_disjoint_Ico] at h2
    omega
  · rintro ⟨j, hj, hclear⟩
    -- the scan took the lowest run
    have hij : i ≤ j := by
      by_contra hlt
      exact hf.2.2 j (not_le.mp hlt) hclear
    obtain ⟨hruns, harray⟩ := kpages_disjoint hs'
    refine ⟨fun r hr => hruns _ (List.mem_cons_self ..) r (List.mem_cons_of_mem _ hr) ?_,
      harray _ (List.mem_cons_self ..), ?_, ?_⟩
    · rintro rfl
      exact (List.nodup_cons.mp hm'.nodup).1 hr
    · rw [hextent, hcache, Set.Ico_disjoint_Ico]
      omega
    · rw [hextent, hdisks, Set.Ico_disjoint_Ico]
      omega

end Runs

theorem memoryMapInit_sample : ∃ map, memoryMapInit 4400 = .ok map := by
  have hok : (memoryMapInit 4400).isOk = true := by decide +kernel
  cases h : memoryMapInit 4400 with
  | ok map => exact ⟨map, rfl⟩
  | error e =>
    rw [h] at hok
    cases hok

theorem allocated_init : ∃ map, Allocated 4400 ⟨map, []⟩ := by
  obtain ⟨map, h⟩ := memoryMapInit_sample
  exact ⟨map, .init map (by decide) (by decide) h⟩

/-- The bits past the memory array of a machine with 4400 frames are clear. -/
theorem allocated_clear {map : Bitmap} (h : Allocated 4400 ⟨map, []⟩) (i n : Nat) (hi : 2 ≤ i) :
    ClearRun map i n := by
  have hm := allocated_marked h
  have htwo : divRoundUp 4400 PAGE_SIZE = 2 := by decide
  intro k hk _
  rw [Bool.eq_false_iff]
  intro hset
  obtain hlt | ⟨r, hr, -⟩ := (hm.bits k).mp hset
  · omega
  · cases hr

/-- The first page that is asked for. -/
theorem kpages_apart_first : ∃ s vaddr map, Allocated 4400 s ∧ allocKpage s.map 1 = .ok (vaddr, map) ∧
    (KeptApart 4400 s (vaddr, 1) ↔ RoomBelow s.map 1) := by
  obtain ⟨map, hs⟩ := allocated_init
  obtain ⟨vaddr, map', h⟩ := allocKpage_ok (allocated_marked hs) (by decide : 0 < 1)
    (by decide : 2 + 1 ≤ kernelBits) (allocated_clear hs 2 1 (Nat.le_refl 2))
  exact ⟨_, vaddr, map', hs, h, kpages_apart hs h⟩

/-- **Seven megabytes for one caller** reach into the buffer cache. -/
theorem kpages_meet : ∃ s vaddr map, Allocated 4400 s ∧ allocKpage s.map 1792 = .ok (vaddr, map) ∧
    ¬Disjoint (extent (vaddr, 1792)) bufferCache := by
  obtain ⟨map, hs⟩ := allocated_init
  obtain ⟨vaddr, map', h⟩ := allocKpage_ok (allocated_marked hs) (by decide : 0 < 1792)
    (by decide : 2 + 1792 ≤ kernelBits) (allocated_clear hs 2 1792 (Nat.le_refl 2))
  refine ⟨_, vaddr, map', hs, h, fun hd => ?_⟩
  obtain ⟨hm, i, rfl, -, -⟩ := allocKpage_spec (allocated_marked hs) h
  obtain ⟨halign, -, hlow, hhigh⟩ := hm.inside _ (List.mem_cons_self ..)
  have htwo : divRoundUp 4400 PAGE_SIZE = 2 := by decide
  obtain ⟨hbase, htop, -⟩ := kernel_idx
  rw [idx_page, hbase, htwo] at hlow
  rw [idx_page, hbase, htop] at hhigh
  have hcache : bufferCache = Set.Ico 0x800000 0xc00000 := rfl
  rw [hcache, extent, hbase, PAGE, PAGE_SIZE, Set.Ico_disjoint_Ico] at hd
  omega

end Yuios.Paging
