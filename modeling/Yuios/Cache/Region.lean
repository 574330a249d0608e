/-
  File:      Yuios/Cache/Region.lean
  Subject:   THE MEMORY OF THE BUFFERS: `get_new_buffer` of `kernel/buffer.c`, called any number of times.

  Headers grow from below, data blocks from above, in one region of 4 MiB. All addresses stay far below
  2^32, so none of the 32-bit sums wraps.

  * `newBuffers` -- the calls, from the state that `buffer_init` leaves.
  * `Filled` -- the invariant: the header `i` and the block `i` have their places, and the headers have
    not met the blocks.
  * **`newBuffers_apart`** -- no two of the pieces handed out overlap, all lie in the region, and a call
    answers `NULL` exactly when there is no room, as every later one does.
-/
import Yuios.Cache.Model

namespace Yuios.BufferCache

variable {α : Type}

/-! ## 1. The calls -/

/-- `n` calls of `get_new_buffer`, `none` for `NULL`, and the state they leave. -/
def newBuffers : Nat → State α → List (Option Nat) × State α
  | 0, s => ([], s)
  | n + 1, s =>
    match getNewBuffer s with
    | some (bf, t) => ((some bf :: (newBuffers n t).1), (newBuffers n t).2)
    | none => ((none :: (newBuffers n s).1), (newBuffers n s).2)

/-- The `m` bytes from `a` on and the `n` bytes from `b` on have no byte in common. -/
def Separate (a m b n : Nat) : Prop := a + m ≤ b ∨ b + n ≤ a

/-- The `n` bytes from `a` on lie in the region. -/
def InRegion (a n : Nat) : Prop := KERNEL_BUFFER_MEM ≤ a ∧ a + n ≤ KERNEL_BUFFER_MEM + KERNEL_BUFFER_SIZE

/-- **The buffers `bs` do not overlap**, neither their headers nor their data blocks, and lie in the region. -/
structure Unshared (s : State α) (bs : List Nat) : Prop where
  headers : bs.Pairwise fun a b => Separate a sizeofBuffer b sizeofBuffer
  blocks : bs.Pairwise fun a b => Separate (s.buf a).dataPtr BLOCK_SIZE (s.buf b).dataPtr BLOCK_SIZE
  mixed : ∀ a ∈ bs, ∀ b ∈ bs, Separate a sizeofBuffer (s.buf b).dataPtr BLOCK_SIZE
  inside : ∀ a ∈ bs, InRegion a sizeofBuffer ∧ InRegion (s.buf a).dataPtr BLOCK_SIZE

/-- Where header `i` and data block `i` are. -/
def headerAt (i : Nat) : Nat := KERNEL_BUFFER_MEM + sizeofBuffer * i

def blockAt (i : Nat) : Nat := KERNEL_BUFFER_MEM + KERNEL_BUFFER_SIZE - BLOCK_SIZE * (i + 1)

/-- **`k` buffers have been handed out.** -/
structure Filled (k : Nat) (s : State α) : Prop where
  ptr : s.bufferPtr = headerAt k
  data : s.bufferData = blockAt k
  room : k = 0 ∨ headerAt k < blockAt (k - 1)
  block : ∀ i < k, (s.buf (headerAt i)).dataPtr = blockAt i

/-! ## 2. One call -/

section Step

variable {s t : State α} {k n bf i j : Nat}

theorem headerAt_eq (i : Nat) : headerAt i = 0x800000 + 64 * i := rfl

theorem blockAt_eq (i : Nat) : blockAt i = 0xC00000 - 1024 * (i + 1) := rfl

theorem headerAt_inj (h : headerAt i = headerAt j) : i = j := by
  rw [headerAt_eq, headerAt_eq] at h
  omega

theorem filled_init (buf : Nat → Buffer α) (devices : Disk.Table) (disk : Disk.Cell → α) :
    Filled 0 (init buf devices disk) :=
  ⟨rfl, rfl, .inl rfl, fun i hi => absurd hi (Nat.not_lt_zero i)⟩

/-- A buffer is handed out. -/
theorem Filled.some (h : Filled k s) (hnew : getNewBuffer s = some (bf, t)) : bf = headerAt k ∧ Filled (k + 1) t := by
  unfold getNewBuffer at hnew
  split at hnew
  · next hroom =>
      obtain ⟨rfl, rfl⟩ := Prod.mk.inj (Option.some.inj hnew)
      have hptr := h.ptr
      have hdata := h.data
      rw [hptr, hdata] at hroom
      refine ⟨hptr, ?_, ?_, .inr ?_, fun i hi => ?_⟩
      · show s.bufferPtr + sizeofBuffer = _
        rw [hptr, headerAt_eq, headerAt_eq, sizeofBuffer]
        omega
      · show s.bufferData - BLOCK_SIZE = _
        rw [hdata, blockAt_eq, blockAt_eq, BLOCK_SIZE]
        omega
      · rw [Nat.add_sub_cancel]
        rw [headerAt_eq] at hroom ⊢
        unfold sizeofBuffer at hroom
        omega
      · show (Function.update s.buf s.bufferPtr _ (headerAt i)).dataPtr = _
        by_cases e : i = k
        · rw [e, ← hptr, Function.update_self, ← hdata]
        · rw [hptr, Function.update_of_ne fun e' => e (headerAt_inj e')]
          exact h.block i (by omega)
  · cases hnew

/-- **All pieces are apart.** -/
theorem Filled.unshared (h : Filled k s) : Unshared s ((List.range k).map headerAt) := by
  have hroom := h.room
  rw [headerAt_eq, blockAt_eq] at hroom
  have hpair : (List.range k).Pairwise fun i j => i < j ∧ j < k := by
    refine List.Pairwise.imp_of_mem (fun {i j} _ hj hlt => ⟨hlt, List.mem_range.mp hj⟩) List.pairwise_lt_range
  refine ⟨List.pairwise_map.mpr (hpair.imp fun {i j} hij => ?_), List.pairwise_map.mpr (hpair.imp fun {i j} hij => ?_),
    fun a ha b hb => ?_, fun a ha => ?_⟩
  · unfold Separate
    rw [headerAt_eq, headerAt_eq, sizeofBuffer]
    omega
  · unfold Separate
    rw [h.block i (by omega), h.block j hij.2, blockAt_eq, blockAt_eq, BLOCK_SIZE]
    omega
  · obtain ⟨i, hi, rfl⟩ := List.mem_map.mp ha
    obtain ⟨j, hj, rfl⟩ := List.mem_map.mp hb
    have hi := List.mem_range.mp hi
    have hj := List.mem_range.mp hj
    unfold Separate
    rw [h.block j hj, headerAt_eq, blockAt_eq, sizeofBuffer, BLOCK_SIZE]
    omega
  · obtain ⟨i, hi, rfl⟩ := List.mem_map.mp ha
    have hi := List.mem_range.mp hi
    unfold InRegion
    rw [h.block i hi, headerAt_eq, blockAt_eq, sizeofBuffer, BLOCK_SIZE, KERNEL_BUFFER_MEM, KERNEL_BUFFER_SIZE]
    omega

/-! ## 3. Any number of calls -/

/-- Behind a `NULL` the state is as before, and every call answers `NULL`. -/
theorem newBuffers_none (h : getNewBuffer s = none) : newBuffers n s = (List.replicate n none, s) := by
  induction n with
  | zero => rfl
  | succ n ih =>
    unfold newBuffers
    simp [h, ih, List.replicate_succ]

theorem Filled.full (h : Filled k s) (hnew : getNewBuffer s = none) : blockAt k ≤ headerAt k + sizeofBuffer := by
  unfold getNewBuffer at hnew
  split at hnew
  · cases hnew
  · next hroom =>
      rw [h.ptr, h.data] at hroom
      exact Nat.le_of_not_lt hroom

/-- **The calls hand out the next headers**, and then `NULL`. -/
theorem Filled.calls (h : Filled k s) : ∃ m ≤ n, Filled (k + m) (newBuffers n s).2 ∧
    (newBuffers n s).1 = ((List.range' k m).map fun i => Option.some (headerAt i)) ++ List.replicate (n - m) none ∧
    (m < n → blockAt (k + m) ≤ headerAt (k + m) + sizeofBuffer) := by
  induction n generalizing k s with
  | zero => exact ⟨0, Nat.le_refl 0, h, rfl, fun hlt => absurd hlt (Nat.lt_irrefl 0)⟩
  | succ n ih =>
    cases hnew : getNewBuffer s with
    | none =>
      rw [newBuffers_none hnew]
      exact ⟨0, Nat.zero_le _, h, rfl, fun _ => h.full hnew⟩
    | some r =>
      obtain ⟨bf, t⟩ := r
      obtain ⟨rfl, ht⟩ := h.some hnew
      obtain ⟨m, hm, hfilled, hlist, hfull⟩ := ih ht
      have hcall : newBuffers (n + 1) s = (Option.some (headerAt k) :: (newBuffers n t).1, (newBuffers n t).2) := by
        rw [newBuffers, hnew]
      have hk : k + (m + 1) = k + 1 + m := by omega
      rw [hcall]
      refine ⟨m + 1, by omega, hk ▸ hfilled, ?_, fun hlt => hk ▸ hfull (by omega)⟩
      rw [hlist, List.range'_succ, Nat.add_sub_add_right]
      rfl

/-- **Whatever the number of calls**: the buffers handed out are pairwise disjoint, headers, data blocks and
    both together, and lie in the region; once a call answers `NULL`, every later one does; and call `i`
    does exactly when header `i` would reach into block `i`. -/
theorem newBuffers_apart (n : Nat) (buf : Nat → Buffer α) (devices : Disk.Table) (disk : Disk.Cell → α) :
    Unshared (newBuffers n (init buf devices disk)).2 ((newBuffers n (init buf devices disk)).1.filterMap id) ∧
      (∀ i j, i ≤ j → j < n → (newBuffers n (init buf devices disk)).1[i]? = some none →
        (newBuffers n (init buf devices disk)).1[j]? = some none) ∧
      ∀ i < n, (newBuffers n (init buf devices disk)).1[i]? = some none ↔
        blockAt i < headerAt i + sizeofBuffer := by
  obtain ⟨m, hm, hfilled, hlist, hfull⟩ := (filled_init buf devices disk).calls (n := n)
  rw [Nat.zero_add] at hfilled hfull
  rw [hlist, ← List.range_eq_range']
  have hnull : ∀ i < n, (((List.range m).map fun i => some (headerAt i)) ++ List.replicate (n - m) none)[i]? =
      some none ↔ m ≤ i := by
    intro i hi
    by_cases hle : m ≤ i
    · rw [List.getElem?_append_right (by simpa using hle), List.getElem?_replicate]
      simp only [List.length_map, List.length_range]
      rw [if_pos (by omega)]
      exact iff_of_true rfl hle
    · rw [List.getElem?_append_left (by simpa using hle)]
      simp [hle]
  refine ⟨?_, fun i j hij hj hi => ?_, fun i hi => ?_⟩
  · have hsome : (((List.range m).map fun i => some (headerAt i)) ++ List.replicate (n - m) none).filterMap id =
        (List.range m).map headerAt := by
      rw [List.filterMap_append, List.filterMap_map]
      simp
    rw [hsome]
    exact hfilled.unshared
  · exact (hnull j hj).mpr (Nat.le_trans ((hnull i (Nat.lt_of_le_of_lt hij hj)).mp hi) hij)
  · have hroom := hfilled.room
    rw [hnull i hi]
    rw [headerAt_eq, blockAt_eq, sizeofBuffer] at *
    constructor
    · intro hle
      have := hfull (Nat.lt_of_le_of_lt hle hi)
      omega
    · intro hlt
      by_contra hm
      omega

end Step

end Yuios.BufferCache
