/-
  File:      Yuios/Cache/Wakeup.lean
  Subject:   WAKING A TASK THAT WAITS FOR A BUFFER: `brelse` in a state where `wait_list` is not
             empty.

  `brelse` takes the waiter with `list_popback`, which unlinks its node and clears both pointers;
  `task_unblock` then unlinks the node again, and `list_remove` asserts that the pointers are set.
  `mutex_unlock`, which wakes the waiters of a lock, reads `tail.prev` and leaves the unlinking to
  `task_unblock`.

  * `brelseEnds_waiting`: with a task on `wait_list`, no `brelse` that gives the last reference
    back completes.
  * `full_fill`: one task can take every buffer there is memory for; the next `getblk` of another
    task sleeps on `wait_list` (`full_sleeps`), so such states are reached.
  * `brelse_waiting_fails`: the statement about the reachable states.
-/
import Yuios.Cache.Unique

namespace Yuios.BufferCache

open Kernel

variable {α : Type}

/-! ## 1. `brelse` with a task on the list -/

/-- The last segment of a `brelse` of `bf` by task `t`, and its result: the whole call when the
    buffer is clean, what follows the write otherwise. -/
inductive BrelseEnds (s : State α) (t bf : Nat) : Except Stop (State α) → Prop where
  | clean (hpc : s.pc t = .out) (hbf : s.Made bf) (hd : (s.buf bf).dirty = false) :
      BrelseEnds s t bf (start s t (.brelse bf))
  | dirty {r : Request} (hpc : s.pc t = .writing bf r BLOCK_SECS true) :
      BrelseEnds s t bf (resume s t)

/-- It completes, takes the task that has waited longest off `wait_list` and makes it ready, and
    leaves the others queued. -/
def WakesOne (s : State α) (r : Except Stop (State α)) : Prop :=
  ∃ s', r = .ok s' ∧ ∃ w rest, s.waitList = rest ++ [w] ∧ s'.waitList = rest ∧ s'.ready w = true

/-- Popping a waiter and unblocking it fails, whatever its node says. -/
theorem pop_unblock_fails (s : State α) (w : Nat) (f : State α → Except Stop (State α)) :
    (listRemove s w >>= fun s₁ => taskUnblock s₁ w >>= f) = .error .assertion := by
  cases h : listRemove s w with
  | error e =>
    have he : e = .assertion := by
      unfold listRemove at h
      split at h
      next => exact (Except.error.inj h).symm
      next q _ => cases q <;> cases h
    rw [he]
    rfl
  | ok s₁ =>
    show (taskUnblock s₁ w >>= f) = _
    rw [taskUnblock_unlinked h]
    rfl

theorem release_waiting (s : State α) (t bf : Nat) (hw : s.waitList ≠ [])
    (hc : (s.buf bf).count = 1) : release s t bf = .error .assertion := by
  have h0 : (s.buf bf).count - 1 = 0 := by omega
  obtain ⟨w, hl⟩ := Option.isSome_iff_exists.mp (List.getLast?_isSome.mpr hw)
  by_cases hf : bf ∈ s.freeList
  · simp only [release, h0, State.setBuf, hf]
    rfl
  · simp only [release, h0, State.setBuf, hf, hl]
    exact pop_unblock_fails _ w _

theorem brelseEnds_waiting {s : State α} (hw : s.waitList ≠ []) {t bf : Nat}
    (hc : (s.buf bf).count = 1) {r : Except Stop (State α)} (hr : BrelseEnds s t bf r) :
    r = .error .assertion := by
  cases hr with
  | clean hpc hbf hd =>
    show write s t bf true = _
    simp only [write, hd, written, if_true, Bool.false_eq_true, if_false]
    exact release_waiting s t bf hw hc
  | dirty hpc =>
    unfold resume
    rw [hpc]
    dsimp only
    rw [dif_neg (Nat.lt_irrefl BLOCK_SECS)]
    unfold written
    refine release_waiting _ t bf hw ?_
    rw [setBuf_self]
    exact hc

theorem not_wakesOne_error (s : State α) (e : Stop) : ¬ WakesOne s (.error e) := by
  rintro ⟨s', h, -⟩
  cases h

/-! ## 2. States with a task on the list -/

/-- Task 0 holds the `n` buffers there are, of the blocks below `n` of device 0. -/
structure Full (n : Nat) (s : State α) : Prop where
  reach : Reachable s
  made : s.bufferCount = n
  data : s.bufferData + BLOCK_SIZE * (n + 1) = KERNEL_BUFFER_MEM + KERNEL_BUFFER_SIZE
  free : s.freeList = []
  wait : s.waitList = []
  idle : ∀ t, s.pc t = .out
  unlinked : ∀ t, s.node t = none
  below : ∀ i, ∀ bf ∈ s.hashTable i, (s.buf bf).block < n
  held : ∀ bf, s.Made bf → (s.buf bf).count = 1 ∧ (s.buf bf).dirty = false

theorem full_miss {n : Nat} {s : State α} (h : Full n s) {m : Nat} (hm : n ≤ m) :
    getFromHashTable s 0 m = none := by
  have hf : (s.hashTable (hash 0 m)).find? (s.holds 0 m) = none := by
    refine List.find?_eq_none.mpr fun bf hbf hk => ?_
    have := h.below _ bf hbf
    have := (holds_iff.mp hk).2
    omega
  unfold getFromHashTable
  rw [hf]

/-- `getblk` of a block that is not cached, while there is memory for another buffer. -/
theorem getblk_room {s : State α} (hT : Table s) {t : Nat} {dev : Int} {block : Nat}
    (hmiss : getFromHashTable s dev block = none)
    (hroom : s.bufferPtr + sizeofBuffer < s.bufferData) :
    ∃ b i, b.count = 1 ∧ b.dirty = false ∧ b.block = block ∧
      start s t (.getblk dev block) = .ok (({ s.setBuf s.bufferPtr b with
        bufferCount := s.bufferCount + 1, bufferPtr := s.bufferPtr + sizeofBuffer
        bufferData := s.bufferData - BLOCK_SIZE
        hashTable := Function.update s.hashTable i (s.bufferPtr :: s.hashTable i) }).leave t
          (some s.bufferPtr)) := by
  have hno : ∀ i, s.bufferPtr ∉ s.hashTable i := fun i hm => hT.made_ne (hT.made i _ hm) rfl
  have hnew : getNewBuffer s = some (s.bufferPtr, _) := if_pos hroom
  refine ⟨{ s.buf s.bufferPtr with
    dataPtr := s.bufferData, dev := dev, block := block, count := 1, dirty := false
    valid := false, lock := ⟨none, 0, false, []⟩ }, hash dev block, rfl, rfl, rfl, ?_⟩
  simp only [start, getBlock, hmiss, takeFree, getFreeBuffer, hnew]
  simp only [bind, Except.bind, assert, hashLocate, State.setBuf, Function.update_self,
    Function.update_idem, beq_self_eq_true, Bool.not_false, if_true]
  rw [if_pos (decide_eq_true (hno _))]
  rfl

theorem full_step {n : Nat} {s : State α} (h : Full n s) (hn : n < 3855) :
    ∃ s' : State α, Full (n + 1) s' := by
  have hT := (reachable_inv h.reach).toTable
  have htop := hT.top
  have hdata := h.data
  have hroom : s.bufferPtr + sizeofBuffer < s.bufferData := by
    rw [h.made] at htop
    unfold sizeofBuffer KERNEL_BUFFER_MEM KERNEL_BUFFER_SIZE BLOCK_SIZE at *
    omega
  obtain ⟨b, i, hc, hd, hb, hs⟩ := getblk_room hT (t := 0) (full_miss h (Nat.le_refl n)) hroom
  have hnext : s.bufferData - BLOCK_SIZE + BLOCK_SIZE * (n + 1 + 1) =
      KERNEL_BUFFER_MEM + KERNEL_BUFFER_SIZE := by
    have hle : BLOCK_SIZE ≤ s.bufferData := by
      unfold KERNEL_BUFFER_MEM KERNEL_BUFFER_SIZE BLOCK_SIZE at hdata
      unfold BLOCK_SIZE
      omega
    rw [← hdata, Nat.mul_succ BLOCK_SIZE (n + 1)]
    omega
  have hstep := h.reach.step (.call 0 (.getblk 0 n) (h.idle 0) nofun hs)
  refine ⟨_, hstep, congrArg (· + 1) h.made, hnext, h.free, h.wait, ?_, h.unlinked, ?_, ?_⟩
  · intro u
    by_cases e : u = 0
    · exact e ▸ Function.update_self ..
    · exact (Function.update_of_ne e ..).trans (h.idle u)
  · intro j x hx
    show ((s.setBuf s.bufferPtr b).buf x).block < n + 1
    by_cases e : x = s.bufferPtr
    · rw [e, setBuf_self, hb]
      exact Nat.lt_succ_self n
    · rw [setBuf_of_ne e]
      have hx' : x ∈ Function.update s.hashTable i (s.bufferPtr :: s.hashTable i) j := hx
      by_cases ej : j = i
      · rw [ej, Function.update_self] at hx'
        exact Nat.lt_succ_of_lt (h.below i x ((List.mem_cons.mp hx').resolve_left e))
      · rw [Function.update_of_ne ej] at hx'
        exact Nat.lt_succ_of_lt (h.below j x hx')
  · intro x hx
    show ((s.setBuf s.bufferPtr b).buf x).count = 1 ∧ ((s.setBuf s.bufferPtr b).buf x).dirty = false
    rcases (made_succ hT x).mp hx with hm | rfl
    · rw [setBuf_of_ne (hT.made_ne hm)]
      exact h.held x hm
    · rw [setBuf_self]
      exact ⟨hc, hd⟩

/-- There is memory for 3855 buffers, and one task can take them all. -/
theorem full_fill (buf : Nat → Buffer α) (devices : Disk.Table) (disk : Disk.Cell → α) (n : Nat)
    (hn : n ≤ 3855) : ∃ s : State α, Full n s := by
  induction n with
  | zero =>
    refine ⟨init buf devices disk, .init buf devices disk, rfl, ?_, rfl, rfl, fun _ => rfl, fun _ => rfl,
      fun _ _ h => (nomatch h), fun _ ⟨_, hi, _⟩ => absurd hi (Nat.not_lt_zero _)⟩
    exact Nat.sub_add_cancel (by decide)
  | succ n ih =>
    obtain ⟨s, hs⟩ := ih (Nat.le_of_succ_le hn)
    exact full_step hs hn

/-- **When all memory is in use, the next `getblk` sleeps.** -/
theorem full_sleeps {s : State α} (h : Full 3855 s) :
    ∃ s' : State α, Reachable s' ∧ s'.waitList = [1] ∧ s'.pc 0 = .out ∧
      s'.buf = s.buf ∧ s'.bufferCount = 3855 := by
  have htop := (reachable_inv h.reach).toTable.top
  have hdata := h.data
  have hroom : ¬ s.bufferPtr + sizeofBuffer < s.bufferData := by
    rw [h.made] at htop
    unfold sizeofBuffer KERNEL_BUFFER_MEM KERNEL_BUFFER_SIZE BLOCK_SIZE at *
    omega
  have hnew : getNewBuffer s = none := if_neg hroom
  have hcall : start s 1 (.getblk 0 3855) = .ok ({ s with
      node := Function.update s.node 1 (some .waitList), ready := Function.update s.ready 1 false
      waitList := [1] }.setPc 1 (.asleep 0 3855 false)) := by
    simp only [start, getBlock, full_miss h (Nat.le_refl _), takeFree, getFreeBuffer, hnew, h.free,
      List.getLast?_nil, bind, Except.bind, taskBlock, h.unlinked, Option.isNone_none, assert,
      if_true, h.wait, pure, Except.pure]
  refine ⟨_, h.reach.step (.call 1 (.getblk 0 3855) (h.idle 1) nofun hcall), rfl, ?_, rfl, h.made⟩
  simp only [State.setPc, Function.update_of_ne (Nat.zero_ne_one), h.idle]

/-- A state in which task 1 waits for a buffer and task 0 holds one that is clean. -/
theorem waiting_reached : ∃ s : State Nat, Reachable s ∧ s.waitList = [1] ∧ s.pc 0 = .out ∧
    s.Made KERNEL_BUFFER_MEM ∧ (s.buf KERNEL_BUFFER_MEM).count = 1 ∧
    (s.buf KERNEL_BUFFER_MEM).dirty = false := by
  obtain ⟨s, hs⟩ := full_fill (fun _ => blankBuffer) (fun _ => none) (fun _ => 0) 3855
    (Nat.le_refl _)
  have hm : s.Made KERNEL_BUFFER_MEM := ⟨0, by rw [hs.made]; decide, rfl⟩
  obtain ⟨s', hr, hw, hpc, hb, hn⟩ := full_sleeps hs
  refine ⟨s', hr, hw, hpc, ⟨0, by rw [hn]; decide, rfl⟩, ?_⟩
  rw [hb]
  exact hs.held _ hm

/-! ## 3. The sleepers are never woken -/

/-- **`brelse` never wakes a sleeper**: in every reachable state with a task on `wait_list`, a
    `brelse` that brings a count to zero ends in a failed assertion. -/
theorem brelse_waiting_fails {s : State α} (_hs : Reachable s) (hw : s.waitList ≠ []) {t bf : Nat}
    (hc : (s.buf bf).count = 1) {r : Except Stop (State α)} (hr : BrelseEnds s t bf r) :
    r = .error .assertion ∧ ¬ WakesOne s r := by
  have e := brelseEnds_waiting hw hc hr
  rw [e]
  exact ⟨rfl, not_wakesOne_error s _⟩

theorem brelse_waiting_fails_full : ∃ s : State Nat, s.waitList = [1] ∧
    start s 0 (.brelse KERNEL_BUFFER_MEM) = .error .assertion := by
  obtain ⟨s, hr, hw, hpc, hm, hc, hd⟩ := waiting_reached
  exact ⟨s, hw, (brelse_waiting_fails hr (by rw [hw]; decide) hc (.clean hpc hm hd)).1⟩

/-- A cache in use in full: task 1 waits, and the `brelse` of task 0 does not wake it. -/
theorem brelse_wakes_not_always : ¬ ∀ s : State Nat, Reachable s → s.waitList ≠ [] →
    ∀ t bf r, (s.buf bf).count = 1 → BrelseEnds s t bf r → WakesOne s r := by
  intro h
  obtain ⟨s, hr, hw, hpc, hm, hc, hd⟩ := waiting_reached
  have hne : s.waitList ≠ [] := by rw [hw]; decide
  have hb := BrelseEnds.clean hpc hm hd
  have := h s hr hne 0 KERNEL_BUFFER_MEM _ hc hb
  rw [brelseEnds_waiting hne hc hb] at this
  exact not_wakesOne_error s _ this

end Yuios.BufferCache
