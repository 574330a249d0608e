/-
  File:      Yuios/Kernel/Faulting.lean
  Subject:   PAGE FAULTS: which accesses of a user's `page_fault` serves.

  * `Space.legal` -- the processor lets the user at the address.
  * `Enough` -- so many frames can be taken; `getPage_iff`, `linkPage_iff` and `copyPage_iff` say when
    the calls below `page_fault` succeed.
  * `Served` -- the fault is outside the user's memory, or is a store to a page that is neither shared
    nor read-only, or is in the heap or the stack.
  * **`pageFault_served`** -- exactly then `page_fault` ends the process or makes the access legal.
  * `readonly_halts` -- a process stores to a page it has mapped read-only, and loads from an address
    above its heap.
-/
import Yuios.Lib.Returns
import Yuios.Kernel.Fresh

namespace Yuios.Paging

open Lib
open Kernel (of_assert)

/-- The directory and the table let the user at the address. -/
def Space.legal (S : Space) (v : Nat) (write : Bool) : Bool :=
  S.mapped v && (S.pde (DIDX v)).user && (S.entry v).user &&
    (!write || ((S.pde (DIDX v)).write && (S.entry v).write))

/-- What the processor reports of an access that is not legal: whether the page is there. -/
def Faults (S : Space) (v : Nat) (present write : Bool) : Prop :=
  USER_EXEC_ADDR ≤ v → v < USER_STACK_TOP → present = S.mapped v ∧ S.legal v write = false

/-- The free frames. -/
def freeFrames (m : Mem) : Finset Nat :=
  (Finset.Ico m.startPage m.totalPages).filter fun f => m.memoryMap f = 0

/-- `get_page` can be called `n` times: as many frames are free, and `free_pages`, a `u32`, does not
    come down to zero. -/
def Enough (m : Mem) (n : Nat) : Prop :=
  n ≤ (freeFrames m).card ∧ (m.freePages % 2 ^ 32 = 0 ∨ n < m.freePages % 2 ^ 32)

/-- **The fault of a store to a page that is there.** -/
structure Unshares (S : Space) (v : Nat) : Prop where
  shared : (S.entry v).shared = false
  readonly : (S.entry v).readonly = false
  counted : 0 < S.mem.memoryMap (S.entry v).index
  frames : S.mem.memoryMap (S.entry v).index ≠ 1 → Enough S.mem 1
  -- as the kernel makes every table and entry
  table : (S.pde (DIDX v)).user = true ∧ (S.pde (DIDX v)).write = true
  user : S.mem.memoryMap (S.entry v).index = 1 → (S.entry v).user = true

/-- **The fault of an access to a page that is not there.** -/
structure Links (m : Mem) (q : Proc) (v : Nat) (write : Bool) : Prop where
  inside : v < q.brk ∨ USER_STACK_BOTTOM ≤ v
  frames : Enough m (if (q.pde (DIDX v)).present then 1 else 2)
  table : (q.pde (DIDX v)).present = true →
    (q.pde (DIDX v)).user = true ∧ (write = true → (q.pde (DIDX v)).write = true)

/-- **The faults that are served.** -/
def Served (m : Mem) (q : Proc) (v : Nat) (write : Bool) : Prop :=
  v < USER_EXEC_ADDR ∨ USER_STACK_TOP ≤ v ∨
    (Space.mapped ⟨m, q.pde⟩ v = true ∧ write = true ∧ Unshares ⟨m, q.pde⟩ v) ∨
    (Space.mapped ⟨m, q.pde⟩ v = false ∧ Links m q v write)

section Frames

variable {m m' : Mem} {n i g : Nat}

theorem firstFree_none {map : Nat → Nat} :
    firstFree map n i = none ↔ ∀ f, i ≤ f → f < i + n → map f ≠ 0 := by
  induction n generalizing i with
  | zero => simp only [firstFree, true_iff]; omega
  | succ n ih =>
    rw [firstFree]
    split
    · next h0 =>
        simp only [reduceCtorEq, false_iff, not_forall]
        exact ⟨i, Nat.le_refl _, by omega, by simpa using h0⟩
    · next h0 =>
        rw [ih]
        constructor
        · intro h f h1 h2
          by_cases e : f = i
          · subst e
            exact h0
          · exact h f (by omega) (by omega)
        · exact fun h f h1 h2 => h f (by omega) (by omega)

/-- A frame is found if there is a free one. -/
theorem leastFree_some (m : Mem) : (∃ f, leastFree m = some f) ↔ 1 ≤ (freeFrames m).card := by
  rw [Nat.one_le_iff_ne_zero, Ne, Finset.card_eq_zero, ← Ne, ← Option.ne_none_iff_exists',
    ← Finset.nonempty_iff_ne_empty]
  refine not_iff_comm.mp ?_
  rw [Finset.not_nonempty_iff_eq_empty, freeFrames, Finset.filter_eq_empty_iff, leastFree, firstFree_none]
  simp only [Finset.mem_Ico]
  constructor
  · intro h f h1 h2
    exact h ⟨h1, by omega⟩
  · intro h f hf
    exact h f hf.1 (by omega)

theorem returns_assert {c : Bool} {α : Type} {x : Except Stop α} {Q : α → Prop} :
    Returns (Kernel.assert c >>= fun _ => x) Q ↔ c = true ∧ Returns x Q := by
  cases c with
  | true => exact ⟨fun h => ⟨rfl, h⟩, And.right⟩
  | false => exact iff_of_false (fun ⟨_, h, _⟩ => nomatch h) fun h => nomatch h.1

/-- **When `get_page` returns.** -/
theorem getPage_iff (m : Mem) : Returns (getPage m) (fun _ => True) ↔ Enough m 1 := by
  unfold Enough
  rw [← leastFree_some]
  unfold getPage leastFree
  cases firstFree m.memoryMap (m.totalPages - m.startPage) m.startPage with
  | none => simp
  | some f =>
    refine returns_assert.trans ?_
    rw [decide_eq_true_eq, returns_pure, and_true]
    refine Iff.trans ?_ (and_iff_right ⟨f, rfl⟩).symm
    omega

theorem freeFrames_recount (free : Nat) :
    freeFrames (m.recount g 1 free) = (freeFrames m).erase g := by
  ext f
  have hcount : (m.recount g 1 free).memoryMap f = if f = g then 1 else m.memoryMap f := by
    show Function.update m.memoryMap g 1 f = _
    rw [Function.update_apply]
  rw [Finset.mem_erase, freeFrames, freeFrames, Finset.mem_filter, Finset.mem_filter, hcount]
  by_cases e : f = g
  · simp [e]
  · rw [if_neg e]
    exact (and_iff_right e).symm

/-- `free_pages` is one less, and not zero. -/
theorem getPage_free (h : getPage m = .ok (m', g)) :
    m'.freePages = (m.freePages + 2 ^ 32 - 1) % 2 ^ 32 ∧ 0 < m'.freePages := by
  unfold getPage at h
  split at h
  · cases h
  · obtain ⟨hpos, h⟩ := of_assert h
    rw [decide_eq_true_eq] at hpos
    cases h
    exact ⟨rfl, hpos⟩

/-- A frame less. -/
theorem enough_succ (h : getPage m = .ok (m', g)) : Enough m 2 ↔ Enough m' 1 := by
  obtain ⟨hless, hpos⟩ := getPage_free h
  obtain ⟨hg, hlow, hhigh, free, rfl⟩ := getPage_ok h
  have hmem : g ∈ freeFrames m := Finset.mem_filter.mpr ⟨Finset.mem_Ico.mpr ⟨hlow, hhigh⟩, hg⟩
  have hcard := Finset.card_pos.mpr ⟨g, hmem⟩
  have hfree : (m.recount g 1 free).freePages = free := rfl
  unfold Enough
  rw [freeFrames_recount, Finset.card_erase_of_mem hmem, hfree]
  rw [hfree] at hless hpos
  omega

end Frames

section Faults

variable {m : Mem} {q : Proc} {S S' : Space} {v : Nat} {present write : Bool}

/-- The access is legal in what `page_fault` leaves, if it does not end the process. -/
def Legalized (v : Nat) (write : Bool) : Option (Mem × Proc) → Prop
  | none => True
  | some (m, q) => Space.legal ⟨m, q.pde⟩ v write = true

theorem legal_iff : S.legal v write = true ↔ S.mapped v = true ∧ (S.pde (DIDX v)).user = true ∧
    (S.entry v).user = true ∧ (write = true → (S.pde (DIDX v)).write = true ∧ (S.entry v).write = true) := by
  unfold Space.legal
  cases write
  · simp [and_assoc]
  · simp [and_assoc]

/-- An entry is written. -/
theorem legal_setEntry {e : Word} (he : e.present = true) : (S.setEntry v e).legal v write = true ↔
    (S.pde (DIDX v)).present = true ∧ (S.pde (DIDX v)).user = true ∧ e.user = true ∧
      (write = true → (S.pde (DIDX v)).write = true ∧ e.write = true) := by
  rw [legal_iff, Space.mapped, entry_setEntry, he, Bool.and_true]
  exact Iff.rfl

theorem copyPage_iff {page : Nat} : Returns (copyPage m page) (fun _ => True) ↔ Enough m 1 := by
  unfold copyPage
  rw [returns_bind, ← getPage_iff]
  exact returns_congr fun r _ => returns_pure

/-- After an entry is written. -/
theorem legalized_setEntry {e : Word} (he : e.present = true) (hpde : S.pde = q.pde)
    (hd : (S.pde (DIDX v)).present = true) : Legalized v write (some ((S.setEntry v e).mem, q)) ↔
      (S.pde (DIDX v)).user = true ∧ e.user = true ∧
        (write = true → (S.pde (DIDX v)).write = true ∧ e.write = true) := by
  show Space.legal ⟨_, q.pde⟩ v write = true ↔ _
  rw [← hpde]
  exact (legal_setEntry he).trans (and_iff_right hd)

/-- **A page that is there** is made writable or copied. -/
theorem pageFault_present (h1 : USER_EXEC_ADDR ≤ v) (h2 : v < USER_STACK_TOP)
    (hmap : Space.mapped ⟨m, q.pde⟩ v = true) :
    Returns (pageFault m q v true write) (Legalized v write) ↔
      write = true ∧ Unshares ⟨m, q.pde⟩ v := by
  obtain ⟨hd, he⟩ := Bool.and_eq_true_iff.mp hmap
  obtain ⟨S, hS⟩ : ∃ S : Space, S = ⟨m, q.pde⟩ := ⟨_, rfl⟩
  have hpde : S.pde = q.pde := by rw [hS]
  unfold pageFault
  rw [if_neg (by simp [h1, h2]), if_pos rfl, returns_assert, getPte_same hd, returns_bind, returns_ok,
    returns_assert, returns_assert, returns_assert, returns_assert, ← hS]
  rw [← hS] at hd he
  simp only [Bool.not_eq_true', decide_eq_true_eq, he, true_and]
  refine and_congr_right fun hw => ?_
  by_cases hn : S.mem.memoryMap (S.entry v).index = 1
  · rw [if_pos hn, returns_pure, legalized_setEntry rfl hpde hd]
    constructor
    · rintro ⟨hsh, hro, hc, hu, hu', ht⟩
      exact ⟨hsh, hro, hc, fun h => absurd hn h, ⟨hu, (ht hw).1⟩, fun _ => hu'⟩
    · rintro ⟨hsh, hro, hc, -, ⟨hu, ht⟩, hu'⟩
      exact ⟨hsh, hro, hc, hu, hu' hn, fun _ => ⟨ht, rfl⟩⟩
  · rw [if_neg hn, returns_bind]
    rw [returns_congr (R := fun _ => ((S.pde (DIDX v)).user = true ∧ (S.pde (DIDX v)).write = true) ∧ True),
      returns_and, copyPage_iff]
    swap
    · intro r _
      rw [returns_pure]
      obtain ⟨T, hT⟩ : ∃ T : Space, T = ⟨r.1.setCount (S.entry v).index
          (r.1.memoryMap (S.entry v).index - 1), S.pde⟩ := ⟨_, rfl⟩
      have hpdeT : T.pde = S.pde := by rw [hT]
      have hset : Legalized v write (some ((T.setEntry v (entryInit r.2)).mem, q)) ↔ _ :=
        legalized_setEntry rfl (hpdeT.trans hpde) (by rwa [hpdeT])
      rw [← hT]
      refine hset.trans ?_
      rw [hpdeT]
      constructor
      · exact fun h => ⟨⟨h.1, (h.2.2 hw).1⟩, trivial⟩
      · exact fun h => ⟨h.1.1, rfl, fun _ => ⟨h.1.2, rfl⟩⟩
    constructor
    · rintro ⟨hsh, hro, hc, ht, hn'⟩
      exact ⟨hsh, hro, hc, fun _ => hn', ht, fun h => absurd h hn⟩
    · rintro ⟨hsh, hro, hc, hn', ht, -⟩
      exact ⟨hsh, hro, hc, ht, hn' hn⟩

theorem getPage_returns {P : Prop} : (Returns (getPage m) fun _ => P) ↔ P ∧ Enough m 1 := by
  rw [← getPage_iff, ← returns_and]
  exact returns_congr fun _ _ => (and_iff_left trivial).symm

/-- **A page is linked.** The table is there, or is made for it. -/
theorem linkPage_returns (ha : v % PAGE_SIZE = 0) (hun : S.mapped v = false) :
    Returns (linkPage S v) (fun S' => S'.legal v write = true) ↔
      Enough S.mem (if (S.pde (DIDX v)).present then 1 else 2) ∧
        ((S.pde (DIDX v)).present = true →
          (S.pde (DIDX v)).user = true ∧ (write = true → (S.pde (DIDX v)).write = true)) := by
  have hnew : ∀ (T : Space), (T.pde (DIDX v)).present = true → (T.entry v).present = false →
      (Returns (if (T.entry v).present then pure T
        else getPage T.mem >>= fun r => pure ({ T with mem := r.1 }.setEntry v (entryInit r.2)))
          (fun S' => S'.legal v write = true) ↔
        ((T.pde (DIDX v)).user = true ∧ (write = true → (T.pde (DIDX v)).write = true)) ∧ Enough T.mem 1) := by
    intro T hd he
    rw [if_neg (by simp [he]), returns_bind, ← getPage_returns]
    refine returns_congr fun r _ => ?_
    refine returns_pure.trans ((legal_setEntry (S := ⟨_, T.pde⟩) (e := entryInit r.2) rfl).trans ?_)
    simp [entryInit, hd]
  unfold linkPage
  rw [returns_assert, returns_bind, and_iff_right (by simpa using ha)]
  by_cases hd : (S.pde (DIDX v)).present = true
  · have he : (S.entry v).present = false := by rwa [Space.mapped, hd, Bool.true_and] at hun
    rw [getPte_same hd, returns_ok]
    refine (hnew S hd he).trans ?_
    simp [hd, and_comm]
  · unfold getPte
    rw [returns_assert, if_neg hd, returns_bind, if_neg hd]
    simp only [hd, Bool.true_or, true_and, Bool.false_eq_true, false_implies, and_true]
    -- the new table is empty, and the page is the second frame that is taken
    have hsecond : ∀ r : Mem × Nat, getPage S.mem = .ok r →
        (Returns (pure ⟨r.1.fill r.2 fun _ => .zero, Function.update S.pde (DIDX v) (entryInit r.2)⟩ :
            Except Stop Space) (fun T => Returns (if (T.entry v).present then pure T
              else getPage T.mem >>= fun r => pure ({ T with mem := r.1 }.setEntry v (entryInit r.2)))
                (fun S' => S'.legal v write = true)) ↔
          Enough S.mem 2 ∧ True) := by
      intro r hr
      rw [returns_pure]
      refine (hnew _ (by simp [entryInit]) (by simp [Space.entry, fill_self, entryInit, Word.zero])).trans ?_
      rw [enough_succ hr, and_true]
      exact and_iff_right (by simp [entryInit])
    refine (returns_congr hsecond).trans (returns_and.trans ?_)
    rw [getPage_iff]
    refine and_iff_left_of_imp fun h => ⟨le_trans (by decide) h.1, h.2.imp_right fun h => ?_⟩
    exact lt_trans (by decide) h

/-- **A page that is not there** is linked. -/
theorem pageFault_absent (h1 : USER_EXEC_ADDR ≤ v) (h2 : v < USER_STACK_TOP)
    (hmap : Space.mapped ⟨m, q.pde⟩ v = false) :
    Returns (pageFault m q v false write) (Legalized v write) ↔ Links m q v write := by
  have hpage : PAGE (IDX v) % PAGE_SIZE = 0 := Nat.mul_mod_left _ _
  have hdidx : DIDX (PAGE (IDX v)) = DIDX v := by
    unfold DIDX PAGE IDX PAGE_SIZE
    omega
  have htidx : TIDX (PAGE (IDX v)) = TIDX v := by
    unfold TIDX PAGE IDX PAGE_SIZE
    omega
  have hentry : ∀ S : Space, S.entry (PAGE (IDX v)) = S.entry v := fun S => by
    rw [Space.entry, Space.entry, hdidx, htidx]
  have hlegal : ∀ S : Space, S.legal (PAGE (IDX v)) write = S.legal v write := fun S => by
    rw [Space.legal, Space.legal, Space.mapped, Space.mapped, hdidx, hentry]
  have hun : Space.mapped ⟨m, q.pde⟩ (PAGE (IDX v)) = false := by
    rw [Space.mapped, hdidx, hentry]
    exact hmap
  unfold pageFault
  rw [if_neg (by simp [h1, h2]), if_neg (by simp)]
  by_cases hin : v < q.brk ∨ USER_STACK_BOTTOM ≤ v
  · rw [if_pos (by simpa using hin), returns_bind]
    have hlink : Returns (linkPage ⟨m, q.pde⟩ (PAGE (IDX v)))
        (fun S => S.legal (PAGE (IDX v)) write = true) ↔ _ := linkPage_returns hpage hun
    simp only [hlegal, hdidx] at hlink
    refine (returns_congr fun S _ => ?_).trans (hlink.trans ?_)
    · exact returns_pure
    · constructor
      · exact fun h => ⟨hin, h.1, h.2⟩
      · exact fun h => ⟨h.frames, h.table⟩
  · rw [if_neg (by simpa using hin)]
    exact iff_of_false returns_error.mp fun h => hin h.inside

theorem pageFault_outside (hout : v < USER_EXEC_ADDR ∨ USER_STACK_TOP ≤ v) :
    pageFault m q v present write = .ok none := by
  unfold pageFault
  rw [if_pos (by simpa using hout)]
  rfl

/-- **Exactly the faults of `Served` are served**: `page_fault` returns, and it has ended the process
    or the access is legal. On every other one an assertion fails, the kernel panics, or the access
    faults again. -/
theorem pageFault_served (hf : Faults ⟨m, q.pde⟩ v present write) :
    Returns (pageFault m q v present write) (Legalized v write) ↔ Served m q v write := by
  by_cases hout : v < USER_EXEC_ADDR ∨ USER_STACK_TOP ≤ v
  · rw [pageFault_outside hout, returns_ok]
    exact iff_of_true trivial (hout.imp_right .inl)
  · obtain ⟨h1, h2⟩ : USER_EXEC_ADDR ≤ v ∧ v < USER_STACK_TOP := by
      simpa only [not_or, not_lt, not_le] using hout
    obtain ⟨rfl, -⟩ := hf h1 h2
    unfold Served
    rw [← or_assoc, or_iff_right hout]
    cases hmap : Space.mapped ⟨m, q.pde⟩ v with
    | true =>
      rw [pageFault_present h1 h2 hmap]
      simp
    | false =>
      rw [pageFault_absent h1 h2 hmap]
      simp

end Faults

/-! ## Two processes that stop the kernel -/

theorem mapped_taskToUserMode {m : Mem} {v : Nat} : Space.mapped ⟨m, taskToUserMode.pde⟩ v = false := rfl

/-- A page of the stack is touched for the first time. -/
theorem pageFault_served_stack :
    Returns (pageFault (bootState 4400).mem taskToUserMode USER_STACK_BOTTOM false true)
      (Legalized USER_STACK_BOTTOM true) ↔
    Served (bootState 4400).mem taskToUserMode USER_STACK_BOTTOM true :=
  pageFault_served fun _ _ => ⟨mapped_taskToUserMode.symm, by rw [Space.legal, mapped_taskToUserMode]; rfl⟩

/-- Process 1 maps a page that may only be read. -/
def mappingRead : List Action := [.start 1, .mmap 1 USER_MMAP_ADDR 4096 ⟨false, false, false⟩]

/-- Why an action stops the kernel. -/
def stopOf (s : State) (a : Action) : Option Stop :=
  match act s a with
  | .error e => some e
  | .ok _ => none

/-- **A store to a page that may only be read fails an assertion, a load above the heap is a panic.** -/
theorem readonly_halts : ∃ s, Kept 4400 s ∧
    stopOf s (.userStore 1 USER_MMAP_ADDR .zero) = some .assertion ∧
    stopOf s (.load 1 (USER_MMAP_ADDR + 4096)) = some .panic := by
  have hrun : (actAll (fun _ a => Proper a) (bootState 4400) mappingRead).map (fun s =>
      (stopOf s (.userStore 1 USER_MMAP_ADDR .zero), stopOf s (.load 1 (USER_MMAP_ADDR + 4096))))
      = some (some .assertion, some .panic) := by decide +kernel
  obtain ⟨s, hs, he⟩ := Option.map_eq_some_iff.mp hrun
  rw [Prod.mk.injEq] at he
  exact ⟨s, (Run.boot (boot_bootState (by decide) (by decide))).all hs, he⟩

end Yuios.Paging
