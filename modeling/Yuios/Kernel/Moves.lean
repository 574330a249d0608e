/-
  File:      Yuios/Kernel/Moves.lean
  Subject:   WHAT THE CALLS OF `kernel/memory.c` DO TO AN ADDRESS SPACE, as a sequence of five moves.

  Every call but `copy_pde` and `free_pde` works on the tables of the running task alone, and only
  through these moves. An invariant is proved of a move, and then holds after the calls.

  * `Move` -- a new table, a new page, a page given up, an entry whose flags change, a page copied.
    What is known of the changed flags is a parameter, `P`.
  * `linkPage_moves` to `pageFault_moves` -- one lemma for each call.
-/
import Mathlib.Logic.Relation
import Yuios.Fs.Alloc
import Yuios.Kernel.Paging

namespace Yuios.Paging

open Relation
open Kernel (of_assert)

/-- A slot of a user's table. -/
def UserSlot (d : Nat) : Prop := FIRST_SLOT ≤ d ∧ d < LAST_SLOT

/-- An address of the user: below the tables themselves. -/
def UserAddr (v : Nat) : Prop := USER_EXEC_ADDR ≤ v ∧ v < SELF_MAP

theorem UserAddr.slot {v : Nat} (h : UserAddr v) : UserSlot (DIDX v) := by
  unfold UserAddr USER_EXEC_ADDR KERNEL_MEMORY_SIZE SELF_MAP at h
  unfold UserSlot FIRST_SLOT LAST_SLOT DIDX
  omega

theorem tidx_lt (v : Nat) : TIDX v < 1024 := Nat.mod_lt _ (by decide)

/-- A count and the number of free frames. -/
def Mem.recount (m : Mem) (f n free : Nat) : Mem := { m.setCount f n with freePages := free }

/-- A frame becomes the table of slot `d`. -/
def Space.newTable (S : Space) (d g free : Nat) : Space :=
  ⟨(S.mem.recount g 1 free).fill g fun _ => .zero, Function.update S.pde d (entryInit g)⟩

/-- A frame becomes the page at `v`. -/
def Space.newPage (S : Space) (v g free : Nat) : Space :=
  { S with mem := S.mem.recount g 1 free }.setEntry v (entryInit g)

/-- **One change of an address space.** -/
inductive Move (P : Mem → Word → Prop) (S : Space) : Space → Prop where
  | table (d g free : Nat) (hd : UserSlot d) (ha : (S.pde d).present = false)
      (hg : S.mem.memoryMap g = 0) : Move P S (S.newTable d g free)
  | page (v g free : Nat) (hv : UserAddr v) (hd : (S.pde (DIDX v)).present = true)
      (ha : (S.entry v).present = false) (hg : S.mem.memoryMap g = 0) : Move P S (S.newPage v g free)
  | unmap (v free : Nat) (hv : UserAddr v) (hd : (S.pde (DIDX v)).present = true)
      (he : (S.entry v).present = true) :
      Move P S ⟨(S.setEntry v { S.entry v with present := false }).mem.recount (S.entry v).index
        (S.mem.memoryMap (S.entry v).index - 1) free, S.pde⟩
  | edit (v : Nat) (e : Word) (hv : UserAddr v) (hd : (S.pde (DIDX v)).present = true)
      (he : target e = target (S.entry v)) (hP : e.present = true → P S.mem e) :
      Move P S (S.setEntry v e)
  | copy (v g free : Nat) (hv : UserAddr v) (hd : (S.pde (DIDX v)).present = true)
      (he : (S.entry v).present = true) (hn : 1 < S.mem.memoryMap (S.entry v).index)
      (hg : S.mem.memoryMap g = 0) :
      Move P S ({ S with
        mem := ((S.mem.recount g 1 free).fill g (S.mem.frame (S.entry v).index)).setCount
          (S.entry v).index (S.mem.memoryMap (S.entry v).index - 1) }.setEntry v (entryInit g))

/-- Changes one after the other. -/
abbrev Moves (P : Mem → Word → Prop) : Space → Space → Prop := ReflTransGen (Move P)

/-! ## 1. Frames -/

section Frames

variable {m m' : Mem} {f g i n t u : Nat}

theorem setWord_self (m : Mem) (f t : Nat) (w : Word) : (m.setWord f t w).frame f t = w := by
  simp [Mem.setWord]

theorem setWord_ne {w : Word} (h : ¬(g = f ∧ u = t)) : (m.setWord f t w).frame g u = m.frame g u := by
  show Function.update m.frame f _ g u = _
  by_cases e : g = f
  · subst e
    rw [Function.update_self, Function.update_of_ne fun e => h ⟨rfl, e⟩]
  · rw [Function.update_of_ne e]

theorem fill_self (m : Mem) (g : Nat) (r : Nat → Word) : (m.fill g r).frame g = r :=
  Function.update_self _ _ _

theorem fill_ne {r : Nat → Word} (h : f ≠ g) : (m.fill g r).frame f = m.frame f :=
  Function.update_of_ne h _ _

theorem newTable_self (S : Space) (d g free : Nat) :
    (S.newTable d g free).mem.frame g = fun _ => .zero := fill_self _ _ _

theorem newTable_ne {S : Space} {d free : Nat} (h : f ≠ g) :
    (S.newTable d g free).mem.frame f = S.mem.frame f := fill_ne h

theorem firstFree_some {map : Nat → Nat} (h : firstFree map n i = some g) :
    map g = 0 ∧ i ≤ g ∧ g < i + n := by
  induction n generalizing i with
  | zero => cases h
  | succ n ih =>
    rw [firstFree] at h
    split at h
    · next h0 =>
        cases h
        exact ⟨h0, Nat.le_refl _, by omega⟩
    · have := ih h
      omega

/-- The frame that is taken has no reference. -/
theorem getPage_ok (h : getPage m = .ok (m', g)) :
    m.memoryMap g = 0 ∧ m.startPage ≤ g ∧ g < m.totalPages ∧
      ∃ free, m' = m.recount g 1 free := by
  unfold getPage at h
  split at h
  · cases h
  · next i hi =>
      obtain ⟨-, h⟩ := of_assert h
      cases h
      have := firstFree_some hi
      exact ⟨this.1, this.2.1, by omega, _, rfl⟩

theorem putPage_ok (h : putPage m i = .ok m') :
    m.startPage ≤ i ∧ 1 ≤ m.memoryMap i ∧
      ∃ free, m' = m.recount i (m.memoryMap i - 1) free := by
  unfold putPage at h
  obtain ⟨h1, h⟩ := of_assert h
  obtain ⟨h2, h⟩ := of_assert h
  obtain ⟨-, h⟩ := of_assert h
  cases h
  simp only [Bool.and_eq_true, decide_eq_true_eq] at h1 h2
  exact ⟨h1.1, h2, _, rfl⟩

theorem copyPage_ok {page : Nat} (h : copyPage m page = .ok (m', g)) :
    m.memoryMap g = 0 ∧
      ∃ free, m' = (m.recount g 1 free).fill g (m.frame page) := by
  unfold copyPage at h
  obtain ⟨⟨m₁, g₁⟩, h1, h⟩ := ok_of_bind h
  obtain ⟨hg, -, -, free, rfl⟩ := getPage_ok h1
  cases h
  exact ⟨hg, free, rfl⟩

end Frames

/-! ## 2. Pages -/

section Pages

variable {P : Mem → Word → Prop} {S S' : Space} {v : Nat}

theorem entry_setEntry (S : Space) (v : Nat) (e : Word) : (S.setEntry v e).entry v = e := by
  simp [Space.entry, Space.setEntry, Mem.setWord]

/-- The table for the address is there afterwards. -/
theorem getPte_cases {create : Bool} (h : getPte S v create = .ok S') :
    (S' = S ∨ ∃ g free, (S.pde (DIDX v)).present = false ∧ S.mem.memoryMap g = 0 ∧
      S' = S.newTable (DIDX v) g free) ∧ (S'.pde (DIDX v)).present = true := by
  unfold getPte at h
  obtain ⟨-, h⟩ := of_assert h
  split at h
  · next hp =>
      cases h
      exact ⟨.inl rfl, hp⟩
  · next hp =>
      obtain ⟨⟨m, g⟩, hget, h⟩ := ok_of_bind h
      obtain ⟨hg, -, -, free, rfl⟩ := getPage_ok hget
      cases h
      refine ⟨.inr ⟨g, free, by simpa using hp, hg, rfl⟩, ?_⟩
      simp [entryInit]

theorem getPte_same {create : Bool} (hp : (S.pde (DIDX v)).present = true) :
    getPte S v create = .ok S := by
  simp [getPte, hp]

/-- Without `create` the table is there. -/
theorem getPte_false (h : getPte S v false = .ok S') :
    S' = S ∧ (S.pde (DIDX v)).present = true := by
  unfold getPte at h
  obtain ⟨hp, h⟩ := of_assert h
  rw [Bool.false_or] at hp
  rw [if_pos hp] at h
  cases h
  exact ⟨rfl, hp⟩

/-- The page was there, or it is new, perhaps with its table. -/
theorem linkPage_cases (h : linkPage S v = .ok S') : (S.mapped v = true ∧ S' = S) ∨
    ∃ S₁ g free, (S₁ = S ∨ ∃ g₁ free₁, (S.pde (DIDX v)).present = false ∧ S.mem.memoryMap g₁ = 0 ∧
        S₁ = S.newTable (DIDX v) g₁ free₁) ∧
      (S₁.pde (DIDX v)).present = true ∧ (S₁.entry v).present = false ∧ S₁.mem.memoryMap g = 0 ∧
      S' = S₁.newPage v g free := by
  unfold linkPage at h
  obtain ⟨-, h⟩ := of_assert h
  obtain ⟨S₁, h1, h⟩ := ok_of_bind h
  obtain ⟨hS₁, hd⟩ := getPte_cases h1
  split at h
  · next he =>
      cases h
      obtain rfl | ⟨g, free, -, -, rfl⟩ := hS₁
      · exact .inl ⟨by rw [Space.mapped, hd, he]; rfl, rfl⟩
      · simp [Space.newTable, Space.entry, fill_self, entryInit, Word.zero] at he
  · next he =>
      obtain ⟨⟨m, g⟩, hget, h⟩ := ok_of_bind h
      obtain ⟨hg, -, -, free, rfl⟩ := getPage_ok hget
      cases h
      exact .inr ⟨S₁, g, free, hS₁, hd, by simpa using he, hg, rfl⟩

theorem mapped_newPage (S : Space) (v g free : Nat) (hd : (S.pde (DIDX v)).present = true) :
    (S.newPage v g free).mapped v = true := by
  rw [Space.mapped, Space.newPage, entry_setEntry]
  simp [Space.setEntry, hd, entryInit]

/-- The page is there afterwards. -/
theorem linkPage_moves (hv : UserAddr v) (h : linkPage S v = .ok S') :
    Moves P S S' ∧ S'.mapped v = true := by
  obtain ⟨hmap, rfl⟩ | ⟨S₁, g, free, hS₁, hd, he, hg, rfl⟩ := linkPage_cases h
  · exact ⟨.refl, hmap⟩
  · refine ⟨ReflTransGen.tail ?_ (.page v g free hv hd he hg), mapped_newPage S₁ v g free hd⟩
    obtain rfl | ⟨g₁, free₁, ha, hg₁, rfl⟩ := hS₁
    · exact .refl
    · exact .single (.table _ g₁ free₁ hv.slot ha hg₁)

theorem unlinkPage_moves (hv : UserAddr v) (h : unlinkPage S v = .ok S') : Moves P S S' := by
  unfold unlinkPage at h
  obtain ⟨-, h⟩ := of_assert h
  split at h
  · cases h
    exact .refl
  · next he =>
      simp only [Bool.or_eq_true, Bool.not_eq_true', not_or, Bool.not_eq_false] at he
      obtain ⟨m, hm, h⟩ := ok_of_bind h
      obtain ⟨-, -, free, rfl⟩ := putPage_ok hm
      cases h
      exact .single (.unmap v free hv he.1 he.2)

end Pages

/-! ## 3. The bitmap of the user's pages -/

/-- The `vmap` of a user's task: one page of bits, for the addresses from `USER_MMAP_ADDR` on. -/
structure UserMap (b : Bitmap) : Prop where
  offset : b.offset = USER_MMAP_ADDR / PAGE_SIZE
  room : b.room = PAGE_SIZE

section Bits

variable {b b' : Bitmap} {v : Nat} {x : Bool}

theorem idx_lt (h : (IDX v - USER_MMAP_ADDR / PAGE_SIZE) / 8 < PAGE_SIZE) : v < USER_STACK_TOP := by
  unfold IDX USER_MMAP_ADDR PAGE_SIZE at h
  unfold USER_STACK_TOP
  omega

/-- `bitmap_set` in the bitmap: the page is below the end of the stack. -/
theorem bitmapSet_page (hb : UserMap b) (h : bitmapSet b (IDX v) x = .ok b') :
    UserMap b' ∧ v < USER_STACK_TOP := by
  refine ⟨by rw [bitmapSet_ok h]; exact ⟨hb.offset, hb.room⟩, ?_⟩
  unfold bitmapSet at h
  split at h
  · cases h
  · split at h
    · cases h
    · next hr =>
        rw [hb.offset, hb.room] at hr
        exact idx_lt (by omega)

theorem bitmapTest_page (hb : UserMap b) (h : bitmapTest b (IDX v) = .ok x) : v < USER_STACK_TOP := by
  have hr := (bitmapTest_ok h).2.1
  rw [hb.offset, hb.room] at hr
  exact idx_lt hr

theorem markLoop_map {n i : Nat} (hb : UserMap b) (h : markLoop b n i = .ok b') : UserMap b' := by
  induction n generalizing b i with
  | zero =>
    cases h
    exact hb
  | succ n ih =>
    obtain ⟨b₁, h1, h⟩ := ok_of_bind h
    refine ih ?_ h
    rw [bitmapSet_ok h1]
    exact ⟨hb.offset, hb.room⟩

theorem scanPage_map {n v : Nat} (hb : UserMap b) (h : scanPage b n = .ok (v, b')) : UserMap b' := by
  unfold scanPage at h
  obtain ⟨-, h⟩ := of_assert h
  obtain ⟨r, hr, h⟩ := ok_of_bind h
  cases r with
  | none => cases h
  | some r =>
    cases h
    obtain ⟨st, -, hr⟩ := ok_of_bind hr
    cases st with
    | none => cases hr
    | some st =>
      obtain ⟨b₁, hb₁, hr⟩ := ok_of_bind hr
      cases hr
      exact markLoop_map hb hb₁

end Bits

/-! ## 4. The calls -/

/-- A task's record: its bitmap, its heap, and the segment that is being loaded are the user's. -/
structure Sane (q : Proc) : Prop where
  vmap : UserMap q.vmap
  low : USER_EXEC_ADDR ≤ q.end_
  high : q.brk ≤ USER_MMAP_ADDR
  segment : ∀ sg, q.segment = some sg → ∀ i < max sg.ph.memsz sg.ph.filesz,
    USER_EXEC_ADDR ≤ sg.ph.vaddr + i ∧ sg.ph.vaddr + i < USER_MMAP_ADDR

/-- An entry may always lose `write`, and may get it where it is the only one. -/
structure Admits (P : Mem → Word → Prop) : Prop where
  closed : ∀ m e, e.write = false → P m e
  sole : ∀ m e, m.memoryMap e.index = 1 → P m e

theorem admits_true : Admits fun _ _ => True := ⟨fun _ _ _ => trivial, fun _ _ _ => trivial⟩

section Calls

variable {P : Mem → Word → Prop} {S S' : Space} {m m' : Mem} {q q' : Proc} {n v : Nat}

theorem userAddr_of_mmap (h : USER_MMAP_ADDR ≤ v) (h' : v < USER_STACK_TOP) : UserAddr v := by
  unfold USER_MMAP_ADDR at h
  unfold USER_STACK_TOP at h'
  unfold UserAddr USER_EXEC_ADDR KERNEL_MEMORY_SIZE SELF_MAP
  omega

theorem userAddr_of_heap (h : USER_EXEC_ADDR ≤ v) (h' : v ≤ USER_MMAP_ADDR) : UserAddr v := by
  refine ⟨h, ?_⟩
  unfold USER_MMAP_ADDR at h'
  unfold SELF_MAP
  omega

theorem page_add (v n : Nat) : v + PAGE_SIZE + n * PAGE_SIZE = v + (n + 1) * PAGE_SIZE := by
  rw [Nat.succ_mul]
  omega

/-- What is known of the pages ahead (`Q`) gives what has to be known of the new entries. -/
theorem mmapPages_moves {fl : MapFlags} {b b' : Bitmap} {Q : Nat → Nat → Space → Prop}
    (hQ : ∀ n v S S₁, USER_MMAP_ADDR ≤ v → v < USER_STACK_TOP → Q (n + 1) v S →
      linkPage S v = .ok S₁ → P S₁.mem (mapEntry fl (S₁.entry v)) ∧
        Q n (v + PAGE_SIZE) (S₁.setEntry v (mapEntry fl (S₁.entry v))))
    (hq : Q n v S) (hb : UserMap b) (hv : USER_MMAP_ADDR ≤ v)
    (h : mmapPages fl n v S b = .ok (S', b')) : Moves P S S' ∧ UserMap b' := by
  induction n generalizing v S b with
  | zero =>
    cases h
    exact ⟨.refl, hb⟩
  | succ n ih =>
    obtain ⟨S₁, h1, h⟩ := ok_of_bind h
    obtain ⟨b₁, hset, h⟩ := ok_of_bind h
    obtain ⟨hb₁, hlt⟩ := bitmapSet_page hb hset
    have hu := userAddr_of_mmap hv hlt
    obtain ⟨hm, hmap⟩ := linkPage_moves (P := P) hu h1
    simp only [Space.mapped, Bool.and_eq_true] at hmap
    rw [getPte_same hmap.1] at h
    obtain ⟨hP, hq'⟩ := hQ n v S S₁ hv hlt hq h1
    obtain ⟨hm', hb'⟩ := ih hq' hb₁ (by omega) h
    exact ⟨(hm.tail (.edit v (mapEntry fl (S₁.entry v)) hu hmap.1 rfl fun _ => hP)).trans hm', hb'⟩

theorem munmapPages_moves {b b' : Bitmap} (hb : UserMap b) (hv : USER_MMAP_ADDR ≤ v)
    (h : munmapPages n v S b = .ok (S', b')) : Moves P S S' ∧ UserMap b' := by
  induction n generalizing v S b with
  | zero =>
    cases h
    exact ⟨.refl, hb⟩
  | succ n ih =>
    obtain ⟨S₁, h1, h⟩ := ok_of_bind h
    obtain ⟨set, ht, h⟩ := ok_of_bind h
    obtain ⟨-, h⟩ := of_assert h
    obtain ⟨b₁, hset, h⟩ := ok_of_bind h
    have hm := unlinkPage_moves (P := P) (userAddr_of_mmap hv (bitmapTest_page hb ht)) h1
    obtain ⟨hm', hb'⟩ := ih (bitmapSet_page hb hset).1 (by omega) h
    exact ⟨hm.trans hm', hb'⟩

theorem unlinkPages_moves (h1 : ∀ i < n, UserAddr (v + i * PAGE_SIZE))
    (h : unlinkPages n v S = .ok S') : Moves P S S' := by
  induction n generalizing v S with
  | zero =>
    cases h
    exact .refl
  | succ n ih =>
    obtain ⟨S₁, hS₁, h⟩ := ok_of_bind h
    have hm := unlinkPage_moves (P := P) (by simpa using h1 0 (Nat.succ_pos n)) hS₁
    exact hm.trans (ih (fun i hi => page_add v i ▸ h1 (i + 1) (by omega)) h)

/-- The pages that `sys_brk` gives up are below the old end of the heap. -/
theorem divRoundUp_below {a b i : Nat} (h : a ≤ 2 ^ 31) (hi : i < divRoundUp (a - b) PAGE_SIZE) :
    b + i * PAGE_SIZE < a := by
  unfold divRoundUp PAGE_SIZE at hi
  unfold PAGE_SIZE
  omega

/-- The rounding does not wrap around: there are pages for all of the bytes. -/
theorem divRoundUp_above {a i : Nat} (h : a + PAGE_SIZE - 1 < 2 ^ 32) (hi : i < a) :
    i / PAGE_SIZE < divRoundUp a PAGE_SIZE := by
  unfold divRoundUp
  unfold PAGE_SIZE at h ⊢
  omega

theorem sysMmap_moves {addr length r : Nat} {fl : MapFlags} {Q : Nat → Nat → Space → Prop}
    (hQ : ∀ n v S S₁, USER_MMAP_ADDR ≤ v → v < USER_STACK_TOP → Q (n + 1) v S →
      linkPage S v = .ok S₁ → P S₁.mem (mapEntry fl (S₁.entry v)) ∧
        Q n (v + PAGE_SIZE) (S₁.setEntry v (mapEntry fl (S₁.entry v))))
    (hs : Sane q) (h : sysMmap m q addr length fl = .ok (m', q', r))
    (hq : ∀ v b, mmapAddr q addr (divRoundUp length PAGE_SIZE) = .ok (v, b) →
      Q (divRoundUp length PAGE_SIZE) v ⟨m, q.pde⟩) :
    Moves P ⟨m, q.pde⟩ ⟨m', q'.pde⟩ ∧ Sane q' := by
  unfold sysMmap at h
  obtain ⟨-, h⟩ := of_assert h
  obtain ⟨⟨v, b⟩, hb, h⟩ := ok_of_bind h
  obtain ⟨hr, h⟩ := of_assert h
  obtain ⟨⟨S', b'⟩, hp, h⟩ := ok_of_bind h
  cases h
  simp only [Bool.and_eq_true, decide_eq_true_eq] at hr
  have hmap : UserMap b := by
    unfold mmapAddr at hb
    split at hb
    · exact scanPage_map hs.vmap hb
    · cases hb
      exact hs.vmap
  obtain ⟨hm, hb'⟩ := mmapPages_moves hQ (hq r b hb) hmap hr.1 hp
  exact ⟨hm, hb', hs.low, hs.high, hs.segment⟩

theorem sysMunmap_moves {addr length : Nat} {r : Int} (hs : Sane q)
    (h : sysMunmap m q addr length = .ok (m', q', r)) :
    Moves P ⟨m, q.pde⟩ ⟨m', q'.pde⟩ ∧ Sane q' := by
  unfold sysMunmap at h
  obtain ⟨hr, h⟩ := of_assert h
  obtain ⟨-, h⟩ := of_assert h
  obtain ⟨⟨S', b'⟩, hp, h⟩ := ok_of_bind h
  cases h
  simp only [Bool.and_eq_true, decide_eq_true_eq] at hr
  obtain ⟨hm, hb'⟩ := munmapPages_moves hs.vmap hr.1 hp
  exact ⟨hm, hb', hs.low, hs.high, hs.segment⟩

theorem sysBrk_moves {brk : Nat} {r : Int} (hs : Sane q) (h : sysBrk m q brk = .ok (m', q', r)) :
    Moves P ⟨m, q.pde⟩ ⟨m', q'.pde⟩ ∧ Sane q' := by
  unfold sysBrk at h
  obtain ⟨-, h⟩ := of_assert h
  obtain ⟨hr, h⟩ := of_assert h
  simp only [Bool.and_eq_true, decide_eq_true_eq] at hr
  split at h
  · obtain ⟨S', hS', h⟩ := ok_of_bind h
    cases h
    refine ⟨unlinkPages_moves (fun i hi => ?_) hS', hs.vmap, hs.low, hr.2, hs.segment⟩
    have hlow := hs.low
    have hhigh := hs.high
    have := divRoundUp_below (by unfold USER_MMAP_ADDR at hhigh; omega) hi
    exact userAddr_of_heap (by omega) (by omega)
  · split at h
    · cases h
      exact ⟨.refl, hs⟩
    · cases h
      exact ⟨.refl, hs.vmap, hs.low, hr.2, hs.segment⟩

theorem linkSegment_moves (h : linkSegment n v S = .ok S') : Moves P S S' ∧
    ∀ i < n, USER_EXEC_ADDR ≤ v + i * PAGE_SIZE ∧ v + i * PAGE_SIZE < USER_MMAP_ADDR := by
  induction n generalizing v S with
  | zero =>
    cases h
    exact ⟨.refl, fun i hi => absurd hi (Nat.not_lt_zero i)⟩
  | succ n ih =>
    unfold linkSegment at h
    obtain ⟨hr, h⟩ := of_assert h
    obtain ⟨S₁, hS₁, h⟩ := ok_of_bind h
    simp only [Bool.and_eq_true, decide_eq_true_eq] at hr
    obtain ⟨hm, -⟩ := linkPage_moves (P := P) (userAddr_of_heap hr.1 hr.2.le) hS₁
    obtain ⟨hm', hall⟩ := ih h
    refine ⟨hm.trans hm', fun i hi => ?_⟩
    cases i with
    | zero => simpa using hr
    | succ i => rw [← page_add]; exact hall i (by omega)

/-- **A segment is linked**: if the size does not wrap around, all of it is in the user's memory. -/
theorem loadSegment_moves {ptr : Nat} {ph : Phdr} (hs : Sane q)
    (hw : max ph.memsz ph.filesz + PAGE_SIZE - 1 < 2 ^ 32) (h : loadSegment m q ptr ph = .ok (m', q')) :
    Moves P ⟨m, q.pde⟩ ⟨m', q'.pde⟩ ∧ Sane q' := by
  unfold loadSegment at h
  obtain ⟨-, h⟩ := of_assert h
  obtain ⟨hal, h⟩ := of_assert h
  obtain ⟨S', hS', h⟩ := ok_of_bind h
  cases h
  obtain ⟨hm, hall⟩ := linkSegment_moves (P := P) hS'
  refine ⟨hm, hs.vmap, hs.low, hs.high, ?_⟩
  rintro sg ⟨⟩ i hi
  dsimp only at hi ⊢
  have hr := hall (i / PAGE_SIZE) (divRoundUp_above hw hi)
  rw [decide_eq_true_eq] at hal
  unfold USER_MMAP_ADDR USER_EXEC_ADDR KERNEL_MEMORY_SIZE PAGE_SIZE at *
  omega

theorem protectSegment_moves (hP : Admits P) (h1 : ∀ i < n, UserAddr (v + i * PAGE_SIZE))
    (h : protectSegment n v S = .ok S') : Moves P S S' := by
  induction n generalizing v S with
  | zero =>
    cases h
    exact .refl
  | succ n ih =>
    obtain ⟨S₁, hS₁, h'⟩ := ok_of_bind h
    have hv : UserAddr v := by simpa using h1 0 (Nat.succ_pos n)
    obtain ⟨rfl, hd⟩ := getPte_false hS₁
    have he := Move.edit (P := P) v { S₁.entry v with write := false, readonly := true } hv hd rfl
      fun _ => hP.closed _ _ rfl
    exact (ReflTransGen.single he).trans (ih (fun i hi => page_add v i ▸ h1 (i + 1) (by omega)) h')

/-- Each page of a segment has a byte of it. -/
theorem pages_below {a i : Nat} (hi : i < divRoundUp a PAGE_SIZE) : i * PAGE_SIZE < a := by
  unfold divRoundUp PAGE_SIZE at hi
  unfold PAGE_SIZE
  omega

theorem endSegment_moves (hP : Admits P) {sg : Segment} {writable : Bool} (hs : Sane q) (hseg : q.segment = some sg)
    (h : endSegment m q { sg.ph with writable } = .ok (m', q')) : Moves P ⟨m, q.pde⟩ ⟨m', q'.pde⟩ ∧ Sane q' := by
  unfold endSegment at h
  obtain ⟨S', hS', h⟩ := ok_of_bind h
  cases h
  refine ⟨protectSegment_moves hP (fun i hi => ?_) hS', hs.vmap,
    Nat.le_trans hs.low (Nat.le_max_left _ _), hs.high, nofun⟩
  have hi' : i < sg.ph.pages := by
    split at hi
    · omega
    · exact hi
  obtain ⟨h1, h2⟩ := hs.segment sg hseg _ (pages_below hi')
  exact userAddr_of_heap h1 h2.le

theorem execve_moves (hs : Sane q) (h : execve m q = .ok (m', q')) :
    Moves P ⟨m, q.pde⟩ ⟨m', q'.pde⟩ ∧ Sane q' := by
  unfold execve at h
  obtain ⟨⟨m₁, q₁, r⟩, hb, h⟩ := ok_of_bind h
  obtain ⟨S', hS', h⟩ := ok_of_bind h
  cases h
  obtain ⟨hm, hs₁⟩ := sysBrk_moves (P := P) (q := { q with end_ := USER_EXEC_ADDR })
    ⟨hs.vmap, Nat.le_refl _, hs.high, hs.segment⟩ hb
  obtain ⟨hm', -⟩ := linkPage_moves (P := P) (userAddr_of_heap (Nat.le_refl _) (by decide)) hS'
  exact ⟨hm.trans hm', hs₁.vmap, hs₁.low, hs₁.high, hs₁.segment⟩

theorem userAddr_page (h : UserAddr v) : UserAddr (PAGE (IDX v)) := by
  unfold UserAddr USER_EXEC_ADDR KERNEL_MEMORY_SIZE SELF_MAP at *
  unfold PAGE IDX PAGE_SIZE
  omega

/-- **A page fault in the user's memory**: the page is copied, made writable or linked. -/
theorem pageFault_moves (hP : Admits P) {present write : Bool} (hs : Sane q)
    (h : pageFault m q v present write = .ok (some (m', q'))) :
    Moves P ⟨m, q.pde⟩ ⟨m', q'.pde⟩ ∧ Sane q' := by
  unfold pageFault at h
  split at h
  · cases h
  · next hv =>
      simp only [Bool.or_eq_true, decide_eq_true_eq, not_or, not_lt, not_le] at hv
      have hu : UserAddr v := ⟨hv.1, by unfold SELF_MAP; unfold USER_STACK_TOP at hv; omega⟩
      split at h
      · obtain ⟨-, h⟩ := of_assert h
        obtain ⟨S, hS, h⟩ := ok_of_bind h
        obtain ⟨he, h⟩ := of_assert h
        obtain ⟨-, h⟩ := of_assert h
        obtain ⟨-, h⟩ := of_assert h
        obtain ⟨hn, h⟩ := of_assert h
        obtain ⟨rfl, hd⟩ := getPte_false hS
        rw [decide_eq_true_eq] at hn
        split at h
        · next h1 =>
            cases h
            refine ⟨.single ?_, hs⟩
            exact .edit v { Space.entry ⟨m, q.pde⟩ v with write := true } hu hd rfl
              fun _ => hP.sole _ _ h1
        · next h1 =>
            obtain ⟨⟨m₁, g⟩, hc, h⟩ := ok_of_bind h
            obtain ⟨hg, free, rfl⟩ := copyPage_ok hc
            cases h
            refine ⟨.single ?_, hs⟩
            have hne : (Space.entry ⟨m, q.pde⟩ v).index ≠ g := by
              intro e
              rw [e] at hn
              omega
            have hcount : ∀ r, ((m.recount g 1 free).fill g r).memoryMap
                (Space.entry ⟨m, q.pde⟩ v).index = m.memoryMap (Space.entry ⟨m, q.pde⟩ v).index :=
              fun r => Function.update_of_ne hne _ _
            rw [hcount]
            exact .copy (S := ⟨m, q.pde⟩) v g free hu hd he (by omega) hg
      · split at h
        · obtain ⟨S', hS', h⟩ := ok_of_bind h
          cases h
          exact ⟨(linkPage_moves (userAddr_page hu) hS').1, hs.vmap, hs.low, hs.high, hs.segment⟩
        · cases h

theorem load_moves (hP : Admits P) (hs : Sane q) (h : load m q v = .ok (some (m', q'))) :
    Moves P ⟨m, q.pde⟩ ⟨m', q'.pde⟩ ∧ Sane q' := by
  unfold load at h
  split at h
  · cases h
    exact ⟨.refl, hs⟩
  · exact pageFault_moves hP hs h

/-- A store to a page: the entry for the address names the frame. -/
structure Stores (m : Mem) (q : Proc) (v : Nat) (w : Word) (m' : Mem) (q' : Proc) : Prop where
  addr : UserAddr v
  mapped : Space.mapped ⟨m, q.pde⟩ v = true
  mem : m' = Space.put ⟨m, q.pde⟩ v w
  proc : q' = q

/-- **A store in user mode**: to a page that may be written, or it faults. -/
theorem userStore_cases (hP : Admits P) {w : Word} (hs : Sane q) (hv : v < SELF_MAP)
    (h : userStore m q v w = .ok (some (m', q'))) :
    (Moves P ⟨m, q.pde⟩ ⟨m', q'.pde⟩ ∧ Sane q') ∨
      (Stores m q v w m' q' ∧ (Space.entry ⟨m, q.pde⟩ v).write = true) := by
  unfold userStore at h
  rw [if_neg (not_le.mpr hv)] at h
  split at h
  · exact .inl (pageFault_moves hP hs h)
  · next hu =>
      split at h
      · next hmap =>
          split at h
          · next hw =>
              cases h
              simp only [Space.mayWrite, Bool.and_eq_true] at hw
              exact .inr ⟨⟨⟨not_lt.mp hu, hv⟩, hmap, rfl, rfl⟩, hw.1.2⟩
          · exact .inl (pageFault_moves hP hs h)
      · exact .inl (pageFault_moves hP hs h)

/-- A store in kernel mode to the user's memory. -/
theorem kernelStore_user {w : Word} (hv : UserAddr v) : kernelStore m q v w =
    if Space.mapped ⟨m, q.pde⟩ v then .ok (some (Space.put ⟨m, q.pde⟩ v w, q)) else pageFault m q v false true := by
  unfold kernelStore
  rw [if_neg (not_lt.mpr hv.1), if_neg (not_le.mpr hv.2)]

/-- **A store in kernel mode**: to any page, or it faults. -/
theorem kernelStore_cases (hP : Admits P) {w : Word} (hs : Sane q) (hv : UserAddr v)
    (h : kernelStore m q v w = .ok (some (m', q'))) :
    (Moves P ⟨m, q.pde⟩ ⟨m', q'.pde⟩ ∧ Sane q') ∨ Stores m q v w m' q' := by
  rw [kernelStore_user hv] at h
  split at h
  · next hmap =>
      cases h
      exact .inr ⟨hv, hmap, rfl, rfl⟩
  · exact .inl (pageFault_moves hP hs h)

end Calls

end Yuios.Paging
