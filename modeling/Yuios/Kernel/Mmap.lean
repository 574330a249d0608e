/-
  File:      Yuios/Kernel/Mmap.lean
  Subject:   `sys_mmap` AND `sys_munmap`: where pages are mapped, and what is left when they are unmapped.

  * `Contained` -- what is asked of a call that returns: the pages are between `USER_MMAP_ADDR` and the
    stack, there are enough of them, their bits are in the bitmap, and those that the kernel chose are
    new. A call that sets a bit past the bitmap is not contained (`MapsWithin`).
  * `Inside` -- the condition on the arguments and the bitmap.
  * **`sysMmap_within_iff`** -- the calls that are contained are those inside.
  * **`mmap_munmap`** -- what the kernel has mapped for a process can be unmapped, and then the bitmap,
    the pages and the counts are what they were, but for page tables.
  * `mmap_stack` -- a page of the stack is mapped.
-/
import Yuios.Kernel.FreePages
import Yuios.Kernel.Mapping

namespace Yuios.Paging

open Lib Relation
open Kernel (of_assert)

/-! ## 1. What is asked of `sys_mmap` -/

/-- **The pages of a call**, from `vaddr` on. -/
structure Contained (m : Mem) (q : Proc) (addr length vaddr : Nat) : Prop where
  pages : ∀ i < divRoundUp length PAGE_SIZE,
    USER_MMAP_ADDR ≤ vaddr + i * PAGE_SIZE ∧ vaddr + i * PAGE_SIZE < USER_STACK_BOTTOM
  covers : length ≤ divRoundUp length PAGE_SIZE * PAGE_SIZE
  bits : ∀ i < divRoundUp length PAGE_SIZE,
    IDX (vaddr + i * PAGE_SIZE) - USER_MMAP_ADDR / PAGE_SIZE < q.vmap.length * 8
  fresh : addr = 0 → ∀ i < divRoundUp length PAGE_SIZE,
    Space.mapped ⟨m, q.pde⟩ (vaddr + i * PAGE_SIZE) = false

/-- No assertion and no panic has stopped the call. -/
def Accepted (r : Except Stop (Mem × Proc × Nat)) : Prop := ∀ e, r = .error e → e = .outOfBuffer

/-- The call is contained; a bit past the bitmap is a store to whatever page comes next. -/
structure MapsWithin (m : Mem) (q : Proc) (addr length : Nat) (r : Except Stop (Mem × Proc × Nat)) : Prop where
  returned : ∀ m' q' vaddr, r = .ok (m', q', vaddr) → Contained m q addr length vaddr
  buffer : r ≠ .error .outOfBuffer

/-- The pages between `USER_MMAP_ADDR` and the stack. -/
def mmapRoom : Nat := (USER_STACK_BOTTOM - USER_MMAP_ADDR) / PAGE_SIZE

/-- **The condition**: the size can be rounded up, and the pages, the given ones or some that are free,
    end where the stack begins. -/
def Inside (q : Proc) (addr length : Nat) : Prop :=
  length + PAGE_SIZE - 1 < 2 ^ 32 ∧
    if addr = 0 then ∃ i, i + divRoundUp length PAGE_SIZE ≤ mmapRoom ∧ ClearRun q.vmap i (divRoundUp length PAGE_SIZE)
    else addr + divRoundUp length PAGE_SIZE * PAGE_SIZE ≤ USER_STACK_BOTTOM

section Within

variable {A : Finset Nat} {S S' : Space} {m m' : Mem} {q q' : Proc} {b : Bitmap} {fl : MapFlags}
  {addr length n v : Nat} {e : Stop}

/-- The rounding does not wrap around exactly if there are pages for all bytes. -/
theorem covers_iff (length : Nat) :
    length ≤ divRoundUp length PAGE_SIZE * PAGE_SIZE ↔ length + PAGE_SIZE - 1 < 2 ^ 32 := by
  unfold divRoundUp PAGE_SIZE
  omega

theorem error_of_bind {β γ : Type} {x : Except Stop β} {f : β → Except Stop γ}
    (h : (x >>= f) = .error e) : x = .error e ∨ ∃ a, x = .ok a ∧ f a = .error e := by
  cases x with
  | error e' =>
    cases h
    exact .inl rfl
  | ok a => exact .inr ⟨a, rfl, h⟩

theorem error_of_assert {c : Bool} {γ : Type} {x : Except Stop γ}
    (h : (Kernel.assert c >>= fun _ => x) = .error .outOfBuffer) : c = true ∧ x = .error .outOfBuffer := by
  cases c with
  | true => exact ⟨rfl, h⟩
  | false => cases h

theorem getPage_inside : getPage m ≠ .error .outOfBuffer := by
  intro h
  unfold getPage at h
  split at h
  · cases h
  · obtain ⟨-, h⟩ := error_of_assert h
    cases h

theorem getPte_inside {create : Bool} : getPte S v create ≠ .error .outOfBuffer := by
  intro h
  unfold getPte at h
  obtain ⟨-, h⟩ := error_of_assert h
  split at h
  · cases h
  · rcases error_of_bind h with h | ⟨a, -, h⟩
    · exact getPage_inside h
    · cases h

theorem linkPage_inside : linkPage S v ≠ .error .outOfBuffer := by
  intro h
  unfold linkPage at h
  obtain ⟨-, h⟩ := error_of_assert h
  rcases error_of_bind h with h | ⟨S₁, -, h⟩
  · exact getPte_inside h
  · split at h
    · cases h
    · rcases error_of_bind h with h | ⟨a, -, h⟩
      · exact getPage_inside h
      · cases h

/-- The loop of `sys_mmap` leaves the bitmap only past the end of the stack. -/
theorem mmapPages_outside (hb : UserMap b) (hv : USER_MMAP_ADDR ≤ v)
    (h : mmapPages fl n v S b = .error .outOfBuffer) : USER_STACK_TOP < v + n * PAGE_SIZE := by
  induction n generalizing v S b with
  | zero => cases h
  | succ n ih =>
    rcases error_of_bind h with h | ⟨S₁, -, h⟩
    · exact absurd h linkPage_inside
    · rcases error_of_bind h with h | ⟨b₁, hset, h⟩
      · unfold bitmapSet at h
        rw [hb.offset, hb.room] at h
        split at h
        · cases h
        · split at h
          · next hge =>
              unfold IDX USER_MMAP_ADDR PAGE_SIZE at hge
              unfold USER_STACK_TOP PAGE_SIZE
              omega
          · cases h
      · rcases error_of_bind h with h | ⟨S₂, -, h⟩
        · exact absurd h getPte_inside
        · have hlast := ih (bitmapSet_page hb hset).1 (by omega) h
          rwa [page_add] at hlast

theorem mmapAddr_inside (hs : UserMap q.vmap) (hl : q.vmap.length = PAGE_SIZE) :
    mmapAddr q addr n ≠ .error .outOfBuffer := by
  intro h
  unfold mmapAddr at h
  split at h
  · unfold scanPage at h
    obtain ⟨hn, h⟩ := error_of_assert h
    rw [decide_eq_true_eq] at hn
    rcases bitmapScan_spec (hl.trans hs.room.symm).le hn with ⟨hscan, -⟩ | ⟨i, map', hscan, -⟩
    · rw [hscan] at h
      cases h
    · rw [hscan] at h
      cases h
  · cases h

/-- A run of the bitmap that ends below the stack. -/
theorem page_inside {i j : Nat} (h : i + n ≤ mmapRoom) (hj : j < n) :
    USER_MMAP_ADDR ≤ PAGE (i + USER_MMAP_ADDR / PAGE_SIZE) + j * PAGE_SIZE ∧
      PAGE (i + USER_MMAP_ADDR / PAGE_SIZE) + j * PAGE_SIZE < USER_STACK_BOTTOM := by
  unfold mmapRoom at h
  unfold PAGE
  unfold USER_STACK_BOTTOM USER_STACK_TOP USER_STACK_SIZE USER_MMAP_ADDR PAGE_SIZE at *
  omega

/-- The kernel chooses pages below the stack exactly if there are some. -/
theorem found_inside {i : Nat} (hf : Found q.vmap n (some i)) (hn : 0 < n) :
    (∀ j < n, PAGE (i + USER_MMAP_ADDR / PAGE_SIZE) + j * PAGE_SIZE < USER_STACK_BOTTOM) ↔
      ∃ k, k + n ≤ mmapRoom ∧ ClearRun q.vmap k n := by
  constructor
  · intro h
    refine ⟨i, ?_, hf.2.1⟩
    have hlast := h (n - 1) (by omega)
    unfold PAGE at hlast
    unfold mmapRoom
    unfold USER_STACK_BOTTOM USER_STACK_TOP USER_STACK_SIZE USER_MMAP_ADDR PAGE_SIZE at *
    omega
  · intro ⟨k, hk, hclear⟩ j hj
    have hle : i ≤ k := by
      by_contra hlt
      exact hf.2.2 k (by omega) hclear
    exact (page_inside (by omega) hj).2

/-- A page with a clear bit is not there. -/
theorem Booked.absent (hb : Booked m q) (h1 : USER_MMAP_ADDR ≤ v) (h2 : v < USER_STACK_BOTTOM)
    (hclear : getBit q.vmap.bits (IDX v - USER_MMAP_ADDR / PAGE_SIZE) = false) :
    Space.mapped ⟨m, q.pde⟩ v = false := by
  rw [Bool.eq_false_iff]
  intro hm
  rw [hb.bits v h1 h2 hm] at hclear
  cases hclear

/-- The pages of a run that is clear are new. -/
theorem found_fresh {i : Nat} (hb : Booked m q) (hf : Found q.vmap n (some i))
    (hlow : ∀ j < n, PAGE (i + USER_MMAP_ADDR / PAGE_SIZE) + j * PAGE_SIZE < USER_STACK_BOTTOM) :
    ∀ j < n, Space.mapped ⟨m, q.pde⟩ (PAGE (i + USER_MMAP_ADDR / PAGE_SIZE) + j * PAGE_SIZE) = false := by
  intro j hj
  refine hb.absent ?_ (hlow j hj) ?_
  · unfold PAGE USER_MMAP_ADDR PAGE_SIZE
    omega
  · rw [idx_pages, idx_page, show i + USER_MMAP_ADDR / PAGE_SIZE + j - USER_MMAP_ADDR / PAGE_SIZE = i + j by omega]
    exact hf.2.1 _ (by omega) (by omega)

/-- **A call that returns** is contained exactly if it is inside. -/
theorem contained_iff {vaddr : Nat} (hs : Sane q) (hb : Booked m q) (hf : Fits A ⟨m, q.pde⟩)
    (h : sysMmap m q addr length fl = .ok (m', q', vaddr)) :
    Contained m q addr length vaddr ↔ Inside q addr length := by
  have hm := sysMmap_mapped hs hb.length hf h
  have halign := (of_assert h).1
  rw [decide_eq_true_eq] at halign
  have hlow := hm.low
  have hhigh := hm.high
  have hbit : ∀ i < divRoundUp length PAGE_SIZE, vaddr + i * PAGE_SIZE < USER_STACK_BOTTOM →
      IDX (vaddr + i * PAGE_SIZE) - USER_MMAP_ADDR / PAGE_SIZE < q.vmap.length * 8 := by
    intro i _ hi
    rw [hb.length]
    unfold USER_STACK_BOTTOM USER_STACK_TOP USER_STACK_SIZE PAGE_SIZE at hi
    unfold IDX USER_MMAP_ADDR PAGE_SIZE
    omega
  unfold Inside
  by_cases h0 : addr = 0
  · obtain ⟨hn, i, hi, hfound⟩ := hm.found h0
    rw [if_pos h0, ← found_inside hfound hn, ← hi]
    constructor
    · intro hc
      exact ⟨(covers_iff length).mp hc.covers, fun j hj => (hc.pages j hj).2⟩
    · intro ⟨hcov, hall⟩
      refine ⟨fun j hj => ⟨by omega, hall j hj⟩, (covers_iff length).mpr hcov, fun j hj => hbit j hj (hall j hj),
        fun _ => ?_⟩
      rw [hi] at hall ⊢
      exact found_fresh hb hfound hall
  · rw [if_neg h0, ← hm.given h0]
    rw [← hm.given h0] at halign
    have hend : (∀ i < divRoundUp length PAGE_SIZE, vaddr + i * PAGE_SIZE < USER_STACK_BOTTOM) ↔
        vaddr + divRoundUp length PAGE_SIZE * PAGE_SIZE ≤ USER_STACK_BOTTOM := by
      generalize divRoundUp length PAGE_SIZE = n
      constructor
      · intro h
        cases n with
        | zero => omega
        | succ n =>
          have hlast := h n (Nat.lt_succ_self n)
          unfold USER_STACK_BOTTOM USER_STACK_TOP USER_STACK_SIZE PAGE_SIZE at *
          omega
      · intro h i hi
        unfold PAGE_SIZE at *
        omega
    rw [← hend]
    constructor
    · intro hc
      exact ⟨(covers_iff length).mp hc.covers, fun j hj => (hc.pages j hj).2⟩
    · intro ⟨hcov, hall⟩
      exact ⟨fun j hj => ⟨by omega, hall j hj⟩, (covers_iff length).mpr hcov, fun j hj => hbit j hj (hall j hj),
        fun e => absurd e (hm.given h0 ▸ h0)⟩

/-- **A call that is inside** stays in the bitmap. -/
theorem inside_buffer (hs : Sane q) (hl : q.vmap.length = PAGE_SIZE) (hin : Inside q addr length) :
    sysMmap m q addr length fl ≠ .error .outOfBuffer := by
  intro h
  unfold sysMmap at h
  obtain ⟨-, h⟩ := error_of_assert h
  rcases error_of_bind h with h | ⟨⟨vaddr, b⟩, haddr, h⟩
  · exact mmapAddr_inside hs.vmap hl h
  · obtain ⟨hr, h⟩ := error_of_assert h
    simp only [Bool.and_eq_true, decide_eq_true_eq] at hr
    obtain ⟨hmap, -, -, hgiven, hfound⟩ := mmapAddr_spec hs.vmap hl haddr
    rcases error_of_bind h with h | ⟨_, -, h⟩
    · have hout := mmapPages_outside hmap hr.1 h
      have hend : vaddr + divRoundUp length PAGE_SIZE * PAGE_SIZE ≤ USER_STACK_BOTTOM := by
        have hcond := hin.2
        split at hcond
        · next h0 =>
            obtain ⟨hn, i, hi, hf⟩ := hfound h0
            have hlast := (found_inside hf hn).mpr hcond (divRoundUp length PAGE_SIZE - 1) (by omega)
            rw [hi]
            generalize divRoundUp length PAGE_SIZE = n at hlast hn ⊢
            unfold PAGE at *
            unfold USER_STACK_BOTTOM USER_STACK_TOP USER_STACK_SIZE USER_MMAP_ADDR PAGE_SIZE at *
            omega
        · next h0 =>
            rw [hgiven h0]
            exact hcond
      unfold USER_STACK_BOTTOM at hend
      omega
    · cases h

/-- **`sys_mmap` maps between `USER_MMAP_ADDR` and the stack exactly if it is asked to**: the size can be
    rounded up, and the pages, given or chosen, end where the stack begins. -/
theorem sysMmap_within_iff {pages p : Nat} {s : State} (h : Kept pages s) (hp : s.procs p = some q)
    (hacc : Accepted (sysMmap s.mem q addr length fl)) :
    MapsWithin s.mem q addr length (sysMmap s.mem q addr length fl) ↔ Inside q addr length := by
  have hheld := kept_held h
  have hb := kept_booked h p q hp
  have hsane := hheld.sane p q hp
  constructor
  · intro hw
    cases hr : sysMmap s.mem q addr length fl with
    | ok r => exact (contained_iff hsane hb (hheld.fits hp) hr).mp (hw.returned _ _ _ hr)
    | error e =>
      rw [hacc e hr] at hr
      exact absurd hr hw.buffer
  · intro hin
    exact ⟨fun m' q' vaddr hr => (contained_iff hsane hb (hheld.fits hp) hr).mpr hin,
      inside_buffer hsane hb.length hin⟩

end Within

/-- The first process of a machine with 4400 frames. -/
def firstState : State := born (bootState 4400) (bootState 4400).mem 1 taskToUserMode

theorem kept_first : Kept 4400 firstState :=
  .step (.boot (boot_bootState (by decide) (by decide))) (.start 1) rfl rfl rfl

/-- A page at `USER_MMAP_ADDR`. -/
theorem sysMmap_within_page : MapsWithin firstState.mem taskToUserMode USER_MMAP_ADDR 4096
    (sysMmap firstState.mem taskToUserMode USER_MMAP_ADDR 4096 ⟨true, false, true⟩) := by
  have hok : (sysMmap firstState.mem taskToUserMode USER_MMAP_ADDR 4096 ⟨true, false, true⟩).isOk = true := by
    decide +kernel
  have hacc : Accepted (sysMmap firstState.mem taskToUserMode USER_MMAP_ADDR 4096 ⟨true, false, true⟩) := by
    intro e he
    rw [he] at hok
    cases hok
  have hp : firstState.procs 1 = some taskToUserMode := rfl
  have hin : Inside taskToUserMode USER_MMAP_ADDR 4096 := by
    refine ⟨by decide, ?_⟩
    rw [if_neg (by decide)]
    decide
  exact (sysMmap_within_iff kept_first hp hacc).mpr hin

/-- **A page of the stack**: two pages are mapped from the last one below it on. -/
theorem mmap_stack : ∃ m' q', sysMmap firstState.mem taskToUserMode (USER_STACK_BOTTOM - PAGE_SIZE) (2 * PAGE_SIZE)
      ⟨true, false, true⟩ = .ok (m', q', USER_STACK_BOTTOM - PAGE_SIZE) ∧
    Space.mapped ⟨m', q'.pde⟩ USER_STACK_BOTTOM = true ∧
    ¬MapsWithin firstState.mem taskToUserMode (USER_STACK_BOTTOM - PAGE_SIZE) (2 * PAGE_SIZE)
      (.ok (m', q', USER_STACK_BOTTOM - PAGE_SIZE)) := by
  have hok : (sysMmap firstState.mem taskToUserMode (USER_STACK_BOTTOM - PAGE_SIZE) (2 * PAGE_SIZE)
      ⟨true, false, true⟩).isOk = true := by decide +kernel
  have hheld := kept_held kept_first
  have hp : firstState.procs 1 = some taskToUserMode := rfl
  cases h : sysMmap firstState.mem taskToUserMode (USER_STACK_BOTTOM - PAGE_SIZE) (2 * PAGE_SIZE)
      ⟨true, false, true⟩ with
  | error e =>
    rw [h] at hok
    cases hok
  | ok r =>
    obtain ⟨m', q', vaddr⟩ := r
    have hm := sysMmap_mapped (hheld.sane 1 _ hp) rfl (hheld.fits hp) h
    have haddr := hm.given (by decide)
    have hnext : USER_STACK_BOTTOM - PAGE_SIZE + 1 * PAGE_SIZE = USER_STACK_BOTTOM := by decide
    have hone : 1 < divRoundUp (2 * PAGE_SIZE) PAGE_SIZE := by decide
    have hpage := hm.pages 1 hone
    rw [haddr] at hpage ⊢
    rw [hnext] at hpage
    refine ⟨m', q', rfl, hpage, fun hc => ?_⟩
    have hlast := ((hc.returned _ _ _ rfl).pages 1 hone).2
    rw [hnext] at hlast
    exact Nat.lt_irrefl _ hlast

/-! ## 2. `sys_munmap` after `sys_mmap` -/

/-- **Nothing is left** but page tables: in slots that were empty, of pages that are not there. -/
structure Restored (m : Mem) (q : Proc) (m' : Mem) (q' : Proc) : Prop where
  vmap : q'.vmap = q.vmap
  pages : ∀ v, UserAddr v → Space.frameAt ⟨m', q'.pde⟩ v = Space.frameAt ⟨m, q.pde⟩ v
  slots : ∀ d, (q.pde d).present = true → q'.pde d = q.pde d
  counts : ∀ f, (∀ d, UserSlot d → (q.pde d).present = false → (q'.pde d).present = true → (q'.pde d).index ≠ f) →
    m'.memoryMap f = m.memoryMap f

section RoundTrip

variable {A : Finset Nat} {S S' S₁ : Space} {m m' : Mem} {q q' : Proc} {b b' : Bitmap} {fl : MapFlags}
  {d n v g : Nat}

/-! ### The frames that are taken -/

/-- The frames there are. -/
def InMemory (m : Mem) (g : Nat) : Prop := m.startPage ≤ g ∧ g < m.totalPages

/-- The machine is the same. -/
def SameSize (m m' : Mem) : Prop := m'.startPage = m.startPage ∧ m'.totalPages = m.totalPages

theorem SameSize.trans {m₁ : Mem} (h : SameSize m m₁) (h' : SameSize m₁ m') : SameSize m m' :=
  ⟨h'.1.trans h.1, h'.2.trans h.2⟩

theorem SameSize.inMemory (h : SameSize m m') (hg : InMemory m g) : InMemory m' g := by
  unfold InMemory
  rw [h.1, h.2]
  exact hg

theorem getPte_size {create : Bool} (h : getPte S v create = .ok S') : SameSize S.mem S'.mem := by
  rcases (getPte_cases h).1 with rfl | ⟨g, free, -, -, rfl⟩
  · exact ⟨rfl, rfl⟩
  · exact ⟨rfl, rfl⟩

/-- A page that was not there gets a frame of the machine. -/
theorem linkPage_frame_in (h : linkPage S v = .ok S') (hno : S.mapped v = false) :
    SameSize S.mem S'.mem ∧ ∃ g, S'.frameAt v = some g ∧ InMemory S.mem g := by
  unfold linkPage at h
  obtain ⟨-, h⟩ := of_assert h
  obtain ⟨S₁, h1, h⟩ := ok_of_bind h
  have hsize := getPte_size h1
  obtain ⟨hS₁, hd⟩ := getPte_cases h1
  split at h
  · next he =>
      cases h
      rcases hS₁ with rfl | ⟨g, free, -, -, rfl⟩
      · rw [Space.mapped, hd, he] at hno
        cases hno
      · simp [Space.newTable, Space.entry, fill_self, entryInit, Word.zero] at he
  · obtain ⟨⟨m₁, g⟩, hget, h⟩ := ok_of_bind h
    obtain ⟨-, hlow, hhigh, free, rfl⟩ := getPage_ok hget
    cases h
    refine ⟨hsize, g, frameAt_setEntry (S := { S₁ with mem := S₁.mem.recount g 1 free }) hd (entryInit g), ?_⟩
    unfold InMemory
    rw [← hsize.1, ← hsize.2]
    exact ⟨hlow, hhigh⟩

theorem unlinkPage_size (h : unlinkPage S v = .ok S') : SameSize S.mem S'.mem := by
  unfold unlinkPage at h
  obtain ⟨-, h⟩ := of_assert h
  split at h
  · cases h
    exact ⟨rfl, rfl⟩
  · obtain ⟨m₁, h1, h⟩ := ok_of_bind h
    obtain ⟨-, -, free, rfl⟩ := putPage_ok h1
    cases h
    exact ⟨rfl, rfl⟩

/-- The pages that `sys_mmap` makes have frames of the machine. -/
theorem mmapPages_frames (hf : Fits A S) (hb : UserMap b) (hv : USER_MMAP_ADDR ≤ v)
    (hhigh : v + n * PAGE_SIZE ≤ USER_STACK_TOP) (hno : ∀ i < n, S.mapped (v + i * PAGE_SIZE) = false) (h : mmapPages fl n v S b = .ok (S', b')) :
    SameSize S.mem S'.mem ∧ ∀ i < n, ∃ g, S'.frameAt (v + i * PAGE_SIZE) = some g ∧ InMemory S.mem g := by
  induction n generalizing v S b with
  | zero =>
    cases h
    exact ⟨⟨rfl, rfl⟩, nofun⟩
  | succ n ih =>
    obtain ⟨S₁, h1, h⟩ := ok_of_bind h
    obtain ⟨b₁, hset, h⟩ := ok_of_bind h
    have hb₁ := (bitmapSet_page hb hset).1
    have hu := userAddr_of_mmap hv (bitmapSet_page hb hset).2
    obtain ⟨hk₁, hmap₁⟩ := linkPage_keeps hf hu h1
    obtain ⟨hsize, g, hg, hin⟩ := linkPage_frame_in h1 (by simpa using hno 0 (Nat.succ_pos n))
    rw [Space.mapped, Bool.and_eq_true] at hmap₁
    rw [getPte_same hmap₁.1] at h
    have hf₁ : Fits A S₁ := Moves.fits (linkPage_moves (P := fun _ _ => True) hu h1).1 hf
    have hf₂ : Fits A (S₁.setEntry v (mapEntry fl (S₁.entry v))) :=
      (Move.edit (P := fun _ _ => True) v (mapEntry fl (S₁.entry v)) hu hmap₁.1 rfl fun _ => trivial).fits hf₁
    have hk₂ := keeps_setEntry hf₁.rooted hu hmap₁.1 (mapEntry fl (S₁.entry v))
    have hsame : (S₁.setEntry v (mapEntry fl (S₁.entry v))).frameAt v = S₁.frameAt v := by
      rw [frameAt_setEntry hmap₁.1, Space.frameAt, if_pos hmap₁.1]
      rfl
    have hk₃ := (mmapPages_keeps hf₂ hb₁ (by omega) h).1
    have hno₂ : ∀ i < n, (S₁.setEntry v (mapEntry fl (S₁.entry v))).mapped (v + PAGE_SIZE + i * PAGE_SIZE) = false := by
      intro i hi
      have hbefore := hno (i + 1) (by omega)
      rw [← page_add] at hbefore
      have hu' : UserAddr (v + PAGE_SIZE + i * PAGE_SIZE) := by
        refine userAddr_of_mmap (by omega) ?_
        unfold PAGE_SIZE at hhigh ⊢
        omega
      have hne : IDX (v + PAGE_SIZE + i * PAGE_SIZE) ≠ IDX v := by
        rw [page_add]
        exact idx_add v i
      rw [mapped_frameAt, hk₂.pages _ hu' hne, hk₁.pages _ hu' hne, ← mapped_frameAt]
      exact hbefore
    obtain ⟨hsize', hall⟩ := ih hf₂ hb₁ (by omega) (by rw [← page_add] at hhigh; omega) hno₂ h
    refine ⟨hsize.trans hsize', fun i hi => ?_⟩
    cases i with
    | zero =>
      refine ⟨g, ?_, hin⟩
      rw [Nat.zero_mul, Nat.add_zero, hk₃.pages v hu (not_within_next v n), hsame, hg]
    | succ i =>
      obtain ⟨g', hg', hin'⟩ := hall i (by omega)
      rw [page_add] at hg'
      refine ⟨g', hg', ?_⟩
      have hin' : InMemory S₁.mem g' := hin'
      unfold InMemory at hin' ⊢
      rwa [hsize.1, hsize.2] at hin'

/-! ### Giving the frames back -/

/-- `free_pages` is larger than the number of free frames, by less than the kernel's frames. -/
structure Counting (m : Mem) (d : Nat) : Prop where
  surplus : Surplus d m
  pos : 0 < d
  less : d < KERNEL_MEMORY_SIZE / PAGE_SIZE

/-- The frames that are free, and the one that will be, are above the kernel's. -/
theorem freeFrames_last_le {K : Finset Nat} {x : Nat → Nat} (hc : Counted m K x)
    (hg : kernelFrames g = 0) (ht : g < m.totalPages) (hno : m.memoryMap g ≠ 0) :
    (freeFrames m).card + 1 ≤ m.totalPages - KERNEL_MEMORY_SIZE / PAGE_SIZE := by
  have hhigh : ∀ f, kernelFrames f = 0 → KERNEL_MEMORY_SIZE / PAGE_SIZE ≤ f := by
    intro f hf
    by_contra hlt
    rw [kernelFrames, if_pos (not_le.mp hlt)] at hf
    cases hf
  have hsub : insert g (freeFrames m) ⊆ Finset.Ico (KERNEL_MEMORY_SIZE / PAGE_SIZE) m.totalPages := by
    intro f hf
    rw [Finset.mem_Ico]
    rcases Finset.mem_insert.mp hf with rfl | hf
    · exact ⟨hhigh f hg, ht⟩
    · obtain ⟨hin, h0⟩ := Finset.mem_filter.mp hf
      have htotal := hc.total f
      exact ⟨hhigh f (by omega), (Finset.mem_Ico.mp hin).2⟩
  have hnot : g ∉ freeFrames m := fun hf => hno (Finset.mem_filter.mp hf).2
  rw [← Finset.card_insert_of_notMem hnot, ← Nat.card_Ico]
  exact Finset.card_le_card hsub

/-- The free frames are above the kernel's. -/
theorem freeFrames_high {K : Finset Nat} {x : Nat → Nat} (hc : Counted m K x) :
    (freeFrames m).card ≤ m.totalPages - KERNEL_MEMORY_SIZE / PAGE_SIZE := by
  rw [← Nat.card_Ico]
  refine Finset.card_le_card fun f hf => ?_
  obtain ⟨hin, h0⟩ := Finset.mem_filter.mp hf
  have htotal := hc.total f
  refine Finset.mem_Ico.mpr ⟨?_, (Finset.mem_Ico.mp hin).2⟩
  by_contra hlt
  have hone : kernelFrames f = 1 := if_pos (not_le.mp hlt)
  omega

theorem putPage_returns {i : Nat} (hin : InMemory m i) (hpos : 1 ≤ m.memoryMap i)
    (hfree : 0 < (if m.memoryMap i - 1 = 0 then m.freePages + 1 else m.freePages) ∧
      (if m.memoryMap i - 1 = 0 then m.freePages + 1 else m.freePages) < m.totalPages) :
    ∃ m', putPage m i = .ok m' := by
  unfold putPage
  simp only [hin.1, hin.2, hpos, hfree.1, hfree.2, decide_true, Bool.and_self, Kernel.assert_true]
  exact ⟨_, rfl⟩

/-- **A page is unlinked**: no assertion of `put_page` fails. -/
theorem unlinkPage_ok (hf : Fits A S) (hc : Counting S.mem d) (hv : UserAddr v) (hal : v % PAGE_SIZE = 0)
    (hg : S.frameAt v = some g) (hin : InMemory S.mem g) : ∃ S', unlinkPage S v = .ok S' := by
  obtain ⟨hmap, rfl⟩ := frameAt_some.mp hg
  rw [Space.mapped, Bool.and_eq_true] at hmap
  have hpos := (hf.counted.entry (table_mem hv hmap.1) (tidx_lt v) (target_present hmap.2)).1
  have hnamed : 1 ≤ names target 1024 S.mem.frame (A ∪ tables S.pde FIRST_SLOT LAST_SLOT) (S.entry v).index := by
    have huse : 0 < uses target 1024 (S.mem.frame (S.pde (DIDX v)).index) (S.entry v).index :=
      uses_pos (tidx_lt v) (target_present hmap.2)
    have hle : uses target 1024 (S.mem.frame (S.pde (DIDX v)).index) (S.entry v).index ≤
        ∑ T ∈ A ∪ tables S.pde FIRST_SLOT LAST_SLOT, uses target 1024 (S.mem.frame T) (S.entry v).index :=
      uses_le_names target (table_mem hv hmap.1) _
    unfold names
    omega
  have htotal := hf.counted.total (S.entry v).index
  have hfree := hc.surplus.free
  have hd := hc.pos
  have hless := hc.less
  have henough := hc.surplus.enough
  have hhigh := freeFrames_high hf.counted
  have hput : ∃ m', putPage (S.setEntry v { S.entry v with present := false }).mem (S.entry v).index = .ok m' := by
    refine putPage_returns hin hpos ?_
    show 0 < (if S.mem.memoryMap (S.entry v).index - 1 = 0 then S.mem.freePages + 1 else S.mem.freePages) ∧
      (if S.mem.memoryMap (S.entry v).index - 1 = 0 then S.mem.freePages + 1 else S.mem.freePages) < S.mem.totalPages
    split
    · next hlast =>
        have hkernel : kernelFrames (S.entry v).index = 0 := by omega
        have hle := freeFrames_last_le hf.counted hkernel hin.2 (Nat.ne_of_gt hpos)
        omega
    · omega
  obtain ⟨m', hm'⟩ := hput
  refine ⟨{ S.setEntry v { S.entry v with present := false } with mem := m' }, ?_⟩
  unfold unlinkPage
  simp only [hal, hmap.1, hmap.2, decide_true, Kernel.assert_true, Bool.not_true, Bool.or_self]
  show (putPage (S.setEntry v { S.entry v with present := false }).mem (S.entry v).index >>= fun mem => _) = _
  rw [hm']
  rfl

theorem Counting.unlink (hc : Counting S.mem d) (h : unlinkPage S v = .ok S') : Counting S'.mem d :=
  ⟨unlinkPage_surplus hc.surplus h, hc.pos, hc.less⟩

/-- **The loop of `sys_munmap`** runs to its end over pages that are there, with their bits. -/
theorem munmapPages_ok (hf : Fits A S) (hc : Counting S.mem d) (hb : UserMap b) (hl : b.length = PAGE_SIZE)
    (hv : USER_MMAP_ADDR ≤ v) (hal : v % PAGE_SIZE = 0) (hhigh : v + n * PAGE_SIZE ≤ USER_STACK_TOP)
    (hpages : ∀ i < n, ∃ g, S.frameAt (v + i * PAGE_SIZE) = some g ∧ InMemory S.mem g)
    (hbits : ∀ i < n, getBit b.bits (IDX v - USER_MMAP_ADDR / PAGE_SIZE + i) = true) :
    ∃ S' b', munmapPages n v S b = .ok (S', b') := by
  induction n generalizing v S b with
  | zero => exact ⟨S, b, rfl⟩
  | succ n ih =>
    have hlt : v < USER_STACK_TOP := by
      unfold PAGE_SIZE at hhigh
      omega
    have hu := userAddr_of_mmap hv hlt
    obtain ⟨g, hg, hin⟩ := hpages 0 (Nat.succ_pos n)
    rw [Nat.zero_mul, Nat.add_zero] at hg
    obtain ⟨S₁, h1⟩ := unlinkPage_ok hf hc hu hal hg hin
    have hidx : IDX v = b.offset + (IDX v - USER_MMAP_ADDR / PAGE_SIZE) := by
      rw [hb.offset]
      have := idx_bit hv
      omega
    have hroom : IDX v - USER_MMAP_ADDR / PAGE_SIZE < PAGE_SIZE * 8 := by
      unfold USER_STACK_TOP at hlt
      unfold IDX USER_MMAP_ADDR PAGE_SIZE
      omega
    have htest : bitmapTest b (IDX v) = .ok true := by
      rw [hidx, bitmapTest_at (by rw [hl]; exact hroom) (by rw [hb.room]; exact hroom), ← Nat.add_zero (IDX v - _)]
      exact congrArg Except.ok (hbits 0 (Nat.succ_pos n))
    obtain ⟨b₁, hb₁⟩ : ∃ b₁ : Bitmap,
        b₁ = { b with bits := setBit b.bits (IDX v - USER_MMAP_ADDR / PAGE_SIZE) false } := ⟨_, rfl⟩
    have hset : bitmapSet b (IDX v) false = .ok b₁ := by
      rw [hidx, hb₁]
      exact bitmapSet_at (by rw [hb.room]; exact hroom)
    obtain ⟨hmap₁, hl₁, -⟩ := getBit_page (k := 0) hb hv hset
    have hkeep := (unlinkPage_keeps hf hu h1).1
    have hpages₁ : ∀ i < n, ∃ g, S₁.frameAt (v + PAGE_SIZE + i * PAGE_SIZE) = some g ∧ InMemory S₁.mem g := by
      intro i hi
      obtain ⟨g', hg', hin'⟩ := hpages (i + 1) (by omega)
      rw [← page_add] at hg'
      have hu' : UserAddr (v + PAGE_SIZE + i * PAGE_SIZE) := by
        refine userAddr_of_mmap (by omega) ?_
        unfold PAGE_SIZE at hhigh ⊢
        omega
      have hne : IDX (v + PAGE_SIZE + i * PAGE_SIZE) ≠ IDX v := by
        rw [page_add]
        exact idx_add v i
      exact ⟨g', (hkeep.pages _ hu' hne).trans hg', (unlinkPage_size h1).inMemory hin'⟩
    have hbits₁ : ∀ i < n, getBit b₁.bits (IDX (v + PAGE_SIZE) - USER_MMAP_ADDR / PAGE_SIZE + i) = true := by
      intro i hi
      have hbit := hbits (i + 1) (by omega)
      have hstart := idx_bit hv
      have hnext : IDX (v + PAGE_SIZE) - USER_MMAP_ADDR / PAGE_SIZE + i =
          IDX v - USER_MMAP_ADDR / PAGE_SIZE + (i + 1) := by
        rw [idx_next]
        omega
      rw [hnext, hb₁, getBit_setBit, if_neg (by omega)]
      exact hbit
    have hal₁ : (v + PAGE_SIZE) % PAGE_SIZE = 0 := by
      rw [Nat.add_mod_right]
      exact hal
    obtain ⟨S', b', h⟩ := ih (Moves.fits (unlinkPage_moves (P := fun _ _ => True) hu h1) hf) (hc.unlink h1) hmap₁
      (hl₁.trans hl) (by omega) hal₁ (by rw [← page_add] at hhigh; omega) hpages₁ hbits₁
    refine ⟨S', b', ?_⟩
    rw [munmapPages, h1]
    show (bitmapTest b (IDX v) >>= fun set => _) = _
    rw [htest]
    show (bitmapSet b (IDX v) false >>= fun vmap => _) = _
    rw [hset]
    exact h

/-! ### The counts -/

/-- The address of an entry. -/
def entryAddr (d t : Nat) : Nat := d * 2 ^ 22 + t * 2 ^ 12

theorem entryAddr_spec {t : Nat} (hd : UserSlot d) (ht : t < 1024) :
    UserAddr (entryAddr d t) ∧ DIDX (entryAddr d t) = d ∧ TIDX (entryAddr d t) = t := by
  obtain ⟨h1, h2⟩ := hd
  unfold FIRST_SLOT at h1
  unfold LAST_SLOT at h2
  unfold UserAddr USER_EXEC_ADDR KERNEL_MEMORY_SIZE SELF_MAP DIDX TIDX entryAddr
  omega

/-- An entry of a table is a page. -/
theorem frameAt_entry {t : Nat} (hd : UserSlot d) (ht : t < 1024) (hp : (S.pde d).present = true) :
    S.frameAt (entryAddr d t) = target (S.mem.frame (S.pde d).index t) := by
  obtain ⟨-, h1, h2⟩ := entryAddr_spec hd ht
  rw [Space.frameAt, Space.entry, h1, h2, if_pos hp]

/-- **The counts follow from the pages**: where the slots that were in use and all pages are the same, a
    frame that is not a new table has the count it had. -/
theorem counts_of_pages (hf : Fits A S) (hf' : Fits A S')
    (hA : ∀ T ∈ A, S'.mem.frame T = S.mem.frame T)
    (hslots : ∀ d, (S.pde d).present = true → S'.pde d = S.pde d)
    (hpages : ∀ v, UserAddr v → S'.frameAt v = S.frameAt v) {f : Nat}
    (hnew : ∀ d, UserSlot d → (S.pde d).present = false → (S'.pde d).present = true → (S'.pde d).index ≠ f) :
    S'.mem.memoryMap f = S.mem.memoryMap f := by
  have hsub : A ∪ tables S.pde FIRST_SLOT LAST_SLOT ⊆ A ∪ tables S'.pde FIRST_SLOT LAST_SLOT := by
    refine Finset.union_subset_union_right fun T hT => ?_
    obtain ⟨d, h1, h2, h3, h4⟩ := mem_tables.mp hT
    exact mem_tables.mpr ⟨d, h1, h2, by rwa [hslots d h3], by rwa [hslots d h3]⟩
  -- a table that is new has no entry
  have hempty : ∀ T ∈ A ∪ tables S'.pde FIRST_SLOT LAST_SLOT, T ∉ A ∪ tables S.pde FIRST_SLOT LAST_SLOT →
      T ≠ f ∧ uses target 1024 (S'.mem.frame T) f = 0 := by
    intro T hT hno
    rw [Finset.mem_union, not_or] at hno
    obtain ⟨d, h1, h2, h3, h4⟩ := mem_tables.mp ((Finset.mem_union.mp hT).resolve_left hno.1)
    have hd : UserSlot d := ⟨h1, h2⟩
    cases hold : (S.pde d).present with
    | true => exact absurd (h4 ▸ hslots d hold ▸ mem_tables_of h1 h2 hold) hno.2
    | false =>
      refine ⟨h4 ▸ hnew d hd hold h3, Finset.sum_eq_zero fun t ht => hit_none ?_ f⟩
      have ht := Finset.mem_range.mp ht
      have hno : S.frameAt (entryAddr d t) = none := by
        rw [Space.frameAt, (entryAddr_spec hd ht).2.1, hold]
        rfl
      rw [← h4, ← frameAt_entry hd ht h3, hpages _ (entryAddr_spec hd ht).1, hno]
  have hsame : ∀ T ∈ A ∪ tables S.pde FIRST_SLOT LAST_SLOT,
      uses target 1024 (S'.mem.frame T) f = uses target 1024 (S.mem.frame T) f := by
    intro T hT
    rcases Finset.mem_union.mp hT with hT | hT
    · rw [hA T hT]
    · obtain ⟨d, h1, h2, h3, h4⟩ := mem_tables.mp hT
      have hd : UserSlot d := ⟨h1, h2⟩
      have hp : (S'.pde d).present = true := by
        rw [hslots d h3]
        exact h3
      have hentry : ∀ t < 1024, target (S'.mem.frame T t) = target (S.mem.frame T t) := by
        intro t ht
        have hpage := hpages _ (entryAddr_spec hd ht).1
        rwa [frameAt_entry hd ht hp, frameAt_entry hd ht h3, hslots d h3, h4] at hpage
      rw [uses_congr hentry]
  have hmem : f ∈ A ∪ tables S'.pde FIRST_SLOT LAST_SLOT ↔ f ∈ A ∪ tables S.pde FIRST_SLOT LAST_SLOT :=
    ⟨fun h => by_contra fun hno => (hempty f h hno).1 rfl, fun h => hsub h⟩
  rw [hf'.counted.total, hf.counted.total]
  unfold names
  rw [← Finset.sum_subset hsub fun T hT hno => (hempty T hT hno).2, Finset.sum_congr rfl hsame]
  simp only [hmem]

end RoundTrip

/-- **What the kernel has mapped for a process can be unmapped**: no assertion fails, and the bitmap, the
    pages that are there and the counts of the frames are what they were, but for page tables. -/
theorem mmap_munmap {pages p length vaddr : Nat} {s : State} {q q' : Proc} {m' : Mem} {fl : MapFlags}
    (h : Kept pages s) (hp : s.procs p = some q) (hm : sysMmap s.mem q 0 length fl = .ok (m', q', vaddr))
    (hend : vaddr + divRoundUp length PAGE_SIZE * PAGE_SIZE ≤ USER_STACK_BOTTOM) :
    ∃ m'' q'', sysMunmap m' q' vaddr length = .ok (m'', q'', 0) ∧ Restored s.mem q m'' q'' := by
  have hs := kept_held h
  have hq := hs.sane p q hp
  have hf := hs.fits hp
  have hb := kept_booked h p q hp
  have hmapped := sysMmap_mapped hq hb.length hf hm
  obtain ⟨hmv, hq'⟩ := sysMmap_moves (P := fun _ _ => True) (Q := fun _ _ _ => True)
    (fun _ _ _ _ _ _ _ _ => ⟨trivial, trivial⟩) hq hm fun _ _ _ => trivial
  have hf' := Moves.fits hmv hf
  obtain ⟨-, i, hi, hfound⟩ := hmapped.found rfl
  have hlow := hmapped.low
  have hal : vaddr % PAGE_SIZE = 0 := by
    rw [hi]
    exact Nat.mul_mod_left _ _
  have htop : vaddr + divRoundUp length PAGE_SIZE * PAGE_SIZE ≤ USER_STACK_TOP := hend.trans (by decide)
  have hbelow : ∀ j < divRoundUp length PAGE_SIZE, vaddr + j * PAGE_SIZE < USER_STACK_BOTTOM := by
    intro j hj
    generalize divRoundUp length PAGE_SIZE = n at hend hj
    unfold PAGE_SIZE at hend ⊢
    omega
  have hnew : ∀ j < divRoundUp length PAGE_SIZE, Space.mapped ⟨s.mem, q.pde⟩ (vaddr + j * PAGE_SIZE) = false := by
    rw [hi] at hbelow ⊢
    exact found_fresh hb hfound hbelow
  have hcount : Counting m' (surplus pages) := by
    have hpos := (surplus_pos (kept_small h)).1
    refine ⟨sysMmap_surplus (kept_surplus h) hm, by omega, ?_⟩
    unfold surplus KERNEL_MEMORY_SIZE MEMORY_BASE PAGE_SIZE
    omega
  have hframes : ∀ j < divRoundUp length PAGE_SIZE, ∃ g,
      Space.frameAt ⟨m', q'.pde⟩ (vaddr + j * PAGE_SIZE) = some g ∧ InMemory m' g := by
    unfold sysMmap at hm
    obtain ⟨-, hm⟩ := of_assert hm
    obtain ⟨⟨v, b⟩, haddr, hm⟩ := ok_of_bind hm
    obtain ⟨-, hm⟩ := of_assert hm
    obtain ⟨⟨S', b'⟩, hpages, hm⟩ := ok_of_bind hm
    cases hm
    obtain ⟨hsize, hall⟩ := mmapPages_frames hf (mmapAddr_spec hq.vmap hb.length haddr).1 hlow htop hnew hpages
    exact fun j hj => (hall j hj).imp fun g hg => ⟨hg.1, hsize.inMemory hg.2⟩
  have hset : ∀ j < divRoundUp length PAGE_SIZE,
      getBit q'.vmap.bits (IDX vaddr - USER_MMAP_ADDR / PAGE_SIZE + j) = true := by
    intro j hj
    have hstart := idx_bit hlow
    rw [hmapped.bits]
    refine .inr ?_
    unfold Within
    omega
  obtain ⟨S'', b'', hun⟩ := munmapPages_ok hf' hcount hq'.vmap (hmapped.length.trans hb.length) hlow hal htop
    hframes hset
  have hcall : sysMunmap m' q' vaddr length = .ok (S''.mem, { q' with pde := S''.pde, vmap := b'' }, 0) := by
    unfold sysMunmap
    simp only [hlow, hmapped.high, hal, decide_true, Bool.and_self, Kernel.assert_true]
    show (munmapPages (divRoundUp length PAGE_SIZE) vaddr ⟨m', q'.pde⟩ q'.vmap >>= fun r => _) = _
    rw [hun]
    rfl
  refine ⟨_, _, hcall, ?_⟩
  have hunm := sysMunmap_unmapped hq' hf' hcall
  have hmv' := (sysMunmap_moves (P := fun _ _ => True) hq' hcall).1
  have hkeeps := hmapped.keeps.trans hunm.keeps
  have hpages : ∀ v, UserAddr v → Space.frameAt ⟨S''.mem, S''.pde⟩ v = Space.frameAt ⟨s.mem, q.pde⟩ v := by
    intro v hv
    by_cases hin : Within vaddr (divRoundUp length PAGE_SIZE) (IDX v)
    · obtain ⟨j, hj, e⟩ := within_page hin
      rw [frameAt_page e, frameAt_page e, frameAt_none.mpr (hnew j hj)]
      exact frameAt_none.mpr (hunm.pages j hj)
    · exact hkeeps.pages v hv hin
  refine ⟨?_, hpages, hkeeps.slots, fun f hno => ?_⟩
  · have hbits : b''.bits = q.vmap.bits := by
      refine eq_of_getBit fun k => ?_
      rw [Bool.eq_iff_iff]
      have hunbit := hunm.bits k
      have hbit := hmapped.bits k
      constructor
      · intro hk
        obtain ⟨hk, hout⟩ := hunbit.mp hk
        exact (hbit.mp hk).resolve_right hout
      · intro hk
        refine hunbit.mpr ⟨hbit.mpr (.inl hk), fun hin => ?_⟩
        have hclear := hfound.2.1 k
        unfold Within at hin
        rw [hi, idx_page] at hin
        rw [hclear (by omega) (by omega)] at hk
        cases hk
    have hmap := hunm.map.1
    have hlen : b''.length = q.vmap.length := hunm.map.2.trans hmapped.length
    have hoff : b''.offset = q.vmap.offset := hmap.offset.trans hq.vmap.offset.symm
    have hroom : b''.room = q.vmap.room := hmap.room.trans hq.vmap.room.symm
    show b'' = q.vmap
    cases b''
    cases hv : q.vmap
    rw [hv] at hbits hlen hoff hroom
    cases hbits
    cases hlen
    cases hoff
    cases hroom
    rfl
  · refine counts_of_pages (S := ⟨s.mem, q.pde⟩) hf (Moves.fits hmv' hf') (fun T hT => ?_) hkeeps.slots hpages hno
    exact Moves.keeps (hmv.trans hmv') hf T (.inl hT)

/-- The first page that is asked for. -/
theorem mmap_munmap_page : ∃ m' q' vaddr, sysMmap firstState.mem taskToUserMode 0 4096 ⟨true, false, true⟩ =
      .ok (m', q', vaddr) ∧
    ∃ m'' q'', sysMunmap m' q' vaddr 4096 = .ok (m'', q'', 0) ∧ Restored firstState.mem taskToUserMode m'' q'' := by
  have hok : (sysMmap firstState.mem taskToUserMode 0 4096 ⟨true, false, true⟩).toOption.map (fun r => r.2.2) =
      some USER_MMAP_ADDR := by decide +kernel
  have hp : firstState.procs 1 = some taskToUserMode := rfl
  cases h : sysMmap firstState.mem taskToUserMode 0 4096 ⟨true, false, true⟩ with
  | error e =>
    rw [h] at hok
    cases hok
  | ok r =>
    obtain ⟨m', q', vaddr⟩ := r
    rw [h] at hok
    have haddr : vaddr = USER_MMAP_ADDR := Option.some.inj hok
    refine ⟨m', q', vaddr, rfl, mmap_munmap kept_first hp h ?_⟩
    rw [haddr]
    decide

end Yuios.Paging
