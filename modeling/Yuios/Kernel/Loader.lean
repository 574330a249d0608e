/-
  File:      Yuios/Kernel/Loader.lean
  Subject:   LOADING A PROGRAM FILE: what `load_elf` of `kernel/execve.c` makes of the memory of the process.

  * `InOrder`, `WellFormed` -- what the headers of a file must say, and that no segment stands in their page.
  * `leading` -- how many program headers stand before the first that is not a `PT_LOAD`.
  * `Stage` -- the invariant of the loop: so many segments are in place, and nothing else has changed.
  * `loadElf_returns` -- a file that is well-formed is loaded up to that header.
  * **`segments_placed`** -- for which files that is all of them.
-/
import Yuios.Fs.Reads
import Yuios.Kernel.Execve
import Yuios.Kernel.Linking

namespace Yuios.Loader

open Lib Prog Code
open Execve

/-! ## 1. What the headers say -/

/-- A program header at `ptr`. -/
def phdrAt (b : Bytes) (ptr : Nat) : Paging.Phdr where
  vaddr := fetch b (ptr + 8) 4
  filesz := fetch b (ptr + 16) 4
  memsz := fetch b (ptr + 20) 4
  writable := fetch b (ptr + 24) 4 &&& Paging.PF_W ≠ 0
  align := fetch b (ptr + 28) 4

/-- The segment has whole pages of the program's memory. -/
structure InMemory (ph : Paging.Phdr) : Prop where
  align : ph.align = 0x1000
  aligned : ph.vaddr % Paging.PAGE_SIZE = 0
  low : Paging.USER_EXEC_ADDR ≤ ph.vaddr
  high : ph.vaddr + max ph.memsz ph.filesz ≤ Paging.USER_MMAP_ADDR

/-- The segment has whole pages behind the page of the headers, and ends before `USER_MMAP_ADDR`. -/
structure Inside (ph : Paging.Phdr) : Prop extends InMemory ph where
  behind : Paging.USER_EXEC_ADDR + Paging.PAGE_SIZE ≤ ph.vaddr

section Headers

variable (data : Bytes)

/-- `e_phoff`, `e_phnum`, and where the program headers stand in the file. -/
def tableOffset : Nat := fetch data 28 4
def headerCount : Nat := fetch data 44 2
def headerOffset (i : Nat) : Nat := tableOffset data + i * PHDR_SIZE

/-- Program header `i`. -/
def segment (i : Nat) : Paging.Phdr := phdrAt data (headerOffset data i)
def segmentOffset (i : Nat) : Nat := fetch data (headerOffset data i + 4) 4
def IsLoad (i : Nat) : Prop := fetch data (headerOffset data i) 4 = PT_LOAD

instance (i : Nat) : Decidable (IsLoad data i) := inferInstanceAs (Decidable (_ = _))

/-- A page with this number is the segment's. -/
def Covers (i page : Nat) : Prop := Paging.Within (segment data i).vaddr (segment data i).pages page

/-- Byte `j` of the headers: the ELF header, and the table behind it. -/
def headerByte (j : Nat) : UInt8 := if j < EHDR_SIZE then data j else data (tableOffset data + (j - EHDR_SIZE))

/-- What segment `i` has in its byte `j`. -/
def segmentByte (i j : Nat) : UInt8 := if j < (segment data i).filesz then data (segmentOffset data i + j) else 0

/-- **The headers of a file of `size` bytes are in order.** A segment may lie over the place where the headers
    are kept if it has them there itself. -/
structure InOrder (size : Nat) : Prop where
  table : headerCount data ≠ 0 → tableOffset data + headerCount data * PHDR_SIZE ≤ size
  page : EHDR_SIZE + headerCount data * PHDR_SIZE ≤ Paging.PAGE_SIZE
  inside : ∀ i < headerCount data, IsLoad data i → InMemory (segment data i)
  whole : ∀ i < headerCount data, IsLoad data i → (segment data i).filesz ≠ 0 →
    segmentOffset data i + (segment data i).filesz ≤ size
  apart : ∀ i < headerCount data, ∀ j < headerCount data, IsLoad data i → IsLoad data j → i ≠ j →
    ∀ page, Covers data i page → ¬Covers data j page
  headers : ∀ i < headerCount data, IsLoad data i → ∀ j < EHDR_SIZE + headerCount data * PHDR_SIZE,
    ∀ k < max (segment data i).memsz (segment data i).filesz,
    Paging.USER_EXEC_ADDR + j = (segment data i).vaddr + k → segmentByte data i k = headerByte data j

/-- **The headers are in order, and every segment stands behind their page.** -/
structure WellFormed (size : Nat) : Prop where
  table : headerCount data ≠ 0 → tableOffset data + headerCount data * PHDR_SIZE ≤ size
  page : EHDR_SIZE + headerCount data * PHDR_SIZE ≤ Paging.PAGE_SIZE
  inside : ∀ i < headerCount data, IsLoad data i → Inside (segment data i)
  whole : ∀ i < headerCount data, IsLoad data i → (segment data i).filesz ≠ 0 →
    segmentOffset data i + (segment data i).filesz ≤ size
  apart : ∀ i < headerCount data, ∀ j < headerCount data, IsLoad data i → IsLoad data j → i ≠ j →
    ∀ page, Covers data i page → ¬Covers data j page

/-- The first header from `k` on that is not a `PT_LOAD`, `n` headers at most. -/
def leadingFrom : (n k : Nat) → Nat
  | 0, k => k
  | n + 1, k => if IsLoad data k then leadingFrom n (k + 1) else k

/-- **How many headers stand before the first that is not a `PT_LOAD`.** -/
def leading : Nat := leadingFrom data (headerCount data) 0

/-- The highest end of the segments before header `k`, in whole pages. -/
def top : Nat → Nat
  | 0 => Paging.USER_EXEC_ADDR
  | k + 1 =>
    if IsLoad data k then max (top k) ((segment data k).vaddr + (segment data k).pages * Paging.PAGE_SIZE)
    else top k

/-- The pages of these segments. -/
def pagesBelow : Nat → Nat
  | 0 => 0
  | k + 1 => pagesBelow k + if IsLoad data k then (segment data k).pages else 0

end Headers

/-! ## 2. Accesses -/

section Accesses

variable {s t : Kernel} {ks : List Key} {im : Image} {x addr len offset n idx u v : Nat} {S : Paging.Space}

theorem returns_lift {α : Type} {e : Except Stop α} {Q : α × Kernel → Prop} :
    Returns (run (Code.lift e) s) Q ↔ Returns e fun a => Q (a, s) := by
  cases e with
  | ok a => exact returns_ok.trans (returns_ok (Q := fun a => Q (a, s))).symm
  | error e => exact returns_error.trans (returns_error (Q := fun a => Q (a, s))).symm

/-- The first part has run. -/
theorem run_then {α β : Type} {p : Code α} {f : α → Code β} {a : α} (h : run p s = .ok (a, t)) :
    run (p >>= f) s = run (f a) t := by
  rw [run_bind, h]
  rfl

theorem mapped_page (h : Paging.IDX u = Paging.IDX v) : S.mapped u = S.mapped v := by
  rw [← Paging.pageAt_mapped, Paging.pageAt_page h, Paging.pageAt_mapped]

/-- **Pages that are there** are accessed without a fault. -/
theorem touchPages_mapped (h : ∀ j < n, Paging.USER_EXEC_ADDR ≤ Paging.PAGE (idx + j) ∧
    Paging.PAGE (idx + j) < Paging.USER_STACK_TOP ∧ im.space.mapped (Paging.PAGE (idx + j)) = true) :
    touchPages n idx im = .ok im := by
  induction n generalizing idx with
  | zero => rfl
  | succ n ih =>
    obtain ⟨h1, h2, h3⟩ := h 0 (Nat.succ_pos n)
    rw [Nat.add_zero] at h1 h2 h3
    have hpage : touchPage im idx = .ok im := if_pos (by simp [h1, h2, h3])
    unfold touchPages
    rw [hpage]
    refine ih fun j hj => ?_
    rw [Nat.add_right_comm, Nat.add_assoc]
    exact h (j + 1) (by omega)

theorem touch_mapped (h1 : Paging.USER_EXEC_ADDR ≤ addr) (h2 : addr + n ≤ Paging.USER_STACK_TOP)
    (hm : ∀ a, addr ≤ a → a < addr + n → im.space.mapped a = true) : touch im addr n = .ok im := by
  unfold touch
  split
  · rfl
  · next hn =>
      refine touchPages_mapped fun j hj => ?_
      unfold Paging.USER_EXEC_ADDR Paging.KERNEL_MEMORY_SIZE at *
      unfold Paging.USER_STACK_TOP at *
      unfold Paging.IDX Paging.PAGE_SIZE at *
      unfold Paging.PAGE Paging.PAGE_SIZE
      refine ⟨by omega, by omega, ?_⟩
      have hin := hm (max addr ((addr / 4096 + j) * 4096)) (by omega) (by omega)
      rw [← hin]
      refine mapped_page ?_
      unfold Paging.IDX Paging.PAGE_SIZE
      omega

/-- **The file is read to pages that are there.** -/
theorem readTo_returns (hs : CountsKept s) (hb : Borrowed ks s t) (hfile : ISFILE (s.desc x .mode) = true)
    (hlen : readLen (s.desc x .size) offset len = n) (hthere : s.There x offset n)
    (htouch : touch im addr n = .ok im) : Returns (run (readTo x im addr len offset) t) fun r =>
      (r.1.1.getD 0 = n ∧ (r.1.1 = none ↔ s.desc x .size ≤ offset)) ∧
        r.1.2 = { im with memory := copyIn im.memory addr (fun j => s.fileBytes x (offset + j)) n } ∧
        Borrowed ks s r.2 := by
  subst hlen
  unfold readTo
  rw [returns_then]
  refine (inodeRead_returns hs hb hfile hthere).mono fun ⟨⟨m, buf⟩, u⟩ _ ⟨hm, hnone, hbuf, hu⟩ => ?_
  dsimp only at hm hbuf
  rw [returns_then, returns_lift, hm, htouch, returns_ok]
  refine returns_ok.mpr ⟨⟨hm, hnone⟩, ?_, hu⟩
  dsimp only
  rw [hbuf]
  congr 1
  exact copyIn_congr fun j hj => by rw [copyIn_of_mem (Nat.zero_le j) (by omega), Nat.sub_zero]

end Accesses

/-! ## 3. One segment -/

section InMemory

variable {ph : Paging.Phdr} {a i page : Nat}

theorem InMemory.pages_eq (h : InMemory ph) : ph.pages = (max ph.memsz ph.filesz + 4095) / 4096 := by
  have hhigh := h.high
  unfold Paging.USER_MMAP_ADDR at hhigh
  unfold Paging.Phdr.pages Paging.divRoundUp Paging.PAGE_SIZE
  omega

/-- Its pages hold it, and they end before `USER_MMAP_ADDR`. -/
theorem InMemory.pages_end (h : InMemory ph) : max ph.memsz ph.filesz ≤ ph.pages * Paging.PAGE_SIZE ∧
    ph.vaddr + ph.pages * Paging.PAGE_SIZE ≤ Paging.USER_MMAP_ADDR := by
  have hhigh := h.high
  have haligned := h.aligned
  rw [h.pages_eq]
  unfold Paging.USER_MMAP_ADDR Paging.PAGE_SIZE at *
  omega

theorem InMemory.within (h : InMemory ph) (h1 : ph.vaddr ≤ a) (h2 : a < ph.vaddr + max ph.memsz ph.filesz) :
    Paging.Within ph.vaddr ph.pages (Paging.IDX a) := by
  have hsize := h.pages_end.1
  have haligned := h.aligned
  unfold Paging.Within Paging.IDX Paging.PAGE_SIZE at *
  omega

/-- Its pages are the program's. -/
theorem InMemory.bounds (h : InMemory ph) (hin : Paging.Within ph.vaddr ph.pages page) :
    Paging.IDX Paging.USER_EXEC_ADDR ≤ page ∧ page < Paging.IDX Paging.USER_MMAP_ADDR := by
  have hlow := h.low
  have hend := h.pages_end.2
  have haligned := h.aligned
  unfold Paging.USER_EXEC_ADDR Paging.KERNEL_MEMORY_SIZE at *
  unfold Paging.Within Paging.IDX Paging.USER_MMAP_ADDR Paging.PAGE_SIZE at *
  omega

theorem InMemory.user (h : InMemory ph) (hi : i < ph.pages) :
    Paging.UserAddr (ph.vaddr + i * Paging.PAGE_SIZE) := by
  have hlow := h.low
  have hend := h.pages_end.2
  have hle : i * Paging.PAGE_SIZE ≤ ph.pages * Paging.PAGE_SIZE := Nat.mul_le_mul_right _ hi.le
  exact Paging.userAddr_of_heap (by omega) (by omega)

/-- The pages of the segment are there, and so is every byte of it. -/
theorem InMemory.mapped_byte {S : Paging.Space} (h : InMemory ph)
    (hm : ∀ i < ph.pages, S.mapped (ph.vaddr + i * Paging.PAGE_SIZE) = true) (h1 : ph.vaddr ≤ a)
    (h2 : a < ph.vaddr + max ph.memsz ph.filesz) : S.mapped a = true := by
  obtain ⟨i, hi, e⟩ := Paging.within_page (h.within h1 h2)
  rw [mapped_page e]
  exact hm i hi

/-- It is not in the page of the headers. -/
theorem Inside.bounds (h : Inside ph) (hin : Paging.Within ph.vaddr ph.pages page) :
    Paging.IDX Paging.USER_EXEC_ADDR < page := by
  have hlow := h.behind
  have haligned := h.aligned
  unfold Paging.USER_EXEC_ADDR Paging.KERNEL_MEMORY_SIZE at *
  unfold Paging.Within Paging.IDX Paging.PAGE_SIZE at *
  omega

end InMemory

section Segment

variable {A : Finset Nat} {s t : Kernel} {im im' : Image} {ph : Paging.Phdr} {x ptr off n a : Nat} {file : Bytes}

/-- The memory after a segment is loaded. -/
def filled (memory : Bytes) (ph : Paging.Phdr) (file : Bytes) (off : Nat) : Bytes :=
  copyIn (copyIn memory ph.vaddr (fun j => file (off + j)) ph.filesz) (ph.vaddr + ph.filesz) (fun _ => 0)
    (ph.memsz - ph.filesz)

theorem filled_of_ne (h : a < ph.vaddr ∨ ph.vaddr + max ph.memsz ph.filesz ≤ a) (memory : Bytes) :
    filled memory ph file off a = memory a := by
  unfold filled
  rw [copyIn_of_ne (by omega), copyIn_of_ne (by omega)]

/-- A byte that is as before when the segment is in place was so before the rest was cleared. -/
theorem read_of_filled {memory : Bytes} (h : filled memory ph file off a = memory a) :
    copyIn memory ph.vaddr (fun j => file (off + j)) ph.filesz a = memory a := by
  by_cases hin : ph.vaddr ≤ a ∧ a < ph.vaddr + ph.filesz
  · -- the bytes that are cleared are behind those of the file
    exact (copyIn_of_ne (by omega)).symm.trans h
  · exact copyIn_of_ne (by omega)

/-- **What `load_segment` does**: the segment is in place, and everything else is as before. -/
structure SegmentIn (A : Finset Nat) (file : Bytes) (ph : Paging.Phdr) (off n : Nat) (im im' : Image) : Prop where
  fits : Paging.Fits A im'.space
  stays : Paging.Stays (Paging.Within ph.vaddr ph.pages) im.space im'.space
  mapped : ∀ i < ph.pages, im'.space.mapped (ph.vaddr + i * Paging.PAGE_SIZE) = true
  protect : ph.writable = false → ∀ i < ph.pages, Paging.ReadOnly im'.space (ph.vaddr + i * Paging.PAGE_SIZE)
  memory : im'.memory = filled im.memory ph file off
  end_ : im'.proc.end_ = max im.proc.end_ (ph.vaddr + ph.pages * Paging.PAGE_SIZE)
  brk : im'.proc.brk = im.proc.brk
  room : Paging.Room im'.mem n

/-- The header at `ptr` is as before where its bytes are. -/
theorem phdr_congr (h : ∀ a, ptr ≤ a → a < ptr + PHDR_SIZE → im'.memory a = im.memory a) :
    im'.phdr ptr = im.phdr ptr := by
  have hf : ∀ k, k ≤ 28 → fetch im'.memory (ptr + k) 4 = fetch im.memory (ptr + k) 4 := fun k hk =>
    fetch_congr fun a h1 h2 => h a (by omega) (by unfold PHDR_SIZE; omega)
  unfold Image.phdr
  rw [hf 8 (by omega), hf 16 (by omega), hf 20 (by omega), hf 24 (by omega), hf 28 (by omega)]

theorem mapped_headers (hhead : im.space.mapped Paging.USER_EXEC_ADDR = true) (h1 : Paging.USER_EXEC_ADDR ≤ a)
    (h2 : a < Paging.USER_EXEC_ADDR + Paging.PAGE_SIZE) : im.space.mapped a = true := by
  rw [← hhead]
  refine mapped_page ?_
  unfold Paging.USER_EXEC_ADDR Paging.KERNEL_MEMORY_SIZE at *
  unfold Paging.IDX Paging.PAGE_SIZE at *
  omega

/-- The page of the headers is there. -/
theorem touch_headers (hhead : im.space.mapped Paging.USER_EXEC_ADDR = true) (hptr : Paging.USER_EXEC_ADDR ≤ ptr)
    (hptr' : ptr + n ≤ Paging.USER_EXEC_ADDR + Paging.PAGE_SIZE) : touch im ptr n = .ok im := by
  have htop : Paging.USER_EXEC_ADDR + Paging.PAGE_SIZE ≤ Paging.USER_STACK_TOP := by decide
  exact touch_mapped hptr (by omega) fun a h1 h2 => mapped_headers hhead (by omega) (by omega)

/-- A piece of a segment whose pages are there. -/
theorem touch_segment (hin : InMemory ph) (hm : ∀ i < ph.pages, im.space.mapped (ph.vaddr + i * Paging.PAGE_SIZE) = true)
    (h1 : ph.vaddr ≤ a) (h2 : a + n ≤ ph.vaddr + max ph.memsz ph.filesz) : touch im a n = .ok im := by
  have hlow := hin.low
  have hhigh := hin.high
  have htop : Paging.USER_MMAP_ADDR ≤ Paging.USER_STACK_TOP := by decide
  exact touch_mapped (by omega) (by omega) fun b hb1 hb2 => hin.mapped_byte hm (by omega) (by omega)

/-- The pages of the segment are linked. -/
def linked (im : Image) (S : Paging.Space) (ptr : Nat) (ph : Paging.Phdr) : Image :=
  { im with mem := S.mem, proc := { im.proc with pde := S.pde, segment := some ⟨ptr, ph, none⟩ } }

/-- It is in place. -/
def ended (im : Image) (S : Paging.Space) (ph : Paging.Phdr) : Image :=
  let end_ := max im.proc.end_ (ph.vaddr + ph.pages * Paging.PAGE_SIZE)
  { im with mem := S.mem, proc := { im.proc with pde := S.pde, segment := none, end_ } }

theorem loadSegment_linked {S : Paging.Space} (hin : InMemory ph)
    (h : Paging.linkSegment ph.pages ph.vaddr im.space = .ok S) :
    Paging.loadSegment im.mem im.proc ptr ph = .ok ((linked im S ptr ph).mem, (linked im S ptr ph).proc) := by
  unfold Paging.loadSegment
  rw [Kernel.assert, if_pos (by simp [hin.align]), Kernel.assert, if_pos (by simp [hin.aligned])]
  exact bind_of_ok rfl (bind_of_ok rfl (bind_of_ok h rfl))

theorem endSegment_ended {S : Paging.Space}
    (h : Paging.protectSegment (if ph.writable then 0 else ph.pages) ph.vaddr im.space = .ok S) :
    Paging.endSegment im.mem im.proc ph = .ok ((ended im S ph).mem, (ended im S ph).proc) := by
  unfold Paging.endSegment
  exact bind_of_ok h rfl

/-- The rest of the segment is cleared. -/
theorem clear_rest (hin : InMemory ph) (hm : ∀ i < ph.pages, im.space.mapped (ph.vaddr + i * Paging.PAGE_SIZE) = true) :
    (if ph.filesz < ph.memsz then clear im ((ph.vaddr + ph.filesz) % 2 ^ 32) (ph.memsz - ph.filesz) else .ok im) =
      .ok { im with memory := copyIn im.memory (ph.vaddr + ph.filesz) (fun _ => 0) (ph.memsz - ph.filesz) } := by
  split
  · next hlt =>
      have hhigh := hin.high
      have hmod : (ph.vaddr + ph.filesz) % 2 ^ 32 = ph.vaddr + ph.filesz := by
        unfold Paging.USER_MMAP_ADDR at hhigh
        omega
      have htouch : touch im (ph.vaddr + ph.filesz) (ph.memsz - ph.filesz) = .ok im :=
        touch_segment hin hm (by omega) (by omega)
      rw [hmod]
      exact bind_of_ok htouch rfl
  · next hge =>
      have h0 : ph.memsz - ph.filesz = 0 := by omega
      rw [h0, copyIn_zero]

/-- **`load_segment`** of a segment that is inside, from a header in the page of the headers that it leaves as
    it is. -/
theorem loadSegment_returns (hs : CountsKept s) (hb : Borrowed [] s t) (hfile : ISFILE (s.desc x .mode) = true)
    (hf : Paging.Fits A im.space) (hptr : Paging.USER_EXEC_ADDR ≤ ptr)
    (hptr' : ptr + PHDR_SIZE ≤ Paging.USER_EXEC_ADDR + Paging.PAGE_SIZE)
    (hhead : im.space.mapped Paging.USER_EXEC_ADDR = true) (hph : im.phdr ptr = ph)
    (hoff : fetch im.memory (ptr + 4) 4 = off) (hin : InMemory ph)
    (hlen : readLen (s.desc x .size) off ph.filesz = ph.filesz) (hthere : s.There x off ph.filesz)
    (hr : Paging.Room im.mem (n + 2 * ph.pages))
    (hkept : ∀ a, ptr ≤ a → a < ptr + PHDR_SIZE → filled im.memory ph (s.fileBytes x) off a = im.memory a) :
    Returns (run (loadSegment x im ptr) t) fun r =>
      SegmentIn A (s.fileBytes x) ph off n im r.1 ∧ Borrowed [] s r.2 := by
  have hlow := hin.low
  obtain ⟨S₁, h1, hf₁, hs₁, hm₁, hr₁⟩ := Paging.linkSegment_links (k := n) hf (by omega) hin.pages_end.2
    hin.aligned hr
  have hprotect : ∀ i < (if ph.writable then 0 else ph.pages), i < ph.pages := fun i hi => by
    split at hi
    · exact absurd hi (Nat.not_lt_zero i)
    · exact hi
  obtain ⟨S₂, h2, hf₂, hs₂, hm₂, hr₂⟩ := Paging.protectSegment_protects hf₁
    (fun i hi => hin.user (hprotect i hi)) (fun i hi => hm₁ i (hprotect i hi)) hr₁
  -- the header is read again: the segment has the same bytes there
  have hagain : ∀ im' : Image, (∀ a, ptr ≤ a → a < ptr + PHDR_SIZE → im'.memory a = im.memory a) →
      im'.phdr ptr = ph := fun im' h => by
    rw [← hph]
    exact phdr_congr h
  unfold loadSegment
  rw [returns_then, returns_lift, touch_headers hhead hptr hptr', returns_ok]
  dsimp only
  rw [returns_then, returns_lift, hph, loadSegment_linked hin h1, returns_ok]
  show Returns (run (readTo x (linked im S₁ ptr ph) ph.vaddr ph.filesz (fetch im.memory (ptr + 4) 4) >>= _) t) _
  rw [returns_then, hoff]
  have hread : touch (linked im S₁ ptr ph) ph.vaddr ph.filesz = .ok (linked im S₁ ptr ph) :=
    touch_segment hin hm₁ (Nat.le_refl _) (by omega)
  refine (readTo_returns hs hb hfile hlen hthere hread).mono fun ⟨⟨m, im₂⟩, u⟩ _ ⟨_, him₂, hu⟩ => ?_
  dsimp only at him₂ hu ⊢
  have hph₂ : im₂.phdr ptr = ph := hagain im₂ fun a h1 h2 => by
    have hread : copyIn im.memory ph.vaddr (fun j => s.fileBytes x (off + j)) ph.filesz a = im.memory a :=
      read_of_filled (hkept a h1 h2)
    rw [him₂]
    exact hread
  have hm₂' : ∀ i < ph.pages, im₂.space.mapped (ph.vaddr + i * Paging.PAGE_SIZE) = true := by
    rw [him₂]
    exact hm₁
  obtain ⟨im₃, him₃⟩ : ∃ im₃ : Image, im₃ = { im₂ with
    memory := copyIn im₂.memory (ph.vaddr + ph.filesz) (fun _ => 0) (ph.memsz - ph.filesz) } := ⟨_, rfl⟩
  have hclear := (clear_rest hin hm₂').trans (congrArg Except.ok him₃.symm)
  have hmemory : im₃.memory = filled im.memory ph (s.fileBytes x) off := by
    rw [him₃, him₂]
    rfl
  have hph₃ : im₃.phdr ptr = ph := hagain im₃ fun a h1 h2 => by
    rw [hmemory]
    exact hkept a h1 h2
  have hspace : im₃.space = S₁ := by
    rw [him₃, him₂]
    rfl
  have hend : Paging.endSegment im₃.mem im₃.proc { ph with writable := (im₃.phdr ptr).writable } =
      .ok ((ended im₃ S₂ ph).mem, (ended im₃ S₂ ph).proc) := by
    rw [hph₃]
    exact endSegment_ended (hspace ▸ h2)
  rw [returns_then, returns_lift, hph₂, hclear, returns_ok]
  dsimp only
  rw [returns_then, returns_lift, hend, returns_ok]
  refine returns_ok.mpr ⟨?_, hu⟩
  show SegmentIn A (s.fileBytes x) ph off n im (ended im₃ S₂ ph)
  have hs : Paging.Stays (Paging.Within ph.vaddr ph.pages) S₁ S₂ := hs₂.mono fun k hk => by
    refine ⟨hk.1, Nat.lt_of_lt_of_le hk.2 (Nat.add_le_add_left ?_ _)⟩
    split
    · exact Nat.zero_le _
    · exact Nat.le_refl _
  refine ⟨hf₂, hs₁.trans hs, fun i hi => ?_, fun hw i hi => ?_, hmemory, ?_, ?_, hr₂⟩
  · cases hw : ph.writable with
    | false => exact (hm₂ i (by simpa [hw] using hi)).1
    | true =>
      -- nothing is made read-only
      have hno : ¬Paging.Within ph.vaddr (if ph.writable then 0 else ph.pages)
          (Paging.IDX (ph.vaddr + i * Paging.PAGE_SIZE)) := by
        rw [if_pos hw]
        exact fun h => absurd h.2 (Nat.not_lt.mpr h.1)
      exact (hs₂.mapped (hin.user hi) hno).trans (hm₁ i hi)
  · exact (hm₂ i (by simpa [hw] using hi)).2
  · show max im₃.proc.end_ _ = _
    rw [him₃, him₂]
    rfl
  · show im₃.proc.brk = _
    rw [him₃, him₂]
    rfl

end Segment

/-! ## 4. The headers in memory -/

/-- **The headers of the file are in the memory of the process**, and their page is there. -/
structure Headed (data : Bytes) (im : Image) : Prop where
  page : im.space.mapped Paging.USER_EXEC_ADDR = true
  bytes : ∀ j < EHDR_SIZE + headerCount data * PHDR_SIZE, im.memory (Paging.USER_EXEC_ADDR + j) = headerByte data j

/-- Where program header `k` stands in memory. -/
def ptrAt (k : Nat) : Nat := Paging.USER_EXEC_ADDR + EHDR_SIZE + k * PHDR_SIZE

section Headed

variable {data : Bytes} {im : Image} {k n p q size : Nat}

theorem headerByte_header (hj : n < EHDR_SIZE) : headerByte data n = data n := if_pos hj

theorem headerByte_table (data : Bytes) (n : Nat) : headerByte data (EHDR_SIZE + n) = data (tableOffset data + n) := by
  rw [headerByte, if_neg (by omega), Nat.add_sub_cancel_left]

theorem Headed.number (h : Headed data im) (hn : p + n ≤ EHDR_SIZE) :
    fetch im.memory (Paging.USER_EXEC_ADDR + p) n = fetch data p n :=
  fetch_shift fun j hj => by
    rw [Nat.add_assoc, h.bytes (p + j) (by omega), headerByte_header (by omega)]

theorem Headed.phnum (h : Headed data im) : phnum im.memory = headerCount data := h.number (by decide)

theorem Headed.entryPoint (h : Headed data im) :
    entryPoint im.memory = if fetch data 24 4 = EOF then none else some (fetch data 24 4) := by
  have he : fetch im.memory (Paging.USER_EXEC_ADDR + 24) 4 = fetch data 24 4 := h.number (by decide)
  unfold Execve.entryPoint
  rw [he]

/-- A number of program header `k`. -/
theorem Headed.field (h : Headed data im) (hk : k < headerCount data) (hp : p + n ≤ PHDR_SIZE) :
    fetch im.memory (ptrAt k + p) n = fetch data (headerOffset data k + p) n := by
  have hnext : (k + 1) * PHDR_SIZE ≤ headerCount data * PHDR_SIZE := Nat.mul_le_mul_right _ hk
  rw [Nat.succ_mul] at hnext
  refine fetch_shift fun j hj => ?_
  have := h.bytes (EHDR_SIZE + (k * PHDR_SIZE + (p + j))) (by omega)
  rw [headerByte_table] at this
  unfold ptrAt headerOffset
  simp only [Nat.add_assoc] at this ⊢
  exact this

theorem Headed.phdr (h : Headed data im) (hk : k < headerCount data) : im.phdr (ptrAt k) = segment data k := by
  unfold Image.phdr segment phdrAt
  rw [h.field hk (by decide), h.field hk (by decide), h.field hk (by decide), h.field hk (by decide),
    h.field hk (by decide)]

/-- The header stands in the page of the headers. -/
theorem InOrder.ptrAt_le (hw : InOrder data size) (hk : k < headerCount data) :
    ptrAt k + PHDR_SIZE ≤ Paging.USER_EXEC_ADDR + Paging.PAGE_SIZE := by
  have hpage := hw.page
  have hnext : (k + 1) * PHDR_SIZE ≤ headerCount data * PHDR_SIZE := Nat.mul_le_mul_right _ hk
  rw [Nat.succ_mul] at hnext
  unfold ptrAt
  omega

/-- All of a segment is read. -/
theorem InOrder.readLen_segment (hw : InOrder data size) (hk : k < headerCount data) (hload : IsLoad data k) :
    readLen size (segmentOffset data k) (segment data k).filesz = (segment data k).filesz := by
  unfold readLen
  by_cases h0 : (segment data k).filesz = 0
  · omega
  · have := hw.whole k hk hload h0
    omega

/-- All of the table is read. -/
theorem InOrder.readLen_table (hw : InOrder data size) :
    readLen size (tableOffset data) (headerCount data * PHDR_SIZE) = headerCount data * PHDR_SIZE := by
  unfold readLen
  by_cases h0 : headerCount data = 0
  · rw [h0, Nat.zero_mul, Nat.zero_min]
  · have := hw.table h0
    omega

theorem ptrAt_succ (k : Nat) : ptrAt (k + 1) = ptrAt k + PHDR_SIZE := by
  unfold ptrAt
  rw [Nat.succ_mul, Nat.add_assoc, Nat.add_assoc, Nat.add_assoc]

theorem ptrAt_low (k : Nat) : Paging.USER_EXEC_ADDR ≤ ptrAt k := by
  unfold ptrAt
  omega

end Headed

/-! ## 5. The loop -/

/-- **Segment `i` is in place.** -/
structure Placed (data : Bytes) (im : Image) (i : Nat) : Prop where
  mapped : ∀ j < (segment data i).pages, im.space.mapped ((segment data i).vaddr + j * Paging.PAGE_SIZE) = true
  bytes : ∀ j < (segment data i).filesz, im.memory ((segment data i).vaddr + j) = data (segmentOffset data i + j)
  zeros : ∀ j, (segment data i).filesz ≤ j → j < (segment data i).memsz → im.memory ((segment data i).vaddr + j) = 0
  protect : (segment data i).writable = false → ∀ j < (segment data i).pages,
    Paging.ReadOnly im.space ((segment data i).vaddr + j * Paging.PAGE_SIZE)

/-- **The segments before header `k` are in place**, and nothing else has changed since `im₀`, the headers
    not at all; `n` frames are left. -/
structure Stage (A : Finset Nat) (data : Bytes) (im₀ im : Image) (k n : Nat) : Prop where
  headed : Headed data im
  placed : ∀ i < k, Placed data im i
  memory : ∀ a, (∀ i < k, ¬Covers data i (Paging.IDX a)) → im.memory a = im₀.memory a
  stays : Paging.Stays (fun page => ∃ i < k, Covers data i page) im₀.space im.space
  fits : Paging.Fits A im.space
  end_ : im.proc.end_ = top data k
  brk : im.proc.brk = im₀.proc.brk
  room : Paging.Room im.mem n

section Loop

variable {A : Finset Nat} {s t : Kernel} {data : Bytes} {im₀ im im' : Image} {x k n m i size room fuel : Nat}

theorem stage_start (hhead : Headed data im₀) (hf : Paging.Fits A im₀.space)
    (hend : im₀.proc.end_ = Paging.USER_EXEC_ADDR) (hr : Paging.Room im₀.mem n) : Stage A data im₀ im₀ 0 n :=
  ⟨hhead, nofun, fun _ _ => rfl, .refl _, hf, hend, rfl, hr⟩

theorem Stage.mono (h : Stage A data im₀ im k n) (hm : m ≤ n) : Stage A data im₀ im k m :=
  { h with room := h.room.mono hm }

/-- A well-formed file keeps its segments away from the headers. -/
theorem WellFormed.inOrder (hw : WellFormed data size) : InOrder data size := by
  refine ⟨hw.table, hw.page, fun i hi hl => (hw.inside i hi hl).toInMemory, hw.whole, hw.apart,
    fun i hi hl j hj k _ e => ?_⟩
  have := (hw.inside i hi hl).behind
  have := hw.page
  omega

/-- **What a segment writes over the headers** they have already. -/
theorem filled_headers (hw : InOrder data size) (hk : k < headerCount data) (hload : IsLoad data k)
    (hhead : Headed data im) {j : Nat} (hj : j < EHDR_SIZE + headerCount data * PHDR_SIZE) :
    filled im.memory (segment data k) data (segmentOffset data k) (Paging.USER_EXEC_ADDR + j) =
      im.memory (Paging.USER_EXEC_ADDR + j) := by
  by_cases hin : (segment data k).vaddr ≤ Paging.USER_EXEC_ADDR + j ∧
      Paging.USER_EXEC_ADDR + j < (segment data k).vaddr + max (segment data k).memsz (segment data k).filesz
  · obtain ⟨p, hp⟩ := Nat.exists_eq_add_of_le hin.1
    rw [hhead.bytes j hj, ← hw.headers k hk hload j hj p (by omega) hp, hp]
    unfold filled segmentByte
    split
    · rw [copyIn_of_ne (by omega), copyIn_of_mem (by omega) (by omega), Nat.add_sub_cancel_left]
    · rw [copyIn_of_mem (by omega) (by omega)]
  · exact filled_of_ne (by omega) _

/-- The program header that is read again is among them. -/
theorem filled_header (hw : InOrder data size) (hk : k < headerCount data) (hload : IsLoad data k)
    (hhead : Headed data im) {a : Nat} (h1 : ptrAt k ≤ a) (h2 : a < ptrAt k + PHDR_SIZE) :
    filled im.memory (segment data k) data (segmentOffset data k) a = im.memory a := by
  have hnext : (k + 1) * PHDR_SIZE ≤ headerCount data * PHDR_SIZE := Nat.mul_le_mul_right _ hk
  have hlow := ptrAt_low k
  obtain ⟨j, rfl⟩ := Nat.exists_eq_add_of_le (Nat.le_trans hlow h1)
  refine filled_headers hw hk hload hhead ?_
  unfold ptrAt at h2
  rw [Nat.succ_mul] at hnext
  omega

/-- The headers stay. -/
theorem Headed.next (hw : InOrder data size) (hk : k < headerCount data) (hload : IsLoad data k)
    (h : SegmentIn A data (segment data k) (segmentOffset data k) n im im') (hhead : Headed data im) :
    Headed data im' := by
  refine ⟨?_, fun j hj => ?_⟩
  · by_cases hc : Covers data k (Paging.IDX Paging.USER_EXEC_ADDR)
    · obtain ⟨i, hi, e⟩ := Paging.within_page hc
      rw [mapped_page e]
      exact h.mapped i hi
    · rw [h.stays.mapped ⟨Nat.le_refl _, by decide⟩ hc]
      exact hhead.page
  · rw [h.memory, filled_headers hw hk hload hhead hj]
    exact hhead.bytes j hj

/-- A segment that is in place stays so while another one is loaded. -/
theorem Placed.next (hi : InMemory (segment data i)) (hk : InMemory (segment data k))
    (hap : ∀ page, Covers data i page → ¬Covers data k page)
    (h : SegmentIn A data (segment data k) (segmentOffset data k) n im im') (hp : Placed data im i) :
    Placed data im' i := by
  have hpages : ∀ j < (segment data i).pages, Paging.UserAddr ((segment data i).vaddr + j * Paging.PAGE_SIZE) ∧
      ¬Covers data k (Paging.IDX ((segment data i).vaddr + j * Paging.PAGE_SIZE)) := fun j hj => by
    refine ⟨hi.user hj, hap _ ?_⟩
    unfold Covers Paging.Within
    rw [Paging.idx_pages]
    omega
  have hbytes : ∀ j < max (segment data i).memsz (segment data i).filesz,
      im'.memory ((segment data i).vaddr + j) = im.memory ((segment data i).vaddr + j) := fun j hj => by
    have hc := hap _ (hi.within (Nat.le_add_right _ j) (by omega))
    rw [h.memory]
    refine filled_of_ne ?_ _
    by_contra hin
    exact hc (hk.within (by omega) (by omega))
  refine ⟨fun j hj => ?_, fun j hj => ?_, fun j h1 h2 => ?_, fun hro j hj => ?_⟩
  · rw [h.stays.mapped (hpages j hj).1 (hpages j hj).2]
    exact hp.mapped j hj
  · rw [hbytes j (by omega)]
    exact hp.bytes j hj
  · rw [hbytes j (by omega)]
    exact hp.zeros j h1 h2
  · have he := (h.stays.entry (hpages j hj).1 (hpages j hj).2 (hp.mapped j hj)).2
    unfold Paging.ReadOnly
    rw [he]
    exact hp.protect hro j hj

/-- The segment that is loaded is in place. -/
theorem SegmentIn.placed (h : SegmentIn A data (segment data k) (segmentOffset data k) n im im') :
    Placed data im' k := by
  refine ⟨h.mapped, fun j hj => ?_, fun j h1 h2 => ?_, h.protect⟩
  · rw [h.memory, filled, copyIn_of_ne (by omega), copyIn_of_mem (by omega) (by omega), Nat.add_sub_cancel_left]
  · rw [h.memory, filled, copyIn_of_mem (by omega) (by omega)]

/-- **One segment more.** -/
theorem Stage.next (hw : InOrder data size) (hk : k < headerCount data) (hall : ∀ i ≤ k, IsLoad data i)
    (h : Stage A data im₀ im k m) (hin : SegmentIn A data (segment data k) (segmentOffset data k) n im im') :
    Stage A data im₀ im' (k + 1) n := by
  have hload := hall k (Nat.le_refl k)
  have hinside := hw.inside k hk hload
  refine ⟨h.headed.next hw hk hload hin, fun i hi => ?_, fun a ha => ?_, ?_, hin.fits, ?_, hin.brk.trans h.brk,
    hin.room⟩
  · by_cases e : i = k
    · rw [e]
      exact hin.placed
    · have hi' : i < k := by omega
      exact (h.placed i hi').next (hw.inside i (by omega) (hall i (by omega))) hinside
        (hw.apart i (by omega) k hk (hall i (by omega)) hload e) hin
  · rw [hin.memory, filled_of_ne ?_, h.memory a fun i hi => ha i (by omega)]
    by_contra hno
    exact ha k (Nat.lt_succ_self k) (hinside.within (by omega) (by omega))
  · refine (h.stays.mono ?_).trans (hin.stays.mono ?_)
    · exact fun page ⟨i, hi, hc⟩ => ⟨i, Nat.lt_succ_of_lt hi, hc⟩
    · exact fun page hc => ⟨k, Nat.lt_succ_self k, hc⟩
  · rw [hin.end_, h.end_, top, if_pos hload]

theorem leadingFrom_le (data : Bytes) (n k : Nat) : k ≤ leadingFrom data n k ∧ leadingFrom data n k ≤ k + n := by
  induction n generalizing k with
  | zero => exact ⟨Nat.le_refl k, Nat.le_refl k⟩
  | succ n ih =>
    unfold leadingFrom
    have := ih (k + 1)
    split <;> omega

theorem leading_le (data : Bytes) : leading data ≤ headerCount data :=
  (leadingFrom_le data (headerCount data) 0).2.trans (Nat.zero_add _).le

theorem isLoad_leadingFrom {n k : Nat} (h1 : k ≤ i) (h2 : i < leadingFrom data n k) : IsLoad data i := by
  induction n generalizing k with
  | zero => exact absurd h2 (Nat.not_lt.mpr h1)
  | succ n ih =>
    unfold leadingFrom at h2
    split at h2
    · next hk =>
        by_cases e : i = k
        · rwa [e]
        · exact ih (by omega) h2
    · exact absurd h2 (Nat.not_lt.mpr h1)

theorem pagesBelow_le (data : Bytes) (h : k ≤ n) : pagesBelow data k ≤ pagesBelow data n := by
  induction n with
  | zero =>
    obtain rfl : k = 0 := Nat.le_zero.mp h
    exact Nat.le_refl _
  | succ n ih =>
    by_cases e : k = n + 1
    · rw [e]
    · exact Nat.le_trans (ih (by omega)) (Nat.le_add_right _ _)

/-- **A header of another type**: the loop does not move on from it. -/
theorem loadSegments_stuck (hw : InOrder data size) (hk : k < headerCount data) (hno : ¬IsLoad data k)
    (hhead : Headed data im) (hi : i ≤ headerCount data) (hfuel : headerCount data < fuel + i) :
    Returns (run (loadSegments x fuel im i (ptrAt k)) t) fun r => r = (im, t) := by
  induction fuel generalizing i with
  | zero => omega
  | succ fuel ih =>
    unfold loadSegments
    rw [hhead.phnum]
    split
    · exact returns_ok.mpr rfl
    · have hptr := hw.ptrAt_le hk
      have htype : fetch im.memory (ptrAt k) 4 = fetch data (headerOffset data k) 4 :=
        hhead.field (p := 0) hk (by decide)
      rw [returns_then, returns_lift, touch_headers hhead.page (ptrAt_low k) (by unfold PHDR_SIZE at hptr; omega),
        returns_ok]
      dsimp only
      rw [htype, if_pos (show fetch data (headerOffset data k) 4 ≠ PT_LOAD from hno)]
      exact ih (by omega) (by omega)

/-- **The loop** loads the segments before the first header of another type. -/
theorem loadSegments_returns (hs : CountsKept s) (hfile : ISFILE (s.desc x .mode) = true)
    (hdata : s.fileBytes x = data) (hw : InOrder data (s.desc x .size))
    (hn : k + n = headerCount data) (hall : ∀ i < k, IsLoad data i)
    (hthere : ∀ i, k ≤ i → i < leadingFrom data n k → s.There x (segmentOffset data i) (segment data i).filesz)
    (h : Stage A data im₀ im k (room + 2 * (pagesBelow data (headerCount data) - pagesBelow data k)))
    (hb : Borrowed [] s t) (hfuel : n < fuel) :
    Returns (run (loadSegments x fuel im k (ptrAt k)) t) fun r =>
      Stage A data im₀ r.1 (leadingFrom data n k) room ∧ Borrowed [] s r.2 := by
  induction n generalizing k im t fuel with
  | zero =>
    have hheaded := h.headed
    obtain ⟨fuel, rfl⟩ : ∃ f, fuel = f + 1 := ⟨fuel - 1, by omega⟩
    unfold loadSegments
    rw [hheaded.phnum, if_pos (by omega)]
    exact returns_ok.mpr ⟨h.mono (Nat.le_add_right _ _), hb⟩
  | succ n ih =>
    have hk : k < headerCount data := by omega
    have hheaded := h.headed
    obtain ⟨fuel, rfl⟩ : ∃ f, fuel = f + 1 := ⟨fuel - 1, by omega⟩
    by_cases hload : IsLoad data k
    · have hall' : ∀ i < k + 1, IsLoad data i := fun i hi => by
        by_cases e : i = k
        · rwa [e]
        · exact hall i (by omega)
      have hfrom : leadingFrom data (n + 1) k = leadingFrom data n (k + 1) := by rw [leadingFrom, if_pos hload]
      have hlead := (leadingFrom_le data n (k + 1)).1
      have hptr := hw.ptrAt_le hk
      have htype : fetch im.memory (ptrAt k) 4 = PT_LOAD := (hheaded.field (p := 0) hk (by decide)).trans hload
      have hoff : fetch im.memory (ptrAt k + 4) 4 = segmentOffset data k := hheaded.field hk (by decide)
      have hin := hw.inside k hk hload
      have hpages := pagesBelow_le data hk
      have hlen := hw.readLen_segment hk hload
      rw [hfrom] at hthere ⊢
      unfold loadSegments
      rw [hheaded.phnum, if_neg (by omega), returns_then, returns_lift,
        touch_headers hheaded.page (ptrAt_low k) (by unfold PHDR_SIZE at hptr; omega), returns_ok]
      dsimp only
      rw [if_neg (by simpa using htype), returns_then]
      refine (loadSegment_returns (n := room + 2 * (pagesBelow data (headerCount data) - pagesBelow data (k + 1)))
        hs hb hfile h.fits (ptrAt_low k) hptr hheaded.page (hheaded.phdr hk) hoff hin hlen
        (hthere k (Nat.le_refl k) hlead) ?_ fun a h1 h2 =>
          hdata.symm ▸ filled_header hw hk hload hheaded h1 h2).mono fun ⟨im', u⟩ _ ⟨hseg, hu⟩ => ?_
      · have hroom := h.room
        rw [pagesBelow, if_pos hload] at hpages ⊢
        refine hroom.mono ?_
        omega
      · rw [← ptrAt_succ]
        have hnext := h.next hw hk (fun i hi => hall' i (by omega)) (hdata ▸ hseg)
        exact ih (by omega) hall' (fun i hi => hthere i (by omega)) hnext hu (by omega)
    · have hfrom : leadingFrom data (n + 1) k = k := by rw [leadingFrom, if_neg hload]
      rw [hfrom]
      refine (loadSegments_stuck hw hk hload hheaded hk.le (by omega)).mono fun r _ hr => ?_
      rw [hr]
      exact ⟨h.mono (Nat.le_add_right _ _), hb⟩

end Loop

/-! ## 6. `load_elf` -/

/-- **A process whose heap is freed** for a new program. -/
structure Emptied (A : Finset Nat) (im : Image) : Prop where
  fits : Paging.Fits A im.space
  unmapped : ∀ v, Paging.USER_EXEC_ADDR ≤ v → v < Paging.USER_MMAP_ADDR → im.space.mapped v = false
  end_ : im.proc.end_ = Paging.USER_EXEC_ADDR
  brk : im.proc.brk = Paging.USER_EXEC_ADDR

/-- The bytes `load_elf` reads to the page of the headers: the ELF header, and then the table. -/
def headerBytes (data memory : Bytes) : Bytes := copyIn memory Paging.USER_EXEC_ADDR data EHDR_SIZE

def tableBytes (data memory : Bytes) : Bytes :=
  copyIn (headerBytes data memory) (Paging.USER_EXEC_ADDR + EHDR_SIZE) (fun j => data (tableOffset data + j))
    (headerCount data * PHDR_SIZE)

/-- Only the page of the headers has been written to, and `memory` is what it was given. -/
structure HeaderIn (A : Finset Nat) (im im' : Image) (memory : Bytes) (n : Nat) : Prop where
  fits : Paging.Fits A im'.space
  page : im'.space.mapped Paging.USER_EXEC_ADDR = true
  stays : Paging.Stays (· = Paging.IDX Paging.USER_EXEC_ADDR) im.space im'.space
  memory : im'.memory = memory
  end_ : im'.proc.end_ = im.proc.end_
  brk : im'.proc.brk = im.proc.brk
  room : Paging.Room im'.mem n

section LoadElf

variable {A : Finset Nat} {s t u : Kernel} {data : Bytes} {im im₀ im' : Image} {x n size : Nat}

/-- `elf_validate` looks at the ELF header only. -/
theorem elfValidate_congr {b b' : Bytes} {p q : Nat} (h : ∀ j < EHDR_SIZE, b (p + j) = b' (q + j)) :
    elfValidate b p = elfValidate b' q := by
  have hf : ∀ {k n : Nat}, k + n ≤ EHDR_SIZE → fetch b (p + k) n = fetch b' (q + k) n := fun hk =>
    fetch_shift fun j hj => by
      rw [Nat.add_assoc, Nat.add_assoc]
      exact h _ (by omega)
  unfold elfValidate
  rw [hf (by decide), hf (by decide), hf (by decide), hf (by decide)]
  simp [show b p = b' q from h 0 (by decide), h 1 (by decide), h 2 (by decide), h 3 (by decide), h 4 (by decide),
    h 5 (by decide), h 6 (by decide)]

/-- **The ELF header is read.** -/
theorem loadElf_header (hs : CountsKept s) (hb : Borrowed [] s t) (hfile : ISFILE (s.desc x .mode) = true)
    (hdata : s.fileBytes x = data) (hem : Emptied A im) (hr : Paging.Room im.mem (n + 2))
    (hsize : EHDR_SIZE ≤ s.desc x .size) (hthere : s.There x 0 EHDR_SIZE) :
    ∃ im₁ u, HeaderIn A im im₁ (headerBytes data im.memory) n ∧ Borrowed [] s u ∧
      run (loadElf x im) t = if elfValidate data 0 then run (loadHeaders x im₁) u else .ok ((none, im₁), u) := by
  obtain ⟨S, h1, hf, hstays, hm, hroom⟩ := Paging.linkPage_links (n := n) hem.fits
    (v := Paging.USER_EXEC_ADDR) ⟨Nat.le_refl _, by decide⟩ (by decide) hr
  have hlen : readLen (s.desc x .size) 0 EHDR_SIZE = EHDR_SIZE := by
    unfold readLen
    omega
  have htouch : touch (im.setSpace S) Paging.USER_EXEC_ADDR EHDR_SIZE = .ok (im.setSpace S) :=
    touch_headers hm (Nat.le_refl _) (by decide)
  obtain ⟨⟨⟨m, im₁⟩, u⟩, hrun, ⟨hm52, hnone⟩, him₁, hu⟩ := readTo_returns hs hb hfile hlen hthere htouch
  dsimp only at hm52 hnone him₁ hu
  obtain rfl : m = some EHDR_SIZE := by
    cases m with
    | none =>
      have := hnone.mp rfl
      unfold EHDR_SIZE at hsize
      omega
    | some m => exact congrArg some hm52
  have hmemory : im₁.memory = headerBytes data im.memory := by
    rw [him₁, hdata]
    simp only [Nat.zero_add]
    rfl
  refine ⟨im₁, u, ⟨?_, ?_, ?_, hmemory, ?_, ?_, ?_⟩, hu, ?_⟩
  · rw [him₁]
    exact hf
  · rw [him₁]
    exact hm
  · rw [him₁]
    exact hstays
  · rw [him₁]
    rfl
  · rw [him₁]
    rfl
  · rw [him₁]
    exact hroom
  have hvalid : elfValidate im₁.memory Paging.USER_EXEC_ADDR = elfValidate data 0 := by
    refine elfValidate_congr fun j hj => ?_
    rw [hmemory, headerBytes, copyIn_of_mem (Nat.le_add_right _ _) (by omega), Nat.add_sub_cancel_left, Nat.zero_add]
  unfold loadElf
  rw [h1, run_then (show run (Code.lift (.ok S)) t = .ok (S, t) from rfl), run_then hrun]
  dsimp only
  rw [run_then (show run (Code.assert (some EHDR_SIZE = some EHDR_SIZE)) u = .ok ((), u) from by simp [Code.assert]; rfl),
    hvalid]
  cases elfValidate data 0 <;> rfl

/-- A number of the ELF header, where it is in memory. -/
theorem header_number {memory : Bytes} {p k : Nat} (hn : p + k ≤ EHDR_SIZE) :
    fetch (headerBytes data memory) (Paging.USER_EXEC_ADDR + p) k = fetch data p k :=
  fetch_shift fun j hj => by
    rw [headerBytes, copyIn_of_mem (by omega) (by omega), Nat.add_assoc, Nat.add_sub_cancel_left]

/-- **The table is read**, and all headers are in memory. -/
theorem loadHeaders_table (hs : CountsKept s) (hb : Borrowed [] s t) (hfile : ISFILE (s.desc x .mode) = true)
    (hdata : s.fileBytes x = data) (hw : InOrder data (s.desc x .size))
    (h : HeaderIn A im im₀ (headerBytes data im.memory) n)
    (hthere : s.There x (tableOffset data) (headerCount data * PHDR_SIZE)) :
    ∃ im₁ u, HeaderIn A im im₁ (tableBytes data im.memory) n ∧ Headed data im₁ ∧ Borrowed [] s u ∧
      run (loadHeaders x im₀) t = run (do
        let im ← loadSegments x ROUNDS im₁ 0 (ptrAt 0)
        return (entryPoint im.memory, im)) u := by
  have hpage := hw.page
  have hcount : phnum im₀.memory = headerCount data := by
    rw [h.memory]
    exact header_number (by decide)
  have hoffset : fetch im₀.memory (Paging.USER_EXEC_ADDR + 28) 4 = tableOffset data := by
    rw [h.memory]
    exact header_number (by decide)
  have hlen := hw.readLen_table
  have htouch : touch im₀ (Paging.USER_EXEC_ADDR + EHDR_SIZE) (headerCount data * PHDR_SIZE) = .ok im₀ :=
    touch_headers h.page (by decide) (by omega)
  obtain ⟨⟨⟨m, im₁⟩, u⟩, hrun, -, him₁, hu⟩ := readTo_returns hs hb hfile hlen hthere htouch
  dsimp only at him₁ hu
  have hmemory : im₁.memory = tableBytes data im.memory := by
    rw [him₁, hdata, h.memory]
    rfl
  have hin : HeaderIn A im im₁ (tableBytes data im.memory) n := by
    refine ⟨?_, ?_, ?_, hmemory, ?_, ?_, ?_⟩ <;> rw [him₁]
    · exact h.fits
    · exact h.page
    · exact h.stays
    · exact h.end_
    · exact h.brk
    · exact h.room
  refine ⟨im₁, u, hin, ⟨hin.page, fun j hj => ?_⟩, hu, ?_⟩
  · rw [hmemory, tableBytes]
    by_cases hlt : j < EHDR_SIZE
    · rw [copyIn_of_ne (by omega), headerBytes, copyIn_of_mem (Nat.le_add_right _ _) (by omega),
        Nat.add_sub_cancel_left, headerByte_header hlt]
    · obtain ⟨i, rfl⟩ := Nat.exists_eq_add_of_le (Nat.not_lt.mp hlt)
      rw [← Nat.add_assoc, copyIn_of_mem (Nat.le_add_right _ _) (by omega), Nat.add_sub_cancel_left,
        headerByte_table]
  · unfold loadHeaders
    rw [hcount, hoffset]
    exact run_then hrun

/-- The loop starts with no segment in place. -/
theorem HeaderIn.stage_start {memory : Bytes}
    (h : HeaderIn A im im₀ memory (2 * pagesBelow data (headerCount data))) (hhead : Headed data im₀)
    (hem : Emptied A im) : Stage A data im₀ im₀ 0 (0 + 2 * (pagesBelow data (headerCount data) - pagesBelow data 0)) := by
  refine Loader.stage_start hhead h.fits (h.end_.trans hem.end_) (h.room.mono ?_)
  rw [pagesBelow]
  omega

/-- The entry point that the file names. -/
def entry (data : Bytes) : Option Nat := if fetch data 24 4 = EOF then none else some (fetch data 24 4)

/-- **The file is loaded** up to the first header of another type. -/
structure LoadedFile (A : Finset Nat) (data : Bytes) (im im' : Image) : Prop where
  start : ∃ im₀, HeaderIn A im im₀ (tableBytes data im.memory) (2 * pagesBelow data (headerCount data)) ∧
    Stage A data im₀ im' (leading data) 0

/-- **`load_elf`** of a well-formed file. -/
theorem loadElf_returns (hs : CountsKept s) (hb : Borrowed [] s t) (hfile : ISFILE (s.desc x .mode) = true)
    (hdata : s.fileBytes x = data) (hem : Emptied A im) (hvalid : elfValidate data 0 = true)
    (hw : InOrder data (s.desc x .size)) (hsize : EHDR_SIZE ≤ s.desc x .size)
    (hr : Paging.Room im.mem (2 * pagesBelow data (headerCount data) + 2)) (hhead : s.There x 0 EHDR_SIZE)
    (htable : s.There x (tableOffset data) (headerCount data * PHDR_SIZE))
    (hthere : ∀ i < leading data, s.There x (segmentOffset data i) (segment data i).filesz) :
    Returns (run (loadElf x im) t) fun r =>
      r.1.1 = entry data ∧ LoadedFile A data im r.1.2 ∧ Borrowed [] s r.2 := by
  obtain ⟨im₀, u₀, h₀, hb₀, hrun₀⟩ := loadElf_header hs hb hfile hdata hem hr hsize hhead
  rw [hrun₀, if_pos hvalid]
  obtain ⟨im₁, u₁, h₁, hhead₁, hb₁, hrun₁⟩ := loadHeaders_table hs hb₀ hfile hdata hw h₀ htable
  rw [hrun₁, returns_then]
  have hstart := h₁.stage_start hhead₁ hem
  have hcount : headerCount data < ROUNDS := fetch_lt data 44 2
  refine (loadSegments_returns hs hfile hdata hw (Nat.zero_add _) nofun
    (fun i _ hi => hthere i hi) hstart hb₁ hcount).mono fun ⟨im', u⟩ _ ⟨hst, hu⟩ => ?_
  exact returns_ok.mpr ⟨hst.headed.entryPoint, ⟨im₁, h₁, hst⟩, hu⟩

/-! ## 7. All segments -/

/-- **Every `PT_LOAD` segment of the table is in place**, and `task->end` is the highest end. -/
structure AllPlaced (data : Bytes) (im : Image) : Prop where
  placed : ∀ i < headerCount data, IsLoad data i → Placed data im i
  end_ : im.proc.end_ = top data (headerCount data)

/-- **No `PT_LOAD` header behind a header of another type matters**: its segment has no bytes, and does not
    end above the segments before. -/
structure NoneHidden (data : Bytes) : Prop where
  empty : ∀ i, leading data ≤ i → i < headerCount data → IsLoad data i → (segment data i).memsz = 0
  top : top data (headerCount data) = top data (leading data)

/-- A segment without bytes is in place. -/
theorem placed_empty {k : Nat} (h1 : (segment data k).filesz ≤ (segment data k).memsz)
    (h0 : (segment data k).memsz = 0) : Placed data im k := by
  have hfile : (segment data k).filesz = 0 := by omega
  have hpages : (segment data k).pages = 0 := by
    unfold Paging.Phdr.pages
    rw [hfile, h0]
    rfl
  refine ⟨fun j hj => ?_, fun j hj => ?_, fun j _ hj => ?_, fun _ j hj => ?_⟩
  · exact absurd hj (by omega)
  · exact absurd hj (by omega)
  · exact absurd hj (by omega)
  · exact absurd hj (by omega)

/-- **A segment with bytes behind a header of another type** has no page. -/
theorem LoadedFile.hidden {k : Nat} (h : LoadedFile A data im im') (hem : Emptied A im)
    (hw : WellFormed data size) (hk : leading data ≤ k) (hk' : k < headerCount data) (hload : IsLoad data k)
    (h0 : (segment data k).memsz ≠ 0) : ¬Placed data im' k := by
  intro hplaced
  obtain ⟨im₀, hin, hst⟩ := h.start
  have hinside := hw.inside k hk' hload
  have hlow := hinside.low
  have hhigh := hinside.high
  have hcovers : Covers data k (Paging.IDX (segment data k).vaddr) :=
    hinside.within (Nat.le_refl _) (by omega)
  have hu : Paging.UserAddr (segment data k).vaddr := Paging.userAddr_of_heap (by omega) (by omega)
  have hnot : ¬∃ i < leading data, Covers data i (Paging.IDX (segment data k).vaddr) := by
    rintro ⟨i, hi, hc⟩
    exact hw.apart i (by omega) k hk' (isLoad_leadingFrom (Nat.zero_le i) hi) hload (by omega) _ hc hcovers
  have hmapped := hinside.mapped_byte hplaced.mapped (Nat.le_refl _) (by omega)
  rw [hst.stays.mapped hu hnot, hin.stays.mapped hu (hinside.bounds hcovers).ne',
    hem.unmapped _ (by omega) (by omega)] at hmapped
  cases hmapped

/-- Whatever a run of `load_elf` leaves, that is what it leaves. -/
theorem loadElf_ends {r : Option Nat} {u : Kernel} (hs : CountsKept s) (hfile : ISFILE (s.desc x .mode) = true)
    (hdata : s.fileBytes x = data) (hem : Emptied A im) (hvalid : elfValidate data 0 = true)
    (hw : WellFormed data (s.desc x .size)) (hsize : EHDR_SIZE ≤ s.desc x .size)
    (hr : Paging.Room im.mem (2 * pagesBelow data (headerCount data) + 2)) (hhead : s.There x 0 EHDR_SIZE)
    (htable : s.There x (tableOffset data) (headerCount data * PHDR_SIZE))
    (hthere : ∀ i < leading data, s.There x (segmentOffset data i) (segment data i).filesz)
    (h : Ends (loadElf x im) s (r, im') u) : r = entry data ∧ LoadedFile A data im im' ∧ Borrowed [] s u := by
  obtain ⟨⟨⟨r₁, im₁⟩, t⟩, hrun, hentry, hl, hb⟩ := loadElf_returns hs (.refl s) hfile hdata hem hvalid hw.inOrder hsize hr
    hhead htable hthere
  obtain ⟨e, rfl⟩ := ends_unique h (ends_iff.mpr hrun)
  obtain ⟨rfl, rfl⟩ := Prod.mk.inj e
  exact ⟨hentry, hl, hb⟩

/-- **A `PT_LOAD` header with bytes behind a header of another type** is left out. -/
theorem segments_hidden {k : Nat} (hs : CountsKept s) (hfile : ISFILE (s.desc x .mode) = true)
    (hdata : s.fileBytes x = data) (hem : Emptied A im) (hvalid : elfValidate data 0 = true)
    (hw : WellFormed data (s.desc x .size)) (hsize : EHDR_SIZE ≤ s.desc x .size)
    (hr : Paging.Room im.mem (2 * pagesBelow data (headerCount data) + 2)) (hhead : s.There x 0 EHDR_SIZE)
    (htable : s.There x (tableOffset data) (headerCount data * PHDR_SIZE))
    (hthere : ∀ i < leading data, s.There x (segmentOffset data i) (segment data i).filesz)
    (hk : leading data ≤ k) (hk' : k < headerCount data) (hload : IsLoad data k) (h0 : (segment data k).memsz ≠ 0) :
    ¬∃ r im' t, Ends (loadElf x im) s (r, im') t ∧ AllPlaced data im' := by
  rintro ⟨r, im', t, h, hplaced⟩
  obtain ⟨-, hl, -⟩ := loadElf_ends hs hfile hdata hem hvalid hw hsize hr hhead htable hthere h
  exact hl.hidden hem hw hk hk' hload h0 (hplaced.placed k hk' hload)

/-- **When `load_elf` places every segment**: when no `PT_LOAD` header that says anything stands behind a
    header of another type. -/
theorem segments_placed (hs : CountsKept s) (hfile : ISFILE (s.desc x .mode) = true) (hdata : s.fileBytes x = data)
    (hem : Emptied A im) (hr : Paging.Room im.mem (2 * pagesBelow data (headerCount data) + 2))
    (hvalid : elfValidate data 0 = true) (hsize : EHDR_SIZE ≤ s.desc x .size)
    (hw : WellFormed data (s.desc x .size))
    (hsizes : ∀ i < headerCount data, IsLoad data i → (segment data i).filesz ≤ (segment data i).memsz)
    (hhead : s.There x 0 EHDR_SIZE) (htable : s.There x (tableOffset data) (headerCount data * PHDR_SIZE))
    (hthere : ∀ i < headerCount data, IsLoad data i → s.There x (segmentOffset data i) (segment data i).filesz) :
    (∃ r im' t, Ends (loadElf x im) s (r, im') t ∧ AllPlaced data im') ↔ NoneHidden data := by
  have hle : leading data ≤ headerCount data := leading_le data
  have hall : ∀ i < leading data, IsLoad data i := fun i hi => isLoad_leadingFrom (Nat.zero_le i) hi
  have hthere' : ∀ i < leading data, s.There x (segmentOffset data i) (segment data i).filesz := fun i hi =>
    hthere i (by omega) (hall i hi)
  obtain ⟨⟨⟨r, im'⟩, t⟩, hrun, -, hl, -⟩ := loadElf_returns hs (.refl s) hfile hdata hem hvalid hw.inOrder hsize hr hhead
    htable hthere'
  have hends : Ends (loadElf x im) s (r, im') t := ends_iff.mpr hrun
  obtain ⟨im₀, -, hst⟩ := hl.start
  constructor
  · intro hplaced
    refine ⟨fun i h1 h2 hload => ?_, ?_⟩
    · by_contra h0
      exact segments_hidden hs hfile hdata hem hvalid hw hsize hr hhead htable hthere' h1 h2 hload h0 hplaced
    · obtain ⟨r₂, im₂, t₂, h₂, hplaced⟩ := hplaced
      obtain ⟨e, -⟩ := ends_unique hends h₂
      obtain ⟨-, rfl⟩ := Prod.mk.inj e
      exact hplaced.end_.symm.trans hst.end_
  · intro hnone
    refine ⟨r, im', t, hends, fun i hi hload => ?_, hst.end_.trans hnone.top.symm⟩
    by_cases hlead : i < leading data
    · exact hst.placed i hlead
    · exact placed_empty (hsizes i hi hload) (hnone.empty i (by omega) hi hload)

end LoadElf

/-! ## A program of two headers -/

/-- A program header at `ptr`. -/
def putHeader (ptr type offset vaddr size flags : Nat) (b : Bytes) : Bytes :=
  let b := store (store (store b ptr 4 type) (ptr + 4) 4 offset) (ptr + 8) 4 vaddr
  store (store (store (store b (ptr + 16) 4 size) (ptr + 20) 4 size) (ptr + 24) 4 flags) (ptr + 28) 4 0x1000

/-- An ELF header with `count` program headers behind it. -/
def putElf (count : Nat) (b : Bytes) : Bytes :=
  let b := copyIn b 0 (ofString [0o177, 69, 76, 70, 1, 1, 1]) 7
  let b := store (store (store b 16 2 ET_EXEC) 18 2 EM_386) 20 4 EV_CURRENT
  store (store (store (store b 24 4 0x1001000) 28 4 EHDR_SIZE) 42 2 PHDR_SIZE) 44 2 count

/-- Two headers with these types: the segments have one byte each. -/
def twoHeaders (first second : Nat) : Bytes :=
  putElf 2 (putHeader 52 first 116 0x1001000 1 5 (putHeader 84 second 117 0x1002000 1 6 fun _ => 0))

/-- The volume with such a file of `size` bytes, which slot 1 holds in memory. -/
def programKernel (image : Bytes) (size : Nat) : Kernel :=
  { Sample.kernelFile fun _ _ => 0 with
    cache :=
      { disk := fun k =>
          if k = ⟨Sample.dev, 4⟩ then Sample.descriptor 32 (IFREG + 0o755) size 1 6 fun _ => 0
          else if k = ⟨Sample.dev, 6⟩ then image
          else fun _ => 0
        buf := (Sample.kernelFile fun _ _ => 0).cache.buf } }

theorem programKernel_counts (image : Bytes) (size : Nat) : CountsKept (programKernel image size) := fun k => by
  show 0 ≤ if k = ⟨Sample.dev, 4⟩ then (2 : Int) else 0
  split <;> decide

/-- A process that has nothing mapped. -/
def emptyProcess : Image where
  name := fun _ => 0
  memory := fun _ => 0
  mem := (Paging.bootState 4400).mem
  proc := Paging.taskToUserMode

theorem emptyProcess_emptied : ∃ A, Emptied A emptyProcess := by
  have hrun : Paging.Kept 4400 (Paging.born (Paging.bootState 4400) (Paging.bootState 4400).mem 1
      Paging.taskToUserMode) :=
    .step (.boot (Paging.boot_bootState (by decide) (by decide))) (.start 1) rfl rfl rfl
  exact ⟨_, ⟨(Paging.kept_held hrun).fits (p := 1) rfl, fun _ _ _ => rfl, rfl, rfl⟩⟩

theorem emptyProcess_room {n : Nat} (hn : n ≤ 304) : Paging.Room emptyProcess.mem n := by
  have hfree : Finset.Ico 4096 4400 ⊆ Paging.freeFrames emptyProcess.mem := fun f hf => by
    obtain ⟨h1, h2⟩ := Finset.mem_Ico.mp hf
    refine Finset.mem_filter.mpr ⟨Finset.mem_Ico.mpr ⟨?_, h2⟩, ?_⟩
    · exact Nat.le_trans (by decide) h1
    · exact if_neg (Nat.not_lt.mpr h1)
  have hcard := Finset.card_le_card hfree
  rw [Nat.card_Ico] at hcard
  exact ⟨Nat.le_trans hn hcard, Nat.lt_of_le_of_lt hn (by decide), by decide⟩

instance (ph : Paging.Phdr) : Decidable (InMemory ph) :=
  decidable_of_iff (ph.align = 0x1000 ∧ ph.vaddr % Paging.PAGE_SIZE = 0 ∧
      Paging.USER_EXEC_ADDR ≤ ph.vaddr ∧ ph.vaddr + max ph.memsz ph.filesz ≤ Paging.USER_MMAP_ADDR)
    ⟨fun ⟨h1, h2, h3, h4⟩ => ⟨h1, h2, h3, h4⟩, fun ⟨h1, h2, h3, h4⟩ => ⟨h1, h2, h3, h4⟩⟩

instance (ph : Paging.Phdr) : Decidable (Inside ph) :=
  decidable_of_iff (InMemory ph ∧ Paging.USER_EXEC_ADDR + Paging.PAGE_SIZE ≤ ph.vaddr)
    ⟨fun ⟨h1, h2⟩ => ⟨h1, h2⟩, fun h => ⟨h.toInMemory, h.behind⟩⟩

/-- The program with one `PT_LOAD` among its two headers. -/
def oneSegment (first second : Nat) : Kernel := programKernel (twoHeaders first second) 118

/-- What can be computed of it. -/
structure OneSegment (first second : Nat) : Prop where
  size : (oneSegment first second).desc 1 .size = 118
  file : ISFILE ((oneSegment first second).desc 1 .mode) = true
  valid : elfValidate ((oneSegment first second).fileBytes 1) 0 = true
  count : headerCount ((oneSegment first second).fileBytes 1) = 2
  offset : tableOffset ((oneSegment first second).fileBytes 1) = 52
  segments : ∀ i < 2, IsLoad ((oneSegment first second).fileBytes 1) i →
    Inside (segment ((oneSegment first second).fileBytes 1) i) ∧
      (segment ((oneSegment first second).fileBytes 1) i).filesz = 1 ∧
      (segment ((oneSegment first second).fileBytes 1) i).memsz = 1 ∧
      segmentOffset ((oneSegment first second).fileBytes 1) i < 118
  one : ∀ i < 2, ∀ j < 2, IsLoad ((oneSegment first second).fileBytes 1) i →
    IsLoad ((oneSegment first second).fileBytes 1) j → i = j
  pages : pagesBelow ((oneSegment first second).fileBytes 1) 2 = 1
  there : (oneSegment first second).There 1 0 118

section OneSegment

variable {first second : Nat}

theorem OneSegment.wellFormed (h : OneSegment first second) :
    WellFormed ((oneSegment first second).fileBytes 1) ((oneSegment first second).desc 1 .size) := by
  rw [h.size]
  refine ⟨fun _ => ?_, ?_, fun i hi hl => ?_, fun i hi hl _ => ?_, fun i hi j hj hl hl' hne => ?_⟩
  · rw [h.count, h.offset]
    decide
  · rw [h.count]
    decide
  · exact (h.segments i (h.count ▸ hi) hl).1
  · obtain ⟨-, h1, -, h2⟩ := h.segments i (h.count ▸ hi) hl
    omega
  · exact absurd (h.one i (h.count ▸ hi) j (h.count ▸ hj) hl hl') hne

theorem OneSegment.piece {p n : Nat} (h : OneSegment first second) (hn : p + n ≤ 118) :
    (oneSegment first second).There 1 p n := fun j hj => by
  have := h.there (p + j) (by omega)
  rwa [Nat.zero_add] at this

theorem OneSegment.room (h : OneSegment first second) : Paging.Room emptyProcess.mem
    (2 * pagesBelow ((oneSegment first second).fileBytes 1) (headerCount ((oneSegment first second).fileBytes 1)) + 2) := by
  refine emptyProcess_room ?_
  rw [h.count, h.pages]
  decide

theorem OneSegment.long (h : OneSegment first second) : EHDR_SIZE ≤ (oneSegment first second).desc 1 .size := by
  rw [h.size]
  decide

theorem OneSegment.table (h : OneSegment first second) : (oneSegment first second).There 1
    (tableOffset ((oneSegment first second).fileBytes 1))
    (headerCount ((oneSegment first second).fileBytes 1) * PHDR_SIZE) := by
  refine h.piece ?_
  rw [h.count, h.offset]
  decide

theorem OneSegment.sizes (h : OneSegment first second) : ∀ i < headerCount ((oneSegment first second).fileBytes 1),
    IsLoad ((oneSegment first second).fileBytes 1) i → (segment ((oneSegment first second).fileBytes 1) i).filesz ≤
      (segment ((oneSegment first second).fileBytes 1) i).memsz := fun i hi hl => by
  obtain ⟨-, h1, h2, -⟩ := h.segments i (h.count ▸ hi) hl
  omega

theorem OneSegment.bytes (h : OneSegment first second) : ∀ i < headerCount ((oneSegment first second).fileBytes 1),
    IsLoad ((oneSegment first second).fileBytes 1) i → (oneSegment first second).There 1
      (segmentOffset ((oneSegment first second).fileBytes 1) i)
      (segment ((oneSegment first second).fileBytes 1) i).filesz := fun i hi hl => by
  obtain ⟨-, h1, -, h2⟩ := h.segments i (h.count ▸ hi) hl
  exact h.piece (by omega)

end OneSegment

theorem oneSegment_first : OneSegment PT_LOAD 0 :=
  ⟨by decide, by decide, by decide, by decide, by decide,
    by decide, by decide, by decide, by unfold Kernel.There; decide⟩

theorem oneSegment_second : OneSegment 0 PT_LOAD :=
  ⟨by decide, by decide, by decide, by decide, by decide,
    by decide, by decide, by decide, by unfold Kernel.There; decide⟩

/-- The `PT_LOAD` header stands first. -/
theorem segments_placed_first : ∃ r im' t, Ends (loadElf 1 emptyProcess) (oneSegment PT_LOAD 0) (r, im') t ∧
    AllPlaced ((oneSegment PT_LOAD 0).fileBytes 1) im' := by
  have h := oneSegment_first
  have hcounts : CountsKept (oneSegment PT_LOAD 0) := programKernel_counts _ _
  obtain ⟨A, hem⟩ := emptyProcess_emptied
  refine (segments_placed hcounts h.file rfl hem h.room h.valid h.long h.wellFormed h.sizes (h.piece (by decide))
    h.table h.bytes).mpr ⟨fun i h1 h2 hl => ?_, ?_⟩
  · have hlead : leading ((oneSegment PT_LOAD 0).fileBytes 1) = 1 := by decide
    have hfirst : IsLoad ((oneSegment PT_LOAD 0).fileBytes 1) 0 := by decide
    have := h.one i (h.count ▸ h2) 0 (by decide) hl hfirst
    omega
  · decide

/-- **A `PT_NULL` header stands before the `PT_LOAD`**: the segment is not there. -/
theorem segments_placed_not_always : ¬ ∀ (A : Finset Nat) (s : Kernel) (x : Nat) (data : Bytes) (im : Image),
    CountsKept s → ISFILE (s.desc x .mode) = true → s.fileBytes x = data → Emptied A im →
    Paging.Room im.mem (2 * pagesBelow data (headerCount data) + 2) → elfValidate data 0 = true →
    EHDR_SIZE ≤ s.desc x .size → WellFormed data (s.desc x .size) →
    (∀ i < headerCount data, IsLoad data i → (segment data i).filesz ≤ (segment data i).memsz) →
    s.There x 0 EHDR_SIZE → s.There x (tableOffset data) (headerCount data * PHDR_SIZE) →
    (∀ i < headerCount data, IsLoad data i → s.There x (segmentOffset data i) (segment data i).filesz) →
    ∃ r im' t, Ends (loadElf x im) s (r, im') t ∧ AllPlaced data im' := by
  intro hall
  have h := oneSegment_second
  have hcounts : CountsKept (oneSegment 0 PT_LOAD) := programKernel_counts _ _
  have hlead : leading ((oneSegment 0 PT_LOAD).fileBytes 1) = 0 := by decide
  have hload : IsLoad ((oneSegment 0 PT_LOAD).fileBytes 1) 1 := by decide
  have h1 : 1 < headerCount ((oneSegment 0 PT_LOAD).fileBytes 1) := by
    rw [h.count]
    decide
  have hle : leading ((oneSegment 0 PT_LOAD).fileBytes 1) ≤ 1 := by
    rw [hlead]
    exact Nat.zero_le 1
  have hnone : ∀ i < leading ((oneSegment 0 PT_LOAD).fileBytes 1), (oneSegment 0 PT_LOAD).There 1
      (segmentOffset ((oneSegment 0 PT_LOAD).fileBytes 1) i)
      (segment ((oneSegment 0 PT_LOAD).fileBytes 1) i).filesz := by
    rw [hlead]
    exact fun i hi => absurd hi (Nat.not_lt_zero i)
  obtain ⟨-, -, hmem, -⟩ := h.segments 1 (by decide) hload
  have hne : (segment ((oneSegment 0 PT_LOAD).fileBytes 1) 1).memsz ≠ 0 := by
    rw [hmem]
    exact Nat.one_ne_zero
  obtain ⟨A, hem⟩ := emptyProcess_emptied
  exact segments_hidden hcounts h.file rfl hem h.valid h.wellFormed h.long h.room (h.piece (by decide)) h.table hnone
    hle h1 hload hne (hall A (oneSegment 0 PT_LOAD) 1 _ emptyProcess hcounts h.file rfl hem h.room h.valid h.long
      h.wellFormed h.sizes (h.piece (by decide)) h.table h.bytes)

end Yuios.Loader
