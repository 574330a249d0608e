/-
  File:      Yuios/Fs/Reads.lean
  Subject:   READING ANY FILE: which calls of `inode_read` come to their end, whatever blocks the file has.

  * `Kernel.fileBytes` -- the bytes of a file, through its block map.
  * `Kernel.There` -- a piece of the file lies in blocks that are there.
  * `readLen` -- how many bytes are read.
  * **`inodeRead_returns`, `inodeRead_there`** -- the call returns exactly where what it reads is there.
-/
import Yuios.Fs.Content
import Yuios.Fs.FullName

namespace Yuios

open Lib Prog Code

/-- The bytes of the file `x`. -/
def Kernel.fileBytes (s : Kernel) (x : Nat) : Bytes :=
  flat BLOCK_SIZE fun b => s.view ⟨(s.tab.inodeTable x).dev, (s.tab.inodeTable x).zone s.view b⟩

/-- The `n` bytes from `p` on lie in blocks that are there. -/
def Kernel.There (s : Kernel) (x p n : Nat) : Prop :=
  ∀ j < n, (p + j) / BLOCK_SIZE < TOTAL_BLOCK ∧ (s.tab.inodeTable x).zone s.view ((p + j) / BLOCK_SIZE) ≠ 0

/-- The number of bytes `inode_read` reads of a file of `size` bytes. -/
def readLen (size offset len : Nat) : Nat := min len (size - offset)

section Reads

variable {s t u : Kernel} {ks : List Key} {x fuel left offset done len p n : Nat} {buf : Bytes}

theorem fileBytes_piece {j : Nat} (h : j < BLOCK_SIZE - p % BLOCK_SIZE) : s.fileBytes x (p + j) =
    s.view ⟨(s.tab.inodeTable x).dev, (s.tab.inodeTable x).zone s.view (p / BLOCK_SIZE)⟩ (p % BLOCK_SIZE + j) :=
  flat_piece h

/-- One block further. -/
theorem there_next (hn : n ≠ 0) : s.There x p n ↔
    (p / BLOCK_SIZE < TOTAL_BLOCK ∧ (s.tab.inodeTable x).zone s.view (p / BLOCK_SIZE) ≠ 0) ∧
      s.There x (p + min (BLOCK_SIZE - p % BLOCK_SIZE) n) (n - min (BLOCK_SIZE - p % BLOCK_SIZE) n) := by
  constructor
  · intro h
    have h0 : p / BLOCK_SIZE < TOTAL_BLOCK ∧ _ := h 0 (by omega)
    refine ⟨h0, fun j hj => ?_⟩
    rw [Nat.add_assoc]
    exact h _ (by omega)
  · rintro ⟨h0, hrest⟩ j hj
    by_cases hin : j < BLOCK_SIZE - p % BLOCK_SIZE
    · rw [div_in_block (by omega)]
      exact h0
    · have := hrest (j - min (BLOCK_SIZE - p % BLOCK_SIZE) n) (by omega)
      rwa [show p + min (BLOCK_SIZE - p % BLOCK_SIZE) n + (j - min (BLOCK_SIZE - p % BLOCK_SIZE) n) = p + j by
        omega] at this

/-- **The loop of `inode_read`** on blocks that are there. -/
theorem inodeReadLoop_borrowed (hs : CountsKept s) (h : Borrowed ks s t) (hthere : s.There x offset left)
    (hfuel : left ≤ fuel) : Returns (run (inodeReadLoop x fuel left offset done buf) t) fun r =>
      r.1 = (offset + left, copyIn buf done (fun j => s.fileBytes x (offset + j)) left) ∧ Borrowed ks s r.2 := by
  induction fuel generalizing t left offset done buf with
  | zero =>
    obtain rfl : left = 0 := Nat.le_zero.mp hfuel
    refine returns_ok.mpr ⟨?_, h⟩
    rw [copyIn_zero, Nat.add_zero]
  | succ fuel ih =>
    unfold inodeReadLoop
    by_cases hleft : left = 0
    · subst hleft
      refine returns_ok.mpr ⟨?_, h⟩
      rw [copyIn_zero, Nat.add_zero]
    · obtain ⟨⟨hlt, hzone⟩, hrest⟩ := (there_next hleft).mp hthere
      have hmod : offset % BLOCK_SIZE < BLOCK_SIZE := Nat.mod_lt _ (by decide)
      rw [if_neg hleft, returns_then]
      refine (bmap_borrowed hs x hlt h).mono fun r _ h₁ => ?_
      have hz : r.1 = (s.tab.inodeTable x).zone s.view (offset / BLOCK_SIZE) := by
        rw [h₁.1, h.same.tab, h.same.views]
      rw [returns_then, returns_assertion]
      refine ⟨by rw [hz]; simpa using hzone, ?_⟩
      unfold inodeAt
      rw [returns_then, returns_reads, returns_then]
      refine (bread_borrowed h₁.2 _ _).mono fun r₂ _ h₂ => ?_
      unfold bytesOf
      rw [returns_then, returns_reads, returns_then, h₂.1]
      refine (brelse_borrowed hs h₂.2).mono fun r₃ _ h₃ => ?_
      refine (ih h₃ hrest (by omega)).mono fun r₄ _ h₄ => ⟨?_, h₄.2⟩
      obtain ⟨chars, hchars⟩ : ∃ c, c = min (BLOCK_SIZE - offset % BLOCK_SIZE) left := ⟨_, rfl⟩
      rw [h₄.1, h₂.2.same.views, h₁.2.same.tab, hz, ← hchars]
      -- the rest goes behind the piece
      have hpiece : ∀ j < chars, s.view ⟨(s.tab.inodeTable x).dev, (s.tab.inodeTable x).zone s.view
          (offset / BLOCK_SIZE)⟩ (offset % BLOCK_SIZE + j) = s.fileBytes x (offset + j) :=
        fun j hj => by
          have hin : j < BLOCK_SIZE - offset % BLOCK_SIZE := by omega
          exact (fileBytes_piece hin).symm
      rw [copyIn_congr hpiece]
      have hsum : left = chars + (left - chars) := by omega
      rw [hsum, ← copyIn_append]
      simp only [Nat.add_assoc, ← hsum]

/-- **`inode_read` of what is there.** -/
theorem inodeRead_returns (hs : CountsKept s) (h : Borrowed ks s t) (hfile : ISFILE (s.desc x .mode) = true)
    (hthere : s.There x offset (readLen (s.desc x .size) offset len)) :
    Returns (run (inodeRead x buf len offset) t) fun r =>
      r.1.1.getD 0 = readLen (s.desc x .size) offset len ∧
        (r.1.1 = none ↔ s.desc x .size ≤ offset) ∧
        r.1.2 = copyIn buf 0 (fun j => s.fileBytes x (offset + j)) (readLen (s.desc x .size) offset len) ∧
        Borrowed ks s r.2 := by
  have hdesc : ∀ f, t.desc x f = s.desc x f := fun f => by
    unfold Kernel.desc
    rw [h.same.tab, h.same.views]
  unfold inodeRead
  rw [returns_then, returns_descGet, returns_then, returns_assertion, hdesc]
  refine ⟨by rw [hfile]; rfl, ?_⟩
  rw [returns_then, returns_descGet, hdesc]
  by_cases hend : s.desc x .size ≤ offset
  · have h0 : readLen (s.desc x .size) offset len = 0 := by
      unfold readLen
      omega
    rw [if_pos hend, h0]
    refine returns_ok.mpr ⟨rfl, iff_of_true rfl hend, ?_, h⟩
    rw [copyIn_zero]
  · rw [if_neg hend, returns_then]
    refine (inodeReadLoop_borrowed hs h hthere (Nat.le_refl _)).mono fun ⟨⟨offset', data⟩, u⟩ _ ⟨hr, hu⟩ => ?_
    obtain ⟨rfl, rfl⟩ := Prod.mk.inj hr
    exact returns_ok.mpr ⟨Nat.add_sub_cancel_left .., iff_of_false nofun hend, rfl, hu⟩

end Reads

end Yuios
