/-
  File:      Yuios/Shell/Readline.lean
  Subject:   THE LINE THE SHELL READS: `readline` of `builtin/osh.c`.

  A byte is read into the place where the next character stands, and only then looked at. `stored` is a
  history: the places of the buffer written to, by `read` and by `readline`.

  * `readline` -- the function on a sequence of bytes and failed reads. It waits where the sequence ends.
  * `keys`, `edit` -- the bytes before the end of the line, and the line they spell.
  * `Underway` -- the invariant: the buffer begins with the line spelt so far.
  * `Answers` -- what the function is for.
  * **`readline_answers`** -- a call that returns does what it is for if and only if the line has always
    been shorter than `count`, and ends without a NUL byte in it.
-/
import Mathlib.Data.List.Infix
import Mathlib.Logic.Function.Basic

namespace Yuios.Osh

/-! ## 1. The function -/

def BACKSPACE : UInt8 := 8
def TAB : UInt8 := 9
def NEWLINE : UInt8 := 10
def RETURN : UInt8 := 13

/-- What `read(STDIN_FILENO, ptr, 1)` comes back with: a byte, or -1. -/
inductive Input where
  | byte (c : UInt8)
  | failure
  deriving DecidableEq, Repr

/-- The bytes from `buf` on, the places written to and the bytes echoed. -/
structure Buffer where
  cell : Nat → UInt8
  stored : List Nat
  echoed : List UInt8

namespace Buffer

variable (b : Buffer)

def put (i : Nat) (c : UInt8) : Buffer := { b with cell := Function.update b.cell i c, stored := i :: b.stored }

/-- `write(STDOUT_FILENO, &ch, 1)`. -/
def echo (c : UInt8) : Buffer := { b with echoed := b.echoed ++ [c] }

end Buffer

/-- The loop of `readline`, and what follows it. -/
def readlineLoop (count : UInt32) : (input : List Input) → (idx : UInt32) → Buffer → Option Buffer
  | [], idx, b => if idx < count then none else some (b.put idx.toNat 0)
  | e :: input, idx, b =>
    if idx < count then
      match e with
      | .failure => some (b.put idx.toNat 0)
      | .byte c =>
        let b := b.put idx.toNat c
        if c = NEWLINE ∨ c = RETURN then
          some ((b.put idx.toNat 0).echo NEWLINE)
        else if c = BACKSPACE then
          if b.cell 0 ≠ BACKSPACE then
            readlineLoop count input (idx - 1) (b.echo BACKSPACE)
          else
            readlineLoop count input idx b
        else if c = TAB then
          readlineLoop count input idx b
        else
          readlineLoop count input (idx + 1) (b.echo c)
    else
      some (b.put idx.toNat 0)

/-- `readline`. -/
def readline (count : UInt32) (input : List Input) (b : Buffer) : Option Buffer := readlineLoop count input 0 b

/-! ## 2. The line -/

/-- The bytes before the first newline, carriage return or failed read. -/
def keys : List Input → List UInt8
  | [] => []
  | .failure :: _ => []
  | .byte c :: input => if c = NEWLINE ∨ c = RETURN then [] else c :: keys input

/-- One byte: a backspace deletes the character before it, if there is one, a tab is dropped. -/
def key (text : List UInt8) (c : UInt8) : List UInt8 :=
  if c = BACKSPACE then text.dropLast else if c = TAB then text else text ++ [c]

/-- **The line that the bytes spell.** -/
def edit (ks : List UInt8) : List UInt8 := ks.foldl key []

/-- The buffer holds the line as a string. -/
structure Holds (b : Buffer) (count : Nat) (text : List UInt8) : Prop where
  room : text.length < count
  chars : ∀ i (h : i < text.length), b.cell i = text[i]
  nonzero : 0 ∉ text
  terminated : b.cell text.length = 0

/-- What `readline` is for: it stores inside the buffer only, and leaves the line there. -/
structure Answers (b : Buffer) (count : Nat) (text : List UInt8) : Prop where
  inside : ∀ i ∈ b.stored, i < count
  holds : Holds b count text

/-- The line is never as long as the buffer, whatever of the bytes has arrived. -/
def Fits (count : Nat) (text ks : List UInt8) : Prop := ∀ p, p <+: ks → (p.foldl key text).length < count

section Line

variable {b b' : Buffer} {count : UInt32} {input : List Input} {idx : UInt32} {text ks : List UInt8} {c : UInt8}

@[simp] theorem put_cell_self (b : Buffer) (i : Nat) (c : UInt8) : (b.put i c).cell i = c := Function.update_self ..

theorem put_cell_of_ne {i j : Nat} (h : j ≠ i) : (b.put i c).cell j = b.cell j := Function.update_of_ne h ..

@[simp] theorem put_stored (b : Buffer) (i : Nat) (c : UInt8) : (b.put i c).stored = i :: b.stored := rfl

@[simp] theorem echo_cell (b : Buffer) (c : UInt8) : (b.echo c).cell = b.cell := rfl

@[simp] theorem echo_stored (b : Buffer) (c : UInt8) : (b.echo c).stored = b.stored := rfl

theorem fits_nil : Fits count.toNat text [] ↔ text.length < count.toNat :=
  ⟨fun h => h [] (List.prefix_refl _), fun h _ hp => by rwa [List.prefix_nil.mp hp]⟩

/-- The first byte, and the others from there. -/
theorem fits_cons : Fits count.toNat text (c :: ks) ↔
    text.length < count.toNat ∧ Fits count.toNat (key text c) ks := by
  constructor
  · exact fun h => ⟨h [] (List.nil_prefix ..), fun p hp => h (c :: p) (List.cons_prefix_cons.mpr ⟨rfl, hp⟩)⟩
  · rintro ⟨h0, h⟩ p hp
    cases p with
    | nil => exact h0
    | cons d p =>
      obtain ⟨rfl, hp'⟩ := List.cons_prefix_cons.mp hp
      exact h p hp'

/-- **The loop is under way**: the buffer begins with the line, no more than the buffer is written to,
    and the line has no backspace in it. -/
structure Underway (count idx : UInt32) (text : List UInt8) (b : Buffer) : Prop where
  length : text.length = idx.toNat
  room : idx ≤ count
  chars : ∀ i (h : i < text.length), b.cell i = text[i]
  inside : ∀ i ∈ b.stored, i < count.toNat
  plain : BACKSPACE ∉ text

namespace Underway

/-- A byte read into the next place changes no character of the line. -/
theorem read (h : Underway count idx text b) (hlt : idx < count) : Underway count idx text (b.put idx.toNat c) where
  length := h.length
  room := h.room
  chars i hi := by
    rw [put_cell_of_ne (by have := h.length; omega)]
    exact h.chars i hi
  inside i hi := by
    rcases List.mem_cons.mp hi with rfl | hi
    · exact UInt32.lt_iff_toNat_lt.mp hlt
    · exact h.inside i hi
  plain := h.plain

theorem echo (h : Underway count idx text b) : Underway count idx text (b.echo c) :=
  ⟨h.length, h.room, h.chars, h.inside, h.plain⟩

/-- A character stays where it has been read. -/
theorem snoc (h : Underway count idx text b) (hlt : idx < count) (hc : b.cell idx.toNat = c) (hp : c ≠ BACKSPACE) :
    Underway count (idx + 1) (text ++ [c]) b := by
  have hlt' := UInt32.lt_iff_toNat_lt.mp hlt
  have hidx : (idx + 1).toNat = idx.toNat + 1 := by
    have := count.toNat_lt
    rw [UInt32.toNat_add]
    exact Nat.mod_eq_of_lt (by simp; omega)
  refine ⟨?_, UInt32.le_iff_toNat_le.mpr (by omega), fun i hi => ?_, h.inside, ?_⟩
  · rw [List.length_append, List.length_singleton, h.length, hidx]
  · rw [List.length_append, List.length_singleton] at hi
    by_cases hi' : i < text.length
    · rw [List.getElem_append_left hi']
      exact h.chars i hi'
    · have hlast : i = idx.toNat := by
        have := h.length
        omega
      rw [List.getElem_append_right (Nat.not_lt.mp hi')]
      simpa [hlast] using hc
  · simpa [h.plain] using hp.symm

/-- The last character is given up. -/
theorem dropLast (h : Underway count idx text b) (hne : text ≠ []) : Underway count (idx - 1) text.dropLast b := by
  have hpos := List.length_pos_iff.mpr hne
  have hlen := h.length
  have hidx : (idx - 1).toNat = idx.toNat - 1 :=
    UInt32.toNat_sub_of_le _ _ (UInt32.le_iff_toNat_le.mpr (by simp; omega))
  have hroom := UInt32.le_iff_toNat_le.mp h.room
  refine ⟨?_, UInt32.le_iff_toNat_le.mpr (by omega), fun i hi => ?_, h.inside,
    fun hb => h.plain (List.mem_of_mem_dropLast hb)⟩
  · rw [List.length_dropLast, hlen, hidx]
  · rw [List.getElem_dropLast]
    exact h.chars i _

/-- The line is empty where its first place holds a backspace. -/
theorem backspace (h : Underway count idx text b) (hc : b.cell idx.toNat = BACKSPACE) :
    b.cell 0 ≠ BACKSPACE ↔ text ≠ [] := by
  have hlen := h.length
  cases text with
  | nil =>
    rw [List.length_nil] at hlen
    rw [hlen.symm] at hc
    simp [hc]
  | cons d text =>
    have hfirst : b.cell 0 = d := h.chars 0 (Nat.zero_lt_succ _)
    have hd : BACKSPACE ≠ d := fun e => h.plain (e ▸ List.mem_cons_self)
    simp [hfirst, hd.symm]

/-- The end of the line. -/
theorem finish (h : Underway count idx text b) (hlt : idx < count) :
    Answers (b.put idx.toNat 0) count.toNat text ↔ 0 ∉ text := by
  constructor
  · exact fun ha => ha.holds.nonzero
  · intro h0
    have hput := h.read (c := 0) hlt
    refine ⟨hput.inside, ?_, hput.chars, h0, ?_⟩
    · rw [h.length]
      exact UInt32.lt_iff_toNat_lt.mp hlt
    · rw [h.length]
      exact put_cell_self ..

end Underway

theorem answers_echo {n : Nat} : Answers (b.echo c) n text ↔ Answers b n text := by
  constructor <;> exact fun h => ⟨h.inside, h.holds.room, h.holds.chars, h.holds.nonzero, h.holds.terminated⟩

/-- A store behind the buffer. -/
theorem not_answers_full (h : ¬ idx < count) : ¬ Answers (b.put idx.toNat 0) count.toNat text := by
  intro ha
  exact h (UInt32.lt_iff_toNat_lt.mpr (ha.inside _ List.mem_cons_self))

/-- **The loop** does what it is for where the line fits. -/
theorem readlineLoop_answers (h : Underway count idx text b) (hr : readlineLoop count input idx b = some b') :
    Answers b' count.toNat ((keys input).foldl key text) ↔
      Fits count.toNat text (keys input) ∧ 0 ∉ (keys input).foldl key text := by
  induction input generalizing idx text b with
  | nil =>
    unfold readlineLoop at hr
    split at hr
    · cases hr
    · next hfull =>
        obtain rfl := Option.some.inj hr
        exact iff_of_false (not_answers_full hfull) fun hf => hfull
          (UInt32.lt_iff_toNat_lt.mpr (h.length ▸ fits_nil.mp hf.1))
  | cons e input ih =>
    unfold readlineLoop at hr
    by_cases hfull : ¬ idx < count
    · rw [if_neg hfull] at hr
      obtain rfl := Option.some.inj hr
      refine iff_of_false (not_answers_full hfull) fun hf => hfull (UInt32.lt_iff_toNat_lt.mpr ?_)
      exact h.length ▸ hf.1 [] (List.nil_prefix ..)
    have hlt : idx < count := not_not.mp hfull
    rw [if_pos hlt] at hr
    have hroom : text.length < count.toNat := h.length ▸ UInt32.lt_iff_toNat_lt.mp hlt
    cases e with
    | failure =>
      obtain rfl := Option.some.inj hr
      exact (h.finish hlt).trans (and_iff_right (fits_nil.mpr hroom)).symm
    | byte c =>
      have hread := h.read (c := c) hlt
      have hcell : (b.put idx.toNat c).cell idx.toNat = c := put_cell_self ..
      dsimp only at hr
      by_cases hend : c = NEWLINE ∨ c = RETURN
      · rw [if_pos hend] at hr
        obtain rfl := Option.some.inj hr
        rw [keys, if_pos hend]
        exact answers_echo.trans ((hread.finish hlt).trans (and_iff_right (fits_nil.mpr hroom)).symm)
      · rw [if_neg hend] at hr
        rw [keys, if_neg hend, List.foldl_cons, fits_cons, and_iff_right hroom]
        by_cases hb : c = BACKSPACE
        · subst hb
          rw [if_pos rfl] at hr
          have hback := hread.backspace hcell
          by_cases hne : text = []
          · rw [if_neg fun hc => hback.mp hc hne] at hr
            have hkey : key text BACKSPACE = text := by simp [key, hne]
            rw [hkey]
            exact ih hread hr
          · rw [if_pos (hback.mpr hne)] at hr
            rw [key, if_pos rfl]
            exact ih (hread.dropLast hne).echo hr
        · rw [if_neg hb] at hr
          by_cases ht : c = TAB
          · rw [if_pos ht] at hr
            rw [key, if_neg hb, if_pos ht]
            exact ih hread hr
          · rw [if_neg ht] at hr
            rw [key, if_neg hb, if_neg ht]
            exact ih (hread.snoc hlt hcell hb).echo hr

/-- **`readline` does what it is for if and only if the line fits.** -/
theorem readline_answers (hs : b.stored = []) (hr : readline count input b = some b') :
    Answers b' count.toNat (edit (keys input)) ↔ Fits count.toNat [] (keys input) ∧ 0 ∉ edit (keys input) := by
  refine readlineLoop_answers ⟨rfl, ?_, fun i hi => absurd hi (Nat.not_lt_zero i), ?_, List.not_mem_nil⟩ hr
  · exact UInt32.le_iff_toNat_le.mpr (Nat.zero_le _)
  · exact fun i hi => absurd (hs ▸ hi) List.not_mem_nil

end Line

/-- A buffer before the call. -/
def fresh : Buffer := ⟨fun _ => 0xff, [], []⟩

/-- Two letters, a backspace, a tab and another letter. -/
theorem readline_answers_keys : ∃ b, readline 8 ([97, 98, 8, 9, 99, 10].map .byte) fresh = some b ∧
    Answers b 8 [97, 99] := by
  have hfits : ∀ p ∈ List.inits [97, 98, 8, 9, 99], (List.foldl key [] p).length < 8 := by decide
  obtain ⟨b, hb⟩ : ∃ b, readline 8 ([97, 98, 8, 9, 99, 10].map .byte) fresh = some b := ⟨_, rfl⟩
  have hline : (0 : UInt8) ∉ edit [97, 98, 8, 9, 99] := by decide
  exact ⟨b, hb, (readline_answers rfl hb).mpr ⟨fun p hp => hfits p ((List.mem_inits _ _).mpr hp), hline⟩⟩

/-- **A line as long as the buffer of the shell**: the terminator goes behind it. -/
theorem readline_overruns : ∃ b, readline 256 (List.replicate 256 (.byte 97)) fresh = some b ∧ 256 ∈ b.stored ∧
    ¬ Answers b 256 (edit (keys (List.replicate 256 (.byte 97)))) := by
  have hrun : ((readline 256 (List.replicate 256 (.byte 97)) fresh).map fun b => decide (256 ∈ b.stored)) = some true := by
    decide +kernel
  obtain ⟨b, hb, hmem⟩ := Option.map_eq_some_iff.mp hrun
  have hmem : 256 ∈ b.stored := of_decide_eq_true hmem
  exact ⟨b, hb, hmem, fun h => absurd (h.inside 256 hmem) (by decide)⟩

end Yuios.Osh
