/-
  File:      Yuios/Shell/Parse.lean
  Subject:   THE WORDS OF A COMMAND LINE: `cmd_parse` of `builtin/osh.c`.

  The line lies in bytes that the function looks at and stores into; its length is the place of the
  terminator. A look behind it, and a store behind `argv[MAX_ARG_NR - 1]`, stop the model.

  * `cmdParse` -- the function.
  * `pieces` -- the words and the quoted texts of a line, told byte by byte; `words` -- their texts.
  * `Tokens` -- the first arguments are these texts, as strings.
  * `Parses` -- what the function is for.
  * `skipWhile_stops`, `skipWhile_overruns` -- the two inner loops.
  * **`cmdParse_parses`** -- the function does what it is for if and only if the line has fewer than
    `MAX_ARG_NR` tokens and no quote is left open with something behind it.
-/
import Mathlib.Data.List.TakeWhile
import Mathlib.Logic.Function.Basic
import Yuios.Base

namespace Yuios.Osh

/-! ## 1. The function -/

def MAX_ARG_NR : Nat := 16

def BLANK : UInt8 := 32
def QUOTE : UInt8 := 34

/-- The variables of `cmd_parse`, the bytes of the line and the pointers in `argv`. -/
structure Parse where
  next : Nat
  argc : Nat
  quot : Bool
  cell : Nat → UInt8
  argv : Nat → Option Nat

/-- `*next`, in a line of `n` bytes. -/
def look (n : Nat) (cell : Nat → UInt8) (next : Nat) : Except Stop UInt8 :=
  if next ≤ n then .ok (cell next) else .error .outOfBuffer

/-- `while (p(*next)) next++;` -/
def skipWhile (n : Nat) (cell : Nat → UInt8) (p : UInt8 → Bool) : (fuel next : Nat) → Except Stop Nat
  | 0, _ => .error .outOfBuffer
  | fuel + 1, next => do
    let c ← look n cell next
    if p c then skipWhile n cell p fuel (next + 1) else .ok next

/-- `argv[argc] = p;` -/
def setArg (s : Parse) (p : Option Nat) : Except Stop Parse :=
  if s.argc < MAX_ARG_NR then .ok { s with argv := Function.update s.argv s.argc p } else .error .outOfBuffer

/-- `argv[argc++] = next;` -/
def pushArg (s : Parse) : Except Stop Parse := do
  let s ← setArg s (some s.next)
  return { s with argc := s.argc + 1 }

/-- `*next = 0; next++;` -/
def cut (s : Parse) : Parse := { s with cell := Function.update s.cell s.next 0, next := s.next + 1 }

/-- The spaces in front of a token, and inside a quote everything up to its end. -/
def skipped (quot : Bool) (c : UInt8) : Bool := c = BLANK || (quot && c ≠ QUOTE)

/-- The bytes of a word. -/
def inWord (c : UInt8) : Bool := c ≠ 0 && c ≠ BLANK

/-- `if (*next == '"')`: the quote opens or closes. -/
def toggle (s : Parse) : Except Stop Parse :=
  if s.quot then .ok (cut { s with quot := false })
  else pushArg { s with quot := true, next := s.next + 1 }

/-- A word and the space behind it. -/
def takeWord (n : Nat) (s : Parse) : Except Stop Parse := do
  let s ← pushArg s
  let next ← skipWhile n s.cell inWord (n + 1) s.next
  let c ← look n s.cell next
  let s := { s with next := next }
  return if c ≠ 0 then cut s else s

/-- What the byte behind the spaces begins or ends. -/
def takeToken (n : Nat) (c : UInt8) (s : Parse) : Except Stop Parse := if c = QUOTE then toggle s else takeWord n s

/-- The outer loop. -/
def parseLoop (n : Nat) : (fuel : Nat) → Parse → Except Stop Parse
  | 0, _ => .error .outOfBuffer
  | fuel + 1, s => do
    let c ← look n s.cell s.next
    if c ≠ 0 ∧ s.argc < MAX_ARG_NR then
      let next ← skipWhile n s.cell (skipped s.quot) (n + 1) s.next
      let c ← look n s.cell next
      if c = 0 then return { s with next := next }
      else takeToken n c { s with next := next } >>= parseLoop n fuel
    else return s

/-- `cmd_parse` on a line of `n` bytes. -/
def cmdParse (n : Nat) (cell : Nat → UInt8) (argv : Nat → Option Nat) : Except Stop Parse := do
  let s ← parseLoop n (n + 1) ⟨0, 0, false, cell, argv⟩
  setArg s none

/-! ## 2. The tokens of a line -/

/-- A piece of a line: a word, a quoted text, or a quote that is not closed. -/
inductive Piece where
  | word (w : List UInt8)
  | quoted (t : List UInt8)
  | unclosed (t : List UInt8)
  deriving DecidableEq, Repr

def Piece.text : Piece → List UInt8
  | word w => w
  | quoted t => t
  | unclosed t => t

/-- Where in a line a byte stands: between the tokens, or in one that begins so. -/
inductive Spot where
  | between
  | word (w : List UInt8)
  | quote (t : List UInt8)

/-- **The pieces of a line.** A quote at the start of a token opens a text, which the next quote ends; a
    word ends at a space. -/
def pieces : Spot → List UInt8 → List Piece
  | .between, [] => []
  | .between, c :: line =>
    if c = BLANK then pieces .between line
    else if c = QUOTE then pieces (.quote []) line
    else pieces (.word [c]) line
  | .word w, [] => [.word w]
  | .word w, c :: line => if c = BLANK then .word w :: pieces .between line else pieces (.word (w ++ [c])) line
  | .quote t, [] => [.unclosed t]
  | .quote t, c :: line => if c = QUOTE then .quoted t :: pieces .between line else pieces (.quote (t ++ [c])) line

/-- The texts of the tokens. -/
def words (line : List UInt8) : List (List UInt8) := (pieces .between line).map Piece.text

/-- Every quote at the start of a token is closed. -/
def Balanced (line : List UInt8) : Prop := ∀ t, .unclosed t ∉ pieces .between line

/-- No quote is left open with something behind it. -/
def Closed (ps : List Piece) : Prop := ∀ t, .unclosed t ∈ ps → t = []

/-- The bytes from `next` on are these, and the terminator. -/
structure Shows (cell : Nat → UInt8) (next : Nat) (line : List UInt8) : Prop where
  chars : ∀ i (h : i < line.length), cell (next + i) = line.get ⟨i, h⟩
  terminated : cell (next + line.length) = 0

/-- The first arguments are these texts, in front of `bound`. -/
def Tokens (s : Parse) (ts : List (List UInt8)) (bound : Nat) : Prop :=
  ∀ i (h : i < ts.length), ∃ p, s.argv i = some p ∧ Shows s.cell p (ts.get ⟨i, h⟩) ∧
    p + (ts.get ⟨i, h⟩).length < bound

/-- What `cmd_parse` is for: at most `MAX_ARG_NR` tokens, and the words of the line where there are fewer
    and the quotes are closed. -/
structure Parses (line : List UInt8) (s : Parse) : Prop where
  count : s.argc ≤ MAX_ARG_NR
  words : Balanced line → (words line).length < MAX_ARG_NR →
    s.argc = (words line).length ∧ Tokens s (words line) (line.length + 1) ∧ s.argv s.argc = none

section Pieces

variable {l : List UInt8} {w t : List UInt8} {c : UInt8}

theorem pieces_spaces : pieces .between l = pieces .between (l.dropWhile (skipped false)) := by
  induction l with
  | nil => rfl
  | cons c l ih =>
    rw [List.dropWhile_cons]
    by_cases hc : c = BLANK
    · rw [if_pos (by simp [skipped, hc])]
      show (if c = BLANK then pieces .between l else _) = _
      rw [if_pos hc, ih]
    · rw [if_neg (by simp [skipped, hc])]

theorem pieces_word (h0 : 0 ∉ l) : pieces (.word w) l =
    .word (w ++ l.takeWhile inWord) :: pieces .between (l.dropWhile inWord).tail := by
  induction l generalizing w with
  | nil => exact congrArg (fun w => [Piece.word w]) (List.append_nil w).symm
  | cons c l ih =>
    obtain ⟨hc0, h0⟩ := not_or.mp (mt List.mem_cons.mpr h0)
    show (if c = BLANK then Piece.word w :: pieces .between l else pieces (.word (w ++ [c])) l) = _
    by_cases hc : c = BLANK
    · rw [if_pos hc]
      simp [inWord, hc]
    · have hin : inWord c = true := by simp [inWord, hc, Ne.symm hc0]
      rw [if_neg hc, ih h0, List.takeWhile_cons, List.dropWhile_cons, if_pos hin, if_pos hin, List.append_assoc,
        List.singleton_append]

theorem pieces_quote : pieces (.quote t) l =
    if QUOTE ∈ l then .quoted (t ++ l.takeWhile (skipped true)) :: pieces .between (l.dropWhile (skipped true)).tail
    else [.unclosed (t ++ l)] := by
  induction l generalizing t with
  | nil => exact congrArg (fun t => [Piece.unclosed t]) (List.append_nil t).symm
  | cons c l ih =>
    show (if c = QUOTE then Piece.quoted t :: pieces .between l else pieces (.quote (t ++ [c])) l) = _
    by_cases hc : c = QUOTE
    · have hout : skipped true c = false := by
        rw [hc]
        decide
      rw [if_pos hc, if_pos (hc ▸ List.mem_cons_self), List.takeWhile_cons, List.dropWhile_cons, hout]
      simp
    · have hin : skipped true c = true := by simp [skipped, hc]
      have hmem : QUOTE ∈ c :: l ↔ QUOTE ∈ l := by simp [Ne.symm hc]
      rw [if_neg hc, ih, List.takeWhile_cons, List.dropWhile_cons, hin]
      simp only [hmem, if_true, List.append_assoc, List.singleton_append]

end Pieces

/-! ## 3. The inner loops -/

section Skip

variable {cell : Nat → UInt8} {n next fuel i : Nat} {a l line : List UInt8} {p : UInt8 → Bool} {c : UInt8}

theorem look_shows (h : Shows cell next l) (hn : next + l.length = n) :
    look n cell next = .ok (l.head?.getD 0) := by
  rw [look, if_pos (by omega)]
  cases l with
  | nil => exact congrArg _ h.terminated
  | cons c l => exact congrArg _ (h.chars 0 (Nat.zero_lt_succ _))

theorem Shows.tail (h : Shows cell next (c :: l)) : Shows cell (next + 1) l := by
  refine ⟨fun i hi => ?_, ?_⟩
  · rw [Nat.add_assoc, Nat.add_comm 1]
    exact h.chars (i + 1) (Nat.succ_lt_succ hi)
  · rw [Nat.add_assoc, Nat.add_comm 1]
    exact h.terminated

theorem Shows.drop (h : Shows cell next (a ++ l)) : Shows cell (next + a.length) l := by
  induction a generalizing next with
  | nil => exact h
  | cons c a ih =>
    rw [List.length_cons, Nat.add_comm a.length, ← Nat.add_assoc]
    exact ih h.tail

/-- A store in front changes nothing. -/
theorem Shows.update (h : Shows cell next l) (hi : i < next) : Shows (Function.update cell i c) next l :=
  ⟨fun j hj => by rw [Function.update_of_ne (by omega), h.chars j hj],
    by rw [Function.update_of_ne (by omega), h.terminated]⟩

/-- The loop stops at the first byte that fails the test, at the terminator if need be. -/
theorem skipWhile_stops (h : Shows cell next l) (hn : next + l.length = n) (hf : l.length < fuel)
    (hp : p 0 = false ∨ ∃ c ∈ l, p c = false) :
    skipWhile n cell p fuel next = .ok (next + (l.takeWhile p).length) := by
  induction l generalizing next fuel with
  | nil =>
    obtain ⟨fuel, rfl⟩ := Nat.exists_eq_succ_of_ne_zero (Nat.ne_of_gt hf)
    have hp0 : p 0 = false := hp.resolve_right fun ⟨c, hc, _⟩ => absurd hc List.not_mem_nil
    rw [skipWhile, look_shows h hn]
    show (if p 0 = true then _ else _) = _
    rw [hp0]
    rfl
  | cons c l ih =>
    obtain ⟨fuel, rfl⟩ := Nat.exists_eq_succ_of_ne_zero (Nat.ne_of_gt (Nat.lt_of_le_of_lt (Nat.zero_le _) hf))
    rw [List.length_cons] at hn hf
    rw [skipWhile, look_shows h (by rw [List.length_cons]; exact hn)]
    show (if p c = true then _ else _) = _
    rw [List.takeWhile_cons]
    cases hpc : p c with
    | false => rfl
    | true =>
      have hp' : p 0 = false ∨ ∃ c ∈ l, p c = false := hp.imp_right fun ⟨d, hd, hpd⟩ => by
        rcases List.mem_cons.mp hd with rfl | hd
        · rw [hpc] at hpd
          cases hpd
        · exact ⟨d, hd, hpd⟩
      rw [if_pos rfl, if_pos rfl, ih h.tail (by omega) (by omega) hp', List.length_cons]
      congr 1
      omega

/-- The loop runs behind the line if every byte passes the test, the terminator too. -/
theorem skipWhile_overruns (h : Shows cell next l) (hn : next + l.length = n) (hp0 : p 0 = true)
    (hp : ∀ c ∈ l, p c = true) : ∃ e, skipWhile n cell p fuel next = .error e := by
  induction l generalizing next fuel with
  | nil =>
    cases fuel with
    | zero => exact ⟨_, rfl⟩
    | succ fuel =>
      refine ⟨.outOfBuffer, ?_⟩
      rw [skipWhile, look_shows h hn]
      show (if p 0 = true then _ else _) = _
      rw [if_pos hp0]
      rw [List.length_nil] at hn
      cases fuel with
      | zero => rfl
      | succ fuel =>
        rw [skipWhile, look, if_neg (by omega)]
        rfl
  | cons c l ih =>
    cases fuel with
    | zero => exact ⟨_, rfl⟩
    | succ fuel =>
      obtain ⟨hpc, hp⟩ := List.forall_mem_cons.mp hp
      rw [List.length_cons] at hn
      obtain ⟨e, he⟩ : ∃ e, skipWhile n cell p fuel (next + 1) = .error e := ih h.tail (by omega) hp
      refine ⟨e, ?_⟩
      rw [skipWhile, look_shows h (by rw [List.length_cons]; exact hn)]
      show (if p c = true then _ else _) = _
      rw [if_pos hpc, he]

end Skip

/-! ## 4. The outer loop -/

section Loop

variable {n fuel bound bound' : Nat} {s s' : Parse} {rest line : List UInt8} {ts : List (List UInt8)} {t : List UInt8}
  {p : Nat} {ps : List Piece}

theorem Shows.update_behind {cell : Nat → UInt8} {i : Nat} {c : UInt8} (h : Shows cell p t) (hi : p + t.length < i) :
    Shows (Function.update cell i c) p t :=
  ⟨fun j hj => by rw [Function.update_of_ne (by omega), h.chars j hj],
    by rw [Function.update_of_ne (by omega), h.terminated]⟩

theorem Tokens.mono (h : Tokens s ts bound) (hb : bound ≤ bound') : Tokens s ts bound' := fun i hi => by
  obtain ⟨p, hp, hs, hlt⟩ := h i hi
  exact ⟨p, hp, hs, Nat.lt_of_lt_of_le hlt hb⟩

/-- One text more. -/
theorem Tokens.snoc (h : Tokens s ts bound) (hp : s.argv ts.length = some p) (hs : Shows s.cell p t)
    (hb : p + t.length < bound) : Tokens s (ts ++ [t]) bound := by
  intro i hi
  rw [List.length_append, List.length_singleton] at hi
  by_cases hlt : i < ts.length
  · have hget : (ts ++ [t]).get ⟨i, by simpa using hi⟩ = ts.get ⟨i, hlt⟩ := List.getElem_append_left hlt
    rw [hget]
    exact h i hlt
  · obtain rfl : i = ts.length := by omega
    have hget : (ts ++ [t]).get ⟨ts.length, by simp⟩ = t := by simp
    rw [hget]
    exact ⟨p, hp, hs, hb⟩

/-- The texts stay where the pointers and the bytes in front of `bound` do. -/
theorem Tokens.keep (h : Tokens s ts bound) (hargv : ∀ i < ts.length, s'.argv i = s.argv i)
    (hcell : ∀ p t, p + t.length < bound → Shows s.cell p t → Shows s'.cell p t) : Tokens s' ts bound := by
  intro i hi
  obtain ⟨p, hp, hs, hlt⟩ := h i hi
  exact ⟨p, (hargv i hi).trans hp, hcell p _ hlt hs, hlt⟩

/-- **The loop is under way**: the bytes from `next` on are the rest of the line, the arguments so far are
    the tokens in front of it, and a quote just opened is the last argument. -/
structure Reading (n : Nat) (rest : List UInt8) (ts : List (List UInt8)) (s : Parse) : Prop where
  shows : Shows s.cell s.next rest
  length : s.next + rest.length = n
  nonzero : 0 ∉ rest
  tokens : Tokens s ts (n + 1)
  before : rest ≠ [] → Tokens s ts s.next
  argc : s.argc = ts.length + if s.quot then 1 else 0
  opened : s.quot = true → s.argv ts.length = some s.next

/-- Where the loop stands. -/
def spot (quot : Bool) : Spot := if quot then .quote [] else .between

/-- What comes of the pieces that follow the tokens: their texts are the arguments after the loop, or
    there are too many, or an open quote stops the model. -/
def Outcome (n : Nat) (r : Except Stop Parse) (ts : List (List UInt8)) (ps : List Piece) : Prop :=
  (Closed ps ∧ ts.length + ps.length < MAX_ARG_NR ∧ ∃ s, r = .ok s ∧ s.argc = ts.length + ps.length ∧
    Tokens s (ts ++ ps.map Piece.text) (n + 1)) ∨
  (¬ (Closed ps ∧ ts.length + ps.length < MAX_ARG_NR) ∧ ∀ s, r = .ok s → MAX_ARG_NR ≤ s.argc)

/-- A piece that is closed goes over to the tokens. -/
theorem Outcome.piece {r : Except Stop Parse} {a : Piece} (h : Outcome n r (ts ++ [a.text]) ps)
    (ha : ∀ t, a ≠ .unclosed t) : Outcome n r ts (a :: ps) := by
  have hclosed : Closed (a :: ps) ↔ Closed ps := by
    constructor
    · exact fun h t ht => h t (List.mem_cons_of_mem a ht)
    · intro h t ht
      rcases List.mem_cons.mp ht with e | ht
      · exact absurd e.symm (ha t)
      · exact h t ht
  have hlen : (ts ++ [a.text]).length + ps.length = ts.length + (a :: ps).length := by
    rw [List.length_append, List.length_singleton, List.length_cons]
    omega
  rw [Outcome, hlen, List.append_assoc, List.singleton_append] at h
  rw [Outcome, hclosed, List.map_cons]
  exact h

theorem pieces_quote_ne_nil {t l : List UInt8} : pieces (.quote t) l ≠ [] := by
  rw [pieces_quote]
  split <;> exact List.cons_ne_nil _ _

theorem Reading.look (h : Reading n rest ts s) : look n s.cell s.next = .ok (rest.head?.getD 0) :=
  look_shows h.shows h.length

/-- The loop at the end of the line, or with `argv` full. -/
theorem Reading.stop (h : Reading n rest ts s) (hstop : rest = [] ∨ MAX_ARG_NR ≤ s.argc) :
    Outcome n (.ok s) ts (pieces (spot s.quot) rest) := by
  have hargc := h.argc
  by_cases hfull : MAX_ARG_NR ≤ s.argc
  · refine .inr ⟨fun hlt => ?_, fun s' e => Except.ok.inj e ▸ hfull⟩
    have hlt := hlt.2
    cases hq : s.quot with
    | false =>
      rw [hq] at hargc
      simp only [Bool.false_eq_true, if_false] at hargc
      omega
    | true =>
      rw [hq] at hargc hlt
      have hne : 0 < (pieces (spot true) rest).length := List.length_pos_iff.mpr pieces_quote_ne_nil
      simp only [if_true] at hargc
      omega
  · obtain rfl : rest = [] := hstop.resolve_right hfull
    cases hq : s.quot with
    | false =>
      rw [hq] at hargc
      simp only [Bool.false_eq_true, if_false] at hargc
      refine .inl ⟨fun t ht => absurd ht List.not_mem_nil, ?_, s, rfl, hargc, ?_⟩
      · show ts.length + 0 < MAX_ARG_NR
        omega
      · show Tokens s (ts ++ []) (n + 1)
        rw [List.append_nil]
        exact h.tokens
    | true =>
      rw [hq] at hargc
      simp only [if_true] at hargc
      have hlen : s.next + 0 = n := h.length
      refine .inl ⟨fun t ht => ?_, ?_, s, rfl, hargc, ?_⟩
      · exact (Piece.unclosed.inj (List.mem_singleton.mp ht))
      · show ts.length + 1 < MAX_ARG_NR
        omega
      · exact h.tokens.snoc (h.opened hq) h.shows (Nat.lt_succ_of_le (Nat.le_of_eq hlen))

theorem not_mem_tail {c : UInt8} {l : List UInt8} (h : 0 ∉ c :: l) : 0 ∉ l :=
  fun hm => h (List.mem_cons_of_mem c hm)

/-- A quote opens. -/
theorem Reading.open {l : List UInt8} (h : Reading n (QUOTE :: l) ts s) (hq : s.quot = false)
    (hfull : s.argc < MAX_ARG_NR) : ∃ s', toggle s = .ok s' ∧ s'.quot = true ∧ Reading n l ts s' := by
  have hargc : s.argc = ts.length := by
    rw [h.argc, hq]
    rfl
  have hlen := h.length
  rw [List.length_cons] at hlen
  have hkeep : ∀ i < ts.length, Function.update s.argv s.argc (some (s.next + 1)) i = s.argv i := fun i hi =>
    Function.update_of_ne (by omega) ..
  refine ⟨{ s with quot := true, next := s.next + 1, argc := s.argc + 1,
                   argv := Function.update s.argv s.argc (some (s.next + 1)) }, ?_, rfl, h.shows.tail, ?_,
    not_mem_tail h.nonzero, h.tokens.keep hkeep fun _ _ _ hs => hs, fun _ => ?_, ?_, fun _ => ?_⟩
  · rw [toggle, hq, if_neg Bool.false_ne_true, pushArg, setArg, if_pos hfull]
    rfl
  · show s.next + 1 + l.length = n
    omega
  · exact ((h.before (List.cons_ne_nil _ _)).mono (Nat.le_succ _)).keep hkeep fun _ _ _ hs => hs
  · rw [hargc]
    rfl
  · rw [hargc]
    exact Function.update_self ..

/-- A token ends at a byte that is made its terminator. -/
theorem cut_token {a l : List UInt8} {c : UInt8} (h : Shows s.cell p (a ++ c :: l)) (hp : p + a.length = s.next)
    (ht : Tokens s ts p) (hpend : s.argv ts.length = some p) :
    Shows (cut s).cell (cut s).next l ∧ Tokens (cut s) (ts ++ [a]) (cut s).next := by
  have hdrop := h.drop
  rw [hp] at hdrop
  have htoken : Shows (cut s).cell p a := by
    refine ⟨fun j hj => ?_, ?_⟩
    · have hget : (a ++ c :: l).get ⟨j, by rw [List.length_append]; omega⟩ = a.get ⟨j, hj⟩ :=
        List.getElem_append_left hj
      rw [← hget]
      exact (Function.update_of_ne (by omega) ..).trans (h.chars j _)
    · rw [hp]
      exact Function.update_self ..
  have hold : Tokens (cut s) ts p := ht.keep (fun _ _ => rfl) fun _ _ hlt hs => hs.update_behind (by omega)
  have hlt : p + a.length < (cut s).next := hp ▸ Nat.lt_succ_self _
  exact ⟨hdrop.tail.update (Nat.lt_succ_self _), (hold.mono (by omega)).snoc hpend htoken hlt⟩

/-- A quote closes: the text is a token. -/
theorem Reading.close {a l : List UInt8} (h : Reading n (a ++ QUOTE :: l) ts s) (hq : s.quot = true) :
    ∃ s', toggle { s with next := s.next + a.length } = .ok s' ∧ s'.quot = false ∧
      Reading n l (ts ++ [a]) s' := by
  have hargc := h.argc
  have hlen := h.length
  rw [List.length_append, List.length_cons] at hlen
  have h0 : 0 ∉ l := fun hm => h.nonzero (List.mem_append_right a (List.mem_cons_of_mem QUOTE hm))
  obtain ⟨s₁, hs₁⟩ : ∃ s₁ : Parse, s₁ = { s with quot := false, next := s.next + a.length } := ⟨_, rfl⟩
  have hbefore : Tokens s₁ ts s.next := by
    rw [hs₁]
    exact h.before (by simp)
  obtain ⟨hshows, htokens⟩ : Shows (cut s₁).cell (cut s₁).next l ∧ Tokens (cut s₁) (ts ++ [a]) (cut s₁).next :=
    cut_token (p := s.next) (c := QUOTE) (by rw [hs₁]; exact h.shows) (by rw [hs₁]) hbefore
      (by rw [hs₁]; exact h.opened hq)
  have hnext : (cut s₁).next = s.next + a.length + 1 := by rw [hs₁]; rfl
  refine ⟨cut s₁, ?_, by rw [hs₁]; rfl, hshows, by omega, h0, htokens.mono (by omega), fun _ => htokens, ?_, ?_⟩
  · rw [hs₁, toggle, if_pos hq]
  · rw [hs₁]
    show s.argc = _
    rw [hargc, hq]
    simp [cut]
  · rw [hs₁]
    exact fun hf => absurd hf Bool.false_ne_true

/-- A word. -/
theorem Reading.word (h : Reading n rest ts s) (hq : s.quot = false) (hfull : s.argc < MAX_ARG_NR) :
    ∃ s', takeWord n s = .ok s' ∧ s'.quot = false ∧
      Reading n (rest.dropWhile inWord).tail (ts ++ [rest.takeWhile inWord]) s' := by
  have hargc : s.argc = ts.length := by
    rw [h.argc, hq]
    rfl
  have hlen := h.length
  have hsplit := List.takeWhile_append_dropWhile (p := inWord) (l := rest)
  obtain ⟨s₁, hs₁⟩ : ∃ s₁ : Parse, s₁ =
      { s with argc := s.argc + 1, argv := Function.update s.argv s.argc (some s.next) } := ⟨_, rfl⟩
  have hpush : pushArg s = .ok s₁ := by
    rw [pushArg, setArg, if_pos hfull, hs₁]
    rfl
  have hskip : skipWhile n s₁.cell inWord (n + 1) s₁.next = .ok (s.next + (rest.takeWhile inWord).length) := by
    rw [hs₁]
    exact skipWhile_stops h.shows hlen (by omega) (.inl rfl)
  have hdrop : Shows s₁.cell (s.next + (rest.takeWhile inWord).length) (rest.dropWhile inWord) := by
    rw [hs₁]
    have hall : Shows s.cell s.next (rest.takeWhile inWord ++ rest.dropWhile inWord) := by
      rw [hsplit]
      exact h.shows
    exact hall.drop
  have hsum := congrArg List.length hsplit
  rw [List.length_append] at hsum
  have hargv : ∀ i < ts.length, s₁.argv i = s.argv i := fun i hi => by
    rw [hs₁]
    exact Function.update_of_ne (by omega) ..
  have hcell : s₁.cell = s.cell := by rw [hs₁]
  have hpend : s₁.argv ts.length = some s.next := by
    rw [hs₁, ← hargc]
    exact Function.update_self ..
  have hquot : s₁.quot = false := by
    rw [hs₁]
    exact hq
  have hcount : s₁.argc = ts.length + 1 := by
    rw [hs₁, ← hargc]
  cases hdw : rest.dropWhile inWord with
  | nil =>
    rw [hdw] at hdrop hsplit hsum
    rw [List.append_nil] at hsplit
    rw [List.length_nil] at hsum
    refine ⟨{ s₁ with next := s.next + (rest.takeWhile inWord).length }, ?_, hquot, hdrop, by simp; omega,
      List.not_mem_nil, ?_, fun hne => absurd rfl hne, ?_, fun hf => ?_⟩
    · refine bind_of_ok hpush (bind_of_ok hskip (bind_of_ok (look_shows hdrop (by simp; omega)) ?_))
      rfl
    · have hshows : Shows s₁.cell s.next (rest.takeWhile inWord) := by
        rw [hcell, hsplit]
        exact h.shows
      have hold : Tokens s₁ ts (n + 1) := h.tokens.keep hargv fun _ _ _ hs => hcell ▸ hs
      exact hold.snoc hpend hshows (by omega)
    · show s₁.argc = _
      rw [hcount, List.length_append, hquot]
      rfl
    · exact absurd (hquot.symm.trans hf) Bool.false_ne_true
  | cons d l =>
    rw [hdw] at hdrop hsplit hsum
    rw [List.length_cons] at hsum
    obtain ⟨s₂, hs₂⟩ : ∃ s₂ : Parse, s₂ = { s₁ with next := s.next + (rest.takeWhile inWord).length } := ⟨_, rfl⟩
    have hd : d ≠ 0 := fun e => h.nonzero (hsplit ▸ List.mem_append_right _ (e ▸ List.mem_cons_self))
    have h0 : 0 ∉ l := fun hm =>
      h.nonzero (hsplit ▸ List.mem_append_right _ (List.mem_cons_of_mem d hm))
    have hne : rest ≠ [] := by
      rw [← hsplit]
      simp
    have hshows : Shows s₂.cell s.next (rest.takeWhile inWord ++ d :: l) := by
      rw [hsplit, hs₂]
      show Shows s₁.cell s.next rest
      rw [hcell]
      exact h.shows
    have hold : Tokens s₂ ts s.next := by
      rw [hs₂]
      exact (h.before hne).keep hargv fun _ _ _ hs => hcell ▸ hs
    obtain ⟨hrest, htokens⟩ := cut_token hshows (by rw [hs₂]) hold (by rw [hs₂]; exact hpend)
    have hnext : (cut s₂).next = s.next + (rest.takeWhile inWord).length + 1 := by rw [hs₂]; rfl
    have hquot₂ : (cut s₂).quot = false := by
      rw [hs₂]
      exact hquot
    refine ⟨cut s₂, ?_, hquot₂, hrest, by simp only [List.tail_cons]; omega, h0, htokens.mono (by omega),
      fun _ => htokens, ?_, fun hf => ?_⟩
    · refine bind_of_ok hpush (bind_of_ok hskip (bind_of_ok (look_shows hdrop (by simp; omega)) ?_))
      rw [← hs₂]
      show Except.ok (if d ≠ 0 then _ else _) = _
      rw [if_pos hd]
    · rw [List.length_append, hquot₂, hs₂]
      exact hcount
    · exact absurd (hquot₂.symm.trans hf) Bool.false_ne_true

/-- The spaces in front of a token are passed over. -/
theorem Reading.skip (h : Reading n rest ts s) (hq : s.quot = false) :
    Reading n (rest.dropWhile (skipped false)) ts
      { s with next := s.next + (rest.takeWhile (skipped false)).length } := by
  have hsplit := List.takeWhile_append_dropWhile (p := skipped false) (l := rest)
  have hsum := congrArg List.length hsplit
  have hlen := h.length
  rw [List.length_append] at hsum
  have hall : Shows s.cell s.next (rest.takeWhile (skipped false) ++ rest.dropWhile (skipped false)) := by
    rw [hsplit]
    exact h.shows
  refine ⟨hall.drop, by dsimp only; omega, fun hm => ?_, h.tokens, fun hne => ?_, h.argc, fun hf => ?_⟩
  · exact h.nonzero (hsplit ▸ List.mem_append_right _ hm)
  · have hne' : rest ≠ [] := fun e => hne (by rw [e]; rfl)
    exact (h.before hne').mono (Nat.le_add_right ..)
  · exact absurd (hq.symm.trans hf) Bool.false_ne_true

/-- One round of the loop, where the inner loop comes to its end. -/
theorem Reading.round {next : Nat} {c : UInt8} (h : Reading n rest ts s) (hne : rest ≠ [])
    (hfull : s.argc < MAX_ARG_NR) (hskip : skipWhile n s.cell (skipped s.quot) (n + 1) s.next = .ok next)
    (hlook : Osh.look n s.cell next = .ok c) : parseLoop n (fuel + 1) s =
      if c = 0 then .ok { s with next := next } else takeToken n c { s with next := next } >>= parseLoop n fuel := by
  rw [parseLoop]
  refine bind_of_ok h.look ?_
  have hc : rest.head?.getD 0 ≠ 0 := by
    cases rest with
    | nil => exact absurd rfl hne
    | cons d l => exact fun e => h.nonzero (e ▸ List.mem_cons_self)
  rw [if_pos ⟨hc, hfull⟩]
  exact bind_of_ok hskip (bind_of_ok hlook rfl)

/-- One round, where it does not. -/
theorem Reading.round_error {e : Stop} (h : Reading n rest ts s) (hne : rest ≠ []) (hfull : s.argc < MAX_ARG_NR)
    (hskip : skipWhile n s.cell (skipped s.quot) (n + 1) s.next = .error e) :
    parseLoop n (fuel + 1) s = .error e := by
  rw [parseLoop]
  refine bind_of_ok h.look ?_
  have hc : rest.head?.getD 0 ≠ 0 := by
    cases rest with
    | nil => exact absurd rfl hne
    | cons d l => exact fun e => h.nonzero (e ▸ List.mem_cons_self)
  rw [if_pos ⟨hc, hfull⟩, hskip]
  rfl

/-- The first byte that fails a test. -/
theorem dropWhile_head {q : UInt8 → Bool} {c : UInt8} {l : List UInt8} (h : rest.dropWhile q = c :: l) :
    q c = false := by
  have hne : rest.dropWhile q ≠ [] := by
    rw [h]
    exact List.cons_ne_nil _ _
  have hnot := List.head_dropWhile_not q hne
  simpa only [h, List.head_cons] using hnot

/-- **The loop makes arguments of the pieces.** -/
theorem parseLoop_outcome (h : Reading n rest ts s) (hf : rest.length < fuel) :
    Outcome n (parseLoop n fuel s) ts (pieces (spot s.quot) rest) := by
  induction fuel generalizing rest ts s with
  | zero => omega
  | succ fuel ih =>
    have hlen := h.length
    by_cases hstop : rest = [] ∨ MAX_ARG_NR ≤ s.argc
    · have hend : parseLoop n (fuel + 1) s = .ok s := by
        rw [parseLoop]
        refine bind_of_ok h.look (if_neg fun hc => ?_)
        rcases hstop with rfl | hfull
        · exact hc.1 rfl
        · omega
      rw [hend]
      exact h.stop hstop
    · obtain ⟨hne, hfull⟩ := not_or.mp hstop
      have hfull := Nat.not_le.mp hfull
      by_cases hq : s.quot = true
      · -- the text of a quote, up to the next one
        have hspot : spot s.quot = .quote [] := by rw [hq]; rfl
        rw [hspot, pieces_quote]
        by_cases hm : QUOTE ∈ rest
        · have hskip : skipWhile n s.cell (skipped s.quot) (n + 1) s.next =
              .ok (s.next + (rest.takeWhile (skipped true)).length) := by
            rw [hq]
            exact skipWhile_stops h.shows hlen (by omega) (.inr ⟨QUOTE, hm, rfl⟩)
          have hsplit := List.takeWhile_append_dropWhile (p := skipped true) (l := rest)
          cases hdw : rest.dropWhile (skipped true) with
          | nil =>
            rw [hdw, List.append_nil] at hsplit
            exact absurd (List.mem_takeWhile_imp (hsplit.symm ▸ hm)) (by decide)
          | cons c l =>
            have hstops : ¬ c = BLANK ∧ c = QUOTE := by simpa [skipped] using dropWhile_head hdw
            obtain rfl := hstops.2
            rw [hdw] at hsplit
            have hread : Reading n (rest.takeWhile (skipped true) ++ QUOTE :: l) ts s := by
              rw [hsplit]
              exact h
            have hsum := congrArg List.length hsplit
            rw [List.length_append, List.length_cons] at hsum
            obtain ⟨s', htoggle, hq', hnext⟩ := hread.close hq
            have hlook : Osh.look n s.cell (s.next + (rest.takeWhile (skipped true)).length) = .ok QUOTE :=
              look_shows hread.shows.drop (by rw [List.length_cons]; omega)
            have hrest := ih hnext (by omega)
            rw [hq'] at hrest
            rw [if_pos hm, h.round hne hfull hskip hlook, if_neg (by decide), takeToken, if_pos rfl,
              bind_of_ok htoggle rfl]
            exact Outcome.piece (a := .quoted (rest.takeWhile (skipped true))) hrest fun _ => by simp
        · have hall : ∀ c ∈ rest, skipped true c = true := fun c hc => by
            have hcq : c ≠ QUOTE := fun e => hm (e ▸ hc)
            simp [skipped, hcq]
          obtain ⟨e, he⟩ : ∃ e, skipWhile n s.cell (skipped s.quot) (n + 1) s.next = .error e := by
            rw [hq]
            exact skipWhile_overruns h.shows hlen rfl hall
          rw [if_neg hm, h.round_error hne hfull he]
          refine .inr ⟨fun hc => hne (hc.1 _ List.mem_cons_self), fun s' hs' => ?_⟩
          cases hs'
      · -- the spaces in front of a token, and the token
        have hq : s.quot = false := by simpa using hq
        have hspot : spot s.quot = .between := by rw [hq]; rfl
        have hskip : skipWhile n s.cell (skipped s.quot) (n + 1) s.next =
            .ok (s.next + (rest.takeWhile (skipped false)).length) := by
          rw [hq]
          exact skipWhile_stops h.shows hlen (by omega) (.inl rfl)
        have hread := h.skip hq
        have hlook := hread.look
        have hle : (rest.dropWhile (skipped false)).length ≤ rest.length := (List.dropWhile_sublist _).length_le
        rw [hspot, pieces_spaces, h.round hne hfull hskip hlook]
        cases hdw : rest.dropWhile (skipped false) with
        | nil =>
          rw [hdw] at hread
          have hend := hread.stop (.inl rfl)
          rw [show spot _ = Spot.between from hspot] at hend
          exact hend
        | cons c l =>
          rw [hdw] at hread hle
          rw [List.length_cons] at hle
          have hblank : c ≠ BLANK := by simpa [skipped] using dropWhile_head hdw
          have hc0 : c ≠ 0 := fun e => hread.nonzero (e ▸ List.mem_cons_self)
          show Outcome n (if c = 0 then _ else takeToken n c _ >>= parseLoop n fuel) ts _
          rw [if_neg hc0, takeToken, pieces, if_neg hblank]
          by_cases hc : c = QUOTE
          · subst hc
            obtain ⟨s', htoggle, hq', hnext⟩ := hread.open hq hfull
            have hrest := ih hnext (by omega)
            rw [hq'] at hrest
            rw [if_pos rfl, if_pos rfl, bind_of_ok htoggle rfl]
            exact hrest
          · obtain ⟨s', hword, hq', hnext⟩ := hread.word hq hfull
            have hin : inWord c = true := by simp [inWord, hc0, hblank]
            rw [List.dropWhile_cons, List.takeWhile_cons, if_pos hin, if_pos hin] at hnext
            have hshort : (l.dropWhile inWord).length ≤ l.length := (List.dropWhile_sublist _).length_le
            have hrest := ih hnext (by rw [List.length_tail]; omega)
            rw [hq'] at hrest
            rw [if_neg hc, if_neg hc, bind_of_ok hword rfl, pieces_word (not_mem_tail hread.nonzero)]
            exact Outcome.piece (a := .word (c :: l.takeWhile inWord)) hrest fun _ => by simp

/-- **`cmd_parse` does what it is for if and only if** there are fewer than `MAX_ARG_NR` tokens and no quote
    is left open with something behind it. -/
theorem cmdParse_parses {cell : Nat → UInt8} (argv : Nat → Option Nat) (h : Shows cell 0 line) (h0 : 0 ∉ line) :
    (∃ s, cmdParse line.length cell argv = .ok s ∧ Parses line s) ↔
      (words line).length < MAX_ARG_NR ∧ Closed (pieces .between line) := by
  have hstart : Reading line.length line [] ⟨0, 0, false, cell, argv⟩ :=
    ⟨h, Nat.zero_add _, h0, fun i hi => absurd hi (Nat.not_lt_zero i), fun _ i hi => absurd hi (Nat.not_lt_zero i), rfl,
      fun hf => absurd hf Bool.false_ne_true⟩
  have hout : Outcome line.length (parseLoop line.length (line.length + 1) ⟨0, 0, false, cell, argv⟩) []
      (pieces .between line) := parseLoop_outcome hstart (Nat.lt_succ_self _)
  have hwords : (words line).length = (pieces .between line).length := List.length_map ..
  rw [hwords]
  rcases hout with ⟨hclosed, hlt, s, hs, hargc, htokens⟩ | ⟨hnot, hfull⟩
  · rw [List.length_nil, Nat.zero_add] at hlt hargc
    refine iff_of_true ⟨_, bind_of_ok hs (if_pos (hargc ▸ hlt)), hargc ▸ Nat.le_of_lt hlt, fun _ _ => ?_⟩ ⟨hlt, hclosed⟩
    refine ⟨hargc.trans hwords.symm, ?_, Function.update_self ..⟩
    refine htokens.keep (fun i hi => ?_) fun _ _ _ hs => hs
    have hi : i < (words line).length := hi
    rw [hwords] at hi
    exact Function.update_of_ne (by omega) ..
  · refine iff_of_false ?_ fun hc => hnot ⟨hc.2, by simpa using hc.1⟩
    rintro ⟨s', hs', -⟩
    obtain ⟨s, hs, hset⟩ := ok_of_bind hs'
    have hge := hfull s hs
    rw [setArg, if_neg (Nat.not_lt.mpr hge)] at hset
    cases hset

end Loop

/-- The bytes of a line. -/
def lineCells (text : List UInt8) (i : Nat) : UInt8 := text[i]?.getD 0

theorem lineCells_shows (line : List UInt8) : Shows (lineCells line) 0 line := by
  refine ⟨fun i hi => ?_, ?_⟩
  · rw [Nat.zero_add, lineCells, List.getElem?_eq_getElem hi]
    rfl
  · rw [Nat.zero_add, lineCells, List.getElem?_eq_none (Nat.le_refl _)]
    rfl

/-- `ls "a b"`. -/
theorem cmdParse_parses_quoted :
    ∃ s, cmdParse 8 (lineCells [108, 115, 32, 34, 97, 32, 98, 34]) (fun _ => none) = .ok s ∧
    Parses [108, 115, 32, 34, 97, 32, 98, 34] s := by
  have hpieces : pieces .between [108, 115, 32, 34, 97, 32, 98, 34] = [.word [108, 115], .quoted [97, 32, 98]] := by
    decide
  refine (cmdParse_parses _ (lineCells_shows [108, 115, 32, 34, 97, 32, 98, 34]) (by decide)).mpr ⟨by decide, ?_⟩
  rw [hpieces]
  exact fun t ht => by simp at ht

/-- **A quote left open, and sixteen words**: on both lines the function leaves its arrays. -/
theorem cmdParse_overruns : cmdParse 2 (lineCells [34, 97]) (fun _ => none) = .error .outOfBuffer ∧
    cmdParse 32 (lineCells (List.replicate 16 [97, 32]).flatten) (fun _ => none) = .error .outOfBuffer :=
  ⟨rfl, rfl⟩

end Yuios.Osh
