/-
  File:      Yuios/Kernel/Console.lean
  Subject:   THE CONSOLE: `console_clear` and `console_write` of `kernel/console.c`, with every store
             they make.

  The four position variables are machine words, so every sum below wraps as the code's do. A store
  is a byte with its address; `stores` keeps the addresses since `console_clear` began.

  * `At` -- what holds between two calls: the cursor is on the screen (or just behind the last
    column), the screen is inside the memory, and `pos` is the cell of the cursor.
  * `Edge` -- the step whose stores leave the memory: a line feed on the last row while one row is
    left below the screen, but not two. `scroll_up` clears the row with 32-bit stores, so it
    clears two.
  * **`console_stays`** -- over any calls: all stores are inside and `At` holds, exactly when no
    byte is such a step.
-/
import Mathlib.Algebra.Group.Nat.Defs
import Mathlib.Logic.Function.Iterate
import Mathlib.Tactic.SplitIfs

namespace Yuios.Console

/-! ## 1. The code -/

def MEM_BASE : UInt32 := 0xB8000

def MEM_SIZE : UInt32 := 0x4000

def MEM_END : UInt32 := MEM_BASE + MEM_SIZE

def WIDTH : UInt32 := 80

def HEIGHT : UInt32 := 25

def ROW_SIZE : UInt32 := WIDTH * 2

def SCR_SIZE : UInt32 := ROW_SIZE * HEIGHT

@[simp] theorem toNat_MEM_BASE : MEM_BASE.toNat = 753664 := rfl
@[simp] theorem toNat_MEM_END : MEM_END.toNat = 770048 := rfl
@[simp] theorem toNat_ROW_SIZE : ROW_SIZE.toNat = 160 := rfl
@[simp] theorem toNat_SCR_SIZE : SCR_SIZE.toNat = 4000 := rfl

def ASCII_NULL : UInt8 := 0x00
def ASCII_ENQ : UInt8 := 0x05
def ASCII_BEL : UInt8 := 0x07
def ASCII_BS : UInt8 := 0x08
def ASCII_HT : UInt8 := 0x09
def ASCII_LF : UInt8 := 0x0A
def ASCII_VT : UInt8 := 0x0B
def ASCII_FF : UInt8 := 0x0C
def ASCII_CR : UInt8 := 0x0D
def ASCII_DEL : UInt8 := 0x7F

def attr : UInt8 := 7

def erase : UInt16 := 0x0720

/-- The variables of the file, the CRT registers it sets (high and low byte), the memory, and the
    addresses stored to. -/
structure State where
  screen : UInt32
  pos : UInt32
  x : UInt32
  y : UInt32
  startAddr : UInt8 × UInt8
  cursor : UInt8 × UInt8
  mem : UInt32 → UInt8
  stores : List UInt32

/-- `*(char *)a = b`. -/
def State.put8 (s : State) (a : UInt32) (b : UInt8) : State :=
  { s with mem := Function.update s.mem a b, stores := a :: s.stores }

/-- `*(u16 *)a = w`. -/
def State.put16 (s : State) (a : UInt32) (w : UInt16) : State :=
  (s.put8 a w.toUInt8).put8 (a + 1) (w >>> 8).toUInt8

/-- `*(u32 *)a = w`. -/
def State.put32 (s : State) (a : UInt32) (w : UInt32) : State :=
  (s.put16 a w.toUInt16).put16 (a + 2) (w >>> 16).toUInt16

def registers (a : UInt32) : UInt8 × UInt8 :=
  (((a - MEM_BASE) >>> 9).toUInt8, ((a - MEM_BASE) >>> 1).toUInt8)

def setScreen (s : State) : State := { s with startAddr := registers s.screen }

def setCursor (s : State) : State := { s with cursor := registers s.pos }

/-- `n` times `*ptr++ = erase` with a `u16 *`. -/
def eraseCells : Nat → UInt32 → State → State
  | 0, _, s => s
  | n + 1, ptr, s => eraseCells n (ptr + 2) (s.put16 ptr erase)

/-- `n` times `*ptr++ = erase` with a `u32 *`. -/
def eraseWords : Nat → UInt32 → State → State
  | 0, _, s => s
  | n + 1, ptr, s => eraseWords n (ptr + 4) (s.put32 ptr erase.toUInt32)

def memcpy : Nat → UInt32 → UInt32 → State → State
  | 0, _, _, s => s
  | n + 1, dest, src, s => memcpy n (dest + 1) (src + 1) (s.put8 dest (s.mem src))

/-- The loop of `console_clear` runs from `MEM_BASE` to `MEM_END`, two bytes a turn. -/
def consoleClear (s : State) : State :=
  let s := setScreen (setCursor { s with screen := MEM_BASE, pos := MEM_BASE, x := 0, y := 0 })
  eraseCells (MEM_SIZE / 2).toNat MEM_BASE s

def commandBs (s : State) : State :=
  if s.x ≠ 0 then
    let s := { s with x := s.x - 1, pos := s.pos - 2 }
    s.put16 s.pos erase
  else s

/-- The first half of `scroll_up`: no row is left below, so the screen moves to the start. -/
def relocate (s : State) : State :=
  if s.screen + SCR_SIZE + ROW_SIZE ≥ MEM_END then
    let s := memcpy SCR_SIZE.toNat MEM_BASE s.screen s
    { s with pos := s.pos - (s.screen - MEM_BASE), screen := MEM_BASE }
  else s

def scrollUp (s : State) : State :=
  let s := relocate s
  let s := eraseWords WIDTH.toNat (s.screen + SCR_SIZE) s
  setScreen { s with screen := s.screen + ROW_SIZE, pos := s.pos + ROW_SIZE }

def commandLf (s : State) : State :=
  if s.y + 1 < HEIGHT then { s with y := s.y + 1, pos := s.pos + ROW_SIZE } else scrollUp s

def commandCr (s : State) : State := { s with pos := s.pos - (s.x <<< 1), x := 0 }

def commandDel (s : State) : State := s.put16 s.pos erase

/-- The default case of the switch: the deferred wrap, then the character and its attribute. -/
def wrap (s : State) : State :=
  if s.x ≥ WIDTH then commandLf { s with x := s.x - WIDTH, pos := s.pos - ROW_SIZE } else s

def display (s : State) (ch : UInt8) : State :=
  let s := wrap s
  let s := { (s.put8 s.pos ch) with pos := s.pos + 1 }
  let s := { (s.put8 s.pos attr) with pos := s.pos + 1 }
  { s with x := s.x + 1 }

/-- One turn of the loop of `console_write`. `start_beep` touches nothing of the console. -/
def writeChar (s : State) (ch : UInt8) : State :=
  if ch = ASCII_NULL then s
  else if ch = ASCII_ENQ then s
  else if ch = ASCII_BEL then s
  else if ch = ASCII_BS then commandBs s
  else if ch = ASCII_HT then s
  else if ch = ASCII_LF then commandCr (commandLf s)
  else if ch = ASCII_VT then s
  else if ch = ASCII_FF then commandLf s
  else if ch = ASCII_CR then commandCr s
  else if ch = ASCII_DEL then commandDel s
  else display s ch

/-- The state after the call, and `nr`: the test that ends the loop has counted once more. -/
def consoleWrite (s : State) (buf : List UInt8) : State × Int :=
  (setCursor (buf.foldl writeChar s), buf.length + 1)

/-! ## 2. What is to hold -/

/-- Every store went to `[MEM_BASE, MEM_END)`. -/
def Inside (s : State) : Prop := ∀ a ∈ s.stores, MEM_BASE ≤ a ∧ a < MEM_END

/-- The positions agree and are on the screen. -/
structure At (s : State) : Prop where
  x : s.x ≤ WIDTH
  y : s.y < HEIGHT
  low : MEM_BASE ≤ s.screen
  high : s.screen ≤ MEM_END - SCR_SIZE
  pos : s.pos = s.screen + s.y * ROW_SIZE + 2 * s.x

/-- The byte makes the console feed a line: `\n`, `\f`, or a character behind the last column. -/
def Feeds (s : State) (ch : UInt8) : Prop :=
  ch = ASCII_LF ∨ ch = ASCII_FF ∨
    (WIDTH ≤ s.x ∧ ch ∉ [ASCII_NULL, ASCII_ENQ, ASCII_BEL, ASCII_BS, ASCII_HT, ASCII_LF, ASCII_VT,
      ASCII_FF, ASCII_CR, ASCII_DEL])

/-- A line feed on the last row, with one row of memory left below the screen but not two. -/
structure Edge (s : State) (ch : UInt8) : Prop where
  feeds : Feeds s ch
  bottom : HEIGHT ≤ s.y + 1
  one : s.screen + SCR_SIZE + ROW_SIZE < MEM_END
  notTwo : MEM_END < s.screen + SCR_SIZE + 2 * ROW_SIZE

/-! ## 3. The positions -/

/-- The two states agree in the four position variables. -/
def SameSpot (s t : State) : Prop :=
  t.screen = s.screen ∧ t.pos = s.pos ∧ t.x = s.x ∧ t.y = s.y

theorem SameSpot.at {s t : State} (h : SameSpot s t) (ha : At s) : At t := by
  obtain ⟨h1, h2, h3, h4⟩ := h
  exact ⟨h3 ▸ ha.x, h4 ▸ ha.y, h1 ▸ ha.low, h1 ▸ ha.high, by rw [h1, h2, h3, h4]; exact ha.pos⟩

theorem SameSpot.trans {s t u : State} (h : SameSpot s t) (h' : SameSpot t u) : SameSpot s u := by
  simp_all [SameSpot]

theorem sameSpot_put8 (s : State) (a : UInt32) (b : UInt8) : SameSpot s (s.put8 a b) :=
  ⟨rfl, rfl, rfl, rfl⟩

theorem sameSpot_put16 (s : State) (a : UInt32) (w : UInt16) : SameSpot s (s.put16 a w) :=
  ⟨rfl, rfl, rfl, rfl⟩

theorem sameSpot_put32 (s : State) (a w : UInt32) : SameSpot s (s.put32 a w) :=
  (sameSpot_put16 s a w.toUInt16).trans (sameSpot_put16 _ (a + 2) (w >>> 16).toUInt16)

theorem sameSpot_eraseCells (n : Nat) : ∀ (ptr : UInt32) (s : State),
    SameSpot s (eraseCells n ptr s) := by
  induction n with
  | zero => exact fun _ _ => ⟨rfl, rfl, rfl, rfl⟩
  | succ n ih => exact fun ptr s => (sameSpot_put16 s ptr erase).trans (ih _ _)

theorem sameSpot_eraseWords (n : Nat) : ∀ (ptr : UInt32) (s : State),
    SameSpot s (eraseWords n ptr s) := by
  induction n with
  | zero => exact fun _ _ => ⟨rfl, rfl, rfl, rfl⟩
  | succ n ih => exact fun ptr s => (sameSpot_put32 s ptr erase.toUInt32).trans (ih _ _)

theorem sameSpot_memcpy (n : Nat) : ∀ (dest src : UInt32) (s : State),
    SameSpot s (memcpy n dest src s) := by
  induction n with
  | zero => exact fun _ _ _ => ⟨rfl, rfl, rfl, rfl⟩
  | succ n ih => exact fun dest src s => (sameSpot_put8 s dest (s.mem src)).trans (ih _ _ _)

theorem at_home {s : State} (h : s.screen = MEM_BASE ∧ s.pos = MEM_BASE ∧ s.x = 0 ∧ s.y = 0) :
    At s := by
  obtain ⟨h1, h2, h3, h4⟩ := h
  constructor <;> simp only [h1, h2, h3, h4] <;> decide

theorem at_consoleClear (s : State) : At (consoleClear s) :=
  (sameSpot_eraseCells _ _ _).at (at_home ⟨rfl, rfl, rfl, rfl⟩)

section Positions

variable {s : State}

theorem at_commandBs (h : At s) : At (commandBs s) := by
  unfold commandBs
  split
  · rename_i hx
    refine (sameSpot_put16 _ _ _).at ⟨?_, h.y, h.low, h.high, ?_⟩
    · have := h.x
      simp only [WIDTH] at *
      grind
    · rw [h.pos]
      grind
  · exact h

/-- The copy moves nothing; then the screen and the cursor are moved. -/
theorem relocate_copy (s : State) : ∃ m, SameSpot s m ∧ relocate s =
    if s.screen + SCR_SIZE + ROW_SIZE ≥ MEM_END then
      { m with pos := m.pos - (m.screen - MEM_BASE), screen := MEM_BASE }
    else s :=
  ⟨_, sameSpot_memcpy SCR_SIZE.toNat MEM_BASE s.screen s, rfl⟩

/-- The screen moved to the start, the cursor with it; there are two free rows below now. -/
theorem at_relocate (h : At s) : At (relocate s) := by
  obtain ⟨m, ⟨h1, h2, h3, h4⟩, heq⟩ := relocate_copy s
  rw [heq]
  split
  · refine ⟨h3 ▸ h.x, h4 ▸ h.y, UInt32.le_refl MEM_BASE, ?_, ?_⟩
    · show MEM_BASE ≤ MEM_END - SCR_SIZE
      decide
    · show m.pos - (m.screen - MEM_BASE) = MEM_BASE + m.y * ROW_SIZE + 2 * m.x
      rw [h1, h2, h3, h4, h.pos]
      grind
  · exact h

theorem relocate_room (s : State) : (relocate s).screen + SCR_SIZE + ROW_SIZE < MEM_END := by
  unfold relocate
  split
  · show MEM_BASE + SCR_SIZE + ROW_SIZE < MEM_END
    decide
  · rename_i h
    exact UInt32.not_le.mp h

theorem relocate_column (s : State) : (relocate s).x = s.x ∧ (relocate s).y = s.y := by
  obtain ⟨m, ⟨-, -, h3, h4⟩, heq⟩ := relocate_copy s
  rw [heq]
  split
  · exact ⟨h3, h4⟩
  · exact ⟨rfl, rfl⟩

theorem scrollUp_spot (s : State) :
    (scrollUp s).screen = (relocate s).screen + ROW_SIZE ∧
      (scrollUp s).pos = (relocate s).pos + ROW_SIZE ∧
      (scrollUp s).x = s.x ∧ (scrollUp s).y = s.y := by
  obtain ⟨hx, hy⟩ := relocate_column s
  unfold scrollUp
  generalize relocate s = t at hx hy ⊢
  have hw := sameSpot_eraseWords WIDTH.toNat (t.screen + SCR_SIZE) t
  dsimp only
  generalize eraseWords WIDTH.toNat (t.screen + SCR_SIZE) t = u at hw ⊢
  obtain ⟨h1, h2, h3, h4⟩ := hw
  exact ⟨congrArg (· + ROW_SIZE) h1, congrArg (· + ROW_SIZE) h2, h3.trans hx, h4.trans hy⟩

theorem at_scrollUp (h : At s) : At (scrollUp s) := by
  have hr := relocate_room s
  have ha := at_relocate h
  obtain ⟨hx, hy⟩ := relocate_column s
  obtain ⟨h1, h2, h3, h4⟩ := scrollUp_spot s
  constructor
  · rw [h3]
    exact h.x
  · rw [h4]
    exact h.y
  · rw [h1]
    have := ha.low
    have := ha.high
    simp only [MEM_BASE, ROW_SIZE, SCR_SIZE, MEM_END, MEM_SIZE, HEIGHT, WIDTH] at *
    grind
  · rw [h1]
    have := ha.high
    simp only [MEM_BASE, ROW_SIZE, SCR_SIZE, MEM_END, MEM_SIZE, HEIGHT, WIDTH] at *
    grind
  · rw [h1, h2, h3, h4, ha.pos, hx, hy]
    grind

theorem at_commandLf (h : At s) : At (commandLf s) := by
  unfold commandLf
  split
  · rename_i hy
    refine ⟨h.x, hy, h.low, h.high, ?_⟩
    show s.pos + ROW_SIZE = _
    rw [h.pos]
    grind
  · exact at_scrollUp h

theorem commandLf_x (s : State) : (commandLf s).x = s.x := by
  unfold commandLf
  split
  · rfl
  · exact (scrollUp_spot s).2.2.1

theorem shiftLeft_one (a : UInt32) : a <<< 1 = 2 * a := by
  rw [← UInt32.toNat_inj, UInt32.toNat_shiftLeft, UInt32.toNat_mul, Nat.shiftLeft_eq, Nat.mul_comm]
  rfl

theorem at_commandCr (h : At s) : At (commandCr s) := by
  refine ⟨UInt32.zero_le, h.y, h.low, h.high, ?_⟩
  show s.pos - (s.x <<< 1) = s.screen + s.y * ROW_SIZE + 2 * 0
  rw [h.pos, shiftLeft_one]
  grind

/-- Behind the last column the cursor's cell is the first of the next row; the wrap goes back by a row
    first. -/
theorem at_rewind (h : At s) (hx : s.x = WIDTH) : At { s with x := s.x - WIDTH, pos := s.pos - ROW_SIZE } := by
  refine ⟨?_, h.y, h.low, h.high, ?_⟩
  · show s.x - WIDTH ≤ WIDTH
    rw [hx]
    decide
  · show s.pos - ROW_SIZE = s.screen + s.y * ROW_SIZE + 2 * (s.x - WIDTH)
    rw [h.pos, hx]
    grind [ROW_SIZE, WIDTH]

/-- So the wrap is a line feed from the start of the row. -/
theorem at_wrap (h : At s) : At (wrap s) ∧ (wrap s).x < WIDTH := by
  unfold wrap
  split
  · rename_i hx
    have hx : s.x = WIDTH := UInt32.le_antisymm h.x hx
    refine ⟨at_commandLf (at_rewind h hx), ?_⟩
    rw [commandLf_x]
    show s.x - WIDTH < WIDTH
    rw [hx]
    decide
  · rename_i hx
    exact ⟨h, UInt32.not_le.mp hx⟩

theorem at_display (h : At s) (ch : UInt8) : At (display s ch) := by
  obtain ⟨hw, hx⟩ := at_wrap h
  unfold display
  generalize wrap s = t at hw hx
  refine ⟨?_, hw.y, hw.low, hw.high, ?_⟩
  · show t.x + 1 ≤ WIDTH
    simp only [WIDTH] at *
    grind
  · show t.pos + 1 + 1 = t.screen + t.y * ROW_SIZE + 2 * (t.x + 1)
    rw [hw.pos]
    grind

/-- What holds after each case of the switch holds after the byte. -/
theorem writeChar_rule {P : State → Prop} {ch : UInt8} (same : P s) (bs : P (commandBs s))
    (lf : P (commandCr (commandLf s))) (ff : P (commandLf s)) (cr : P (commandCr s)) (del : P (commandDel s))
    (other : P (display s ch)) : P (writeChar s ch) := by
  unfold writeChar
  refine iteInduction (fun _ => same) fun _ => ?_
  refine iteInduction (fun _ => same) fun _ => ?_
  refine iteInduction (fun _ => same) fun _ => ?_
  refine iteInduction (fun _ => bs) fun _ => ?_
  refine iteInduction (fun _ => same) fun _ => ?_
  refine iteInduction (fun _ => lf) fun _ => ?_
  refine iteInduction (fun _ => same) fun _ => ?_
  refine iteInduction (fun _ => ff) fun _ => ?_
  refine iteInduction (fun _ => cr) fun _ => ?_
  refine iteInduction (fun _ => del) fun _ => ?_
  exact other

theorem at_writeChar (h : At s) (ch : UInt8) : At (writeChar s ch) :=
  writeChar_rule h (at_commandBs h) (at_commandCr (at_commandLf h)) (at_commandLf h) (at_commandCr h)
    ((sameSpot_put16 s s.pos erase).at h) (at_display h ch)

theorem at_consoleWrite (h : At s) (buf : List UInt8) : At (consoleWrite s buf).1 := by
  show At (setCursor (buf.foldl writeChar s))
  have hb : At (buf.foldl writeChar s) := by
    induction buf generalizing s with
    | nil => exact h
    | cons ch buf ih => exact ih (at_writeChar h ch)
  exact SameSpot.at (s := buf.foldl writeChar s) ⟨rfl, rfl, rfl, rfl⟩ hb

end Positions

/-! ## 4. The stores -/

/-- The `len` bytes from `a` on are bytes of the memory. -/
def Within (a : UInt32) (len : Nat) : Prop :=
  ∀ i < len, MEM_BASE ≤ a + UInt32.ofNat i ∧ a + UInt32.ofNat i < MEM_END

theorem within_add {a : UInt32} {m n : Nat} :
    Within a (m + n) ↔ Within a m ∧ Within (a + UInt32.ofNat m) n := by
  constructor
  · intro h
    refine ⟨fun i hi => h i (by omega), fun i hi => ?_⟩
    have := h (m + i) (by omega)
    rwa [UInt32.ofNat_add, ← UInt32.add_assoc] at this
  · rintro ⟨h1, h2⟩ i hi
    rcases Nat.lt_or_ge i m with hm | hm
    · exact h1 i hm
    · have := h2 (i - m) (by omega)
      rwa [UInt32.add_assoc, ← UInt32.ofNat_add, Nat.add_sub_cancel' hm] at this

/-- From an address in the memory on, bytes are within it as long as they do not reach its end. -/
theorem within_iff {a : UInt32} {n : Nat} (ha : MEM_BASE ≤ a) (hn : a.toNat + (n + 1) < 2 ^ 32) :
    Within a (n + 1) ↔ a.toNat + (n + 1) ≤ MEM_END.toNat := by
  have hb : (753664 : Nat) ≤ a.toNat := UInt32.le_iff_toNat_le.mp ha
  have he : ∀ i < n + 1, (a + UInt32.ofNat i).toNat = a.toNat + i := by
    intro i hi
    rw [UInt32.toNat_add, UInt32.toNat_ofNat']
    omega
  constructor
  · intro h
    have := UInt32.lt_iff_toNat_lt.mp (h n (by omega)).2
    rw [he n (by omega)] at this
    omega
  · intro h i hi
    rw [UInt32.le_iff_toNat_le, UInt32.lt_iff_toNat_lt, he i hi]
    exact ⟨by show 753664 ≤ _; omega, by omega⟩

theorem inside_of_stores {s t : State} (h : t.stores = s.stores) : Inside t ↔ Inside s := by
  rw [Inside, Inside, h]

theorem inside_put8 {s : State} {a : UInt32} {b : UInt8} :
    Inside (s.put8 a b) ↔ Inside s ∧ Within a 1 := by
  have hw : Within a 1 ↔ MEM_BASE ≤ a ∧ a < MEM_END := by simp [Within]
  rw [hw]
  simp [Inside, State.put8, and_comm]

theorem inside_put16 {s : State} {a : UInt32} {w : UInt16} :
    Inside (s.put16 a w) ↔ Inside s ∧ Within a 2 := by
  rw [State.put16, inside_put8, inside_put8, and_assoc, show 2 = 1 + 1 from rfl, within_add]
  rfl

theorem inside_put32 {s : State} {a w : UInt32} : Inside (s.put32 a w) ↔ Inside s ∧ Within a 4 := by
  rw [State.put32, inside_put16, inside_put16, and_assoc, show 4 = 2 + 2 from rfl, within_add]
  rfl

theorem inside_eraseCells (n : Nat) : ∀ (ptr : UInt32) (s : State),
    Inside (eraseCells n ptr s) ↔ Inside s ∧ Within ptr (2 * n) := by
  induction n with
  | zero => simp [eraseCells, Within]
  | succ n ih =>
    intro ptr s
    rw [eraseCells, ih, inside_put16, and_assoc, Nat.mul_succ, Nat.add_comm, within_add]
    rfl

theorem inside_eraseWords (n : Nat) : ∀ (ptr : UInt32) (s : State),
    Inside (eraseWords n ptr s) ↔ Inside s ∧ Within ptr (4 * n) := by
  induction n with
  | zero => simp [eraseWords, Within]
  | succ n ih =>
    intro ptr s
    rw [eraseWords, ih, inside_put32, and_assoc, Nat.mul_succ, Nat.add_comm, within_add]
    rfl

theorem inside_memcpy (n : Nat) : ∀ (dest src : UInt32) (s : State),
    Inside (memcpy n dest src s) ↔ Inside s ∧ Within dest n := by
  induction n with
  | zero => simp [memcpy, Within]
  | succ n ih =>
    intro dest src s
    rw [memcpy, ih, inside_put8, and_assoc, Nat.add_comm, within_add]
    rfl

/-! ## 5. The rows -/

/-- The address is that of a row from which a screen fits, with something to spare. -/
def OnRow (a : UInt32) : Prop := ∃ k ≤ 77, a.toNat = MEM_BASE.toNat + ROW_SIZE.toNat * k

/-- Where the screen is after `scroll_up`. -/
def nextScreen (a : UInt32) : UInt32 :=
  (if a + SCR_SIZE + ROW_SIZE ≥ MEM_END then MEM_BASE else a) + ROW_SIZE

section Rows

variable {s : State}

theorem relocate_screen (s : State) : (relocate s).screen + ROW_SIZE = nextScreen s.screen := by
  unfold relocate nextScreen
  split <;> rfl

theorem onRow_nextScreen {a : UInt32} (h : OnRow a) : OnRow (nextScreen a) := by
  obtain ⟨k, hk, ha⟩ := h
  by_cases hc : a + SCR_SIZE + ROW_SIZE ≥ MEM_END
  · rw [nextScreen, if_pos hc]
    exact ⟨1, by decide, rfl⟩
  · rw [nextScreen, if_neg hc]
    rw [ge_iff_le, UInt32.not_le, UInt32.lt_iff_toNat_lt] at hc
    simp at ha hc
    refine ⟨k + 1, by omega, ?_⟩
    simp
    omega

theorem commandLf_screen (s : State) :
    (commandLf s).screen = if s.y + 1 < HEIGHT then s.screen else nextScreen s.screen := by
  unfold commandLf
  split
  · rfl
  · rw [(scrollUp_spot s).1, relocate_screen]

theorem onRow_commandLf (h : OnRow s.screen) : OnRow (commandLf s).screen := by
  rw [commandLf_screen]
  split
  · exact h
  · exact onRow_nextScreen h

theorem onRow_wrap (h : OnRow s.screen) : OnRow (wrap s).screen := by
  unfold wrap
  split
  · exact onRow_commandLf h
  · exact h

theorem onRow_commandBs (h : OnRow s.screen) : OnRow (commandBs s).screen := by
  unfold commandBs
  split <;> exact h

theorem onRow_writeChar (h : OnRow s.screen) (ch : UInt8) : OnRow (writeChar s ch).screen :=
  writeChar_rule (P := fun s => OnRow s.screen) h (onRow_commandBs h) (onRow_commandLf h) (onRow_commandLf h) h h
    (onRow_wrap h)

theorem At.pos_toNat (h : At s) (hr : OnRow s.screen) :
    s.pos.toNat = s.screen.toNat + s.y.toNat * 160 + 2 * s.x.toNat ∧ s.y.toNat ≤ 24 ∧
      s.x.toNat ≤ 80 ∧ 753664 ≤ s.screen.toNat ∧ s.screen.toNat ≤ 765984 := by
  obtain ⟨k, hk, ha⟩ := hr
  obtain ⟨hx, hy, -, -, hp⟩ := h
  have hx : s.x.toNat ≤ 80 := UInt32.le_iff_toNat_le.mp hx
  have hy : s.y.toNat < 25 := UInt32.lt_iff_toNat_lt.mp hy
  have ha : s.screen.toNat = 753664 + 160 * k := ha
  have hp : s.pos.toNat = ((s.screen.toNat + s.y.toNat * 160 % 2 ^ 32) % 2 ^ 32
      + 2 * s.x.toNat % 2 ^ 32) % 2 ^ 32 := by
    rw [hp, UInt32.toNat_add, UInt32.toNat_add, UInt32.toNat_mul, UInt32.toNat_mul]
    rfl
  omega

/-- The cursor's cell is in the memory, also behind the last column. -/
theorem At.cell (h : At s) (hr : OnRow s.screen) : Within s.pos 2 := by
  obtain ⟨h1, h2, h3, h4, h5⟩ := h.pos_toNat hr
  have he : MEM_END.toNat = 770048 := rfl
  have hb : MEM_BASE.toNat = 753664 := rfl
  rw [within_iff (UInt32.le_iff_toNat_le.mpr (by omega)) (by omega)]
  omega

end Rows

/-! ## 6. One byte -/

/-- One row of memory is left below the screen, but not two. -/
def Tight (a : UInt32) : Prop :=
  a + SCR_SIZE + ROW_SIZE < MEM_END ∧ MEM_END < a + SCR_SIZE + 2 * ROW_SIZE

section Step

variable {s : State}

theorem inside_commandBs (h : At s) (hr : OnRow s.screen) : Inside (commandBs s) ↔ Inside s := by
  have hb := at_commandBs h
  unfold commandBs at *
  split
  · rename_i hx
    rw [if_pos hx] at hb
    have hc := hb.cell hr
    exact inside_put16.trans (and_iff_left hc)
  · exact Iff.rfl

theorem inside_relocate (s : State) : Inside (relocate s) ↔ Inside s := by
  have hw : Within MEM_BASE SCR_SIZE.toNat := (within_iff (UInt32.le_refl _) (by decide)).mpr (by decide)
  unfold relocate
  split
  · have hm := inside_memcpy SCR_SIZE.toNat MEM_BASE s.screen s
    generalize memcpy SCR_SIZE.toNat MEM_BASE s.screen s = t at hm
    exact (inside_of_stores rfl).trans (hm.trans (and_iff_left hw))
  · exact Iff.rfl

/-- **The row is cleared inside the memory, unless only one row is left.** -/
theorem inside_scrollUp (hr : OnRow s.screen) :
    Inside (scrollUp s) ↔ Inside s ∧ ¬Tight s.screen := by
  obtain ⟨k, hk, ha⟩ := hr
  simp at ha
  have he : Inside (scrollUp s) ↔
      Inside (relocate s) ∧ Within ((relocate s).screen + SCR_SIZE) (4 * WIDTH.toNat) := by
    unfold scrollUp
    have hw := inside_eraseWords WIDTH.toNat ((relocate s).screen + SCR_SIZE) (relocate s)
    dsimp only
    generalize eraseWords WIDTH.toNat ((relocate s).screen + SCR_SIZE) (relocate s) = t at hw
    exact (inside_of_stores rfl).trans hw
  rw [he, inside_relocate]
  refine and_congr_right fun _ => ?_
  have hn : (relocate s).screen = if s.screen + SCR_SIZE + ROW_SIZE ≥ MEM_END then MEM_BASE
      else s.screen := by
    unfold relocate
    split <;> rfl
  rw [hn]
  by_cases hc : s.screen + SCR_SIZE + ROW_SIZE ≥ MEM_END
  · rw [if_pos hc]
    refine iff_of_true ?_ fun ht => UInt32.not_le.mpr ht.1 hc
    exact (within_iff (by decide) (by decide)).mpr (by decide)
  · rw [if_neg hc]
    have hscr : (s.screen + SCR_SIZE).toNat = s.screen.toNat + 4000 := by simp; omega
    have hb : MEM_BASE ≤ s.screen + SCR_SIZE := by
      rw [UInt32.le_iff_toNat_le, hscr]
      simp
      omega
    rw [show 4 * WIDTH.toNat = 319 + 1 from rfl, within_iff hb (by omega), hscr, Tight,
      ← UInt32.not_le, and_iff_right hc, UInt32.lt_iff_toNat_lt, UInt32.toNat_add,
      UInt32.toNat_mul, hscr]
    simp
    rw [Nat.mod_eq_of_lt (by omega)]
    omega

theorem inside_commandLf (hr : OnRow s.screen) :
    Inside (commandLf s) ↔ Inside s ∧ ¬(HEIGHT ≤ s.y + 1 ∧ Tight s.screen) := by
  unfold commandLf
  split
  · rename_i hy
    exact (and_iff_left fun h => UInt32.not_le.mpr hy h.1).symm
  · rename_i hy
    rw [inside_scrollUp hr, and_iff_right (UInt32.not_lt.mp hy)]

theorem inside_wrap (hr : OnRow s.screen) :
    Inside (wrap s) ↔ Inside s ∧ ¬(WIDTH ≤ s.x ∧ HEIGHT ≤ s.y + 1 ∧ Tight s.screen) := by
  unfold wrap
  split
  · rename_i hx
    rw [inside_commandLf (s := { s with x := s.x - WIDTH, pos := s.pos - ROW_SIZE }) hr,
      and_iff_right (a := WIDTH ≤ s.x) hx]
    rfl
  · rename_i hx
    exact (and_iff_left fun h => hx h.1).symm

theorem inside_display (h : At s) (hr : OnRow s.screen) (ch : UInt8) :
    Inside (display s ch) ↔ Inside s ∧ ¬(WIDTH ≤ s.x ∧ HEIGHT ≤ s.y + 1 ∧ Tight s.screen) := by
  rw [← inside_wrap hr]
  have hc := (at_wrap h).1.cell (onRow_wrap hr)
  rw [show 2 = 1 + 1 from rfl, within_add] at hc
  unfold display
  generalize wrap s = t at hc ⊢
  have h1 : Inside { (t.put8 t.pos ch) with pos := t.pos + 1 } ↔ Inside t :=
    (inside_of_stores rfl).trans ((inside_put8 (b := ch)).trans (and_iff_left hc.1))
  exact (inside_of_stores rfl).trans
    ((inside_put8 (b := attr)).trans ((and_iff_left hc.2).trans h1))

/-- **What one byte stores stays inside, except at the edge.** -/
theorem inside_writeChar (h : At s) (hr : OnRow s.screen) (ch : UInt8) :
    Inside (writeChar s ch) ↔ Inside s ∧ ¬Edge s ch := by
  have he : Edge s ch ↔ Feeds s ch ∧ HEIGHT ≤ s.y + 1 ∧ Tight s.screen :=
    ⟨fun ⟨h1, h2, h3, h4⟩ => ⟨h1, h2, h3, h4⟩, fun ⟨h1, h2, h3, h4⟩ => ⟨h1, h2, h3, h4⟩⟩
  rw [he]
  by_cases hs : ch ∈ [ASCII_NULL, ASCII_ENQ, ASCII_BEL, ASCII_BS, ASCII_HT, ASCII_LF, ASCII_VT,
      ASCII_FF, ASCII_CR, ASCII_DEL]
  · -- a control character feeds a line when it is `\n` or `\f`
    have hf : Feeds s ch ↔ ch = ASCII_LF ∨ ch = ASCII_FF := by simp [Feeds, hs]
    rw [hf]
    simp only [List.mem_cons, List.not_mem_nil, or_false] at hs
    rcases hs with rfl | rfl | rfl | rfl | rfl | rfl | rfl | rfl | rfl | rfl
    · exact (and_iff_left fun h => absurd h.1 (by decide)).symm
    · exact (and_iff_left fun h => absurd h.1 (by decide)).symm
    · exact (and_iff_left fun h => absurd h.1 (by decide)).symm
    · exact (inside_commandBs h hr).trans (and_iff_left fun h => absurd h.1 (by decide)).symm
    · exact (and_iff_left fun h => absurd h.1 (by decide)).symm
    · exact (inside_commandLf hr).trans (by simp)
    · exact (and_iff_left fun h => absurd h.1 (by decide)).symm
    · exact (inside_commandLf hr).trans (by simp)
    · exact (and_iff_left fun h => absurd h.1 (by decide)).symm
    · exact (inside_put16.trans (and_iff_left (h.cell hr))).trans
        (and_iff_left fun h => absurd h.1 (by decide)).symm
  · have hf : Feeds s ch ↔ WIDTH ≤ s.x := by
      simp only [List.mem_cons, List.not_mem_nil, or_false, not_or] at hs
      simp [Feeds, hs]
    have hw : writeChar s ch = display s ch := by
      simp only [List.mem_cons, List.not_mem_nil, or_false, not_or] at hs
      simp [writeChar, hs]
    rw [hf, hw]
    exact inside_display h hr ch

end Step

/-! ## 7. Any calls -/

/-- `console_clear` on a machine with this memory, with no store before it. -/
def started (mem : UInt32 → UInt8) : State :=
  consoleClear ⟨0, 0, 0, 0, (0, 0), (0, 0), mem, []⟩

/-- The state after the calls of `console_write`. -/
def after (s : State) (calls : List (List UInt8)) : State :=
  calls.foldl (fun s buf => (consoleWrite s buf).1) s

/-- Each byte of a call with the state that meets it. -/
def bytesMet : State → List UInt8 → List (State × UInt8)
  | _, [] => []
  | s, ch :: buf => (s, ch) :: bytesMet (writeChar s ch) buf

/-- Each byte of the calls with the state that meets it. -/
def met : State → List (List UInt8) → List (State × UInt8)
  | _, [] => []
  | s, buf :: calls => bytesMet s buf ++ met (consoleWrite s buf).1 calls

/-- After each of the calls: the stores so far are inside, and the positions agree. -/
def Kept (s : State) (calls : List (List UInt8)) : Prop :=
  ∀ done, done <+: calls → Inside (after s done) ∧ At (after s done)

/-- No byte of the calls meets the console at the edge. -/
def Clear (s : State) (calls : List (List UInt8)) : Prop := ∀ e ∈ met s calls, ¬Edge e.1 e.2

section Runs

variable {s : State}

theorem inside_consoleWrite (h : At s) (hr : OnRow s.screen) (buf : List UInt8) :
    Inside (consoleWrite s buf).1 ↔ Inside s ∧ ∀ e ∈ bytesMet s buf, ¬Edge e.1 e.2 := by
  have hs : Inside (consoleWrite s buf).1 ↔ Inside (buf.foldl writeChar s) := inside_of_stores rfl
  rw [hs]
  clear hs
  induction buf generalizing s with
  | nil => simp [bytesMet]
  | cons ch buf ih =>
    have hb := ih (at_writeChar h ch) (onRow_writeChar hr ch)
    rw [inside_writeChar h hr ch, and_assoc] at hb
    exact hb.trans (by simp [bytesMet])

theorem onRow_consoleWrite (hr : OnRow s.screen) (buf : List UInt8) :
    OnRow (consoleWrite s buf).1.screen := by
  show OnRow (buf.foldl writeChar s).screen
  induction buf generalizing s with
  | nil => exact hr
  | cons ch buf ih => exact ih (onRow_writeChar hr ch)

theorem at_after (h : At s) (calls : List (List UInt8)) : At (after s calls) := by
  induction calls generalizing s with
  | nil => exact h
  | cons buf calls ih => exact ih (at_consoleWrite h buf)

theorem inside_after (h : At s) (hr : OnRow s.screen) (calls : List (List UInt8)) :
    Inside (after s calls) ↔ Inside s ∧ Clear s calls := by
  induction calls generalizing s with
  | nil => simp [after, Clear, met]
  | cons buf calls ih =>
    have := ih (at_consoleWrite h buf) (onRow_consoleWrite hr buf)
    rw [show after s (buf :: calls) = after (consoleWrite s buf).1 calls from rfl, this,
      inside_consoleWrite h hr, and_assoc]
    simp only [Clear, met, List.mem_append, or_imp, forall_and]

theorem clear_of_prefix {done calls : List (List UInt8)} (hp : done <+: calls) (h : Clear s calls) :
    Clear s done := by
  obtain ⟨rest, rfl⟩ := hp
  induction done generalizing s with
  | nil => simp [Clear, met]
  | cons buf done ih =>
    simp only [Clear, List.cons_append, met, List.mem_append, or_imp, forall_and] at h ⊢
    exact ⟨h.1, ih h.2⟩

theorem at_started (mem : UInt32 → UInt8) : At (started mem) := at_consoleClear _

theorem onRow_started (mem : UInt32 → UInt8) : OnRow (started mem).screen := by
  refine ⟨0, by decide, ?_⟩
  rw [started, consoleClear, (sameSpot_eraseCells _ _ _).1]
  rfl

theorem inside_started (mem : UInt32 → UInt8) : Inside (started mem) := by
  refine (inside_eraseCells _ _ _).mpr ⟨fun a ha => absurd ha List.not_mem_nil, ?_⟩
  exact (within_iff (n := 16383) (UInt32.le_refl _) (by decide)).mpr (by decide)

end Runs

/-- **From `console_clear` on**, over any calls with any bytes: after each call every store so far
    went to the memory and the positions agree, exactly when no byte of the calls feeds a line on
    the last row with one row of memory left below the screen. -/
theorem console_stays (mem : UInt32 → UInt8) (calls : List (List UInt8)) :
    Kept (started mem) calls ↔ Clear (started mem) calls := by
  have ha := at_started mem
  have hr := onRow_started mem
  constructor
  · intro h
    exact ((inside_after ha hr calls).mp (h calls List.prefix_rfl).1).2
  · intro h done hp
    exact ⟨(inside_after ha hr done).mpr ⟨inside_started mem, clear_of_prefix hp h⟩,
      at_after ha done⟩

theorem mem_bytesMet (s : State) (a b : List UInt8) (ch : UInt8) :
    (a.foldl writeChar s, ch) ∈ bytesMet s (a ++ ch :: b) := by
  induction a generalizing s with
  | nil => exact List.mem_cons_self
  | cons c a ih => exact List.mem_cons_of_mem _ (ih (writeChar s c))

/-- The row of the cursor and the screen after a line feed. -/
def fed (p : UInt32 × UInt32) : UInt32 × UInt32 :=
  if p.1 + 1 < HEIGHT then (p.1 + 1, p.2) else (p.1, nextScreen p.2)

theorem spot_newline (s : State) :
    ((writeChar s ASCII_LF).y, (writeChar s ASCII_LF).screen) = fed (s.y, s.screen) := by
  show ((commandLf s).y, (commandLf s).screen) = _
  rw [commandLf_screen, fed, commandLf]
  split
  · rfl
  · rw [(scrollUp_spot s).2.2.2]

theorem spot_newlines (n : Nat) (s : State) :
    (((List.replicate n ASCII_LF).foldl writeChar s).y,
      ((List.replicate n ASCII_LF).foldl writeChar s).screen) = fed^[n] (s.y, s.screen) := by
  induction n generalizing s with
  | zero => rfl
  | succ n ih => rw [List.replicate_succ, List.foldl_cons, ih, spot_newline, Function.iterate_succ_apply]

/-- A hundred and one newlines: the last one stores behind the memory. -/
theorem console_leaves : ¬∀ (mem : UInt32 → UInt8) (calls : List (List UInt8)),
    Kept (started mem) calls := by
  intro h
  have hk := h (fun _ => 0) [List.replicate 100 ASCII_LF ++ ASCII_LF :: []]
  obtain ⟨hi, -⟩ := hk _ List.prefix_rfl
  rw [inside_after (at_started _) (onRow_started _)] at hi
  refine hi.2 _ (List.mem_append_left _ (mem_bytesMet _ _ [] ASCII_LF)) ?_
  have hs := spot_newlines 100 (started fun _ => 0)
  have h0 : ((started fun _ => 0).y, (started fun _ => 0).screen) = (0, MEM_BASE) := by
    rw [started, consoleClear, (sameSpot_eraseCells _ _ _).1, (sameSpot_eraseCells _ _ _).2.2.2]
    rfl
  rw [h0] at hs
  have h1 : fed^[100] (0, MEM_BASE) = (24, 765824) := by decide +kernel
  rw [h1, Prod.mk.injEq] at hs
  refine ⟨Or.inl rfl, ?_, ?_, ?_⟩ <;> dsimp only <;> first | rw [hs.1] | rw [hs.2]
  · decide
  · decide
  · decide

end Yuios.Console
