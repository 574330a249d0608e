/-
  File:      Yuios/Kernel/Terminal.lean
  Subject:   THE SCREEN AS A TERMINAL: what the 80 x 25 cells in view show after any calls of
             `console_write`.

  `Terminal` is the reference: a list of 25 rows and a cursor, that knows nothing of video memory. It
  is written for cells of any kind and used twice. Once the cells are what is shown; once they tell which
  cells the loop of `scroll_up` has left 0: it stores `erase` with a `u32 *`, so every second cell
  of the row that comes into view gets the upper half of the word.

  * `Shows` -- memory and cursor agree with the two terminals: a cell in view is 0 where it is
    marked, and the reference's otherwise.
  * **`console_shows`** -- after any calls the screen is the reference's exactly when no cell is
    marked.
-/
import Yuios.Kernel.Console

namespace Yuios.Console

/-! ## 1. The reference -/

/-- Rows from the top, and the cursor; `x = 80` is behind the last column. -/
structure Terminal (α : Type) where
  rows : Vector (Vector α 80) 25
  x : Nat
  y : Nat

/-- What an erased cell holds, the row that is appended at the bottom, and what a character leaves. -/
structure Look (α : Type) where
  blank : α
  row : Vector α 80
  glyph : UInt8 → α

namespace Terminal

variable {α : Type}

/-- The cursor's cell; behind the last column it is the first of the next row, if there is one. -/
def put (t : Terminal α) (a : α) : Terminal α :=
  if h : t.y + t.x / 80 < 25 then
    let row := t.rows[t.y + t.x / 80].set (t.x % 80) a (Nat.mod_lt _ (by decide))
    { t with rows := t.rows.set (t.y + t.x / 80) row h }
  else t

/-- On the bottom row the rows move up by one, and a row is appended. -/
def feed (l : Look α) (t : Terminal α) : Terminal α :=
  if t.y + 1 < 25 then { t with y := t.y + 1 } else { t with rows := (t.rows.drop 1).push l.row }

def back (l : Look α) (t : Terminal α) : Terminal α :=
  if t.x ≠ 0 then { t with x := t.x - 1 }.put l.blank else t

def home (t : Terminal α) : Terminal α := { t with x := 0 }

def wrap (l : Look α) (t : Terminal α) : Terminal α :=
  if 80 ≤ t.x then feed l { t with x := t.x - 80 } else t

def display (l : Look α) (t : Terminal α) (ch : UInt8) : Terminal α :=
  let t := (wrap l t).put (l.glyph ch)
  { t with x := t.x + 1 }

/-- One byte, interpreted as the cases of `console_write` do. -/
def take (l : Look α) (t : Terminal α) (ch : UInt8) : Terminal α :=
  if ch ∈ [ASCII_NULL, ASCII_ENQ, ASCII_BEL, ASCII_HT, ASCII_VT] then t
  else if ch = ASCII_BS then t.back l
  else if ch = ASCII_LF then (t.feed l).home
  else if ch = ASCII_FF then t.feed l
  else if ch = ASCII_CR then t.home
  else if ch = ASCII_DEL then t.put l.blank
  else t.display l ch

/-- The terminal that has taken the bytes of the calls, from an erased screen on. -/
def written (l : Look α) (calls : List (List UInt8)) : Terminal α :=
  calls.flatten.foldl (take l) ⟨.replicate 25 (.replicate 80 l.blank), 0, 0⟩

end Terminal

/-- The reference: cells of character and attribute. -/
def reference : Look UInt16 :=
  ⟨erase, .replicate 80 erase, fun ch => ch.toUInt16 ||| attr.toUInt16 <<< 8⟩

/-- The cells that are left 0: the odd ones of a row that came into view, until something is written
    there. -/
def leftZero : Look Bool := ⟨false, .ofFn fun c => c.val % 2 == 1, fun _ => false⟩

/-! ## 2. The screen -/

/-- The two bytes of a cell. -/
def cell (mem : UInt32 → UInt8) (a : UInt32) : UInt16 :=
  (mem a).toUInt16 ||| (mem (a + 1)).toUInt16 <<< 8

/-- Where the registers say that the screen starts, as `get_screen` reads them. -/
def getScreen (s : State) : UInt32 :=
  ((s.startAddr.1.toUInt32 <<< 8 ||| s.startAddr.2.toUInt32) <<< 1) + MEM_BASE

/-- The cell in row `r` and column `c` of what is in view. -/
def visible (s : State) (r c : Nat) : UInt16 :=
  cell s.mem (getScreen s + UInt32.ofNat (2 * (80 * r + c)))

/-! ## 3. The memory in cells -/

/-- The address of the `k`-th cell of the memory. -/
def cellAddr (k : Nat) : UInt32 := MEM_BASE + UInt32.ofNat (2 * k)

/-- What the `k`-th cell of the memory holds. -/
def State.cellAt (s : State) (k : Nat) : UInt16 := cell s.mem (cellAddr k)

theorem toNat_cellAddr {k : Nat} (hk : k < 2 ^ 30) : (cellAddr k).toNat = 753664 + 2 * k := by
  rw [cellAddr, UInt32.toNat_add, UInt32.toNat_ofNat']
  simp
  omega

theorem cellAddr_add (k n : Nat) : cellAddr k + UInt32.ofNat (2 * n) = cellAddr (k + n) := by
  rw [cellAddr, cellAddr, UInt32.add_assoc, ← UInt32.ofNat_add, Nat.mul_add]

theorem cellAddr_eq {j k : Nat} (hj : j < 2 ^ 30) (hk : k < 2 ^ 30) : cellAddr j = cellAddr k ↔ j = k := by
  rw [← UInt32.toNat_inj, toNat_cellAddr hj, toNat_cellAddr hk]
  omega

/-- A cell's second byte is no other cell's first. -/
theorem cellAddr_ne_succ {j k : Nat} (hj : j < 2 ^ 30) (hk : k < 2 ^ 30) : cellAddr j ≠ cellAddr k + 1 := by
  intro h
  have h := congrArg UInt32.toNat h
  rw [UInt32.toNat_add, toNat_cellAddr hj, toNat_cellAddr hk] at h
  simp at h
  omega

/-- The bytes of a word, put together again. -/
theorem join_bytes (w : UInt16) : w.toUInt8.toUInt16 ||| (w >>> 8).toUInt8.toUInt16 <<< 8 = w := by
  have hw : w.toNat < 65536 := w.toNat_lt
  have hhigh : (w.toNat >>> 8 % 256) <<< 8 % 65536 = 2 ^ 8 * (w.toNat / 2 ^ 8) := by
    rw [Nat.shiftRight_eq_div_pow, Nat.shiftLeft_eq]
    omega
  rw [← UInt16.toNat_inj]
  simp only [UInt16.toNat_or, UInt8.toNat_toUInt16, UInt16.toNat_toUInt8, UInt16.toNat_shiftLeft,
    UInt16.toNat_shiftRight]
  simp [hhigh]
  rw [Nat.or_comm, ← Nat.two_pow_add_eq_or_of_lt (by omega : w.toNat % 256 < 2 ^ 8)]
  omega

/-- The bytes of two bytes put together. -/
theorem split_bytes (a b : UInt8) : (a.toUInt16 ||| b.toUInt16 <<< 8).toUInt8 = a ∧
    ((a.toUInt16 ||| b.toUInt16 <<< 8) >>> 8).toUInt8 = b := by
  have ha : a.toNat < 2 ^ 8 := a.toNat_lt
  have hb := b.toNat_lt
  have h : (a.toUInt16 ||| b.toUInt16 <<< 8).toNat = 2 ^ 8 * b.toNat + a.toNat := by
    rw [UInt16.toNat_or, UInt16.toNat_shiftLeft, Nat.or_comm, Nat.two_pow_add_eq_or_of_lt ha]
    simp [Nat.shiftLeft_eq]
    congr 1
    omega
  constructor
  · rw [← UInt8.toNat_inj, UInt16.toNat_toUInt8, h]
    omega
  · rw [← UInt8.toNat_inj, UInt16.toNat_toUInt8, UInt16.toNat_shiftRight, h]
    simp [Nat.shiftRight_eq_div_pow]
    omega

section Cells

variable {s : State} {i j k n : Nat}

/-- `*(u16 *)ptr = w` changes one cell. -/
theorem cellAt_put16 {w : UInt16} (hj : j < 2 ^ 30) (hk : k < 2 ^ 30) :
    (s.put16 (cellAddr j) w).cellAt k = if k = j then w else s.cellAt k := by
  rcases eq_or_ne k j with rfl | hne
  · have h : (s.put16 (cellAddr k) w).cellAt k = w.toUInt8.toUInt16 ||| (w >>> 8).toUInt8.toUInt16 <<< 8 := by
      simp [State.put16, State.put8, State.cellAt, cell, Function.update]
    rw [if_pos rfl, h, join_bytes]
  · have h1 : cellAddr k ≠ cellAddr j := fun h => hne ((cellAddr_eq hk hj).mp h)
    have h2 := cellAddr_ne_succ hk hj
    have h3 : cellAddr k + 1 ≠ cellAddr j := (cellAddr_ne_succ hj hk).symm
    rw [if_neg hne]
    simp [State.put16, State.put8, State.cellAt, cell, Function.update, h1, h2, h3]

theorem cellAt_eraseCells (hk : k < 2 ^ 30) (hn : j + n < 2 ^ 30) :
    (eraseCells n (cellAddr j) s).cellAt k = if j ≤ k ∧ k < j + n then erase else s.cellAt k := by
  induction n generalizing j s with
  | zero => rw [if_neg (by omega)]; rfl
  | succ n ih =>
    have hnext : cellAddr j + 2 = cellAddr (j + 1) := cellAddr_add j 1
    rw [eraseCells, hnext, ih (by omega), cellAt_put16 (by omega) hk]
    split_ifs <;> first | rfl | omega

/-- A word of the 32-bit store is two cells, and its upper half is 0. -/
theorem cellAt_eraseWords (hk : k < 2 ^ 30) (hn : j + 2 * n < 2 ^ 30) :
    (eraseWords n (cellAddr j) s).cellAt k =
      if j ≤ k ∧ k < j + 2 * n then (if (k - j) % 2 = 0 then erase else 0) else s.cellAt k := by
  induction n generalizing j s with
  | zero => rw [if_neg (by omega)]; rfl
  | succ n ih =>
    have hlow : erase.toUInt32.toUInt16 = erase := rfl
    have hhigh : (erase.toUInt32 >>> 16).toUInt16 = 0 := rfl
    have hsecond : cellAddr j + 2 = cellAddr (j + 1) := cellAddr_add j 1
    have hnext : cellAddr j + 4 = cellAddr (j + 2) := cellAddr_add j 2
    rw [eraseWords, hnext, ih (by omega), State.put32, hlow, hhigh, hsecond, cellAt_put16 (by omega) hk,
      cellAt_put16 (by omega) hk]
    split_ifs <;> first | rfl | omega

/-- Two turns of `memcpy` copy a cell, when the second byte read is not the first one stored. -/
theorem memcpy_cell {dest src : UInt32} (h : src + 1 ≠ dest) :
    memcpy (2 * (n + 1)) dest src s = memcpy (2 * n) (dest + 2) (src + 2) (s.put16 dest (cell s.mem src)) := by
  obtain ⟨hlow, hhigh⟩ := split_bytes (s.mem src) (s.mem (src + 1))
  have hread : (s.put8 dest (s.mem src)).mem (src + 1) = s.mem (src + 1) := Function.update_of_ne h _ _
  have htwo : ∀ a : UInt32, a + 1 + 1 = a + 2 := fun a => UInt32.add_assoc a 1 1
  rw [Nat.mul_succ, memcpy, memcpy, hread, htwo, htwo, State.put16, cell, hlow, hhigh]

theorem cellAt_memcpy (hk : k < 2 ^ 30) (hj : j + n < 2 ^ 30) (hi : i + n ≤ j) :
    (memcpy (2 * n) (cellAddr i) (cellAddr j) s).cellAt k =
      if i ≤ k ∧ k < i + n then s.cellAt (j + (k - i)) else s.cellAt k := by
  induction n generalizing i j s with
  | zero => rw [if_neg (by omega)]; rfl
  | succ n ih =>
    have hdest : cellAddr i + 2 = cellAddr (i + 1) := cellAddr_add i 1
    have hsrc : cellAddr j + 2 = cellAddr (j + 1) := cellAddr_add j 1
    have hne : cellAddr j + 1 ≠ cellAddr i := (cellAddr_ne_succ (by omega) (by omega)).symm
    have hcell : cell s.mem (cellAddr j) = s.cellAt j := rfl
    rw [memcpy_cell hne, hdest, hsrc, ih (by omega) (by omega), hcell]
    by_cases hin : i + 1 ≤ k ∧ k < i + 1 + n
    · rw [if_pos hin, if_pos (by omega), cellAt_put16 (by omega) (by omega), if_neg (by omega)]
      congr 1
      omega
    · rw [if_neg hin, cellAt_put16 (by omega) hk]
      by_cases hki : k = i
      · rw [if_pos hki, if_pos (by omega), hki, Nat.sub_self, Nat.add_zero]
      · rw [if_neg hki, if_neg (by omega)]

end Cells

/-! ## 4. What is in view -/

/-- The cell in row `r` and column `c`, counted from `screen`. -/
def State.view (s : State) (r c : Nat) : UInt16 := cell s.mem (s.screen + UInt32.ofNat (2 * (80 * r + c)))

section View

variable {s : State} {k r c : Nat}

theorem OnRow.row {a : UInt32} (h : OnRow a) : ∃ k ≤ 77, a = cellAddr (80 * k) := by
  obtain ⟨k, hle, ha⟩ := h
  simp at ha
  refine ⟨k, hle, ?_⟩
  rw [← UInt32.toNat_inj, ha, toNat_cellAddr (by omega)]
  omega

theorem view_eq (hs : s.screen = cellAddr (80 * k)) : s.view r c = s.cellAt (80 * (k + r) + c) := by
  rw [State.view, hs, cellAddr_add, State.cellAt]
  congr 2
  omega

/-- The cursor's cell, in the row and the column of the cursor. -/
theorem At.pos_cell (h : At s) (hs : s.screen = cellAddr (80 * k)) (ht : k ≤ 77) :
    s.pos = cellAddr (80 * (k + s.y.toNat) + s.x.toNat) := by
  have hn := toNat_cellAddr (show 80 * k < 2 ^ 30 by omega)
  have hrow : OnRow s.screen := ⟨k, ht, by simp [hs, hn]; omega⟩
  obtain ⟨hp, hy, hx, -, -⟩ := h.pos_toNat hrow
  rw [← UInt32.toNat_inj, hp, hs, hn, toNat_cellAddr (by omega)]
  omega

/-- The registers say where the screen starts. -/
theorem getScreen_eq (h : OnRow s.screen) (hreg : s.startAddr = registers s.screen) : getScreen s = s.screen := by
  obtain ⟨k, hk, ha⟩ := h
  simp at ha
  have hd : (s.screen - MEM_BASE).toNat = 160 * k := by
    rw [UInt32.toNat_sub_of_le _ _ (by rw [UInt32.le_iff_toNat_le, ha]; simp), ha]
    simp
  have hor : (((s.screen - MEM_BASE) >>> 9).toUInt8.toUInt32 <<< 8
      ||| ((s.screen - MEM_BASE) >>> 1).toUInt8.toUInt32).toNat = 80 * k := by
    have hlow : 160 * k / 2 % 256 < 2 ^ 8 := Nat.mod_lt _ (by decide)
    have hhalf : 160 * k / 512 = 80 * k / 256 := by omega
    have hhigh : (160 * k / 512 % 256) * 256 % 4294967296 = 2 ^ 8 * (80 * k / 2 ^ 8) := by
      rw [hhalf, Nat.mod_eq_of_lt (by omega : 80 * k / 256 < 256)]
      omega
    simp only [UInt32.toNat_or, UInt32.toNat_shiftLeft, UInt8.toNat_toUInt32, UInt32.toNat_toUInt8,
      UInt32.toNat_shiftRight, hd]
    simp [Nat.shiftRight_eq_div_pow, Nat.shiftLeft_eq]
    rw [hhigh, ← Nat.two_pow_add_eq_or_of_lt hlow]
    omega
  rw [getScreen, hreg, registers, ← UInt32.toNat_inj, UInt32.toNat_add, UInt32.toNat_shiftLeft, hor, ha]
  simp [Nat.shiftLeft_eq]
  omega

/-- A store under the cursor changes the cursor's cell only. -/
theorem view_put16 (h : At s) (hr : OnRow s.screen) (w : UInt16) (hrow : r < 25) (hcol : c < 80) :
    (s.put16 s.pos w).view r c =
      if s.y.toNat + s.x.toNat / 80 = r ∧ s.x.toNat % 80 = c then w else s.view r c := by
  obtain ⟨k, ht, hs⟩ := hr.row
  obtain ⟨-, hy, hx, -, -⟩ := h.pos_toNat hr
  have hs' : (s.put16 s.pos w).screen = cellAddr (80 * k) := hs
  rw [view_eq hs', view_eq hs, h.pos_cell hs ht, cellAt_put16 (by omega) (by omega)]
  by_cases hat : s.y.toNat + s.x.toNat / 80 = r ∧ s.x.toNat % 80 = c
  · rw [if_pos hat, if_pos (by omega)]
  · rw [if_neg hat, if_neg (by omega)]

theorem view_relocate (hr : OnRow s.screen) (hrow : r < 25) (hcol : c < 80) :
    (relocate s).view r c = s.view r c := by
  obtain ⟨k, ht, hs⟩ := hr.row
  have hn := toNat_cellAddr (show 80 * k < 2 ^ 30 by omega)
  unfold relocate
  split
  · rename_i hend
    have hroom : (s.screen + SCR_SIZE + ROW_SIZE).toNat = 753664 + 2 * (80 * k) + 4000 + 160 := by
      rw [UInt32.toNat_add, UInt32.toNat_add, hs, hn]
      simp
      omega
    rw [ge_iff_le, UInt32.le_iff_toNat_le, hroom] at hend
    simp at hend
    have hbase : MEM_BASE = cellAddr (80 * 0) := rfl
    have hcopy : (memcpy SCR_SIZE.toNat MEM_BASE s.screen s).cellAt (80 * (0 + r) + c) =
        s.cellAt (80 * k + (80 * (0 + r) + c)) := by
      rw [hbase, hs, show SCR_SIZE.toNat = 2 * 2000 from rfl,
        cellAt_memcpy (by omega) (by omega) (by omega), if_pos (by omega)]
      rfl
    generalize memcpy SCR_SIZE.toNat MEM_BASE s.screen s = m at hcopy
    have hview : { m with pos := m.pos - (m.screen - MEM_BASE), screen := MEM_BASE }.view r c =
        m.cellAt (80 * (0 + r) + c) := view_eq hbase
    rw [view_eq hs]
    exact hview.trans (hcopy.trans (congrArg s.cellAt (by omega)))
  · rfl

/-- **A line feed on the bottom row**: the rows in view move up by one, and the new row is erased in every
    second cell. -/
theorem view_scrollUp (hr : OnRow s.screen) (hrow : r < 25) (hcol : c < 80) :
    (scrollUp s).view r c = if r + 1 < 25 then s.view (r + 1) c else if c % 2 = 0 then erase else 0 := by
  have hrel : OnRow (relocate s).screen := by
    unfold relocate
    split
    · exact ⟨0, by decide, rfl⟩
    · exact hr
  obtain ⟨k, hk, hs⟩ := hrel.row
  have hbelow : (relocate s).screen + SCR_SIZE = cellAddr (80 * k + 2000) := by
    rw [hs, ← cellAddr_add]
    rfl
  have hnext : (relocate s).screen + ROW_SIZE = cellAddr (80 * (k + 1)) := by
    rw [hs, Nat.mul_succ, ← cellAddr_add]
    rfl
  have hview : (scrollUp s).view r c = (eraseWords 80 (cellAddr (80 * k + 2000)) (relocate s)).cellAt
      (80 * (k + 1 + r) + c) := by
    have hspot := sameSpot_eraseWords WIDTH.toNat ((relocate s).screen + SCR_SIZE) (relocate s)
    rw [← hbelow]
    unfold scrollUp
    dsimp only
    generalize he : eraseWords WIDTH.toNat ((relocate s).screen + SCR_SIZE) (relocate s) = t at hspot
    have hscreen : t.screen + ROW_SIZE = cellAddr (80 * (k + 1)) := by
      rw [hspot.1, hnext]
    have hcells : (setScreen { t with screen := t.screen + ROW_SIZE, pos := t.pos + ROW_SIZE }).view r c =
        t.cellAt (80 * (k + 1 + r) + c) := view_eq hscreen
    rw [hcells, ← he]
    rfl
  rw [hview, cellAt_eraseWords (by omega) (by omega)]
  by_cases hlast : r + 1 < 25
  · rw [if_neg (by omega), if_pos hlast, ← view_relocate hr hlast hcol, view_eq hs]
    exact congrArg (relocate s).cellAt (by omega)
  · have hpar : (80 * (k + 1 + r) + c - (80 * k + 2000)) % 2 = c % 2 := by omega
    rw [if_pos (by omega), if_neg hlast, hpar]

end View

/-! ## 5. The terminals -/

namespace Terminal

variable {α : Type} {l : Look α} {t : Terminal α} {r c : Nat}

@[simp] theorem x_put (a : α) : (t.put a).x = t.x := by
  unfold put
  split <;> rfl

@[simp] theorem y_put (a : α) : (t.put a).y = t.y := by
  unfold put
  split <;> rfl

@[simp] theorem x_feed : (t.feed l).x = t.x := by
  unfold feed
  split <;> rfl

theorem y_feed : (t.feed l).y = if t.y + 1 < 25 then t.y + 1 else t.y := by
  unfold feed
  split <;> rfl

theorem rows_put (a : α) (hr : r < 25) (hc : c < 80) :
    (t.put a).rows[r][c] = if t.y + t.x / 80 = r ∧ t.x % 80 = c then a else t.rows[r][c] := by
  unfold put
  split
  · simp only [Vector.getElem_set]
    split_ifs <;> simp_all [Vector.getElem_set]
  · rw [if_neg (by omega)]

theorem rows_feed (hr : r < 25) (hc : c < 80) : (t.feed l).rows[r][c] =
    if t.y + 1 < 25 then t.rows[r][c] else if h : r + 1 < 25 then t.rows[r + 1][c] else l.row[c] := by
  unfold feed
  split
  · rfl
  · simp only [Vector.getElem_push, Vector.getElem_drop]
    by_cases h : r + 1 < 25
    · simp [h, (by omega : r < 25 - 1), Nat.add_comm]
    · obtain rfl : r = 24 := by omega
      simp

end Terminal

/-! ## 6. The console shows what the terminals say -/

/-- Memory and cursor agree with the reference and with the marks. -/
structure Shows (s : State) (t : Terminal UInt16) (m : Terminal Bool) : Prop where
  positions : At s
  row : OnRow s.screen
  x : t.x = s.x.toNat ∧ m.x = s.x.toNat
  y : t.y = s.y.toNat ∧ m.y = s.y.toNat
  cells : ∀ r c (hr : r < 25) (hc : c < 80), s.view r c = if m.rows[r][c] then 0 else t.rows[r][c]
  marked : ∀ r c (hr : r < 25) (hc : c < 80), m.rows[r][c] = true → t.rows[r][c] = erase

section Steps

variable {s : State} {t : Terminal UInt16} {m : Terminal Bool}

theorem Shows.put (h : Shows s t m) (w : UInt16) : Shows (s.put16 s.pos w) (t.put w) (m.put false) := by
  obtain ⟨hpos, hrow, ⟨htx, hmx⟩, ⟨hty, hmy⟩, hcells, hmarked⟩ := h
  refine ⟨(sameSpot_put16 s s.pos w).at hpos, hrow, by simpa using ⟨htx, hmx⟩, by simpa using ⟨hty, hmy⟩,
    fun r c hr hc => ?_, fun r c hr hc => ?_⟩
  · rw [view_put16 hpos hrow w hr hc, Terminal.rows_put, Terminal.rows_put, htx, hty, hmx, hmy]
    split
    · rfl
    · exact hcells r c hr hc
  · rw [Terminal.rows_put, Terminal.rows_put, htx, hty, hmx, hmy]
    split
    · exact fun hm => nomatch hm
    · exact hmarked r c hr hc

/-- The cursor alone moves. -/
theorem Shows.move {s' : State} (h : Shows s t m) (hpos : At s') (hmem : s'.mem = s.mem)
    (hscreen : s'.screen = s.screen) {x y : Nat} (hx : x = s'.x.toNat) (hy : y = s'.y.toNat) :
    Shows s' { t with x := x, y := y } { m with x := x, y := y } := by
  refine ⟨hpos, hscreen ▸ h.row, ⟨hx, hx⟩, ⟨hy, hy⟩, fun r c hr hc => ?_, h.marked⟩
  rw [State.view, hmem, hscreen]
  exact h.cells r c hr hc

theorem row_reference {c : Nat} (hc : c < 80) : reference.row[c] = erase := Vector.getElem_replicate hc

theorem row_leftZero {c : Nat} (hc : c < 80) : leftZero.row[c] = (c % 2 == 1) := Vector.getElem_ofFn hc

theorem toNat_y_succ (h : At s) : (s.y + 1).toNat = s.y.toNat + 1 := by
  have hy : s.y.toNat < 25 := UInt32.lt_iff_toNat_lt.mp h.y
  rw [UInt32.toNat_add]
  exact Nat.mod_eq_of_lt (by simp; omega)

/-- **The row that comes into view** is erased in every second cell, and marked in the others. -/
theorem Shows.feed (h : Shows s t m) : Shows (commandLf s) (t.feed reference) (m.feed leftZero) := by
  have hpos := at_commandLf h.positions
  have hrow := onRow_commandLf h.row
  have hy : s.y + 1 < HEIGHT ↔ s.y.toNat + 1 < 25 := by
    rw [UInt32.lt_iff_toNat_lt, toNat_y_succ h.positions]
    rfl
  obtain ⟨htx, hmx⟩ := h.x
  obtain ⟨hty, hmy⟩ := h.y
  unfold commandLf at *
  by_cases hlast : s.y.toNat + 1 < 25
  · rw [if_pos (hy.mpr hlast)] at *
    rw [Terminal.feed, Terminal.feed, if_pos (hty ▸ hlast), if_pos (hmy ▸ hlast)]
    have hyt : t.y + 1 = (s.y + 1).toNat := by rw [hty, toNat_y_succ h.positions]
    rw [hmx.trans htx.symm, hmy.trans hty.symm]
    exact h.move hpos rfl rfl htx hyt
  · rw [if_neg (hy.not.mpr hlast)] at *
    obtain ⟨-, -, hx, hy'⟩ := scrollUp_spot s
    refine ⟨hpos, hrow, ?_, ?_, fun r c hr hc => ?_, fun r c hr hc => ?_⟩
    · simpa [hx] using h.x
    · simp only [Terminal.y_feed, hty, hmy, if_neg hlast, hy', and_self]
    · rw [view_scrollUp h.row hr hc, Terminal.rows_feed, Terminal.rows_feed, hty, hmy, if_neg hlast, if_neg hlast]
      split
      · exact h.cells (r + 1) c _ hc
      · rw [row_leftZero hc, row_reference hc]
        rcases Nat.mod_two_eq_zero_or_one c with h2 | h2 <;> simp [h2]
    · rw [Terminal.rows_feed, Terminal.rows_feed, hty, hmy, if_neg hlast, if_neg hlast]
      split
      · exact h.marked (r + 1) c _ hc
      · exact fun _ => row_reference hc

theorem Shows.home (h : Shows s t m) : Shows (commandCr s) t.home m.home := by
  have hy := h.y.2.trans h.y.1.symm
  have hmove := h.move (at_commandCr h.positions) rfl rfl (Eq.refl 0) h.y.1
  rwa [Terminal.home, Terminal.home, hy]

theorem Shows.back (h : Shows s t m) : Shows (commandBs s) (t.back reference) (m.back leftZero) := by
  obtain ⟨htx, hmx⟩ := h.x
  have hx : s.x ≠ 0 ↔ t.x ≠ 0 := by
    rw [htx]
    exact not_congr UInt32.toNat_inj.symm
  have hpos := at_commandBs h.positions
  unfold commandBs at *
  rw [Terminal.back, Terminal.back, hmx.trans htx.symm, (h.y.2.trans h.y.1.symm)]
  by_cases h0 : s.x ≠ 0
  · rw [if_pos h0] at *
    rw [if_pos (hx.mp h0), if_pos (hx.mp h0)]
    have hone : 1 ≤ s.x := UInt32.le_iff_toNat_le.mpr (Nat.one_le_iff_ne_zero.mpr (htx ▸ hx.mp h0))
    have hx1 : t.x - 1 = (s.x - 1).toNat := by
      rw [htx, UInt32.toNat_sub_of_le _ _ hone]
      rfl
    have hback : At { s with x := s.x - 1, pos := s.pos - 2 } :=
      ⟨hpos.x, hpos.y, hpos.low, hpos.high, hpos.pos⟩
    exact (h.move hback rfl rfl hx1 h.y.1).put erase
  · rw [if_neg h0, if_neg (hx.not.mp h0), if_neg (hx.not.mp h0)]
    exact h

/-- The wrap goes to the start of the next row, or of a new one. -/
theorem Shows.wrap (h : Shows s t m) :
    Shows (Console.wrap s) (t.wrap reference) (m.wrap leftZero) := by
  obtain ⟨htx, hmx⟩ := h.x
  have hx : s.x ≥ WIDTH ↔ 80 ≤ t.x := by
    rw [htx]
    exact UInt32.le_iff_toNat_le
  unfold Console.wrap
  rw [Terminal.wrap, Terminal.wrap, hmx.trans htx.symm, h.y.2.trans h.y.1.symm]
  by_cases h80 : s.x ≥ WIDTH
  · rw [if_pos h80, if_pos (hx.mp h80), if_pos (hx.mp h80)]
    have hat := at_rewind h.positions (UInt32.le_antisymm h.positions.x h80)
    have hx0 : t.x - 80 = (s.x - WIDTH).toNat := by
      rw [htx, UInt32.toNat_sub_of_le _ _ h80]
      rfl
    exact (h.move hat rfl rfl hx0 h.y.1).feed
  · rw [if_neg h80, if_neg (hx.not.mp h80), if_neg (hx.not.mp h80)]
    exact h

/-- The character and its attribute are stored as one cell is. -/
theorem mem_display (ch : UInt8) :
    (Console.display s ch).mem = ((Console.wrap s).put16 (Console.wrap s).pos (reference.glyph ch)).mem := by
  obtain ⟨hlow, hhigh⟩ := split_bytes ch attr
  rw [State.put16, reference, hlow, hhigh]
  rfl

theorem Shows.display (h : Shows s t m) (ch : UInt8) :
    Shows (Console.display s ch) (t.display reference ch) (m.display leftZero ch) := by
  have hp := h.wrap.put (reference.glyph ch)
  have hlt := UInt32.lt_iff_toNat_lt.mp (at_wrap h.positions).2
  have hx : ((t.wrap reference).put (reference.glyph ch)).x + 1 = (Console.display s ch).x.toNat := by
    rw [hp.x.1]
    show (Console.wrap s).x.toNat + 1 = ((Console.wrap s).x + 1).toNat
    rw [UInt32.toNat_add]
    exact (Nat.mod_eq_of_lt (by simp [WIDTH] at hlt ⊢; omega)).symm
  have hdisplay := hp.move (at_display h.positions ch) (mem_display ch) rfl hx hp.y.1
  have hmx : ((m.wrap leftZero).put (leftZero.glyph ch)).x = _ := hp.x.2.trans hp.x.1.symm
  have hmy : ((m.wrap leftZero).put (leftZero.glyph ch)).y = _ := hp.y.2.trans hp.y.1.symm
  rw [Terminal.display, Terminal.display, hmx, hmy]
  exact hdisplay

/-- **One byte.** -/
theorem Shows.take (h : Shows s t m) (ch : UInt8) :
    Shows (writeChar s ch) (t.take reference ch) (m.take leftZero ch) := by
  unfold Terminal.take
  by_cases hnone : ch ∈ [ASCII_NULL, ASCII_ENQ, ASCII_BEL, ASCII_HT, ASCII_VT]
  · rw [if_pos hnone, if_pos hnone]
    simp only [List.mem_cons, List.not_mem_nil, or_false] at hnone
    rcases hnone with rfl | rfl | rfl | rfl | rfl <;> exact h
  · rw [if_neg hnone, if_neg hnone]
    simp only [List.mem_cons, List.not_mem_nil, or_false, not_or] at hnone
    obtain ⟨h0, h1, h2, h3, h4⟩ := hnone
    simp only [writeChar, if_neg h0, if_neg h1, if_neg h2, if_neg h3, if_neg h4]
    split_ifs
    · exact h.back
    · exact h.feed.home
    · exact h.feed
    · exact h.home
    · exact h.put erase
    · exact h.display ch

/-- Every move of the screen is told to the registers. -/
def Told (s : State) : Prop := s.startAddr = registers s.screen

theorem told_eraseCells (n : Nat) (ptr : UInt32) (h : Told s) : Told (eraseCells n ptr s) := by
  induction n generalizing ptr s with
  | zero => exact h
  | succ n ih => exact ih (s := s.put16 ptr erase) (ptr + 2) h

theorem told_commandLf (h : Told s) : Told (commandLf s) := by
  unfold commandLf
  split
  · exact h
  · rfl

theorem told_commandBs (h : Told s) : Told (commandBs s) := by
  unfold commandBs
  split <;> exact h

theorem told_display (h : Told s) (ch : UInt8) : Told (Console.display s ch) := by
  have hwrap : Told (Console.wrap s) := by
    unfold Console.wrap
    split
    · exact told_commandLf (s := { s with x := s.x - WIDTH, pos := s.pos - ROW_SIZE }) h
    · exact h
  exact hwrap

theorem told_writeChar (h : Told s) (ch : UInt8) : Told (writeChar s ch) :=
  writeChar_rule h (told_commandBs h) (told_commandLf h) (told_commandLf h) h h (told_display h ch)

end Steps

/-! ## 7. Any calls -/

section Runs

variable {s : State} {t : Terminal UInt16} {m : Terminal Bool}

/-- The bytes of one call. -/
theorem Shows.takes (h : Shows s t m) (hreg : Told s) (buf : List UInt8) :
    Shows (buf.foldl writeChar s) (buf.foldl (Terminal.take reference) t) (buf.foldl (Terminal.take leftZero) m) ∧
      Told (buf.foldl writeChar s) := by
  induction buf generalizing s t m with
  | nil => exact ⟨h, hreg⟩
  | cons ch buf ih => exact ih (h.take ch) (told_writeChar hreg ch)

theorem Shows.after (h : Shows s t m) (hreg : Told s) (calls : List (List UInt8)) :
    Shows (after s calls) (calls.flatten.foldl (Terminal.take reference) t)
      (calls.flatten.foldl (Terminal.take leftZero) m) ∧ Told (after s calls) := by
  induction calls generalizing s t m with
  | nil => exact ⟨h, hreg⟩
  | cons buf calls ih =>
    obtain ⟨hbuf, htold⟩ := h.takes hreg buf
    rw [List.flatten_cons, List.foldl_append, List.foldl_append]
    -- `set_cursor` at the end of the call moves neither
    have hcall : Shows (consoleWrite s buf).1 _ _ :=
      ⟨at_consoleWrite h.positions buf, hbuf.row, hbuf.x, hbuf.y, hbuf.cells, hbuf.marked⟩
    exact ih hcall htold

end Runs

/-- The erased screen. -/
theorem shows_started (mem : UInt32 → UInt8) :
    Shows (started mem) ⟨.replicate 25 (.replicate 80 reference.blank), 0, 0⟩
      ⟨.replicate 25 (.replicate 80 leftZero.blank), 0, 0⟩ ∧ Told (started mem) := by
  obtain ⟨s, hs, hscreen, hx, hy, hreg⟩ : ∃ s, started mem = eraseCells (MEM_SIZE / 2).toNat MEM_BASE s ∧
      s.screen = MEM_BASE ∧ s.x = 0 ∧ s.y = 0 ∧ Told s := by
    unfold started consoleClear
    exact ⟨_, Eq.refl _, rfl, rfl, rfl, Eq.refl _⟩
  rw [show (MEM_SIZE / 2).toNat = 8192 from rfl] at hs
  obtain ⟨hscreen', -, hx', hy'⟩ := sameSpot_eraseCells 8192 MEM_BASE s
  have htold := told_eraseCells 8192 MEM_BASE hreg
  rw [hscreen] at hscreen'
  rw [hx] at hx'
  rw [hy] at hy'
  have hat := at_started mem
  have hrow := onRow_started mem
  rw [hs] at hat hrow ⊢
  refine ⟨⟨hat, hrow, ?_, ?_, fun r c hr hc => ?_, fun r c hr hc hmark => ?_⟩, htold⟩
  · rw [hx']
    exact ⟨rfl, rfl⟩
  · rw [hy']
    exact ⟨rfl, rfl⟩
  · have hbase : MEM_BASE = cellAddr (80 * 0) := rfl
    have hcell : (eraseCells 8192 (cellAddr 0) s).cellAt (80 * (0 + r) + c) = erase := by
      rw [cellAt_eraseCells (by omega) (by omega), if_pos (by omega)]
    rw [view_eq (k := 0) (hscreen'.trans hbase)]
    refine hcell.trans ?_
    simp [leftZero, reference]
  · simp [leftZero] at hmark

/-- After any calls a cell in view is 0 where it is marked, and the reference's otherwise. -/
theorem visible_eq (mem : UInt32 → UInt8) (calls : List (List UInt8)) {r c : Nat} (hr : r < 25) (hc : c < 80) :
    visible (after (started mem) calls) r c = if (Terminal.written leftZero calls).rows[r][c] then 0
      else (Terminal.written reference calls).rows[r][c] := by
  obtain ⟨hstart, hreg⟩ := shows_started mem
  obtain ⟨hafter, htold⟩ := hstart.after hreg calls
  rw [visible, getScreen_eq hafter.row htold]
  exact hafter.cells r c hr hc

/-- **The screen after any calls** is the reference's exactly when no cell is marked: when in each row
    that a line feed on the bottom row brought into view, and that is in view still, something has been
    written to every odd column since. -/
theorem console_shows (mem : UInt32 → UInt8) (calls : List (List UInt8)) :
    (∀ r c (hr : r < 25) (hc : c < 80),
      visible (after (started mem) calls) r c = (Terminal.written reference calls).rows[r][c]) ↔
    ∀ r c (hr : r < 25) (hc : c < 80), (Terminal.written leftZero calls).rows[r][c] = false := by
  obtain ⟨hstart, hreg⟩ := shows_started mem
  obtain ⟨hafter, -⟩ := hstart.after hreg calls
  refine forall₄_congr fun r c hr hc => ?_
  rw [visible_eq mem calls hr hc, ← Bool.not_eq_true]
  constructor
  · intro heq hmark
    have herase : (Terminal.written reference calls).rows[r][c] = erase := hafter.marked r c hr hc hmark
    rw [if_pos hmark, herase] at heq
    exact absurd heq (by decide)
  · exact fun hmark => if_neg hmark

/-- Twenty-five newlines: the second cell of the bottom row is 0, not an erased one. -/
theorem console_dark : ¬∀ (mem : UInt32 → UInt8) (calls : List (List UInt8)) r c (hr : r < 25) (hc : c < 80),
    visible (after (started mem) calls) r c = (Terminal.written reference calls).rows[r][c] := by
  intro h
  have hcell := h (fun _ => 0) [List.replicate 25 ASCII_LF] 24 1 (by decide) (by decide)
  have hmark : (Terminal.written leftZero [List.replicate 25 ASCII_LF]).rows[24][1] = true := by decide +kernel
  have herase : (Terminal.written reference [List.replicate 25 ASCII_LF]).rows[24][1] = erase := by
    decide +kernel
  rw [visible_eq _ _ (by decide) (by decide), if_pos hmark, herase] at hcell
  exact absurd hcell (by decide)

end Yuios.Console
