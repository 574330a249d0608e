/-
  File:      Yuios/Kernel/Keyboard.lean
  Subject:   THE KEYBOARD: `keyboard_handler` of `kernel/keyboard.c` and the ring it fills, which
             `keyboard_read` empties in between.

  * `keymap` is the table's first two columns; the two others change and are part of the state.
  * `queued` is a history: every character given to `fifo_put`, in order.
  * `KeyEvent`, `heldIn`, `capsIn`, `typed` -- what the scan codes mean and what a key is to type,
    told from the codes alone.
  * `Agrees` -- the invariant: the flags of the driver are what the codes so far say.
  * **`keyboard_queues`** -- in every state reached, a further code queues what it is to queue, except
    for a key that is no letter and has two characters, while Caps Lock is on.

  Not here: `set_leds` (its waits read the same port) and which task `task_unblock` makes run.
-/
import Yuios.Pipe.Fifo

namespace Yuios.Keyboard

open Kernel Pipe

/-! ## 1. The code -/

def INV : UInt8 := 0
def BUFFER_SIZE : Nat := 64
def CODE_PRINT_SCREEN_DOWN : Nat := 0xb7

def KEY_SHIFT_L : Nat := 0x2A
def KEY_SLASH : Nat := 0x35
def KEY_SHIFT_R : Nat := 0x36
def KEY_CAPSLOCK : Nat := 0x3A
def KEY_NUMLOCK : Nat := 0x45
def KEY_SCRLOCK : Nat := 0x46
def KEY_PRINT_SCREEN : Nat := 0x5F

/-- The characters of a key: alone, and with shift. -/
def keymap : List (UInt8 × UInt8) := [
  -- from 0x00
  (0x00, 0x00), (0x1B, 0x1B), (0x31, 0x21), (0x32, 0x40),
  (0x33, 0x23), (0x34, 0x24), (0x35, 0x25), (0x36, 0x5E),
  (0x37, 0x26), (0x38, 0x2A), (0x39, 0x28), (0x30, 0x29),
  (0x2D, 0x5F), (0x3D, 0x2B), (0x08, 0x08), (0x09, 0x09),
  -- from 0x10
  (0x71, 0x51), (0x77, 0x57), (0x65, 0x45), (0x72, 0x52),
  (0x74, 0x54), (0x79, 0x59), (0x75, 0x55), (0x69, 0x49),
  (0x6F, 0x4F), (0x70, 0x50), (0x5B, 0x7B), (0x5D, 0x7D),
  (0x0A, 0x0A), (0x00, 0x00), (0x61, 0x41), (0x73, 0x53),
  -- from 0x20
  (0x64, 0x44), (0x66, 0x46), (0x67, 0x47), (0x68, 0x48),
  (0x6A, 0x4A), (0x6B, 0x4B), (0x6C, 0x4C), (0x3B, 0x3A),
  (0x27, 0x22), (0x60, 0x7E), (0x00, 0x00), (0x5C, 0x7C),
  (0x7A, 0x5A), (0x78, 0x58), (0x63, 0x43), (0x76, 0x56),
  -- from 0x30
  (0x62, 0x42), (0x6E, 0x4E), (0x6D, 0x4D), (0x2C, 0x3C),
  (0x2E, 0x3E), (0x2F, 0x3F), (0x00, 0x00), (0x2A, 0x2A),
  (0x00, 0x00), (0x20, 0x20), (0x00, 0x00), (0x00, 0x00),
  (0x00, 0x00), (0x00, 0x00), (0x00, 0x00), (0x00, 0x00),
  -- from 0x40
  (0x00, 0x00), (0x00, 0x00), (0x00, 0x00), (0x00, 0x00),
  (0x00, 0x00), (0x00, 0x00), (0x00, 0x00), (0x37, 0x00),
  (0x38, 0x00), (0x39, 0x00), (0x2D, 0x2D), (0x34, 0x00),
  (0x35, 0x00), (0x36, 0x00), (0x2B, 0x2B), (0x31, 0x00),
  -- from 0x50
  (0x32, 0x00), (0x33, 0x00), (0x30, 0x00), (0x2E, 0x7F),
  (0x00, 0x00), (0x00, 0x00), (0x00, 0x00), (0x00, 0x00),
  (0x00, 0x00), (0x00, 0x00), (0x00, 0x00), (0x00, 0x00),
  (0x00, 0x00), (0x00, 0x00), (0x00, 0x00), (0x00, 0x00)]

/-- The variables of the file. `down` and `extDown` are the third and the fourth column of the key
    map. -/
structure State where
  down : Nat → Bool
  extDown : Nat → Bool
  capslock : Bool
  scrlock : Bool
  numlock : Bool
  extcode : Bool
  fifo : Fifo
  waiter : Option Nat
  unblocked : List Nat
  queued : List UInt8

/-- After `keyboard_init`. -/
def keyboardInit (buf : Nat → UInt8) : State where
  down := fun _ => false
  extDown := fun _ => false
  capslock := false
  scrlock := false
  numlock := false
  extcode := false
  fifo := fifoInit buf BUFFER_SIZE
  waiter := none
  unblocked := []
  queued := []

def State.mark (s : State) (makecode : Nat) (ext v : Bool) : State :=
  if ext then { s with extDown := Function.update s.extDown makecode v }
  else { s with down := Function.update s.down makecode v }

/-- `keymap[makecode][ext] = v`, where `ext` is 3 after the prefix and 2 otherwise. -/
def setKey (s : State) (makecode : Nat) (ext v : Bool) : Except Stop State :=
  if makecode < keymap.length then .ok (s.mark makecode ext v) else .error .outOfBuffer

/-- The row of the key in the key map. -/
def keyRow (makecode : Nat) : Except Stop (UInt8 × UInt8) :=
  match keymap[makecode]? with
  | some row => .ok row
  | none => .error .outOfBuffer

/-- The three keys that lock. -/
def toggle (s : State) (makecode : Nat) : State :=
  if makecode = KEY_NUMLOCK then { s with numlock := !s.numlock }
  else if makecode = KEY_CAPSLOCK then { s with capslock := !s.capslock }
  else if makecode = KEY_SCRLOCK then { s with scrlock := !s.scrlock }
  else s

def shiftState (s : State) : Bool := s.down KEY_SHIFT_L || s.down KEY_SHIFT_R

/-- `'a' <= ch <= 'z'` as C reads it: the first comparison is a number, and that is compared. -/
def betweenAZ (ch : UInt8) : Bool := (if 97 ≤ ch then (1 : Nat) else 0) ≤ 122

/-- The local `shift`. -/
def shiftFlag (s : State) (row : UInt8 × UInt8) : Bool :=
  let shift := s.capslock && betweenAZ row.1
  if shiftState s then !shift else shift

/-- `fifo_put`, then the waiter is woken. -/
def putChar (s : State) (ch : UInt8) : Except Stop State := do
  let fifo ← fifoPut s.fifo ch
  let s := { s with fifo := fifo, queued := s.queued ++ [ch] }
  match s.waiter with
  | some t => return { s with unblocked := s.unblocked ++ [t], waiter := none }
  | none => return s

/-- The end of the handler: the character of the key, if it has one. -/
def emit (s : State) (makecode : Nat) (ext : Bool) : Except Stop State := do
  let row ← keyRow makecode
  let ch := if ext ∧ makecode ≠ KEY_SLASH then row.2
    else if shiftFlag s row then row.2 else row.1
  if ch = INV then return s else putChar s ch

def keyboardHandler (s : State) (vector : Nat) (data : UInt8) : Except Stop State := do
  assert (vector == 0x21)
  let scancode := data.toNat
  if scancode = 0xe0 then
    return { s with extcode := true }
  else
    let ext := s.extcode
    let scancode := if ext then scancode ||| 0xe000 else scancode
    let s := { s with extcode := false }
    let makecode := scancode &&& 0x7f
    let makecode := if makecode = CODE_PRINT_SCREEN_DOWN then KEY_PRINT_SCREEN else makecode
    if makecode > KEY_PRINT_SCREEN then
      return s
    else if scancode &&& 0x80 ≠ 0 then
      setKey s makecode ext false
    else do
      let s ← setKey s makecode ext true
      emit (toggle s makecode) makecode ext

/-- What happens to the driver: a code arrives, or the task in the loop of `keyboard_read` goes to
    sleep or takes a character. -/
inductive Event where
  | code (data : UInt8)
  | sleep (t : Nat)
  | take

def step (s : State) : Event → Except Stop State
  | .code data => keyboardHandler s 0x21 data
  | .sleep t => .ok (if fifoEmpty s.fifo then { s with waiter := some t } else s)
  | .take =>
    if fifoEmpty s.fifo then .ok s
    else do
      let (_, fifo) ← fifoGet s.fifo
      return { s with fifo := fifo }

def run (s : State) (evs : List Event) : Except Stop State := evs.foldlM step s

/-! ## 2. What the codes mean -/

/-- A key goes down or up; `ext` says that the code came after the prefix `0xE0`. -/
structure KeyEvent where
  key : Nat
  make : Bool
  ext : Bool
  deriving DecidableEq

/-- A prefix is pending after these codes. -/
def pendingAfter (codes : List UInt8) : Bool := codes.getLast? == some 0xe0

def keyEvent (pending : Bool) (code : UInt8) : KeyEvent :=
  ⟨code.toNat % 128, decide (code < 128), pending⟩

/-- The key events that the codes tell. -/
def keyEvents : Bool → List UInt8 → List KeyEvent
  | _, [] => []
  | pending, code :: codes =>
    if code = 0xe0 then keyEvents true codes
    else keyEvent pending code :: keyEvents false codes

/-- The last event of the key that was not extended was a make. -/
def heldIn (es : List KeyEvent) (key : Nat) : Bool :=
  ((es.filter fun e => e.key == key && !e.ext).getLast?.map KeyEvent.make).getD false

def shiftIn (es : List KeyEvent) : Bool := heldIn es KEY_SHIFT_L || heldIn es KEY_SHIFT_R

/-- Caps Lock was made an odd number of times. -/
def capsIn (es : List KeyEvent) : Bool :=
  es.countP (fun e => e.key == KEY_CAPSLOCK && e.make) % 2 == 1

/-- The key types a letter. -/
def IsLetter (row : UInt8 × UInt8) : Prop := 97 ≤ row.1 ∧ row.1 ≤ 122

instance (row : UInt8 × UInt8) : Decidable (IsLetter row) := inferInstanceAs (Decidable (_ ∧ _))

/-- The character of the row to be queued after the events: for a letter the upper case when
    exactly one of Caps Lock and shift is on, for another key the second column under shift. -/
def typedChar (es : List KeyEvent) (row : UInt8 × UInt8) : UInt8 :=
  if IsLetter row then if capsIn es ≠ shiftIn es then row.1 - 32 else row.1
  else if shiftIn es then row.2 else row.1

/-- What a make of the key is to queue: nothing for a key without a row or for an entry 0. -/
def typed (es : List KeyEvent) (key : Nat) : List UInt8 :=
  match keymap[key]? with
  | some row => if typedChar es row = 0 then [] else [typedChar es row]
  | none => []

/-- What is promised of one code: a make that is not extended queues what it is to queue, a break
    nothing, and so does the prefix. -/
structure Right (before : List UInt8) (code : UInt8) (s s' : State) : Prop where
  make : code < 128 → pendingAfter before = false →
    s'.queued = s.queued ++ typed (keyEvents false (before ++ [code])) code.toNat
  other : 128 ≤ code → s'.queued = s.queued

/-- The ring takes what is queued; the oldest character gives way when it is full. -/
def Pushed (s s' : State) : Prop :=
  (s'.queued = s.queued ∧ s'.fifo = s.fifo) ∨
    ∃ ch, s'.queued = s.queued ++ [ch] ∧ s'.fifo.contents =
      (if fifoFull s.fifo then s.fifo.contents.tail else s.fifo.contents) ++ [ch]

/-- The code makes a key that is a letter, or has one character, or Caps Lock is off. -/
def Plain (before : List UInt8) (code : UInt8) : Prop :=
  code < 128 → pendingAfter before = false → ∀ row, keymap[code.toNat]? = some row →
    capsIn (keyEvents false (before ++ [code])) = true → IsLetter row ∨ row.1 = row.2

/-- The codes among the events. -/
def codesOf (evs : List Event) : List UInt8 :=
  evs.filterMap fun e => match e with
    | .code data => some data
    | _ => none

/-! ## 3. The events of a longer sequence -/

section Events

variable {es : List KeyEvent} {codes : List UInt8}

theorem keyEvents_snoc (codes : List UInt8) (code : UInt8) (pending : Bool) :
    keyEvents pending (codes ++ [code]) = keyEvents pending codes ++
      if code = 0xe0 then []
      else [keyEvent (if codes = [] then pending else pendingAfter codes) code] := by
  induction codes generalizing pending with
  | nil => by_cases h : code = 0xe0 <;> simp [keyEvents, h]
  | cons c codes ih =>
    have hp : pendingAfter (c :: codes) = if codes = [] then c == 0xe0 else pendingAfter codes := by
      cases codes <;> simp [pendingAfter]
    rw [hp]
    by_cases hc : c = 0xe0
    · simp [keyEvents, hc, ih true]
    · have hf : (c == 0xe0) = false := beq_eq_false_iff_ne.mpr hc
      simp [keyEvents, hc, hf, ih false]

/-- The codes grow by one that is no prefix: one event more. -/
theorem keyEvents_key {code : UInt8} (h : code ≠ 0xe0) :
    keyEvents false (codes ++ [code]) =
      keyEvents false codes ++ [keyEvent (pendingAfter codes) code] := by
  rw [keyEvents_snoc, if_neg h]
  cases codes <;> rfl

theorem keyEvents_extended : keyEvents false (codes ++ [0xe0]) = keyEvents false codes := by
  rw [keyEvents_snoc, if_pos rfl, List.append_nil]

theorem pendingAfter_snoc (code : UInt8) : pendingAfter (codes ++ [code]) = (code == 0xe0) := by
  simp [pendingAfter]

theorem heldIn_snoc (e : KeyEvent) (key : Nat) :
    heldIn (es ++ [e]) key = if e.key = key ∧ e.ext = false then e.make else heldIn es key := by
  unfold heldIn
  rw [List.filter_append, List.getLast?_append]
  by_cases h : e.key = key ∧ e.ext = false
  · simp [h]
  · rw [if_neg h]
    have : (e.key == key && !e.ext) = false := by
      rw [Bool.eq_false_iff]
      intro hk
      exact h (by simpa using hk)
    simp [this]

theorem capsIn_snoc (e : KeyEvent) :
    capsIn (es ++ [e]) = if e.key = KEY_CAPSLOCK ∧ e.make = true then !capsIn es else capsIn es := by
  unfold capsIn
  rw [List.countP_append, List.countP_singleton]
  by_cases h : e.key = KEY_CAPSLOCK ∧ e.make = true
  · simp only [h, beq_self_eq_true, Bool.and_self, if_true, and_self]
    rcases Nat.mod_two_eq_zero_or_one
      (List.countP (fun e => e.key == KEY_CAPSLOCK && e.make) es) with h0 | h0 <;>
    simp [Nat.add_mod, h0]
  · rw [if_neg h, if_neg (by simpa using h)]
    rfl

end Events

/-! ## 4. One code -/

section Handler

variable {s : State}

/-- The handler goes by the event of the code. -/
theorem makecode_eq (data : UInt8) (ext : Bool) :
    (if ext then data.toNat ||| 0xe000 else data.toNat) &&& 0x7f = data.toNat % 128 := by
  cases ext with
  | false => exact Nat.and_two_pow_sub_one_eq_mod data.toNat 7
  | true =>
    rw [if_pos rfl, Nat.and_or_distrib_right, Nat.and_two_pow_sub_one_eq_mod data.toNat 7]
    exact Nat.or_zero _

theorem and_0x80 : ∀ n < 256, n &&& 0x80 ≠ 0 ↔ 128 ≤ n := by decide +kernel

theorem breakcode_iff (data : UInt8) (ext : Bool) :
    (if ext then data.toNat ||| 0xe000 else data.toNat) &&& 0x80 ≠ 0 ↔ 128 ≤ data := by
  have hd := and_0x80 data.toNat data.toNat_lt
  cases ext with
  | false => exact hd
  | true =>
    rw [if_pos rfl, Nat.and_or_distrib_right, show 0xe000 &&& 0x80 = 0 from rfl, Nat.or_zero]
    exact hd

theorem setKey_ok {key : Nat} (h : key ≤ KEY_PRINT_SCREEN) (ext v : Bool) :
    setKey s key ext v = .ok (s.mark key ext v) :=
  if_pos (Nat.lt_succ_of_le h)

theorem keyboardHandler_prefix (s : State) :
    keyboardHandler s 0x21 0xe0 = .ok { s with extcode := true } := rfl

theorem keyboardHandler_key {data : UInt8} (h : data ≠ 0xe0) :
    keyboardHandler s 0x21 data =
      let e := keyEvent s.extcode data
      let s := { s with extcode := false }
      if KEY_PRINT_SCREEN < e.key then .ok s
      else if e.make then emit (toggle (s.mark e.key e.ext true) e.key) e.key e.ext
      else .ok (s.mark e.key e.ext false) := by
  have hd : data.toNat ≠ 0xe0 := fun hn => h (UInt8.toNat_inj.mp hn)
  have hne : data.toNat % 128 ≠ CODE_PRINT_SCREEN_DOWN := by
    unfold CODE_PRINT_SCREEN_DOWN
    omega
  have hb := breakcode_iff data s.extcode
  simp only [keyboardHandler, keyEvent, makecode_eq, if_neg hd, if_neg hne, hb]
  by_cases hk : KEY_PRINT_SCREEN < data.toNat % 128
  · simp only [gt_iff_lt, hk, if_true]
    rfl
  · simp only [gt_iff_lt, hk, if_false, decide_eq_true_eq, ← UInt8.not_le]
    by_cases hm : 128 ≤ data
    · simp only [hm, not_true, if_true, if_false, setKey_ok (Nat.le_of_not_lt hk)]
      rfl
    · simp only [hm, not_false_eq_true, if_true, if_false, setKey_ok (Nat.le_of_not_lt hk)]
      rfl

/-- The flags of the two states are the same. -/
def SameFlags (s s' : State) : Prop :=
  s'.down = s.down ∧ s'.capslock = s.capslock ∧ s'.extcode = s.extcode

/-- A put never fails: the ring gives its oldest character up. -/
theorem putChar_ok (h : s.fifo.Sized) (ch : UInt8) :
    ∃ s', putChar s ch = .ok s' ∧ SameFlags s s' ∧ s'.fifo.Sized ∧ Pushed s s' ∧
      s'.queued = s.queued ++ [ch] := by
  obtain ⟨f, hp, hs, hc⟩ : ∃ f, fifoPut s.fifo ch = .ok f ∧ f.Sized ∧ f.contents =
      (if fifoFull s.fifo then s.fifo.contents.tail else s.fifo.contents) ++ [ch] := by
    cases hf : fifoFull s.fifo with
    | false =>
      obtain ⟨f, hp, hs, -, hc⟩ := fifoPut_room h hf ch
      exact ⟨f, hp, hs, hc⟩
    | true =>
      obtain ⟨f, hp, hs, -, hc⟩ := fifoPut_full h hf ch
      exact ⟨f, hp, hs, hc⟩
  cases hw : s.waiter with
  | none =>
    exact ⟨{ s with fifo := f, queued := s.queued ++ [ch] }, by simp [putChar, hp, hw],
      ⟨rfl, rfl, rfl⟩, hs, .inr ⟨ch, rfl, hc⟩, rfl⟩
  | some t =>
    exact ⟨{ s with
        fifo := f, queued := s.queued ++ [ch], unblocked := s.unblocked ++ [t], waiter := none },
      by simp [putChar, hp, hw], ⟨rfl, rfl, rfl⟩, hs, .inr ⟨ch, rfl, hc⟩, rfl⟩

/-- What the handler takes from a row: the comparison with `'a'` and `'z'` holds of every character,
    so Caps Lock turns every key round. -/
def taken (s : State) (key : Nat) (ext : Bool) (row : UInt8 × UInt8) : UInt8 :=
  if ext ∧ key ≠ KEY_SLASH then row.2
  else if s.capslock ≠ shiftState s then row.2 else row.1

theorem betweenAZ_true (ch : UInt8) : betweenAZ ch = true := by
  unfold betweenAZ
  split <;> decide

theorem shiftFlag_eq (row : UInt8 × UInt8) : shiftFlag s row = (s.capslock != shiftState s) := by
  unfold shiftFlag
  rw [betweenAZ_true, Bool.and_true]
  cases s.capslock <;> cases shiftState s <;> rfl

theorem emit_ok (h : s.fifo.Sized) {key : Nat} {row : UInt8 × UInt8} (hr : keymap[key]? = some row)
    (ext : Bool) :
    ∃ s', emit s key ext = .ok s' ∧ SameFlags s s' ∧ s'.fifo.Sized ∧ Pushed s s' ∧
      s'.queued = s.queued ++ if taken s key ext row = 0 then [] else [taken s key ext row] := by
  have he : emit s key ext =
      if taken s key ext row = 0 then .ok s else putChar s (taken s key ext row) := by
    simp only [emit, keyRow, hr, shiftFlag_eq, bne_iff_ne]
    rfl
  rw [he]
  by_cases h0 : taken s key ext row = 0
  · rw [if_pos h0, if_pos h0]
    exact ⟨s, rfl, ⟨rfl, rfl, rfl⟩, h, .inl ⟨rfl, rfl⟩, (List.append_nil _).symm⟩
  · rw [if_neg h0, if_neg h0]
    exact putChar_ok h _

/-! ## 5. The flags and the codes -/

/-- The flags of the driver are what the codes so far say. -/
structure Agrees (codes : List UInt8) (s : State) : Prop where
  ext : s.extcode = pendingAfter codes
  down : ∀ key ≤ KEY_PRINT_SCREEN, s.down key = heldIn (keyEvents false codes) key
  caps : s.capslock = capsIn (keyEvents false codes)
  sized : s.fifo.Sized

theorem agrees_init (buf : Nat → UInt8) : Agrees [] (keyboardInit buf) :=
  ⟨rfl, fun _ _ => rfl, rfl, show 2 ≤ 64 by decide, show 0 < 64 by decide, show 0 < 64 by decide⟩

variable {codes : List UInt8}

theorem Agrees.shift (h : Agrees codes s) : shiftState s = shiftIn (keyEvents false codes) := by
  rw [shiftState, shiftIn, h.down _ (by decide), h.down _ (by decide)]

theorem Agrees.of_flags {s' : State} (h : Agrees codes s) (hf : SameFlags s s')
    (hs : s'.fifo.Sized) : Agrees codes s' :=
  ⟨hf.2.2.trans h.ext, fun key hk => (congrFun hf.1 key).trans (h.down key hk),
    hf.2.1.trans h.caps, hs⟩

@[simp] theorem mark_capslock (key : Nat) (ext v : Bool) :
    (s.mark key ext v).capslock = s.capslock := by cases ext <;> rfl
@[simp] theorem mark_extcode (key : Nat) (ext v : Bool) :
    (s.mark key ext v).extcode = s.extcode := by cases ext <;> rfl
@[simp] theorem mark_fifo (key : Nat) (ext v : Bool) : (s.mark key ext v).fifo = s.fifo := by
  cases ext <;> rfl
@[simp] theorem mark_queued (key : Nat) (ext v : Bool) :
    (s.mark key ext v).queued = s.queued := by cases ext <;> rfl

theorem mark_down (key k : Nat) (ext v : Bool) :
    (s.mark key ext v).down k = if key = k ∧ ext = false then v else s.down k := by
  cases ext with
  | true => simp [State.mark]
  | false =>
    by_cases h : key = k
    · simp [State.mark, h]
    · simp [State.mark, h, Function.update_of_ne (Ne.symm h)]

@[simp] theorem toggle_down (key : Nat) : (toggle s key).down = s.down := by
  unfold toggle
  split_ifs <;> rfl
@[simp] theorem toggle_extcode (key : Nat) : (toggle s key).extcode = s.extcode := by
  unfold toggle
  split_ifs <;> rfl
@[simp] theorem toggle_fifo (key : Nat) : (toggle s key).fifo = s.fifo := by
  unfold toggle
  split_ifs <;> rfl
@[simp] theorem toggle_queued (key : Nat) : (toggle s key).queued = s.queued := by
  unfold toggle
  split_ifs <;> rfl

theorem toggle_capslock (key : Nat) :
    (toggle s key).capslock = if key = KEY_CAPSLOCK then !s.capslock else s.capslock := by
  unfold toggle
  split_ifs with h1 h2 h3
  · rw [h1] at h2
    exact absurd h2 (by decide)
  all_goals rfl

/-- **A make**: the key is down, a lock key has turned its lock. -/
theorem agrees_make (h : Agrees codes s) {code : UInt8} (hc : code ≠ 0xe0)
    (hm : (keyEvent s.extcode code).make = true) :
    let e := keyEvent s.extcode code
    Agrees (codes ++ [code]) (toggle (({ s with extcode := false } : State).mark e.key e.ext true) e.key) := by
  intro e
  have he : e = keyEvent (pendingAfter codes) code := by rw [← h.ext]
  refine ⟨?_, fun key hk => ?_, ?_, ?_⟩
  · rw [pendingAfter_snoc, beq_eq_false_iff_ne.mpr hc]
    simp
  · rw [keyEvents_key hc, ← he, heldIn_snoc, hm]
    simp [mark_down, h.down key hk]
  · rw [keyEvents_key hc, ← he, capsIn_snoc, hm]
    simp [toggle_capslock, h.caps]
  · simpa using h.sized

/-- **A break**: the key is up. -/
theorem agrees_break (h : Agrees codes s) {code : UInt8} (hc : code ≠ 0xe0)
    (hm : (keyEvent s.extcode code).make = false) :
    let e := keyEvent s.extcode code
    Agrees (codes ++ [code]) (({ s with extcode := false } : State).mark e.key e.ext false) := by
  intro e
  have he : e = keyEvent (pendingAfter codes) code := by rw [← h.ext]
  refine ⟨?_, fun key hk => ?_, ?_, ?_⟩
  · rw [pendingAfter_snoc, beq_eq_false_iff_ne.mpr hc]
    simp
  · rw [keyEvents_key hc, ← he, heldIn_snoc, hm]
    simp [mark_down, h.down key hk]
  · rw [keyEvents_key hc, ← he, capsIn_snoc, hm]
    simp [h.caps]
  · simpa using h.sized

/-- A code of no key: only the prefix is used up. -/
theorem agrees_none (h : Agrees codes s) {code : UInt8} (hc : code ≠ 0xe0)
    (hk : KEY_PRINT_SCREEN < (keyEvent s.extcode code).key) :
    Agrees (codes ++ [code]) { s with extcode := false } := by
  have he : keyEvent s.extcode code = keyEvent (pendingAfter codes) code := by rw [← h.ext]
  refine ⟨?_, fun key hkey => ?_, ?_, h.sized⟩
  · rw [pendingAfter_snoc, beq_eq_false_iff_ne.mpr hc]
  · rw [keyEvents_key hc, ← he, heldIn_snoc, if_neg (by omega)]
    exact h.down key hkey
  · rw [keyEvents_key hc, ← he, capsIn_snoc, if_neg]
    · exact h.caps
    · rintro ⟨h1, -⟩
      rw [h1] at hk
      exact absurd hk (by decide)

theorem agrees_prefix (h : Agrees codes s) :
    Agrees (codes ++ [0xe0]) { s with extcode := true } :=
  ⟨by rw [pendingAfter_snoc]; rfl, fun key hk => by rw [keyEvents_extended]; exact h.down key hk,
    by rw [keyEvents_extended]; exact h.caps, h.sized⟩

/-- What a make that is not extended does queue. -/
def queuedBy (es : List KeyEvent) (key : Nat) : List UInt8 :=
  match keymap[key]? with
  | some row =>
    let ch := if capsIn es ≠ shiftIn es then row.2 else row.1
    if ch = 0 then [] else [ch]
  | none => []

theorem keymap_some {key : Nat} (h : key ≤ KEY_PRINT_SCREEN) : ∃ row, keymap[key]? = some row :=
  ⟨_, List.getElem?_eq_getElem (Nat.lt_succ_of_le h)⟩

theorem Agrees.taken (h : Agrees codes s) {key : Nat} {ext : Bool} (he : ext = false)
    (row : UInt8 × UInt8) :
    taken s key ext row =
      if capsIn (keyEvents false codes) ≠ shiftIn (keyEvents false codes) then row.2 else row.1 := by
  rw [Keyboard.taken, he, if_neg (by simp), h.shift, h.caps]

/-- **One code**: no access leaves the key map, the flags go on to agree, and the queue gains what the
    row gives by Caps Lock and shift alone. -/
theorem handler_goes (h : Agrees codes s) (code : UInt8) :
    ∃ s', keyboardHandler s 0x21 code = .ok s' ∧ Agrees (codes ++ [code]) s' ∧ Pushed s s' ∧
      (128 ≤ code → s'.queued = s.queued) ∧
      (code < 128 → pendingAfter codes = false →
        s'.queued = s.queued ++ queuedBy (keyEvents false (codes ++ [code])) code.toNat) := by
  by_cases hc : code = 0xe0
  · subst hc
    exact ⟨_, keyboardHandler_prefix s, agrees_prefix h, .inl ⟨rfl, rfl⟩, fun _ => rfl,
      fun hlt => absurd hlt (by decide)⟩
  have hrun := keyboardHandler_key (s := s) hc
  have hkey : code < 128 → (keyEvent s.extcode code).key = code.toNat := fun hlt =>
    Nat.mod_eq_of_lt (UInt8.lt_iff_toNat_lt.mp hlt)
  by_cases hk : KEY_PRINT_SCREEN < (keyEvent s.extcode code).key
  · simp only [hk, if_true] at hrun
    refine ⟨_, hrun, agrees_none h hc hk, .inl ⟨rfl, rfl⟩, fun _ => rfl, fun hlt _ => ?_⟩
    rw [hkey hlt] at hk
    have hn : keymap[code.toNat]? = none := List.getElem?_eq_none hk
    simp [queuedBy, hn]
  simp only [hk, if_false] at hrun
  cases hm : (keyEvent s.extcode code).make with
  | false =>
    simp only [hm] at hrun
    refine ⟨_, hrun, agrees_break h hc hm, .inl ⟨by simp, by simp⟩, fun _ => by simp, fun hlt => ?_⟩
    exact absurd hlt (by simpa [keyEvent] using hm)
  | true =>
    simp only [hm, if_true] at hrun
    have ha := agrees_make h hc hm
    obtain ⟨row, hrow⟩ := keymap_some (Nat.le_of_not_lt hk)
    obtain ⟨s', hs, hf, hsz, hp, hq⟩ := emit_ok ha.sized hrow (keyEvent s.extcode code).ext
    refine ⟨s', hrun.trans hs, ha.of_flags hf hsz, ?_, fun hge => ?_, fun hlt hpend => ?_⟩
    · simpa [Pushed] using hp
    · have : code < 128 := by simpa [keyEvent] using hm
      exact absurd hge (UInt8.not_le.mpr this)
    · have hext : (keyEvent s.extcode code).ext = false := h.ext.trans hpend
      rw [hkey hlt] at hrow
      rw [hq, toggle_queued, mark_queued, ha.taken hext]
      simp only [queuedBy, hrow]

end Handler

/-! ## 6. Any codes -/

/-- The letters' second column is the upper case. -/
theorem keymap_upper : ∀ row ∈ keymap, IsLetter row → row.2 = row.1 - 32 := by
  have h : keymap.all (fun row => !decide (IsLetter row) || row.2 == row.1 - 32) = true := rfl
  intro row hr hl
  have := List.all_eq_true.mp h row hr
  simpa [hl] using this

theorem ofChar_inj {a b : UInt8} :
    ((if a = 0 then [] else [a]) = if b = 0 then [] else [b]) ↔ a = b := by
  by_cases ha : a = 0 <;> by_cases hb : b = 0 <;> simp [ha, hb, eq_comm]

/-- What is queued is what is to be queued: always for a letter, and for another key unless Caps Lock
    takes the other of its two characters. -/
theorem queuedBy_eq_typed (es : List KeyEvent) (key : Nat) :
    queuedBy es key = typed es key ↔ ∀ row, keymap[key]? = some row →
      capsIn es = true → IsLetter row ∨ row.1 = row.2 := by
  unfold queuedBy typed
  cases hr : keymap[key]? with
  | none => simp
  | some row =>
    have hup := keymap_upper row (List.mem_of_getElem? hr)
    refine Iff.trans ofChar_inj ?_
    simp only [Option.some.injEq, forall_eq', typedChar]
    by_cases hl : IsLetter row
    · simp [hl, hup hl]
    · rw [if_neg hl]
      cases hc : capsIn es <;> cases hs : shiftIn es <;> simp [hl, eq_comm]

section Runs

variable {s : State} {codes : List UInt8}

theorem step_agrees (h : Agrees codes s) (ev : Event) :
    ∃ s', step s ev = .ok s' ∧ Agrees (codes ++ codesOf [ev]) s' := by
  cases ev with
  | code data =>
    obtain ⟨s', hs, ha, -⟩ := handler_goes h data
    exact ⟨s', hs, ha⟩
  | sleep t =>
    refine ⟨_, rfl, ?_⟩
    rw [show codesOf [.sleep t] = [] from rfl, List.append_nil]
    split
    · exact h.of_flags ⟨rfl, rfl, rfl⟩ h.sized
    · exact h
  | take =>
    rw [show codesOf [.take] = [] from rfl, List.append_nil]
    cases he : fifoEmpty s.fifo with
    | true => exact ⟨s, if_pos he, h⟩
    | false =>
      obtain ⟨b, f, hg, hsz, -⟩ := fifoGet_cons h.sized he
      exact ⟨{ s with fifo := f }, by simp [step, he, hg], h.of_flags ⟨rfl, rfl, rfl⟩ hsz⟩

theorem codesOf_cons (ev : Event) (evs : List Event) :
    codesOf (ev :: evs) = codesOf [ev] ++ codesOf evs := by
  cases ev <;> rfl

/-- **In every run the flags are what the codes say**, and the run does not stop. -/
theorem run_agrees (h : Agrees codes s) (evs : List Event) :
    ∃ s', run s evs = .ok s' ∧ Agrees (codes ++ codesOf evs) s' := by
  induction evs generalizing s codes with
  | nil => exact ⟨s, rfl, by simpa [codesOf] using h⟩
  | cons ev evs ih =>
    obtain ⟨s₁, hs, ha⟩ := step_agrees h ev
    obtain ⟨s₂, hr, ha₂⟩ := ih ha
    refine ⟨s₂, ?_, by rw [codesOf_cons, ← List.append_assoc]; exact ha₂⟩
    rw [run, List.foldlM_cons, hs]
    exact hr

end Runs

/-- **What a code queues**: after any codes, with reads in between, one more code never leaves the key
    map, the ring takes what is queued, and the code queues what it is to queue if and only if it is
    not a make, with Caps Lock on, of a key that is no letter and has two characters. -/
theorem keyboard_queues (buf : Nat → UInt8) (evs : List Event) (code : UInt8) :
    ∃ s s', run (keyboardInit buf) evs = .ok s ∧ keyboardHandler s 0x21 code = .ok s' ∧
      Pushed s s' ∧ (Right (codesOf evs) code s s' ↔ Plain (codesOf evs) code) := by
  obtain ⟨s, hr, ha⟩ := run_agrees (agrees_init buf) evs
  rw [List.nil_append] at ha
  obtain ⟨s', hs, -, hp, hother, hmake⟩ := handler_goes ha code
  refine ⟨s, s', hr, hs, hp, ?_⟩
  constructor
  · intro h hlt hpend
    have := h.make hlt hpend
    rw [hmake hlt hpend, List.append_cancel_left_eq] at this
    exact (queuedBy_eq_typed _ _).mp this
  · intro h
    refine ⟨fun hlt hpend => ?_, hother⟩
    rw [hmake hlt hpend, (queuedBy_eq_typed _ _).mpr (h hlt hpend)]

/-- Caps Lock, then the key 1: `!` is queued. -/
theorem keyboard_queues_not_always : ¬∀ (buf : Nat → UInt8) (evs : List Event) (code : UInt8),
    ∃ s s', run (keyboardInit buf) evs = .ok s ∧ keyboardHandler s 0x21 code = .ok s' ∧
      Right (codesOf evs) code s s' := by
  intro h
  obtain ⟨s, s', hr, hs, hq⟩ := h (fun _ => 0) [.code 0x3A] 0x02
  have h1 : (run (keyboardInit fun _ => 0) [.code 0x3A] >>= fun s =>
      keyboardHandler s 0x21 0x02).map State.queued = .ok [0x21] := by decide +kernel
  have h2 : (run (keyboardInit fun _ => 0) [.code 0x3A]).map State.queued = .ok [] := by
    decide +kernel
  rw [hr] at h1 h2
  have h1 : s'.queued = [0x21] := by
    have : (keyboardHandler s 0x21 0x02).map State.queued = .ok [0x21] := h1
    rw [hs] at this
    exact Except.ok.inj this
  have h2 : s.queued = [] := Except.ok.inj h2
  have h3 := hq.make (by decide) (by decide)
  rw [h1, h2] at h3
  exact absurd h3 (by decide)

end Yuios.Keyboard
