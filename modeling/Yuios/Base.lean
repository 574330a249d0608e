/-
  File:      Yuios/Base.lean
  Subject:   What every part of the kernel shares: the ways it stops, and a few constants of
             `yui/types.h` and `yui/buffer.h`.
-/

namespace Yuios

/-- Why the kernel stopped: a failed assertion and a panic spin for ever with interrupts off, a
    NULL dereference faults, and an access outside a buffer is behaviour the model does not
    follow. -/
inductive Stop where
  | assertion
  | panic
  | fault
  | outOfBuffer
  deriving DecidableEq, Repr

/-- `EOF` as the unsigned 32-bit number an `index_t` holds. -/
def EOF : Nat := 4294967295

/-- `EOF` in a signed `dev_t`: no device. -/
def devEOF : Int := -1

def BLOCK_SIZE : Nat := 1024

/-- What ran to its end ran its first part to its end. -/
theorem ok_of_bind {ε β γ : Type} {x : Except ε β} {f : β → Except ε γ} {r : γ}
    (h : (x >>= f) = .ok r) : ∃ a, x = .ok a ∧ f a = .ok r := by
  cases x with
  | error e => cases h
  | ok a => exact ⟨a, rfl, h⟩

/-- A first part that runs to its end, and the rest. -/
theorem bind_of_ok {ε β γ : Type} {x : Except ε β} {a : β} {f : β → Except ε γ} {r : Except ε γ}
    (hx : x = .ok a) (hf : f a = r) : (x >>= f) = r := by
  rw [hx]
  exact hf

end Yuios
