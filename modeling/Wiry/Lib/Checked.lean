/-
Arithmetic of a fixed width that fails instead of wrapping.

A computation written over these and over lookups that fail out of bounds gives a value exactly
where nothing overflows and nothing is read that is not there. The bind rules peel one operation off
it at a time.
-/
import Mathlib

set_option autoImplicit false

namespace Checked

/-- A number of `bits` bits, where `n` is one. -/
def fit (bits n : ℕ) : Option ℕ := if n < 2 ^ bits then some n else none

/-- A sum of 64 bits. -/
def add (a b : ℕ) : Option ℕ := fit 64 (a + b)

/-- A difference that is no less than zero. -/
def sub (a b : ℕ) : Option ℕ := if b ≤ a then some (a - b) else none

variable {α : Type}

theorem fit_bind {bits n : ℕ} (h : n < 2 ^ bits) (f : ℕ → Option α) : (fit bits n >>= f) = f n := by
  rw [fit, if_pos h]
  rfl

theorem add_bind {a b : ℕ} (h : a + b < 2 ^ 64) (f : ℕ → Option α) : (add a b >>= f) = f (a + b) :=
  fit_bind h f

theorem sub_bind {a b : ℕ} (h : b ≤ a) (f : ℕ → Option α) : (sub a b >>= f) = f (a - b) := by
  rw [sub, if_pos h]
  rfl

/-- A value that is there. -/
theorem some_bind {β : Type} {x : Option β} {v : β} (h : x = some v) (f : β → Option α) :
    (x >>= f) = f v := by
  rw [h]
  rfl

end Checked
