import Mathlib.Algebra.Order.Ring.Int
import Mathlib.Data.Int.Notation
import Mathlib.Data.Nat.Notation
import Mathlib.Tactic.Common

/-! # Sums and differences of `uint32_t`

Numbers of type `uint32_t` are natural numbers here, and their sums are taken modulo `2 ^ 32`. -/

namespace Gwenhywfar

/-- The sum of two `uint32_t`. -/
def add32 (a b : ℕ) : ℕ := (a + b) % 2 ^ 32

/-- The value of `a - b` for two `uint32_t`, stored in an `int`. -/
def intOfDiff32 (a b : ℕ) : ℤ :=
  let d := ((a : ℤ) - b) % 2 ^ 32
  if d < 2 ^ 31 then d else d - 2 ^ 32

theorem add32_of_lt {a b : ℕ} (h : a + b < 2 ^ 32) : add32 a b = a + b := Nat.mod_eq_of_lt h

theorem intOfDiff32_of_le {a b : ℕ} (h : b ≤ a) (ha : a - b < 2 ^ 31) :
    intOfDiff32 a b = ((a - b : ℕ) : ℤ) := by
  dsimp only [intOfDiff32]
  split <;> omega

end Gwenhywfar
