import Mathlib.Algebra.Group.Int.Defs
import Mathlib.Algebra.Group.Nat.Defs
import Mathlib.Tactic.Common

/-!
# Machine integers

`off64 x` is the value that a 64-bit signed variable keeps of `x`, `size32 x` the value that a 32-bit unsigned one
does. In range both are the value itself (`off64_eq`, `size32_eq`).
-/

namespace Cosmost.Lib

/-- A 64-bit signed result. -/
def off64 (x : Int) : Int := x.bmod (2 ^ 64)

/-- A 32-bit unsigned result. -/
def size32 (x : Int) : Nat := (x % 2 ^ 32).toNat

theorem off64_eq {x : Int} (h1 : -2 ^ 63 ≤ x) (h2 : x < 2 ^ 63) : off64 x = x := by
  rw [off64, Int.bmod_eq_of_le] <;> omega

/-- One wrap past the largest value. -/
theorem off64_wrap {x : Int} (h1 : 2 ^ 63 ≤ x) (h2 : x < 2 ^ 63 + 2 ^ 63) : off64 x = x - 2 ^ 64 := by
  rw [off64, Int.bmod_def]
  omega

theorem size32_eq {x : Int} (h1 : 0 ≤ x) (h2 : x < 2 ^ 32) : (size32 x : Int) = x := by
  rw [size32, Int.emod_eq_of_lt h1 h2]
  omega

end Cosmost.Lib
