/-
C's signed integers: an operation has a result when the exact one fits, and a
division when the divisor is not zero. The machine goes around instead (`wrap`).
-/
import Mathlib.Algebra.Order.Ring.Int
import Mathlib.Data.Option.Basic

namespace CInt

variable {x y c : Int}

/-- The result `x` of an operation on integers of `w + 1` bits. -/
def signed (w : Nat) (x : Int) : Option Int := if -2 ^ w ≤ x ∧ x < 2 ^ w then some x else none

/-- The result of an operation on `int`. -/
def int32 : Int → Option Int := signed 31

/-- The result of an operation on `int64_t`. -/
def int64 : Int → Option Int := signed 63

/-- What an `int` holds of the result `x` of an operation. -/
def wrap (x : Int) : Int := x.bmod (2 ^ 32)

/-- `x / y`. -/
def quot (x y : Int) : Option Int := if y = 0 then none else some (x.tdiv y)

theorem int32_of (h₁ : -2147483648 ≤ x) (h₂ : x < 2147483648) : int32 x = some x := if_pos ⟨h₁, h₂⟩

theorem int32_none (h : x < -2147483648 ∨ 2147483648 ≤ x) : int32 x = none :=
  if_neg fun ⟨h₁, h₂⟩ => h.elim (not_lt.mpr h₁) (not_le.mpr h₂)

theorem int64_of (h₁ : -9223372036854775808 ≤ x) (h₂ : x < 9223372036854775808) : int64 x = some x := if_pos ⟨h₁, h₂⟩

theorem wrap_of (h₁ : -2147483648 ≤ x) (h₂ : x < 2147483648) : wrap x = x :=
  Int.bmod_eq_of_le_mul_two (by push_cast; omega) (by push_cast; omega)

theorem wrap_of_int32 (h : (int32 x).isSome) : wrap x = x := by
  by_cases hx : -2147483648 ≤ x ∧ x < 2147483648
  · exact wrap_of hx.1 hx.2
  · rw [int32_none (by omega)] at h
    cases h

theorem le_wrap : -2147483648 ≤ wrap x := Int.le_bmod (by decide)

theorem wrap_lt : wrap x < 2147483648 := Int.bmod_lt (by decide)

theorem wrap_sub_wrap : wrap (wrap x - wrap y) = wrap (x - y) := (Int.sub_bmod x y _).symm

theorem quot_of (h : y ≠ 0) : quot x y = some (x.tdiv y) := if_neg h

theorem le_tdiv (hc : 0 < c) (h : y * c ≤ x) : y ≤ x.tdiv c := by
  rw [← Int.mul_tdiv_cancel y hc.ne']
  exact Int.tdiv_le_tdiv hc h

theorem tdiv_le (hc : 0 < c) (h : x ≤ y * c) : x.tdiv c ≤ y := by
  rw [← Int.mul_tdiv_cancel y hc.ne']
  exact Int.tdiv_le_tdiv hc h

end CInt
