import Mathlib

namespace Petele.Lib

/-- The value an `int` of 32 bits has after an operation with the result `z`. -/
def wrap (z : ℤ) : ℤ := Int.bmod z (2 ^ 32)

theorem wrap_of_range {z : ℤ} (hlow : -2 ^ 31 ≤ z) (hhigh : z < 2 ^ 31) : wrap z = z :=
  Int.bmod_eq_of_le (by simpa using hlow) (by simpa using hhigh)

theorem wrap_sub_period (z : ℤ) : wrap (z - 2 ^ 32) = wrap z := by
  rw [wrap, wrap, Int.bmod_eq_bmod_iff_bmod_sub_eq_zero]
  simp [Int.bmod]

/-- A result past the greatest `int` comes round to a negative one. -/
theorem wrap_past {z : ℤ} (hlow : 2 ^ 31 ≤ z) (hhigh : z < 2 ^ 32 + 2 ^ 31) : wrap z = z - 2 ^ 32 := by
  rw [← wrap_sub_period, wrap_of_range (by omega) (by omega)]

theorem wrap_lt (z : ℤ) : wrap z < 2 ^ 31 := Int.bmod_lt (by decide)

@[simp] theorem wrap_wrap (z : ℤ) : wrap (wrap z) = wrap z := Int.bmod_bmod

@[simp] theorem wrap_wrap_add (x y : ℤ) : wrap (wrap x + y) = wrap (x + y) := Int.bmod_add_bmod

@[simp] theorem wrap_add_wrap (x y : ℤ) : wrap (x + wrap y) = wrap (x + y) := Int.add_bmod_bmod

@[simp] theorem wrap_wrap_sub (x y : ℤ) : wrap (wrap x - y) = wrap (x - y) := Int.bmod_sub_bmod

@[simp] theorem wrap_sub_wrap (x y : ℤ) : wrap (x - wrap y) = wrap (x - y) := Int.sub_bmod_bmod

@[simp] theorem wrap_zero : wrap 0 = 0 := rfl

end Petele.Lib
