import Petele.Lib.CInt

namespace Petele.Tcp

open Lib

/-- The value of a `ulong`, which has 32 bits, after an operation with the result `z`. -/
def ulong (z : ℤ) : ℕ := (z % 2 ^ 32).toNat

/-! Sequence numbers are compared by the sign of their difference. -/

def seqlt (x y : ℕ) : Bool := wrap (x - y) < 0

def seqle (x y : ℕ) : Bool := wrap (x - y) ≤ 0

def seqgt (x y : ℕ) : Bool := wrap (x - y) > 0

def seqge (x y : ℕ) : Bool := wrap (x - y) ≥ 0

theorem ulong_lt (z : ℤ) : ulong z < 2 ^ 32 := by
  rw [ulong]
  omega

theorem ulong_of_range {z : ℤ} (hlow : 0 ≤ z) (hhigh : z < 2 ^ 32) : (ulong z : ℤ) = z := by
  rw [ulong, Int.emod_eq_of_lt hlow hhigh, Int.toNat_of_nonneg hlow]

theorem ulong_eq (z : ℤ) : (ulong z : ℤ) = z % 2 ^ 32 := by
  rw [ulong]
  omega

theorem ulong_eq_self {n : ℕ} (h : n < 2 ^ 32) : ulong n = n := by
  have := ulong_eq n
  omega

theorem wrap_eq (z : ℤ) : wrap z = (z + 2 ^ 31) % 2 ^ 32 - 2 ^ 31 := by
  rw [wrap, Int.bmod_def]
  split <;> omega

/-- The difference of sequence numbers is that of the positions they stand for, if these are not far apart. -/
theorem wrap_ulong (x y : ℤ) (hlow : -2 ^ 31 ≤ x - y) (hhigh : x - y < 2 ^ 31) : wrap (ulong x - ulong y) = x - y := by
  rw [wrap_eq, ulong_eq, ulong_eq]
  omega

end Petele.Tcp
