import Petele.Mp.Div

namespace Petele.Mp.Vlong

open Lib Limbs

/-- Shifts of an `mpdigit`. C says nothing about those by 32 bits and more, but that the result is an
`mpdigit`. -/
structure Shl where
  shl : UInt32 → ℕ → UInt32
  low : ∀ x k, k < 32 → shl x k = x <<< UInt32.ofNat k

def VLDIGITS : ℕ := 2

def MAXVLONG : UInt64 := 0x7fffffffffffffff

def MINVLONG : UInt64 := MAXVLONG + 1

/-- The loop of `vtomp`, with `s` digits to come. -/
def digitloop : ℕ → UInt64 → Vec
  | 0, _ => []
  | s + 1, uv => uv.toUInt32 :: digitloop s (uv >>> 32)

/-- The number is taken from zero in 64 bits, where the least one stays as it is. -/
def vtomp (v : Int64) : Mpint :=
  let uv := if v < 0 then (-v).toUInt64 else v.toUInt64
  mpnorm (if v < 0 then -1 else 1) (digitloop VLDIGITS uv)

/-- The loop of `mptov` over the digits from `s` on. A digit is shifted before it is widened. -/
def orloop (c : Shl) : Vec → ℕ → UInt64 → UInt64
  | [], _, v => v
  | d :: p, s, v => orloop c p (s + 1) (v ||| (c.shl d (s * 32)).toUInt64)

def mptov (c : Shl) (b : Mpint) : Int64 :=
  if b.top = 0 then 0
  else if VLDIGITS < b.top then if b.sign = 1 then MAXVLONG.toInt64 else MINVLONG.toInt64
  else
    let v := orloop c b.p 0 0
    if b.sign = 1 then (if MAXVLONG < v then MAXVLONG else v).toInt64
    else if MINVLONG < v then MINVLONG.toInt64
    else -v.toInt64

/-- The `vlong` nearest to a number. -/
def clamp (z : ℤ) : ℤ := max (-2 ^ 63) (min z (2 ^ 63 - 1))

section Spec

theorem digitloop_val (n : ℕ) (uv : UInt64) : val (digitloop n uv) = uv.toNat % (2 ^ 32) ^ n := by
  induction n generalizing uv with
  | zero => rw [digitloop, val_nil, Nat.pow_zero, Nat.mod_one]
  | succ n ih =>
    have hshift : (uv >>> 32).toNat = uv.toNat / 2 ^ 32 := by
      rw [UInt64.toNat_shiftRight, Nat.shiftRight_eq_div_pow]
      rfl
    rw [digitloop, val_cons, ih, hshift, UInt64.toNat_toUInt32, radix_succ, Nat.mod_mul]

theorem toInt64_toInt (u : UInt64) :
    u.toInt64.toInt = if u.toNat < 2 ^ 63 then (u.toNat : ℤ) else u.toNat - 2 ^ 64 := by
  have hlt := u.toNat_lt
  have hbmod : u.toInt64.toInt = Int.bmod u.toNat (2 ^ 64) := BitVec.toInt_eq_toNat_bmod _
  rw [hbmod, Int.bmod]
  split <;> split <;> omega

theorem vtomp_toInt (v : Int64) : (vtomp v).toInt = v.toInt := by
  have hv := toInt64_toInt v.toUInt64
  have hneg := toInt64_toInt (-v).toUInt64
  have hlow := v.le_toInt
  have hsign : v < 0 ↔ v.toInt < 0 := Int64.lt_iff_toInt_lt
  have hlt := v.toUInt64.toNat_lt
  have hlt' := (-v).toUInt64.toNat_lt
  have hsum : ((-v).toUInt64.toNat : ℤ) = (2 ^ 64 - v.toUInt64.toNat) % 2 ^ 64 := by
    rw [Int64.toUInt64_neg, UInt64.toNat_neg, show UInt64.size = 2 ^ 64 from rfl]
    omega
  rw [show v.toUInt64.toInt64 = v from rfl] at hv
  rw [vtomp, mpnorm_toInt, digitloop_val, VLDIGITS, ← Nat.pow_mul]
  by_cases h : v < 0
  · have hv0 := hsign.mp h
    rw [if_pos h, if_pos h, Nat.mod_eq_of_lt hlt', Units.val_neg, Units.val_one]
    split at hv <;> omega
  · have hv0 := mt hsign.mpr h
    rw [if_neg h, if_neg h, Nat.mod_eq_of_lt hlt, Units.val_one]
    split at hv <;> omega

theorem clamp_of_range {z : ℤ} (hlow : -2 ^ 63 ≤ z) (hhigh : z < 2 ^ 63) : clamp z = z := by
  rw [clamp]
  omega

variable (c : Shl) {b : Mpint}

/-- What the end of `mptov` makes of a magnitude. -/
theorem signed_toInt (v : UInt64) (sign : ℤˣ) :
    (if sign = 1 then (if MAXVLONG < v then MAXVLONG else v).toInt64
      else if MINVLONG < v then MINVLONG.toInt64 else -v.toInt64).toInt = clamp (sign * v.toNat) := by
  have hlt := v.toNat_lt
  have hmax : MAXVLONG < v ↔ 2 ^ 63 ≤ v.toNat := UInt64.lt_iff_toNat_lt
  have hmin : MINVLONG < v ↔ 2 ^ 63 < v.toNat := UInt64.lt_iff_toNat_lt
  have hv := toInt64_toInt v
  have hneg := toInt64_toInt (-v)
  rcases Int.units_eq_one_or sign with rfl | rfl
  · rw [if_pos rfl, Units.val_one, one_mul, clamp]
    split
    · rename_i h
      rw [show MAXVLONG.toInt64.toInt = 2 ^ 63 - 1 from rfl]
      have := hmax.mp h
      omega
    · rename_i h
      have := mt hmax.mpr h
      rw [if_pos (by omega)] at hv
      omega
  · rw [if_neg (by decide), Units.val_neg, Units.val_one, clamp]
    split
    · rename_i h
      rw [show MINVLONG.toInt64.toInt = -2 ^ 63 from rfl]
      have := hmin.mp h
      omega
    · rename_i h
      have := mt hmin.mpr h
      rw [show -v.toInt64 = (-v).toInt64 from rfl, hneg, UInt64.toNat_neg, show UInt64.size = 2 ^ 64 from rfl]
      split <;> omega

theorem mptov_one {d : UInt32} (h : b.p = [d]) : (mptov c b).toInt = b.toInt := by
  have hlt := d.toNat_lt
  have htop : b.top = 1 := by rw [Mpint.top, h, List.length_singleton]
  have hv : (orloop c b.p 0 0).toNat = d.toNat := by
    rw [h, orloop, orloop, c.low d _ (by decide), UInt64.toNat_or, UInt32.toNat_toUInt64]
    simp
  rw [mptov, if_neg (by omega), if_neg (by rw [htop]; decide)]
  dsimp only
  rw [signed_toInt, hv, Mpint.toInt, h, val_singleton]
  refine clamp_of_range ?_ ?_
  all_goals
    rcases Int.units_eq_one_or b.sign with hs | hs
    all_goals
      rw [hs]
      push_cast
      omega

/-- Two digits come to less than the second counts. -/
theorem mptov_two (h : b.top = 2) : (mptov c b).toInt.natAbs < 2 ^ 32 := by
  obtain ⟨d, e, hp⟩ := List.length_eq_two.mp h
  have hlt : (orloop c b.p 0 0).toNat < 2 ^ 32 := by
    rw [hp, orloop, orloop, orloop, c.low d _ (by decide), UInt64.toNat_or, UInt64.toNat_or,
      UInt32.toNat_toUInt64, UInt32.toNat_toUInt64]
    refine Nat.or_lt_two_pow (Nat.or_lt_two_pow (by simp) ?_) (UInt32.toNat_lt _)
    exact UInt32.toNat_lt _
  rw [mptov, if_neg (by omega), if_neg (by rw [h]; decide)]
  dsimp only
  rw [signed_toInt, clamp]
  rcases Int.units_eq_one_or b.sign with hs | hs
  all_goals
    rw [hs]
    push_cast
    omega

theorem mptov_more (h : 2 < b.top) : (mptov c b).toInt = clamp b.toInt := by
  have hne : b.p ≠ [] := fun hnil => by
    rw [Mpint.top, hnil] at h
    exact absurd h (by decide)
  have hbig : 2 ^ 64 ≤ val b.p := by
    refine le_trans ?_ (pow_le_val hne)
    rw [show (2 : ℕ) ^ 64 = (2 ^ 32) ^ 2 by decide]
    exact Nat.pow_le_pow_right (by decide) (by omega)
  rw [mptov, if_neg (by omega), if_pos (show VLDIGITS < b.top from h), Mpint.toInt, clamp]
  rcases Int.units_eq_one_or b.sign with hs | hs
  · rw [if_pos hs, hs, show MAXVLONG.toInt64.toInt = 2 ^ 63 - 1 from rfl]
    push_cast
    omega
  · rw [if_neg (by rw [hs]; decide), hs, show MINVLONG.toInt64.toInt = -2 ^ 63 from rfl]
    push_cast
    omega

/-- The number of digits and the magnitude. -/
theorem top_two_iff : b.top = 2 ↔ 2 ^ 32 ≤ val b.p ∧ val b.p < 2 ^ 64 := by
  have hlt := val_lt b.p
  constructor
  · intro h
    have hle := pow_le_val (b := b) fun hnil => by
      rw [Mpint.top, hnil] at h
      cases h
    rw [show b.p.length = 2 from h] at hlt
    rw [h] at hle
    omega
  · rintro ⟨hlow, hhigh⟩
    exact top_eq (n := 1) (by omega) (by omega)

theorem mptov_eq_clamp : (mptov c b).toInt = clamp b.toInt ↔ b.top ≠ 2 := by
  constructor
  · intro heq htwo
    have hsmall := mptov_two c htwo
    obtain ⟨hlow, -⟩ := top_two_iff.mp htwo
    rw [heq, clamp] at hsmall
    have habs := abs_toInt b
    omega
  · intro hne
    rcases Nat.lt_trichotomy b.top 2 with hlt | heq | hgt
    · rcases Nat.lt_or_ge b.top 1 with hzero | hone
      · have hp := top_eq_zero.mp (Nat.lt_one_iff.mp hzero)
        rw [mptov, if_pos (Nat.lt_one_iff.mp hzero), toInt_eq_zero.mpr hp]
        rfl
      · obtain ⟨d, hp⟩ := List.length_eq_one_iff.mp (show b.p.length = 1 from Nat.le_antisymm (Nat.le_of_lt_succ hlt) hone)
        rw [mptov_one c hp]
        have habs := abs_toInt b
        rw [hp, val_singleton] at habs
        have := d.toNat_lt
        exact (clamp_of_range (by omega) (by omega)).symm
    · exact absurd heq hne
    · exact mptov_more c hgt

/-- A `vlong` comes back if it has one digit, and a number comes to the nearest `vlong` unless it has
two digits. -/
theorem mptov_iff :
    (∀ v : Int64, mptov c (vtomp v) = v ↔ v.toInt.natAbs < 2 ^ 32) ∧
      ∀ b : Mpint, (mptov c b).toInt = clamp b.toInt ↔
        b.toInt.natAbs < 2 ^ 32 ∨ 2 ^ 64 ≤ b.toInt.natAbs := by
  have hsize : ∀ b : Mpint, (mptov c b).toInt = clamp b.toInt ↔
      b.toInt.natAbs < 2 ^ 32 ∨ 2 ^ 64 ≤ b.toInt.natAbs := by
    intro b
    rw [mptov_eq_clamp, abs_toInt, ne_eq, top_two_iff]
    omega
  refine ⟨fun v => ?_, hsize⟩
  have hlow := v.le_toInt
  have hhigh := v.toInt_lt
  have hv := hsize (vtomp v)
  rw [vtomp_toInt, clamp_of_range hlow hhigh, Int64.toInt_inj] at hv
  rw [hv]
  omega

/-- The shifts of a processor that takes the count modulo 32. -/
def masked : Shl := ⟨fun x k => x <<< UInt32.ofNat (k % 32), fun x k hk => by rw [Nat.mod_eq_of_lt hk]⟩

/-- The number 4294967296, with a digit of 0 and a digit of 1. -/
theorem mptov_second_digit :
    mptov masked (vtomp 0x100000000) = 1 ∧ (vtomp 0x100000000).toInt = 0x100000000 := by
  decide +kernel

end Spec

end Petele.Mp.Vlong
