import Petele.Mp.Karatsuba
import Mathlib.Data.List.DropRight
import Mathlib.Data.Int.Order.Units
import Mathlib.Data.Nat.Bitwise

namespace Petele.Mp

open Lib Limbs

/-- A normalized `mpint`: `p` has the `top` significant digits, the last of them not zero. -/
structure Mpint where
  sign : ℤˣ
  p : Vec
  norm : p.getLast? ≠ some 0
  deriving DecidableEq

def Mpint.top (b : Mpint) : ℕ := b.p.length

/-- The integer an `mpint` stands for. Zero may have either sign. -/
def Mpint.toInt (b : Mpint) : ℤ := b.sign * val b.p

/-- The loop of `mpnorm`. -/
def strip (p : Vec) : Vec := p.rdropWhile (· == 0)

theorem strip_norm (p : Vec) : (strip p).getLast? ≠ some 0 := by
  intro h
  have hne : strip p ≠ [] := by
    intro hnil
    rw [hnil] at h
    cases h
  rw [List.getLast?_eq_getLast_of_ne_nil hne, Option.some_inj] at h
  exact List.rdropWhile_last_not (· == 0) p hne (beq_iff_eq.mpr h)

def mpnorm (sign : ℤˣ) (p : Vec) : Mpint :=
  ⟨if strip p = [] then 1 else sign, strip p, strip_norm p⟩

def Mpint.withSign (b : Mpint) (sign : ℤˣ) : Mpint := { b with sign := sign }

def mpzero : Mpint := ⟨1, [], by simp⟩

def mpone : Mpint := ⟨1, [1], by simp⟩

def mpmagcmp (b1 b2 : Mpint) : ℤ :=
  if b1.top ≠ b2.top then b1.top - b2.top else mpveccmp b1.p b2.p

def mpcmp (b1 b2 : Mpint) : ℤ :=
  let sign : ℤ := ((b1.sign : ℤ) - b2.sign) / 2
  if sign ≠ 0 then sign else mpmagcmp b1 b2 * b1.sign

def mpmagadd (x y : Mpint) : Mpint :=
  let b1 := if x.top < y.top then y else x
  let b2 := if x.top < y.top then x else y
  if b1.top = 0 then mpzero
  else if b2.top = 0 then b1
  else mpnorm 1 (addloop b1.p b2.p 0)

def mpmagsub (x y : Mpint) : Mpint :=
  let sign : ℤˣ := if mpmagcmp x y < 0 then -1 else 1
  let b1 := if mpmagcmp x y < 0 then y else x
  let b2 := if mpmagcmp x y < 0 then x else y
  if b2.top = 0 then b1.withSign sign
  else mpnorm sign (subloop b1.p b2.p 0)

def mpadd (b1 b2 : Mpint) : Mpint :=
  if b1.sign ≠ b2.sign then if b1.sign = -1 then mpmagsub b2 b1 else mpmagsub b1 b2
  else
    let sum := mpmagadd b1 b2
    if sum.top ≠ 0 then sum.withSign b1.sign else sum

def mpsub (b1 b2 : Mpint) : Mpint :=
  if b1.sign ≠ b2.sign then (mpmagadd b1 b2).withSign b1.sign
  else
    let diff := mpmagsub b1 b2
    if diff.top ≠ 0 then diff.withSign (diff.sign * b1.sign) else diff

/-- The product has `top+top+1` zeroed digits to go to. -/
def mpmul (b1 b2 : Mpint) : Mpint :=
  let p := mpvecmul b1.p b2.p (List.replicate (b1.top + b2.top + 1) 0) 0
  mpnorm (b1.sign * b2.sign) (p.getD [])

/-- The digits of `mpleft` for a shift of `l` bits, `0 < l < 32`, above the digit `last`. -/
def leftloop (l : ℕ) : Vec → UInt32 → Vec
  | [], last => [last >>> UInt32.ofNat (32 - l)]
  | this :: p, last =>
    (this <<< UInt32.ofNat l ||| last >>> UInt32.ofNat (32 - l)) :: leftloop l p this

/-- The digits of `mpright` for a shift of `r` bits, `0 < r < 32`. -/
def rightloop (r : ℕ) : Vec → Vec
  | [] => []
  | [last] => [last >>> UInt32.ofNat r]
  | last :: this :: p =>
    (this <<< UInt32.ofNat (32 - r) ||| last >>> UInt32.ofNat r) :: rightloop r (this :: p)

def mpright (b : Mpint) (shift : ℕ) : Mpint :=
  if b.top = 0 then b
  else
    let d := shift / 32
    let r := shift % 32
    if b.top ≤ d then mpzero
    else mpnorm b.sign (if r = 0 then b.p.drop d else rightloop r (b.p.drop d))

def mpleft (b : Mpint) (shift : ℕ) : Mpint :=
  if b.top = 0 then b
  else if shift = 0 then mpright b 0
  else
    let d := shift / 32
    let l := shift % 32
    mpnorm b.sign (List.replicate d 0 ++ if l = 0 then b.p else leftloop l b.p 0)

/-- The bits of a digit, from bit `j` down. -/
def digitbits (d : UInt32) : ℕ → ℕ
  | 0 => 0
  | j + 1 => if d &&& 1 <<< UInt32.ofNat j ≠ 0 then j + 1 else digitbits d j

/-- The loop of `mpsignif`, from the top digit down. -/
def signifloop : Vec → ℕ
  | [] => 0
  | d :: ds => if digitbits d 32 ≠ 0 then ds.length * 32 + digitbits d 32 else signifloop ds

def mpsignif (n : Mpint) : ℕ := signifloop n.p.reverse

section Magnitude

@[simp] theorem val_strip (p : Vec) : val (strip p) = val p := by
  have hsplit : val (strip p ++ p.rtakeWhile (· == 0)) = val p := by
    rw [strip, List.rdropWhile_append_rtakeWhile]
  have hzero : p.rtakeWhile (· == 0) = List.replicate (p.rtakeWhile (· == 0)).length 0 := by
    refine List.eq_replicate_length.mpr fun x hx => ?_
    have hzero := List.mem_rtakeWhile_imp hx
    exact beq_iff_eq.mp hzero
  rw [val_append, hzero, val_zeros, Nat.mul_zero, Nat.add_zero] at hsplit
  exact hsplit

theorem mpnorm_toInt (sign : ℤˣ) (p : Vec) : (mpnorm sign p).toInt = sign * val p := by
  have hval := val_strip p
  unfold mpnorm Mpint.toInt
  by_cases hnil : strip p = []
  · rw [hnil, val_nil] at hval
    simp [hnil, ← hval]
  · simp [hnil, hval]

@[simp] theorem mpnorm_p (sign : ℤˣ) (p : Vec) : (mpnorm sign p).p = strip p := rfl

theorem withSign_toInt (b : Mpint) (sign : ℤˣ) : (b.withSign sign).toInt = sign * val b.p := rfl

/-- The digits of a number that is not zero, with the highest one apart. -/
theorem exists_top {b : Mpint} (h : b.p ≠ []) :
    ∃ (ds : Vec) (d : UInt32), b.p = ds ++ [d] ∧ d.toNat ≠ 0 := by
  obtain ⟨ds, d, hp⟩ := List.eq_nil_or_concat b.p |>.resolve_left h
  rw [List.concat_eq_append] at hp
  refine ⟨ds, d, hp, fun hzero => ?_⟩
  have hnorm := b.norm
  rw [hp, List.getLast?_concat] at hnorm
  exact hnorm (congrArg some (UInt32.toNat_inj.mp hzero))

/-- The top digit of a normalized number counts. -/
theorem pow_le_val {b : Mpint} (h : b.p ≠ []) : (2 ^ 32) ^ (b.top - 1) ≤ val b.p := by
  obtain ⟨ds, d, hp⟩ := List.eq_nil_or_concat b.p |>.resolve_left h
  have hlast := b.norm
  rw [List.concat_eq_append] at hp
  rw [hp, List.getLast?_concat] at hlast
  have hd : 1 ≤ d.toNat := by
    by_contra hzero
    exact hlast (congrArg some (UInt32.toNat_inj.mp (by
      rw [show d.toNat = 0 by omega]
      rfl)))
  rw [Mpint.top, hp, List.length_append, List.length_singleton, Nat.add_sub_cancel, val_append,
    val_singleton]
  have hmul := Nat.mul_le_mul_left ((2 ^ 32) ^ ds.length) hd
  omega

theorem val_eq_zero {b : Mpint} : val b.p = 0 ↔ b.p = [] := by
  constructor
  · intro hzero
    by_contra hne
    have hle := pow_le_val hne
    have hpos : 0 < (2 ^ 32) ^ (b.top - 1) := Nat.pow_pos (by decide)
    omega
  · intro hnil
    rw [hnil, val_nil]

theorem top_eq_zero {b : Mpint} : b.top = 0 ↔ b.p = [] := List.length_eq_zero_iff

theorem val_lt_of_top {b1 b2 : Mpint} (h : b1.top < b2.top) : val b1.p < val b2.p := by
  have hne : b2.p ≠ [] := fun hnil => by
    rw [top_eq_zero.mpr hnil] at h
    omega
  calc val b1.p < (2 ^ 32) ^ b1.top := val_lt b1.p
    _ ≤ (2 ^ 32) ^ (b2.top - 1) := Nat.pow_le_pow_right (by decide) (by omega)
    _ ≤ val b2.p := pow_le_val hne

theorem mpmagcmp_spec (b1 b2 : Mpint) :
    (mpmagcmp b1 b2 < 0 ↔ val b1.p < val b2.p) ∧ (mpmagcmp b1 b2 = 0 ↔ val b1.p = val b2.p) := by
  unfold mpmagcmp
  split
  · rename_i hne
    rcases Nat.lt_or_gt_of_ne hne with hlt | hlt
    · have hval := val_lt_of_top hlt
      omega
    · have hval := val_lt_of_top hlt
      omega
  · exact mpveccmp_spec b1.p b2.p

end Magnitude

section Sums

theorem mpmagadd_val (x y : Mpint) : val (mpmagadd x y).p = val x.p + val y.p := by
  obtain ⟨a, ha⟩ : ∃ a, (if x.top < y.top then y else x) = a := ⟨_, rfl⟩
  obtain ⟨b, hb⟩ : ∃ b, (if x.top < y.top then x else y) = b := ⟨_, rfl⟩
  have hswap : b.top ≤ a.top ∧ val x.p + val y.p = val a.p + val b.p := by
    by_cases hlt : x.top < y.top
    · rw [if_pos hlt] at ha hb
      subst ha hb
      exact ⟨hlt.le, Nat.add_comm _ _⟩
    · rw [if_neg hlt] at ha hb
      subst ha hb
      exact ⟨Nat.le_of_not_lt hlt, rfl⟩
  obtain ⟨hle, hval⟩ := hswap
  simp only [mpmagadd, ha, hb]
  rw [hval]
  split
  · rename_i hzero
    rw [top_eq_zero.mp hzero, top_eq_zero.mp (show b.top = 0 by omega)]
    rfl
  · split
    · rename_i hzero
      rw [top_eq_zero.mp hzero, val_nil, Nat.add_zero]
    · rw [mpnorm_p, val_strip, addloop_val _ _ _ hle]
      rfl

/-- The difference of the magnitudes, which a zero subtrahend leaves with a sign of its own. -/
theorem mpmagsub_toInt (x y : Mpint) : (mpmagsub x y).toInt = (val x.p : ℤ) - val y.p := by
  obtain ⟨hneg, -⟩ := mpmagcmp_spec x y
  have hsub : ∀ (a b : Mpint) (s : ℤˣ), val b.p ≤ val a.p →
      (if b.top = 0 then a.withSign s else mpnorm s (subloop a.p b.p 0)).toInt =
        s * ((val a.p : ℤ) - val b.p) := by
    intro a b s hle
    split
    · rename_i hzero
      rw [withSign_toInt, top_eq_zero.mp hzero, val_nil]
      simp
    · have hlen : b.top ≤ a.top := Nat.le_of_not_lt fun hlt => by
        have := val_lt_of_top hlt
        omega
      obtain ⟨d, hd, -, hval⟩ := mpvecsub_spec (a := a.p) (b := b.p) hlen hle
      rw [mpvecsub, if_pos (show b.p.length ≤ a.p.length from hlen), Option.some_inj] at hd
      rw [mpnorm_toInt, hd]
      congr 1
      omega
  by_cases h : mpmagcmp x y < 0
  · simp only [mpmagsub, if_pos h]
    rw [hsub y x _ (hneg.mp h).le]
    simp
  · simp only [mpmagsub, if_neg h]
    rw [hsub x y _ (Nat.le_of_not_lt (mt hneg.mpr h))]
    simp

theorem toInt_of_one {b : Mpint} (h : b.sign = 1) : b.toInt = val b.p := by
  rw [Mpint.toInt, h, Units.val_one, one_mul]

theorem toInt_of_neg {b : Mpint} (h : b.sign = -1) : b.toInt = -(val b.p : ℤ) := by
  rw [Mpint.toInt, h, Units.val_neg, Units.val_one, neg_one_mul]

theorem abs_toInt (b : Mpint) : b.toInt.natAbs = val b.p := by
  rcases Int.units_eq_one_or b.sign with h | h
  · rw [toInt_of_one h, Int.natAbs_natCast]
  · rw [toInt_of_neg h, Int.natAbs_neg, Int.natAbs_natCast]

theorem toInt_eq_zero {b : Mpint} : b.toInt = 0 ↔ b.p = [] := by
  rw [← Int.natAbs_eq_zero, abs_toInt, val_eq_zero]

theorem mpadd_toInt (b1 b2 : Mpint) : (mpadd b1 b2).toInt = b1.toInt + b2.toInt := by
  unfold mpadd
  by_cases hs : b1.sign = b2.sign
  · have hsum := mpmagadd_val b1 b2
    rw [if_neg (not_not.mpr hs)]
    dsimp only
    split
    · rw [withSign_toInt, hsum, Mpint.toInt, Mpint.toInt, hs]
      push_cast
      ring
    · rename_i hzero
      rw [toInt_eq_zero.mpr (top_eq_zero.mp (not_not.mp hzero))]
      rw [top_eq_zero.mp (not_not.mp hzero), val_nil] at hsum
      rw [Mpint.toInt, Mpint.toInt, show val b1.p = 0 by omega, show val b2.p = 0 by omega]
      simp
  · rw [if_pos hs]
    rcases Int.units_eq_one_or b1.sign with h1 | h1
    · have h2 : b2.sign = -1 := (Int.units_eq_one_or b2.sign).resolve_left fun h => hs (by rw [h1, h])
      rw [if_neg (by rw [h1]; decide), mpmagsub_toInt, toInt_of_one h1, toInt_of_neg h2]
      omega
    · have h2 : b2.sign = 1 := (Int.units_eq_one_or b2.sign).resolve_right fun h => hs (by rw [h1, h])
      rw [if_pos h1, mpmagsub_toInt, toInt_of_neg h1, toInt_of_one h2]
      omega

theorem mpsub_toInt (b1 b2 : Mpint) : (mpsub b1 b2).toInt = b1.toInt - b2.toInt := by
  unfold mpsub
  by_cases hs : b1.sign = b2.sign
  · have hdiff := mpmagsub_toInt b1 b2
    rw [if_neg (not_not.mpr hs)]
    dsimp only
    split
    · rw [withSign_toInt, Units.val_mul, mul_right_comm, ← Mpint.toInt, hdiff, Mpint.toInt,
        Mpint.toInt, hs]
      ring
    · rename_i hzero
      rw [toInt_eq_zero.mpr (top_eq_zero.mp (not_not.mp hzero))] at hdiff ⊢
      rw [Mpint.toInt, Mpint.toInt, hs, ← mul_sub, ← hdiff, mul_zero]
  · have hneg : (b2.sign : ℤ) = -b1.sign := by
      rcases Int.units_eq_one_or b1.sign with h1 | h1
      all_goals rcases Int.units_eq_one_or b2.sign with h2 | h2
      all_goals rw [h1, h2] at hs ⊢
      · exact absurd rfl hs
      · rfl
      · rfl
      · exact absurd rfl hs
    rw [if_pos hs, withSign_toInt, mpmagadd_val, Mpint.toInt, Mpint.toInt, hneg]
    push_cast
    ring

theorem mpmul_toInt (b1 b2 : Mpint) : (mpmul b1 b2).toInt = b1.toInt * b2.toInt := by
  obtain ⟨ds, hmul, -, hval⟩ := mpvecmul_spec b1.p b2.p [] [0]
  simp only [List.nil_append, List.length_nil, ← List.replicate_succ'] at hmul
  unfold mpmul
  dsimp only
  rw [Mpint.top, Mpint.top, hmul, Option.getD_some, mpnorm_toInt, val_append, hval, Mpint.toInt,
    Mpint.toInt]
  push_cast
  simp only [val_singleton, UInt32.toNat_zero, Nat.cast_zero, mul_zero, add_zero]
  ring

theorem sign_of_pos {b : Mpint} (h : 0 < b.toInt) : b.sign = 1 := by
  refine (Int.units_eq_one_or b.sign).resolve_right fun hneg => ?_
  rw [toInt_of_neg hneg] at h
  omega

theorem mpcmp_spec {b1 b2 : Mpint} (h1 : 0 < b1.toInt) (h2 : 0 < b2.toInt) :
    (mpcmp b1 b2 < 0 ↔ b1.toInt < b2.toInt) ∧ (mpcmp b1 b2 = 0 ↔ b1.toInt = b2.toInt) := by
  have hs1 := sign_of_pos h1
  have hs2 := sign_of_pos h2
  have hcmp : mpcmp b1 b2 = mpmagcmp b1 b2 := by
    simp [mpcmp, hs1, hs2]
  obtain ⟨hneg, hzero⟩ := mpmagcmp_spec b1 b2
  rw [hcmp, toInt_of_one hs1, toInt_of_one hs2, hneg, hzero]
  omega

end Sums

section Shifts

theorem toNat_shl (x : UInt32) {l : ℕ} (hl : l < 32) :
    (x <<< UInt32.ofNat l).toNat = x.toNat % 2 ^ (32 - l) * 2 ^ l := by
  have hof : (UInt32.ofNat l).toNat % 32 = l := by
    rw [UInt32.toNat_ofNat']
    omega
  have hpow : 2 ^ 32 = 2 ^ (32 - l) * 2 ^ l := by
    rw [← Nat.pow_add, Nat.sub_add_cancel hl.le]
  rw [UInt32.toNat_shiftLeft, hof, Nat.shiftLeft_eq, hpow, Nat.mul_mod_mul_right]

theorem toNat_shr (x : UInt32) {r : ℕ} (hr : r < 32) :
    (x >>> UInt32.ofNat r).toNat = x.toNat / 2 ^ r := by
  have hof : (UInt32.ofNat r).toNat % 32 = r := by
    rw [UInt32.toNat_ofNat']
    omega
  rw [UInt32.toNat_shiftRight, hof, Nat.shiftRight_eq_div_pow]

/-- High bits of one digit and low bits of another put together. -/
theorem toNat_join (x y : UInt32) {l : ℕ} (h0 : 0 < l) (hl : l < 32) :
    (x <<< UInt32.ofNat l ||| y >>> UInt32.ofNat (32 - l)).toNat =
      x.toNat % 2 ^ (32 - l) * 2 ^ l + y.toNat / 2 ^ (32 - l) := by
  have hlow : y.toNat / 2 ^ (32 - l) < 2 ^ l := by
    rw [Nat.div_lt_iff_lt_mul (Nat.pow_pos (by decide)), ← Nat.pow_add,
      show l + (32 - l) = 32 by omega]
    exact y.toNat_lt
  rw [UInt32.toNat_or, toNat_shl x hl, toNat_shr y (by omega), ← Nat.shiftLeft_eq,
    ← Nat.shiftLeft_add_eq_or_of_lt hlow]

theorem leftloop_val {l : ℕ} (h0 : 0 < l) (hl : l < 32) (p : Vec) (last : UInt32) :
    val (leftloop l p last) = val p * 2 ^ l + last.toNat / 2 ^ (32 - l) := by
  induction p generalizing last with
  | nil => rw [leftloop, val_singleton, toNat_shr _ (by omega), val_nil, Nat.zero_mul, Nat.zero_add]
  | cons d p ih =>
    have hpow : 2 ^ 32 = 2 ^ (32 - l) * 2 ^ l := by
      rw [← Nat.pow_add, Nat.sub_add_cancel hl.le]
    have hdm := Nat.div_add_mod d.toNat (2 ^ (32 - l))
    rw [leftloop, val_cons, val_cons, ih, toNat_join d last h0 hl]
    calc d.toNat % 2 ^ (32 - l) * 2 ^ l + last.toNat / 2 ^ (32 - l) +
          2 ^ 32 * (val p * 2 ^ l + d.toNat / 2 ^ (32 - l))
        = (2 ^ (32 - l) * (d.toNat / 2 ^ (32 - l)) + d.toNat % 2 ^ (32 - l)) * 2 ^ l +
          2 ^ 32 * val p * 2 ^ l + last.toNat / 2 ^ (32 - l) := by
          rw [Nat.mul_add, hpow]
          ring
      _ = (d.toNat + 2 ^ 32 * val p) * 2 ^ l + last.toNat / 2 ^ (32 - l) := by
          rw [hdm]
          ring

theorem rightloop_val {r : ℕ} (h0 : 0 < r) (hr : r < 32) (p : Vec) :
    val (rightloop r p) = val p / 2 ^ r := by
  induction p with
  | nil => rw [rightloop, val_nil, Nat.zero_div]
  | cons x p ih =>
    cases p with
    | nil => rw [rightloop, val_singleton, val_singleton, toNat_shr _ hr]
    | cons y p =>
      have hpow : 2 ^ 32 = 2 ^ r * 2 ^ (32 - r) := by
        rw [← Nat.pow_add, Nat.add_sub_cancel' hr.le]
      have hjoin := toNat_join y x (l := 32 - r) (by omega) (by omega)
      rw [show 32 - (32 - r) = r by omega] at hjoin
      have hmod : val (y :: p) % 2 ^ r = y.toNat % 2 ^ r := by
        rw [val_cons, hpow, Nat.mul_assoc, Nat.add_mul_mod_self_left]
      have hdm := Nat.div_add_mod (val (y :: p)) (2 ^ r)
      rw [rightloop, val_cons, ih, hjoin, val_cons x, ← hmod]
      have hrhs : (x.toNat + 2 ^ 32 * val (y :: p)) / 2 ^ r =
          x.toNat / 2 ^ r + 2 ^ (32 - r) * val (y :: p) := by
        rw [hpow, Nat.mul_assoc, Nat.add_mul_div_left _ _ (Nat.pow_pos (by decide))]
      rw [hrhs]
      calc val (y :: p) % 2 ^ r * 2 ^ (32 - r) + x.toNat / 2 ^ r +
            2 ^ 32 * (val (y :: p) / 2 ^ r)
          = x.toNat / 2 ^ r + 2 ^ (32 - r) *
            (2 ^ r * (val (y :: p) / 2 ^ r) + val (y :: p) % 2 ^ r) := by
            rw [hpow]
            ring
        _ = x.toNat / 2 ^ r + 2 ^ (32 - r) * val (y :: p) := by rw [hdm]

theorem radix_pow (n : ℕ) : (2 ^ 32) ^ n = 2 ^ (32 * n) := (Nat.pow_mul 2 32 n).symm

/-- The digits shifted down and up, as `mpright` and `mpleft` make them. -/
def shiftright (sign : ℤˣ) (p : Vec) (shift : ℕ) : Mpint :=
  if p.length ≤ shift / 32 then mpzero
  else mpnorm sign (if shift % 32 = 0 then p.drop (shift / 32) else rightloop (shift % 32) (p.drop (shift / 32)))

def shiftleft (sign : ℤˣ) (p : Vec) (shift : ℕ) : Mpint :=
  mpnorm sign (List.replicate (shift / 32) 0 ++ if shift % 32 = 0 then p else leftloop (shift % 32) p 0)

theorem shiftright_val (sign : ℤˣ) (p : Vec) (shift : ℕ) : val (shiftright sign p shift).p = val p / 2 ^ shift := by
  have hshift : 2 ^ shift = (2 ^ 32) ^ (shift / 32) * 2 ^ (shift % 32) := by
    rw [radix_pow, ← Nat.pow_add, Nat.div_add_mod]
  rw [shiftright]
  split
  · rename_i hle
    have hlt : val p < 2 ^ shift := by
      refine (val_lt p).trans_le ?_
      rw [radix_pow]
      refine Nat.pow_le_pow_right (by decide) ?_
      have hdm := Nat.div_add_mod shift 32
      omega
    rw [Nat.div_eq_of_lt hlt]
    rfl
  · rw [mpnorm_p, val_strip, hshift, ← Nat.div_div_eq_div_mul, ← val_drop]
    split
    · rename_i hr
      rw [hr, Nat.pow_zero, Nat.div_one]
    · rename_i hr
      rw [rightloop_val (by omega) (Nat.mod_lt _ (by decide))]

theorem shiftleft_val (sign : ℤˣ) (p : Vec) (shift : ℕ) : val (shiftleft sign p shift).p = val p * 2 ^ shift := by
  have hshift : 2 ^ shift = (2 ^ 32) ^ (shift / 32) * 2 ^ (shift % 32) := by
    rw [radix_pow, ← Nat.pow_add, Nat.div_add_mod]
  rw [shiftleft, mpnorm_p, val_strip, val_append, val_zeros, List.length_replicate, Nat.zero_add, hshift]
  split
  · rename_i hl
    rw [hl, Nat.pow_zero, Nat.mul_one, Nat.mul_comm]
  · rw [leftloop_val (by omega) (Nat.mod_lt _ (by decide)), UInt32.toNat_zero, Nat.zero_div]
    ring

theorem mpright_val (b : Mpint) (shift : ℕ) : val (mpright b shift).p = val b.p / 2 ^ shift := by
  unfold mpright
  split
  · rename_i hzero
    rw [top_eq_zero.mp hzero, val_nil, Nat.zero_div]
  · exact shiftright_val b.sign b.p shift

theorem mpleft_val (b : Mpint) (shift : ℕ) : val (mpleft b shift).p = val b.p * 2 ^ shift := by
  unfold mpleft
  split
  · rename_i hzero
    rw [top_eq_zero.mp hzero, val_nil, Nat.zero_mul]
  · split
    · rename_i hshift
      rw [mpright_val, hshift, Nat.pow_zero, Nat.div_one, Nat.mul_one]
    · exact shiftleft_val b.sign b.p shift

theorem mpright_toInt (b : Mpint) (shift : ℕ) :
    (mpright b shift).toInt = b.sign * (val b.p / 2 ^ shift : ℕ) := by
  have hval := mpright_val b shift
  unfold mpright at hval ⊢
  split
  · rename_i hzero
    rw [if_pos hzero] at hval
    rw [Mpint.toInt, ← hval]
  · rename_i hne
    rw [if_neg hne] at hval
    dsimp only at hval ⊢
    split
    · rename_i hle
      rw [if_pos hle] at hval
      rw [← hval, show mpzero.p = [] from rfl, val_nil]
      simp [toInt_eq_zero, mpzero]
    · rename_i hlt
      rw [if_neg hlt, mpnorm_p, val_strip] at hval
      rw [mpnorm_toInt, hval]

theorem mpleft_toInt (b : Mpint) (shift : ℕ) : (mpleft b shift).toInt = b.toInt * 2 ^ shift := by
  have hval := mpleft_val b shift
  unfold mpleft at hval ⊢
  split
  · rename_i hzero
    rw [toInt_eq_zero.mpr (top_eq_zero.mp hzero), zero_mul]
  · rename_i hne
    rw [if_neg hne] at hval
    split
    · rename_i hshift
      rw [mpright_toInt, hshift, Nat.pow_zero, Nat.div_one, pow_zero, mul_one, Mpint.toInt]
    · rename_i hshift
      rw [if_neg hshift, mpnorm_p, val_strip] at hval
      rw [mpnorm_toInt, hval, Mpint.toInt]
      push_cast
      ring

/-- The number of digits is known from the size. -/
theorem top_eq {b : Mpint} {n : ℕ} (hlow : (2 ^ 32) ^ n ≤ val b.p)
    (hhigh : val b.p < (2 ^ 32) ^ (n + 1)) : b.top = n + 1 := by
  have hne : b.p ≠ [] := fun hnil => by
    have hpos : 0 < (2 ^ 32) ^ n := Nat.pow_pos (by decide)
    rw [hnil, val_nil] at hlow
    omega
  have hle := pow_le_val hne
  have hlt : (2 ^ 32) ^ (b.top - 1) < (2 ^ 32) ^ (n + 1) := by omega
  have hlt' : (2 ^ 32) ^ n < (2 ^ 32) ^ b.top := lt_of_le_of_lt hlow (val_lt b.p)
  rw [Nat.pow_lt_pow_iff_right (by decide)] at hlt hlt'
  omega

end Shifts

section Signif

theorem digitbits_spec {d : UInt32} {j : ℕ} (hj : j ≤ 32) (h : d.toNat < 2 ^ j) :
    digitbits d j ≤ j ∧ d.toNat < 2 ^ digitbits d j ∧
      (d.toNat ≠ 0 → 2 ^ digitbits d j ≤ 2 * d.toNat) := by
  induction j with
  | zero => exact ⟨le_rfl, h, fun hne => by omega⟩
  | succ j ih =>
    have hone : (1 <<< UInt32.ofNat j : UInt32).toNat = 2 ^ j := by
      rw [toNat_shl 1 (by omega), show (1 : UInt32).toNat = 1 from rfl,
        Nat.mod_eq_of_lt (Nat.one_lt_two_pow (by omega)), Nat.one_mul]
    have hbit : d &&& 1 <<< UInt32.ofNat j ≠ 0 ↔ 2 ^ j ≤ d.toNat := by
      have hdiv : d.toNat / 2 ^ j < 2 := by
        rw [Nat.div_lt_iff_lt_mul (Nat.pow_pos (by decide)), ← Nat.pow_succ']
        exact h
      rw [ne_eq, ← UInt32.toNat_inj, UInt32.toNat_and, hone, Nat.and_two_pow, UInt32.toNat_zero,
        Nat.testBit_eq_decide_div_mod_eq, Nat.mod_eq_of_lt hdiv, Nat.mul_eq_zero,
        or_iff_left (Nat.pow_pos (by decide)).ne', Bool.toNat_eq_zero, decide_eq_false_iff_not,
        not_not]
      rw [← Nat.one_le_div_iff (Nat.pow_pos (by decide))]
      omega
    have hpow : 2 ^ (j + 1) = 2 * 2 ^ j := Nat.pow_succ'
    rw [digitbits]
    split
    · rename_i hset
      have hge := hbit.mp hset
      exact ⟨le_rfl, h, fun _ => by omega⟩
    · rename_i hclear
      have hlt := mt hbit.mpr hclear
      obtain ⟨hle, hup, hlow⟩ := ih (by omega) (by omega)
      exact ⟨by omega, hup, hlow⟩

variable {b : Mpint}

theorem mpsignif_eq {ds : Vec} {d : UInt32} (hp : b.p = ds ++ [d]) (hd : d.toNat ≠ 0) :
    mpsignif b = ds.length * 32 + digitbits d 32 ∧ digitbits d 32 ≠ 0 ∧ digitbits d 32 ≤ 32 ∧
      d.toNat < 2 ^ digitbits d 32 ∧ 2 ^ digitbits d 32 ≤ 2 * d.toNat := by
  obtain ⟨hle, hup, hlow⟩ := digitbits_spec (d := d) le_rfl d.toNat_lt
  have hpos : digitbits d 32 ≠ 0 := fun hzero => by
    rw [hzero] at hup
    omega
  refine ⟨?_, hpos, hle, hup, hlow hd⟩
  rw [mpsignif, hp, List.reverse_append, List.reverse_singleton, List.singleton_append, signifloop,
    if_pos hpos, List.length_reverse]

/-- A number has as many bits as `mpsignif` says. -/
theorem mpsignif_spec (h : b.p ≠ []) :
    0 < mpsignif b ∧ 2 ^ mpsignif b ≤ 2 * val b.p ∧ val b.p < 2 ^ mpsignif b := by
  obtain ⟨ds, d, hp, hd⟩ := exists_top h
  obtain ⟨hsignif, hpos, -, hup, hlow⟩ := mpsignif_eq hp hd
  have hds := val_lt ds
  have hval : val b.p = val ds + 2 ^ (32 * ds.length) * d.toNat := by
    rw [hp, val_append, val_singleton, radix_pow]
  rw [radix_pow] at hds
  rw [hsignif, Nat.pow_add, Nat.mul_comm ds.length]
  have hmul := Nat.mul_le_mul_left (2 ^ (32 * ds.length)) hlow
  have hmul' := Nat.mul_le_mul_left (2 ^ (32 * ds.length)) (show d.toNat + 1 ≤ _ from hup)
  rw [Nat.mul_left_comm] at hmul
  rw [Nat.mul_add, Nat.mul_one] at hmul'
  omega

end Signif

end Petele.Mp
