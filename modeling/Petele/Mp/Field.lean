import Petele.Mp.Div
import Mathlib.Data.Nat.Bitwise
import Mathlib.Data.Int.ModEq

namespace Petele.Mp

open Lib Limbs

def MAXDIG : ℕ := 32

/-- What the `reduce` function of an `Mfield` may do: write past its arrays, return -1 or return 0
with the remainder. -/
inductive Reduction where
  | overrun
  | refused
  | reduced (r : Mpint)
  deriving DecidableEq

/-- The digits of `x` where the bits of `d` are set, those of `y` elsewhere. -/
def mask (d : UInt32) (x y : Vec) : Vec := List.zipWith (fun a b => a &&& d ||| b &&& ~~~d) x y

/-- `r` is the residue of `x` modulo `n` that is not negative and less than `n`. -/
def Mpint.Residue (r x n : Mpint) : Prop :=
  0 ≤ r.toInt ∧ r.toInt < n.toInt ∧ r.toInt ≡ x.toInt [ZMOD n.toInt]

instance (r x n : Mpint) : Decidable (r.Residue x n) := inferInstanceAs (Decidable (_ ∧ _ ∧ _))

section Mask

theorem mask_length (d : UInt32) {x y : Vec} (h : x.length = y.length) :
    (mask d x y).length = x.length := by
  rw [mask, List.length_zipWith, h, Nat.min_self]

theorem mask_ones {x y : Vec} (h : x.length = y.length) : mask 0xffffffff x y = x := by
  induction x generalizing y with
  | nil => rfl
  | cons a x ih =>
    cases y with
    | nil => simp at h
    | cons b y =>
      have hdigit : a &&& 0xffffffff ||| b &&& ~~~0xffffffff = a := by
        rw [show ~~~(0xffffffff : UInt32) = 0 from rfl, show (0xffffffff : UInt32) = -1 from rfl]
        simp
      rw [mask, List.zipWith_cons_cons, hdigit]
      exact congrArg _ (ih (by simpa using h))

theorem mask_zero {x y : Vec} (h : x.length = y.length) : mask 0 x y = y := by
  induction x generalizing y with
  | nil => exact (List.eq_nil_of_length_eq_zero h.symm).symm
  | cons a x ih =>
    cases y with
    | nil => simp at h
    | cons b y =>
      have hdigit : a &&& 0 ||| b &&& ~~~0 = b := by
        rw [show ~~~(0 : UInt32) = -1 from rfl]
        simp
      rw [mask, List.zipWith_cons_cons, hdigit]
      exact congrArg _ (ih (by simpa using h))

/-- The digit on top tells whether a number goes into another one. -/
theorem borrow_digit {r m : Vec} {k : ℕ} (hr : r.length = k + 1) (hm : m.length ≤ k + 1) :
    (subloop r m 0).length = k + 1 ∧
      (val r < val m → val m ≤ (2 ^ 32) ^ k → (subloop r m 0).getD k 0 = 0xffffffff) ∧
      (val m ≤ val r → val (subloop r m 0) = val r - val m) := by
  have hlen := subloop_length r m 0
  have hlt := val_lt (subloop r m 0)
  have hsplit := val_split (subloop r m 0) k
  obtain ⟨j, hj⟩ := subloop_val r m 0 (by omega)
  have hrlt := val_lt r
  have hzero : (0 : UInt32).toNat = 0 := rfl
  rw [hlen, hr] at hlt
  rw [hr] at hj hrlt
  refine ⟨by rw [hlen, hr], fun hless hfit => ?_, fun hle => ?_⟩
  · obtain ⟨d, hd⟩ : ∃ d, (subloop r m 0).drop k = [d] :=
      List.length_eq_one_iff.mp (by rw [List.length_drop, hlen, hr]; omega)
    have htake := val_lt ((subloop r m 0).take k)
    rw [List.length_take, hlen, hr, Nat.min_eq_left (Nat.le_succ k)] at htake
    rw [hd, val_singleton] at hsplit
    rw [getD_of_drop hd]
    refine UInt32.toNat_inj.mp ?_
    have hdlt := d.toNat_lt
    have hj1 : j = 1 := by
      rcases Nat.lt_trichotomy j 1 with h | h | h
      · rw [show j = 0 by omega] at hj
        omega
      · exact h
      · have hmul := Nat.mul_le_mul_left ((2 ^ 32) ^ (k + 1)) h
        rw [radix_succ] at *
        omega
    rw [hj1, Nat.mul_one, radix_succ] at hj
    rw [show (0xffffffff : UInt32).toNat = 2 ^ 32 - 1 from rfl]
    -- all that is missing is below one unit of the digit
    have hge : (2 ^ 32 - 1) * (2 ^ 32) ^ k ≤ val (subloop r m 0) := by
      rw [Nat.sub_mul]
      omega
    by_contra hne
    have hmul := Nat.mul_le_mul_left ((2 ^ 32) ^ k) (show d.toNat + 1 ≤ 2 ^ 32 - 1 by omega)
    rw [Nat.mul_succ, Nat.mul_comm _ (2 ^ 32 - 1)] at hmul
    omega
  · have hj0 : j = 0 := by
      by_contra hne
      have hmul := Nat.mul_le_mul_left ((2 ^ 32) ^ (k + 1)) (Nat.pos_of_ne_zero hne)
      omega
    rw [hj0] at hj
    omega

/-- The modulus is taken off once if it goes in. -/
theorem choose_less {s n : Vec} (hlen : s.length = n.length + 1) (hlt : val s < 2 * val n) :
    val (mask ((subloop s n 0).getD n.length 0) (s.take n.length) ((subloop s n 0).take n.length)) = val s % val n := by
  have hn := val_lt n
  obtain ⟨hulen, hless, hge⟩ := borrow_digit hlen (Nat.le_succ n.length)
  generalize subloop s n 0 = u at *
  have hboth : (s.take n.length).length = (u.take n.length).length := by
    rw [List.length_take, List.length_take, hulen, hlen]
  by_cases hlow : val s < val n
  · rw [hless hlow hn.le, mask_ones hboth, val_take, Nat.mod_eq_of_lt hlow, Nat.mod_eq_of_lt (hlow.trans hn)]
  · have hu := hge (Nat.le_of_not_lt hlow)
    obtain ⟨c, hc⟩ : ∃ c, u.drop n.length = [c] :=
      List.length_eq_one_iff.mp (by rw [List.length_drop, hulen]; omega)
    have hzero : c = 0 := UInt32.toNat_inj.mp (by
      rw [← val_singleton, ← hc, val_drop, hu]
      exact Nat.div_eq_of_lt (by omega))
    rw [getD_of_drop hc, hzero, mask_zero hboth, val_take, hu,
      Nat.mod_eq_of_lt (by omega), Nat.mod_eq_sub_mod (by omega), Nat.mod_eq_of_lt (by omega)]

end Mask

section Shape

theorem top_bit (x : UInt32) : x &&& 0x80000000 = 0 ↔ x.toNat < 2 ^ 31 := by
  have hx := x.toNat_lt
  rw [← UInt32.toNat_inj, UInt32.toNat_and, show (0x80000000 : UInt32).toNat = 2 ^ 31 from rfl,
    Nat.and_two_pow, UInt32.toNat_zero, Nat.testBit_eq_decide_div_mod_eq]
  simp only [Nat.mul_eq_zero, Bool.toNat_eq_zero, decide_eq_false_iff_not]
  omega

/-- The loop ends with the highest bit of the digit set. -/
theorem normshift_spec {fuel : ℕ} {x : UInt32} (s : ℕ) (hfuel : fuel ≤ 32)
    (h : 2 ^ (32 - fuel) ≤ x.toNat) :
    ∃ t, normshift fuel x s = s + t ∧ t < 32 ∧ 2 ^ 31 ≤ x.toNat * 2 ^ t ∧
      x.toNat * 2 ^ t < 2 ^ 32 := by
  induction fuel generalizing x s with
  | zero =>
    have hx := x.toNat_lt
    omega
  | succ fuel ih =>
    have hx := x.toNat_lt
    rw [normshift]
    split
    · rename_i hbit
      have hlow := (top_bit x).mp hbit
      have hshl : (x <<< 1).toNat = x.toNat * 2 := by
        rw [show (1 : UInt32) = UInt32.ofNat 1 from rfl, toNat_shl x (by decide), Nat.pow_one,
          Nat.mod_eq_of_lt hlow]
      have hpow : 2 ^ (32 - fuel) = 2 ^ (32 - (fuel + 1)) * 2 := by
        rw [← Nat.pow_succ]
        congr 1
        omega
      obtain ⟨t, hs, ht, hge, hlt⟩ := ih (x := x <<< 1) (s + 1) (by omega) (by
        rw [hshl, hpow]
        exact Nat.mul_le_mul_right 2 h)
      rw [hshl, Nat.mul_assoc, ← show 2 ^ (t + 1) = 2 * 2 ^ t from Nat.pow_succ'] at hge hlt
      refine ⟨t + 1, by omega, ?_, hge, hlt⟩
      by_contra hbig
      have hmul : 1 * 2 ^ 32 ≤ x.toNat * 2 ^ (t + 1) :=
        Nat.mul_le_mul (le_trans Nat.one_le_two_pow h) (Nat.pow_le_pow_right (by decide) (by omega))
      omega
    · rename_i hbit
      have hhigh := mt (top_bit x).mpr hbit
      exact ⟨0, rfl, by decide, by omega, by omega⟩

end Shape

section Residues

variable {r x n : Mpint}

theorem toInt_of_nonneg (h : 0 ≤ x.toInt) : x.toInt = val x.p := by
  rw [← abs_toInt x]
  exact (Int.natAbs_of_nonneg h).symm

theorem sign_mul_mod (h : 0 ≤ x.toInt) (k : ℕ) :
    (x.sign : ℤ) * (val x.p % k : ℕ) = (val x.p % k : ℕ) := by
  rcases Int.units_eq_one_or x.sign with hs | hs
  · rw [hs, Units.val_one, one_mul]
  · rw [toInt_of_neg hs] at h
    rw [show val x.p = 0 by omega, Nat.zero_mod, Nat.cast_zero, mul_zero]

theorem residue_iff_mod (hr : r.toInt = val r.p) (hlt : val r.p < val n.p) (hn : n.sign = 1) :
    r.Residue x n ↔ (val r.p : ℤ) = x.toInt % val n.p := by
  rw [Mpint.Residue, hr, toInt_of_one hn]
  constructor
  · rintro ⟨-, -, hmod⟩
    rw [← hmod, Int.emod_eq_of_lt (by omega) (by omega)]
  · intro heq
    refine ⟨by omega, by omega, ?_⟩
    rw [heq]
    exact Int.mod_modEq _ _

end Residues

end Petele.Mp
