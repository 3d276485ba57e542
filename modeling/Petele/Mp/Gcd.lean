import Petele.Mp.Mod
import Mathlib.Algebra.Ring.Int.Parity
import Mathlib.Data.Int.GCD

namespace Petele.Mp

open Lib Limbs

/-- The macro of `mpextendedgcd`. A zero there has a zero at `p[0]`. -/
def iseven (a : Mpint) : Prop := a.p.headD 0 &&& 1 = 0

instance (a : Mpint) : Decidable (iseven a) := inferInstanceAs (Decidable (_ = _))

/-- The loop that takes out the factors of two that `a` and `b` share, and counts them. -/
def twos : ℕ → Mpint → Mpint → ℕ → Mpint × Mpint × ℕ
  | 0, a, b, g => (a, b, g)
  | fuel + 1, a, b, g =>
    if iseven a ∧ iseven b then twos fuel (mpright a 1) (mpright b 1) (g + 1) else (a, b, g)

/-- The loops that make `u`, or `v`, odd. -/
def halve (a b : Mpint) : ℕ → Mpint → Mpint → Mpint → Mpint × Mpint × Mpint
  | 0, u, A, B => (u, A, B)
  | fuel + 1, u, A, B =>
    if iseven u then
      let A' := if ¬ iseven A ∨ ¬ iseven B then mpadd A b else A
      let B' := if ¬ iseven A ∨ ¬ iseven B then mpsub B a else B
      halve a b fuel (mpright u 1) (mpright A' 1) (mpright B' 1)
    else (u, A, B)

/-- The outer loop, until `u` is zero: `v`, `C` and `D` as it leaves them. -/
def gcdloop (a b : Mpint) : ℕ → Mpint × Mpint × Mpint → Mpint × Mpint × Mpint →
    Mpint × Mpint × Mpint
  | 0, _, t => t
  | fuel + 1, (u, A, B), (v, C, D) =>
    let (u, A, B) := halve a b (val u.p) u A B
    let (v, C, D) := halve a b (val v.p) v C D
    if 0 ≤ mpcmp u v then
      let u := mpsub u v
      if u.top = 0 then (v, C, D) else gcdloop a b fuel (u, mpsub A C, mpsub B D) (v, C, D)
    else gcdloop a b fuel (u, A, B) (mpsub v u, mpsub C A, mpsub D B)

/-- `v`, `x` and `y` with `a*x + b*y = v`. -/
def mpextendedgcd (a b : Mpint) : Mpint × Mpint × Mpint :=
  if a.sign = -1 ∨ b.sign = -1 then (mpzero, mpzero, mpzero)
  else if a.top = 0 then (b, mpzero, mpone)
  else if b.top = 0 then (a, mpone, mpzero)
  else
    let (a, b, g) := twos (val a.p) a b 0
    let (v, C, D) := gcdloop a b (val a.p + val b.p) (a, mpone, mpzero) (b, mpzero, mpone)
    (mpleft v g, C, D)

/-- The inverse of `b` modulo `m`; nothing where `mpinvert` aborts. -/
def mpinvert (b m : Mpint) : Option Mpint :=
  let (v, x, _) := mpextendedgcd b m
  if mpcmp v mpone ≠ 0 then none else mpmod 0 x (.plain m)

section Halves

theorem iseven_iff (a : Mpint) : iseven a ↔ Even a.toInt := by
  have hval : (a.p.headD 0).toNat % 2 = val a.p % 2 := by
    cases a.p with
    | nil => rfl
    | cons d ds =>
      rw [List.headD_cons, val_cons]
      omega
  have habs : Even a.toInt ↔ val a.p % 2 = 0 := by
    rw [← Int.natAbs_even, abs_toInt, Nat.even_iff]
  rw [iseven, ← UInt32.toNat_inj, UInt32.toNat_and, show (1 : UInt32).toNat = 1 from rfl,
    Nat.and_one_is_mod, UInt32.toNat_zero, hval, habs]

theorem mpright_one {a : Mpint} (h : Even a.toInt) : (mpright a 1).toInt * 2 = a.toInt := by
  have hmod : val a.p % 2 = 0 := by
    rw [← Nat.even_iff, ← abs_toInt a, Int.natAbs_even]
    exact h
  rw [mpright_toInt, Nat.pow_one, Mpint.toInt, mul_assoc]
  congr 1
  omega

theorem twos_spec (fuel : ℕ) (a b : Mpint) (g : ℕ) (ha : 0 < a.toInt) (hb : 0 < b.toInt)
    (hfuel : a.toInt ≤ fuel) :
    let s := twos fuel a b g
    0 < s.1.toInt ∧ 0 < s.2.1.toInt ∧ ¬ (Even s.1.toInt ∧ Even s.2.1.toInt) ∧
      ∃ k, s.2.2 = g + k ∧ s.1.toInt * 2 ^ k = a.toInt ∧ s.2.1.toInt * 2 ^ k = b.toInt := by
  induction fuel generalizing a b g with
  | zero =>
    rw [Nat.cast_zero] at hfuel
    omega
  | succ fuel ih =>
    rw [twos]
    split
    · rename_i heven
      rw [iseven_iff, iseven_iff] at heven
      have ha2 := mpright_one heven.1
      have hb2 := mpright_one heven.2
      push_cast at hfuel
      obtain ⟨hpa, hpb, hodd, k, hg, hka, hkb⟩ :=
        ih (mpright a 1) (mpright b 1) (g + 1) (by omega) (by omega) (by omega)
      refine ⟨hpa, hpb, hodd, k + 1, by omega, ?_, ?_⟩
      · rw [pow_succ, ← mul_assoc, hka, ha2]
      · rw [pow_succ, ← mul_assoc, hkb, hb2]
    · rename_i hodd
      rw [iseven_iff, iseven_iff] at hodd
      exact ⟨ha, hb, hodd, 0, rfl, by simp, by simp⟩

/-- Cofactors of an even combination, not both even, become even when moved by the numbers. -/
theorem cofactors_even {a b A B : ℤ} (hab : ¬ (Even a ∧ Even b)) (h : Even (A * a + B * b))
    (hodd : ¬ Even A ∨ ¬ Even B) : Even (A + b) ∧ Even (B - a) := by
  simp only [Int.even_add, Int.even_sub, Int.even_mul] at h ⊢
  tauto

variable {a b : Mpint}

theorem halve_spec (hab : ¬ (Even a.toInt ∧ Even b.toInt)) (fuel : ℕ) (u A B : Mpint)
    (hpos : 0 < u.toInt) (hfuel : u.toInt ≤ fuel)
    (h : A.toInt * a.toInt + B.toInt * b.toInt = u.toInt) :
    let s := halve a b fuel u A B
    0 < s.1.toInt ∧ s.1.toInt ≤ u.toInt ∧ s.1.toInt ∣ u.toInt ∧
      s.2.1.toInt * a.toInt + s.2.2.toInt * b.toInt = s.1.toInt := by
  induction fuel generalizing u A B with
  | zero =>
    rw [Nat.cast_zero] at hfuel
    omega
  | succ fuel ih =>
    rw [halve]
    split
    · rename_i heven
      rw [iseven_iff] at heven
      have hu := mpright_one heven
      -- both cofactors are even now, and stand for the same number
      obtain ⟨A', B', hA, hB, hevenA, hevenB, hsum⟩ : ∃ A' B',
          (if ¬ iseven A ∨ ¬ iseven B then mpadd A b else A) = A' ∧
          (if ¬ iseven A ∨ ¬ iseven B then mpsub B a else B) = B' ∧
          Even A'.toInt ∧ Even B'.toInt ∧
          A'.toInt * a.toInt + B'.toInt * b.toInt = u.toInt := by
        refine ⟨_, _, rfl, rfl, ?_⟩
        by_cases hodd : ¬ iseven A ∨ ¬ iseven B
        · rw [if_pos hodd, if_pos hodd, mpadd_toInt, mpsub_toInt]
          rw [iseven_iff, iseven_iff] at hodd
          obtain ⟨hA, hB⟩ := cofactors_even hab (h ▸ heven) hodd
          refine ⟨hA, hB, ?_⟩
          rw [← h]
          ring
        · rw [if_neg hodd, if_neg hodd]
          rw [not_or, not_not, not_not, iseven_iff, iseven_iff] at hodd
          exact ⟨hodd.1, hodd.2, h⟩
      rw [hA, hB]
      have hA2 := mpright_one hevenA
      have hB2 := mpright_one hevenB
      push_cast at hfuel
      obtain ⟨hp, hle, hdvd, hbez⟩ := ih (mpright u 1) (mpright A' 1) (mpright B' 1) (by omega)
        (by omega) (by linarith [hsum, congrArg (· * a.toInt) hA2, congrArg (· * b.toInt) hB2])
      exact ⟨hp, hle.trans (by omega), hdvd.trans ⟨2, hu.symm⟩, hbez⟩
    · exact ⟨hpos, le_rfl, dvd_rfl, h⟩

/-- The outer loop ends with a common divisor and its cofactors. -/
theorem gcdloop_spec (hab : ¬ (Even a.toInt ∧ Even b.toInt)) (fuel : ℕ) (u A B v C D : Mpint)
    (hu : 0 < u.toInt) (hv : 0 < v.toInt) (hfuel : u.toInt + v.toInt ≤ fuel)
    (hA : A.toInt * a.toInt + B.toInt * b.toInt = u.toInt)
    (hC : C.toInt * a.toInt + D.toInt * b.toInt = v.toInt) :
    let s := gcdloop a b fuel (u, A, B) (v, C, D)
    0 < s.1.toInt ∧ s.1.toInt ∣ u.toInt ∧ s.1.toInt ∣ v.toInt ∧
      s.2.1.toInt * a.toInt + s.2.2.toInt * b.toInt = s.1.toInt := by
  induction fuel generalizing u A B v C D with
  | zero =>
    rw [Nat.cast_zero] at hfuel
    omega
  | succ fuel ih =>
    obtain ⟨hu', hule, hudvd, hA'⟩ := halve_spec hab (val u.p) u A B hu (toInt_of_nonneg hu.le).le hA
    obtain ⟨hv', hvle, hvdvd, hC'⟩ := halve_spec hab (val v.p) v C D hv (toInt_of_nonneg hv.le).le hC
    rw [gcdloop]
    generalize halve a b (val u.p) u A B = s at *
    generalize halve a b (val v.p) v C D = t at *
    obtain ⟨u', A', B'⟩ := s
    obtain ⟨v', C', D'⟩ := t
    dsimp only at *
    obtain ⟨hcmp, -⟩ := mpcmp_spec hu' hv'
    push_cast at hfuel
    split
    · rename_i hge
      have hle : v'.toInt ≤ u'.toInt := not_lt.mp (mt hcmp.mpr (not_lt.mpr hge))
      have hsub := mpsub_toInt u' v'
      split
      · -- the numbers have met
        rename_i hzero
        rw [toInt_eq_zero.mpr (top_eq_zero.mp hzero)] at hsub
        have heq : v'.toInt = u'.toInt := by omega
        exact ⟨hv', heq ▸ hudvd, hvdvd, hC'⟩
      · rename_i hne
        have hpos : 0 < (mpsub u' v').toInt := by
          have hne' := mt toInt_eq_zero.mp (mt top_eq_zero.mpr hne)
          omega
        obtain ⟨hp, hd, hd', hbez⟩ := ih (mpsub u' v') (mpsub A' C') (mpsub B' D') v' C' D' hpos hv'
          (by omega) (by rw [mpsub_toInt, mpsub_toInt, hsub, ← hA', ← hC']; ring) hC'
        refine ⟨hp, dvd_trans ?_ hudvd, hd'.trans hvdvd, hbez⟩
        have hsum := dvd_add hd hd'
        rwa [hsub, sub_add_cancel] at hsum
    · rename_i hlt
      have hless : u'.toInt < v'.toInt := hcmp.mp (not_le.mp hlt)
      have hsub := mpsub_toInt v' u'
      obtain ⟨hp, hd, hd', hbez⟩ := ih u' A' B' (mpsub v' u') (mpsub C' A') (mpsub D' B') hu' (by omega)
        (by omega) hA' (by rw [mpsub_toInt, mpsub_toInt, hsub, ← hA', ← hC']; ring)
      refine ⟨hp, hd.trans hudvd, dvd_trans ?_ hvdvd, hbez⟩
      have hsum := dvd_add hd' hd
      rwa [hsub, sub_add_cancel] at hsum

theorem mpextendedgcd_spec (ha : 0 < a.toInt) (hb : 0 < b.toInt) :
    let s := mpextendedgcd a b
    s.1.toInt = Int.gcd a.toInt b.toInt ∧
      s.2.1.toInt * a.toInt + s.2.2.toInt * b.toInt = s.1.toInt := by
  have htop : ∀ {x : Mpint}, 0 < x.toInt → ¬ x.top = 0 := fun hx hzero => by
    rw [toInt_eq_zero.mpr (top_eq_zero.mp hzero)] at hx
    omega
  have hsign : ¬ (a.sign = -1 ∨ b.sign = -1) := by
    rw [sign_of_pos ha, sign_of_pos hb]
    decide
  obtain ⟨hpa, hpb, hodd, k, hk, hka, hkb⟩ :=
    twos_spec (val a.p) a b 0 ha hb (toInt_of_nonneg ha.le).le
  rw [mpextendedgcd, if_neg hsign, if_neg (htop ha), if_neg (htop hb)]
  generalize twos (val a.p) a b 0 = s at *
  obtain ⟨a', b', g⟩ := s
  dsimp only at *
  rw [Nat.zero_add] at hk
  subst hk
  obtain ⟨hpos, hda, hdb, hbez⟩ := gcdloop_spec hodd (val a'.p + val b'.p) a' mpone mpzero b' mpzero mpone
    hpa hpb (by push_cast; rw [← toInt_of_nonneg hpa.le, ← toInt_of_nonneg hpb.le])
    (by rw [show mpone.toInt = 1 from rfl, show mpzero.toInt = 0 from rfl]; ring)
    (by rw [show mpone.toInt = 1 from rfl, show mpzero.toInt = 0 from rfl]; ring)
  generalize gcdloop a' b' (val a'.p + val b'.p) (a', mpone, mpzero) (b', mpzero, mpone) = t at *
  obtain ⟨v, C, D⟩ := t
  dsimp only at *
  rw [mpleft_toInt]
  have hcomb : C.toInt * a.toInt + D.toInt * b.toInt = v.toInt * 2 ^ g := by
    rw [← hka, ← hkb, ← hbez]
    ring
  refine ⟨?_, hcomb⟩
  have hdvd : v.toInt * 2 ^ g ∣ Int.gcd a.toInt b.toInt := by
    refine Int.dvd_coe_gcd ?_ ?_
    · rw [← hka]
      exact mul_dvd_mul_right hda _
    · rw [← hkb]
      exact mul_dvd_mul_right hdb _
  have hdvd' : (Int.gcd a.toInt b.toInt : ℤ) ∣ v.toInt * 2 ^ g := by
    rw [← hcomb]
    exact dvd_add (dvd_mul_of_dvd_right (Int.gcd_dvd_left _ _) _)
      (dvd_mul_of_dvd_right (Int.gcd_dvd_right _ _) _)
  exact Int.dvd_antisymm (by positivity) (by positivity) hdvd hdvd'

end Halves

section Inverse

/-- A number that is no multiple of the modulus has the residue it should. -/
theorem mpmod_nonmultiple {x n : Mpint} (hn : 0 < n.toInt) (h : ¬ n.toInt ∣ x.toInt) :
    ∃ r, mpmod 0 x (.plain n) = some r ∧ r.toInt = x.toInt % n.toInt ∧ 0 < r.toInt := by
  obtain ⟨r, hmod, hge, hlt, hcong⟩ := (mpmod_refused 0 (m := .plain n) hn rfl).mpr
    ⟨fun hneg => h hneg.2, fun hstale => hstale.2.2 (Nat.zero_mod _)⟩
  have hval : r.toInt = x.toInt % n.toInt :=
    (Int.emod_eq_of_lt hge hlt).symm.trans hcong
  refine ⟨r, hmod, hval, lt_of_le_of_ne hge fun hzero => h ?_⟩
  rw [← hzero] at hval
  exact Int.dvd_of_emod_eq_zero hval.symm

theorem mpinvert_spec {b m : Mpint} (hb : 0 < b.toInt) (hm : 1 < m.toInt)
    (hcop : Int.gcd b.toInt m.toInt = 1) :
    ∃ r, mpinvert b m = some r ∧ 0 < r.toInt ∧ r.toInt * b.toInt ≡ 1 [ZMOD m.toInt] := by
  obtain ⟨hv, hbez⟩ := mpextendedgcd_spec hb (by omega : 0 < m.toInt)
  rw [mpinvert]
  generalize mpextendedgcd b m = s at *
  obtain ⟨v, x, y⟩ := s
  dsimp only at *
  rw [hcop, Nat.cast_one] at hv
  rw [hv] at hbez
  have hone : mpcmp v mpone = 0 :=
    (mpcmp_spec (by omega) (by decide)).2.mpr hv
  have hcong : x.toInt * b.toInt ≡ 1 [ZMOD m.toInt] := by
    refine Int.modEq_iff_dvd.mpr ⟨y.toInt, ?_⟩
    rw [← hbez]
    ring
  have hnot : ¬ m.toInt ∣ x.toInt := fun hdvd => by
    have hzero : x.toInt * b.toInt ≡ 0 [ZMOD m.toInt] := Int.modEq_zero_iff_dvd.mpr (dvd_mul_of_dvd_left hdvd _)
    have hle := Int.le_of_dvd (by decide) (Int.modEq_zero_iff_dvd.mp (hcong.symm.trans hzero))
    omega
  obtain ⟨r, hmod, hval, hpos⟩ := mpmod_nonmultiple (by omega) hnot
  rw [if_neg (not_not.mpr hone)]
  refine ⟨r, hmod, hpos, ?_⟩
  rw [hval]
  exact ((Int.mod_modEq _ _).mul_right _).trans hcong

end Inverse

end Petele.Mp
