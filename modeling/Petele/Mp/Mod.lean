import Petele.Mp.Cnfield
import Petele.Mp.Gmreduce

namespace Petele.Mp

open Lib Limbs

/-- A modulus as `mpmod` takes it, with or without a field structure. -/
inductive Modulus where
  | plain (n : Mpint)
  | cn (f : CNfield)
  | gm (g : GMfield)

/-- The modulus itself. -/
def Modulus.n : Modulus → Mpint
  | .plain n => n
  | .cn f => f.n
  | .gm g => g.n

/-- The `reduce` function of the field; without one, `mpmod` goes on as if it had refused. -/
def Modulus.reduce : Modulus → Mpint → Reduction
  | .plain _, _ => .refused
  | .cn f, x => cnreduce f x
  | .gm g, x => gmreduce g x

/-- The end of `mpmod`: a remainder of a negative number is taken from the modulus. -/
def complement (x n r : Mpint) : Mpint := if x.sign = -1 then mpmagsub n r else r

/-- Nothing where `mpdiv` aborts or `cnreduce` writes past its arrays. `low` is what `x->p[0]` holds
if `x` has no digits. -/
def mpmod (low : UInt32) (x : Mpint) (m : Modulus) : Option Mpint :=
  match m.reduce x with
  | .overrun => none
  | .refused => (mpdiv low 1 x m.n).map fun r => complement x m.n r.2
  | .reduced r => some (complement x m.n r)

section Plain

variable {x n r : Mpint}

theorem complement_residue (hn : n.sign = 1) (hlt : val r.p < val n.p)
    (hr : x.sign = 1 → r.toInt = val r.p) :
    (complement x n r).Residue x n ↔
      val r.p = val x.p % val n.p ∧ ¬ (x.sign = -1 ∧ n.toInt ∣ x.toInt) := by
  rw [complement]
  rcases Int.units_eq_one_or x.sign with hs | hs
  · rw [if_neg (by rw [hs]; decide), residue_iff_mod (hr hs) hlt hn, toInt_of_one hs, hs,
      and_iff_left fun h => absurd h.1 (by decide)]
    norm_cast
  · have hx := toInt_of_neg hs
    have hdvd : n.toInt ∣ x.toInt ↔ val x.p % val n.p = 0 := by
      rw [toInt_of_one hn, hx, dvd_neg, Int.natCast_dvd_natCast, Nat.dvd_iff_mod_eq_zero]
    have hcong : (val n.p : ℤ) - val r.p ≡ -(val x.p) [ZMOD val n.p] ↔
        val r.p = val x.p % val n.p := by
      rw [Int.modEq_iff_dvd, show -(val x.p : ℤ) - (val n.p - val r.p) =
        (val r.p - val x.p) - val n.p by ring, dvd_sub_self_right, ← Int.modEq_iff_dvd,
        Int.natCast_modEq_iff, Nat.ModEq, Nat.mod_eq_of_lt hlt, eq_comm]
    rw [hdvd, if_pos hs, Mpint.Residue, mpmagsub_toInt, toInt_of_one hn, hx, hcong,
      and_iff_right hs]
    constructor
    · rintro ⟨-, hless, heq⟩
      exact ⟨heq, by omega⟩
    · rintro ⟨heq, hne⟩
      exact ⟨by omega, by omega, heq⟩

/-- What `x->p[0]` holds, if `x` has no digits, is read for a modulus of one digit with one bit set. -/
def Stale (low : UInt32) (x n : Mpint) : Prop :=
  x.p = [] ∧ n.SmallPower ∧ low.toNat % val n.p ≠ 0

theorem divide_remainder (low : UInt32) (hpos : 0 < val n.p) :
    ∃ q r, mpdiv low 1 x n = some (q, r) ∧ (x.sign = 1 → r.toInt = val r.p) ∧
      val r.p = (if x.p = [] ∧ n.SmallPower then low.toNat else val x.p) % val n.p := by
  obtain ⟨q, r, hdiv, -, hr⟩ := mpdiv_spec low 1 (a := x) (b := n) fun hnil => by
    rw [hnil] at hpos
    exact Nat.lt_irrefl 0 hpos
  have hval : val r.p = (if x.p = [] ∧ n.SmallPower then low.toNat else val x.p) % val n.p := by
    rw [← abs_toInt r, hr, Int.natAbs_mul, Int.natAbs_natCast, Int.units_natAbs, Nat.one_mul]
  refine ⟨q, r, hdiv, fun hs => ?_, hval⟩
  rw [hr, hs, Units.val_one, one_mul, hval]

theorem divide_residue (low : UInt32) (hn : n.sign = 1) (hpos : 0 < val n.p) :
    ∃ q r, mpdiv low 1 x n = some (q, r) ∧ ((complement x n r).Residue x n ↔
      ¬ Stale low x n ∧ ¬ (x.sign = -1 ∧ n.toInt ∣ x.toInt)) := by
  obtain ⟨q, r, hdiv, hsign, hval⟩ := divide_remainder (x := x) low hpos
  refine ⟨q, r, hdiv, ?_⟩
  rw [complement_residue hn (hval ▸ Nat.mod_lt _ hpos) hsign]
  refine and_congr_left fun _ => ?_
  rw [hval, Stale]
  by_cases hstale : x.p = [] ∧ n.SmallPower
  · rw [if_pos hstale, hstale.1, val_nil, Nat.zero_mod]
    simp [hstale.2]
  · rw [if_neg hstale]
    exact iff_of_true rfl fun h => hstale ⟨h.1, h.2.1⟩

/-- The value that `mpmod` leaves for a modulus without a field structure. -/
theorem mpmod_plain (low : UInt32) (hn : 0 < n.toInt) :
    ∃ (r : Mpint) (k : ℕ), mpmod low x (.plain n) = some r ∧
      k = (if x.p = [] ∧ n.SmallPower then low.toNat else val x.p) % val n.p ∧
      r.toInt = if x.sign = -1 then n.toInt - k else k := by
  have hint := toInt_of_nonneg hn.le
  obtain ⟨q, r, hdiv, hsign, hval⟩ := divide_remainder (x := x) (n := n) low (by omega)
  refine ⟨complement x n r, val r.p, ?_, hval, ?_⟩
  · rw [mpmod, Modulus.reduce]
    dsimp only
    rw [Modulus.n, hdiv]
    rfl
  · rw [complement]
    rcases Int.units_eq_one_or x.sign with hs | hs
    · rw [if_neg (by rw [hs]; decide), if_neg (by rw [hs]; decide), hsign hs]
    · rw [if_pos hs, if_pos hs, mpmagsub_toInt, hint]

end Plain

section Moduli

/-- A field of generalized Mersenne shape comes from `gmfield`. -/
def Modulus.Made : Modulus → Prop
  | .gm g => gmfield g.n = some g
  | _ => True

/-- The numbers that the field reduces rightly or leaves to `mpdiv`. -/
def Modulus.Reduces : Modulus → Mpint → Prop
  | .plain _, _ => True
  | .cn f, x => f.Reduces x
  | .gm g, x => val g.m2.p ≤ val x.p ∨ g.Folds x

variable {low : UInt32} {x : Mpint} {m : Modulus}

variable (low) in
theorem mpmod_refused (hn : 0 < m.n.toInt) (h : m.reduce x = .refused) :
    (∃ r, mpmod low x m = some r ∧ r.Residue x m.n) ↔
      ¬ (x.sign = -1 ∧ m.n.toInt ∣ x.toInt) ∧ ¬ Stale low x m.n := by
  have hpos : 0 < val m.n.p := by
    rw [toInt_of_nonneg hn.le] at hn
    exact_mod_cast hn
  obtain ⟨q, r, hdiv, hiff⟩ := divide_residue (x := x) low (sign_of_pos hn) hpos
  have hmod : mpmod low x m = some (complement x m.n r) := by
    rw [mpmod, h]
    dsimp only
    rw [hdiv]
    rfl
  rw [hmod, and_comm, ← hiff]
  simp

theorem mpmod_reduced {r : Mpint} {P : Prop} (hn : 0 < m.n.toInt) (h : m.reduce x = .reduced r)
    (hr : r.toInt = val r.p) (hlt : val r.p < val m.n.p) (hP : val r.p = val x.p % val m.n.p ↔ P) :
    (∃ r, mpmod low x m = some r ∧ r.Residue x m.n) ↔
      ¬ (x.sign = -1 ∧ m.n.toInt ∣ x.toInt) ∧ P := by
  have hmod : mpmod low x m = some (complement x m.n r) := by
    rw [mpmod, h]
  rw [hmod, and_comm, ← hP, ← complement_residue (sign_of_pos hn) hlt fun _ => hr]
  simp

/-- The modulus of a field has more than one digit. -/
theorem not_stale (h : 2 < m.n.top) : ¬ Stale low x m.n := fun hstale => by
  have hone := hstale.2.1.1
  omega

theorem mpmod_iff (low : UInt32) (x : Mpint) {m : Modulus} (hmade : m.Made) (hn : 0 < m.n.toInt) :
    (∃ r, mpmod low x m = some r ∧ r.Residue x m.n) ↔
      ¬ (x.sign = -1 ∧ m.n.toInt ∣ x.toInt) ∧ ¬ Stale low x m.n ∧ m.Reduces x := by
  cases m with
  | plain n => rw [mpmod_refused low hn rfl, Modulus.Reduces, and_true]
  | cn f =>
    have hstale : ¬ Stale low x f.n := not_stale (m := .cn f) f.big
    rw [Modulus.Reduces, show (Modulus.cn f).n = f.n from rfl, and_iff_right hstale]
    by_cases hroom : MAXDIG + f.n.top ≤ x.top
    · have hred : cnreduce f x = .refused := if_pos hroom
      have href := mpmod_refused low (m := .cn f) hn hred
      rw [show (Modulus.cn f).n = f.n from rfl] at href
      rw [href, and_iff_left hstale, and_iff_left (show f.Reduces x from .inl hroom)]
    · by_cases hfit : (mpleft x f.s).top < MAXDIG + f.n.top
      · obtain ⟨r, hred, hr, hlt, hiff⟩ := cnreduce_reduced f x (by omega) hfit
        have hP : val r.p = val x.p % val f.n.p ↔ f.Reduces x := by
          rw [hiff, CNfield.Reduces, or_iff_right hroom, and_iff_right hfit]
        exact mpmod_reduced (m := .cn f) hn hred hr hlt hP
      · have hover := cnreduce_overrun f x (by omega) (by omega)
        refine iff_of_false ?_ ?_
        · rintro ⟨r, hmod, -⟩
          rw [mpmod, Modulus.reduce, hover] at hmod
          cases hmod
        · rintro ⟨-, h | h⟩
          · exact hroom h
          · exact hfit h.1
  | gm g =>
    have hg := gmfield_spec hmade hn
    have hstale : ¬ Stale low x g.n := not_stale (m := .gm g) hg.big
    rw [Modulus.Reduces, show (Modulus.gm g).n = g.n from rfl, and_iff_right hstale]
    by_cases hbig : val g.m2.p ≤ val x.p
    · have hred : gmreduce g x = .refused :=
        if_pos (not_lt.mp fun h => not_lt.mpr hbig ((mpmagcmp_spec x g.m2).1.mp h))
      have href := mpmod_refused low (m := .gm g) hn hred
      rw [show (Modulus.gm g).n = g.n from rfl] at href
      rw [href, and_iff_left hstale, and_iff_left (show _ ∨ g.Folds x from .inl hbig)]
    · obtain ⟨r, hred, hr, hlt, hiff⟩ := gmreduce_reduced (a := x) hg (by omega)
      exact mpmod_reduced (m := .gm g) hn hred hr hlt (hiff.trans (or_iff_right hbig).symm)

/-- The number -5 modulo 7. -/
theorem mpmod_iff_five :
    (∃ r, mpmod 0 ⟨-1, [5], by decide⟩ (.plain ⟨1, [7], by decide⟩) = some r ∧
      r.Residue ⟨-1, [5], by decide⟩ ⟨1, [7], by decide⟩) ↔
        ¬ ((-1 : ℤˣ) = -1 ∧
          Mpint.toInt ⟨1, [7], by decide⟩ ∣ Mpint.toInt ⟨-1, [5], by decide⟩) ∧
        ¬ Stale 0 ⟨-1, [5], by decide⟩ ⟨1, [7], by decide⟩ ∧
        (Modulus.plain ⟨1, [7], by decide⟩).Reduces ⟨-1, [5], by decide⟩ :=
  mpmod_iff 0 ⟨-1, [5], by decide⟩ (m := .plain ⟨1, [7], by decide⟩) trivial (by decide)

/-- The number -7 modulo 7. -/
theorem mpmod_multiple :
    mpmod 0 ⟨-1, [7], by decide⟩ (.plain ⟨1, [7], by decide⟩) = some ⟨1, [7], by decide⟩ ∧
      ¬ Mpint.Residue ⟨1, [7], by decide⟩ ⟨-1, [7], by decide⟩ ⟨1, [7], by decide⟩ := by
  decide +kernel

end Moduli

end Petele.Mp
