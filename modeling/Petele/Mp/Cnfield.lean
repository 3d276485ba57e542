import Petele.Mp.Field
import Mathlib.Data.Nat.ModEq
import Mathlib.Logic.Function.Iterate

namespace Petele.Mp

open Lib Limbs

/-- A modulus `n` that shifted by `s` bits is `m`, a power of the radix less the digit `c`. -/
structure CNfield where
  n : Mpint
  m : Mpint
  s : ℕ
  c : UInt32
  sign : n.sign = 1
  big : 2 < n.top
  small : n.top < MAXDIG
  short : s < 32
  shift : val m.p = val n.p * 2 ^ s
  crandall : val m.p + c.toNat = (2 ^ 32) ^ n.top

theorem shift_top {N : Mpint} (hN : N.p ≠ []) :
    normshift 32 (N.p.getLastD 0) 0 < 32 ∧
      (mpleft N (normshift 32 (N.p.getLastD 0) 0)).top = N.top := by
  obtain ⟨ds, d, hp⟩ := List.eq_nil_or_concat N.p |>.resolve_left hN
  rw [List.concat_eq_append] at hp
  have hd : 0 < d.toNat := Nat.pos_of_ne_zero fun hzero => by
    have hnorm := N.norm
    rw [hp, List.getLast?_concat] at hnorm
    exact hnorm (congrArg some (UInt32.toNat_inj.mp hzero))
  rw [hp, List.getLastD_concat]
  obtain ⟨s, hs, hlt, -, hfit⟩ := normshift_spec (x := d) 0 (le_refl 32) hd
  rw [hs, Nat.zero_add]
  refine ⟨hlt, ?_⟩
  have hval : val N.p = val ds + (2 ^ 32) ^ ds.length * d.toNat := by
    rw [hp, val_append, val_singleton]
  have hds := val_lt ds
  have hpow : 2 ^ 32 = 2 ^ (32 - s) * 2 ^ s := by
    rw [← Nat.pow_add, Nat.sub_add_cancel hlt.le]
  have hdigit : d.toNat + 1 ≤ 2 ^ (32 - s) := by
    rw [hpow] at hfit
    exact Nat.lt_of_mul_lt_mul_right hfit
  have hmul := Nat.mul_le_mul_left ((2 ^ 32) ^ ds.length) hdigit
  rw [Nat.mul_succ] at hmul
  have htop : N.top = ds.length + 1 := by
    rw [Mpint.top, hp, List.length_append, List.length_singleton]
  rw [htop]
  refine top_eq ?_ ?_
  · rw [mpleft_val]
    have hle := pow_le_val hN
    rw [htop, Nat.add_sub_cancel] at hle
    exact hle.trans (Nat.le_mul_of_pos_right _ (Nat.pow_pos (by decide)))
  · rw [mpleft_val, radix_succ, hpow, Nat.mul_right_comm]
    refine Nat.mul_lt_mul_of_pos_right ?_ (Nat.pow_pos (by decide))
    rw [← hpow, Nat.mul_comm (2 ^ (32 - s))]
    omega

/-- A difference of one digit means that the modulus is positive and near the power. -/
theorem crandall_shape {N M : Mpint} {s : ℕ} (hbig : 2 < N.top) (hM : mpleft N s = M)
    (htop : M.top = N.top) (hC : (mpsub (mpleft mpone (M.top * 32)) M).top = 1) :
    N.sign = 1 ∧ val M.p +
      ((mpsub (mpleft mpone (M.top * 32)) M).p.headD 0).toNat = (2 ^ 32) ^ N.top := by
  obtain ⟨c, hc⟩ := List.length_eq_one_iff.mp hC
  have hint := mpsub_toInt (mpleft mpone (M.top * 32)) M
  rw [mpleft_toInt, show mpone.toInt = 1 from rfl, one_mul, ← hM, mpleft_toInt, hM, htop] at hint
  have habs := abs_toInt (mpsub (mpleft mpone (M.top * 32)) M)
  rw [htop] at hc habs ⊢
  rw [hc, val_singleton] at habs
  have hclt := c.toNat_lt
  have hval : val M.p = val N.p * 2 ^ s := by rw [← hM, mpleft_val]
  have hMlt := val_lt M.p
  have hpow : (2 : ℤ) ^ (N.top * 32) = ((2 ^ 32) ^ N.top : ℕ) := by
    rw [Nat.mul_comm, pow_mul]
    push_cast
    rfl
  have hge : (2 ^ 32) ^ 2 ≤ (2 ^ 32) ^ N.top := Nat.pow_le_pow_right (by decide) hbig.le
  rw [hpow] at hint
  rw [show M.p.length = N.top from htop] at hMlt
  rw [hc, List.headD_cons]
  rcases Int.units_eq_one_or N.sign with h | h
  · refine ⟨h, ?_⟩
    rw [toInt_of_one h] at hint
    have hcast : (val N.p : ℤ) * 2 ^ s = (val M.p : ℕ) := by
      rw [hval]
      push_cast
      rfl
    omega
  · rw [toInt_of_neg h] at hint
    have hcast : -(val N.p : ℤ) * 2 ^ s = -(val M.p : ℕ) := by
      rw [hval]
      push_cast
      ring
    omega

def cnfield (N : Mpint) : Option CNfield :=
  if hN : N.top ≤ 2 ∨ MAXDIG ≤ N.top then none
  else
    let s := normshift 32 (N.p.getLastD 0) 0
    let M := mpleft N s
    let C := mpsub (mpleft mpone (M.top * 32)) M
    if hC : C.top ≠ 1 then none
    else
      have hbig : 2 < N.top := by omega
      have hne : N.p ≠ [] := fun hnil => by
        rw [top_eq_zero.mpr hnil] at hbig
        omega
      have hshape := crandall_shape hbig rfl (shift_top hne).2 (not_not.mp hC)
      some {
        n := N
        m := M
        s := s
        c := C.p.headD 0
        sign := hshape.1
        big := hbig
        small := by omega
        short := (shift_top hne).1
        shift := mpleft_val N s
        crandall := hshape.2 }

/-- One round of `cnreduce`, on the high digits `q` and the low digits `r`: the high digits of the
next round and the low ones. -/
def cnround (f : CNfield) (q r : Vec) : Vec × Vec :=
  let k := f.n.top
  let t := muladdloop f.c q (List.replicate q.length 0) 0 0
  let r := addloop r (t.take k) 0
  let u := subloop r f.m.p 0
  (t.drop k, mask (u.getD k 0) (r.take k) (u.take k))

/-- The rounds of `cnreduce`; each leaves fewer high digits. -/
def cnloop (f : CNfield) : ℕ → Vec → Vec → Vec
  | 0, _, r => r
  | fuel + 1, q, r =>
    let s := cnround f q r
    if s.1 = [] then s.2 else cnloop f fuel s.1 s.2

/-- The arrays `q` and `t` have room for 31 and 32 digits. -/
def cnreduce (f : CNfield) (a : Mpint) : Reduction :=
  let k := f.n.top
  if MAXDIG + k ≤ a.top then .refused
  else
    let r := pad (k + 1) (mpleft a f.s).p
    let q := r.drop k
    if MAXDIG - 1 < q.length then .overrun
    else .reduced (mpright (mpnorm 1 (cnloop f q.length q (r.take k))) f.s)

section Round

theorem val_replicate (d : UInt32) (j : ℕ) :
    val (List.replicate j d) * (2 ^ 32 - 1) + d.toNat = d.toNat * (2 ^ 32) ^ j := by
  induction j with
  | zero => simp
  | succ j ih =>
    rw [List.replicate_succ, val_cons, radix_succ, Nat.mul_left_comm, ← ih]
    ring

/-- Digits of ones make a power of the radix less one. -/
theorem val_ones (j : ℕ) : val (List.replicate j 0xffffffff) + 1 = (2 ^ 32) ^ j := by
  have hval := val_replicate 0xffffffff j
  rw [show (0xffffffff : UInt32).toNat = 2 ^ 32 - 1 from rfl] at hval
  omega

theorem eq_ones {x : Vec} {j w : ℕ} (hlen : x.length = j + 1) (hpos : 0 < w) (hw : w ≤ 2 ^ 32)
    (h : val x + w = (2 ^ 32) ^ (j + 1)) :
    x = UInt32.ofNat (2 ^ 32 - w) :: List.replicate j 0xffffffff := by
  refine val_injective (by rw [hlen, List.length_cons, List.length_replicate]) ?_
  have hones := val_ones j
  rw [radix_succ] at h
  rw [val_cons, UInt32.toNat_ofNat', Nat.mod_eq_of_lt (by omega)]
  omega

theorem eq_digit {y : Vec} {j : ℕ} (hlen : y.length = j + 1) (h : val y < 2 ^ 32) :
    y = UInt32.ofNat (val y) :: List.replicate j 0 := by
  refine val_injective (by rw [hlen, List.length_cons, List.length_replicate]) ?_
  rw [val_cons, UInt32.toNat_ofNat', Nat.mod_eq_of_lt h, val_zeros]
  omega

/-- What a mask with one bit makes of a number just below the power and a digit: ones in all higher
digits. -/
theorem mask_one {x y : Vec} {j w : ℕ} (hx : x.length = j + 1) (hy : y.length = j + 1)
    (hpos : 0 < w) (hw : w ≤ 2 ^ 32) (hval : val x + w = (2 ^ 32) ^ (j + 1))
    (hlt : val y < 2 ^ 32) :
    ∃ d, val (mask 1 x y) = d + 2 ^ 32 * val (List.replicate j 1) ∧ d ≤ val y + 1 := by
  have hdigits : mask 1 x y = (UInt32.ofNat (2 ^ 32 - w) &&& 1 |||
      UInt32.ofNat (val y) &&& ~~~1) :: List.replicate j 1 := by
    conv_lhs => rw [eq_ones hx hpos hw hval, eq_digit hy hlt]
    rw [mask, List.zipWith_cons_cons, List.zipWith_replicate, Nat.min_self]
    rfl
  refine ⟨_, by rw [hdigits, val_cons], ?_⟩
  have hone : (UInt32.ofNat (2 ^ 32 - w) &&& 1).toNat ≤ 1 := by
    rw [UInt32.toNat_and]
    exact Nat.and_le_right
  have hrest : (UInt32.ofNat (val y) &&& ~~~1).toNat ≤ val y := by
    rw [UInt32.toNat_and]
    refine Nat.and_le_left.trans ?_
    rw [UInt32.toNat_ofNat', Nat.mod_eq_of_lt hlt]
  rw [UInt32.toNat_or]
  generalize (UInt32.ofNat (2 ^ 32 - w) &&& 1).toNat = a at *
  generalize (UInt32.ofNat (val y) &&& ~~~1).toNat = b at *
  -- above the last bit the digit is that of `y`
  have hhalf : (a ||| b) / 2 = b / 2 := by
    rw [Nat.or_div_two, Nat.div_eq_of_lt (show a < 2 by omega), Nat.zero_or]
  omega

variable (f : CNfield)

/-- The high part and the low part of the number, in one round: the low part and the low digits of
the high part times `c`. -/
def CNfield.foldsum (s : ℕ × ℕ) : ℕ := s.2 + s.1 * f.c.toNat % (2 ^ 32) ^ f.n.top

/-- A round, with the modulus taken off once if it goes in. -/
def CNfield.fold (s : ℕ × ℕ) : ℕ × ℕ :=
  (s.1 * f.c.toNat / (2 ^ 32) ^ f.n.top,
    if f.foldsum s < val f.m.p then f.foldsum s else f.foldsum s - val f.m.p)

theorem CNfield.m_length : f.m.p.length ≤ f.n.top + 1 := by
  by_contra hlong
  have hne : f.m.p ≠ [] := fun hnil => by simp [hnil] at hlong
  have hle := pow_le_val hne
  have hcrandall := f.crandall
  have htop : f.m.top = f.m.p.length := rfl
  have hpow : (2 ^ 32) ^ (f.n.top + 1) ≤ (2 ^ 32) ^ (f.m.top - 1) :=
    Nat.pow_le_pow_right (by decide) (by omega)
  have hpos : 0 < (2 ^ 32) ^ f.n.top := Nat.pow_pos (by decide)
  rw [radix_succ] at hpow
  omega

/-- A round as it should be, or one where the carry mixes the two numbers. -/
theorem cnround_spec {q r : Vec} (hr : r.length = f.n.top) :
    (cnround f q r).1.length = q.length + 1 - f.n.top ∧ (cnround f q r).2.length = f.n.top ∧
      val (cnround f q r).1 = (f.fold (val q, val r)).1 ∧
      (f.foldsum (val q, val r) < (2 ^ 32) ^ f.n.top + val f.m.p →
        val (cnround f q r).2 = (f.fold (val q, val r)).2) ∧
      ((2 ^ 32) ^ f.n.top + val f.m.p ≤ f.foldsum (val q, val r) → ∃ δ, δ ≤ 2 * 2 ^ 32 ∧
        val (cnround f q r).2 + δ + 2 * val f.m.p = f.foldsum (val q, val r) +
          2 ^ 32 * val (List.replicate (f.n.top - 1) 1)) := by
  have hbig := f.big
  have hcrandall := f.crandall
  have hc := f.c.toNat_lt
  have hm := f.m_length
  have hrlt := val_lt r
  rw [hr] at hrlt
  unfold cnround
  dsimp only [CNfield.fold]
  obtain ⟨t, ht⟩ : ∃ t, muladdloop f.c q (List.replicate q.length 0) 0 0 = t := ⟨_, rfl⟩
  have htlen : t.length = q.length + 1 := by rw [← ht, muladdloop_length _ _ _ _ _ (by simp)]
  have htval : val t = val q * f.c.toNat := by
    rw [← ht, muladdloop_eq _ _ _ (by simp), val_zeros, Nat.zero_add, Nat.mul_comm]
  have hadd := addloop_val r (t.take f.n.top) 0 (by rw [List.length_take, hr]; omega)
  have haddlen := addloop_length r (t.take f.n.top) 0
  rw [val_take, htval, UInt32.toNat_zero, Nat.add_zero] at hadd
  change _ = f.foldsum (val q, val r) at hadd
  have hsum : f.foldsum (val q, val r) < 2 * (2 ^ 32) ^ f.n.top := by
    have hmod := Nat.mod_lt (val q * f.c.toNat) (show 0 < (2 ^ 32) ^ f.n.top from
      Nat.pow_pos (by decide))
    rw [CNfield.foldsum]
    dsimp only
    omega
  rw [ht]
  generalize addloop r (t.take f.n.top) 0 = w at *
  rw [hr] at haddlen
  obtain ⟨hulen, hless, hge⟩ := borrow_digit haddlen hm
  rw [hadd] at hless hge
  obtain ⟨d, hd⟩ : ∃ d, (subloop w f.m.p 0).drop f.n.top = [d] :=
    List.length_eq_one_iff.mp (by rw [List.length_drop, hulen]; omega)
  have hdval : d.toNat = val (subloop w f.m.p 0) / (2 ^ 32) ^ f.n.top := by
    rw [← val_drop, hd, val_singleton]
  rw [getD_of_drop hd] at hless ⊢
  generalize hu : subloop w f.m.p 0 = u at *
  have hxlen : (w.take f.n.top).length = f.n.top := by
    rw [List.length_take, haddlen]
    omega
  have hylen : (u.take f.n.top).length = f.n.top := by
    rw [List.length_take, hulen]
    omega
  have hlens := hxlen.trans hylen.symm
  have hpos : 0 < (2 ^ 32) ^ f.n.top := Nat.pow_pos (by decide)
  refine ⟨by rw [List.length_drop, htlen], by rw [mask_length _ hlens, hxlen],
    by rw [val_drop, htval], fun hclean => ?_, fun hmixed => ?_⟩
  · by_cases hlt : f.foldsum (val q, val r) < val f.m.p
    · rw [hless hlt (by omega), mask_ones hlens, val_take, hadd, if_pos hlt,
        Nat.mod_eq_of_lt (by omega)]
    · have hval := hge (by omega)
      have hzero : d = 0 := UInt32.toNat_inj.mp (by
        rw [hdval, hval]
        exact Nat.div_eq_of_lt (by omega))
      rw [hzero, mask_zero hlens, val_take, hval, if_neg hlt, Nat.mod_eq_of_lt (by omega)]
  · have hval := hge (by omega)
    have hone : d = 1 := UInt32.toNat_inj.mp (by
      rw [hdval, hval, Nat.div_eq_of_lt_le (k := 1) (by omega) (by omega)]
      rfl)
    have hx : val (w.take f.n.top) = f.foldsum (val q, val r) - (2 ^ 32) ^ f.n.top := by
      rw [val_take, hadd, Nat.mod_eq_sub_mod (by omega), Nat.mod_eq_of_lt (by omega)]
    have hy : val (u.take f.n.top) = f.foldsum (val q, val r) - val f.m.p - (2 ^ 32) ^ f.n.top := by
      rw [val_take, hval, Nat.mod_eq_sub_mod (by omega), Nat.mod_eq_of_lt (by omega)]
    have hk : f.n.top = f.n.top - 1 + 1 := by omega
    obtain ⟨e, he, hle⟩ := mask_one (hxlen.trans hk) (hylen.trans hk)
      (w := 2 * (2 ^ 32) ^ f.n.top - f.foldsum (val q, val r)) (by omega) (by omega)
      (by rw [← hk]; omega) (by omega)
    rw [hone, he]
    refine ⟨f.foldsum (val q, val r) - 2 * val f.m.p - e, by omega, by omega⟩

/-- No round has a sum that the carry digit and the modulus both go into. -/
def CNfield.Smooth (s : ℕ × ℕ) : Prop :=
  ∀ i, f.foldsum (f.fold^[i] s) < (2 ^ 32) ^ f.n.top + val f.m.p

theorem CNfield.smooth_iff (s : ℕ × ℕ) :
    f.Smooth s ↔ f.foldsum s < (2 ^ 32) ^ f.n.top + val f.m.p ∧ f.Smooth (f.fold s) := by
  constructor
  · intro h
    exact ⟨h 0, fun i => h (i + 1)⟩
  · rintro ⟨h0, h⟩ i
    cases i with
    | zero => exact h0
    | succ i => exact h i

theorem CNfield.smooth_done {x : ℕ} (h : x < val f.m.p) : f.Smooth (0, x) := by
  have hsum : f.foldsum (0, x) = x := by
    rw [CNfield.foldsum, Nat.zero_mul, Nat.zero_mod, Nat.add_zero]
  have hfold : f.fold (0, x) = (0, x) := by
    rw [CNfield.fold, hsum, if_pos h, Nat.zero_mul, Nat.zero_div]
  intro i
  rw [Function.iterate_fixed hfold, hsum]
  exact h.trans_le (Nat.le_add_left _ _)

/-- The number is the same modulo `m` after a round. -/
theorem CNfield.foldsum_eq (q r : ℕ) :
    r + (2 ^ 32) ^ f.n.top * q =
      f.foldsum (q, r) + (2 ^ 32) ^ f.n.top * (f.fold (q, r)).1 + val f.m.p * q := by
  have hdm := Nat.div_add_mod (q * f.c.toNat) ((2 ^ 32) ^ f.n.top)
  have hpow : (2 ^ 32) ^ f.n.top * q = val f.m.p * q + q * f.c.toNat := by
    rw [← f.crandall]
    ring
  rw [hpow, CNfield.foldsum, CNfield.fold]
  dsimp only
  omega

theorem CNfield.fold_eq (s : ℕ × ℕ) : ∃ j, f.foldsum s = (f.fold s).2 + val f.m.p * j := by
  rw [CNfield.fold]
  dsimp only
  split
  · exact ⟨0, rfl⟩
  · exact ⟨1, by omega⟩

/-- With few high digits left the modulus goes in at most once. -/
theorem CNfield.last_round {q r : Vec} (hq : q.length + 1 ≤ f.n.top) (hr : r.length = f.n.top) :
    f.foldsum (val q, val r) < 2 * val f.m.p ∧ (f.fold (val q, val r)).1 = 0 ∧
      (f.fold (val q, val r)).2 < val f.m.p := by
  have hbig := f.big
  have hcrandall := f.crandall
  have hc := f.c.toNat_lt
  have hrlt := val_lt r
  rw [hr] at hrlt
  have hk : (2 ^ 32) ^ f.n.top = 2 ^ 32 * (2 ^ 32) ^ (f.n.top - 1) := by
    rw [← radix_succ]
    congr 1
    omega
  have hge : (2 ^ 32) ^ 2 ≤ (2 ^ 32) ^ (f.n.top - 1) := Nat.pow_le_pow_right (by decide) (by omega)
  have hprod : val q * f.c.toNat ≤ (2 ^ 32) ^ (f.n.top - 1) * (2 ^ 32 - 1) := by
    refine Nat.mul_le_mul ?_ (by omega)
    exact (val_lt q).le.trans (Nat.pow_le_pow_right (by decide) (by omega))
  rw [Nat.mul_sub] at hprod
  have hlt : val q * f.c.toNat < (2 ^ 32) ^ f.n.top := by omega
  have hsum : f.foldsum (val q, val r) < 2 * val f.m.p := by
    rw [CNfield.foldsum, Nat.mod_eq_of_lt hlt]
    omega
  refine ⟨hsum, Nat.div_eq_of_lt hlt, ?_⟩
  rw [CNfield.fold]
  dsimp only
  split
  all_goals omega

/-- The rounds end below the modulus; each one that goes wrong adds ones to the higher digits. -/
theorem cnloop_spec (fuel : ℕ) (q r : Vec) (hfuel : q.length ≤ fuel) (hq : q ≠ [])
    (hr : r.length = f.n.top) :
    ∃ n δ j, n ≤ fuel ∧ δ ≤ n * (2 * 2 ^ 32) ∧ (n = 0 ↔ f.Smooth (val q, val r)) ∧
      val (cnloop f fuel q r) < val f.m.p ∧
      val (cnloop f fuel q r) + δ + val f.m.p * j = val r + (2 ^ 32) ^ f.n.top * val q +
        n * (2 ^ 32 * val (List.replicate (f.n.top - 1) 1)) := by
  have hbig := f.big
  induction fuel generalizing q r with
  | zero => exact absurd (List.eq_nil_of_length_eq_zero (Nat.le_zero.mp hfuel)) hq
  | succ fuel ih =>
    obtain ⟨hlen, hrlen, hhigh, hclean, hmixed⟩ := cnround_spec f (q := q) hr
    have hsame := f.foldsum_eq (val q) (val r)
    obtain ⟨i, hi⟩ := f.fold_eq (val q, val r)
    rw [cnloop]
    split
    · -- the last round
      rename_i hnil
      rw [hnil, List.length_nil] at hlen
      obtain ⟨hlt, hzero, hless⟩ := f.last_round (q := q) (by omega) hr
      have hcrandall := f.crandall
      have hfits : f.foldsum (val q, val r) < (2 ^ 32) ^ f.n.top + val f.m.p := by omega
      have hval := hclean hfits
      refine ⟨0, 0, i + val q, Nat.zero_le _, Nat.zero_le _, ?_, by rw [hval]; exact hless, ?_⟩
      · rw [f.smooth_iff]
        refine iff_of_true rfl ⟨hfits, ?_⟩
        rw [show f.fold (val q, val r) = (0, (f.fold (val q, val r)).2) from Prod.ext hzero rfl]
        exact f.smooth_done hless
      · rw [hzero] at hsame
        rw [hval, Nat.mul_add]
        omega
    · rename_i hne
      have hpos : 0 < (cnround f q r).1.length := List.length_pos_iff.mpr hne
      obtain ⟨n, δ, j, hn, hδ, hsmooth, hlt, heq⟩ :=
        ih (cnround f q r).1 (cnround f q r).2 (by omega) hne hrlen
      by_cases hfits : f.foldsum (val q, val r) < (2 ^ 32) ^ f.n.top + val f.m.p
      · have hval := hclean hfits
        refine ⟨n, δ, j + i + val q, by omega, hδ, ?_, hlt, ?_⟩
        · rw [f.smooth_iff, hsmooth, hhigh, hval]
          exact (and_iff_right hfits).symm
        · rw [Nat.mul_add, Nat.mul_add]
          rw [hhigh, hval] at heq
          omega
      · obtain ⟨δ', hδ', hmix⟩ := hmixed (by omega)
        refine ⟨n + 1, δ + δ', j + 2 + val q, by omega, by omega, ?_, hlt, ?_⟩
        · rw [f.smooth_iff]
          exact iff_of_false (Nat.succ_ne_zero n) fun h => hfits h.1
        · rw [Nat.mul_add, Nat.mul_add, Nat.add_mul n 1, Nat.one_mul]
          rw [hhigh] at heq
          omega

end Round

section Reduce

variable (f : CNfield) (a : Mpint)

/-- The high and the low part that the rounds of `cnreduce` begin with. -/
def CNfield.start : ℕ × ℕ :=
  (val a.p * 2 ^ f.s / (2 ^ 32) ^ f.n.top, val a.p * 2 ^ f.s % (2 ^ 32) ^ f.n.top)

/-- What goes wrong in a few rounds is more than the shift hides and less than the modulus. -/
theorem CNfield.error_bounds {n δ : ℕ} (hpos : 0 < n) (hn : n ≤ MAXDIG - 1)
    (hδ : δ ≤ n * (2 * 2 ^ 32)) :
    δ + 2 ^ f.s ≤ n * (2 ^ 32 * val (List.replicate (f.n.top - 1) 1)) ∧
      n * (2 ^ 32 * val (List.replicate (f.n.top - 1) 1)) < val f.m.p := by
  have hbig := f.big
  have hcrandall := f.crandall
  have hc := f.c.toNat_lt
  have hs : 2 ^ f.s ≤ 2 ^ 32 := Nat.pow_le_pow_right (by decide) f.short.le
  have hunits := val_replicate 1 (f.n.top - 1)
  rw [show (1 : UInt32).toNat = 1 from rfl, Nat.one_mul] at hunits
  have hk : (2 ^ 32) ^ f.n.top = 2 ^ 32 * (2 ^ 32) ^ (f.n.top - 1) := by
    rw [← radix_succ]
    congr 1
    omega
  have hge : (2 ^ 32) ^ 2 ≤ (2 ^ 32) ^ (f.n.top - 1) := Nat.pow_le_pow_right (by decide) (by omega)
  generalize val (List.replicate (f.n.top - 1) 1) = u at *
  constructor
  · have hmul : n * (3 * 2 ^ 32) ≤ n * (2 ^ 32 * u) := Nat.mul_le_mul_left n (by omega)
    omega
  · have hmul : n * (2 ^ 32 * u) ≤ 31 * (2 ^ 32 * u) := Nat.mul_le_mul_right _ hn
    omega

theorem cnreduce_reduced (hroom : a.top < MAXDIG + f.n.top)
    (hfit : (mpleft a f.s).top < MAXDIG + f.n.top) :
    ∃ r, cnreduce f a = .reduced r ∧ r.toInt = val r.p ∧ val r.p < val f.n.p ∧
      (val r.p = val a.p % val f.n.p ↔ f.Smooth (f.start a)) := by
  have hlen : (pad (f.n.top + 1) (mpleft a f.s).p).length =
      max (mpleft a f.s).top (f.n.top + 1) := by
    have htop : (mpleft a f.s).top = (mpleft a f.s).p.length := rfl
    rw [pad, List.length_append, List.length_replicate]
    omega
  have hval : val (pad (f.n.top + 1) (mpleft a f.s).p) = val a.p * 2 ^ f.s := by
    rw [val_pad, mpleft_val]
  have hMAX : MAXDIG = 32 := rfl
  unfold cnreduce
  dsimp only
  rw [if_neg (by omega)]
  generalize pad (f.n.top + 1) (mpleft a f.s).p = x at *
  have hq : (x.drop f.n.top).length = x.length - f.n.top := List.length_drop
  rw [if_neg (by omega)]
  obtain ⟨n, δ, j, hn, hδ, hsmooth, hlt, heq⟩ := cnloop_spec f _ (x.drop f.n.top) (x.take f.n.top)
    le_rfl (List.ne_nil_of_length_pos (by omega)) (by rw [List.length_take]; omega)
  generalize cnloop f (x.drop f.n.top).length (x.drop f.n.top) (x.take f.n.top) = y at *
  rw [← val_split, hval] at heq
  rw [val_drop, val_take, hval] at hsmooth
  have hs : 0 < 2 ^ f.s := Nat.pow_pos (by decide)
  have hr : val (mpright (mpnorm 1 y) f.s).p = val y / 2 ^ f.s := by
    rw [mpright_val, mpnorm_p, val_strip]
  refine ⟨_, rfl, ?_, ?_, ?_⟩
  · have hone : (mpnorm 1 y).sign = 1 := by
      rw [mpnorm]
      split
      all_goals rfl
    rw [mpright_toInt, hr, mpnorm_p, val_strip, hone, Units.val_one, one_mul]
  · rw [hr, Nat.div_lt_iff_lt_mul hs, ← f.shift]
    exact hlt
  · rw [hr, CNfield.start, ← hsmooth]
    have hdm := Nat.div_add_mod (val a.p * 2 ^ f.s) (val f.m.p)
    have hmod : val a.p * 2 ^ f.s % val f.m.p = val a.p % val f.n.p * 2 ^ f.s := by
      rw [f.shift, Nat.mul_mod_mul_right]
    constructor
    · -- a round gone wrong shows in the result
      intro hres
      by_contra hpos
      obtain ⟨hlow, hhigh⟩ := f.error_bounds (Nat.pos_of_ne_zero hpos) (by omega) hδ
      have hyle := Nat.div_mul_le_self (val y) (2 ^ f.s)
      have hylt : val y < (val y / 2 ^ f.s + 1) * 2 ^ f.s :=
        Nat.lt_mul_of_div_lt (Nat.lt_succ_self _) hs
      rw [Nat.add_mul, Nat.one_mul, hres] at hylt
      rw [hres] at hyle
      rcases Nat.lt_or_ge (val a.p * 2 ^ f.s / val f.m.p) j with hj | hj
      · have hmul := Nat.mul_le_mul_left (val f.m.p) hj
        rw [Nat.mul_succ] at hmul
        omega
      · have hmul := Nat.mul_le_mul_left (val f.m.p) hj
        omega
    · intro hzero
      rw [hzero, Nat.zero_mul, Nat.add_zero] at heq
      have hδ0 : δ = 0 := by omega
      have hy : val y = val a.p * 2 ^ f.s % val f.m.p := by
        rw [← heq, hδ0, Nat.add_zero, Nat.add_mul_mod_self_left, Nat.mod_eq_of_lt hlt]
      rw [hy, hmod, Nat.mul_div_cancel _ hs]

theorem cnreduce_overrun (hroom : a.top < MAXDIG + f.n.top)
    (hfit : MAXDIG + f.n.top ≤ (mpleft a f.s).top) : cnreduce f a = .overrun := by
  have hMAX : MAXDIG = 32 := rfl
  have htop : (mpleft a f.s).top = (mpleft a f.s).p.length := rfl
  rw [cnreduce, if_neg (by omega)]
  refine if_pos ?_
  rw [List.length_drop, pad, List.length_append]
  omega

/-- Numbers that `cnreduce` refuses, or for which its arrays have room and all rounds are smooth. -/
def CNfield.Reduces : Prop :=
  MAXDIG + f.n.top ≤ a.top ∨
    (mpleft a f.s).top < MAXDIG + f.n.top ∧ f.Smooth (f.start a)

theorem cnfield_n {N : Mpint} {f : CNfield} (h : cnfield N = some f) : f.n = N := by
  unfold cnfield at h
  split at h
  · cases h
  · dsimp only at h
    split at h
    · cases h
    · cases h
      rfl

theorem cnreduce_iff {N : Mpint} {f : CNfield} (hf : cnfield N = some f) {a : Mpint}
    (ha : 0 ≤ a.toInt) :
    (cnreduce f a = .refused ∨ ∃ r, cnreduce f a = .reduced r ∧ r.Residue a N ∧
      ∀ low sign, ∃ q rem, mpdiv low sign a N = some (q, rem) ∧ rem.toInt = r.toInt) ↔
      f.Reduces a := by
  obtain rfl := cnfield_n hf
  have hbig := f.big
  by_cases hroom : MAXDIG + f.n.top ≤ a.top
  · refine iff_of_true (.inl ?_) (.inl hroom)
    rw [cnreduce]
    exact if_pos hroom
  · by_cases hfit : (mpleft a f.s).top < MAXDIG + f.n.top
    · obtain ⟨r, hred, hr, hlt, hiff⟩ := cnreduce_reduced f a (by omega) hfit
      have hres : r.Residue a f.n ↔ f.Smooth (f.start a) := by
        rw [residue_iff_mod hr hlt f.sign, ← hiff, toInt_of_nonneg ha]
        norm_cast
      rw [CNfield.Reduces, or_iff_right hroom, and_iff_right hfit, ← hres, hred]
      constructor
      · rintro (h | ⟨r', h, hres', -⟩)
        · cases h
        · cases h
          exact hres'
      · intro hres'
        refine .inr ⟨r, rfl, hres', fun low sign => ?_⟩
        have hne : f.n.p ≠ [] := fun hnil => by
          rw [top_eq_zero.mpr hnil] at hbig
          omega
        obtain ⟨q, rem, hdiv, -, hrem⟩ := mpdiv_spec low sign (a := a) hne
        have hsmall : ¬ (a.p = [] ∧ f.n.SmallPower) := fun h => by
          have hone := h.2.1
          omega
        refine ⟨q, rem, hdiv, ?_⟩
        rw [hrem, if_neg hsmall, hr, sign_mul_mod ha, hiff.mpr (hres.mp hres')]
    · rw [cnreduce_overrun f a (by omega) (by omega)]
      refine iff_of_false ?_ ?_
      · rintro (h | ⟨r, h, -⟩)
        · cases h
        · cases h
      · rintro (h | h)
        · exact hroom h
        · exact hfit h.1

/-- The modulus 2^96 - 17 and the number 2^100. -/
theorem cnreduce_iff_power :
    ∃ f, cnfield ⟨1, [0xffffffef, 0xffffffff, 0xffffffff], by decide⟩ = some f ∧
      ((cnreduce f ⟨1, [0, 0, 0, 16], by decide⟩ = .refused ∨
        ∃ r, cnreduce f ⟨1, [0, 0, 0, 16], by decide⟩ = .reduced r ∧
          r.Residue ⟨1, [0, 0, 0, 16], by decide⟩
            ⟨1, [0xffffffef, 0xffffffff, 0xffffffff], by decide⟩ ∧
          ∀ low sign, ∃ q rem, mpdiv low sign ⟨1, [0, 0, 0, 16], by decide⟩
            ⟨1, [0xffffffef, 0xffffffff, 0xffffffff], by decide⟩ = some (q, rem) ∧
              rem.toInt = r.toInt) ↔ f.Reduces ⟨1, [0, 0, 0, 16], by decide⟩) := by
  obtain ⟨f, hf⟩ := Option.isSome_iff_exists.mp (show
    (cnfield ⟨1, [0xffffffef, 0xffffffff, 0xffffffff], by decide⟩).isSome = true by decide +kernel)
  exact ⟨f, hf, cnreduce_iff hf (by decide)⟩

/-- The modulus 2^96 - 17 and the number (2^96 - 1)/17 * 2^96 + 2^96 - 1: the carry digit is one. -/
theorem cnreduce_mixes :
    (cnfield ⟨1, [0xffffffef, 0xffffffff, 0xffffffff], by decide⟩).map (cnreduce ·
      ⟨1, [0xffffffff, 0xffffffff, 0xffffffff, 0xf0f0f0f, 0xf0f0f0f, 0xf0f0f0f], by decide⟩) =
        some (.reduced ⟨1, [14, 1, 1], by decide⟩) ∧
      0 ≤ Mpint.toInt
        ⟨1, [0xffffffff, 0xffffffff, 0xffffffff, 0xf0f0f0f, 0xf0f0f0f, 0xf0f0f0f], by decide⟩ ∧
      ¬ Mpint.Residue ⟨1, [14, 1, 1], by decide⟩
        ⟨1, [0xffffffff, 0xffffffff, 0xffffffff, 0xf0f0f0f, 0xf0f0f0f, 0xf0f0f0f], by decide⟩
        ⟨1, [0xffffffef, 0xffffffff, 0xffffffff], by decide⟩ := by
  decide +kernel

end Reduce

end Petele.Mp
