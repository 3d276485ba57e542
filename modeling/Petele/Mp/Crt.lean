import Petele.Mp.Gcd

namespace Petele.Mp

open Lib Limbs

/-- The precomputed values for moduli without a field structure; the coefficients are those from
`c[1]` on. -/
structure CRTpre where
  m : List Mpint
  c : List Mpint
  p : List Mpint

/-- The products of the first moduli. -/
def products (u : Mpint) : List Mpint → List Mpint
  | [] => []
  | m :: ms => mpmul u m :: products (mpmul u m) ms

/-- The inner loop of `crtpre`, over the moduli before `m`. -/
def coefficient (m : Mpint) : List Mpint → Mpint → Option Mpint
  | [], c => some c
  | b :: bs, c => do
    let u ← mpinvert b m
    let c ← mpmod 0 (mpmul u c) (.plain m)
    coefficient m bs c

def coefficients' : List Mpint → List Mpint → Option (List Mpint)
  | _, [] => some []
  | before, m :: ms => do
    let c ← coefficient m before mpone
    let cs ← coefficients' (before ++ [m]) ms
    some (c :: cs)

def crtpre (m : List Mpint) : Option CRTpre := do
  let c ← coefficients' (m.take 1) (m.drop 1)
  some { m := m, c := c, p := products mpone m }

/-- The residues; `low` is what `x->p[0]` holds if `x` has no digits. -/
def crtin (low : UInt32) (crt : CRTpre) (x : Mpint) : Option (List Mpint) :=
  crt.m.mapM fun m => mpmod low x (.plain m)

/-- The loop of `crtout` over the moduli, the coefficients, the products before them and the
residues. A zero that goes to `mpmod` here has a zero at `p[0]`. -/
def garner : List Mpint → List Mpint → List Mpint → List Mpint → Mpint → Option Mpint
  | m :: ms, c :: cs, p :: ps, r :: rs, x => do
    let u ← mpmod 0 (mpmul (mpsub r x) c) (.plain m)
    garner ms cs ps rs (mpadd x (mpmul u p))
  | _, _, _, _, x => some x

def crtout (crt : CRTpre) : List Mpint → Option Mpint
  | [] => none
  | r :: rs => garner (crt.m.drop 1) crt.c crt.p rs r

/-- Whether the loop of `crtout` ends one product too high, with `p` the product so far and `s`
whether it is one product too high already. -/
def slips (x : ℕ) : ℕ → List ℕ → Bool → Bool
  | _, [], s => s
  | p, m :: ms, s =>
    let y := x % (p * m)
    slips x (p * m) ms (if s then y / p = 0 ∨ y / p = 1 ∧ m ≤ y else y / p = 0 ∧ m ≤ y)

def Slips (x : Mpint) : List Mpint → Prop
  | [] => False
  | m :: ms => slips (val x.p) (val m.p) (ms.map fun m => val m.p) (x.sign = -1) = true

section Step

theorem mpmul_sign (a b : Mpint) : (mpmul a b).sign = -1 ↔ a.toInt * b.toInt < 0 := by
  rw [← mpmul_toInt]
  constructor
  · intro hs
    have hne : (mpmul a b).p ≠ [] := fun hnil => by
      have hone : (mpmul a b).sign = 1 := by
        unfold mpmul mpnorm at hnil ⊢
        exact if_pos hnil
      rw [hone] at hs
      exact absurd hs (by decide)
    have hpos : val (mpmul a b).p ≠ 0 := mt val_eq_zero.mp hne
    rw [toInt_of_neg hs]
    omega
  · intro hneg
    refine (Int.units_eq_one_or _).resolve_left fun hs => ?_
    rw [toInt_of_one hs] at hneg
    omega

/-- What `mpmod` leaves of a product. -/
theorem mpmod_product (a b : Mpint) {n : Mpint} (hn : 0 < n.toInt) :
    ∃ r, mpmod 0 (mpmul a b) (.plain n) = some r ∧
      r.toInt = if a.toInt * b.toInt < 0 ∧ n.toInt ∣ a.toInt * b.toInt then n.toInt
        else a.toInt * b.toInt % n.toInt := by
  have hprod := mpmul_toInt a b
  by_cases hdvd : n.toInt ∣ a.toInt * b.toInt
  · obtain ⟨r, k, hmod, hk, hr⟩ := mpmod_plain (x := mpmul a b) 0 hn
    have hzero : k = 0 := by
      rw [← hprod, ← Int.natAbs_dvd_natAbs, abs_toInt, abs_toInt] at hdvd
      rw [hk]
      split
      · exact Nat.zero_mod _
      · exact Nat.mod_eq_zero_of_dvd hdvd
    rw [hzero, Nat.cast_zero, sub_zero] at hr
    refine ⟨r, hmod, ?_⟩
    simp only [hr, mpmul_sign, hdvd, and_true, Int.emod_eq_zero_of_dvd hdvd]
  · rw [← hprod] at hdvd ⊢
    obtain ⟨r, hmod, hr, -⟩ := mpmod_nonmultiple hn hdvd
    exact ⟨r, hmod, by rw [hr, if_neg fun h => hdvd h.2]⟩

variable {x p m : ℕ} {r c y w : ℤ}

/-- The digit a step adds, from what it should be modulo `m`; a multiple of `m` below zero gives `m`. -/
theorem garner_digit (hm : 1 < m) (hc : 0 < c) {e : ℤ} (he : (r - y) * c ≡ e [ZMOD m])
    (hlow : -1 ≤ e) (hhigh : e < m)
    (hw : w = if (r - y) * c < 0 ∧ (m : ℤ) ∣ (r - y) * c then (m : ℤ) else (r - y) * c % m) :
    w = if e = -1 then (m : ℤ) - 1 else if e = 0 ∧ r < y then (m : ℤ) else e := by
  have hdvd : (m : ℤ) ∣ (r - y) * c ↔ e = 0 := by
    rw [← Int.modEq_zero_iff_dvd]
    constructor
    · intro hzero
      obtain ⟨k, hk⟩ := Int.modEq_zero_iff_dvd.mp (he.symm.trans hzero)
      rcases lt_trichotomy k 0 with h | h | h
      · have hmul := mul_le_mul_of_nonneg_left (show k ≤ -1 by omega) (show (0 : ℤ) ≤ m by omega)
        omega
      · rw [hk, h, mul_zero]
      · have hmul := mul_le_mul_of_nonneg_left (show 1 ≤ k by omega) (show (0 : ℤ) ≤ m by omega)
        omega
    · intro hzero
      rw [← hzero]
      exact he
  have hneg : (r - y) * c < 0 ↔ r < y := by
    rw [mul_neg_iff]
    omega
  have hmod : (r - y) * c % m = e % m := he
  simp only [hdvd, hneg, hmod] at hw
  rw [hw]
  by_cases hminus : e = -1
  · rw [if_neg fun h => by omega, if_pos hminus, hminus]
    have hm1 : (-1 : ℤ) % m = (m - 1 + m * (-1)) % m := by ring_nf
    rw [hm1, Int.add_mul_emod_self_left, Int.emod_eq_of_lt (by omega) (by omega)]
  · rw [if_neg hminus]
    by_cases hslip : e = 0 ∧ r < y
    · rw [if_pos ⟨hslip.2, hslip.1⟩, if_pos hslip]
    · rw [if_neg fun h => hslip ⟨h.2, h.1⟩, if_neg hslip, Int.emod_eq_of_lt (by omega) hhigh]

/-- A step of `crtout`, from whether the number is one product too high before to whether it is so
after it. -/
theorem garner_step {s : Bool} (hp : 0 < p) (hm : 1 < m) (hc : 0 < c)
    (hcp : c * p ≡ 1 [ZMOD m]) (hrx : r ≡ x [ZMOD m])
    (hr : r = x % m ∨ s = true ∧ x % (p * m) / p = 0) (hy : y = x % p + if s then (p : ℤ) else 0)
    (hw : w = if (r - y) * c < 0 ∧ (m : ℤ) ∣ (r - y) * c then (m : ℤ) else (r - y) * c % m) :
    y + w * p = (x % (p * m) : ℕ) + if (if s then x % (p * m) / p = 0 ∨
      x % (p * m) / p = 1 ∧ m ≤ x % (p * m) else x % (p * m) / p = 0 ∧ m ≤ x % (p * m) : Bool)
        then ((p * m : ℕ) : ℤ) else 0 := by
  have hdigit : x % (p * m) / p = x / p % m := by
    rw [Nat.mod_mul, Nat.add_mul_div_left _ _ hp, Nat.div_eq_of_lt (Nat.mod_lt x hp), Nat.zero_add]
  have hnum : x % (p * m) = x % p + p * (x % (p * m) / p) := by
    rw [hdigit, Nat.mod_mul]
  have hlt : x % (p * m) / p < m := hdigit ▸ Nat.mod_lt _ (by omega)
  have hres : x % (p * m) % m = x % m := Nat.mod_mul_left_mod x p m
  have hcast : ((x % m : ℕ) : ℤ) = (x : ℤ) % m := Int.natCast_mod x m
  have hcast' : ((x % p : ℕ) : ℤ) = (x : ℤ) % p := Int.natCast_mod x p
  have hxy : (x : ℤ) ≡ (x % (p * m) : ℕ) [ZMOD m] := by
    refine Int.natCast_modEq_iff.mpr ?_
    rw [Nat.ModEq, hres]
  generalize x % (p * m) = z at *
  generalize hv : z / p = v at *
  rw [← hcast'] at hy
  rw [← hcast] at hr
  generalize x % p = l at *
  -- what the step should add is the next digit, less one if it is a product too high
  have hzl : (z : ℤ) = l + p * v := by exact_mod_cast hnum
  have he : ∀ σ : ℤ, y = l + σ * p → (r - y) * c ≡ v - σ [ZMOD m] := by
    intro σ hσ
    have hrz : r - y ≡ (v - σ) * p [ZMOD m] := by
      refine ((hrx.trans hxy).sub_right y).trans ?_
      rw [hσ, hzl]
      ring_nf
      exact Int.ModEq.rfl
    refine (hrz.mul_right c).trans ?_
    have hone := hcp.mul_left (v - σ)
    rw [mul_one] at hone
    calc (v - σ) * p * c = (v - σ) * (c * p) := by ring
      _ ≡ v - σ [ZMOD m] := hone
  have hpm : ((p * m : ℕ) : ℤ) = m * p := by
    push_cast
    ring
  -- the residue is less than the number itself if the modulus goes into it
  have hless : z % m < z ↔ m ≤ z := by
    constructor
    · intro h
      by_contra hnot
      rw [Nat.mod_eq_of_lt (by omega)] at h
      omega
    · intro h
      exact (Nat.mod_lt z (by omega)).trans_le h
  rw [hpm]
  cases s with
  | false =>
    have hdig := garner_digit hm hc (he 0 (by rw [hy]; simp)) (by omega) (by omega) hw
    have hrm : r = (z % m : ℕ) := by
      rw [hres]
      exact hr.resolve_right fun h => by cases h.1
    rw [if_neg (by decide), add_zero] at hy
    rw [if_neg (by omega), sub_zero, hrm, hy] at hdig
    by_cases hv0 : v = 0
    · rw [hv0, Nat.cast_zero, mul_zero, add_zero] at hzl
      have hzl' : z = l := by exact_mod_cast hzl
      by_cases hbig : m ≤ z
      · rw [if_pos ⟨by omega, by rw [← hzl']; exact_mod_cast hless.mpr hbig⟩] at hdig
        simp [hv0, hbig, hdig, hy, hzl]
      · rw [if_neg fun h => hbig (hless.mp (by rw [← hzl'] at h; exact_mod_cast h.2)), hv0] at hdig
        simp [hv0, hbig, hdig, hy, hzl]
    · rw [if_neg fun h => hv0 (by omega)] at hdig
      simp only [hv0, false_and, decide_false, Bool.false_eq_true, if_false, add_zero]
      rw [hdig, hy, hzl]
      ring
  | true =>
    have hdig := garner_digit hm hc (he 1 (by rw [hy]; simp)) (by omega) (by omega) hw
    rw [if_pos rfl] at hy
    by_cases hv0 : v = 0
    · rw [if_pos (by omega)] at hdig
      simp only [hv0, true_or, decide_true, if_true]
      rw [hdig, hy, hzl, hv0]
      push_cast
      ring
    · rw [if_neg (by omega)] at hdig
      have hrm : r = (z % m : ℕ) := by
        rw [hres]
        exact hr.resolve_right fun h => hv0 h.2
      by_cases hv1 : v = 1
      · have hyz : y = z := by
          rw [hy, hzl, hv1]
          push_cast
          ring
        by_cases hbig : m ≤ z
        · rw [if_pos ⟨by omega, by rw [hrm, hyz]; exact_mod_cast hless.mpr hbig⟩] at hdig
          simp [hv1, hbig, hdig, hyz]
        · rw [if_neg fun h => hbig (hless.mp (by rw [hrm, hyz] at h; exact_mod_cast h.2)), hv1] at hdig
          simp [hv1, hbig, hdig, hyz]
      · rw [if_neg fun h => hv1 (by omega)] at hdig
        simp only [hv0, hv1, false_and, or_false, decide_false, Bool.false_eq_true, if_true, if_false,
          add_zero]
        rw [hdig, hy, hzl]
        ring

end Step

section Precomputed

/-- Each coefficient is the inverse, modulo its modulus, of the product before it. -/
def Inverses : ℤ → List Mpint → List Mpint → Prop
  | p, m :: ms, c :: cs => 0 < c.toInt ∧ c.toInt * p ≡ 1 [ZMOD m.toInt] ∧ Inverses (p * m.toInt) ms cs
  | _, ms, cs => ms = [] ∧ cs = []

variable {m : Mpint}

theorem coefficient_spec (hm : 1 < m.toInt) (bs : List Mpint)
    (hbs : ∀ b ∈ bs, 0 < b.toInt ∧ Int.gcd b.toInt m.toInt = 1) {c : Mpint} (hc : 0 < c.toInt) {k : ℤ}
    (hk : c.toInt * k ≡ 1 [ZMOD m.toInt]) :
    ∃ d, coefficient m bs c = some d ∧ 0 < d.toInt ∧
      d.toInt * (bs.map Mpint.toInt).prod ≡ c.toInt [ZMOD m.toInt] := by
  induction bs generalizing c k with
  | nil => exact ⟨c, rfl, hc, by simp⟩
  | cons b bs ih =>
    rw [List.forall_mem_cons] at hbs
    obtain ⟨u, hinv, -, hu⟩ := mpinvert_spec hbs.1.1 hm hbs.1.2
    have hprod := mpmul_toInt u c
    -- the product has an inverse, so it is no multiple of the modulus
    have hunit : (mpmul u c).toInt * (b.toInt * k) ≡ 1 [ZMOD m.toInt] := by
      have hboth := hu.mul hk
      rw [mul_one] at hboth
      rw [hprod]
      calc u.toInt * c.toInt * (b.toInt * k) = u.toInt * b.toInt * (c.toInt * k) := by ring
        _ ≡ 1 [ZMOD m.toInt] := hboth
    have hnot : ¬ m.toInt ∣ (mpmul u c).toInt := fun hdvd => by
      have hzero : (mpmul u c).toInt * (b.toInt * k) ≡ 0 [ZMOD m.toInt] :=
        Int.modEq_zero_iff_dvd.mpr (dvd_mul_of_dvd_left hdvd _)
      have hle := Int.le_of_dvd (by decide) (Int.modEq_zero_iff_dvd.mp (hunit.symm.trans hzero))
      omega
    obtain ⟨r, hmod, hr, hpos⟩ := mpmod_nonmultiple (by omega) hnot
    have hrc : r.toInt ≡ (mpmul u c).toInt [ZMOD m.toInt] := by
      rw [hr]
      exact Int.mod_modEq _ _
    obtain ⟨d, hd, hdpos, hdprod⟩ := ih hbs.2 hpos ((hrc.mul_right _).trans hunit)
    refine ⟨d, ?_, hdpos, ?_⟩
    · rw [coefficient, hinv]
      simp only [Option.bind_eq_bind, Option.bind_some, hmod, hd]
    · rw [List.map_cons, List.prod_cons]
      have hone := hu.mul_right c.toInt
      rw [one_mul] at hone
      calc d.toInt * (b.toInt * (bs.map Mpint.toInt).prod)
          = d.toInt * (bs.map Mpint.toInt).prod * b.toInt := by ring
        _ ≡ (mpmul u c).toInt * b.toInt [ZMOD m.toInt] := (hdprod.trans hrc).mul_right _
        _ = u.toInt * b.toInt * c.toInt := by
            rw [hprod]
            ring
        _ ≡ c.toInt [ZMOD m.toInt] := hone

theorem coefficients_inverses (ms before : List Mpint) (hms : ∀ m ∈ before ++ ms, 1 < m.toInt)
    (hcop : (before ++ ms).Pairwise fun a b => Int.gcd a.toInt b.toInt = 1) :
    ∃ cs, coefficients' before ms = some cs ∧ Inverses (before.map Mpint.toInt).prod ms cs := by
  induction ms generalizing before with
  | nil => exact ⟨[], rfl, rfl, rfl⟩
  | cons m ms ih =>
    have hm : 1 < m.toInt := hms m (by simp)
    obtain ⟨c, hc, hpos, hprod⟩ := coefficient_spec hm before (fun b hb => by
      refine ⟨by have := hms b (by simp [hb]); omega, ?_⟩
      exact (List.pairwise_append.mp hcop).2.2 b hb m List.mem_cons_self) (c := mpone) (by decide)
      (k := 1) (by rw [show mpone.toInt = 1 from rfl, mul_one])
    obtain ⟨cs, hcs, hinv⟩ := ih (before ++ [m]) (by simpa using hms) (by simpa using hcop)
    refine ⟨c :: cs, ?_, hpos, hprod, ?_⟩
    · rw [coefficients', hc]
      simp only [Option.bind_eq_bind, Option.bind_some, hcs]
    · rw [List.map_append, List.prod_append] at hinv
      simpa using hinv

end Precomputed

section Garner

/-- One turn of the loop of `crtout`. -/
theorem garner_cons {m : Mpint} (hm : 0 < m.toInt) (c p r y : Mpint) (ms cs ps rs : List Mpint) :
    ∃ u : Mpint, garner (m :: ms) (c :: cs) (p :: ps) (r :: rs) y =
        garner ms cs ps rs (mpadd y (mpmul u p)) ∧
      u.toInt = if (r.toInt - y.toInt) * c.toInt < 0 ∧ m.toInt ∣ (r.toInt - y.toInt) * c.toInt
        then m.toInt else (r.toInt - y.toInt) * c.toInt % m.toInt := by
  obtain ⟨u, hu, hval⟩ := mpmod_product (mpsub r y) c hm
  rw [mpsub_toInt] at hval
  refine ⟨u, ?_, hval⟩
  rw [garner, hu]
  rfl

theorem garner_nil (cs ps rs : List Mpint) (y : Mpint) : garner [] cs ps rs y = some y := by
  rw [garner.eq_def]

/-- Whatever the residues are, the number that `crtout` gives has them. -/
theorem garner_congr (ms cs rs : List Mpint) (p y : Mpint) (hms : ∀ m ∈ ms, 1 < m.toInt)
    (hinv : Inverses p.toInt ms cs) (hlen : ms.length = rs.length) :
    ∃ z, garner ms cs (p :: products p ms) rs y = some z ∧ z.toInt ≡ y.toInt [ZMOD p.toInt] ∧
      List.Forall₂ (fun m r => z.toInt ≡ r.toInt [ZMOD m.toInt]) ms rs := by
  induction ms generalizing cs rs p y with
  | nil =>
    rw [List.length_eq_zero_iff.mp hlen.symm]
    exact ⟨y, garner_nil _ _ _ y, Int.ModEq.rfl, .nil⟩
  | cons m ms ih =>
    rw [List.forall_mem_cons] at hms
    cases rs with
    | nil => simp at hlen
    | cons r rs =>
      cases cs with
      | nil => simp [Inverses] at hinv
      | cons c cs =>
        obtain ⟨-, hc, hinv⟩ := hinv
        obtain ⟨u, hu, hval⟩ := garner_cons (m := m) (by omega) c p r y ms cs
          (products p (m :: ms)) rs
        obtain ⟨z, hz, hzp, hzr⟩ := ih cs rs (mpmul p m) (mpadd y (mpmul u p)) hms.2
          (by rwa [mpmul_toInt]) (by simpa using hlen)
        rw [mpmul_toInt, mpadd_toInt, mpmul_toInt] at hzp
        refine ⟨z, by rw [hu, products, hz], ?_, .cons ?_ hzr⟩
        · refine (hzp.of_mul_right _).trans ?_
          exact Int.modEq_iff_dvd.mpr ⟨-u.toInt, by ring⟩
        · have hum : u.toInt ≡ (r.toInt - y.toInt) * c.toInt [ZMOD m.toInt] := by
            rw [hval]
            split
            next hdvd =>
              have hself : m.toInt ≡ 0 [ZMOD m.toInt] := Int.modEq_zero_iff_dvd.mpr dvd_rfl
              exact hself.trans (Int.modEq_zero_iff_dvd.mpr hdvd.2).symm
            next => exact Int.mod_modEq _ _
          have hone := hc.mul_left (r.toInt - y.toInt)
          rw [mul_one] at hone
          calc z.toInt ≡ y.toInt + u.toInt * p.toInt [ZMOD m.toInt] := hzp.of_mul_left _
            _ ≡ y.toInt + (r.toInt - y.toInt) * c.toInt * p.toInt [ZMOD m.toInt] :=
                (hum.mul_right _).add_left _
            _ = y.toInt + (r.toInt - y.toInt) * (c.toInt * p.toInt) := by ring
            _ ≡ y.toInt + (r.toInt - y.toInt) [ZMOD m.toInt] := hone.add_left _
            _ = r.toInt := by ring

/-- The loop of `crtout`, from residues of `x` or from those of a zero with a negative sign. -/
theorem garner_spec (x : ℕ) {ms rs : List Mpint} {neg : Prop}
    (hrs : List.Forall₂ (fun m r : Mpint => r.toInt ≡ x [ZMOD m.toInt] ∧
      (r.toInt = (x : ℤ) % m.toInt ∨ neg)) ms rs) (cs : List Mpint) (u y : Mpint) {p : ℕ} {s : Bool}
    (hp : 0 < p) (hu : u.toInt = p) (hms : ∀ m ∈ ms, 1 < m.toInt) (hinv : Inverses p ms cs)
    (hy : y.toInt = x % p + if s then (p : ℤ) else 0) (hneg : neg → x = 0 ∧ s = true) :
    ∃ z, garner ms cs (u :: products u ms) rs y = some z ∧
      z.toInt = (x % (p * (ms.map fun m => val m.p).prod) : ℕ) +
        if slips x p (ms.map fun m => val m.p) s
          then ((p * (ms.map fun m => val m.p).prod : ℕ) : ℤ) else 0 := by
  induction hrs generalizing cs u y p s with
  | nil =>
    refine ⟨y, garner_nil _ _ _ y, ?_⟩
    rw [hy]
    simp [slips]
  | @cons m r ms rs hr hrs ih =>
    rw [List.forall_mem_cons] at hms
    cases cs with
    | nil => simp [Inverses] at hinv
    | cons c cs =>
      obtain ⟨hcpos, hc, hinv⟩ := hinv
      have hm : m.toInt = val m.p := toInt_of_nonneg (by omega)
      obtain ⟨w, hw, hval⟩ := garner_cons (m := m) (by omega) c u r y ms cs (products u (m :: ms)) rs
      rw [hm] at hval hc hinv hr
      have hstep := garner_step hp (by omega) hcpos hc hr.1 (hr.2.imp id fun h =>
        ⟨(hneg h).2, by simp [(hneg h).1]⟩) hy hval
      have hprod : (mpmul u m).toInt = (p * val m.p : ℕ) := by
        rw [mpmul_toInt, hu, hm, Nat.cast_mul]
      obtain ⟨z, hz, hzval⟩ := ih cs (mpmul u m) (mpadd y (mpmul w u))
        (Nat.mul_pos hp (by omega)) hprod hms.2 (by rwa [Nat.cast_mul]) (by
          rw [mpadd_toInt, mpmul_toInt, hu, hstep, Int.natCast_mod]) (fun h => by simp [hneg h])
      refine ⟨z, by rw [hw, products, hz], ?_⟩
      rw [hzval, List.map_cons, List.prod_cons, slips, Nat.mul_assoc]

end Garner

section Residues

variable {low : UInt32} {x m : Mpint}

theorem residue_fresh (hx : 0 ≤ x.toInt) (hm : 1 < m.toInt) (h : ¬ Stale low x m) :
    ∃ r, mpmod low x (.plain m) = some r ∧
      r.toInt = (val x.p : ℤ) % m.toInt + if x.sign = -1 then m.toInt else 0 := by
  obtain ⟨r, k, hmod, hk, hr⟩ := mpmod_plain (x := x) low (show 0 < m.toInt by omega)
  have hkx : k = val x.p % val m.p := by
    rw [hk]
    by_cases hzero : x.p = [] ∧ m.SmallPower
    · rw [if_pos hzero, hzero.1, val_nil, Nat.zero_mod]
      by_contra hne
      exact h ⟨hzero.1, hzero.2, hne⟩
    · rw [if_neg hzero]
  have hmv : m.toInt = val m.p := toInt_of_nonneg (by omega)
  refine ⟨r, hmod, ?_⟩
  rw [hr, hkx]
  by_cases hs : x.sign = -1
  · rw [toInt_of_neg hs] at hx
    have hzero : val x.p = 0 := by omega
    simp [hs, hzero]
  · rw [if_neg hs, if_neg hs, hmv]
    simp

theorem residue_stale (hm : 1 < m.toInt) (h : Stale low x m) :
    ∃ r, mpmod low x (.plain m) = some r ∧ ¬ r.toInt ≡ x.toInt [ZMOD m.toInt] := by
  obtain ⟨r, k, hmod, hk, hr⟩ := mpmod_plain (x := x) low (show 0 < m.toInt by omega)
  rw [if_pos ⟨h.1, h.2.1⟩] at hk
  have hmv : m.toInt = val m.p := toInt_of_nonneg (by omega)
  have hlt : k < val m.p := hk ▸ Nat.mod_lt _ (by omega)
  have hpos : 0 < k := Nat.pos_of_ne_zero (hk ▸ h.2.2)
  refine ⟨r, hmod, fun hcong => ?_⟩
  rw [toInt_eq_zero.mpr h.1, Int.modEq_zero_iff_dvd] at hcong
  have hle := Int.le_of_dvd (by rw [hr]; split <;> omega) hcong
  rw [hr] at hle
  split at hle <;> omega

/-- `crtin` on moduli each of which has a residue. -/
theorem crtin_residues {R : Mpint → Mpint → Prop} (crt : CRTpre)
    (h : ∀ m ∈ crt.m, ∃ r, mpmod low x (.plain m) = some r ∧ R m r) :
    ∃ res, crtin low crt x = some res ∧ List.Forall₂ R crt.m res := by
  rw [crtin]
  generalize crt.m = ms at h
  induction ms with
  | nil => exact ⟨[], rfl, .nil⟩
  | cons m ms ih =>
    rw [List.forall_mem_cons] at h
    obtain ⟨r, hr, hR⟩ := h.1
    obtain ⟨res, hres, hall⟩ := ih h.2
    refine ⟨r :: res, ?_, .cons hR hall⟩
    rw [List.mapM_cons, hr, hres]
    rfl

theorem forall₂_of_mem {R S : Mpint → Mpint → Prop} {ms rs : List Mpint} (hR : List.Forall₂ R ms rs)
    (hS : List.Forall₂ S ms rs) {m : Mpint} (hm : m ∈ ms) : ∃ r, R m r ∧ S m r := by
  induction hR with
  | nil => cases hm
  | cons hr hrs ih =>
    cases hS with
    | cons hs hss =>
      rcases List.mem_cons.mp hm with heq | hmem
      · exact ⟨_, heq ▸ hr, heq ▸ hs⟩
      · exact ih hss hmem

end Residues

section Round

variable {m x : Mpint} {ms : List Mpint}

/-- `crtpre` on coprime moduli, in the form the loop of `crtout` takes. -/
theorem crtpre_spec (hms : ∀ n ∈ m :: ms, 1 < n.toInt)
    (hcop : (m :: ms).Pairwise fun a b => Int.gcd a.toInt b.toInt = 1) :
    ∃ cs, crtpre (m :: ms) = some ⟨m :: ms, cs, mpmul mpone m :: products (mpmul mpone m) ms⟩ ∧
      Inverses m.toInt ms cs := by
  obtain ⟨cs, hcs, hinv⟩ := coefficients_inverses ms [m] (by simpa using hms) (by simpa using hcop)
  refine ⟨cs, ?_, by simpa using hinv⟩
  rw [crtpre, show (m :: ms).take 1 = [m] from rfl, show (m :: ms).drop 1 = ms from rfl, hcs]
  rfl

theorem prod_toInt (hms : ∀ n ∈ ms, 1 < n.toInt) :
    (ms.map Mpint.toInt).prod = ((ms.map fun n => val n.p).prod : ℕ) := by
  induction ms with
  | nil => rfl
  | cons n ms ih =>
    rw [List.forall_mem_cons] at hms
    rw [List.map_cons, List.map_cons, List.prod_cons, List.prod_cons, Nat.cast_mul, ← ih hms.2,
      toInt_of_nonneg (by omega)]

/-- The way through `crtin` and `crtout`, if no residue is read from a digit that is not there. -/
theorem crt_fresh (low : UInt32) (hms : ∀ n ∈ m :: ms, 1 < n.toInt)
    (hcop : (m :: ms).Pairwise fun a b => Int.gcd a.toInt b.toInt = 1) (hx : 0 ≤ x.toInt)
    (hlt : x.toInt < ((m :: ms).map Mpint.toInt).prod) (hfresh : ∀ n ∈ m :: ms, ¬ Stale low x n) :
    ∃ crt res y, crtpre (m :: ms) = some crt ∧ crtin low crt x = some res ∧
      crtout crt res = some y ∧
      y.toInt = x.toInt + if slips (val x.p) (val m.p) (ms.map fun n => val n.p) (x.sign = -1)
        then ((m :: ms).map Mpint.toInt).prod else 0 := by
  obtain ⟨cs, hpre, hinv⟩ := crtpre_spec hms hcop
  have hxv := toInt_of_nonneg hx
  obtain ⟨res, hin, hres⟩ := crtin_residues
    ⟨m :: ms, cs, mpmul mpone m :: products (mpmul mpone m) ms⟩
    fun n hn => residue_fresh hx (hms n hn) (hfresh n hn)
  rw [prod_toInt hms, List.map_cons, List.prod_cons] at hlt ⊢
  rw [List.forall_mem_cons] at hms
  have hmv : m.toInt = val m.p := toInt_of_nonneg (by omega)
  cases hres with
  | @cons _ r _ rs hr hrs =>
    have hzero : x.sign = -1 → val x.p = 0 := fun hs => by
      rw [toInt_of_neg hs] at hx
      omega
    have hone : (mpmul mpone m).toInt = val m.p := by
      rw [mpmul_toInt, show mpone.toInt = 1 from rfl, one_mul, hmv]
    have hrest : List.Forall₂ (fun n r : Mpint => r.toInt ≡ val x.p [ZMOD n.toInt] ∧
        (r.toInt = (val x.p : ℤ) % n.toInt ∨ x.sign = -1)) ms rs := by
      refine hrs.imp fun n r hr => ?_
      rw [hr]
      by_cases hs : x.sign = -1
      · rw [if_pos hs]
        exact ⟨(Int.add_emod_right _ _).trans (Int.emod_emod _ _), .inr hs⟩
      · rw [if_neg hs, add_zero]
        exact ⟨Int.mod_modEq _ _, .inl rfl⟩
    obtain ⟨z, hz, hval⟩ := garner_spec (val x.p) hrest cs (mpmul mpone m) r (s := x.sign = -1)
      (by omega) hone hms.2 (hmv ▸ hinv) (by rw [hr, hmv]; simp) fun hs => ⟨hzero hs, by simp [hs]⟩
    refine ⟨_, r :: rs, z, hpre, hin, hz, ?_⟩
    rw [hxv] at hlt ⊢
    rw [hval, Nat.mod_eq_of_lt (by exact_mod_cast hlt)]

/-- A residue read from a digit that is not there is the residue of no zero. -/
theorem crt_stale (low : UInt32) (hms : ∀ n ∈ m :: ms, 1 < n.toInt)
    (hcop : (m :: ms).Pairwise fun a b => Int.gcd a.toInt b.toInt = 1) {n : Mpint} (hn : n ∈ m :: ms)
    (hstale : Stale low x n) :
    ∃ crt res y, crtpre (m :: ms) = some crt ∧ crtin low crt x = some res ∧
      crtout crt res = some y ∧ y.toInt ≠ x.toInt := by
  obtain ⟨cs, hpre, hinv⟩ := crtpre_spec hms hcop
  obtain ⟨res, hin, hres⟩ := crtin_residues
    ⟨m :: ms, cs, mpmul mpone m :: products (mpmul mpone m) ms⟩ fun a ha => by
      obtain ⟨r, k, hmod, -⟩ := mpmod_plain (x := x) low (show 0 < a.toInt by
        have := hms a ha
        omega)
      exact ⟨r, hmod, hmod⟩
  have hone : (mpmul mpone m).toInt = m.toInt := by
    rw [mpmul_toInt, show mpone.toInt = 1 from rfl, one_mul]
  cases hres with
  | @cons _ r _ rs hr hrs =>
    obtain ⟨z, hz, hzr, hzrs⟩ := garner_congr ms cs rs (mpmul mpone m) r
      (List.forall_mem_cons.mp hms).2 (hone ▸ hinv) hrs.length_eq
    rw [hone] at hzr
    refine ⟨_, r :: rs, z, hpre, hin, hz, fun heq => ?_⟩
    obtain ⟨a, hmod, hcong⟩ := forall₂_of_mem (.cons hr hrs)
      (.cons (R := fun n r : Mpint => z.toInt ≡ r.toInt [ZMOD n.toInt]) hzr hzrs) hn
    obtain ⟨b, hmod', hne⟩ := residue_stale (hms n hn) hstale
    rw [Option.some.inj (hmod.symm.trans hmod'), heq] at hcong
    exact hne hcong.symm

end Round

/-- A number comes back from its residues exactly if its first digit is there to be read and the last
step of `crtout` does not slip. -/
theorem crt_iff (low : UInt32) {ms : List Mpint} {x : Mpint} (hne : ms ≠ [])
    (hms : ∀ m ∈ ms, 1 < m.toInt) (hcop : ms.Pairwise fun a b => Int.gcd a.toInt b.toInt = 1)
    (hx : 0 ≤ x.toInt) (hlt : x.toInt < (ms.map Mpint.toInt).prod) :
    (∃ crt res y, crtpre ms = some crt ∧ crtin low crt x = some res ∧ crtout crt res = some y ∧
      y.toInt = x.toInt) ↔ (∀ m ∈ ms, ¬ Stale low x m) ∧ ¬ Slips x ms := by
  cases ms with
  | nil => exact absurd rfl hne
  | cons m ms =>
    -- the three calls are functions, so one run decides both directions
    have hrun : ∀ {y : Mpint} {crt : CRTpre} {res : List Mpint}, crtpre (m :: ms) = some crt →
        crtin low crt x = some res → crtout crt res = some y →
        ((∃ crt res y, crtpre (m :: ms) = some crt ∧ crtin low crt x = some res ∧
          crtout crt res = some y ∧ y.toInt = x.toInt) ↔ y.toInt = x.toInt) := by
      intro y crt res hpre hin hout
      constructor
      · rintro ⟨crt', res', y', hpre', hin', hout', heq⟩
        cases hpre.symm.trans hpre'
        cases hin.symm.trans hin'
        cases hout.symm.trans hout'
        exact heq
      · intro heq
        exact ⟨crt, res, y, hpre, hin, hout, heq⟩
    by_cases hfresh : ∀ n ∈ m :: ms, ¬ Stale low x n
    · obtain ⟨crt, res, y, hpre, hin, hout, hval⟩ := crt_fresh low hms hcop hx hlt hfresh
      rw [hrun hpre hin hout, and_iff_right hfresh, hval, Slips, add_eq_left]
      constructor
      · intro hzero hslip
        rw [if_pos hslip] at hzero
        omega
      · intro hslip
        rw [if_neg hslip]
    · rw [iff_false_right fun h => hfresh h.1]
      obtain ⟨n, hn, hstale⟩ : ∃ n ∈ m :: ms, Stale low x n := by
        by_contra hall
        exact hfresh fun n hn hstale => hall ⟨n, hn, hstale⟩
      obtain ⟨crt, res, y, hpre, hin, hout, hval⟩ := crt_stale low hms hcop hn hstale
      rw [hrun hpre hin hout]
      exact hval

/-- The number 10 with the moduli 7 and 3. -/
theorem crt_iff_ten :
    (∃ crt res y, crtpre [⟨1, [7], by decide⟩, ⟨1, [3], by decide⟩] = some crt ∧
      crtin 0 crt ⟨1, [10], by decide⟩ = some res ∧ crtout crt res = some y ∧ y.toInt = 10) ↔
        (∀ m ∈ [⟨1, [7], by decide⟩, ⟨1, [3], by decide⟩], ¬ Stale 0 ⟨1, [10], by decide⟩ m) ∧
          ¬ Slips ⟨1, [10], by decide⟩ [⟨1, [7], by decide⟩, ⟨1, [3], by decide⟩] :=
  crt_iff 0 (x := ⟨1, [10], by decide⟩) (by decide) (by decide) (by decide) (by decide) (by decide)

/-- The number 5 with the moduli 7 and 3 comes back as 26, a product of the moduli too high. -/
theorem crt_slips :
    Mpint.toInt ⟨1, [5], by decide⟩ = 5 ∧
      (crtpre [⟨1, [7], by decide⟩, ⟨1, [3], by decide⟩]).bind (fun crt =>
        (crtin 0 crt ⟨1, [5], by decide⟩).bind (crtout crt)) = some ⟨1, [26], by decide⟩ ∧
      Mpint.toInt ⟨1, [26], by decide⟩ = 26 := by
  decide +kernel

end Petele.Mp
