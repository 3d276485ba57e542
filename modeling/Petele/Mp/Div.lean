import Petele.Mp.Mpint

namespace Petele.Mp

open Lib Limbs

/-- The loop of `mpdigdiv`, with `i` bits to come: the bits of the quotient so far and the low
digit that is left. -/
def digdivloop (divisor : UInt32) : ℕ → UInt32 → UInt32 → UInt32 → UInt32 → UInt32 × UInt32
  | 0, _, _, lo, q => (q, lo)
  | i + 1, x, hi, lo, q =>
    if hi = 0 then (q, lo)
    else
      let x := x >>> 1
      let y := divisor <<< UInt32.ofNat i
      if hi < x ∨ x = hi ∧ lo < y then digdivloop divisor i x hi lo q
      else
        let hi := if lo < y then hi - 1 else hi
        digdivloop divisor i x (hi - x) (lo - y) (q ||| 1 <<< UInt32.ofNat i)

/-- Two digits by one; the highest digit where the quotient does not fit. -/
def mpdigdiv (lo hi divisor : UInt32) : UInt32 :=
  if divisor ≤ hi ∨ divisor = 0 then 0xffffffff
  else
    let r := digdivloop divisor 32 divisor hi lo 0
    r.1 + r.2 / divisor

/-- Step D3a of `mpdiv`: the two top digits of the divisor and the three of the dividend. The loop
ends at a quotient of 0. -/
def trialloop (v u : Vec) : ℕ → UInt32 → UInt32
  | 0, qd => qd
  | fuel + 1, qd =>
    if 0 < mpveccmp (muladdloop qd v [0, 0] 0 0) u then trialloop v u fuel (qd - 1) else qd

/-- Steps D3 to D6: the quotient digit of the window `u`, a digit longer than `v`, and what is left
of it. The carry of the step that adds back goes beyond the window, to a digit not read again. -/
def divstep (v u : Vec) : UInt32 × Vec :=
  let n := v.length
  let qd := mpdigdiv (u.getD (n - 1) 0) (u.getD n 0) (v.getD (n - 1) 0)
  let qd := if 1 < n then trialloop (v.drop (n - 2)) (u.drop (n - 2)) qd.toNat qd else qd
  let r := mulsubloop qd v u 0 0
  if r.2 < 0 then (qd - 1, (addloop r.1 v 0).take (n + 1)) else (qd, r.1)

/-- The loop over the dividend: the digits to come, highest first, the window below them and the
quotient so far. -/
def divloop (v : Vec) : Vec → Vec → Vec → Vec × Vec
  | [], r, q => (q, r)
  | d :: ds, r, q =>
    let s := divstep v (d :: r)
    divloop v ds (s.2.take v.length) (s.1 :: q)

/-- The shift of step D1. -/
def normshift : ℕ → UInt32 → ℕ → ℕ
  | 0, _, s => s
  | fuel + 1, qd, s => if qd &&& 0x80000000 = 0 then normshift fuel (qd <<< 1) (s + 1) else s

/-- Steps D1 to D7 for magnitudes: the quotient and the remainder, which is shifted back. -/
def divdigits (dividend divisor : Mpint) : Vec × Mpint :=
  let s := normshift 32 (divisor.p.getLastD 0) 0
  let u := (mpleft dividend s).p
  let v := (mpleft divisor s).p
  let u := if v.getLastD 0 ≤ u.getLastD 0 then u ++ [0] else u
  let k := u.length - v.length
  let r := divloop v (u.take k).reverse (u.drop k) []
  (r.1, mpright (mpnorm dividend.sign r.2) s)

def vtomp (v : ℤ) : Mpint :=
  let uv := v.natAbs
  mpnorm (if v < 0 then -1 else 1) [UInt32.ofNat uv, UInt32.ofNat (uv / 2 ^ 32)]

/-- The exponent of a power of two, as the loop of `mpdiv` counts it. -/
def lowbit (d : UInt32) : ℕ → ℕ → ℕ
  | 0, s => s
  | fuel + 1, s => if (d >>> UInt32.ofNat s) &&& 1 = 0 then lowbit d fuel (s + 1) else s

/-- The quotient and the remainder; nothing for a divisor of zero, at which `mpdiv` aborts. `low` is
what `dividend->p[0]` holds if the dividend has no digits, and `sign` the sign that the `mpint` for
the quotient had before. -/
def mpdiv (low : UInt32) (sign : ℤˣ) (dividend divisor : Mpint) : Option (Mpint × Mpint) :=
  match divisor.p with
  | [] => none
  | d :: rest =>
    if rest = [] ∧ d &&& (d - 1) = 0 then
      some (mpright dividend (lowbit d 32 0),
        vtomp (dividend.sign * ((dividend.p.headD low &&& (d - 1)).toNat : ℤ)))
    else if mpmagcmp dividend divisor < 0 then some (mpzero, dividend)
    else
      let r := divdigits dividend divisor
      let quotient := mpnorm sign r.1
      some (if dividend.sign ≠ divisor.sign then quotient.withSign (-1) else quotient,
        r.2.withSign dividend.sign)

section Digit

theorem digdivloop_spec (d : UInt32) {i : ℕ} (hi32 : i ≤ 32) (x hi lo q : UInt32)
    (hx : x.toNat = d.toNat / 2 ^ (32 - i)) (hlt : hi.toNat * 2 ^ 32 + lo.toNat < d.toNat * 2 ^ i)
    (hq : 2 ^ i ∣ q.toNat) :
    (digdivloop d i x hi lo q).1.toNat * d.toNat + (digdivloop d i x hi lo q).2.toNat =
      q.toNat * d.toNat + (hi.toNat * 2 ^ 32 + lo.toNat) := by
  induction i generalizing x hi lo q with
  | zero =>
    have hd := d.toNat_lt
    have hzero : hi.toNat = 0 := by omega
    rw [digdivloop, hzero]
    simp
  | succ i ih =>
    rw [digdivloop]
    by_cases hz : hi = 0
    · rw [if_pos hz, hz]
      simp
    · rw [if_neg hz]
      have hi' : i < 32 := by omega
      have hshr : (x >>> 1).toNat = d.toNat / 2 ^ (32 - i) := by
        rw [show (1 : UInt32) = UInt32.ofNat 1 from rfl, toNat_shr _ (by decide), hx,
          Nat.div_div_eq_div_mul, ← Nat.pow_add]
        congr 2
        omega
      have hy := toNat_shl d hi'
      -- the divisor shifted by `i` bits, in two digits
      have hpow : 2 ^ 32 = 2 ^ (32 - i) * 2 ^ i := by
        rw [← Nat.pow_add, Nat.sub_add_cancel hi'.le]
      have hshift : d.toNat * 2 ^ i = (x >>> 1).toNat * 2 ^ 32 + (d <<< UInt32.ofNat i).toNat := by
        have hdm := Nat.div_add_mod d.toNat (2 ^ (32 - i))
        rw [hshr, hy, hpow]
        calc d.toNat * 2 ^ i
            = (2 ^ (32 - i) * (d.toNat / 2 ^ (32 - i)) + d.toNat % 2 ^ (32 - i)) * 2 ^ i := by
              rw [hdm]
          _ = _ := by ring
      have htwice : d.toNat * 2 ^ (i + 1) = 2 * (d.toNat * 2 ^ i) := by
        rw [Nat.pow_succ]
        ring
      have hlo := lo.toNat_lt
      have hylt := (d <<< UInt32.ofNat i).toNat_lt
      have hhi := hi.toNat_lt
      dsimp only
      generalize x >>> 1 = x' at *
      generalize d <<< UInt32.ofNat i = y at *
      by_cases hless : hi < x' ∨ x' = hi ∧ lo < y
      · rw [if_pos hless]
        refine ih hi'.le _ _ _ _ hshr ?_ (dvd_trans (pow_dvd_pow 2 (Nat.le_succ i)) hq)
        simp only [UInt32.lt_iff_toNat_lt, ← UInt32.toNat_inj] at hless
        omega
      · rw [if_neg hless]
        have hge : x'.toNat < hi.toNat ∨ x'.toNat = hi.toNat ∧ y.toNat ≤ lo.toNat := by
          simp only [UInt32.lt_iff_toNat_lt, ← UInt32.toNat_inj, not_or, not_and] at hless
          omega
        -- what is left once the shifted divisor is taken off
        have hleft : ((if lo < y then hi - 1 else hi) - x').toNat * 2 ^ 32 + (lo - y).toNat +
            d.toNat * 2 ^ i = hi.toNat * 2 ^ 32 + lo.toNat := by
          rw [hshift]
          have hone : (1 : UInt32).toNat = 1 := rfl
          by_cases hborrow : lo < y
          · rw [if_pos hborrow]
            simp only [UInt32.lt_iff_toNat_lt] at hborrow
            simp only [UInt32.toNat_sub, hone]
            omega
          · rw [if_neg hborrow]
            simp only [UInt32.lt_iff_toNat_lt] at hborrow
            simp only [UInt32.toNat_sub]
            omega
        have hbit : (q ||| 1 <<< UInt32.ofNat i).toNat = q.toNat + 2 ^ i := by
          obtain ⟨k, hk⟩ := hq
          have hone : (1 <<< UInt32.ofNat i : UInt32).toNat = 2 ^ i := by
            rw [toNat_shl 1 hi', show (1 : UInt32).toNat = 1 from rfl,
              Nat.mod_eq_of_lt (Nat.one_lt_two_pow (by omega)), Nat.one_mul]
          rw [UInt32.toNat_or, hone, hk, Nat.mul_comm, ← Nat.shiftLeft_eq,
            ← Nat.shiftLeft_add_eq_or_of_lt (Nat.pow_lt_pow_right (by decide) (Nat.lt_succ_self i))]
        have hlt' : ((if lo < y then hi - 1 else hi) - x').toNat * 2 ^ 32 + (lo - y).toNat <
            d.toNat * 2 ^ i := by
          rw [htwice, ← hleft] at hlt
          exact lt_of_add_lt_add_right (hlt.trans_eq (Nat.two_mul _))
        have hdvd : 2 ^ i ∣ (q ||| 1 <<< UInt32.ofNat i).toNat := by
          rw [hbit]
          exact Nat.dvd_add (dvd_trans (pow_dvd_pow 2 (Nat.le_succ i)) hq) dvd_rfl
        rw [ih hi'.le _ _ _ _ hshr hlt' hdvd, hbit, ← hleft, Nat.add_mul]
        ring

theorem mpdigdiv_spec {lo hi d : UInt32} (h : hi.toNat < d.toNat) :
    (mpdigdiv lo hi d).toNat = (hi.toNat * 2 ^ 32 + lo.toNat) / d.toNat := by
  have hpos : 0 < d.toNat := by omega
  have hlo := lo.toNat_lt
  have hsum := digdivloop_spec d le_rfl d hi lo 0 (by simp) (by omega)
    (dvd_zero _)
  have hquot : (digdivloop d 32 d hi lo 0).1.toNat +
      (digdivloop d 32 d hi lo 0).2.toNat / d.toNat = (hi.toNat * 2 ^ 32 + lo.toNat) / d.toNat := by
    rw [UInt32.toNat_zero, Nat.zero_mul, Nat.zero_add] at hsum
    rw [← hsum, Nat.mul_comm, Nat.mul_add_div hpos]
  have hlt : (hi.toNat * 2 ^ 32 + lo.toNat) / d.toNat < 2 ^ 32 := by
    rw [Nat.div_lt_iff_lt_mul hpos]
    omega
  have hnot : ¬ (d ≤ hi ∨ d = 0) := by
    rw [UInt32.le_iff_toNat_le, ← UInt32.toNat_inj, UInt32.toNat_zero]
    omega
  rw [mpdigdiv, if_neg hnot]
  dsimp only
  rw [UInt32.toNat_add, UInt32.toNat_div, hquot, Nat.mod_eq_of_lt hlt]

end Digit

section Step

theorem toNat_pred {x : UInt32} (h : 0 < x.toNat) : (x - 1).toNat = x.toNat - 1 := by
  have hlt := x.toNat_lt
  rw [UInt32.toNat_sub, show (1 : UInt32).toNat = 1 from rfl]
  omega

theorem trialloop_spec {v u : Vec} (hv : v.length = 2) (fuel : ℕ) (qd : UInt32)
    (h : qd.toNat ≤ fuel) :
    (trialloop v u fuel qd).toNat * val v ≤ val u ∧
      ∀ s, s ≤ qd.toNat → s * val v ≤ val u → s ≤ (trialloop v u fuel qd).toNat := by
  induction fuel generalizing qd with
  | zero =>
    rw [trialloop, show qd.toNat = 0 by omega]
    exact ⟨by omega, fun s hs _ => hs⟩
  | succ fuel ih =>
    have hprod := muladdloop_eq qd v [0, 0] hv
    obtain ⟨hneg, hzero⟩ := mpveccmp_spec (muladdloop qd v [0, 0] 0 0) u
    rw [hprod, show val [0, 0] = 0 from rfl, Nat.zero_add] at hneg hzero
    rw [trialloop]
    split
    · rename_i hbig
      have hgt : val u < qd.toNat * val v := by omega
      have hpos : 0 < qd.toNat := by
        by_contra hnot
        rw [show qd.toNat = 0 by omega, Nat.zero_mul] at hgt
        omega
      have hpred := toNat_pred hpos
      obtain ⟨hle, hmax⟩ := ih (qd - 1) (by omega)
      refine ⟨hle, fun s hs hsu => hmax s ?_ hsu⟩
      have hne : s ≠ qd.toNat := fun heq => by
        rw [heq] at hsu
        omega
      omega
    · exact ⟨by omega, fun s hs _ => hs⟩

/-- A digit estimated from the top digits is at most the true one if the top digits allow it. -/
theorem top_digits {q u v c : ℕ} (h : q * v ≤ u) : q * (v / c) ≤ u / c :=
  (Nat.mul_div_le_mul_div_assoc q v c).trans (Nat.div_le_div_right h)

/-- An estimate that the three top digits allow is at most one too high. -/
theorem estimate_le {r u v c : ℕ} (hc : 0 < c) (hle : r * (v / c) ≤ u / c) (hrc : r * c ≤ v)
    (hv : 0 < v) : r ≤ u / v + 1 := by
  have hvc : v < (v / c + 1) * c := Nat.lt_mul_of_div_lt (Nat.lt_succ_self _) hc
  have huc : u / c * c ≤ u := Nat.div_mul_le_self u c
  have huv : u < (u / v + 1) * v := Nat.lt_mul_of_div_lt (Nat.lt_succ_self _) hv
  by_contra hnot
  have hbig : (u / v + 2) * v ≤ r * v := Nat.mul_le_mul_right v (by omega)
  have hrv : r * v ≤ r * ((v / c + 1) * c) := Nat.mul_le_mul_left r hvc.le
  have hsum : r * ((v / c + 1) * c) ≤ u / c * c + r * c := by
    calc r * ((v / c + 1) * c) = r * (v / c) * c + r * c := by ring
      _ ≤ u / c * c + r * c := Nat.add_le_add_right (Nat.mul_le_mul_right c hle) _
  have hexp : (u / v + 2) * v = (u / v + 1) * v + v := by ring
  omega

theorem getD_of_drop {u : Vec} {i : ℕ} {x : UInt32} {t : Vec} (h : u.drop i = x :: t) :
    u.getD i 0 = x := by
  rw [List.getD_eq_getElem?_getD, ← Nat.add_zero i, ← List.getElem?_drop, h]
  rfl

/-- Steps D4 to D6 mend an estimate that is right or one too high. -/
theorem mend_spec {v u : Vec} {qd : UInt32} (hlen : u.length = v.length + 1) (hv : 0 < val v)
    (hge : val u / val v ≤ qd.toNat) (hle : qd.toNat ≤ val u / val v + 1) :
    let r := mulsubloop qd v u 0 0
    let s := if r.2 < 0 then (qd - 1, (addloop r.1 v 0).take (v.length + 1)) else (qd, r.1)
    s.1.toNat = val u / val v ∧ s.2.length = v.length + 1 ∧ val s.2 = val u % val v := by
  obtain ⟨ds, sign, hsub, hds, hval⟩ := mpvecdigmulsub_spec qd hlen
  rw [mpvecdigmulsub, if_pos hlen, Option.some_inj] at hsub
  have hdm := Nat.div_add_mod (val u) (val v)
  have hmod := Nat.mod_lt (val u) hv
  have hlt := val_lt ds
  rw [hds] at hlt
  rw [Nat.mul_comm] at hdm
  rw [hsub]
  dsimp only
  rcases hval with ⟨rfl, hval⟩ | ⟨rfl, hval⟩
  · -- the estimate was right
    have hright : qd.toNat = val u / val v := by
      by_contra hne
      rw [show qd.toNat = val u / val v + 1 by omega, Nat.add_mul] at hval
      omega
    rw [if_neg (by decide)]
    rw [hright] at hval
    exact ⟨hright, hds, by dsimp only; omega⟩
  · have hhigh : qd.toNat = val u / val v + 1 := by
      by_contra hne
      rw [show qd.toNat = val u / val v by omega] at hval
      omega
    have hvlt := val_lt v
    have hpow : (2 ^ 32) ^ v.length ≤ (2 ^ 32) ^ (v.length + 1) :=
      Nat.pow_le_pow_right (by decide) (Nat.le_succ _)
    rw [hhigh, Nat.add_mul, Nat.one_mul] at hval
    rw [if_pos (by decide)]
    refine ⟨?_, ?_, ?_⟩
    · rw [toNat_pred (hhigh ▸ Nat.succ_pos _), hhigh, Nat.add_sub_cancel]
    · rw [List.length_take, addloop_length, hds]
      omega
    · rw [val_take, addloop_val _ _ _ (by omega), UInt32.toNat_zero, Nat.add_zero,
        show val ds + val v = val u % val v + (2 ^ 32) ^ (v.length + 1) by omega,
        Nat.add_mod_right, Nat.mod_eq_of_lt (by omega)]

/-- The digit of `mpdigdiv` is not below the true one. -/
theorem mpdigdiv_ge {lo hi d : UInt32} {q : ℕ} (hq : q < 2 ^ 32)
    (h : q * d.toNat ≤ hi.toNat * 2 ^ 32 + lo.toNat) :
    q ≤ (mpdigdiv lo hi d).toNat := by
  by_cases hlt : hi.toNat < d.toNat
  · rw [mpdigdiv_spec hlt]
    exact (Nat.le_div_iff_mul_le (by omega)).mpr h
  · rw [mpdigdiv, if_pos (.inl (UInt32.le_iff_toNat_le.mpr (by omega)))]
    exact Nat.le_of_lt_succ hq

/-- Step D3: the digit that is tried first. -/
def estimate (v u : Vec) : UInt32 :=
  let n := v.length
  let qd := mpdigdiv (u.getD (n - 1) 0) (u.getD n 0) (v.getD (n - 1) 0)
  if 1 < n then trialloop (v.drop (n - 2)) (u.drop (n - 2)) qd.toNat qd else qd

theorem divstep_eq (v u : Vec) :
    divstep v u =
      let r := mulsubloop (estimate v u) v u 0 0
      if r.2 < 0 then (estimate v u - 1, (addloop r.1 v 0).take (v.length + 1)) else (estimate v u, r.1) := rfl

/-- The estimate is right or one too high. -/
theorem estimate_spec {v u : Vec} (hlen : u.length = v.length + 1)
    (htop : v.getD (v.length - 1) 0 ≠ 0) (hlt : val u < 2 ^ 32 * val v) :
    0 < val v ∧ val u / val v ≤ (estimate v u).toNat ∧ (estimate v u).toNat ≤ val u / val v + 1 := by
  have hne : 0 < v.length := by
    by_contra hnot
    rw [List.eq_nil_of_length_eq_zero (show v.length = 0 by omega)] at htop
    exact htop rfl
  obtain ⟨d, hd⟩ : ∃ d, v.drop (v.length - 1) = [d] :=
    List.length_eq_one_iff.mp (by rw [List.length_drop]; omega)
  obtain ⟨lo, hi, hu⟩ : ∃ lo hi, u.drop (v.length - 1) = [lo, hi] :=
    List.length_eq_two.mp (by rw [List.length_drop]; omega)
  have hhi : u.drop v.length = [hi] := by
    have hdrop := congrArg (List.drop 1) hu
    rw [List.drop_drop, show v.length - 1 + 1 = v.length by omega] at hdrop
    exact hdrop
  rw [getD_of_drop hd] at htop
  have hval : val v / (2 ^ 32) ^ (v.length - 1) = d.toNat := by
    rw [← val_drop, hd, val_singleton]
  have hvalu : val u / (2 ^ 32) ^ (v.length - 1) = hi.toNat * 2 ^ 32 + lo.toNat := by
    rw [← val_drop, hu, val_cons, val_singleton]
    ring
  have hpos : 0 < d.toNat := Nat.pos_of_ne_zero fun hzero => htop (UInt32.toNat_inj.mp hzero)
  have hvge : (2 ^ 32) ^ (v.length - 1) ≤ val v := by
    refine le_trans ?_ (Nat.div_mul_le_self (val v) ((2 ^ 32) ^ (v.length - 1)))
    rw [hval]
    exact Nat.le_mul_of_pos_left _ hpos
  have hv : 0 < val v := lt_of_lt_of_le (Nat.pow_pos (by decide)) hvge
  have hq : val u / val v < 2 ^ 32 := (Nat.div_lt_iff_lt_mul hv).mpr hlt
  have hqv : val u / val v * val v ≤ val u := Nat.div_mul_le_self _ _
  have hfirst : val u / val v ≤ (mpdigdiv lo hi d).toNat := by
    refine mpdigdiv_ge hq ?_
    rw [← hval, ← hvalu]
    exact top_digits hqv
  unfold estimate
  dsimp only
  rw [getD_of_drop hd, getD_of_drop hu, getD_of_drop hhi]
  refine ⟨hv, ?_⟩
  split
  · rename_i hlong
    have htwo : (v.drop (v.length - 2)).length = 2 := by
      rw [List.length_drop]
      omega
    obtain ⟨hle, hmax⟩ := trialloop_spec (u := u.drop (v.length - 2)) htwo _ (mpdigdiv lo hi d) le_rfl
    rw [val_drop, val_drop] at hle hmax
    refine ⟨hmax _ hfirst (top_digits hqv), ?_⟩
    refine estimate_le (Nat.pow_pos (by decide)) hle ?_ hv
    refine le_trans ?_ hvge
    rw [show v.length - 1 = v.length - 2 + 1 by omega, radix_succ]
    exact Nat.mul_le_mul_right _ (UInt32.toNat_lt _).le
  · -- a divisor of one digit, which `mpdigdiv` divides by exactly
    rename_i hshort
    have hone : v.length - 1 = 0 := by omega
    rw [hone, Nat.pow_zero, Nat.div_one] at hval hvalu
    rw [hval, hvalu] at hlt
    have hlo := lo.toNat_lt
    have hexact := @mpdigdiv_spec lo hi d (by omega)
    rw [← hvalu, ← hval] at hexact
    exact ⟨hfirst, by omega⟩

theorem divstep_spec {v u : Vec} (hlen : u.length = v.length + 1)
    (htop : v.getD (v.length - 1) 0 ≠ 0) (hlt : val u < 2 ^ 32 * val v) :
    (divstep v u).1.toNat = val u / val v ∧ (divstep v u).2.length = v.length + 1 ∧
      val (divstep v u).2 = val u % val v := by
  obtain ⟨hv, hge, hle⟩ := estimate_spec hlen htop hlt
  rw [divstep_eq]
  exact mend_spec hlen hv hge hle

end Step

section Long

variable {v : Vec}

theorem divloop_spec (htop : v.getD (v.length - 1) 0 ≠ 0) (ds r q : Vec) (hlen : r.length = v.length)
    (hlt : val r < val v) :
    val (divloop v ds r q).1 = val q * (2 ^ 32) ^ ds.length +
        (val r * (2 ^ 32) ^ ds.length + val ds.reverse) / val v ∧
      val (divloop v ds r q).2 = (val r * (2 ^ 32) ^ ds.length + val ds.reverse) % val v := by
  induction ds generalizing r q with
  | nil =>
    simp [divloop, Nat.div_eq_of_lt hlt, Nat.mod_eq_of_lt hlt]
  | cons d ds ih =>
    have hd := d.toNat_lt
    obtain ⟨hdig, hslen, hsval⟩ := divstep_spec (v := v) (u := d :: r) (by simp [hlen]) htop (by
      rw [val_cons]
      omega)
    have hv : 0 < val v := by omega
    have hvlt := val_lt v
    have hmod := Nat.mod_lt (val (d :: r)) hv
    have hwin : val ((divstep v (d :: r)).2.take v.length) = val (d :: r) % val v := by
      rw [val_take, hsval, Nat.mod_eq_of_lt (by omega)]
    obtain ⟨hq, hr⟩ := ih ((divstep v (d :: r)).2.take v.length) ((divstep v (d :: r)).1 :: q)
      (by rw [List.length_take, hslen]; omega) (by omega)
    have hdm := Nat.div_add_mod (val (d :: r)) (val v)
    -- the digits seen so far are the quotient times the divisor and the window
    have hsum : val r * (2 ^ 32) ^ (d :: ds).length + val (d :: ds).reverse =
        val (d :: r) % val v * (2 ^ 32) ^ ds.length + val ds.reverse +
          val v * (val (d :: r) / val v * (2 ^ 32) ^ ds.length) := by
      rw [List.reverse_cons, val_append, val_singleton, List.length_reverse, List.length_cons,
        radix_succ]
      calc val r * (2 ^ 32 * (2 ^ 32) ^ ds.length) +
            (val ds.reverse + (2 ^ 32) ^ ds.length * d.toNat)
          = val (d :: r) * (2 ^ 32) ^ ds.length + val ds.reverse := by
            rw [val_cons]
            ring
        _ = (val v * (val (d :: r) / val v) + val (d :: r) % val v) * (2 ^ 32) ^ ds.length +
              val ds.reverse := by rw [hdm]
        _ = _ := by ring
    rw [divloop]
    rw [hsum, Nat.add_mul_div_left _ _ hv, Nat.add_mul_mod_self_left, hq, hr, hwin, val_cons, hdig,
      List.length_cons, radix_succ]
    refine ⟨?_, rfl⟩
    ring

theorem append_lt {w v : Vec} {x d : UInt32} (hlen : w.length = v.length)
    (h : x.toNat < d.toNat) : val (w ++ [x]) < val (v ++ [d]) := by
  have hw := val_lt w
  have hmul := Nat.mul_le_mul_left ((2 ^ 32) ^ v.length) h
  rw [Nat.mul_succ] at hmul
  rw [val_append, val_append, val_singleton, val_singleton, hlen]
  rw [hlen] at hw
  omega

/-- Step D1a: the digits of the dividend from which the loop starts, with a top digit that is less than
that of the divisor. -/
def widen (v u : Vec) : Vec := if v.getLastD 0 ≤ u.getLastD 0 then u ++ [0] else u

theorem widen_spec {v u : Vec} (hnorm : v.getLast? ≠ some 0) (hpos : 0 < val v) (hle : val v ≤ val u) :
    v.getD (v.length - 1) 0 ≠ 0 ∧ v.length < (widen v u).length ∧ val (widen v u) = val u ∧
      val ((widen v u).drop ((widen v u).length - v.length)) < val v := by
  obtain ⟨vs, d, rfl⟩ := List.eq_nil_or_concat v |>.resolve_left fun hnil => by
    rw [hnil, val_nil] at hpos
    omega
  rw [List.concat_eq_append] at *
  obtain ⟨us, c, rfl⟩ := List.eq_nil_or_concat u |>.resolve_left fun hnil => by
    rw [hnil, val_nil] at hle
    omega
  rw [List.concat_eq_append] at *
  have hd : d ≠ 0 := fun hzero => by
    rw [List.getLast?_concat, hzero] at hnorm
    exact hnorm rfl
  have hdpos : 0 < d.toNat := Nat.pos_of_ne_zero fun hzero => hd (UInt32.toNat_inj.mp hzero)
  have hlen : vs.length ≤ us.length := by
    have hlow : (2 ^ 32) ^ vs.length ≤ val (vs ++ [d]) := by
      have hmul := Nat.mul_le_mul_left ((2 ^ 32) ^ vs.length) hdpos
      rw [val_append, val_singleton]
      omega
    have hlt : (2 ^ 32) ^ vs.length < (2 ^ 32) ^ (us ++ [c]).length := (hlow.trans hle).trans_lt (val_lt _)
    rw [Nat.pow_lt_pow_iff_right (by decide), List.length_append, List.length_singleton] at hlt
    omega
  obtain ⟨ws, x, hw, hx, hwlen, hval⟩ : ∃ ws x, widen (vs ++ [d]) (us ++ [c]) = ws ++ [x] ∧
      x.toNat < d.toNat ∧ vs.length ≤ ws.length ∧ val (ws ++ [x]) = val (us ++ [c]) := by
    rw [widen, List.getLastD_concat, List.getLastD_concat]
    by_cases hge : d ≤ c
    · rw [if_pos hge]
      refine ⟨us ++ [c], 0, rfl, hdpos, by rw [List.length_append]; omega, ?_⟩
      rw [val_append (us ++ [c]), val_singleton, UInt32.toNat_zero, Nat.mul_zero, Nat.add_zero]
    · rw [if_neg hge]
      rw [UInt32.le_iff_toNat_le] at hge
      exact ⟨us, c, rfl, by omega, hlen, rfl⟩
  have hk : (ws ++ [x]).length - (vs ++ [d]).length = ws.length - vs.length := by
    simp only [List.length_append, List.length_singleton]
    omega
  have hdrop : (ws ++ [x]).drop (ws.length - vs.length) = ws.drop (ws.length - vs.length) ++ [x] :=
    List.drop_append_of_le_length (by omega)
  have hwin : val ((ws ++ [x]).drop (ws.length - vs.length)) < val (vs ++ [d]) := by
    rw [hdrop]
    exact append_lt (by rw [List.length_drop]; omega) hx
  rw [hw, hk]
  refine ⟨?_, ?_, hval, hwin⟩
  · rw [List.length_append, List.length_singleton, Nat.add_sub_cancel, getD_of_drop (@List.drop_left _ vs [d])]
    exact hd
  · -- else the whole dividend were less than the divisor
    by_contra hnot
    simp only [List.length_append, List.length_singleton] at hnot
    rw [show ws.length - vs.length = 0 by omega, List.drop_zero, hval] at hwin
    omega

/-- The loop from its start. -/
theorem divloop_widen {v u : Vec} (hnorm : v.getLast? ≠ some 0) (hpos : 0 < val v) (hle : val v ≤ val u) :
    let w := widen v u
    let r := divloop v (w.take (w.length - v.length)).reverse (w.drop (w.length - v.length)) []
    val r.1 = val u / val v ∧ val r.2 = val u % val v := by
  obtain ⟨htop, hlen, hval, hlt⟩ := widen_spec hnorm hpos hle
  dsimp only
  generalize widen v u = w at *
  obtain ⟨hq, hr⟩ := divloop_spec htop (w.take (w.length - v.length)).reverse (w.drop (w.length - v.length)) []
    (by rw [List.length_drop]; omega) hlt
  have hsplit := val_split w (w.length - v.length)
  have htake : (w.take (w.length - v.length)).length = w.length - v.length := by
    rw [List.length_take]
    omega
  rw [List.reverse_reverse, List.length_reverse, htake, Nat.mul_comm (val (List.drop _ _)),
    Nat.add_comm ((2 ^ 32) ^ _ * _), ← hsplit, hval] at hq hr
  rw [hq, hr, val_nil, Nat.zero_mul, Nat.zero_add]
  exact ⟨rfl, rfl⟩

theorem divdigits_spec {a b : Mpint} (hb : b.p ≠ []) (hle : val b.p ≤ val a.p) :
    val (divdigits a b).1 = val a.p / val b.p ∧ val (divdigits a b).2.p = val a.p % val b.p := by
  unfold divdigits
  dsimp only
  generalize normshift 32 (b.p.getLastD 0) 0 = s
  have hs : 0 < 2 ^ s := Nat.pow_pos (by decide)
  have hpos : 0 < val b.p := Nat.pos_of_ne_zero (mt val_eq_zero.mp hb)
  have hvpos : 0 < val (mpleft b s).p := by
    rw [mpleft_val]
    exact Nat.mul_pos hpos hs
  have huv : val (mpleft b s).p ≤ val (mpleft a s).p := by
    rw [mpleft_val, mpleft_val]
    exact Nat.mul_le_mul_right _ hle
  obtain ⟨hq, hr⟩ := divloop_widen (mpleft b s).norm hvpos huv
  rw [mpleft_val, mpleft_val] at hq hr
  rw [Nat.mul_div_mul_right _ _ hs] at hq
  rw [Nat.mul_mod_mul_right] at hr
  refine ⟨hq, ?_⟩
  rw [mpright_val, mpnorm_p, val_strip]
  exact (congrArg (· / 2 ^ s) hr).trans (Nat.mul_div_cancel _ hs)

end Long

section Division

/-- The divisors that `mpdiv` shifts by. -/
def Mpint.SmallPower (b : Mpint) : Prop := b.top = 1 ∧ b.p.headD 0 &&& (b.p.headD 0 - 1) = 0

instance (b : Mpint) : Decidable b.SmallPower := inferInstanceAs (Decidable (_ ∧ _))

theorem vtomp_toInt {v : ℤ} (h : v.natAbs < 2 ^ 64) : (vtomp v).toInt = v := by
  have hval : val [UInt32.ofNat v.natAbs, UInt32.ofNat (v.natAbs / 2 ^ 32)] = v.natAbs := by
    rw [val_cons, val_singleton, UInt32.toNat_ofNat', UInt32.toNat_ofNat']
    omega
  unfold vtomp
  dsimp only
  rw [mpnorm_toInt, hval]
  split
  · rw [Units.val_neg, Units.val_one]
    omega
  · rw [Units.val_one]
    omega

theorem exists_power {d : UInt32} (hd : d ≠ 0) (h : d &&& (d - 1) = 0) :
    ∃ k, k < 32 ∧ d.toNat = 2 ^ k := by
  have hpos : 0 < d.toNat := Nat.pos_of_ne_zero fun hzero => hd (UInt32.toNat_inj.mp hzero)
  have hand := congrArg UInt32.toNat h
  rw [UInt32.toNat_and, toNat_pred hpos, UInt32.toNat_zero] at hand
  obtain ⟨k, hk⟩ := (Nat.and_sub_one_eq_zero_iff_isPowerOfTwo (by omega)).mp hand
  refine ⟨k, ?_, hk⟩
  have hlt := d.toNat_lt
  rw [hk] at hlt
  exact (Nat.pow_lt_pow_iff_right (by decide)).mp hlt

theorem lowbit_eq {d : UInt32} {k : ℕ} (hd : d.toNat = 2 ^ k) (hk : k < 32) (fuel s : ℕ) (hs : s ≤ k)
    (hfuel : k < fuel + s) : lowbit d fuel s = k := by
  induction fuel generalizing s with
  | zero => omega
  | succ fuel ih =>
    have hbit : (d >>> UInt32.ofNat s) &&& 1 = 0 ↔ s < k := by
      rw [← UInt32.toNat_inj, UInt32.toNat_and, toNat_shr d (by omega), hd,
        Nat.pow_div hs (by decide), show (1 : UInt32).toNat = 1 from rfl, Nat.and_one_is_mod,
        UInt32.toNat_zero]
      constructor
      · intro hzero
        by_contra hnot
        rw [show k - s = 0 by omega] at hzero
        exact absurd hzero (by decide)
      · intro hlt
        rw [show k - s = k - s - 1 + 1 by omega, Nat.pow_succ]
        omega
    rw [lowbit]
    split
    · rename_i hzero
      have hlt := hbit.mp hzero
      exact ih (s + 1) (by omega) (by omega)
    · rename_i hone
      have hnot := mt hbit.mpr hone
      omega

theorem mpdiv_small (low : UInt32) {a b : Mpint} (hs : b.SmallPower) :
    val (mpright a (lowbit (b.p.headD 0) 32 0)).p = val a.p / val b.p ∧
      (vtomp (a.sign * ((a.p.headD low &&& (b.p.headD 0 - 1)).toNat : ℤ))).toInt =
        a.sign * ((if a.p = [] then low.toNat else val a.p) % val b.p : ℕ) := by
  obtain ⟨hlen, hand⟩ := hs
  obtain ⟨d, hp⟩ := List.length_eq_one_iff.mp hlen
  have hd : d ≠ 0 := fun hzero => by
    have hnorm := b.norm
    rw [hp, hzero] at hnorm
    exact hnorm rfl
  rw [hp] at hand ⊢
  rw [List.headD_cons] at hand ⊢
  obtain ⟨k, hk, hdk⟩ := exists_power hd hand
  have hpow : 2 ^ 32 = 2 ^ k * 2 ^ (32 - k) := by
    rw [← Nat.pow_add, Nat.add_sub_cancel' hk.le]
  have hlow : (a.p.headD low &&& (d - 1)).toNat =
      (if a.p = [] then low.toNat else val a.p) % 2 ^ k := by
    have hpred := toNat_pred (hdk ▸ Nat.pow_pos (by decide) : 0 < d.toNat)
    rw [UInt32.toNat_and, hpred, hdk, Nat.and_two_pow_sub_one_eq_mod]
    cases ha : a.p with
    | nil => rfl
    | cons x xs =>
      rw [if_neg (List.cons_ne_nil _ _), List.headD_cons, val_cons, hpow, Nat.mul_assoc,
        Nat.add_mul_mod_self_left]
  rw [val_singleton, hdk, mpright_val, lowbit_eq hdk hk 32 0 (Nat.zero_le _) hk, hlow]
  refine ⟨rfl, vtomp_toInt ?_⟩
  have hlt : (if a.p = [] then low.toNat else val a.p) % 2 ^ k < 2 ^ k :=
    Nat.mod_lt _ (Nat.pow_pos (by decide))
  have hle : 2 ^ k ≤ 2 ^ 32 := Nat.pow_le_pow_right (by decide) hk.le
  rw [Int.natAbs_mul, Int.natAbs_natCast, Int.units_natAbs, Nat.one_mul]
  omega

theorem mpdiv_eq (low : UInt32) (sign : ℤˣ) {a b : Mpint} (hb : b.p ≠ []) :
    mpdiv low sign a b = some (
      if b.SmallPower then
        (mpright a (lowbit (b.p.headD 0) 32 0),
          vtomp (a.sign * ((a.p.headD low &&& (b.p.headD 0 - 1)).toNat : ℤ)))
      else if mpmagcmp a b < 0 then (mpzero, a)
      else
        (if a.sign ≠ b.sign then (mpnorm sign (divdigits a b).1).withSign (-1)
          else mpnorm sign (divdigits a b).1, (divdigits a b).2.withSign a.sign)) := by
  obtain ⟨d, rest, hp⟩ := List.exists_cons_of_ne_nil hb
  have hsmall : rest = [] ∧ d &&& (d - 1) = 0 ↔ b.SmallPower := by
    rw [Mpint.SmallPower, Mpint.top, hp, List.headD_cons, List.length_cons, Nat.add_eq_right,
      List.length_eq_zero_iff]
  rw [mpdiv, hp, List.headD_cons]
  simp only [hsmall]
  split
  · rfl
  · split
    all_goals rfl

/-- The quotient and the remainder, but for what a dividend of zero has left in memory. -/
theorem mpdiv_spec (low : UInt32) (sign : ℤˣ) {a b : Mpint} (hb : b.p ≠ []) :
    ∃ q r, mpdiv low sign a b = some (q, r) ∧ val q.p = val a.p / val b.p ∧
      r.toInt = a.sign *
        ((if a.p = [] ∧ b.SmallPower then low.toNat else val a.p) % val b.p : ℕ) := by
  rw [mpdiv_eq low sign hb]
  by_cases hs : b.SmallPower
  · obtain ⟨hq, hr⟩ := mpdiv_small low (a := a) hs
    rw [if_pos hs]
    refine ⟨_, _, rfl, hq, hr.trans ?_⟩
    simp only [hs, and_true]
  · rw [if_neg hs, if_neg fun h : a.p = [] ∧ b.SmallPower => hs h.2]
    by_cases hless : mpmagcmp a b < 0
    · have hlt := (mpmagcmp_spec a b).1.mp hless
      rw [if_pos hless, Nat.div_eq_of_lt hlt, Nat.mod_eq_of_lt hlt]
      exact ⟨_, _, rfl, rfl, rfl⟩
    · obtain ⟨hq, hr⟩ := divdigits_spec (a := a) hb
        (Nat.le_of_not_lt (mt (mpmagcmp_spec a b).1.mpr hless))
      rw [if_neg hless]
      refine ⟨_, _, rfl, ?_, ?_⟩
      · split
        all_goals exact (val_strip _).trans hq
      · rw [withSign_toInt, hr]

end Division

end Petele.Mp
