import Petele.Mp.Gmfield

namespace Petele.Mp

open Lib Limbs

section Sums

variable {d : ℕ} (hi : Vec)

theorem gather_length (x : List ℕ) : (gather d hi x).length = x.length := List.length_map _

theorem rowsum_bounds {xs : List (List ℕ)} (h : ∀ x ∈ xs, x.length = d) :
    0 ≤ rowsum d hi xs ∧ rowsum d hi xs ≤ (xs.length * (2 ^ 32) ^ d : ℕ) := by
  induction xs with
  | nil => simp [rowsum]
  | cons x xs ih =>
    rw [List.forall_mem_cons] at h
    obtain ⟨hlow, hhigh⟩ := ih h.2
    have hlt := val_lt (gather d hi x)
    rw [gather_length, h.1] at hlt
    rw [rowsum, List.map_cons, List.sum_cons, ← rowsum, List.length_cons, Nat.succ_mul]
    omega

theorem foldl_adds (xs : List (List ℕ)) (h : ∀ x ∈ xs, x.length = d) {r : Vec}
    (hr : r.length = d + 1) :
    (xs.foldl (fun r x => (addloop r (gather d hi x) 0).take (d + 1)) r).length = d + 1 ∧
      (val (xs.foldl (fun r x => (addloop r (gather d hi x) 0).take (d + 1)) r) : ℤ) ≡
        val r + rowsum d hi xs [ZMOD ((2 ^ 32) ^ (d + 1) : ℕ)] := by
  induction xs generalizing r with
  | nil => simp [rowsum, hr]
  | cons x xs ih =>
    rw [List.forall_mem_cons] at h
    have hadd := addloop_val r (gather d hi x) 0 (by rw [gather_length, h.1, hr]; omega)
    have hlen := addloop_length r (gather d hi x) 0
    obtain ⟨hfold, hmod⟩ := ih h.2 (r := (addloop r (gather d hi x) 0).take (d + 1)) (by
      rw [List.length_take, hlen, hr]
      omega)
    rw [List.foldl_cons, rowsum, List.map_cons, List.sum_cons, ← rowsum]
    refine ⟨hfold, hmod.trans ?_⟩
    rw [val_take, hadd, UInt32.toNat_zero, Nat.add_zero, ← add_assoc]
    refine Int.ModEq.add_right _ ?_
    rw [Int.natCast_mod]
    exact (Int.mod_modEq _ _).trans (by push_cast; exact Int.ModEq.rfl)

theorem foldl_subs (xs : List (List ℕ)) (h : ∀ x ∈ xs, x.length = d) {r : Vec}
    (hr : r.length = d + 1) :
    (xs.foldl (fun r x => subloop r (gather d hi x) 0) r).length = d + 1 ∧
      (val (xs.foldl (fun r x => subloop r (gather d hi x) 0) r) : ℤ) ≡
        val r - rowsum d hi xs [ZMOD ((2 ^ 32) ^ (d + 1) : ℕ)] := by
  induction xs generalizing r with
  | nil => simp [rowsum, hr]
  | cons x xs ih =>
    rw [List.forall_mem_cons] at h
    obtain ⟨k, hk⟩ := subloop_val r (gather d hi x) 0 (by rw [gather_length, h.1, hr]; omega)
    have hlen := subloop_length r (gather d hi x) 0
    obtain ⟨hfold, hmod⟩ := ih h.2 (r := subloop r (gather d hi x) 0) (by rw [hlen, hr])
    rw [List.foldl_cons, rowsum, List.map_cons, List.sum_cons, ← rowsum, ← sub_sub]
    refine ⟨hfold, hmod.trans (Int.ModEq.sub_right _ ?_)⟩
    rw [hr, UInt32.toNat_zero, Nat.add_zero] at hk
    refine Int.modEq_iff_dvd.mpr ⟨-(k : ℤ), ?_⟩
    have hcast : (val (subloop r (gather d hi x) 0) : ℤ) + val (gather d hi x) =
        val r + ((2 ^ 32) ^ (d + 1) : ℕ) * k := by exact_mod_cast hk
    linarith

end Sums

section Digits

/-- The last step of `gmreduce` takes the modulus off once. -/
theorem subtract_once {r n : Vec} (hlen : r.length = n.length) (hlt : val r < 2 * val n) :
    val (mask ((subloop (r ++ [0]) n 0).getD n.length 0) r
      ((subloop (r ++ [0]) n 0).take n.length)) = val r % val n := by
  have hval : val (r ++ [0]) = val r := by
    rw [val_append, val_singleton, UInt32.toNat_zero, Nat.mul_zero, Nat.add_zero]
  have hchoose := choose_less (s := r ++ [0]) (n := n) (by rw [List.length_append, hlen]; rfl) (by rw [hval]; exact hlt)
  rw [List.take_left' hlen, hval] at hchoose
  exact hchoose

variable (g : GMfield) (a : Mpint)

/-- The high digits that `gmreduce` copies to `t`. -/
def GMfield.high : Vec := ((pad (2 * g.n.top + 2) a.p).drop g.n.top).take g.n.top

/-- What the rows and `nsub` times the modulus make of the low digits. -/
def GMfield.total : ℤ :=
  (val a.p % (2 ^ 32) ^ g.n.top : ℕ) + g.nsub * val g.n.p + rowsum g.n.top (g.high a) g.adds -
    rowsum g.n.top (g.high a) g.subs

variable {g a}

theorem m2_val (hg : g.Mersenne) : val g.m2.p = val g.n.p * val g.n.p := by
  have hmul := mpmul_toInt g.n g.n
  rw [← hg.square, toInt_of_one hg.sign] at hmul
  have habs := abs_toInt g.m2
  rw [hmul] at habs
  rw [← habs, Int.natAbs_mul, Int.natAbs_natCast]

theorem high_spec (hg : g.Mersenne) (ha : val a.p < val g.m2.p) :
    (pad (2 * g.n.top + 2) a.p).length = 2 * g.n.top + 2 ∧ (g.high a).length = g.n.top ∧
      val (g.high a) = val a.p / (2 ^ 32) ^ g.n.top := by
  have hn : val g.n.p < (2 ^ 32) ^ g.n.top := val_lt g.n.p
  have hlt : val a.p < (2 ^ 32) ^ g.n.top * (2 ^ 32) ^ g.n.top := by
    rw [m2_val hg] at ha
    exact ha.trans_le (Nat.mul_le_mul hn.le hn.le)
  have hshort : a.p.length ≤ 2 * g.n.top + 2 := by
    by_contra hlong
    have hne : a.p ≠ [] := List.ne_nil_of_length_pos (by omega)
    have hle := pow_le_val hne
    have hpow : (2 ^ 32) ^ (g.n.top + g.n.top) ≤ (2 ^ 32) ^ (a.top - 1) :=
      Nat.pow_le_pow_right (by decide) (by have : a.top = a.p.length := rfl; omega)
    rw [Nat.pow_add] at hpow
    omega
  have hlen : (pad (2 * g.n.top + 2) a.p).length = 2 * g.n.top + 2 := pad_length hshort
  refine ⟨hlen, ?_, ?_⟩
  · rw [GMfield.high, List.length_take, List.length_drop, hlen]
    omega
  · rw [GMfield.high, val_take, val_drop, val_pad]
    refine Nat.mod_eq_of_lt ?_
    rw [Nat.div_lt_iff_lt_mul (Nat.pow_pos (by decide))]
    exact hlt

/-- What `gmreduce` computes, from the total modulo the digits that hold it. -/
theorem gmreduce_digits (hg : g.Mersenne) (ha : val a.p < val g.m2.p) :
    ∃ (r : Mpint) (x : ℕ), gmreduce g a = .reduced r ∧ r.toInt = val r.p ∧
      (x : ℤ) = g.total a % ((2 ^ 32) ^ (g.n.top + 1) : ℕ) ∧
      val r.p = (x - x / (2 ^ 32) ^ g.n.top * val g.n.p) % (2 ^ 32) ^ g.n.top % val g.n.p := by
  obtain ⟨hplen, hhlen, -⟩ := high_spec hg ha
  have hcmp : ¬ 0 ≤ mpmagcmp a g.m2 := not_le.mpr ((mpmagcmp_spec a g.m2).1.mpr ha)
  have hwidth := hg.width
  have hfew := hg.few
  have hnlen : g.n.p.length = g.n.top := rfl
  unfold gmreduce
  rw [if_neg hcmp]
  dsimp only
  rw [← GMfield.high]
  have htake : ((pad (2 * g.n.top + 2) a.p).take g.n.top).length = g.n.top := by
    rw [List.length_take, hplen]
    omega
  have hlow : val ((pad (2 * g.n.top + 2) a.p).take g.n.top) = val a.p % (2 ^ 32) ^ g.n.top := by
    rw [val_take, val_pad]
  generalize (pad (2 * g.n.top + 2) a.p).take g.n.top = lo at *
  -- the multiple of the modulus that keeps the differences positive
  obtain ⟨r₁, hr₁, hlen₁, hval₁⟩ : ∃ r₁, (if 0 < g.nsub then
      muladdloop (UInt32.ofNat g.nsub) g.n.p lo 0 0 else lo ++ [0]) = r₁ ∧
        r₁.length = g.n.top + 1 ∧ val r₁ = val lo + g.nsub * val g.n.p := by
    refine ⟨_, rfl, ?_, ?_⟩
    · split
      · rw [muladdloop_length _ _ _ _ _ htake.symm, hnlen]
      · rw [List.length_append, htake]
        rfl
    · split
      · rw [muladdloop_eq _ _ _ htake.symm, UInt32.toNat_ofNat', Nat.mod_eq_of_lt]
        rw [GMfield.nsub]
        omega
      · rename_i hzero
        rw [show g.nsub = 0 by omega, Nat.zero_mul, Nat.add_zero, val_append, val_singleton,
          UInt32.toNat_zero, Nat.mul_zero, Nat.add_zero]
  rw [hr₁]
  obtain ⟨hlen₂, hmod₂⟩ := foldl_adds (g.high a) g.adds
    (fun x hx => hwidth x (List.mem_append_left _ hx)) hlen₁
  generalize g.adds.foldl _ r₁ = r₂ at *
  obtain ⟨hlen₃, hmod₃⟩ := foldl_subs (g.high a) g.subs
    (fun x hx => hwidth x (List.mem_append_right _ hx)) hlen₂
  generalize g.subs.foldl _ r₂ = x at *
  have htotal : (val x : ℤ) = g.total a % ((2 ^ 32) ^ (g.n.top + 1) : ℕ) := by
    have hlt := val_lt x
    rw [hlen₃] at hlt
    have hall : (val x : ℤ) ≡ g.total a [ZMOD ((2 ^ 32) ^ (g.n.top + 1) : ℕ)] := by
      refine hmod₃.trans ((hmod₂.sub_right _).trans ?_)
      rw [hval₁, hlow, GMfield.total]
      push_cast
      exact Int.ModEq.rfl
    rw [← hall, Int.emod_eq_of_lt (by omega) (by exact_mod_cast hlt)]
  have hdigit : (x.getD g.n.top 0).toNat = val x / (2 ^ 32) ^ g.n.top := by
    rw [getD_toNat]
    refine Nat.mod_eq_of_lt ?_
    have hlt := val_lt x
    rw [hlen₃, radix_succ] at hlt
    exact (Nat.div_lt_iff_lt_mul (Nat.pow_pos (by decide))).mpr hlt
  obtain ⟨ds, sign, hsub, hds, hval⟩ := mpvecdigmulsub_spec (b := g.n.p) (x.getD g.n.top 0) hlen₃
  rw [mpvecdigmulsub, if_pos (show x.length = g.n.p.length + 1 from hlen₃), Option.some_inj] at hsub
  have hn : val g.n.p < (2 ^ 32) ^ g.n.top := val_lt g.n.p
  have hle : val x / (2 ^ 32) ^ g.n.top * val g.n.p ≤ val x :=
    (Nat.mul_le_mul_left _ hn.le).trans (Nat.div_mul_le_self _ _)
  have hdsval : val ds = val x - val x / (2 ^ 32) ^ g.n.top * val g.n.p := by
    rw [hdigit] at hval
    rcases hval with ⟨-, hval⟩ | ⟨-, hval⟩
    · omega
    · have hlt := val_lt ds
      rw [hds] at hlt
      omega
  rw [hsub]
  have hrlen : (ds.take g.n.top).length = g.n.p.length := by
    rw [List.length_take, hds]
    omega
  have hnear : (2 ^ 32) ^ g.n.top ≤ 2 * val g.n.p := by
    have hclose := hg.near
    have hbig := hg.big
    have hk : (2 ^ 32 : ℕ) ^ g.n.top = 2 ^ 32 * (2 ^ 32) ^ (g.n.top - 1) := by
      rw [← radix_succ]
      congr 1
      omega
    omega
  have honce := subtract_once hrlen (by
    have hlt := val_lt (ds.take g.n.top)
    rw [hrlen, hnlen] at hlt
    omega)
  refine ⟨_, val x, rfl, ?_, htotal, ?_⟩
  · rw [mpnorm_toInt, Units.val_one, one_mul, mpnorm_p, val_strip]
  · rw [mpnorm_p, val_strip, ← hdsval, ← val_take]
    exact honce

end Digits

section Arithmetic

variable {y n x : ℕ}

/-- A total that is not negative is reduced rightly if the multiples of the power, folded back once,
do not make another one. -/
theorem fold_nonneg {D : ℕ} (hD : D = 2 ^ 32 * y) (hn : n < D) (hnear : D < n + 86 * y)
    (hx : x < 86 * D) :
    (x - x / D * n) % D % n = x % n ↔ x % D + x / D * (D - n) < D := by
  have hdm := Nat.div_add_mod x D
  have hmod := Nat.mod_lt x (show 0 < D by omega)
  have hu : x / D ≤ 85 := Nat.le_of_lt_succ ((Nat.div_lt_iff_lt_mul (by omega)).mpr hx)
  have hsmall : x / D * (D - n) ≤ 85 * (D - n) := Nat.mul_le_mul_right _ hu
  have hsum : x / D * D = x / D * n + x / D * (D - n) := by
    rw [← Nat.mul_add, Nat.add_sub_cancel' hn.le]
  rw [Nat.mul_comm] at hdm
  have hfold : x - x / D * n = x % D + x / D * (D - n) := by omega
  have hxw : x = x % D + x / D * (D - n) + n * (x / D) := by
    rw [Nat.mul_comm n]
    omega
  have htwice : x % D + x / D * (D - n) < 2 * D := by omega
  rw [hfold]
  generalize x % D + x / D * (D - n) = w at *
  have hres : x % n = w % n := by
    rw [hxw, Nat.add_mul_mod_self_left]
  rw [hres]
  constructor
  · intro heq
    by_contra hbig
    have hw : w % D = w - D := by
      rw [Nat.mod_eq_sub_mod (by omega), Nat.mod_eq_of_lt (by omega)]
    rw [hw] at heq
    have hdvd : n ∣ w - (w - D) := (Nat.modEq_iff_dvd' (by omega)).mp heq
    rw [show w - (w - D) = n + (D - n) by omega] at hdvd
    have hle := Nat.le_of_dvd (by omega) ((Nat.dvd_add_right dvd_rfl).mp hdvd)
    omega
  · intro hlt
    rw [Nat.mod_eq_of_lt hlt]

/-- A negative total goes wrong, unless the modulus is a digit times a power of the radix. -/
theorem fold_neg {D t : ℕ} (hD : D = 2 ^ 32 * y) (hn : n < D) (hnear : D < n + 86 * y)
    (hpos : 0 < t) (ht : t ≤ 85 * (D - n))
    (hx : x + t = 2 ^ 32 * D) (hdvd : n ∣ (x - x / D * n) % D + t) :
    ∃ v, n + v * y = D := by
  have hxD : x / D = 2 ^ 32 - 1 := by
    refine Nat.div_eq_of_lt_le ?_ ?_
    all_goals omega
  have hdm := Nat.div_add_mod ((2 ^ 32 - 1) * (D - n)) D
  have hmod := Nat.mod_lt ((2 ^ 32 - 1) * (D - n)) (show 0 < D by omega)
  have hfold : x - x / D * n = D - t + (2 ^ 32 - 1) * (D - n) := by
    rw [hxD]
    omega
  rw [hfold] at hdvd
  generalize hq : (2 ^ 32 - 1) * (D - n) / D = q at *
  generalize hr : (2 ^ 32 - 1) * (D - n) % D = r at *
  by_cases hle : t ≤ r
  · have hw : (D - t + (2 ^ 32 - 1) * (D - n)) % D = r - t := by
      rw [← hdm, show D - t + (D * q + r) = r - t + D * (q + 1) by rw [Nat.mul_succ]; omega,
        Nat.add_mul_mod_self_left, Nat.mod_eq_of_lt (by omega)]
    rw [hw, Nat.sub_add_cancel hle] at hdvd
    obtain ⟨k, hk⟩ := hdvd
    have hk1 : k = 1 := by
      rcases Nat.lt_trichotomy k 1 with h | h | h
      · -- no remainder at all
        rw [show k = 0 by omega] at hk
        omega
      · exact h
      · have hmul := Nat.mul_le_mul_left n h
        omega
    refine ⟨q + 1, ?_⟩
    rw [hk1, Nat.mul_one] at hk
    have hall : 2 ^ 32 * (D - n) = 2 ^ 32 * ((q + 1) * y) := by
      have hexp : 2 ^ 32 * ((q + 1) * y) = D * q + D := by
        rw [hD]
        ring
      omega
    omega
  · have hw : (D - t + (2 ^ 32 - 1) * (D - n)) % D = D + r - t := by
      rw [← hdm, show D - t + (D * q + r) = D + r - t + D * q by omega,
        Nat.add_mul_mod_self_left, Nat.mod_eq_of_lt (by omega)]
    rw [hw, Nat.sub_add_cancel (by omega)] at hdvd
    obtain ⟨k, hk⟩ := hdvd
    exfalso
    rcases Nat.lt_or_ge k 2 with h | h
    · have hmul := Nat.mul_le_mul_left n (Nat.le_of_lt_succ h)
      omega
    · have hmul := Nat.mul_le_mul_left n h
      omega

end Arithmetic

section Reduce

variable {g : GMfield} {a : Mpint}

/-- The total is not negative, and once the multiples of the power of the radix are folded back it
is below that power. -/
def GMfield.Folds (g : GMfield) (a : Mpint) : Prop :=
  0 ≤ g.total a ∧
    g.total a % (2 ^ 32) ^ g.n.top + g.total a / (2 ^ 32) ^ g.n.top * ((2 ^ 32) ^ g.n.top - val g.n.p) <
      (2 ^ 32) ^ g.n.top

theorem total_modEq (hg : g.Mersenne) (ha : val a.p < val g.m2.p) :
    g.total a ≡ val a.p [ZMOD val g.n.p] := by
  obtain ⟨-, hlen, hval⟩ := high_spec hg ha
  have hfold := hg.folds (g.high a) hlen
  have hdm := Nat.mod_add_div (val a.p) ((2 ^ 32) ^ g.n.top)
  have hcast : (val a.p : ℤ) =
      (val a.p % (2 ^ 32) ^ g.n.top : ℕ) + (2 ^ 32) ^ g.n.top * val (g.high a) := by
    rw [hval]
    exact_mod_cast hdm.symm
  have hsum : g.total a = (val a.p % (2 ^ 32) ^ g.n.top : ℕ) +
      (rowsum g.n.top (g.high a) g.adds - rowsum g.n.top (g.high a) g.subs) +
        val g.n.p * g.nsub := by
    rw [GMfield.total]
    ring
  rw [hsum, hcast]
  exact (Int.modEq_add_modulus_mul_iff.mpr Int.ModEq.rfl).symm.trans (hfold.add_left _)

theorem total_bounds (hg : g.Mersenne) :
    -(85 * ((2 ^ 32) ^ g.n.top - val g.n.p : ℕ) : ℤ) ≤ g.total a ∧
      g.total a < (86 * (2 ^ 32) ^ g.n.top : ℕ) ∧ (g.subs = [] → 0 ≤ g.total a) := by
  have hn : val g.n.p < (2 ^ 32) ^ g.n.top := val_lt g.n.p
  have hlow := Nat.mod_lt (val a.p) (show 0 < (2 ^ 32) ^ g.n.top from Nat.pow_pos (by decide))
  obtain ⟨hadd, hadd'⟩ := rowsum_bounds (g.high a)
    (fun x hx => hg.width x (List.mem_append_left g.subs hx))
  obtain ⟨hsub, hsub'⟩ := rowsum_bounds (g.high a)
    (fun x hx => hg.width x (List.mem_append_right g.adds hx))
  have hfew := hg.few
  have htotal : g.total a = (val a.p % (2 ^ 32) ^ g.n.top : ℕ) + g.nsub * val g.n.p +
      rowsum g.n.top (g.high a) g.adds - rowsum g.n.top (g.high a) g.subs := rfl
  have hnsub : g.nsub = g.subs.length := rfl
  rw [hnsub] at htotal
  generalize rowsum g.n.top (g.high a) g.adds = A at *
  generalize rowsum g.n.top (g.high a) g.subs = S at *
  generalize val a.p % (2 ^ 32) ^ g.n.top = lo at *
  generalize (2 ^ 32) ^ g.n.top = D at *
  generalize val g.n.p = n at *
  generalize g.adds.length = i at *
  have hj : g.subs = [] → g.subs.length = 0 := fun hnil => by rw [hnil]; rfl
  generalize g.subs.length = j at *
  have hsplit : j * D = j * n + j * (D - n) := by rw [← Nat.mul_add, Nat.add_sub_cancel' hn.le]
  have hmost : j * (D - n) ≤ 85 * (D - n) := Nat.mul_le_mul_right _ (by omega)
  have hall : (i + j) * D ≤ 85 * D := Nat.mul_le_mul_right _ hfew
  rw [Nat.add_mul] at hall
  refine ⟨by omega, by omega, fun hnil => ?_⟩
  rw [hj hnil] at hsplit hsub' htotal
  omega

theorem gmreduce_reduced (hg : g.Mersenne) (ha : val a.p < val g.m2.p) :
    ∃ r, gmreduce g a = .reduced r ∧ r.toInt = val r.p ∧ val r.p < val g.n.p ∧
      (val r.p = val a.p % val g.n.p ↔ g.Folds a) := by
  obtain ⟨r, x, hred, hr, hx, hval⟩ := gmreduce_digits hg ha
  have hbig := hg.big
  have hnear := hg.near
  have hunsigned := hg.unsigned
  have hn : val g.n.p < (2 ^ 32) ^ g.n.top := val_lt g.n.p
  have hD : (2 ^ 32 : ℕ) ^ g.n.top = 2 ^ 32 * (2 ^ 32) ^ (g.n.top - 1) := by
    rw [← radix_succ]
    congr 1
    omega
  have hmod := total_modEq hg ha
  obtain ⟨hlow, hhigh, hsubs⟩ := total_bounds (a := a) hg
  rw [radix_succ] at hx
  refine ⟨r, hred, hr, ?_, ?_⟩
  · rw [hval]
    exact Nat.mod_lt _ (by omega)
  · have hcast : ((2 ^ 32 : ℤ)) ^ g.n.top = ((2 ^ 32) ^ g.n.top : ℕ) := by
      push_cast
      rfl
    rw [hval, GMfield.Folds, hcast]
    generalize g.total a = T at *
    generalize (2 ^ 32) ^ (g.n.top - 1) = y at *
    generalize (2 ^ 32) ^ g.n.top = D at *
    generalize val g.n.p = n at *
    rcases lt_or_ge T 0 with hneg | hnonneg
    · -- the digits wrap round
      refine iff_of_false (fun heq => ?_) fun h => not_le.mpr hneg h.1
      have hxt : x + (-T).toNat = 2 ^ 32 * D := by
        rw [← Int.add_emod_right, Int.emod_eq_of_lt (by push_cast; omega) (by push_cast; omega)] at hx
        push_cast at hx
        omega
      have hdvd : n ∣ (x - x / D * n) % D + (-T).toNat := by
        have hT : ((x - x / D * n) % D : ℕ) ≡ T [ZMOD n] :=
          Int.ModEq.trans (Int.natCast_modEq_iff.mpr heq) hmod.symm
        have hcast : (((x - x / D * n) % D + (-T).toNat : ℕ) : ℤ) =
            ((x - x / D * n) % D : ℕ) - T := by
          push_cast
          omega
        exact Int.natCast_dvd_natCast.mp (hcast ▸ hT.symm.dvd)
      obtain ⟨v, hv⟩ := fold_neg hD hn hnear (by omega) (by omega) hxt hdvd
      have hge := hsubs (hunsigned v hv)
      omega
    · obtain ⟨z, rfl⟩ := Int.eq_ofNat_of_zero_le hnonneg
      have hxz : x = z := by
        rw [Int.emod_eq_of_lt hnonneg (by push_cast; omega)] at hx
        exact_mod_cast hx
      have hfold := fold_nonneg (x := z) hD hn hnear (by exact_mod_cast hhigh)
      have hza : z % n = val a.p % n := Int.natCast_modEq_iff.mp hmod
      rw [hxz, ← hza, hfold, and_iff_right hnonneg]
      zify [hn.le]

theorem gmreduce_iff {N : Mpint} {g : GMfield} (hg : gmfield N = some g) {a : Mpint}
    (ha : 0 ≤ a.toInt) (hlt : a.toInt < N.toInt * N.toInt) :
    (∃ r, gmreduce g a = .reduced r ∧ r.Residue a N) ↔ 0 < N.toInt ∧ g.Folds a := by
  obtain ⟨C, s, t, -, -, -, -, -, -, -, hform⟩ := gmfield_cases hg
  have hN : g.n = N := by rw [hform]
  by_cases hpos : 0 < N.toInt
  · have hmer := gmfield_spec hg hpos
    have hsq : val a.p < val g.m2.p := by
      rw [m2_val hmer, hN]
      rw [toInt_of_nonneg ha, toInt_of_nonneg hpos.le] at hlt
      exact_mod_cast hlt
    obtain ⟨r, hred, hr, hrlt, hiff⟩ := gmreduce_reduced hmer hsq
    have hres : r.Residue a N ↔ g.Folds a := by
      rw [hN] at hrlt hiff
      rw [residue_iff_mod hr hrlt (sign_of_pos hpos), ← hiff, toInt_of_nonneg ha]
      norm_cast
    rw [and_iff_right hpos, ← hres, hred]
    constructor
    · rintro ⟨r', h, hres'⟩
      cases h
      exact hres'
    · intro hres'
      exact ⟨r, rfl, hres'⟩
  · refine iff_of_false ?_ fun h => hpos h.1
    rintro ⟨r, -, hge, hless, -⟩
    exact hpos (hge.trans_lt hless)

/-- The P-256 prime, 2^256 - 2^224 + 2^192 + 2^96 - 1. -/
def p256 : Mpint := ⟨1, [0xffffffff, 0xffffffff, 0xffffffff, 0, 0, 0, 1, 0xffffffff], by decide⟩

theorem gmreduce_iff_power :
    ∃ g, gmfield p256 = some g ∧
      ((∃ r, gmreduce g ⟨1, [0, 0, 0, 0, 0, 0, 0, 0, 1], by decide⟩ = .reduced r ∧
        r.Residue ⟨1, [0, 0, 0, 0, 0, 0, 0, 0, 1], by decide⟩ p256) ↔
          0 < p256.toInt ∧ g.Folds ⟨1, [0, 0, 0, 0, 0, 0, 0, 0, 1], by decide⟩) := by
  obtain ⟨g, hg⟩ := Option.isSome_iff_exists.mp (show (gmfield p256).isSome = true by decide +kernel)
  exact ⟨g, hg, gmreduce_iff hg (by decide +kernel) (by decide +kernel)⟩

/-- The number 2^257 - 1 modulo the P-256 prime: the digit that is dropped was not zero. -/
theorem gmreduce_drops :
    (gmfield p256).map (gmreduce · ⟨1, List.replicate 8 0xffffffff ++ [1], by decide⟩) =
        some (.reduced
          ⟨1, [0, 0, 0, 0xffffffff, 0xffffffff, 0xffffffff, 0xfffffffe], by decide⟩) ∧
      0 ≤ Mpint.toInt ⟨1, List.replicate 8 0xffffffff ++ [1], by decide⟩ ∧
      Mpint.toInt ⟨1, List.replicate 8 0xffffffff ++ [1], by decide⟩ < p256.toInt * p256.toInt ∧
      ¬ Mpint.Residue ⟨1, [0, 0, 0, 0xffffffff, 0xffffffff, 0xffffffff, 0xfffffffe], by decide⟩
        ⟨1, List.replicate 8 0xffffffff ++ [1], by decide⟩ p256 := by
  decide +kernel

end Reduce

end Petele.Mp
