import Petele.Mp.HeapDiv

namespace Petele.Mp.Heap

open Lib Limbs Inplace

section Truncated

/-- Division with a remainder that has the sign of the dividend. -/
theorem truncated_iff {x d q r : ℤ} (hd : d ≠ 0) :
    (x = q * d + r ∧ |r| < |d| ∧ (r = 0 ∨ r.sign = x.sign)) ↔ q = x.tdiv d ∧ r = x.tmod d := by
  constructor
  · rintro ⟨hsum, hlt, hsign⟩
    have hsum' : r + d * q = x := by rw [hsum, mul_comm, add_comm]
    rw [Int.abs_eq_natAbs, Int.abs_eq_natAbs, Int.ofNat_lt] at hlt
    rcases le_total 0 x with hx | hx
    · have hr : 0 ≤ r := by
        rcases hsign with hr | hr
        · exact hr.ge
        · exact Int.sign_nonneg_iff.mp (hr ▸ Int.sign_nonneg_iff.mpr hx)
      obtain ⟨hq, hr⟩ := (Int.tdiv_tmod_unique hx hd).mpr ⟨hsum', hr, by omega⟩
      exact ⟨hq.symm, hr.symm⟩
    · have hr : r ≤ 0 := by
        rcases hsign with hr | hr
        · exact hr.le
        · exact Int.sign_nonpos_iff.mp (hr ▸ Int.sign_nonpos_iff.mpr hx)
      obtain ⟨hq, hr⟩ := (Int.tdiv_tmod_unique' hx hd).mpr ⟨hsum', by omega, hr⟩
      exact ⟨hq.symm, hr.symm⟩
  · rintro ⟨rfl, rfl⟩
    refine ⟨?_, ?_, ?_⟩
    · rw [add_comm, mul_comm]
      exact (Int.tmod_add_mul_tdiv x d).symm
    · rw [Int.abs_eq_natAbs, Int.abs_eq_natAbs, Int.natAbs_tmod, Int.ofNat_lt]
      exact Nat.mod_lt _ (Int.natAbs_pos.mpr hd)
    · rw [← Int.sign_eq_zero_iff_zero, Int.sign_tmod]
      split
      · exact .inl rfl
      · exact .inr rfl

theorem tdiv_units (σ δ : ℤˣ) (a b : ℕ) : (σ * (a : ℤ)).tdiv (δ * b) = (σ * δ : ℤˣ) * ((a / b : ℕ) : ℤ) := by
  rcases Int.units_eq_one_or σ with rfl | rfl
  all_goals rcases Int.units_eq_one_or δ with rfl | rfl
  all_goals simp

theorem tmod_units (σ δ : ℤˣ) (a b : ℕ) : (σ * (a : ℤ)).tmod (δ * b) = σ * ((a % b : ℕ) : ℤ) := by
  rcases Int.units_eq_one_or σ with rfl | rfl
  all_goals rcases Int.units_eq_one_or δ with rfl | rfl
  all_goals simp [Int.tmod_eq_emod_of_nonneg]

/-- A number is right as an output if it has the value and, for zero, the sign 1. -/
theorem output_iff {B : Mpint} {k : ℕ} (hval : val B.p = k) (ε : ℤˣ) :
    (B.toInt = ε * k ∧ (B.toInt = 0 → B.sign = 1)) ↔ B.sign = if k = 0 then 1 else ε := by
  rw [Mpint.toInt, hval]
  by_cases hk : k = 0
  · simp [hk]
  · have hk' : (k : ℤ) ≠ 0 := Int.natCast_ne_zero.mpr hk
    rw [if_neg hk, mul_left_inj' hk', Units.val_inj]
    refine ⟨And.left, fun h => ⟨h, fun hzero => ?_⟩⟩
    exact absurd ((mul_eq_zero.mp hzero).resolve_right hk') B.sign.ne_zero

end Truncated

section Operations

variable {ι : Type} [DecidableEq ι]

/-- What a division is to leave. -/
def Divides (m : Mem ι) (dividend divisor : ι) (quotient remainder : Option ι) (m' : Mem ι) : Prop :=
  ∃ q r : ℤ, (m dividend).toInt = q * (m divisor).toInt + r ∧ |r| < |(m divisor).toInt| ∧
    (r = 0 ∨ r.sign = (m dividend).toInt.sign) ∧
    (∀ x, quotient = some x → (m' x).toInt = q ∧ (q = 0 → (m' x).sign = 1)) ∧
    ∀ x, remainder = some x → (m' x).toInt = r ∧ (r = 0 → (m' x).sign = 1)

/-- The inputs for which the signs come out right. -/
def SignsRight (m : Mem ι) (dividend divisor : ι) (quotient remainder : Option ι) : Prop :=
  if (m divisor).SmallPower then
    (quotient ≠ none → (m divisor).sign = 1 ∨ mag (m dividend) < mag (m divisor)) ∧
    (remainder ≠ none → (m dividend).top = 0 → ((m dividend).p.headD 0).toNat % mag (m divisor) = 0)
  else mag (m divisor) ≤ mag (m dividend) →
    (∀ q, quotient = some q → (m dividend).sign = (m divisor).sign → (m q).sign = 1) ∧
    ∀ r, remainder = some r → r ≠ dividend →
      if quotient = some dividend ∧ (m dividend).sign ≠ (m divisor).sign then
        (m dividend).sign = -1 ∧ mag (m dividend) % mag (m divisor) ≠ 0
      else mag (m dividend) % mag (m divisor) = 0 → (m dividend).sign = 1

end Operations

section Outcomes

variable {ι : Type} [DecidableEq ι] {m : Mem ι} {dividend divisor : ι} {quotient remainder : Option ι}
  {X D Bq Br : Mpint} {oq or : Obj}

theorem vtomp_left {o : Obj} (hfits : o.top ≤ o.size) (hroom : 2 ≤ o.size) (v : ℤ) :
    ∃ o', vtomp v o = some o' ∧ o.Left (Mp.vtomp v) True o' := by
  obtain ⟨-, -, hsize, -⟩ := mpbits_spec hfits 8
  have hroom' : 2 ≤ (mpbits o 8).size := hsize ▸ hroom.trans (le_max_left _ _)
  rw [vtomp, if_pos hroom']
  exact ⟨_, rfl, @written_left _ _ [UInt32.ofNat v.natAbs, UInt32.ofNat (v.natAbs / 2 ^ 32)] _ hroom'
    (List.cons_ne_nil _ _) _ ((le_max_left _ _).trans_eq hsize.symm)⟩

theorem put_comm (hne : quotient ≠ remainder) (oq or : Obj) :
    put quotient oq (put remainder or m) = put remainder or (put quotient oq m) := by
  cases quotient with
  | none => rfl
  | some q =>
    cases remainder with
    | none => rfl
    | some r => exact Function.update_comm (fun heq => hne (congrArg some heq.symm)) _ _ _

theorem divides_iff (hx : (m dividend).Is X) (hd : (m divisor).Is D) (hD : D.p ≠ []) (hne : quotient ≠ remainder)
    (hq : ∀ q, quotient = some q → oq.Is Bq) (hr : ∀ r, remainder = some r → or.Is Br) :
    Divides m dividend divisor quotient remainder (put remainder or (put quotient oq m)) ↔
      (quotient ≠ none → Bq.toInt = (X.sign * D.sign : ℤˣ) * ((val X.p / val D.p : ℕ) : ℤ) ∧ (Bq.toInt = 0 → Bq.sign = 1)) ∧
      (remainder ≠ none → Br.toInt = X.sign * ((val X.p % val D.p : ℕ) : ℤ) ∧ (Br.toInt = 0 → Br.sign = 1)) := by
  have hD0 : (m divisor).toInt ≠ 0 := by
    rw [hd.toInt]
    exact mt toInt_eq_zero.mp hD
  have hquot : (m dividend).toInt.tdiv (m divisor).toInt = (X.sign * D.sign : ℤˣ) * ((val X.p / val D.p : ℕ) : ℤ) := by
    rw [hx.toInt, hd.toInt]
    exact tdiv_units _ _ _ _
  have hrem : (m dividend).toInt.tmod (m divisor).toInt = X.sign * ((val X.p % val D.p : ℕ) : ℤ) := by
    rw [hx.toInt, hd.toInt]
    exact tmod_units _ _ _ _
  have hputq : ∀ x, quotient = some x → put remainder or (put quotient oq m) x = oq := fun x hx => by
    rw [put_of_ne or fun heq => hne (hx.trans heq.symm), hx, put_self]
  have hputr : ∀ x, remainder = some x → put remainder or (put quotient oq m) x = or := fun x hx => by
    rw [hx, put_self]
  rw [← hquot, ← hrem]
  constructor
  · rintro ⟨q, r, hsum, hlt, hsign, houtq, houtr⟩
    obtain ⟨rfl, rfl⟩ := (truncated_iff hD0).mp ⟨hsum, hlt, hsign⟩
    constructor
    · intro hsome
      obtain ⟨x, hx⟩ := Option.ne_none_iff_exists'.mp hsome
      have hval := houtq x hx
      rw [hputq x hx, (hq x hx).toInt, (hq x hx).sign] at hval
      exact ⟨hval.1, fun hzero => hval.2 (hval.1.symm.trans hzero)⟩
    · intro hsome
      obtain ⟨x, hx⟩ := Option.ne_none_iff_exists'.mp hsome
      have hval := houtr x hx
      rw [hputr x hx, (hr x hx).toInt, (hr x hx).sign] at hval
      exact ⟨hval.1, fun hzero => hval.2 (hval.1.symm.trans hzero)⟩
  · rintro ⟨houtq, houtr⟩
    obtain ⟨hsum, hlt, hsign⟩ := (truncated_iff hD0).mpr ⟨rfl, rfl⟩
    refine ⟨_, _, hsum, hlt, hsign, fun x hx => ?_, fun x hx => ?_⟩
    · have hsome : quotient ≠ none := by simp [hx]
      obtain ⟨hval, hzero⟩ := houtq hsome
      rw [hputq x hx, (hq x hx).toInt, (hq x hx).sign]
      exact ⟨hval, fun h => hzero (hval.trans h)⟩
    · have hsome : remainder ≠ none := by simp [hx]
      obtain ⟨hval, hzero⟩ := houtr hsome
      rw [hputr x hx, (hr x hx).toInt, (hr x hx).sign]
      exact ⟨hval, fun h => hzero (hval.trans h)⟩

theorem divquick_eq (hx : (m dividend).Is X) (hne : quotient ≠ remainder) :
    ∃ oq or, divquick m dividend quotient remainder = put remainder or (put quotient oq m) ∧
      (∀ q, quotient = some q → (m q).Left Mp.mpzero True oq) ∧ ∀ r, remainder = some r → (m r).Left X True or := by
  have hrem : ∃ or, remainder.elim m (mpassign m dividend) = put remainder or m ∧
      ∀ r, remainder = some r → (m r).Left X True or := by
    cases remainder with
    | none => exact ⟨mpzero, rfl, fun r hr => by cases hr⟩
    | some r =>
      refine ⟨_, mpassign_eq m dividend r, fun r' hr' => ?_⟩
      obtain rfl := Option.some_injective _ hr'
      split
      · rename_i heq
        exact heq ▸ ⟨hx, le_rfl, fun _ => .inr ⟨trivial, rfl⟩⟩
      · exact (assign_left hx).mono fun _ => trivial
  obtain ⟨or, hor, hris⟩ := hrem
  rw [divquick, hor]
  cases quotient with
  | none => exact ⟨mpzero, or, rfl, fun q hq => (by cases hq), hris⟩
  | some q =>
    have hkeep : put remainder or m q = m q := put_of_ne or hne.symm
    refine ⟨_, or, put_comm hne _ or, fun q' hq' => ?_, hris⟩
    obtain rfl := Option.some_injective _ hq'
    rw [hkeep]
    exact (assign_left mpzero_is).mono fun _ => trivial

/-- The first digit of a number as `mpdiv` reads it. -/
theorem headD_digits {o : Obj} (h : o.Is X) : o.p.headD 0 = X.p.headD (o.p.headD 0) := by
  rw [← h.digits, Obj.digits]
  cases o.p with
  | nil => simp
  | cons x p =>
    cases o.top with
    | zero => rfl
    | succ n => rfl

theorem divpower_eq (hx : (m dividend).Is X) (hd : (m divisor).Is D) (hD : D.p ≠ []) (hne : quotient ≠ remainder)
    (hfits : ∀ r, quotient = some r ∨ remainder = some r → (m r).top ≤ (m r).size ∧ 2 ≤ (m r).size) :
    ∃ oq or, divpower m dividend divisor quotient remainder = some (put remainder or (put quotient oq m)) ∧
      (∀ q, quotient = some q → (m q).Left (Mp.mpright X (lowbit (D.p.headD 0) 32 0)) True oq) ∧
      ∀ r, remainder = some r → (m r).Left
        (Mp.vtomp (X.sign * ((X.p.headD ((m dividend).p.headD 0) &&& (D.p.headD 0 - 1)).toNat : ℤ))) True or := by
  have hdigit : (m divisor).p.headD 0 = D.p.headD 0 := by
    rw [headD_digits hd]
    obtain ⟨x, p, hp⟩ := List.exists_cons_of_ne_nil hD
    rw [hp]
    rfl
  have hquot : ∃ oq, quotient.elim (some m) (mpright m dividend (lowbit ((m divisor).p.headD 0) 32 0)) =
      some (put quotient oq m) ∧
        ∀ q, quotient = some q → (m q).Left (Mp.mpright X (lowbit (D.p.headD 0) 32 0)) True oq := by
    rw [hdigit]
    cases quotient with
    | none => exact ⟨mpzero, rfl, fun q hq => by cases hq⟩
    | some q =>
      obtain ⟨o, hrun, hleft⟩ := mpright_leaves hx (hfits q (.inl rfl)).1 (lowbit (D.p.headD 0) 32 0)
      exact ⟨o, hrun, fun q' hq' => Option.some_injective _ hq' ▸ hleft.mono fun _ => trivial⟩
  obtain ⟨oq, hrun, hq⟩ := hquot
  have hread := headD_digits hx
  rw [divpower, hrun, Option.bind_eq_bind, Option.bind_some, hdigit, hx.sign]
  generalize (m dividend).p.headD 0 = low at *
  cases remainder with
  | none => exact ⟨oq, mpzero, rfl, hq, fun r hr => by cases hr⟩
  | some r =>
    have hkeep : put quotient oq m r = m r := put_of_ne oq hne
    obtain ⟨hfits, hroom⟩ := hfits r (.inr rfl)
    obtain ⟨o, hv, hleft⟩ := vtomp_left hfits hroom (X.sign * ((X.p.headD low &&& (D.p.headD 0 - 1)).toNat : ℤ))
    rw [← hread] at hv
    rw [Option.elim_some, hkeep, hv]
    exact ⟨oq, o, rfl, hq, fun r' hr' => Option.some_injective _ hr' ▸ hleft⟩

end Outcomes

section Signs

variable {ι : Type} [DecidableEq ι] {m : Mem ι} {dividend divisor : ι} {quotient remainder : Option ι} {X D : Mpint}

theorem mpright_proper (hX : X.p = [] → X.sign = 1) (shift : ℕ) (h : (Mp.mpright X shift).toInt = 0) :
    (Mp.mpright X shift).sign = 1 := by
  have hnil := toInt_eq_zero.mp h
  rw [Mp.mpright] at hnil ⊢
  split
  · rename_i htop
    exact hX (top_eq_zero.mp htop)
  · rename_i htop
    rw [if_neg htop] at hnil
    dsimp only at hnil ⊢
    split
    · rfl
    · rename_i hlong
      rw [if_neg hlong] at hnil
      exact mpnorm_proper _ _ hnil

omit [DecidableEq ι] in
theorem smallPower_iff (hd : (m divisor).Is D) : (m divisor).SmallPower ↔ D.SmallPower := by
  rw [Obj.SmallPower, Mpint.SmallPower, hd.top]
  refine and_congr_right fun htop => ?_
  have hD : D.p ≠ [] := fun hnil => by
    rw [top_eq_zero.mpr hnil] at htop
    exact absurd htop (by decide)
  rw [headD_digits hd]
  obtain ⟨x, p, hp⟩ := List.exists_cons_of_ne_nil hD
  rw [hp]
  rfl

theorem mag_is {o : Obj} (h : o.Is X) : mag o = val X.p := by rw [mag, h.digits]

theorem units_mul_inj {ε δ : ℤˣ} {k : ℕ} : (ε : ℤ) * (k : ℤ) = (δ : ℤ) * k ↔ k = 0 ∨ ε = δ := by
  by_cases hk : k = 0
  · simp [hk]
  · rw [or_iff_right hk, mul_left_inj' (Int.natCast_ne_zero.mpr hk), Units.val_inj]

theorem divpower_signs (hx : (m dividend).Is X) (hX : X.p = [] → X.sign = 1) (hd : (m divisor).Is D) (hD : D.p ≠ [])
    (hne : quotient ≠ remainder) (hpower : (m divisor).SmallPower)
    (hfits : ∀ r, quotient = some r ∨ remainder = some r → (m r).top ≤ (m r).size ∧ 2 ≤ (m r).size) :
    (∃ m', divpower m dividend divisor quotient remainder = some m' ∧ Divides m dividend divisor quotient remainder m') ↔
      (quotient ≠ none → (m divisor).sign = 1 ∨ mag (m dividend) < mag (m divisor)) ∧
      (remainder ≠ none → (m dividend).top = 0 → ((m dividend).p.headD 0).toNat % mag (m divisor) = 0) := by
  obtain ⟨oq, or, hrun, hq, hr⟩ := divpower_eq hx hd hD hne hfits
  obtain ⟨hquot, hrem⟩ := mpdiv_small ((m dividend).p.headD 0) (a := X) ((smallPower_iff hd).mp hpower)
  rw [hrun]
  simp only [Option.some.injEq, exists_eq_left']
  rw [divides_iff hx hd hD hne (fun q h => (hq q h).is) (fun r h => (hr r h).is), hd.sign, mag_is hx, mag_is hd, hx.top, top_eq_zero]
  refine and_congr (imp_congr_right fun _ => ?_) (imp_congr_right fun _ => ?_)
  · have hval : (Mp.mpright X (lowbit (D.p.headD 0) 32 0)).toInt = X.sign * ((val X.p / val D.p : ℕ) : ℤ) := by
      rw [mpright_toInt, ← hquot, mpright_val]
    have hb : ¬ val D.p = 0 := mt val_eq_zero.mp hD
    rw [and_iff_left (mpright_proper hX _), hval, units_mul_inj, Nat.div_eq_zero_iff, or_iff_right hb, left_eq_mul, or_comm]
  · have hproper : ∀ v, (Mp.vtomp v).toInt = 0 → (Mp.vtomp v).sign = 1 := fun v hzero =>
      mpnorm_proper _ _ (toInt_eq_zero.mp hzero)
    rw [and_iff_left (hproper _), hrem, mul_right_inj' (Units.ne_zero _), Nat.cast_inj]
    by_cases hnil : X.p = []
    · simp [hnil]
    · simp [hnil]

theorem divlong_signs (hx : (m dividend).Is X) (hd : (m divisor).Is D) (hD : D.p ≠ []) (hne : quotient ≠ remainder)
    (hle : mag (m divisor) ≤ mag (m dividend))
    (hfits : ∀ r, quotient = some r ∨ remainder = some r → (m r).top ≤ (m r).size) :
    (∃ m', divlong m dividend divisor quotient remainder = some m' ∧ Divides m dividend divisor quotient remainder m') ↔
      (∀ q, quotient = some q → (m dividend).sign = (m divisor).sign → (m q).sign = 1) ∧
      ∀ r, remainder = some r → r ≠ dividend →
        if quotient = some dividend ∧ (m dividend).sign ≠ (m divisor).sign then
          (m dividend).sign = -1 ∧ mag (m dividend) % mag (m divisor) ≠ 0
        else mag (m dividend) % mag (m divisor) = 0 → (m dividend).sign = 1 := by
  rw [mag_is hx, mag_is hd] at hle ⊢
  obtain ⟨oq, or, hrun, hq, hr⟩ := divlong_spec hx.has hd hD hle hne hfits
  have hb : 0 < val D.p := Nat.pos_of_ne_zero (mt val_eq_zero.mp hD)
  have hquot : val X.p / val D.p ≠ 0 := (Nat.div_pos hle hb).ne'
  obtain ⟨Bq, hqis, hqval, hqsign⟩ : ∃ Bq, (∀ q, quotient = some q → oq.Is Bq) ∧
      (quotient ≠ none → val Bq.p = val X.p / val D.p) ∧ ∀ q, quotient = some q → Bq.sign = if (m dividend).sign ≠ (m divisor).sign then -1 else (m q).sign := by
    cases quotient with
    | none => exact ⟨Mp.mpzero, fun q hq => (by cases hq), fun h => absurd rfl h, fun q hq => by cases hq⟩
    | some q =>
      obtain ⟨B, hleft, hval, hsign⟩ := hq q rfl
      exact ⟨B, fun _ _ => hleft.is, fun _ => hval, fun q' hq' => Option.some_injective _ hq' ▸ hsign⟩
  obtain ⟨Br, hris, hrval, hrsign⟩ : ∃ Br, (∀ r, remainder = some r → or.Is Br) ∧
      (remainder ≠ none → val Br.p = val X.p % val D.p) ∧ ∀ r, remainder = some r → Br.sign = if r = dividend then (if val X.p % val D.p = 0 then 1 else X.sign)
        else (put quotient oq m dividend).sign := by
    cases remainder with
    | none => exact ⟨Mp.mpzero, fun r hr => (by cases hr), fun h => absurd rfl h, fun r hr => by cases hr⟩
    | some r =>
      obtain ⟨B, hleft, hval, hsign⟩ := hr r rfl
      exact ⟨B, fun _ _ => hleft.is, fun _ => hval, fun r' hr' => Option.some_injective _ hr' ▸ hsign⟩
  rw [hrun]
  simp only [Option.some.injEq, exists_eq_left']
  rw [divides_iff hx hd hD hne hqis hris]
  refine and_congr ?_ ?_
  · cases quotient with
    | none => simp
    | some q =>
      rw [output_iff (hqval (Option.some_ne_none q)), if_neg hquot, hqsign q rfl, hx.sign, hd.sign]
      simp only [ne_eq, reduceCtorEq, not_false_eq_true, true_imp_iff, Option.some.injEq, forall_eq']
      by_cases hsign : X.sign = D.sign
      · rw [if_neg (not_not.mpr hsign), hsign, Int.units_mul_self]
        exact ⟨fun h _ => h, fun h => h rfl⟩
      · have hprod : X.sign * D.sign = -1 := Int.units_ne_iff_eq_neg.mp fun hone =>
          hsign (mul_eq_one_iff_eq_inv.mp hone |>.trans (Int.units_inv_eq_self _))
        rw [if_pos hsign, hprod]
        simp [hsign]
  · cases remainder with
    | none => simp
    | some r =>
      have hdividend : (put quotient oq m dividend).sign =
          if quotient = some dividend ∧ X.sign ≠ D.sign then -1 else X.sign := by
        by_cases hself : quotient = some dividend
        · have hsign := hqsign dividend hself
          rw [← (hqis dividend hself).sign, hx.sign, hd.sign] at hsign
          simp only [hself, put_self, hsign, true_and]
        · rw [put_of_ne oq hself, if_neg fun h => hself h.1, hx.sign]
      rw [output_iff (hrval (Option.some_ne_none r)), hrsign r rfl, hdividend, hx.sign, hd.sign]
      simp only [ne_eq, reduceCtorEq, not_false_eq_true, true_imp_iff, Option.some.injEq, forall_eq']
      by_cases hr : r = dividend
      · simp [hr]
      · rw [if_neg hr, imp_iff_right hr]
        have hunits : (-1 : ℤˣ) ≠ 1 := by decide
        split
        · by_cases hk : val X.p % val D.p = 0
          · simp [hk, hunits]
          · simp [hk, eq_comm]
        · by_cases hk : val X.p % val D.p = 0
          · simp [hk]
          · simp [hk]

/-- The signs come out right for the inputs that `SignsRight` names and for no others. -/
theorem mpdiv_signs (m : Mem ι) (dividend divisor : ι) (quotient remainder : Option ι)
    (hx : (m dividend).Norm) (hd : (m divisor).Norm) (hpos : (m divisor).top ≠ 0) (hne : quotient ≠ remainder)
    (hfits : ∀ r, quotient = some r ∨ remainder = some r → (m r).top ≤ (m r).size ∧ mpmindigits ≤ (m r).size) :
    (∃ m', mpdiv m dividend divisor quotient remainder = some m' ∧ Divides m dividend divisor quotient remainder m') ↔
      SignsRight m dividend divisor quotient remainder := by
  have hD : (m divisor).digits ≠ [] := fun hnil => hpos (by rw [← digits_length hd.fits, hnil]; rfl)
  rw [mpdiv, if_neg (not_or.mpr ⟨hne, hpos⟩), SignsRight]
  by_cases hpower : (m divisor).SmallPower
  · rw [if_pos hpower, if_pos hpower]
    exact divpower_signs hx.is hx.proper hd.is hD hne hpower fun r hr => ⟨(hfits r hr).1, (by decide : 2 ≤ 33).trans (hfits r hr).2⟩
  · rw [if_neg hpower, if_neg hpower]
    by_cases hle : mag (m divisor) ≤ mag (m dividend)
    · rw [if_neg (mpmagcmp_not_lt hx.is.has hd.is hD hle), divlong_signs hx.is hd.is hD hne hle fun r hr => (hfits r hr).1]
      rw [imp_iff_right hle]
    · have hless : mpmagcmp (m dividend) (m divisor) < 0 := by
        rw [mpmagcmp_is hx.is hd.is, (mpmagcmp_spec _ _).1]
        exact Nat.lt_of_not_le hle
      obtain ⟨oq, or, hrun, hq, hr⟩ := divquick_eq hx.is hne
      rw [if_pos hless, hrun]
      simp only [Option.some.injEq, exists_eq_left']
      rw [divides_iff hx.is hd.is hD hne (fun q h => (hq q h).is) (fun r h => (hr r h).is), iff_true_right fun h => absurd h hle]
      have hlt : val (m dividend).digits < val (m divisor).digits := Nat.lt_of_not_le hle
      rw [Nat.div_eq_of_lt hlt, Nat.mod_eq_of_lt hlt, Nat.cast_zero, mul_zero]
      exact ⟨fun _ => ⟨rfl, fun _ => rfl⟩, fun _ => ⟨rfl, fun hzero => hx.proper (toInt_eq_zero.mp hzero)⟩⟩

/-- The number -9 times the radix by 7. -/
theorem mpdiv_signs_long :
    (∃ m', mpdiv (fun i : Fin 4 => if i = 0 then ⟨-1, 2, [0, 9]⟩ else if i = 1 then ⟨1, 1, [7]⟩ else mpnew 0) 0 1 (some 2)
        (some 3) = some m' ∧
      Divides (fun i : Fin 4 => if i = 0 then ⟨-1, 2, [0, 9]⟩ else if i = 1 then ⟨1, 1, [7]⟩ else mpnew 0) 0 1 (some 2)
        (some 3) m') ↔
      SignsRight (fun i : Fin 4 => if i = 0 then ⟨-1, 2, [0, 9]⟩ else if i = 1 then ⟨1, 1, [7]⟩ else mpnew 0) 0 1 (some 2)
        (some 3) :=
  mpdiv_signs (fun i : Fin 4 => if i = 0 then ⟨-1, 2, [0, 9]⟩ else if i = 1 then ⟨1, 1, [7]⟩ else mpnew 0) 0 1 (some 2) (some 3)
    ⟨by decide, by decide, by decide⟩ ⟨by decide, by decide, by decide⟩ (by decide) (by decide) (by decide)

/-- The number 7 divided by -2 leaves the quotient 3. -/
theorem mpdiv_power_sign :
    ¬ ∃ m', mpdiv (fun i : Fin 4 => if i = 0 then ⟨1, 1, [7]⟩ else if i = 1 then ⟨-1, 1, [2]⟩ else mpnew 0) 0 1 (some 2)
        (some 3) = some m' ∧
      Divides (fun i : Fin 4 => if i = 0 then ⟨1, 1, [7]⟩ else if i = 1 then ⟨-1, 1, [2]⟩ else mpnew 0) 0 1 (some 2)
        (some 3) m' := by
  rintro ⟨m', hrun, q, r, hsum, hlt, -, hq, -⟩
  have hthree : (mpdiv (fun i : Fin 4 => if i = 0 then ⟨1, 1, [7]⟩ else if i = 1 then ⟨-1, 1, [2]⟩ else mpnew 0) 0 1 (some 2)
      (some 3)).map (fun m' => (m' 2).toInt) = some 3 := by decide +kernel
  rw [hrun, Option.map_some, Option.some_inj] at hthree
  have hseven : (7 : ℤ) = q * -2 + r := hsum
  have hsmall : |r| < 2 := hlt
  rw [← (hq 2 rfl).1, hthree] at hseven
  rw [abs_lt] at hsmall
  omega

end Signs

end Petele.Mp.Heap
