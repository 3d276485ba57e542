import Petele.Mp.HeapTurns

namespace Petele.Mp.Heap

open Lib Limbs Inplace

section Operations

variable {ι : Type} [DecidableEq ι]

/-- The numbers of the callers and two new ones. -/
abbrev Local (ι : Type) := ι ⊕ Fin 2

def mag (o : Obj) : ℕ := val o.digits

/-- The divisors that `mpdiv` shifts by. -/
def Obj.SmallPower (o : Obj) : Prop := o.top = 1 ∧ o.p.headD 0 &&& (o.p.headD 0 - 1) = 0

instance (o : Obj) : Decidable o.SmallPower := inferInstanceAs (Decidable (_ ∧ _))

def vtomp (v : ℤ) (b : Obj) : Option Obj :=
  let b := mpbits b 8
  let uv := v.natAbs
  if 2 ≤ b.size then
    some (mpnorm
      { sign := if v < 0 then -1 else 1
        top := 2
        p := splice b.p 0 [UInt32.ofNat uv, UInt32.ofNat (uv / 2 ^ 32)] })
  else none

/-- Step D1: the memory with `u`, and the place of `v`. -/
def divshift (m : Mem ι) (dividend divisor : ι) (s : ℕ) (same : Prop) [Decidable same] :
    Option (Mem (Local ι) × Local ι) :=
  let M : Mem (Local ι) := Sum.elim m fun i =>
    if i = 0 then mpnew (((m dividend).top + 2) * 32 + s) else mpnew ((m divisor).top * 32)
  if same then some (mpassign M (.inl dividend) (.inr 0), .inl divisor)
  else do
    let M ← mpleft M (.inl dividend) s (.inr 0)
    let M ← mpleft M (.inl divisor) s (.inr 1)
    return (M, .inr 1)

/-- Step D1a. -/
def divtop (M : Mem (Local ι)) (v : Local ι) : Option (Mem (Local ι)) := do
  let u : Local ι := .inr 0
  let up ← (M u).p[(M u).top - 1]?
  let vp ← (M v).p[(M v).top - 1]?
  if vp ≤ up then
    let P ← poke (bufs M) u (M u).top 0
    return Function.update M u { M u with top := (M u).top + 1, p := P u }
  else return M

/-- Both, with the shift. -/
def divstart (m : Mem ι) (dividend divisor : ι) (quotient remainder : Option ι) :
    Option (Mem (Local ι) × Local ι × ℕ) := do
  let s := normshift 32 ((m divisor).digits.getLastD 0) 0
  let (M, v) ← divshift m dividend divisor s (s = 0 ∧ some divisor ≠ quotient ∧ some divisor ≠ remainder)
  let M ← divtop M v
  return (M, v, s)

/-- Room for the quotient. -/
def quotroom (M : Mem (Local ι)) (v : Local ι) (quotient : Option ι) : Mem (Local ι) :=
  match quotient with
  | none => M
  | some q =>
    let k := (M (.inr 0)).top - (M v).top
    Function.update M (.inl q) { mpbits (M (.inl q)) (k * 32) with top := k }

/-- The quotient after the loop. -/
def quotend (M : Mem (Local ι)) (dividend divisor : ι) (quotient : Option ι) : Mem (Local ι) :=
  match quotient with
  | none => M
  | some q =>
    let M := Function.update M (.inl q) (mpnorm (M (.inl q)))
    if (M (.inl dividend)).sign ≠ (M (.inl divisor)).sign
    then Function.update M (.inl q) { M (.inl q) with sign := -1 } else M

/-- The remainder, which is shifted back. -/
def remend (M : Mem (Local ι)) (s : ℕ) (dividend : ι) (remainder : Option ι) : Option (Mem (Local ι)) :=
  match remainder with
  | none => some M
  | some r => do
    let M ← mpright M (.inr 0) s (.inl r)
    return Function.update M (.inl r) { M (.inl r) with sign := (M (.inl dividend)).sign }

/-- The long division. -/
def divlong (m : Mem ι) (dividend divisor : ι) (quotient remainder : Option ι) : Option (Mem ι) := do
  let (M, v, s) ← divstart m dividend divisor quotient remainder
  let M := quotroom M v quotient
  let M ← divturns (.inr 0) v (quotient.map .inl) ((M (.inr 0)).top - (M v).top) (M (.inr 0)).top M
  let M ← remend (quotend M dividend divisor quotient) s dividend remainder
  return fun r => M (.inl r)

/-- Division by a power of two. The digit `dividend->p[0]` is read also where the dividend has none. -/
def divpower (m : Mem ι) (dividend divisor : ι) (quotient remainder : Option ι) : Option (Mem ι) := do
  let d := (m divisor).p.headD 0
  let r : ℤ := (m dividend).sign * ((m dividend).p.headD 0 &&& (d - 1)).toNat
  let m ← quotient.elim (some m) (mpright m dividend (lowbit d 32 0))
  remainder.elim (some m) fun rem => (vtomp r (m rem)).map (Function.update m rem)

/-- Division of a number that is less. -/
def divquick (m : Mem ι) (dividend : ι) (quotient remainder : Option ι) : Mem ι :=
  let m := remainder.elim m (mpassign m dividend)
  quotient.elim m fun q => Function.update m q (assign mpzero (m q))

/-- Nothing where an assertion fails and at a divisor of zero, at which `mpdiv` aborts. -/
def mpdiv (m : Mem ι) (dividend divisor : ι) (quotient remainder : Option ι) : Option (Mem ι) :=
  if quotient = remainder ∨ (m divisor).top = 0 then none
  else if (m divisor).SmallPower then divpower m dividend divisor quotient remainder
  else if mpmagcmp (m dividend) (m divisor) < 0 then some (divquick m dividend quotient remainder)
  else divlong m dividend divisor quotient remainder

end Operations

section Start

variable {ι : Type} [DecidableEq ι] {m : Mem ι} {M : Mem (Local ι)} {v : Local ι} {dividend divisor : ι}
  {sign : ℤˣ} {A U V : Vec} {D : Mpint} {s : ℕ}

/-- The memory with the dividend and the divisor shifted, and nothing else changed. -/
structure Shifted (m : Mem ι) (M : Mem (Local ι)) (v : Local ι) (sign : ℤˣ) (U V : Vec) : Prop where
  outer : ∀ r, M (.inl r) = m r
  ne : v ≠ .inr 0
  u : (M (.inr 0)).Has sign U
  vtop : (M v).top = V.length
  vdigits : (M v).p.take V.length = V
  norm : V.getLast? ≠ some 0

theorem mpnew_size (n : ℕ) : DIGITS n ≤ (mpnew n).size ∧ (mpnew n).top = 0 := by
  refine ⟨?_, rfl⟩
  rw [Obj.size, mpnew, List.length_replicate]
  exact le_max_left _ _

theorem divshift_spec (hx : (m dividend).Has sign A) (hA : 0 < val A) (hd : (m divisor).Is D) (same : Prop)
    [Decidable same] (hs : same → s = 0) :
    ∃ M v U V, divshift m dividend divisor s same = some (M, v) ∧ Shifted m M v sign U V ∧
      U.length + 1 < (M (.inr 0)).size ∧ val U = val A * 2 ^ s ∧ val V = val D.p * 2 ^ s ∧
      (v = .inr 1 ∨ same ∧ v = .inl divisor) := by
  set M₀ : Mem (Local ι) := Sum.elim m fun i =>
    if i = 0 then mpnew (((m dividend).top + 2) * 32 + s) else mpnew ((m divisor).top * 32) with hM₀
  have hroom : A.length + 2 + (s + 31) / 32 ≤ (M₀ (.inr 0)).size := by
    have hsize := (mpnew_size (((m dividend).top + 2) * 32 + s)).1
    rw [DIGITS, hx.top] at hsize
    rw [hM₀, Sum.elim_inr, if_pos rfl, hx.top]
    omega
  rw [divshift, ← hM₀]
  by_cases hsame : same
  · have hne : (Sum.inl dividend : Local ι) ≠ .inr 0 := Sum.inl_ne_inr
    have hself : mpassign M₀ (.inl dividend) (.inr 0) (.inr 0) = assign (m dividend) (M₀ (.inr 0)) := by
      rw [mpassign, if_neg hne, Function.update_self]
      rfl
    have houter : ∀ r, mpassign M₀ (.inl dividend) (.inr 0) (.inl r) = m r := fun r => by
      rw [mpassign, if_neg hne, Function.update_of_ne Sum.inl_ne_inr]
      rfl
    rw [if_pos hsame]
    refine ⟨_, _, A, D.p, rfl, ⟨houter, Sum.inl_ne_inr, by rw [hself]; exact assign_has hx, ?_, ?_, D.norm⟩, ?_, ?_, ?_,
      .inr ⟨hsame, rfl⟩⟩
    · rw [houter]
      exact hd.top
    · rw [houter, ← hd.digits, digits_length hd.fits]
      rfl
    · rw [hself, assign_size hx.fits]
      exact lt_of_lt_of_le (by omega) (le_max_left _ _)
    · rw [hs hsame, Nat.pow_zero, Nat.mul_one]
    · rw [hs hsame, Nat.pow_zero, Nat.mul_one]
  · rw [if_neg hsame]
    obtain ⟨X, ⟨o, hrun, hleft⟩, hsign, hval, htop⟩ := mpleft_elsewhere (m := M₀) (b := .inl dividend)
      hx hA (by rw [hM₀, Sum.elim_inr, if_pos rfl]; exact Nat.zero_le _) Sum.inr_ne_inl s
    have hkeep : Function.update M₀ (.inr 0) o (.inl divisor) = m divisor :=
      Function.update_of_ne Sum.inl_ne_inr _ _
    have hnew : (Function.update M₀ (.inr 0) o (.inr 1)).top = 0 := by
      rw [Function.update_of_ne (Sum.inr_injective.ne (by decide : (1 : Fin 2) ≠ 0)), hM₀]
      rfl
    obtain ⟨o', hrun', hleft'⟩ := mpleft_leaves (m := Function.update M₀ (.inr 0) o) (b := .inl divisor)
      (by rw [hkeep]; exact hd) (by rw [hnew]; exact Nat.zero_le _) s
    have hu : Function.update (Function.update M₀ (.inr 0) o) (.inr 1) o' (.inr 0) = o := by
      rw [Function.update_of_ne (Sum.inr_injective.ne (by decide : (0 : Fin 2) ≠ 1)), Function.update_self]
    have hv : Function.update (Function.update M₀ (.inr 0) o) (.inr 1) o' (.inr 1) = o' := Function.update_self _ _ _
    rw [hrun, Option.bind_eq_bind, Option.bind_some, hrun']
    refine ⟨_, _, X.p, (Mp.mpleft D s).p, rfl, ⟨fun r => ?_, Sum.inr_injective.ne (by decide), ?_, ?_, ?_, (Mp.mpleft D s).norm⟩, ?_, hval,
      mpleft_val D s, .inl rfl⟩
    · rw [Function.update_of_ne Sum.inl_ne_inr, Function.update_of_ne Sum.inl_ne_inr]
      rfl
    · rw [hu, ← hsign]
      exact hleft.is.has
    · rw [hv]
      exact hleft'.is.top
    · rw [hv, ← hleft'.is.digits, digits_length hleft'.is.fits]
      rfl
    · rw [hu]
      refine lt_of_lt_of_le ?_ (hroom.trans hleft.size)
      have htop' : X.p.length ≤ A.length + (s + 31) / 32 := htop
      omega

theorem getElem?_last {p W : Vec} {n : ℕ} (h : p.take n = W) (hlen : n = W.length) (hne : W ≠ []) :
    p[n - 1]? = some (W.getLastD 0) := by
  have hpos := List.length_pos_of_ne_nil hne
  have hread := @getElem?_window _ p 0 _ (n - 1) h (by omega)
  rw [Nat.zero_add] at hread
  rw [hread, hlen, ← List.getLast?_eq_getElem?, List.getLast?_eq_getLast_of_ne_nil hne, List.getLastD_eq_getLast?,
    List.getLast?_eq_getLast_of_ne_nil hne]
  rfl

theorem divtop_spec (h : Shifted m M v sign U V) (hU : U ≠ []) (hV : V ≠ []) (hroom : U.length + 1 < (M (.inr 0)).size) :
    ∃ M', divtop M v = some M' ∧ Shifted m M' v sign (widen V U) V ∧ (widen V U).length < (M' (.inr 0)).size := by
  have hup := getElem?_last (n := (M (.inr 0)).top) h.u.digits h.u.top hU
  have hvp := getElem?_last (n := (M v).top) (by rw [h.vtop]; exact h.vdigits) h.vtop hV
  rw [divtop]
  dsimp only
  rw [hup, Option.bind_eq_bind, Option.bind_some, hvp, Option.bind_eq_bind, Option.bind_some, widen]
  by_cases hle : V.getLastD 0 ≤ U.getLastD 0
  · have hplace : (M (.inr 0)).top < (M (.inr 0)).p.length := by
      rw [h.u.top]
      exact Nat.lt_of_succ_lt hroom
    set o : Obj := { M (.inr 0) with top := (M (.inr 0)).top + 1, p := (M (.inr 0)).p.set (M (.inr 0)).top 0 } with ho
    have hself : Function.update M (.inr 0) o (.inr 0) = o := Function.update_self _ _ _
    have hdigits : o.digits = U ++ [0] := by
      have hlow := h.u.digits
      rw [Obj.digits] at hlow
      rw [Obj.digits, ho]
      dsimp only
      rw [List.take_add_one, List.getElem?_set_self hplace, List.take_set_of_le le_rfl, hlow]
      rfl
    rw [if_pos hle, if_pos hle, poke, if_pos (show (M (.inr 0)).top < (bufs M (.inr 0)).length from hplace),
      Option.bind_some, Function.update_self]
    refine ⟨_, rfl, ⟨fun r => ?_, h.ne, ?_, ?_, ?_, h.norm⟩, ?_⟩
    · rw [Function.update_of_ne Sum.inl_ne_inr]
      exact h.outer r
    · change (Function.update M (.inr 0) o (.inr 0)).Has sign (U ++ [0])
      rw [hself]
      refine ⟨h.u.sign, ?_, hdigits⟩
      rw [Obj.size, ho]
      dsimp only
      rw [List.length_set]
      exact hplace
    · rw [Function.update_of_ne h.ne]
      exact h.vtop
    · rw [Function.update_of_ne h.ne]
      exact h.vdigits
    · change (U ++ [0]).length < (Function.update M (.inr 0) o (.inr 0)).size
      rw [hself, List.length_append, Obj.size, ho]
      dsimp only
      rw [List.length_set]
      exact hroom
  · rw [if_neg hle, if_neg hle]
    exact ⟨M, rfl, h, Nat.lt_of_succ_lt hroom⟩

theorem divstart_spec (hx : (m dividend).Has sign A) (hd : (m divisor).Is D) (hD : D.p ≠ []) (hle : val D.p ≤ val A)
    (quotient remainder : Option ι) :
    ∃ M v s U V, divstart m dividend divisor quotient remainder = some (M, v, s) ∧ Shifted m M v sign (widen V U) V ∧
      (widen V U).length < (M (.inr 0)).size ∧ val U = val A * 2 ^ s ∧ val V = val D.p * 2 ^ s ∧
      ∀ r, quotient = some r ∨ remainder = some r → v ≠ .inl r := by
  have hpos : 0 < val D.p := Nat.pos_of_ne_zero (mt val_eq_zero.mp hD)
  set s := normshift 32 ((m divisor).digits.getLastD 0) 0 with hs
  obtain ⟨M, v, U, V, hshift, hshifted, hroom, hU, hV, hplace⟩ := divshift_spec hx (by omega) hd
    (s = 0 ∧ some divisor ≠ quotient ∧ some divisor ≠ remainder) fun hsame => hsame.1
  have hpow : 0 < 2 ^ s := Nat.pow_pos (by decide)
  have hne : ∀ {W : Vec} {k : ℕ}, 0 < k → val W = k * 2 ^ s → W ≠ [] := fun hk hW hnil => by
    have hprod := Nat.mul_pos hk hpow
    rw [hnil, val_nil] at hW
    omega
  obtain ⟨M', htop, hshifted', hroom'⟩ := divtop_spec hshifted (hne (by omega) hU) (hne hpos hV) hroom
  refine ⟨M', v, s, U, V, ?_, hshifted', hroom', hU, hV, fun r hr heq => ?_⟩
  · rw [divstart, ← hs]
    dsimp only
    rw [hshift, Option.bind_eq_bind, Option.bind_some]
    dsimp only
    rw [htop]
    rfl
  · rcases hplace with hplace | ⟨⟨-, hq, hrem⟩, hplace⟩
    · rw [hplace] at heq
      cases heq
    · obtain rfl : divisor = r := Sum.inl_injective (hplace.symm.trans heq)
      rcases hr with hr | hr
      · exact hq hr.symm
      · exact hrem hr.symm

theorem quotroom_of_ne {quotient : Option ι} {x : Local ι} (h : ∀ r, quotient = some r → x ≠ .inl r) :
    quotroom M v quotient x = M x := by
  cases quotient with
  | none => rfl
  | some q => exact Function.update_of_ne (h q rfl) _ _

/-- The loop has what it needs once there is room for the quotient. -/
theorem Shifted.dividing (h : Shifted m M v sign (widen V U) V) (hroom : (widen V U).length < (M (.inr 0)).size)
    (hV : 0 < val V) (hle : val V ≤ val U) {quotient : Option ι} (hv : ∀ r, quotient = some r → v ≠ .inl r) :
    Dividing (quotroom M v quotient) (Sum.inr 0 : Local ι) v V ((widen V U).take ((widen V U).length - V.length)).reverse
      ((widen V U).drop ((widen V U).length - V.length)) := by
  obtain ⟨hhigh, hlen, -, hlt⟩ := widen_spec h.norm hV hle
  set W := widen V U with hW
  have hu : quotroom M v quotient (.inr 0) = M (.inr 0) := quotroom_of_ne fun _ _ => Sum.inr_ne_inl
  have hkeep : quotroom M v quotient v = M v := quotroom_of_ne hv
  have htake : (W.take (W.length - V.length)).reverse.length = W.length - V.length := by
    rw [List.length_reverse, List.length_take]
    omega
  refine ⟨h.ne, by rw [hkeep]; exact h.vtop, by rw [hkeep]; exact h.vdigits, hhigh, ?_, hlt, ?_, ?_⟩
  · rw [List.length_drop]
    omega
  · have hdigits := h.u.digits
    rw [Obj.digits, h.u.top] at hdigits
    rw [hu, htake, Nat.sub_add_cancel hlen.le, hdigits, List.reverse_reverse, List.take_append_drop]
  · rw [hu, htake, Nat.sub_add_cancel hlen.le]
    exact hroom

end Start

section Long

variable {ι : Type} [DecidableEq ι] {m : Mem ι} {dividend divisor : ι} {quotient remainder : Option ι}
  {sign : ℤˣ} {A : Vec} {D : Mpint}

def put (r : Option ι) (o : Obj) (m : Mem ι) : Mem ι := r.elim m fun r => Function.update m r o

theorem put_of_ne {r : Option ι} {x : ι} (o : Obj) (h : r ≠ some x) : put r o m x = m x := by
  cases r with
  | none => rfl
  | some r => exact Function.update_of_ne (fun heq => h (congrArg some heq.symm)) _ _

theorem put_self {x : ι} (o : Obj) : put (some x) o m x = o := Function.update_self _ _ _

theorem shiftright_sign (sign : ℤˣ) (p : Vec) (shift : ℕ) :
    (shiftright sign p shift).sign = if val p / 2 ^ shift = 0 then 1 else sign := by
  have hval := shiftright_val sign p shift
  rw [← hval]
  rw [shiftright]
  split
  · exact (if_pos rfl).symm
  · have hnil : strip (if shift % 32 = 0 then p.drop (shift / 32) else rightloop (shift % 32) (p.drop (shift / 32))) = [] ↔
        val (strip (if shift % 32 = 0 then p.drop (shift / 32) else rightloop (shift % 32) (p.drop (shift / 32)))) = 0 :=
      (val_eq_zero (b := Mp.mpnorm sign _)).symm
    simp only [Mp.mpnorm, hnil]

theorem quotend_spec {M : Mem (Local ι)} {Q : Vec} (hM : ∀ r, quotient ≠ some r → M (.inl r) = m r) (hQ : 0 < val Q)
    (hplace : ∀ q, quotient = some q → ∃ p, M (.inl q) = ⟨(m q).sign, Q.length, splice p 0 Q⟩ ∧ Q.length ≤ p.length ∧
      (m q).size ≤ p.length) :
    ∃ oq, (∀ r, quotend M dividend divisor quotient (.inl r) = put quotient oq m r) ∧
      quotend M dividend divisor quotient (.inr 0) = M (.inr 0) ∧
      ∀ q, quotient = some q → ∃ B, (m q).Left B True oq ∧ val B.p = val Q ∧
        B.sign = if (m dividend).sign ≠ (m divisor).sign then -1 else (m q).sign := by
  cases quotient with
  | none => exact ⟨mpzero, fun r => hM r (Option.some_ne_none r).symm, rfl, fun q hq => by cases hq⟩
  | some q =>
    obtain ⟨p, hp, hlen, hsize⟩ := hplace q rfl
    have hne : Q ≠ [] := fun hnil => by
      rw [hnil, val_nil] at hQ
      omega
    have hleft := written_left (m q).sign hlen hne (Z := True) hsize
    have hnormsign : (mpnorm (M (.inl q))).sign = (m q).sign := by
      rw [hp, hleft.is.sign]
      exact mpnorm_sign hQ _
    have hsigns : ∀ x, (Function.update M (.inl q) (mpnorm (M (.inl q))) (.inl x)).sign = (m x).sign := by
      intro x
      rcases eq_or_ne x q with rfl | hx
      · rw [Function.update_self]
        exact hnormsign
      · rw [Function.update_of_ne (Sum.inl_injective.ne hx), hM x fun heq => hx (Option.some_injective _ heq).symm]
    have houter : ∀ (o : Obj) r, Function.update M (.inl q) o (.inl r) = put (some q) o m r := by
      intro o r
      rcases eq_or_ne r q with rfl | hr
      · rw [Function.update_self, put_self]
      · have hr' : some q ≠ some r := fun heq => hr (Option.some_injective _ heq).symm
        rw [Function.update_of_ne (Sum.inl_injective.ne hr), put_of_ne o hr', hM r hr']
    have hval : val (Mp.mpnorm (m q).sign Q).p = val Q := by rw [mpnorm_p, val_strip]
    rw [quotend]
    dsimp only
    rw [hsigns, hsigns]
    by_cases hsign : (m dividend).sign ≠ (m divisor).sign
    · rw [if_pos hsign, Function.update_self, Function.update_idem, hp]
      exact ⟨_, houter _, Function.update_of_ne Sum.inr_ne_inl _ _, fun q' hq' => by
        obtain rfl := Option.some_injective _ hq'
        exact ⟨_, hleft.withSign (-1), hval, (if_pos hsign).symm⟩⟩
    · rw [if_neg hsign, hp]
      exact ⟨_, houter _, Function.update_of_ne Sum.inr_ne_inl _ _, fun q' hq' => by
        obtain rfl := Option.some_injective _ hq'
        exact ⟨_, hleft, hval, (mpnorm_sign hQ _).trans (if_neg hsign).symm⟩⟩

theorem remend_spec {M : Mem (Local ι)} {N : Mem ι} {R : Vec} {s : ℕ} (hM : ∀ r, M (.inl r) = N r)
    (hu : (M (.inr 0)).Has sign R) (hR : R ≠ []) (hfits : ∀ r, remainder = some r → (N r).top ≤ (N r).size) :
    ∃ or M', remend M s dividend remainder = some M' ∧ (∀ r, M' (.inl r) = put remainder or N r) ∧
      ∀ r, remainder = some r → ∃ B, (N r).Left B True or ∧ val B.p = val R / 2 ^ s ∧
        B.sign = if r = dividend then (if val R / 2 ^ s = 0 then 1 else sign) else (N dividend).sign := by
  cases remainder with
  | none => exact ⟨mpzero, M, rfl, hM, fun r hr => by cases hr⟩
  | some r =>
    obtain ⟨o, hrun, hleft⟩ := mpright_digits hu hR (by rw [hM]; exact hfits r rfl) s
      fun hsame => Sum.inl_ne_inr hsame.1
    rw [hM] at hleft
    rw [remend, hrun, Option.bind_eq_bind, Option.bind_some, Function.update_self, Function.update_idem]
    refine ⟨{ o with sign := (Function.update M (.inl r) o (.inl dividend)).sign }, _, rfl, fun x => ?_, fun r' hr' => ?_⟩
    · rcases eq_or_ne x r with rfl | hx
      · rw [Function.update_self, put_self]
      · rw [Function.update_of_ne (Sum.inl_injective.ne hx), hM]
        exact (put_of_ne _ fun heq => hx (Option.some_injective _ heq).symm).symm
    · obtain rfl := Option.some_injective _ hr'
      refine ⟨_, (hleft.mono fun _ => trivial).withSign _, shiftright_val sign R s, ?_⟩
      change (Function.update M (Sum.inl r) o (Sum.inl dividend)).sign = _
      rcases eq_or_ne r dividend with rfl | hr
      · rw [Function.update_self, if_pos rfl, hleft.is.sign, shiftright_sign]
      · rw [Function.update_of_ne (Sum.inl_injective.ne hr.symm), if_neg hr, hM]

/-- The state in which the loop starts and what it computes. -/
theorem divlong_start (hx : (m dividend).Has sign A) (hd : (m divisor).Is D) (hD : D.p ≠ []) (hle : val D.p ≤ val A)
    (hfits : ∀ r, quotient = some r ∨ remainder = some r → (m r).top ≤ (m r).size) :
    ∃ M v s V ds R, divstart m dividend divisor quotient remainder = some (M, v, s) ∧
      (∀ r, M (.inl r) = m r) ∧ (M (.inr 0)).sign = sign ∧
      (M (.inr 0)).top = ds.length + V.length ∧ (M v).top = V.length ∧
      (∀ r, quotient = some r → v ≠ .inl r) ∧
      Dividing (quotroom M v quotient) (.inr 0) v V ds R ∧
      (∀ q, quotient = some q → quotroom M v quotient (.inl q) = { mpbits (m q) (ds.length * 32) with top := ds.length } ∧
        ds.length ≤ (quotroom M v quotient (.inl q)).size ∧ (m q).size ≤ (quotroom M v quotient (.inl q)).size) ∧
      val (divloop V ds R []).1 = val A / val D.p ∧ val (divloop V ds R []).2 / 2 ^ s = val A % val D.p := by
  obtain ⟨M, v, s, U, V, hstart, hshifted, hroom, hU, hV, hplace⟩ := divstart_spec hx hd hD hle quotient remainder
  have hpos : 0 < val D.p := Nat.pos_of_ne_zero (mt val_eq_zero.mp hD)
  have hpow : 0 < 2 ^ s := Nat.pow_pos (by decide)
  have hVpos : 0 < val V := hV ▸ Nat.mul_pos hpos hpow
  have hVU : val V ≤ val U := by
    rw [hV, hU]
    exact Nat.mul_le_mul_right _ hle
  have hdiv := hshifted.dividing hroom hVpos hVU fun r hr => hplace r (.inl hr)
  obtain ⟨-, hlong, -, -⟩ := widen_spec hshifted.norm hVpos hVU
  obtain ⟨hquot, hrem⟩ := divloop_widen hshifted.norm hVpos hVU
  set W := widen V U with hW
  set ds := (W.take (W.length - V.length)).reverse with hds
  have hdslen : ds.length = W.length - V.length := by
    rw [hds, List.length_reverse, List.length_take]
    omega
  refine ⟨M, v, s, V, ds, _, hstart, hshifted.outer, hshifted.u.sign, by rw [hshifted.u.top]; omega, hshifted.vtop,
    fun r hr => hplace r (.inl hr), hdiv, fun q hq => ?_, ?_, ?_⟩
  · have hself : quotroom M v quotient (.inl q) = { mpbits (m q) (ds.length * 32) with top := ds.length } := by
      rw [hq, quotroom]
      dsimp only
      rw [Function.update_self, hshifted.outer, hshifted.u.top, hshifted.vtop, hdslen]
    obtain ⟨-, -, hsize, -⟩ := mpbits_spec (hfits q (.inl hq)) (ds.length * 32)
    have hdigits : DIGITS (ds.length * 32) = ds.length := by
      rw [DIGITS]
      omega
    rw [hdigits] at hsize
    have hsize' : (quotroom M v quotient (.inl q)).size = max (m q).size ds.length := by
      rw [hself]
      exact hsize
    rw [hsize']
    exact ⟨hself, le_max_right _ _, le_max_left _ _⟩
  · rw [hquot, hU, hV, Nat.mul_div_mul_right _ _ hpow]
  · rw [hrem, hU, hV, Nat.mul_mod_mul_right, Nat.mul_div_cancel _ hpow]

omit [DecidableEq ι] in
/-- The places that the loop does not write. -/
theorem map_inl_ne {x : Local ι} (h : ∀ r, quotient = some r → x ≠ .inl r) : quotient.map .inl ≠ some x := fun heq => by
  obtain ⟨q, hq, hqx⟩ := Option.map_eq_some_iff.mp heq
  exact h q hq hqx.symm

theorem divlong_spec (hx : (m dividend).Has sign A) (hd : (m divisor).Is D) (hD : D.p ≠ []) (hle : val D.p ≤ val A)
    (hne : quotient ≠ remainder)
    (hfits : ∀ r, quotient = some r ∨ remainder = some r → (m r).top ≤ (m r).size) :
    ∃ oq or, divlong m dividend divisor quotient remainder = some (put remainder or (put quotient oq m)) ∧
      (∀ q, quotient = some q → ∃ B, (m q).Left B True oq ∧ val B.p = val A / val D.p ∧
        B.sign = if (m dividend).sign ≠ (m divisor).sign then -1 else (m q).sign) ∧
      ∀ r, remainder = some r → ∃ B, (m r).Left B True or ∧ val B.p = val A % val D.p ∧
        B.sign = if r = dividend then (if val A % val D.p = 0 then 1 else sign)
          else (put quotient oq m dividend).sign := by
  obtain ⟨M, v, s, V, ds, T, hstart, hsame, husign, hutop, hvtop, hplace, hdiv, hbits, hQval, hRval⟩ :=
    divlong_start hx hd hD hle hfits
  have hpos : 0 < val D.p := Nat.pos_of_ne_zero (mt val_eq_zero.mp hD)
  set M₁ := quotroom M v quotient with hM₁
  have hu₁ : M₁ (.inr 0) = M (.inr 0) := quotroom_of_ne fun _ _ => Sum.inr_ne_inl
  have hv₁ : M₁ v = M v := quotroom_of_ne hplace
  obtain ⟨o, hrun, htop, hsign, hsize, hdigits⟩ := divturns_spec (q := quotient.map .inl) hdiv
    (map_inl_ne fun _ _ => Sum.inr_ne_inl) (map_inl_ne hplace) (by
      intro r hr
      obtain ⟨q, hq, rfl⟩ := Option.map_eq_some_iff.mp hr
      exact (hbits q hq).2.1)
  set Q := (divloop V ds T []).1 with hQ
  set R := (divloop V ds T []).2 with hR
  have hQlen : Q.length = ds.length := length_divloop V ds _
  have hotop : o.top = V.length := by
    rw [htop, hu₁, hutop]
    omega
  have hohas : o.Has sign R := by
    refine ⟨hsign.trans (by rw [hu₁]; exact husign), ?_, ?_⟩
    · have hspace := hdiv.room
      rw [hsize, hotop]
      omega
    · rw [Obj.digits, hotop]
      exact hdigits
  have hRne : R ≠ [] := fun hnil => by
    have hlen := hohas.top
    rw [hotop, hnil] at hlen
    exact absurd hlen (hdiv.pos).ne'
  set M₂ := Function.update (withdigits M₁ (quotient.map .inl) 0 Q) (.inr 0) o with hM₂
  have houter : ∀ r, quotient ≠ some r → M₂ (.inl r) = m r := by
    intro r hr
    have hother : ∀ q, quotient = some q → (Sum.inl r : Local ι) ≠ .inl q := fun q hq heq =>
      hr (hq.trans (congrArg some (Sum.inl_injective heq).symm))
    rw [hM₂, Function.update_of_ne Sum.inl_ne_inr, withdigits_of_ne (map_inl_ne hother), hM₁, quotroom_of_ne hother, hsame]
  have hquotient : ∀ q, quotient = some q → ∃ p, M₂ (.inl q) = ⟨(m q).sign, Q.length, splice p 0 Q⟩ ∧
      Q.length ≤ p.length ∧ (m q).size ≤ p.length := by
    intro q hq
    obtain ⟨hself, hlen, hkeep⟩ := hbits q hq
    refine ⟨(M₁ (.inl q)).p, ?_, hQlen.trans_le hlen, hkeep⟩
    rw [hM₂, Function.update_of_ne Sum.inl_ne_inr, hq, Option.map_some, withdigits, Option.elim_some, Function.update_self,
      hQlen, hself]
    exact congrArg (fun sign => (⟨sign, _, _⟩ : Obj)) (mpbits_spec (hfits q (.inl hq)) _).1
  obtain ⟨oq, hq, hqu, hqspec⟩ := quotend_spec houter
    (hQval ▸ Nat.div_pos hle hpos) hquotient
  obtain ⟨or, M₃, hrem, hr, hrspec⟩ := remend_spec (s := s) hq
    (by rw [hqu, hM₂, Function.update_self]; exact hohas) hRne (by
      intro r hr
      rw [put_of_ne oq fun heq => hne (heq.trans hr.symm)]
      exact hfits r (.inr hr))
  refine ⟨oq, or, ?_, fun q hq => ?_, fun r hr => ?_⟩
  · have hall : (M₁ (.inr 0)).top = ds.length + V.length := by rw [hu₁, hutop]
    have hcount : (M₁ (.inr 0)).top - (M₁ v).top = ds.length := by rw [hall, hv₁, hvtop, Nat.add_sub_cancel]
    rw [divlong, hstart, Option.bind_eq_bind, Option.bind_some]
    dsimp only
    rw [← hM₁, hcount, hall, hrun, Option.bind_eq_bind, Option.bind_some, hrem, Option.bind_some]
    exact congrArg some (funext hr)
  · rw [← hQval]
    exact hqspec q hq
  · obtain ⟨B, hleft, hval, hsign⟩ := hrspec r hr
    rw [put_of_ne oq fun heq => hne (heq.trans hr.symm)] at hleft
    rw [hRval] at hval hsign
    exact ⟨B, hleft, hval, hsign⟩

omit [DecidableEq ι] in
theorem mpmagcmp_not_lt (hx : (m dividend).Has sign A) (hd : (m divisor).Is D) (hD : D.p ≠ []) (hle : val D.p ≤ val A) :
    ¬ mpmagcmp (m dividend) (m divisor) < 0 := by
  have hlen : D.top ≤ A.length := by
    have hlow := (pow_le_val hD).trans_lt (hle.trans_lt (val_lt A))
    rw [Nat.pow_lt_pow_iff_right (by decide)] at hlow
    omega
  rw [mpmagcmp, hx.top, hd.top, hx.digits, hd.digits]
  split
  · omega
  · rw [(mpveccmp_spec A D.p).1]
    exact Nat.not_lt.mpr hle

theorem mpdiv_long (hx : (m dividend).Has sign A) (hd : (m divisor).Is D) (hD : D.p ≠ []) (hle : val D.p ≤ val A)
    (hpower : ¬ (m divisor).SmallPower) (hne : quotient ≠ remainder) :
    mpdiv m dividend divisor quotient remainder = divlong m dividend divisor quotient remainder := by
  have htop : ¬ (m divisor).top = 0 := by
    rw [hd.top]
    exact mt top_eq_zero.mp hD
  rw [mpdiv, if_neg (not_or.mpr ⟨hne, htop⟩), if_neg hpower, if_neg (mpmagcmp_not_lt hx hd hD hle)]

end Long

section Knuth

variable {ι : Type} [DecidableEq ι]

/-- The long division is right, also for a dividend that is not normalized and for outputs in the places
of the inputs. In each turn the loop of step D3a takes as many steps as the digit goes down by, and leaves it
right or one too high. -/
theorem mpdiv_knuth (m : Mem ι) (dividend divisor : ι) (quotient remainder : Option ι)
    (hx : (m dividend).top ≤ (m dividend).size) (hd : (m divisor).Norm) (hne : quotient ≠ remainder)
    (hfits : ∀ r, quotient = some r ∨ remainder = some r → (m r).top ≤ (m r).size)
    (hpower : ¬ (m divisor).SmallPower) (hpos : 0 < mag (m divisor)) (hle : mag (m divisor) ≤ mag (m dividend)) :
    (∃ m' q r, mpdiv m dividend divisor quotient remainder = some m' ∧
      mag (m dividend) = q * mag (m divisor) + r ∧ r < mag (m divisor) ∧
      (∀ x, quotient = some x → mag (m' x) = q) ∧ ∀ x, remainder = some x → mag (m' x) = r) ∧
    ∀ M v s, divstart m dividend divisor quotient remainder = some (M, v, s) →
      ∀ k N, k < (M (.inr 0)).top - (M v).top →
        divturns (.inr 0) v (quotient.map .inl) k (M (.inr 0)).top (quotroom M v quotient) = some N →
        let j := (M (.inr 0)).top - k
        let window := val (((N (.inr 0)).p.drop (j - 1 - (N v).top)).take ((N v).top + 1))
        ∃ qd n qd', firstdigit N (.inr 0) v j = some qd ∧ qd'.toNat + n = qd.toNat ∧
          (∀ fuel, n < fuel → trialdigit N (.inr 0) v j fuel = some qd') ∧
          (qd'.toNat = window / mag (N v) ∨ qd'.toNat = window / mag (N v) + 1) := by
  have hD : (m divisor).digits ≠ [] := fun hnil => by
    rw [mag, hnil, val_nil] at hpos
    omega
  have hhas : (m dividend).Has (m dividend).sign (m dividend).digits := ⟨rfl, hx, rfl⟩
  constructor
  · obtain ⟨oq, or, hrun, hq, hr⟩ := divlong_spec hhas hd.is hD hle hne hfits
    refine ⟨_, mag (m dividend) / mag (m divisor), mag (m dividend) % mag (m divisor),
      (mpdiv_long hhas hd.is hD hle hpower hne).trans hrun, ?_, Nat.mod_lt _ hpos, fun x hx => ?_, fun x hx => ?_⟩
    · rw [Nat.mul_comm]
      exact (Nat.div_add_mod _ _).symm
    · obtain ⟨B, hleft, hval, -⟩ := hq x hx
      rw [put_of_ne or fun heq => hne (hx.trans heq.symm), hx, put_self, mag, hleft.is.digits]
      exact hval
    · obtain ⟨B, hleft, hval, -⟩ := hr x hx
      rw [hx, put_self, mag, hleft.is.digits]
      exact hval
  · intro M v s hstart k N hk hrun
    obtain ⟨M', v', s', V, ds, T, hstart', -, -, hutop, hvtop, hplace, hdiv, hbits, -, -⟩ :=
      divlong_start hhas hd.is hD hle hfits
    obtain ⟨rfl, rfl, rfl⟩ : M' = M ∧ v' = v ∧ s' = s := by
      rw [hstart] at hstart'
      cases hstart'
      exact ⟨rfl, rfl, rfl⟩
    rw [hutop, hvtop, Nat.add_sub_cancel] at hk
    obtain ⟨N', T', hrun', hdiv'⟩ := divturns_visits (q := quotient.map .inl) hdiv
      (map_inl_ne fun _ _ => Sum.inr_ne_inl) (map_inl_ne hplace) (by
        intro r hr
        obtain ⟨q, hq, rfl⟩ := Option.map_eq_some_iff.mp hr
        exact (hbits q hq).2.1) hk.le
    rw [hutop, hrun'] at hrun
    obtain rfl := Option.some_injective _ hrun
    obtain ⟨d, ds', hds⟩ := List.exists_cons_of_ne_nil (l := ds.drop k) (fun hnil => by
      have hlen := congrArg List.length hnil
      rw [List.length_drop, List.length_nil] at hlen
      omega)
    have hlen := congrArg List.length hds
    rw [List.length_drop, List.length_cons] at hlen
    rw [hds] at hdiv'
    obtain ⟨qd, n, hfirst, hsum, htrial⟩ := trialdigit_eq hdiv'
    obtain ⟨-, hge, hest⟩ := estimate_spec hdiv'.window_length hdiv'.high hdiv'.window_lt
    have hmag : mag (N' v') = val V := by rw [mag, Obj.digits, hdiv'.vtop, hdiv'.vdigits]
    dsimp only
    rw [hutop, show ds.length + V.length - k = ds'.length + 1 + V.length by omega, hdiv'.vtop,
      show ds'.length + 1 + V.length - 1 - V.length = ds'.length by omega, hdiv'.window, hmag]
    exact ⟨qd, n, _, hfirst, hsum, htrial, by omega⟩

/-- A quotient and a remainder in the places of the operands. -/
theorem mpdiv_knuth_inplace :
    ∃ m' q r, mpdiv (fun i : Fin 2 => if i = 0 then ⟨1, 3, [5, 7, 9]⟩ else ⟨-1, 2, [3, 2]⟩) 0 1 (some 0) (some 1) = some m' ∧
      mag ⟨1, 3, [5, 7, 9]⟩ = q * mag ⟨-1, 2, [3, 2]⟩ + r ∧ r < mag ⟨-1, 2, [3, 2]⟩ ∧ mag (m' 0) = q ∧ mag (m' 1) = r := by
  obtain ⟨⟨m', q, r, hrun, hsum, hlt, hq, hr⟩, -⟩ :=
    mpdiv_knuth (fun i : Fin 2 => if i = 0 then ⟨1, 3, [5, 7, 9]⟩ else ⟨-1, 2, [3, 2]⟩) 0 1 (some 0) (some 1)
      (by decide) ⟨by decide, by decide, by decide⟩ (by decide) (by decide) (by decide) (by decide) (by decide)
  exact ⟨m', q, r, hrun, hsum, hlt, hq 0 rfl, hr 1 rfl⟩

end Knuth

end Petele.Mp.Heap
