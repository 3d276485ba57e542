import Petele.Mp.HeapSign

namespace Petele.Mp.Heap

open Lib Limbs Inplace

section Operations

variable {ι : Type} [DecidableEq ι]

/-- The `reduce` function of a field, from the number and what is in the place of the residue; nothing where
it returns -1. -/
abbrev Reduce := Obj → Obj → Option Obj

def mpmod (f : Option Reduce) (m : Mem ι) (x n r : ι) : Option (Mem ι) := do
  let sign := (m x).sign
  let copy := mpcopy (m n)
  let ns : ι ⊕ Unit := if sign = -1 ∧ n = r then .inr () else .inl n
  let m ← (f.bind fun reduce => reduce (m x) (m r)).elim (mpdiv m x n none (some r)) fun o =>
    some (Function.update m r o)
  if sign = -1 then
    let M ← mpmagsub (Sum.elim m fun _ => copy) ns (.inl r) (.inl r)
    return fun r => M (.inl r)
  else return m

end Operations

section Specs

variable {ι : Type} [DecidableEq ι] {m : Mem ι} {x n r : ι} {X N : Mpint}

/-- The remainder without its sign, which is 1 for a number that is not negative. -/
theorem mpdiv_remainder (hx : (m x).Is X) (hclean : (m x).Clean) (hn : (m n).Is N) (hN : N.p ≠ [])
    (hr : (m r).top ≤ (m r).size) (hroom : 2 ≤ (m r).size) :
    ∃ B, Leaves m r B True (mpdiv m x n none (some r)) ∧ val B.p = val X.p % val N.p ∧ (X.sign = 1 → B.sign = 1) := by
  have hne : (none : Option ι) ≠ some r := (Option.some_ne_none r).symm
  have htop : ¬ (m n).top = 0 := by
    rw [hn.top]
    exact mt top_eq_zero.mp hN
  by_cases hpower : (m n).SmallPower
  · obtain ⟨oq, or, hrun, -, hor⟩ := divpower_eq hx hn hN hne fun r' hr' => by
      obtain rfl : r = r' := by simpa using hr'
      exact ⟨hr, hroom⟩
    obtain ⟨-, hrem⟩ := mpdiv_small ((m x).p.headD 0) (a := X) ((smallPower_iff hn).mp hpower)
    refine ⟨_, ⟨or, ?_, hor r rfl⟩, ?_, fun hsign => ?_⟩
    · rw [mpdiv, if_neg (not_or.mpr ⟨hne, htop⟩), if_pos hpower, hrun]
      rfl
    · have hzero : X.p = [] → ((m x).p.headD 0).toNat = 0 := fun hnil => by
        rw [hclean (hx.top.trans (top_eq_zero.mpr hnil))]
        rfl
      rw [← abs_toInt, hrem, Int.natAbs_mul, Int.natAbs_natCast, Int.units_natAbs, Nat.one_mul]
      split
      · rename_i hnil
        rw [hzero hnil, hnil, val_nil]
      · rfl
    · rw [hsign, Units.val_one, one_mul]
      refine (ite_eq_left_iff.mpr fun _ => ?_)
      exact if_neg (Int.not_lt.mpr (Int.natCast_nonneg _))
  · by_cases hle : val N.p ≤ val X.p
    · obtain ⟨oq, or, hrun, -, hor⟩ := divlong_spec hx.has hn hN hle hne
        fun r' hr' => by
          obtain rfl : r = r' := by simpa using hr'
          exact hr
      obtain ⟨B, hleft, hval, hsign⟩ := hor r rfl
      refine ⟨B, ⟨or, ?_, hleft⟩, hval, fun hone => ?_⟩
      · rw [mpdiv_long hx.has hn hN hle hpower hne, hrun]
        rfl
      · have hkeep : (put none oq m x).sign = 1 := hx.sign.trans hone
        rw [hsign, hkeep, hone]
        simp
    · have hless : mpmagcmp (m x) (m n) < 0 := by
        rw [mpmagcmp_is hx hn, (mpmagcmp_spec _ _).1]
        exact Nat.lt_of_not_le hle
      obtain ⟨oq, or, hrun, -, hor⟩ := divquick_eq hx hne
      refine ⟨X, ⟨or, ?_, hor r rfl⟩, (Nat.mod_eq_of_lt (Nat.lt_of_not_le hle)).symm, id⟩
      rw [mpdiv, if_neg (not_or.mpr ⟨hne, htop⟩), if_neg hpower, if_pos hless, hrun]
      rfl

/-- What `reduce` leaves if it does not refuse. -/
def Reduces (f : Option Reduce) (m : Mem ι) (r : ι) (X N : Mpint) (x : ι) : Prop :=
  ∀ reduce, f = some reduce → ∀ o, reduce (m x) (m r) = some o →
    ∃ B, (m r).Left B True o ∧ B.sign = 1 ∧ val B.p = val X.p % val N.p

theorem mpmod_leaves (f : Option Reduce) (hx : (m x).Is X) (hclean : (m x).Clean) (hn : (m n).Is N) (hN : N.p ≠ [])
    (hr : (m r).top ≤ (m r).size) (hroom : 2 ≤ (m r).size) (hf : Reduces f m r X N x) :
    ∃ B, Leaves m r B True (mpmod f m x n r) ∧
      (X.sign = 1 → B.sign = 1 ∧ val B.p = val X.p % val N.p) ∧
      (X.sign = -1 → B.toInt = (val N.p : ℤ) - (val X.p % val N.p : ℕ)) := by
  obtain ⟨B, ⟨o, hrun, hleft⟩, hval, hsign⟩ : ∃ B, Leaves m r B True
      ((f.bind fun reduce => reduce (m x) (m r)).elim (mpdiv m x n none (some r)) fun o =>
        some (Function.update m r o)) ∧ val B.p = val X.p % val N.p ∧ (X.sign = 1 → B.sign = 1) := by
    cases hred : f.bind fun reduce => reduce (m x) (m r) with
    | none => exact mpdiv_remainder hx hclean hn hN hr hroom
    | some o =>
      obtain ⟨reduce, hf', ho⟩ := Option.bind_eq_some_iff.mp hred
      obtain ⟨B, hleft, hsign, hval⟩ := hf reduce hf' o ho
      exact ⟨B, ⟨o, rfl, hleft⟩, hval, fun _ => hsign⟩
  rw [mpmod, hrun, Option.bind_eq_bind, Option.bind_some, hx.sign]
  by_cases hneg : X.sign = -1
  · have hone : ¬ X.sign = 1 := by
      rw [hneg]
      decide
    set ns : ι ⊕ Unit := if X.sign = -1 ∧ n = r then .inr () else .inl n with hns
    set M : Mem (ι ⊕ Unit) := Sum.elim (Function.update m r o) fun _ => mpcopy (m n) with hM
    have hr' : M (.inl r) = o := Function.update_self _ _ _
    have hnN : (M ns).Is N := by
      by_cases heq : n = r
      · rw [hns, if_pos ⟨hneg, heq⟩]
        exact mpcopy_is hn
      · rw [hns, if_neg fun h => heq h.2, hM, Sum.elim_inl, Function.update_of_ne heq]
        exact hn
    obtain ⟨o', hrun', hleft'⟩ := mpmagsub_leaves hnN (hr' ▸ hleft.is : (M (.inl r)).Is B)
      (hr' ▸ hleft.fits)
    rw [hr'] at hleft'
    refine ⟨Mp.mpmagsub N B, ⟨o', ?_, hleft'.is, hleft.size.trans hleft'.size, fun htop => .inl ?_⟩,
      fun h => absurd h hone, fun _ => ?_⟩
    · rw [if_pos hneg, hrun', Option.bind_eq_bind, Option.bind_some]
      refine congrArg some (funext fun y => ?_)
      rcases eq_or_ne y r with rfl | hy
      · rw [Function.update_self, Function.update_self]
      · rw [Function.update_of_ne (Sum.inl_injective.ne hy), Function.update_of_ne hy, hM, Sum.elim_inl,
          Function.update_of_ne hy]
    · exact (hleft'.zero htop).resolve_right fun h => hN h.1.1
    · rw [mpmagsub_toInt, hval]
  · rw [if_neg hneg]
    exact ⟨B, ⟨o, rfl, hleft⟩, fun h => ⟨hsign h, hval⟩, fun h => absurd h hneg⟩

end Specs

end Petele.Mp.Heap
