import Petele.Mp.Heap

namespace Petele.Mp.Heap

open Lib Limbs Inplace

section Operations

variable {ι : Type} [DecidableEq ι]

def mpmagadd (m : Mem ι) (x y sum : ι) : Option (Mem ι) :=
  let b1 := if (m x).top < (m y).top then y else x
  let b2 := if (m x).top < (m y).top then x else y
  let n := (m b1).top
  let k := (m b2).top
  if n = 0 then some (Function.update m sum (assign mpzero (m sum)))
  else if k = 0 then some (mpassign m b1 sum)
  else do
    let m := Function.update m sum { mpbits (m sum) ((n + 1) * 32) with top := n + 1 }
    let m ← mpvecadd m (b1, 0) n (b2, 0) k (sum, 0)
    return Function.update m sum (mpnorm { m sum with sign := 1 })

def mpmagsub (m : Mem ι) (x y diff : ι) : Option (Mem ι) :=
  let sign : ℤˣ := if mpmagcmp (m x) (m y) < 0 then -1 else 1
  let b1 := if mpmagcmp (m x) (m y) < 0 then y else x
  let b2 := if mpmagcmp (m x) (m y) < 0 then x else y
  let n := (m b1).top
  let k := (m b2).top
  if k = 0 then
    let m := mpassign m b1 diff
    some (Function.update m diff { m diff with sign := sign })
  else do
    let m := Function.update m diff (mpbits (m diff) (n * 32))
    let m ← mpvecsub m (b1, 0) n (b2, 0) k (diff, 0)
    return Function.update m diff (mpnorm { m diff with sign := sign, top := n })

def mpadd (m : Mem ι) (b1 b2 sum : ι) : Option (Mem ι) :=
  if (m b1).sign ≠ (m b2).sign then if (m b1).sign = -1 then mpmagsub m b2 b1 sum else mpmagsub m b1 b2 sum
  else do
    let sign := (m b1).sign
    let m ← mpmagadd m b1 b2 sum
    return if (m sum).top ≠ 0 then Function.update m sum { m sum with sign := sign } else m

def mpsub (m : Mem ι) (b1 b2 diff : ι) : Option (Mem ι) :=
  let sign := (m b1).sign
  if (m b1).sign ≠ (m b2).sign then do
    let m ← mpmagadd m b1 b2 diff
    return Function.update m diff { m diff with sign := sign }
  else do
    let m ← mpmagsub m b1 b2 diff
    return if (m diff).top ≠ 0 then Function.update m diff { m diff with sign := (m diff).sign * sign } else m

end Operations

section Specs

variable {ι : Type} [DecidableEq ι] {m : Mem ι} {b1 b2 x y sum diff r : ι} {X Y : Mpint}

/-- An operation that leaves `b` in `r` and nothing else. -/
def Leaves (m : Mem ι) (r : ι) (b : Mpint) (Z : Prop) (m' : Option (Mem ι)) : Prop :=
  ∃ o : Obj, m' = some (Function.update m r o) ∧ (m r).Left b Z o

theorem mpassign_eq (m : Mem ι) (old new : ι) :
    mpassign m old new = Function.update m new (if old = new then m old else assign (m old) (m new)) := by
  rw [mpassign]
  split
  · rename_i heq
    rw [heq, Function.update_eq_self]
  · rfl

/-- The digits at a place that is made longer are the same as before. -/
theorem digits_update {sign : ℤˣ} {A : Vec} (h : (m b1).Has sign A) {o : Obj} (hp : o.p.take (m r).top = (m r).digits) :
    ((Function.update m r o) b1).p.take A.length = A := by
  have htop : (m b1).top = A.length := h.top
  rcases eq_or_ne b1 r with rfl | hne
  · rw [Function.update_self, ← htop, hp, h.digits]
  · rw [Function.update_of_ne hne, ← htop]
    exact h.digits

theorem mpmagadd_leaves (h1 : (m x).Is X) (h2 : (m y).Is Y) (hs : (m sum).top ≤ (m sum).size) :
    Leaves m sum (Mp.mpmagadd X Y) (X.p = [] ∧ Y.p = []) (mpmagadd m x y sum) := by
  obtain ⟨b1, hb1⟩ : ∃ b1, (if (m x).top < (m y).top then y else x) = b1 := ⟨_, rfl⟩
  obtain ⟨b2, hb2⟩ : ∃ b2, (if (m x).top < (m y).top then x else y) = b2 := ⟨_, rfl⟩
  obtain ⟨A, hA⟩ : ∃ A, (if X.top < Y.top then Y else X) = A := ⟨_, rfl⟩
  obtain ⟨B, hB⟩ : ∃ B, (if X.top < Y.top then X else Y) = B := ⟨_, rfl⟩
  have hswap : (m b1).Is A ∧ (m b2).Is B ∧ B.top ≤ A.top ∧ (A.p = [] ∧ B.p = [] → X.p = [] ∧ Y.p = []) := by
    rw [h1.top, h2.top] at hb1 hb2
    by_cases hlt : X.top < Y.top
    · rw [if_pos hlt] at hb1 hb2 hA hB
      subst hb1 hb2 hA hB
      exact ⟨h2, h1, hlt.le, And.symm⟩
    · rw [if_neg hlt] at hb1 hb2 hA hB
      subst hb1 hb2 hA hB
      exact ⟨h1, h2, Nat.le_of_not_lt hlt, id⟩
  obtain ⟨h1', h2', hle, hboth⟩ := hswap
  simp only [mpmagadd, Mp.mpmagadd, hb1, hb2, hA, hB, h1'.top, h2'.top]
  split
  · rename_i hA0
    have hB0 : B.top = 0 := Nat.le_zero.mp (hle.trans_eq hA0)
    exact ⟨_, rfl, (assign_left mpzero_is).mono fun _ => hboth ⟨top_eq_zero.mp hA0, top_eq_zero.mp hB0⟩⟩
  · split
    · rename_i hA0 hB0
      have hnil : ¬ A.p = [] := mt top_eq_zero.mpr hA0
      rw [mpassign_eq]
      refine ⟨_, rfl, ?_⟩
      split
      · rename_i heq
        exact heq ▸ ⟨h1', le_rfl, fun htop => absurd (h1'.top.symm.trans htop) hA0⟩
      · exact (assign_left h1').mono fun h => absurd h hnil
    · rename_i hA0 hB0
      obtain ⟨hsign, htop, hsize, hp⟩ := mpbits_spec hs ((A.top + 1) * 32)
      have hdigits : DIGITS ((A.top + 1) * 32) = A.top + 1 := by
        rw [DIGITS]
        omega
      rw [hdigits] at htop hsize
      set o := { mpbits (m sum) ((A.top + 1) * 32) with top := A.top + 1 } with ho
      have hread1 := digits_update (o := o) (r := sum) h1'.has hp
      have hread2 := digits_update (o := o) (r := sum) h2'.has hp
      have hself : Function.update m sum o sum = o := Function.update_self _ _ _
      have hosize : o.size = max (m sum).size (A.top + 1) := hsize
      have hadd := mpvecadd_spec (Function.update m sum o) (b1, 0) (b2, 0) (sum, 0) (A := A.p) (B := B.p) hread1 hread2 hle (by
          dsimp only
          rw [hself, hosize]
          exact le_max_of_le_right (by rw [Nat.zero_add]; rfl)) (fun _ => .inl le_rfl) (fun _ => .inl le_rfl)
      dsimp only at hadd
      rw [hself, Function.update_idem] at hadd
      have hlen := addloop_length A.p B.p 0
      have hfits : (addloop A.p B.p 0).length ≤ o.p.length := by
        have hroom := le_max_right (m sum).size (A.top + 1)
        rw [← hosize] at hroom
        rw [hlen]
        exact hroom
      have hne : addloop A.p B.p 0 ≠ [] := fun hnil => by
        rw [hnil] at hlen
        exact Nat.succ_ne_zero _ hlen.symm
      have hroom := le_max_left (m sum).size (A.top + 1)
      rw [← hosize] at hroom
      refine ⟨mpnorm ⟨1, (addloop A.p B.p 0).length, splice o.p 0 (addloop A.p B.p 0)⟩, ?_,
        written_left 1 hfits hne hroom⟩
      simp only [Mpint.top] at hadd ⊢
      rw [hadd, Option.bind_eq_bind, Option.bind_some, Function.update_self, Function.update_idem, hlen]
      rfl

theorem mpmagsub_leaves (h1 : (m x).Is X) (h2 : (m y).Is Y) (hs : (m diff).top ≤ (m diff).size) :
    Leaves m diff (Mp.mpmagsub X Y) (X.p = [] ∧ Y.p = []) (mpmagsub m x y diff) := by
  obtain ⟨sign, hsign⟩ : ∃ sign : ℤˣ, (if Mp.mpmagcmp X Y < 0 then -1 else 1) = sign := ⟨_, rfl⟩
  obtain ⟨b1, hb1⟩ : ∃ b1, (if Mp.mpmagcmp X Y < 0 then y else x) = b1 := ⟨_, rfl⟩
  obtain ⟨b2, hb2⟩ : ∃ b2, (if Mp.mpmagcmp X Y < 0 then x else y) = b2 := ⟨_, rfl⟩
  obtain ⟨A, hA⟩ : ∃ A, (if Mp.mpmagcmp X Y < 0 then Y else X) = A := ⟨_, rfl⟩
  obtain ⟨B, hB⟩ : ∃ B, (if Mp.mpmagcmp X Y < 0 then X else Y) = B := ⟨_, rfl⟩
  have hswap : (m b1).Is A ∧ (m b2).Is B ∧ val B.p ≤ val A.p ∧ (A.p = [] ∧ B.p = [] → X.p = [] ∧ Y.p = []) := by
    obtain ⟨hneg, -⟩ := mpmagcmp_spec X Y
    by_cases hlt : Mp.mpmagcmp X Y < 0
    · rw [if_pos hlt] at hb1 hb2 hA hB
      subst hb1 hb2 hA hB
      exact ⟨h2, h1, (hneg.mp hlt).le, And.symm⟩
    · rw [if_neg hlt] at hb1 hb2 hA hB
      subst hb1 hb2 hA hB
      exact ⟨h1, h2, Nat.le_of_not_lt (mt hneg.mpr hlt), id⟩
  obtain ⟨h1', h2', hval, hboth⟩ := hswap
  have hle : B.top ≤ A.top := Nat.le_of_not_lt fun hlt => absurd (val_lt_of_top hlt) (Nat.not_lt.mpr hval)
  simp only [mpmagsub, Mp.mpmagsub, mpmagcmp_is h1 h2, hsign, hb1, hb2, hA, hB, h1'.top, h2'.top]
  split
  · rename_i hB0
    have hnil := top_eq_zero.mp hB0
    rw [mpassign_eq]
    refine ⟨{ (if b1 = diff then m b1 else assign (m b1) (m diff)) with sign := sign }, ?_, ?_⟩
    · rw [Function.update_self, Function.update_idem]
    · refine Obj.Left.withSign ?_ sign
      split
      · rename_i heq
        exact heq ▸ ⟨h1', le_rfl, fun htop =>
          .inr ⟨hboth ⟨top_eq_zero.mp (h1'.top.symm.trans htop), hnil⟩, rfl⟩⟩
      · exact (assign_left h1').mono fun h => hboth ⟨h, hnil⟩
  · rename_i hB0
    obtain ⟨-, htop, hsize, hp⟩ := mpbits_spec hs (A.top * 32)
    have hdigits : DIGITS (A.top * 32) = A.top := by
      rw [DIGITS]
      omega
    rw [hdigits] at htop hsize
    set o := mpbits (m diff) (A.top * 32) with ho
    have hread1 := digits_update (o := o) (r := diff) h1'.has hp
    have hread2 := digits_update (o := o) (r := diff) h2'.has hp
    have hself : Function.update m diff o diff = o := Function.update_self _ _ _
    have hsub := mpvecsub_spec (Function.update m diff o) (b1, 0) (b2, 0) (diff, 0) (A := A.p) (B := B.p) hread1 hread2 hle (by
        dsimp only
        rw [hself, hsize]
        exact le_max_of_le_right (by rw [Nat.zero_add]; rfl)) (fun _ => .inl le_rfl) (fun _ => .inl le_rfl)
    dsimp only at hsub
    rw [hself, Function.update_idem] at hsub
    have hlen := subloop_length A.p B.p 0
    have hfits : (subloop A.p B.p 0).length ≤ o.p.length := by
      have hroom := le_max_right (m diff).size A.top
      rw [← hsize] at hroom
      rw [hlen]
      exact hroom
    have hne : subloop A.p B.p 0 ≠ [] := fun hnil => by
      rw [hnil] at hlen
      have hA0 : A.top = 0 := hlen.symm
      omega
    have hroom := le_max_left (m diff).size A.top
    rw [← hsize] at hroom
    refine ⟨mpnorm ⟨sign, (subloop A.p B.p 0).length, splice o.p 0 (subloop A.p B.p 0)⟩, ?_,
      written_left sign hfits hne hroom⟩
    simp only [Mpint.top] at hsub ⊢
    rw [hsub, Option.bind_eq_bind, Option.bind_some, Function.update_self, Function.update_idem, hlen]
    rfl

theorem mpadd_leaves (h1 : (m b1).Is X) (h2 : (m b2).Is Y) (hs : (m sum).top ≤ (m sum).size) :
    Leaves m sum (Mp.mpadd X Y) (X.p = [] ∧ Y.p = []) (mpadd m b1 b2 sum) := by
  rw [mpadd, Mp.mpadd, h1.sign, h2.sign]
  split
  · split
    · obtain ⟨o, hrun, hleft⟩ := mpmagsub_leaves h2 h1 hs
      exact ⟨o, hrun, hleft.mono And.symm⟩
    · exact mpmagsub_leaves h1 h2 hs
  · obtain ⟨o, hrun, hleft⟩ := mpmagadd_leaves h1 h2 hs
    have hcond : (o.top ≠ 0) = ((Mp.mpmagadd X Y).top ≠ 0) := by rw [hleft.is.top]
    rw [hrun, Option.bind_eq_bind, Option.bind_some, Function.update_self, Function.update_idem]
    simp only [hcond]
    split
    · exact ⟨_, rfl, hleft.withSign _⟩
    · exact ⟨_, rfl, hleft⟩

theorem mpsub_leaves (h1 : (m b1).Is X) (h2 : (m b2).Is Y) (hs : (m diff).top ≤ (m diff).size) :
    Leaves m diff (Mp.mpsub X Y) (X.p = [] ∧ Y.p = []) (mpsub m b1 b2 diff) := by
  rw [mpsub, Mp.mpsub, h1.sign, h2.sign]
  dsimp only
  split
  · obtain ⟨o, hrun, hleft⟩ := mpmagadd_leaves h1 h2 hs
    rw [hrun, Option.bind_eq_bind, Option.bind_some, Function.update_self, Function.update_idem]
    exact ⟨_, rfl, hleft.withSign _⟩
  · obtain ⟨o, hrun, hleft⟩ := mpmagsub_leaves h1 h2 hs
    have hcond : (o.top ≠ 0) = ((Mp.mpmagsub X Y).top ≠ 0) := by rw [hleft.is.top]
    rw [hrun, Option.bind_eq_bind, Option.bind_some, Function.update_self, Function.update_idem, ← hleft.is.sign]
    simp only [hcond]
    split
    · exact ⟨_, rfl, hleft.withSign _⟩
    · exact ⟨_, rfl, hleft⟩

end Specs

section Exact

variable {X Y : Mpint}

theorem mpnorm_proper (sign : ℤˣ) (p : Vec) : (Mp.mpnorm sign p).p = [] → (Mp.mpnorm sign p).sign = 1 :=
  fun hnil => if_pos hnil

theorem mpmagadd_proper (X Y : Mpint) : (Mp.mpmagadd X Y).p = [] → (Mp.mpmagadd X Y).sign = 1 := by
  obtain ⟨A, hA⟩ : ∃ A, (if X.top < Y.top then Y else X) = A := ⟨_, rfl⟩
  obtain ⟨B, hB⟩ : ∃ B, (if X.top < Y.top then X else Y) = B := ⟨_, rfl⟩
  simp only [Mp.mpmagadd, hA, hB]
  split
  · exact fun _ => rfl
  · split
    · rename_i hne _
      exact fun hnil => absurd (top_eq_zero.mpr hnil) hne
    · exact mpnorm_proper 1 _

theorem mpmagsub_proper (X Y : Mpint) : (Mp.mpmagsub X Y).p = [] → (Mp.mpmagsub X Y).sign = 1 := by
  intro hnil
  have hval := mpmagsub_toInt X Y
  rw [toInt_eq_zero.mpr hnil] at hval
  have hnot : ¬ Mp.mpmagcmp X Y < 0 := by
    rw [(mpmagcmp_spec X Y).1]
    omega
  simp only [Mp.mpmagsub, if_neg hnot] at hnil ⊢
  split
  · rfl
  · rename_i hne
    rw [if_neg hne] at hnil
    exact mpnorm_proper 1 _ hnil

theorem mpadd_proper (X Y : Mpint) : (Mp.mpadd X Y).p = [] → (Mp.mpadd X Y).sign = 1 := by
  rw [Mp.mpadd]
  split
  · split
    · exact mpmagsub_proper Y X
    · exact mpmagsub_proper X Y
  · dsimp only
    split
    · rename_i hne
      exact fun hnil => absurd (top_eq_zero.mpr hnil) hne
    · exact mpmagadd_proper X Y

theorem mpsub_proper (hX : X.p = [] → X.sign = 1) (hY : Y.p = [] → Y.sign = 1) :
    (Mp.mpsub X Y).p = [] → (Mp.mpsub X Y).sign = 1 := by
  rw [Mp.mpsub]
  dsimp only
  split
  · rename_i hsign
    intro hnil
    have hval := mpmagadd_val X Y
    have hsum : val (Mp.mpmagadd X Y).p = 0 := val_eq_zero.mpr hnil
    have hX0 := val_eq_zero.mp (show val X.p = 0 by omega)
    have hY0 := val_eq_zero.mp (show val Y.p = 0 by omega)
    exact absurd ((hX hX0).trans (hY hY0).symm) hsign
  · split
    · rename_i hne
      exact fun hnil => absurd (top_eq_zero.mpr hnil) hne
    · exact mpmagsub_proper X Y

variable {ι : Type} [DecidableEq ι]

/-- Sums and differences are exact and normalized, a zero with the sign 1, also where the result goes to one
of the operands. -/
theorem mpadd_mpsub_exact (m : Mem ι) (b1 b2 res : ι) (h1 : (m b1).Norm) (h2 : (m b2).Norm)
    (hres : (m res).top ≤ (m res).size) :
    (∃ sum : Obj, mpadd m b1 b2 res = some (Function.update m res sum) ∧ sum.Norm ∧
      sum.toInt = (m b1).toInt + (m b2).toInt) ∧
    ∃ diff : Obj, mpsub m b1 b2 res = some (Function.update m res diff) ∧ diff.Norm ∧
      diff.toInt = (m b1).toInt - (m b2).toInt := by
  constructor
  · obtain ⟨o, hrun, hleft⟩ := mpadd_leaves h1.is h2.is hres
    refine ⟨o, hrun, hleft.is.norm (mpadd_proper _ _), ?_⟩
    rw [hleft.is.toInt, mpadd_toInt, ← h1.is.toInt, ← h2.is.toInt]
  · obtain ⟨o, hrun, hleft⟩ := mpsub_leaves h1.is h2.is hres
    refine ⟨o, hrun, hleft.is.norm (mpsub_proper h1.proper h2.proper), ?_⟩
    rw [hleft.is.toInt, mpsub_toInt, ← h1.is.toInt, ← h2.is.toInt]

/-- The sum of 5 and -5 goes to where the -5 was. -/
theorem mpadd_mpsub_exact_zero :
    ∃ sum : Obj, mpadd (fun i : Fin 2 => if i = 0 then ⟨-1, 1, [5, 9]⟩ else ⟨1, 1, [5, 0, 0]⟩) 1 0 0 =
      some (Function.update (fun i : Fin 2 => if i = 0 then ⟨-1, 1, [5, 9]⟩ else ⟨1, 1, [5, 0, 0]⟩) 0 sum) ∧
      sum.Norm ∧ sum.toInt = 0 := by
  obtain ⟨⟨sum, hrun, hnorm, hval⟩, -⟩ :=
    mpadd_mpsub_exact (fun i : Fin 2 => if i = 0 then ⟨-1, 1, [5, 9]⟩ else ⟨1, 1, [5, 0, 0]⟩) 1 0 0
      ⟨by decide, by decide, by decide⟩ ⟨by decide, by decide, by decide⟩ (by decide)
  exact ⟨sum, hrun, hnorm, hval.trans (by decide)⟩

end Exact

end Petele.Mp.Heap
