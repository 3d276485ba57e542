import Petele.Mp.Field
import Petele.Mp.HeapMod

namespace Petele.Mp.Heap

open Lib Limbs Inplace

section Operations

variable {κ : Type} [DecidableEq κ]

/-- The operand, or a copy of it at `t`, with the digits up to `m->top` to read. -/
def modarg (f : Option Reduce) (M : Mem κ) (a m t : κ) : Option (Mem κ × κ) :=
  if (M a).size ≤ (M m).top ∨ (M a).sign = -1 ∨ 0 ≤ mpmagcmp (M a) (M m) then do
    let M ← mpmod f (Function.update M t (mpcopy (M a))) t m t
    return (Function.update M t { mpbits (M t) (32 * ((M m).top + 1)) with top := (M m).top }, t)
  else
    some (Function.update M a
      { M a with p := splice (M a).p (M a).top (List.replicate ((M m).top - (M a).top) 0) }, a)

variable {ι : Type} [DecidableEq ι]

section Operands

local instance neZeroTwo : NeZero 2 := ⟨two_ne_zero⟩

/-- The two operands of each function. -/
def modargs (f : Option Reduce) (m : Mem ι) (b1 b2 n : ι) : Option (Mem (Local ι) × Local ι × Local ι) := do
  let (M, a) ← modarg f (Sum.elim m fun _ => mpnew 0) (.inl b1) (.inl n) (.inr 0)
  let (M, b) ← modarg f M (.inl b2) (.inl n) (.inr 1)
  return (M, a, b)

end Operands

end Operations

section Choice

variable {κ : Type} [DecidableEq κ] {M : Mem κ} {res : κ} {x y : Vec} {top : ℕ}

/-- The first digits of a number replaced. -/
def write (M : Mem κ) (r : κ) (xs : Vec) : Mem κ := Function.update M r { M r with p := splice (M r).p 0 xs }

end Choice

section Operands

variable {κ : Type} [DecidableEq κ] {M : Mem κ} {a m t : κ} {A N : Mpint} {f : Option Reduce}

theorem Obj.Has.take {o : Obj} {s : ℤˣ} {A : Vec} (h : o.Has s A) : o.p.take A.length = A := by
  rw [← h.top]
  exact h.digits

/-- The digits of a number may be read up to `k`, and make `v`. -/
structure Reads (M : Mem κ) (a : κ) (k v : ℕ) : Prop where
  room : k < (M a).size
  val : val ((M a).p.take k) = v

/-- What `modarg` makes of an operand that is `v` modulo a number of `k` digits. -/
structure Operand (M : Mem κ) (a : κ) (k v : ℕ) : Prop extends Reads M a k v where
  has : ∃ B, (M a).Has 1 B ∧ B.length ≤ k ∧ Limbs.val B = v

/-- A number is the same but for the digits above those in use. -/
structure Obj.Same (o o' : Obj) : Prop where
  sign : o'.sign = o.sign
  top : o'.top = o.top
  digits : o'.digits = o.digits
  size : o'.size = o.size

theorem Obj.Same.is {o o' : Obj} (h : o.Same o') (ho : o.Is A) : o'.Is A :=
  ⟨h.sign.trans ho.sign, by rw [h.top, h.size]; exact ho.fits, h.digits.trans ho.digits⟩

theorem Obj.Same.trans {o o' o'' : Obj} (h : o.Same o') (h' : o'.Same o'') : o.Same o'' :=
  ⟨h'.sign.trans h.sign, h'.top.trans h.top, h'.digits.trans h.digits, h'.size.trans h.size⟩

theorem Obj.Same.refl (o : Obj) : o.Same o := ⟨rfl, rfl, rfl, rfl⟩

theorem val_splice_zeros {o : Obj} {k : ℕ} (hfits : o.top ≤ o.size) (hk : o.top ≤ k) :
    val ((splice o.p o.top (List.replicate (k - o.top) 0)).take k) = val o.digits := by
  have hlen := digits_length hfits
  have htake : (splice o.p o.top (List.replicate (k - o.top) 0)).take k = o.digits ++ List.replicate (k - o.top) 0 := by
    rw [splice]
    exact List.take_left' (by rw [List.length_append, List.length_replicate, ← Obj.digits, hlen]; omega)
  rw [htake, val_append, val_zeros, Nat.mul_zero, Nat.add_zero]

theorem mpbits_reads {o : Obj} {k n : ℕ} (hfits : o.top ≤ o.size) (hk : o.top ≤ k) (hn : k ≤ DIGITS n)
    (hlt : o.top < DIGITS n) : val ((mpbits o n).p.take k) = val o.digits := by
  have hlen := digits_length hfits
  rw [mpbits, if_neg fun h => absurd h.2 (Nat.not_le.mpr hlt)]
  dsimp only
  rw [List.append_assoc, List.take_append, List.take_append_of_le_length (by rw [List.length_replicate, ← Obj.digits, hlen]; omega),
    List.take_replicate, ← Obj.digits, hlen, List.take_of_length_le (by omega), val_append, val_zeros, Nat.mul_zero, Nat.add_zero]

theorem modarg_spec (ha : (M a).Is A) (hsign : A.sign = 1) (hm : (M m).Is N) (hN : N.p ≠ []) (htm : t ≠ m) (hta : t ≠ a)
    (hf : ((M a).size ≤ N.top ∨ val N.p ≤ val A.p) → Reduces f (Function.update M t (mpcopy (M a))) t A N t) :
    ∃ M' a', modarg f M a m t = some (M', a') ∧ Operand M' a' N.top (val A.p % val N.p) ∧ (a' = a ∨ a' = t) ∧
      (∀ y, y ≠ a' → y ≠ t → M' y = M y) ∧ ∀ y, y ≠ t → (M y).Same (M' y) := by
  have hcmp : 0 ≤ mpmagcmp (M a) (M m) ↔ val N.p ≤ val A.p := by
    rw [mpmagcmp_is ha hm, ← Int.not_lt, (mpmagcmp_spec A N).1, Nat.not_lt]
  have hsign' : ¬ A.sign = -1 := by
    rw [hsign]
    decide
  have hpos : 0 < val N.p := Nat.pos_of_ne_zero (mt val_eq_zero.mp hN)
  have hcond : ((M a).size ≤ (M m).top ∨ (M a).sign = -1 ∨ 0 ≤ mpmagcmp (M a) (M m)) ↔
      (M a).size ≤ N.top ∨ val N.p ≤ val A.p := by rw [hcmp, hm.top, ha.sign, or_iff_right (a := A.sign = -1) hsign']
  rw [modarg]
  by_cases hcopy : (M a).size ≤ N.top ∨ val N.p ≤ val A.p
  · rw [if_pos (hcond.mpr hcopy)]
    set M₁ := Function.update M t (mpcopy (M a)) with hM₁
    have ht : M₁ t = mpcopy (M a) := Function.update_self _ _ _
    have hm₁ : (M₁ m).Is N := by
      rw [hM₁, Function.update_of_ne htm.symm]
      exact hm
    obtain ⟨B, ⟨o, hrun, hleft⟩, hval, -⟩ := mpmod_leaves f (m := M₁) (x := t) (n := m) (r := t)
      (by rw [ht]; exact mpcopy_is ha) (by rw [ht]; exact mpcopy_clean ha.fits) hm₁ hN
      (by rw [ht]; exact (mpcopy_is ha).fits) (by
        rw [ht, mpcopy_size ha.fits]
        exact le_max_of_le_right (by decide)) (hf hcopy)
    obtain ⟨hone, hval⟩ := hval hsign
    have htop : B.top ≤ N.top := Nat.le_of_not_lt fun hlt => by
      have hmod := Nat.mod_lt (val A.p) hpos
      have hless := val_lt_of_top hlt
      omega
    have hdigits : DIGITS (32 * (N.top + 1)) = N.top + 1 := by
      rw [DIGITS]
      omega
    obtain ⟨hosign, -, hsize, -⟩ := mpbits_spec hleft.fits (32 * (N.top + 1))
    have hroom : N.top + 1 ≤ (mpbits o (32 * (N.top + 1))).size := by
      rw [hsize, hdigits]
      exact le_max_right _ _
    have hreads : val ((mpbits o (32 * (N.top + 1))).p.take N.top) = val A.p % val N.p := by
      have hotop := hleft.is.top
      rw [← hval, ← hleft.is.digits]
      exact mpbits_reads hleft.fits (by omega) (by omega) (by omega)
    have hself : Function.update M₁ t o t = o := Function.update_self _ _ _
    have htopm : (Function.update M₁ t o m).top = N.top := by
      rw [Function.update_of_ne htm.symm]
      exact hm₁.top
    rw [hrun, Option.bind_eq_bind, Option.bind_some, hself, htopm, Function.update_idem, hM₁, Function.update_idem]
    refine ⟨_, t, rfl, ⟨⟨?_, ?_⟩, ?_⟩, .inr rfl, fun y _ hy => Function.update_of_ne hy _ _, fun y hy => ?_⟩
    · rw [Function.update_self]
      exact hroom
    · rw [Function.update_self]
      exact hreads
    · rw [Function.update_self]
      refine ⟨_, ⟨hosign.trans (hleft.is.sign.trans hone), (Nat.le_succ _).trans hroom, rfl⟩, ?_, hreads⟩
      exact (List.length_take_le _ _)
    · rw [Function.update_of_ne hy]
      exact Obj.Same.refl _
  · rw [if_neg (mt hcond.mp hcopy), hm.top]
    simp only [not_or, Nat.not_le] at hcopy
    obtain ⟨hroom, hless⟩ := hcopy
    have htop : A.top ≤ N.top := Nat.le_of_not_lt fun hlt => by
      have hless' := val_lt_of_top hlt
      omega
    have hatop := ha.top
    have hfits := ha.fits
    have hlen : (List.replicate (N.top - (M a).top) (0 : UInt32)).length = N.top - (M a).top := List.length_replicate
    have hsize : (splice (M a).p (M a).top (List.replicate (N.top - (M a).top) 0)).length = (M a).p.length := by
      refine splice_length ?_
      have hroom' : N.top < (M a).p.length := hroom
      omega
    refine ⟨_, a, rfl, ⟨⟨?_, ?_⟩, A.p, ?_⟩, .inl rfl, fun y hy _ => Function.update_of_ne hy _ _, fun y hy => ?_⟩
    · rw [Function.update_self]
      exact hroom.trans_eq hsize.symm
    · rw [Function.update_self, Nat.mod_eq_of_lt hless, ← ha.digits]
      exact val_splice_zeros hfits (by omega)
    · rw [Function.update_self, ← hsign]
      exact ⟨⟨ha.sign, hfits.trans_eq hsize.symm, (splice_take hfits le_rfl).trans ha.digits⟩, htop,
        (Nat.mod_eq_of_lt hless).symm⟩
    · rcases eq_or_ne y a with rfl | hya
      · rw [Function.update_self]
        exact ⟨rfl, rfl, splice_take hfits le_rfl, hsize⟩
      · rw [Function.update_of_ne hya]
        exact Obj.Same.refl _

theorem Obj.Same.mpcopy {o o' : Obj} (h : o.Same o') : mpcopy o' = mpcopy o := by
  rw [Heap.mpcopy, Heap.mpcopy, h.sign, h.top, h.digits, h.size]

/-- What `reduce` leaves of a copy of `o` if it does not refuse: the residue. -/
def Mends (f : Option Reduce) (o n : Obj) : Prop :=
  ∀ reduce, f = some reduce → ∀ o', reduce (mpcopy o) (mpcopy o) = some o' →
    ∃ B, (mpcopy o).Left B True o' ∧ B.sign = 1 ∧ val B.p = val o.digits % val n.digits

omit [DecidableEq κ] in
theorem Mends.reduces {o n : Obj} (h : Mends f o n) (ho : o.Is A) (hn : n.Is N) (hM : M t = mpcopy o) :
    Reduces f M t A N t := by
  intro reduce hf o' ho'
  rw [hM] at ho' ⊢
  obtain ⟨B, hleft, hsign, hval⟩ := h reduce hf o' ho'
  exact ⟨B, hleft, hsign, by rw [hval, ho.digits, hn.digits]⟩

omit [DecidableEq κ] in
theorem Reads.of_eq {M' : Mem κ} {k v : ℕ} (h : Reads M a k v) (heq : M' a = M a) : Reads M' a k v :=
  ⟨heq ▸ h.room, heq ▸ h.val⟩

omit [DecidableEq κ] in
theorem Operand.of_eq {M' : Mem κ} {k v : ℕ} (h : Operand M a k v) (heq : M' a = M a) : Operand M' a k v :=
  ⟨h.toReads.of_eq heq, heq ▸ h.has⟩

omit [DecidableEq κ] in
theorem Reads.digits {k v : ℕ} (h : Reads M a k v) : ((M a).p.take k).length = k := by
  have hroom : k < (M a).p.length := h.room
  rw [List.length_take]
  omega

/-- An operand that is made longer is read as before. -/
theorem Reads.mpbits {k n : ℕ} {r : κ} (h : Reads M a k (Limbs.val A.p)) (hr : a = r → (M a).Is A) (htop : A.top ≤ k)
    (hn : k < DIGITS n) : Reads (Function.update M r (Heap.mpbits (M r) n)) a k (Limbs.val A.p) := by
  rcases eq_or_ne a r with rfl | hne
  · have hsame := hr rfl
    obtain ⟨-, -, hsize, -⟩ := mpbits_spec hsame.fits n
    have hroom := h.room
    refine ⟨?_, ?_⟩
    · rw [Function.update_self, hsize]
      exact lt_max_of_lt_left hroom
    · rw [Function.update_self, ← hsame.digits]
      have hatop := hsame.top
      exact mpbits_reads hsame.fits (by omega) hn.le (by omega)
  · exact h.of_eq (Function.update_of_ne hne _ _)

end Operands

section Modular

variable {ι : Type} [DecidableEq ι] {m : Mem ι} {b1 b2 n res : ι} {X Y N : Mpint} {f : Option Reduce}

theorem modargs_spec (h1 : (m b1).Is X) (h2 : (m b2).Is Y) (hn : (m n).Is N) (hN : N.p ≠ []) (hX : X.sign = 1) (hY : Y.sign = 1)
    (hf1 : (m b1).size ≤ N.top ∨ val N.p ≤ val X.p → Mends f (m b1) (m n))
    (hf2 : (m b2).size ≤ N.top ∨ val N.p ≤ val Y.p → Mends f (m b2) (m n)) :
    ∃ M a b, modargs f m b1 b2 n = some (M, a, b) ∧ Operand M a N.top (val X.p % val N.p) ∧
      Operand M b N.top (val Y.p % val N.p) ∧ (a = .inl b1 ∨ a = .inr 0) ∧ (b = .inl b2 ∨ b = .inr 1) ∧
      ∀ y, (m y).Same (M (.inl y)) := by
  set M₀ : Mem (Local ι) := Sum.elim m fun _ => mpnew 0 with hM₀
  obtain ⟨M₁, a, hrun₁, ha₁, hwhere₁, hframe₁, hsame₁⟩ := modarg_spec (f := f) (M := M₀) (a := .inl b1) (m := .inl n)
    (t := .inr 0) h1 hX hn hN Sum.inr_ne_inl Sum.inr_ne_inl fun hcopy =>
      (hf1 hcopy).reduces h1 hn (Function.update_self _ _ _)
  have hsame₁' : ∀ y : ι, (m y).Same (M₁ (.inl y)) := fun y => hsame₁ (.inl y) Sum.inl_ne_inr
  have hn₁ := (hsame₁' n).is hn
  have hcopy₁ := (hsame₁' b2).mpcopy
  have hsize₁ := (hsame₁' b2).size
  obtain ⟨M₂, b, hrun₂, hb₂, hwhere₂, hframe₂, hsame₂⟩ := modarg_spec (f := f) (M := M₁) (a := .inl b2) (m := .inl n)
    (t := .inr 1) ((hsame₁' b2).is h2) hY hn₁ hN Sum.inr_ne_inl Sum.inr_ne_inl fun hcopy =>
      (hf2 (hsize₁ ▸ hcopy)).reduces h2 hn ((Function.update_self _ _ _).trans hcopy₁)
  -- the second operand is prepared where the first one is not, or where it is the same
  have ha₂ : Operand M₂ a N.top (val X.p % val N.p) := by
    have hone : a ≠ .inr 1 := by
      rcases hwhere₁ with rfl | rfl
      · exact Sum.inl_ne_inr
      · exact fun h => absurd (Sum.inr_injective h) (by decide)
    by_cases hab : a = b
    · obtain ⟨rfl, rfl⟩ : a = .inl b1 ∧ b1 = b2 := by
        rcases hwhere₂ with hb | hb
        · rcases hwhere₁ with ha | ha
          · exact ⟨ha, Sum.inl_injective (ha.symm.trans (hab.trans hb))⟩
          · exact absurd (ha.symm.trans (hab.trans hb)) Sum.inr_ne_inl
        · exact absurd (hab.trans hb) hone
      rw [hab, h1.ext h2]
      exact hb₂
    · exact ha₁.of_eq (hframe₂ a hab hone)
  refine ⟨M₂, a, b, ?_, ha₂, hb₂, hwhere₁, hwhere₂, fun y => (hsame₁' y).trans (hsame₂ (.inl y) Sum.inl_ne_inr)⟩
  rw [modargs, ← hM₀, hrun₁, Option.bind_eq_bind, Option.bind_some]
  dsimp only
  rw [hrun₂]
  rfl

theorem Obj.Norm.nonneg {o : Obj} (h : o.Norm) (hpos : 0 ≤ o.toInt) : o.sign = 1 ∧ o.toInt = val o.digits := by
  rcases Int.units_eq_one_or o.sign with hs | hs
  · refine ⟨hs, ?_⟩
    rw [Obj.toInt, hs]
    simp
  · rw [Obj.toInt, hs, Units.val_neg, Units.val_one] at hpos
    have hzero : val o.digits = 0 := by omega
    have hone := h.proper ((val_eq_zero (b := ⟨o.sign, o.digits, h.last⟩)).mp hzero)
    exact absurd (hs.symm.trans hone) (by decide)

end Modular

end Petele.Mp.Heap
