import Petele.Mp.HeapAdd

namespace Petele.Mp.Heap

open Lib Limbs Inplace

section Operations

variable {ι : Type} [DecidableEq ι]

/-- A turn of the loop of `mpright`, with the digit read before. -/
def rightstep (r : ℕ) (last this : UInt32) : UInt32 × UInt32 :=
  (this <<< UInt32.ofNat (32 - r) ||| last >>> UInt32.ofNat r, this)

def copystep (_ : Unit) (x : UInt32) : UInt32 × Unit := (x, ())

/-- The digits of `mpright`. -/
def rightdigits (m : Mem ι) (b : ι) (d r : ℕ) (res : ι) : Option (Mem ι) :=
  let n := (m b).top - d
  if r = 0 then do
    let (_, P) ← sweep (peek b d) copystep res 0 n 0 () (bufs m)
    return withbufs m P
  else do
    let last ← peek b d (bufs m) 0
    let (last, P) ← sweep (peek b (d + 1)) (rightstep r) res 0 (n - 1) 0 last (bufs m)
    let P ← poke P res (n - 1) (last >>> UInt32.ofNat r)
    return withbufs m P

/-- `mpright` for a shift that is not negative. -/
def mpright (m : Mem ι) (b : ι) (shift : ℕ) (res : ι) : Option (Mem ι) :=
  let m := Function.update m res { m res with sign := (m b).sign }
  if (m b).top = 0 then some (Function.update m res { m res with top := 0 })
  else if res = b ∧ shift = 0 then some m
  else
    let m := if res = b then m else Function.update m res (mpbits (m res) ((m b).top * 32 - shift))
    let d := shift / 32
    let n := (m b).top - d
    if (m b).top ≤ d then some (Function.update m res { m res with sign := 1, top := 0 })
    else do
      let m ← rightdigits m b d (shift % 32) res
      return Function.update m res (mpnorm { m res with top := n })

/-- A turn of the loop of `mpleft`, with the digit read before. -/
def leftstep (l : ℕ) (last this : UInt32) : UInt32 × UInt32 :=
  (last <<< UInt32.ofNat l ||| this >>> UInt32.ofNat (32 - l), this)

/-- The digits of `mpleft` above those that are cleared. -/
def leftdigits (m : Mem ι) (b : ι) (otop d l : ℕ) (res : ι) : Option (Mem ι) :=
  if l = 0 then do
    let (_, P) ← sweepdown (peek b 0) copystep res d otop () (bufs m)
    return withbufs m P
  else do
    let (last, P) ← sweepdown (peek b 0) (leftstep l) res (d + 1) otop 0 (bufs m)
    let P ← poke P res d (last <<< UInt32.ofNat l)
    return withbufs m P

def mpleft (m : Mem ι) (b : ι) (shift : ℕ) (res : ι) : Option (Mem ι) :=
  let m := Function.update m res { m res with sign := (m b).sign }
  if (m b).top = 0 then some (Function.update m res { m res with top := 0 })
  else if shift = 0 then mpright m b 0 res
  else do
    let otop := (m b).top
    let n := DIGITS (otop * 32 + shift)
    let m := Function.update m res { mpbits (m res) (otop * 32 + shift) with top := n }
    let d := shift / 32
    let m ← leftdigits m b otop d (shift % 32) res
    let m := Function.update m res { m res with p := splice (m res).p 0 (List.replicate d 0) }
    return Function.update m res (mpnorm (m res))

end Operations

section Loops

variable {ι : Type} [DecidableEq ι] {m : Mem ι} {b res : ι} {A : Vec} {d k : ℕ}

theorem scan_copy (xs : Vec) : (scan copystep () xs).1 = xs := by
  induction xs with
  | nil => rfl
  | cons x xs ih =>
    rw [scan]
    exact congrArg (x :: ·) ih

theorem scan_right (r : ℕ) (last : UInt32) (xs : Vec) :
    (scan (rightstep r) last xs).1 ++ [(scan (rightstep r) last xs).2 >>> UInt32.ofNat r] =
      rightloop r (last :: xs) := by
  induction xs generalizing last with
  | nil => rfl
  | cons x xs ih =>
    rw [rightloop, ← ih, scan]
    rfl

theorem rightdigits_spec (hb : ((m b).p.drop d).take A.length = A) (htop : (m b).top = d + A.length) (hA : A ≠ [])
    (hroom : A.length ≤ (m res).size) (r : ℕ) :
    rightdigits m b d r res =
      some (Function.update m res { m res with p := splice (m res).p 0 (if r = 0 then A else rightloop r A) }) := by
  have hread : ∀ i (hi : i < A.length), peek b d (bufs m) i = some A[i] := fun i hi => peek_eq hb rfl hi
  rw [rightdigits, htop, Nat.add_sub_cancel_left]
  dsimp only
  split
  · have hahead : Ahead (α := UInt32) (peek b d) res 0 A.length := ahead_peek fun _ => .inl (Nat.zero_le _)
    have hrun := sweep_spec copystep hahead () (k := 0) A (P := bufs m)
      (fun i hi => by rw [Nat.zero_add, hread i hi]) (by omega) (by rw [Nat.zero_add]; exact hroom)
    rw [hrun, scan_copy, ← withbufs_update]
    rfl
  · cases A with
    | nil => exact absurd rfl hA
    | cons last A =>
      have hahead : Ahead (α := UInt32) (peek b (d + 1)) res 0 A.length := ahead_peek fun _ => .inl (Nat.zero_le _)
      have hroom' : A.length + 1 ≤ (m res).p.length := hroom
      have hfirst : peek b d (bufs m) 0 = some last := hread 0 (Nat.succ_pos _)
      have hrun := sweep_spec (rightstep r) hahead last (k := 0) A (P := bufs m) (fun i hi => by
        have hnext := hread (i + 1) (Nat.succ_lt_succ hi)
        rw [Nat.zero_add, ← List.getElem_cons_succ last A i (Nat.succ_lt_succ hi), ← hnext, peek, peek, Nat.add_assoc,
          Nat.add_comm 1 i]) (by omega) (by
        have hsize : (bufs m res).length = (m res).p.length := rfl
        omega)
      have hlen : (scan (rightstep r) last A).1.length = A.length := scan_length _ _
      have hsize : (splice (m res).p 0 (scan (rightstep r) last A).1).length = (m res).p.length :=
        splice_length (by omega)
      rw [hfirst, List.length_cons, Nat.add_sub_cancel]
      simp only [Option.bind_eq_bind, Option.bind_some, hrun]
      rw [poke_eq (by rw [Function.update_self]; exact hsize.symm ▸ (by omega)), Function.update_self, Function.update_idem,
        Option.bind_some, ← scan_right, ← withbufs_update]
      have hsplice : splice (splice (bufs m res) 0 (scan (rightstep r) last A).1) A.length
          [(scan (rightstep r) last A).2 >>> UInt32.ofNat r] =
          splice (m res).p 0 ((scan (rightstep r) last A).1 ++ [(scan (rightstep r) last A).2 >>> UInt32.ofNat r]) := by
        have hjoin := splice_splice (m res).p 0 (scan (rightstep r) last A).1
          [(scan (rightstep r) last A).2 >>> UInt32.ofNat r] (by omega)
        rw [Nat.zero_add, hlen] at hjoin
        exact hjoin
      rw [hsplice]
      rfl

/-- The loop of `mpleft` from the top digit down makes the digits that one from below makes. -/
theorem scan_left (l : ℕ) (y : UInt32) (A : Vec) :
    leftloop l A y =
      ((scan (leftstep l) 0 A.reverse).2 <<< UInt32.ofNat l ||| y >>> UInt32.ofNat (32 - l)) ::
        (scan (leftstep l) 0 A.reverse).1.reverse := by
  induction A generalizing y with
  | nil =>
    have hzero : (0 : UInt32) <<< UInt32.ofNat l = 0 := UInt32.zero_shiftLeft
    rw [leftloop, List.reverse_nil, scan, hzero, UInt32.zero_or, List.reverse_nil]
  | cons x A ih =>
    rw [leftloop, ih, List.reverse_cons, scan_append]
    dsimp only
    rw [List.reverse_append, scan, scan]
    rfl

theorem leftdigits_spec (l : ℕ) (hb : (m b).p.take A.length = A)
    (hroom : d + A.length + (if l = 0 then 0 else 1) ≤ (m res).size) :
    leftdigits m b A.length d l res =
      some (Function.update m res { m res with p := splice (m res).p d (if l = 0 then A else leftloop l A 0) }) := by
  have hread : ∀ i (hi : i < A.length), peek b 0 (bufs m) i = some A[i] := fun i hi =>
    peek_eq (k := 0) (n := A.length) hb rfl hi
  have hroom' : d + A.length + (if l = 0 then 0 else 1) ≤ (m res).p.length := hroom
  rw [leftdigits]
  dsimp only
  split
  · have hbehind : Behind (α := UInt32) (peek b 0) res d A.length := behind_peek fun _ => .inl (Nat.zero_le _)
    have hrun := sweepdown_spec copystep hbehind () A (P := bufs m) hread le_rfl
      ((Nat.le_add_right _ _).trans hroom')
    rw [hrun, scan_copy, List.reverse_reverse, ← withbufs_update]
    rfl
  · rename_i hl
    rw [if_neg hl] at hroom'
    have hbehind : Behind (α := UInt32) (peek b 0) res (d + 1) A.length := behind_peek fun _ => .inl (Nat.zero_le _)
    have hrun := sweepdown_spec (leftstep l) hbehind 0 A (P := bufs m) hread le_rfl (by
      have hsize : (bufs m res).length = (m res).p.length := rfl
      omega)
    set s := scan (leftstep l) 0 A.reverse with hs
    have hlen : s.1.reverse.length = A.length := by rw [List.length_reverse, hs, scan_length, List.length_reverse]
    have hsize : (splice (m res).p (d + 1) s.1.reverse).length = (m res).p.length := splice_length (by omega)
    have hfirst : leftloop l A 0 = s.2 <<< UInt32.ofNat l :: s.1.reverse := by
      rw [scan_left, ← hs]
      simp
    have hset : (splice (m res).p (d + 1) s.1.reverse).set d (s.2 <<< UInt32.ofNat l) =
        splice (m res).p d (leftloop l A 0) := by
      rw [hfirst]
      exact set_splice (by omega)
    rw [hrun, Option.bind_eq_bind, Option.bind_some, ← withbufs_update]
    dsimp only
    have hplace : d < (splice (bufs m res) (d + 1) s.1.reverse).length := by
      have hsize' : (splice (bufs m res) (d + 1) s.1.reverse).length = (m res).p.length := hsize
      omega
    rw [poke, Function.update_self, if_pos hplace, Function.update_idem]
    exact congrArg (fun p => some (withbufs m (Function.update (bufs m) res p))) hset

end Loops

section Specs

variable {ι : Type} [DecidableEq ι] {m : Mem ι} {b res : ι} {X : Mpint} {sign : ℤˣ} {A : Vec}

theorem strip_eq {p : Vec} (h : p.getLast? ≠ some 0) : strip p = p := by
  rw [strip, List.rdropWhile_eq_self_iff]
  intro hne hzero
  apply h
  rw [List.getLast?_eq_getLast_of_ne_nil hne, beq_iff_eq.mp hzero]

/-- A number that is not zero is as `mpnorm` makes it. -/
theorem mpnorm_eq (h : X.top ≠ 0) : Mp.mpnorm X.sign X.p = X := by
  have hstrip := strip_eq X.norm
  obtain ⟨sign, p, norm⟩ := X
  have hne : p ≠ [] := fun hnil => h (List.length_eq_zero_iff.mpr hnil)
  simp only [Mp.mpnorm, hstrip, if_neg hne]

theorem length_rightloop (r : ℕ) (p : Vec) : (rightloop r p).length = p.length := by
  induction p with
  | nil => rfl
  | cons x p ih =>
    cases p with
    | nil => rfl
    | cons y p => rw [rightloop, List.length_cons, ih, List.length_cons, List.length_cons, List.length_cons]

theorem length_leftloop (l : ℕ) (p : Vec) (last : UInt32) : (leftloop l p last).length = p.length + 1 := by
  induction p generalizing last with
  | nil => rfl
  | cons x p ih => rw [leftloop, List.length_cons, ih, List.length_cons]

theorem mpright_zero (X : Mpint) : Mp.mpright X 0 = X := by
  rw [Mp.mpright]
  split
  · rfl
  · rename_i htop
    dsimp only
    rw [if_neg (by omega), if_pos rfl]
    exact mpnorm_eq htop

/-- The first line of the shifts. -/
theorem sign_set (h : (m b).Has sign A) : (Function.update m res { m res with sign := (m b).sign } b).Has sign A := by
  rcases eq_or_ne b res with rfl | hne
  · rw [Function.update_self]
    exact h
  · rw [Function.update_of_ne hne]
    exact h

theorem mpright_digits (h : (m b).Has sign A) (hA : A ≠ []) (hs : (m res).top ≤ (m res).size) (shift : ℕ)
    (hsame : ¬ (res = b ∧ shift = 0)) :
    Leaves m res (shiftright sign A shift) (A.length ≤ shift / 32) (mpright m b shift res) := by
  have h₁ := @sign_set _ _ _ _ res _ _ h
  set o₁ : Obj := { m res with sign := (m b).sign } with ho₁
  have hself₁ : Function.update m res o₁ res = o₁ := Function.update_self _ _ _
  have hpos : ¬ A.length = 0 := mt List.length_eq_zero_iff.mp hA
  rw [mpright]
  dsimp only
  rw [← ho₁, h₁.top, if_neg hpos, if_neg hsame]
  obtain ⟨-, -, hsize, hp⟩ := mpbits_spec (o := o₁) hs (A.length * 32 - shift)
  set o₂ : Obj := if res = b then o₁ else mpbits o₁ (A.length * 32 - shift) with ho₂
  have hm₂ : (if res = b then Function.update m res o₁ else
      Function.update (Function.update m res o₁) res (mpbits (Function.update m res o₁ res) (A.length * 32 - shift))) =
      Function.update m res o₂ := by
    rw [hself₁, Function.update_idem, ho₂]
    split <;> rfl
  have hself₂ : Function.update m res o₂ res = o₂ := Function.update_self _ _ _
  have hsign₂ : o₂.sign = sign := by
    rw [ho₂]
    split
    · exact h.sign
    · exact (mpbits_spec (o := o₁) hs (A.length * 32 - shift)).1.trans h.sign
  have hb₂ : (Function.update m res o₂ b).Has sign A := by
    rw [ho₂]
    split
    · exact h₁
    · rename_i hne
      rw [Function.update_of_ne (Ne.symm hne)]
      exact h
  have hroom₂ : (m res).size ≤ o₂.size ∧ A.length - shift / 32 ≤ o₂.size := by
    rw [ho₂]
    split
    · rename_i heq
      have hfits := h.fits
      rw [h.top, ← heq] at hfits
      exact ⟨le_rfl, (Nat.sub_le _ _).trans hfits⟩
    · have hroom : A.length - shift / 32 ≤ DIGITS (A.length * 32 - shift) := by
        rw [DIGITS]
        omega
      rw [hsize]
      exact ⟨le_max_left _ _, le_max_of_le_right hroom⟩
  rw [hm₂, hb₂.top, shiftright]
  by_cases hd : A.length ≤ shift / 32
  · rw [if_pos hd, if_pos hd, Function.update_idem, hself₂]
    refine ⟨_, rfl, ⟨rfl, Nat.zero_le _, rfl⟩, hroom₂.1, fun _ => .inr ⟨hd, ?_⟩⟩
    have hp₂ : o₂.p.headD 0 = (m res).p.headD 0 := by
      rw [ho₂]
      split
      · rfl
      · have hzero : DIGITS (A.length * 32 - shift) = 0 := by
          rw [DIGITS]
          omega
        rw [mpbits, if_pos (by rw [hzero]; exact ⟨Nat.zero_le _, Nat.zero_le _⟩)]
    exact hp₂
  · rw [if_neg hd, if_neg hd]
    have hlen : (A.drop (shift / 32)).length = A.length - shift / 32 := List.length_drop
    have hread : (((Function.update m res o₂) b).p.drop (shift / 32)).take (A.drop (shift / 32)).length =
        A.drop (shift / 32) := by
      rw [hlen, ← List.drop_take, ← hb₂.top]
      exact congrArg (List.drop (shift / 32)) hb₂.digits
    have hrun := rightdigits_spec hread (by rw [hb₂.top, hlen]; omega)
      (fun hnil => by rw [hnil] at hlen; exact hd (Nat.le_of_sub_eq_zero hlen.symm))
      (by rw [hself₂, hlen]; exact hroom₂.2) (shift % 32)
    rw [hself₂, Function.update_idem] at hrun
    set xs := if shift % 32 = 0 then A.drop (shift / 32) else rightloop (shift % 32) (A.drop (shift / 32)) with hxs
    have hxslen : xs.length = A.length - shift / 32 := by
      rw [hxs]
      split
      · exact hlen
      · rw [length_rightloop, hlen]
    have hfits : xs.length ≤ o₂.p.length := by
      rw [hxslen]
      exact hroom₂.2
    have hne : xs ≠ [] := fun hnil => by
      rw [hnil, List.length_nil] at hxslen
      omega
    refine ⟨mpnorm ⟨sign, xs.length, splice o₂.p 0 xs⟩, ?_, written_left sign hfits hne hroom₂.1⟩
    rw [hrun, Option.bind_eq_bind, Option.bind_some, Function.update_self, Function.update_idem, hxslen, ← hsign₂]
    rfl

theorem mpleft_digits (h : (m b).Has sign A) (hA : A ≠ []) (hs : (m res).top ≤ (m res).size) {shift : ℕ}
    (hshift : shift ≠ 0) {Z : Prop} :
    Leaves m res (shiftleft sign A shift) Z (mpleft m b shift res) := by
  have h₁ := @sign_set _ _ _ _ res _ _ h
  set o₁ : Obj := { m res with sign := (m b).sign } with ho₁
  have hself₁ : Function.update m res o₁ res = o₁ := Function.update_self _ _ _
  have hpos : ¬ A.length = 0 := mt List.length_eq_zero_iff.mp hA
  rw [mpleft]
  dsimp only
  rw [← ho₁, h₁.top, shiftleft, if_neg hpos, if_neg hshift]
  obtain ⟨hsign, -, hsize, hp⟩ := mpbits_spec (o := o₁) hs (A.length * 32 + shift)
  set n := DIGITS (A.length * 32 + shift) with hn
  set o₂ : Obj := { mpbits o₁ (A.length * 32 + shift) with top := n } with ho₂
  have hself₂ : Function.update m res o₂ res = o₂ := Function.update_self _ _ _
  have hsign₂ : o₂.sign = sign := hsign.trans h.sign
  have hread : ((Function.update m res o₂) b).p.take A.length = A := digits_update h hp
  have hcount : n = shift / 32 + A.length + (if shift % 32 = 0 then 0 else 1) := by
    rw [hn, DIGITS]
    split
    all_goals omega
  have hroom : n ≤ o₂.p.length := (le_max_right (m res).size n).trans_eq hsize.symm
  have hrun := leftdigits_spec (m := Function.update m res o₂) (b := b) (shift % 32) hread
    (by rw [hself₂, ← hcount]; exact hroom)
  rw [hself₂, Function.update_idem] at hrun
  set xs := if shift % 32 = 0 then A else leftloop (shift % 32) A 0 with hxs
  have hall : (List.replicate (shift / 32) 0 ++ xs).length = n := by
    rw [List.length_append, List.length_replicate, hcount, hxs]
    split
    · omega
    · rw [length_leftloop]
      omega
  have hne : List.replicate (shift / 32) 0 ++ xs ≠ [] := fun hnil => by
    rw [hnil, List.length_nil] at hall
    omega
  have hbefore : splice (splice o₂.p (shift / 32) xs) 0 (List.replicate (shift / 32) 0) =
      splice o₂.p 0 (List.replicate (shift / 32) 0 ++ xs) := by
    have hjoin := @splice_before _ o₂.p xs (List.replicate (shift / 32) (0 : UInt32))
      (by rw [List.length_replicate]; omega)
    rw [List.length_replicate] at hjoin
    exact hjoin
  have hfits : (List.replicate (shift / 32) 0 ++ xs).length ≤ o₂.p.length := hall.trans_le hroom
  refine ⟨_, ?_, written_left sign hfits hne ((le_max_left _ _).trans_eq hsize.symm)⟩
  rw [hself₁, Function.update_idem, hrun, Option.bind_eq_bind, Option.bind_some, Function.update_self,
    Function.update_idem, Function.update_self, Function.update_idem, hbefore, hall, ← hsign₂]
  rfl

theorem mpright_leaves (h : (m b).Is X) (hs : (m res).top ≤ (m res).size) (shift : ℕ) :
    Leaves m res (Mp.mpright X shift) (X.top ≤ shift / 32) (mpright m b shift res) := by
  by_cases htop : X.top = 0
  · have hnil := top_eq_zero.mp htop
    refine ⟨{ m res with sign := (m b).sign, top := 0 }, ?_, ⟨?_, Nat.zero_le _, ?_⟩, le_rfl, fun _ => .inr ⟨?_, rfl⟩⟩
    · have hzero : (Function.update m res { m res with sign := (m b).sign } b).top = 0 :=
        (sign_set h.has).top.trans htop
      rw [mpright]
      dsimp only
      rw [if_pos hzero, Function.update_self, Function.update_idem]
    · rw [Mp.mpright, if_pos htop]
      exact h.sign
    · rw [Mp.mpright, if_pos htop, hnil]
      rfl
    · exact htop.trans_le (Nat.zero_le _)
  · have hright : Mp.mpright X shift = shiftright X.sign X.p shift := by
      rw [Mp.mpright, if_neg htop]
      rfl
    by_cases hsame : res = b ∧ shift = 0
    · obtain ⟨rfl, rfl⟩ := hsame
      refine ⟨m res, ?_, (mpright_zero X).symm ▸ h, le_rfl, fun hzero => absurd (h.top.symm.trans hzero) htop⟩
      rw [mpright, Function.update_eq_self]
      dsimp only
      rw [if_neg (by rw [h.top]; exact htop), if_pos ⟨rfl, rfl⟩]
    · rw [hright]
      exact mpright_digits h.has (mt top_eq_zero.mpr htop) hs shift hsame

theorem mpleft_leaves (h : (m b).Is X) (hs : (m res).top ≤ (m res).size) (shift : ℕ) :
    Leaves m res (Mp.mpleft X shift) (X.p = []) (mpleft m b shift res) := by
  by_cases htop : X.top = 0
  · have hnil := top_eq_zero.mp htop
    refine ⟨{ m res with sign := (m b).sign, top := 0 }, ?_, ⟨?_, Nat.zero_le _, ?_⟩, le_rfl, fun _ => .inr ⟨hnil, rfl⟩⟩
    · have hzero : (Function.update m res { m res with sign := (m b).sign } b).top = 0 :=
        (sign_set h.has).top.trans htop
      rw [mpleft]
      dsimp only
      rw [if_pos hzero, Function.update_self, Function.update_idem]
    · rw [Mp.mpleft, if_pos htop]
      exact h.sign
    · rw [Mp.mpleft, if_pos htop, hnil]
      rfl
  · by_cases hshift : shift = 0
    · have h₁ := @sign_set _ _ _ _ res _ _ h.has
      have his : (Function.update m res { m res with sign := (m b).sign } b).Is X := ⟨h₁.sign, h₁.fits, h₁.digits⟩
      obtain ⟨o, hrun, hleft⟩ := mpright_leaves his (by rw [Function.update_self]; exact hs) 0
      rw [Function.update_idem] at hrun
      rw [Function.update_self, mpright_zero] at hleft
      refine ⟨o, ?_, ?_⟩
      · rw [mpleft]
        dsimp only
        rw [if_neg (by rw [h₁.top]; exact htop), if_pos hshift, hrun]
      · rw [hshift, Mp.mpleft, if_neg htop, if_pos rfl, mpright_zero]
        exact ⟨hleft.is, hleft.size, fun hzero => absurd (hleft.is.top.symm.trans hzero) htop⟩
    · have hmp : Mp.mpleft X shift = shiftleft X.sign X.p shift := by
        rw [Mp.mpleft, if_neg htop, if_neg hshift]
        rfl
      rw [hmp]
      exact mpleft_digits h.has (mt top_eq_zero.mpr htop) hs hshift

theorem length_strip (p : Vec) : (strip p).length ≤ p.length := (List.rdropWhile_prefix _ _).length_le

theorem shiftleft_top (sign : ℤˣ) (A : Vec) (shift : ℕ) : (shiftleft sign A shift).top ≤ A.length + (shift + 31) / 32 := by
  refine (length_strip _).trans ?_
  rw [List.length_append, List.length_replicate]
  split
  · omega
  · rw [length_leftloop]
    omega

theorem mpnorm_sign {p : Vec} (h : 0 < val p) (sign : ℤˣ) : (Mp.mpnorm sign p).sign = sign := by
  refine if_neg fun hnil => ?_
  have hval := val_strip p
  rw [hnil, val_nil] at hval
  omega

/-- A number that need not be normalized, shifted up to another place. -/
theorem mpleft_elsewhere (h : (m b).Has sign A) (hA : 0 < val A) (hs : (m res).top ≤ (m res).size) (hne : res ≠ b)
    (shift : ℕ) :
    ∃ X : Mpint, Leaves m res X False (mpleft m b shift res) ∧ X.sign = sign ∧ val X.p = val A * 2 ^ shift ∧
      X.top ≤ A.length + (shift + 31) / 32 := by
  have hA' : A ≠ [] := fun hnil => by
    rw [hnil, val_nil] at hA
    omega
  by_cases hshift : shift = 0
  · obtain ⟨o, hrun, hleft⟩ := mpright_digits (sign_set h) hA'
      (by rw [Function.update_self]; exact hs) 0 fun hsame => hne hsame.1
    have hlong : ¬ A.length ≤ 0 / 32 := fun hle => hA' (List.length_eq_zero_iff.mp (Nat.le_zero.mp hle))
    have hright : shiftright sign A 0 = Mp.mpnorm sign A := by
      rw [shiftright, if_neg hlong]
      rfl
    rw [Function.update_idem] at hrun
    rw [Function.update_self, hright] at hleft
    refine ⟨Mp.mpnorm sign A, ⟨o, ?_, hleft.is, hleft.size, fun htop => .inl ?_⟩, mpnorm_sign hA sign, ?_, ?_⟩
    · have hpos : ¬ (Function.update m res { m res with sign := (m b).sign } b).top = 0 := by
        rw [(sign_set h).top]
        exact mt List.length_eq_zero_iff.mp hA'
      rw [mpleft]
      dsimp only
      rw [if_neg hpos, if_pos hshift, hrun]
    · exact (hleft.zero htop).resolve_right fun hstale => hlong hstale.1
    · rw [mpnorm_p, val_strip, hshift, Nat.pow_zero, Nat.mul_one]
    · exact (length_strip A).trans (Nat.le_add_right _ _)
  · refine ⟨shiftleft sign A shift, mpleft_digits h hA' hs hshift, ?_, shiftleft_val sign A shift,
      shiftleft_top sign A shift⟩
    have hval := shiftleft_val sign A shift
    rw [shiftleft, mpnorm_p, val_strip] at hval
    exact mpnorm_sign (hval ▸ Nat.mul_pos hA (Nat.pow_pos (by decide))) sign

end Specs

end Petele.Mp.Heap
