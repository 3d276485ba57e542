import Petele.Lib.Inplace
import Petele.Mp.Div

namespace Petele.Mp.Heap

open Lib Limbs Inplace

/-- `struct mpint`, with all digits that are allocated. None is `MPtimesafe` here, and none a field. -/
structure Obj where
  sign : ℤˣ
  top : ℕ
  p : Vec
  deriving DecidableEq

def Obj.size (o : Obj) : ℕ := o.p.length

/-- The digits in use. -/
def Obj.digits (o : Obj) : Vec := o.p.take o.top

def Obj.toInt (o : Obj) : ℤ := o.sign * val o.digits

/-- The numbers by their addresses. -/
abbrev Mem (ι : Type) := ι → Obj

def DIGITS (x : ℕ) : ℕ := (31 + x) / 32

def mpmindigits : ℕ := 33

def mpzero : Obj := ⟨1, 0, [0]⟩

def mpone : Obj := ⟨1, 1, [1]⟩

def mpnew (n : ℕ) : Obj := ⟨1, 0, List.replicate (max (DIGITS n) mpmindigits) 0⟩

/-- Digits above `top` are cleared, and come behind the others where there is no room for them. -/
def mpbits (b : Obj) (m : ℕ) : Obj :=
  if DIGITS m ≤ b.size ∧ DIGITS m ≤ b.top then b
  else
    { b with
      top := DIGITS m
      p := b.p.take b.top ++ List.replicate (DIGITS m - b.top) 0 ++ b.p.drop (DIGITS m) }

def mpnorm (b : Obj) : Obj :=
  { b with
    sign := if strip b.digits = [] then 1 else b.sign
    top := (strip b.digits).length }

def mpcopy (old : Obj) : Obj :=
  let b := mpnew (32 * old.size)
  { sign := old.sign, top := old.top, p := splice b.p 0 old.digits }

/-- `mpassign` to another `mpint`. -/
def assign (old b : Obj) : Obj :=
  let b := mpbits { b with top := 0 } (32 * old.top)
  { sign := old.sign, top := old.top, p := splice b.p 0 old.digits }

def mpmagcmp (b1 b2 : Obj) : ℤ :=
  if b1.top ≠ b2.top then b1.top - b2.top else mpveccmp b1.digits b2.digits

def mpcmp (b1 b2 : Obj) : ℤ :=
  let sign : ℤ := ((b1.sign : ℤ) - b2.sign) / 2
  if sign ≠ 0 then sign else mpmagcmp b1 b2 * b1.sign

section Vectors

variable {ι : Type} [DecidableEq ι]

def mpassign (m : Mem ι) (old new : ι) : Mem ι :=
  if old = new then m else Function.update m new (assign (m old) (m new))

def bufs (m : Mem ι) : Bufs ι UInt32 := fun r => (m r).p

def withbufs (m : Mem ι) (P : Bufs ι UInt32) : Mem ι := fun r => { m r with p := P r }

/-- A turn of the first loop of `mpvecadd`. -/
def addstep (carry : UInt32) (d : UInt32 × UInt32) : UInt32 × UInt32 :=
  let x := d.1 + carry
  let carry := truth (x < carry)
  let x := x + d.2
  (x, carry + truth (x < d.2))

def carrystep (carry x : UInt32) : UInt32 × UInt32 :=
  let x := x + carry
  (x, truth (x < carry))

/-- The vectors start at a digit of a number each. -/
def mpvecadd (m : Mem ι) (a : ι × ℕ) (alen : ℕ) (b : ι × ℕ) (blen : ℕ) (sum : ι × ℕ) : Option (Mem ι) := do
  let (carry, P) ← sweep (both (peek a.1 a.2) (peek b.1 b.2)) addstep sum.1 sum.2 blen 0 0 (bufs m)
  let (carry, P) ← sweep (peek a.1 a.2) carrystep sum.1 sum.2 (alen - blen) blen carry P
  let P ← poke P sum.1 (sum.2 + max alen blen) carry
  return withbufs m P

def substep (borrow : UInt32) (d : UInt32 × UInt32) : UInt32 × UInt32 :=
  let y := d.2 + borrow
  let borrow := truth (y < borrow)
  (d.1 - y, borrow + truth (d.1 < y))

def borrowstep (borrow x : UInt32) : UInt32 × UInt32 :=
  let y := x - borrow
  (y, truth (x < y))

def mpvecsub (m : Mem ι) (a : ι × ℕ) (alen : ℕ) (b : ι × ℕ) (blen : ℕ) (diff : ι × ℕ) : Option (Mem ι) := do
  let (borrow, P) ← sweep (both (peek a.1 a.2) (peek b.1 b.2)) substep diff.1 diff.2 blen 0 0 (bufs m)
  let (_, P) ← sweep (peek a.1 a.2) borrowstep diff.1 diff.2 (alen - blen) blen borrow P
  return withbufs m P

end Vectors

section Loops

variable {ι : Type} [DecidableEq ι] {m : Mem ι} {a b dst : ι × ℕ} {A B : Vec}

theorem addloop_scan (c : UInt32) (A : Vec) :
    addloop A [] c = (scan carrystep c A).1 ++ [(scan carrystep c A).2] := by
  induction A generalizing c with
  | nil => rfl
  | cons x A ih =>
    rw [addloop, ih, scan, List.cons_append]
    rfl

/-- The two loops of `mpvecadd` and the digit behind them. -/
theorem addloop_eq (c : UInt32) (h : B.length ≤ A.length) :
    addloop A B c = (scan addstep c ((A.take B.length).zip B)).1 ++
      (scan carrystep (scan addstep c ((A.take B.length).zip B)).2 (A.drop B.length)).1 ++
      [(scan carrystep (scan addstep c ((A.take B.length).zip B)).2 (A.drop B.length)).2] := by
  induction B generalizing A c with
  | nil =>
    rw [addloop_scan]
    rfl
  | cons y B ih =>
    cases A with
    | nil => exact absurd h (Nat.not_succ_le_zero _)
    | cons x A =>
      rw [addloop, ih _ (Nat.le_of_succ_le_succ h)]
      rfl

theorem subloop_scan (c : UInt32) (A : Vec) : subloop A [] c = (scan borrowstep c A).1 := by
  induction A generalizing c with
  | nil => rfl
  | cons x A ih =>
    rw [subloop, ih, scan]
    rfl

theorem subloop_eq (c : UInt32) (h : B.length ≤ A.length) :
    subloop A B c = (scan substep c ((A.take B.length).zip B)).1 ++
      (scan borrowstep (scan substep c ((A.take B.length).zip B)).2 (A.drop B.length)).1 := by
  induction B generalizing A c with
  | nil =>
    rw [subloop_scan]
    rfl
  | cons y B ih =>
    cases A with
    | nil => exact absurd h (Nat.not_succ_le_zero _)
    | cons x A =>
      rw [subloop, ih _ (Nat.le_of_succ_le_succ h)]
      rfl

omit [DecidableEq ι] in
theorem withbufs_update [DecidableEq ι] (m : Mem ι) (r : ι) (p : Vec) :
    withbufs m (Function.update (bufs m) r p) = Function.update m r { m r with p := p } := by
  funext x
  rcases eq_or_ne x r with rfl | hx
  · rw [withbufs, Function.update_self, Function.update_self]
  · rw [withbufs, Function.update_of_ne hx, Function.update_of_ne hx]
    rfl

/-- Two loops over a vector, the first one along with another vector, that write to a third place. -/
theorem sweep_both (step : UInt32 → UInt32 × UInt32 → UInt32 × UInt32) (step' : UInt32 → UInt32 → UInt32 × UInt32)
    {P : Bufs ι UInt32} (hA : ((P a.1).drop a.2).take A.length = A) (hB : ((P b.1).drop b.2).take B.length = B)
    (hle : B.length ≤ A.length) (hroom : dst.2 + A.length ≤ (P dst.1).length)
    (ha : a.1 = dst.1 → dst.2 ≤ a.2 ∨ a.2 + A.length ≤ dst.2)
    (hb : b.1 = dst.1 → dst.2 ≤ b.2 ∨ b.2 + B.length ≤ dst.2) :
    (sweep (both (peek a.1 a.2) (peek b.1 b.2)) step dst.1 dst.2 B.length 0 0 P).bind
      (fun s => sweep (peek a.1 a.2) step' dst.1 dst.2 (A.length - B.length) B.length s.1 s.2) =
    some ((scan step' (scan step 0 ((A.take B.length).zip B)).2 (A.drop B.length)).2,
      Function.update P dst.1 (splice (P dst.1) dst.2 ((scan step 0 ((A.take B.length).zip B)).1 ++
        (scan step' (scan step 0 ((A.take B.length).zip B)).2 (A.drop B.length)).1))) := by
  have hzip : ((A.take B.length).zip B).length = B.length := by
    rw [List.length_zip, List.length_take]
    omega
  have hreadA : ∀ i (hi : i < A.length), peek a.1 a.2 P i = some A[i] := fun i hi => peek_eq hA rfl hi
  have hreadB : ∀ i (hi : i < B.length), peek b.1 b.2 P i = some B[i] := fun i hi => peek_eq hB rfl hi
  have hahead : Ahead (α := UInt32) (both (peek a.1 a.2) (peek b.1 b.2)) dst.1 dst.2 B.length :=
    Ahead.both (ahead_peek fun hdst => by have := ha hdst; omega) (ahead_peek hb)
  have hfirst := sweep_spec step hahead 0 (k := 0) (P := P) ((A.take B.length).zip B) (fun i hi => by
      rw [hzip] at hi
      rw [Nat.zero_add, both, hreadA i (by omega), hreadB i hi]
      simp) (by omega) (by rw [hzip]; omega)
  rw [hzip, Nat.add_zero] at hfirst
  rw [hfirst, Option.bind_some]
  set xs := (scan step 0 ((A.take B.length).zip B)).1 with hxs
  set c := (scan step 0 ((A.take B.length).zip B)).2
  have hlen : xs.length = B.length := by rw [hxs, scan_length, hzip]
  have hsize : (splice (P dst.1) dst.2 xs).length = (P dst.1).length := splice_length (by omega)
  have hahead' : Ahead (α := UInt32) (peek a.1 a.2) dst.1 dst.2 A.length := ahead_peek ha
  have hsecond := sweep_spec step' hahead' c (k := B.length) (A.drop B.length)
    (P := Function.update P dst.1 (splice (P dst.1) dst.2 xs)) (fun i hi => by
      rw [List.length_drop] at hi
      rw [peek_splice (by omega) fun hdst => by have := ha hdst; omega, hreadA _ (by omega), List.getElem_drop])
    (by rw [List.length_drop]; omega) (by rw [Function.update_self, hsize, List.length_drop]; omega)
  rw [List.length_drop] at hsecond
  rw [hsecond, Function.update_self, Function.update_idem, ← hlen, splice_splice _ _ _ _ (by omega), hlen]

theorem mpvecadd_spec (m : Mem ι) (a b dst : ι × ℕ) (hA : ((m a.1).p.drop a.2).take A.length = A) (hB : ((m b.1).p.drop b.2).take B.length = B)
    (hle : B.length ≤ A.length) (hroom : dst.2 + A.length + 1 ≤ (m dst.1).size)
    (ha : a.1 = dst.1 → dst.2 ≤ a.2 ∨ a.2 + A.length ≤ dst.2)
    (hb : b.1 = dst.1 → dst.2 ≤ b.2 ∨ b.2 + B.length ≤ dst.2) :
    mpvecadd m a A.length b B.length dst =
      some (Function.update m dst.1 { m dst.1 with p := splice (m dst.1).p dst.2 (addloop A B 0) }) := by
  have hsize : (m dst.1).p.length = (m dst.1).size := rfl
  have hrun := sweep_both addstep carrystep (P := bufs m) hA hB hle
    (show dst.2 + A.length ≤ (m dst.1).p.length by omega) ha hb
  set c := (scan carrystep (scan addstep 0 ((A.take B.length).zip B)).2 (A.drop B.length)).2 with hc
  set xs := (scan addstep 0 ((A.take B.length).zip B)).1 ++
    (scan carrystep (scan addstep 0 ((A.take B.length).zip B)).2 (A.drop B.length)).1 with hxs
  have hlen : xs.length = A.length := by
    rw [hxs, List.length_append, scan_length, scan_length, List.length_zip, List.length_take, List.length_drop]
    omega
  have hplace : (splice (m dst.1).p dst.2 xs).length = (m dst.1).p.length := splice_length (by omega)
  have hpoke : poke (Function.update (bufs m) dst.1 (splice (m dst.1).p dst.2 xs)) dst.1
      (dst.2 + max A.length B.length) c =
      some (Function.update (bufs m) dst.1 (splice (m dst.1).p dst.2 (addloop A B 0))) := by
    rw [poke_eq (by rw [Function.update_self, Nat.max_eq_left hle]; omega), Function.update_self, Function.update_idem,
      Nat.max_eq_left hle, ← hlen, splice_splice _ _ _ _ (by omega), addloop_eq 0 hle]
  rw [Option.bind_eq_some_iff] at hrun
  obtain ⟨⟨c₁, P₁⟩, hfirst, hsecond⟩ := hrun
  have hmem := withbufs_update m dst.1 (splice (m dst.1).p dst.2 (addloop A B 0))
  rw [mpvecadd, ← hmem]
  simp only [Option.bind_eq_bind, hfirst, Option.bind_some, hsecond]
  exact congrArg (fun o => o.bind fun P => pure (withbufs m P)) hpoke

theorem mpvecsub_spec (m : Mem ι) (a b dst : ι × ℕ) (hA : ((m a.1).p.drop a.2).take A.length = A) (hB : ((m b.1).p.drop b.2).take B.length = B)
    (hle : B.length ≤ A.length) (hroom : dst.2 + A.length ≤ (m dst.1).size)
    (ha : a.1 = dst.1 → dst.2 ≤ a.2 ∨ a.2 + A.length ≤ dst.2)
    (hb : b.1 = dst.1 → dst.2 ≤ b.2 ∨ b.2 + B.length ≤ dst.2) :
    mpvecsub m a A.length b B.length dst =
      some (Function.update m dst.1 { m dst.1 with p := splice (m dst.1).p dst.2 (subloop A B 0) }) := by
  have hrun := sweep_both substep borrowstep (P := bufs m) hA hB hle hroom ha hb
  rw [Option.bind_eq_some_iff] at hrun
  obtain ⟨⟨c₁, P₁⟩, hfirst, hsecond⟩ := hrun
  rw [mpvecsub, ← withbufs_update, subloop_eq 0 hle]
  simp only [Option.bind_eq_bind, hfirst, Option.bind_some, hsecond]
  rfl

end Loops

/-- A number that has the digits of a normalized one. -/
structure Obj.Is (o : Obj) (b : Mpint) : Prop where
  sign : o.sign = b.sign
  fits : o.top ≤ o.size
  digits : o.digits = b.p

/-- A number that has the digits, which may be zero at the top. -/
structure Obj.Has (o : Obj) (sign : ℤˣ) (A : Vec) : Prop where
  sign : o.sign = sign
  fits : o.top ≤ o.size
  digits : o.digits = A

/-- What `mpnorm` makes of a number. -/
structure Obj.Norm (o : Obj) : Prop where
  fits : o.top ≤ o.size
  last : o.digits.getLast? ≠ some 0
  zero : o.top = 0 → o.sign = 1

/-- A zero has a zero at `p[0]`. -/
def Obj.Clean (o : Obj) : Prop := o.top = 0 → o.p.headD 0 = 0

/-- What comes to the place `old` for `b`, at least as long as before. A zero is written there, but for
what `Z` says. -/
structure Obj.Left (old : Obj) (b : Mpint) (Z : Prop) (o : Obj) : Prop where
  is : o.Is b
  size : old.size ≤ o.size
  zero : o.top = 0 → o.p.headD 0 = 0 ∨ Z ∧ o.p.headD 0 = old.p.headD 0

section Objects

variable {o o' old : Obj} {b b' : Mpint} {n k : ℕ}

theorem digits_length (h : o.top ≤ o.size) : o.digits.length = o.top := by
  rw [Obj.digits, List.length_take]
  exact Nat.min_eq_left h

theorem Obj.Is.top (h : o.Is b) : o.top = b.top := by rw [Mpint.top, ← h.digits, digits_length h.fits]

theorem Obj.Is.has (h : o.Is b) : o.Has b.sign b.p := ⟨h.sign, h.fits, h.digits⟩

theorem Obj.Has.top {s : ℤˣ} {A : Vec} (h : o.Has s A) : o.top = A.length := by
  rw [← h.digits, digits_length h.fits]

theorem Obj.Has.is (h : o.Has b.sign b.p) : o.Is b := ⟨h.sign, h.fits, h.digits⟩

theorem Obj.Is.toInt (h : o.Is b) : o.toInt = b.toInt := by rw [Obj.toInt, Mpint.toInt, h.sign, h.digits]

theorem Obj.Is.ext (h : o.Is b) (h' : o.Is b') : b = b' := by
  obtain ⟨sign, p, norm⟩ := b
  obtain ⟨sign', p', norm'⟩ := b'
  obtain rfl : sign = sign' := h.sign.symm.trans h'.sign
  obtain rfl : p = p' := h.digits.symm.trans h'.digits
  rfl

theorem Obj.Norm.is (h : o.Norm) : o.Is ⟨o.sign, o.digits, h.last⟩ := ⟨rfl, h.fits, rfl⟩

theorem Obj.Norm.proper (h : o.Norm) : o.digits = [] → o.sign = 1 := by
  intro hnil
  apply h.zero
  rw [← digits_length h.fits, hnil]
  rfl

theorem Obj.Is.norm (h : o.Is b) (hzero : b.p = [] → b.sign = 1) : o.Norm := by
  refine ⟨h.fits, ?_, fun htop => ?_⟩
  · rw [h.digits]
    exact b.norm
  · rw [h.sign]
    exact hzero (top_eq_zero.mp (h.top.symm.trans htop))

theorem is_clean (h : b.p ≠ []) (ho : o.Is b) : o.Clean := fun htop => absurd (top_eq_zero.mp (ho.top ▸ htop)) h

theorem mpbits_spec (h : o.top ≤ o.size) (n : ℕ) :
    (mpbits o n).sign = o.sign ∧ (mpbits o n).top = max o.top (DIGITS n) ∧
      (mpbits o n).size = max o.size (DIGITS n) ∧ (mpbits o n).p.take o.top = o.digits := by
  rw [mpbits]
  split
  · rename_i hroom
    refine ⟨rfl, ?_, ?_, rfl⟩
    · rw [Nat.max_eq_left hroom.2]
    · rw [Nat.max_eq_left hroom.1]
  · rename_i hroom
    have hlt : o.top < DIGITS n := by omega
    refine ⟨rfl, (Nat.max_eq_right hlt.le).symm, ?_, ?_⟩
    · simp only [Obj.size, List.length_append, List.length_take, List.length_replicate, List.length_drop] at h ⊢
      omega
    · rw [List.append_assoc]
      exact List.take_left' (digits_length h)

theorem mpnorm_is (h : o.top ≤ o.size) : (mpnorm o).Is (Mp.mpnorm o.sign o.digits) := by
  have hstrip : strip o.digits <+: o.digits := List.rdropWhile_prefix _ _
  have hle : (strip o.digits).length ≤ o.top := by
    rw [← digits_length h]
    exact hstrip.length_le
  refine ⟨rfl, hle.trans h, ?_⟩
  have htake : o.p.take (strip o.digits).length = o.digits.take (strip o.digits).length := by
    have hboth : (o.p.take o.top).take (strip o.digits).length = o.p.take (strip o.digits).length := by
      rw [List.take_take, Nat.min_eq_left hle]
    exact hboth.symm
  rw [Obj.digits, Mp.mpnorm_p]
  exact htake.trans (List.prefix_iff_eq_take.mp hstrip).symm

theorem mpcopy_p (h : o.top ≤ o.size) :
    (mpcopy o).p = o.digits ++ List.replicate (max o.size mpmindigits - o.top) 0 := by
  have hsize : DIGITS (32 * o.size) = o.size := by
    rw [DIGITS]
    omega
  rw [mpcopy, mpnew, hsize]
  dsimp only
  rw [splice, List.take_zero, List.nil_append, List.drop_replicate, Nat.zero_add, digits_length h]

theorem mpcopy_is (h : o.Is b) : (mpcopy o).Is b := by
  have hp := mpcopy_p h.fits
  have hlen := digits_length h.fits
  refine ⟨h.sign, ?_, ?_⟩
  · have htop : (mpcopy o).top = o.top := rfl
    rw [Obj.size, hp, htop, List.length_append, hlen]
    exact Nat.le_add_right _ _
  · have htop : (mpcopy o).top = o.top := rfl
    rw [Obj.digits, hp, htop, List.take_left' hlen, h.digits]

theorem mpcopy_size (h : o.top ≤ o.size) : (mpcopy o).size = max o.size mpmindigits := by
  rw [Obj.size, mpcopy_p h, List.length_append, digits_length h, List.length_replicate]
  omega

theorem mpcopy_clean (h : o.top ≤ o.size) : (mpcopy o).Clean := by
  intro htop
  have hzero : o.top = 0 := htop
  rw [mpcopy_p h, Obj.digits, hzero, List.take_zero, List.nil_append]
  cases max o.size mpmindigits - 0 <;> rfl

theorem assign_p (h : old.top ≤ old.size) : (assign old o).p = old.digits ++ o.p.drop old.top := by
  have hdigits : DIGITS (32 * old.top) = old.top := by
    rw [DIGITS]
    omega
  have hlen := digits_length h
  rw [assign, mpbits, hdigits]
  dsimp only
  split
  · rw [splice, List.take_zero, List.nil_append, Nat.zero_add, hlen]
  · rw [splice, List.take_zero, List.nil_append, Nat.zero_add, hlen]
    dsimp only
    rw [List.take_zero, List.nil_append, Nat.sub_zero, List.drop_left' (by simp)]

theorem assign_has {s : ℤˣ} {A : Vec} (h : old.Has s A) : (assign old o).Has s A := by
  have hp := assign_p (o := o) h.fits
  have hlen := digits_length h.fits
  have htop : (assign old o).top = old.top := rfl
  refine ⟨h.sign, ?_, ?_⟩
  · rw [Obj.size, hp, htop, List.length_append, hlen]
    exact Nat.le_add_right _ _
  · rw [Obj.digits, hp, htop, List.take_left' hlen, h.digits]

theorem assign_is (h : old.Is b) : (assign old o).Is b := (assign_has h.has).is

theorem assign_size (h : old.top ≤ old.size) : (assign old o).size = max o.size old.top := by
  rw [Obj.size, assign_p h, List.length_append, digits_length h, List.length_drop, Obj.size]
  omega

theorem mpzero_is : mpzero.Is Mp.mpzero := ⟨rfl, Nat.zero_le _, rfl⟩

theorem mpone_is : mpone.Is Mp.mpone := ⟨rfl, le_rfl, rfl⟩

theorem mpmagcmp_is (h : o.Is b) (h' : o'.Is b') : mpmagcmp o o' = Mp.mpmagcmp b b' := by
  rw [mpmagcmp, Mp.mpmagcmp, h.top, h'.top, h.digits, h'.digits]

theorem mpcmp_is (h : o.Is b) (h' : o'.Is b') : mpcmp o o' = Mp.mpcmp b b' := by
  rw [mpcmp, Mp.mpcmp, mpmagcmp_is h h', h.sign, h'.sign]

@[simp] theorem mpnorm_size (o : Obj) : (mpnorm o).size = o.size := rfl

theorem written_size (p : Vec) (sign : ℤˣ) (xs : Vec) (h : xs.length ≤ p.length) :
    (mpnorm ⟨sign, xs.length, splice p 0 xs⟩).size = p.length := by
  rw [mpnorm_size, Obj.size]
  exact splice_length (by omega)

/-- A number of which the first digits are written. -/
theorem written_is (p : Vec) (sign : ℤˣ) (xs : Vec) (h : xs.length ≤ p.length) :
    (mpnorm ⟨sign, xs.length, splice p 0 xs⟩).Is (Mp.mpnorm sign xs) := by
  have hdigits : Obj.digits ⟨sign, xs.length, splice p 0 xs⟩ = xs := splice_zero_take xs
  have hsize : (splice p 0 xs).length = p.length := splice_length (by omega)
  have hnorm := mpnorm_is (o := ⟨sign, xs.length, splice p 0 xs⟩) (by rw [Obj.size, hsize]; exact h)
  rw [hdigits] at hnorm
  exact hnorm

theorem written_left {p xs : Vec} (sign : ℤˣ) (h : xs.length ≤ p.length) (hne : xs ≠ []) {Z : Prop}
    (hp : old.size ≤ p.length) :
    old.Left (Mp.mpnorm sign xs) Z (mpnorm ⟨sign, xs.length, splice p 0 xs⟩) := by
  have his := written_is p sign xs h
  refine ⟨his, by rw [written_size p sign xs h]; exact hp, fun htop => .inl ?_⟩
  have hnil : strip xs = [] := by
    rw [his.top] at htop
    exact top_eq_zero.mp htop
  obtain ⟨x, ys, rfl⟩ := List.exists_cons_of_ne_nil hne
  have hval := val_strip (x :: ys)
  rw [hnil, val_nil, val_cons] at hval
  have hx : x = 0 := UInt32.toNat_inj.mp (by rw [UInt32.toNat_zero]; omega)
  exact hx

theorem assign_left (h : old.Is b) : o.Left b (b.p = []) (assign old o) := by
  refine ⟨assign_is h, (le_max_left _ _).trans_eq (assign_size h.fits).symm, fun htop => .inr ?_⟩
  have hzero : old.top = 0 := htop
  rw [assign_p h.fits, Obj.digits, hzero]
  exact ⟨top_eq_zero.mp (h.top.symm.trans hzero), rfl⟩

theorem Obj.Left.mono {Z Z' : Prop} (h : old.Left b Z o) (hz : Z → Z') : old.Left b Z' o :=
  ⟨h.is, h.size, fun htop => (h.zero htop).imp_right fun hstale => ⟨hz hstale.1, hstale.2⟩⟩

theorem Obj.Left.withSign {Z : Prop} (h : old.Left b Z o) (s : ℤˣ) :
    old.Left (b.withSign s) Z { o with sign := s } :=
  ⟨⟨rfl, h.is.fits, h.is.digits⟩, h.size, h.zero⟩

theorem Obj.Left.fits {Z : Prop} (h : old.Left b Z o) : o.top ≤ o.size := h.is.fits

end Objects

end Petele.Mp.Heap
