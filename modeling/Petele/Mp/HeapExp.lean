import Petele.Mp.HeapModop

namespace Petele.Mp.Heap

open Lib Limbs Inplace

section Operations

variable {ι : Type} [DecidableEq ι]

/-- `mpmul` to a number that is none of the factors. -/
def mulinto (b1 b2 prod : Obj) : Option Obj := do
  let prod := mpbits { prod with top := 0 } ((b1.top + b2.top + 1) * 32)
  let p ← mpvecmul b1.digits b2.digits prod.p 0
  return mpnorm { sign := b1.sign * b2.sign, top := b1.top + b2.top + 1, p := p }

def mpmul (m : Mem ι) (b1 b2 prod : ι) : Option (Mem ι) :=
  if prod = b1 ∨ prod = b2 then do
    let o ← mulinto (m b1) (m b2) (mpnew 0)
    return Function.update m prod (assign o (m prod))
  else do
    let o ← mulinto (m b1) (m b2) (m prod)
    return Function.update m prod o

def mpmodmul (f : Option Reduce) (m : Mem ι) (b1 b2 n prod : ι) : Option (Mem ι) := do
  let (M, a, b) ← modargs f m b1 b2 n
  let M ← mpmul M a b (.inl prod)
  let M ← mpmod f M (.inl prod) (.inl n) (.inl prod)
  return fun r => M (.inl r)

/-- A product in `mpexp`, modulo a number or not. -/
def expmul (f : Option Reduce) (n : Option ι) (m : Mem ι) (b1 b2 prod : ι) : Option (Mem ι) :=
  n.elim (mpmul m b1 b2 prod) fun n => mpmodmul f m b1 b2 n prod

/-- A turn for one bit, with the places of `t[j]` and `t[j^1]` before and after it. -/
def expturn (f : Option Reduce) (n : Option ι) (b : ι) (bit : Bool) (s : Mem ι × ι × ι) : Option (Mem ι × ι × ι) := do
  let m ← expmul f n s.1 s.2.1 s.2.1 s.2.2
  if bit then
    let m ← expmul f n m s.2.2 b s.2.1
    return (m, s.2.1, s.2.2)
  else return (m, s.2.2, s.2.1)

/-- The turns for the bits of `d` below `1<<k`. -/
def expbits (f : Option Reduce) (n : Option ι) (b : ι) (d : UInt32) : ℕ → Mem ι × ι × ι → Option (Mem ι × ι × ι)
  | 0, s => some s
  | k + 1, s => (expturn f n b (d.toNat.testBit k) s).bind (expbits f n b d k)

/-- The turns for the digits of `e` below `i`. -/
def expdigits (f : Option Reduce) (n : Option ι) (b e : ι) : ℕ → Mem ι × ι × ι → Option (Mem ι × ι × ι)
  | 0, s => some s
  | i + 1, s => do
    let d ← (s.1 e).p[i]?
    let s ← expbits f n b d 32 s
    expdigits f n b e i s

/-- The number of bits below the highest one, which the search finds below `1<<k`. Without one it goes on for
ever. -/
def skipbits (d : UInt32) : ℕ → Option ℕ
  | 0 => none
  | k + 1 => if d.toNat.testBit k then some k else skipbits d k

/-- `t[0]` and the copies of operands that are the result as well. -/
inductive Temp where
  | t0
  | b
  | e
  | m
  deriving DecidableEq

def temps (m : Mem ι) (b e : ι) (n : Option ι) : Temp → Obj
  | .t0 => mpcopy (m b)
  | .b => mpcopy (m b)
  | .e => mpcopy (m e)
  | .m => n.elim (mpnew 0) fun n => mpcopy (m n)

/-- `mpexp`; it ends in `sysfatal` for a negative exponent. The copy of a field is no field. -/
def mpexp (f : Option Reduce) (m : Mem ι) (b e : ι) (n : Option ι) (res : ι) : Option (Mem ι) :=
  let i := mpcmp (m e) mpzero
  if i = 0 then some (Function.update m res (assign mpone (m res)))
  else if i < 0 then none
  else do
    let M : Mem (ι ⊕ Temp) := Sum.elim m (temps m b e n)
    let b : ι ⊕ Temp := if res = b then .inr .b else .inl b
    let e : ι ⊕ Temp := if res = e then .inr .e else .inl e
    let f := if n = some res then none else f
    let n : Option (ι ⊕ Temp) := n.map fun n => if res = n then .inr .m else .inl n
    let i := (M e).top - 1
    let d ← (M e).p[i]?
    let k ← skipbits d 32
    let s ← expbits f n b d k (M, .inr .t0, .inl res)
    let s ← expdigits f n b e i s
    let M := mpassign s.1 s.2.1 (.inl res)
    return fun r => M (.inl r)

end Operations

section Products

variable {ι : Type} [DecidableEq ι] {m : Mem ι} {b1 b2 prod n : ι} {o1 o2 o : Obj} {s1 s2 : ℤˣ} {A B : Vec}

theorem mulinto_left (h1 : o1.Has s1 A) (h2 : o2.Has s2 B) (o : Obj) :
    ∃ P o', mulinto o1 o2 o = some o' ∧ val P = val A * val B ∧ o.Left (Mp.mpnorm (s1 * s2) P) False o' := by
  have hdigits : DIGITS ((A.length + B.length + 1) * 32) = A.length + B.length + 1 := by
    rw [DIGITS]
    omega
  have hp : (mpbits { o with top := 0 } ((A.length + B.length + 1) * 32)).p =
      [] ++ (List.replicate (A.length + B.length) 0 ++ 0 :: o.p.drop (A.length + B.length + 1)) := by
    rw [mpbits, hdigits, if_neg (by dsimp only; omega)]
    dsimp only
    rw [List.take_zero, Nat.sub_zero, List.replicate_succ', List.append_assoc, List.append_assoc]
    rfl
  obtain ⟨ds, hmul, hlen, hval⟩ := mpvecmul_spec A B [] (0 :: o.p.drop (A.length + B.length + 1))
  set p := (mpbits { o with top := 0 } ((A.length + B.length + 1) * 32)).p with hpdef
  have hP : (ds ++ [0]).length = A.length + B.length + 1 := by
    rw [List.length_append, hlen]
    rfl
  have hplen : p.length = max o.p.length (A.length + B.length + 1) := by
    rw [hp, List.nil_append, List.length_append, List.length_replicate, List.length_cons, List.length_drop]
    omega
  have hwritten : [] ++ (ds ++ 0 :: o.p.drop (A.length + B.length + 1)) = splice p 0 (ds ++ [0]) := by
    have hzeros : (List.replicate (A.length + B.length) (0 : UInt32)).length = A.length + B.length := List.length_replicate
    rw [splice, List.take_zero, Nat.zero_add, hP, hp, List.nil_append, List.nil_append, List.nil_append,
      List.append_cons (List.replicate _ _), List.drop_left' (by rw [List.length_append, hzeros]; rfl), List.append_assoc]
    rfl
  refine ⟨ds ++ [0], mpnorm ⟨s1 * s2, (ds ++ [0]).length, splice p 0 (ds ++ [0])⟩, ?_, ?_,
    written_left _ (by rw [hP, hplen]; exact le_max_right _ _) (List.append_ne_nil_of_right_ne_nil _ (List.cons_ne_nil _ _))
      (by rw [hplen]; exact le_max_left _ _)⟩
  · rw [mulinto, h1.top, h2.top, h1.digits, h2.digits, h1.sign, h2.sign, ← hpdef]
    rw [← hp, List.length_nil] at hmul
    rw [hmul, Option.bind_eq_bind, Option.bind_some, hwritten, hP]
    rfl
  · rw [val_append, hval, val_singleton, UInt32.toNat_zero, Nat.mul_zero, Nat.add_zero]

theorem mpmul_leaves (h1 : (m b1).Has s1 A) (h2 : (m b2).Has s2 B) :
    ∃ P, Leaves m prod (Mp.mpnorm (s1 * s2) P) (prod = b1 ∨ prod = b2) (mpmul m b1 b2 prod) ∧ val P = val A * val B := by
  rw [mpmul]
  split
  · rename_i hsame
    obtain ⟨P, o, hrun, hval, hleft⟩ := mulinto_left h1 h2 (mpnew 0)
    refine ⟨P, ⟨assign o (m prod), ?_, (assign_left hleft.is).mono fun _ => hsame⟩, hval⟩
    rw [hrun]
    rfl
  · obtain ⟨P, o, hrun, hval, hleft⟩ := mulinto_left h1 h2 (m prod)
    refine ⟨P, ⟨o, ?_, hleft.mono False.elim⟩, hval⟩
    rw [hrun]
    rfl

/-- What `reduce` leaves of a number in its place if it does not refuse. -/
def Sound (f : Option Reduce) (n : Obj) : Prop :=
  ∀ reduce, f = some reduce → ∀ (x o : Obj) (X : Mpint), x.Is X → X.sign = 1 → reduce x x = some o →
    ∃ B, x.Left B True o ∧ B.sign = 1 ∧ val B.p = val X.p % val n.digits

theorem Sound.mends {f : Option Reduce} {X : Mpint} {o n : Obj} (h : Sound f n) (ho : o.Is X) (hX : X.sign = 1) :
    Mends f o n := by
  intro reduce hf o' ho'
  rw [ho.digits]
  exact h reduce hf _ o' X (mpcopy_is ho) hX ho'

theorem Sound.reduces {κ : Type} {M : Mem κ} {r : κ} {f : Option Reduce} {X N : Mpint} {o : Obj} (h : Sound f o) (ho : o.Is N)
    (hr : (M r).Is X) (hX : X.sign = 1) : Reduces f M r X N r := by
  intro reduce hf o' ho'
  rw [← ho.digits]
  exact h reduce hf _ o' X hr hX ho'

variable {f : Option Reduce} {X Y N : Mpint}

theorem mpmodmul_spec (h1 : (m b1).Is X) (h2 : (m b2).Is Y) (hn : (m n).Is N) (hX : X.sign = 1) (hY : Y.sign = 1)
    (hN : N.p ≠ []) (hsound : Sound f (m n)) (hroom : 2 ≤ (m prod).size)
    (hne1 : prod ≠ b1) (hne2 : prod ≠ b2) (hne : prod ≠ n) :
    ∃ m' B, mpmodmul f m b1 b2 n prod = some m' ∧ (m' prod).Is B ∧ B.sign = 1 ∧ val B.p = val X.p * val Y.p % val N.p ∧
      (m prod).size ≤ (m' prod).size ∧ ∀ y, y ≠ prod → (m y).Same (m' y) := by
  obtain ⟨M, a, b, hrun, ha, hb, hwherea, hwhereb, hsame⟩ := modargs_spec h1 h2 hn hN hX hY
    (fun _ => hsound.mends h1 hX) fun _ => hsound.mends h2 hY
  obtain ⟨A, hA, -, hAval⟩ := ha.has
  obtain ⟨B, hB, -, hBval⟩ := hb.has
  have hnea : ¬ (Sum.inl prod = a ∨ Sum.inl prod = b) := by
    rintro (heq | heq)
    · rcases hwherea with rfl | rfl
      · exact hne1 (Sum.inl_injective heq)
      · exact Sum.inl_ne_inr heq
    · rcases hwhereb with rfl | rfl
      · exact hne2 (Sum.inl_injective heq)
      · exact Sum.inl_ne_inr heq
  obtain ⟨P, ⟨o, hmul, hleft⟩, hP⟩ := mpmul_leaves hA hB
  have hclean : o.Clean := fun htop => (hleft.zero htop).resolve_right fun h => hnea h.1
  set M₁ := Function.update M (.inl prod) o with hM₁
  have hself : M₁ (.inl prod) = o := Function.update_self _ _ _
  have hnN : (M₁ (.inl n)).Is N := by
    rw [hM₁, Function.update_of_ne (Sum.inl_injective.ne hne.symm)]
    exact (hsame n).is hn
  have hone : (Mp.mpnorm (1 * 1) P).sign = 1 := by
    rw [Mp.mpnorm, one_mul]
    exact ite_self _
  have hsize : (m prod).size ≤ o.size := by
    rw [← (hsame prod).size]
    exact hleft.size
  obtain ⟨R, ⟨o', hmod, hleft'⟩, hval, -⟩ := mpmod_leaves f (m := M₁) (x := .inl prod) (n := .inl n) (r := .inl prod)
    (by rw [hself]; exact hleft.is) (by rw [hself]; exact hclean) hnN hN (by rw [hself]; exact hleft.fits)
    (by rw [hself]; exact hroom.trans hsize) (hsound.reduces hn (by rw [hself]; exact hleft.is) hone)
  obtain ⟨hRsign, hRval⟩ := hval hone
  rw [hself] at hleft'
  refine ⟨fun y => Function.update M₁ (.inl prod) o' (.inl y), R, ?_, ?_, hRsign, ?_, ?_, fun y hy => ?_⟩
  · rw [mpmodmul, hrun]
    simp only [Option.bind_eq_bind, Option.bind_some, hmul, hmod]
    rfl
  · dsimp only
    rw [Function.update_self]
    exact hleft'.is
  · rw [hRval, Mp.mpnorm_p, val_strip, hP, hAval, hBval, ← Nat.mul_mod]
  · dsimp only
    rw [Function.update_self]
    exact hsize.trans hleft'.size
  · dsimp only
    rw [Function.update_of_ne (Sum.inl_injective.ne hy), hM₁, Function.update_of_ne (Sum.inl_injective.ne hy)]
    exact hsame y

end Products

section Bits

theorem skipbits_spec {d : UInt32} {k : ℕ} (hpos : d ≠ 0) (hlt : d.toNat < 2 ^ k) :
    ∃ j, skipbits d k = some j ∧ d.toNat / 2 ^ j = 1 := by
  induction k with
  | zero =>
    refine absurd (UInt32.toNat_inj.mp ?_) hpos
    rw [UInt32.toNat_zero]
    omega
  | succ k ih =>
    rw [skipbits, Nat.testBit_eq_decide_div_mod_eq]
    by_cases hlow : d.toNat < 2 ^ k
    · rw [Nat.div_eq_of_lt hlow]
      exact ih hlow
    · have hone : d.toNat / 2 ^ k = 1 := by
        rw [Nat.pow_succ] at hlt
        exact Nat.div_eq_of_lt_le (by omega) (by omega)
      refine ⟨k, ?_, hone⟩
      rw [hone]
      rfl

end Bits

section Powers

variable {κ : Type} [DecidableEq κ] {m : Mem κ} {f : Option Reduce} {n : Option κ} {b t res : κ} {X Y B : Mpint}

/-- `v` modulo the number at `n`, or `v`. -/
def residue (m : Mem κ) (n : Option κ) (v : ℕ) : ℕ := n.elim v fun n => v % val (m n).digits

omit [DecidableEq κ] in
theorem residue_mul {u u' v v' : ℕ} (hu : residue m n u = residue m n u') (hv : residue m n v = residue m n v') :
    residue m n (u * v) = residue m n (u' * v') := by
  cases n with
  | none => exact congrArg₂ (· * ·) hu hv
  | some n => exact Nat.ModEq.mul hu hv

omit [DecidableEq κ] in
theorem residue_residue (v : ℕ) : residue m n (residue m n v) = residue m n v := by
  cases n with
  | none => rfl
  | some n => exact Nat.mod_mod _ _

omit [DecidableEq κ] in
theorem residue_same {m' : Mem κ} (h : ∀ k, n = some k → (m k).Same (m' k)) (v : ℕ) : residue m' n v = residue m n v := by
  cases n with
  | none => rfl
  | some n => rw [residue, residue, Option.elim_some, Option.elim_some, (h n rfl).digits]

theorem Obj.Same.sound {o o' : Obj} (h : o.Same o') (hf : Sound f o) : Sound f o' := by
  unfold Sound
  rw [h.digits]
  exact hf

/-- A modulus that is a number other than 0, and in none of the places of the results. -/
def Modulus (f : Option Reduce) (m : Mem κ) (n : Option κ) (t res : κ) : Prop :=
  ∀ k, n = some k → (m k).Norm ∧ (m k).digits ≠ [] ∧ Sound f (m k) ∧ k ≠ t ∧ k ≠ res

theorem expmul_spec {b1 b2 prod : κ} (h1 : (m b1).Is X) (h2 : (m b2).Is Y) (hX : X.sign = 1) (hY : Y.sign = 1)
    (hn : ∀ k, n = some k → (∃ N, (m k).Is N ∧ N.p ≠ []) ∧ Sound f (m k) ∧ k ≠ prod) (hroom : 2 ≤ (m prod).size)
    (hne1 : prod ≠ b1) (hne2 : prod ≠ b2) :
    ∃ m' P, expmul f n m b1 b2 prod = some m' ∧ (m' prod).Is P ∧ P.sign = 1 ∧
      val P.p = residue m n (val X.p * val Y.p) ∧ (m prod).size ≤ (m' prod).size ∧ ∀ y, y ≠ prod → (m y).Same (m' y) := by
  cases n with
  | none =>
    obtain ⟨P, ⟨o, hrun, hleft⟩, hval⟩ := mpmul_leaves (hX ▸ h1.has) (hY ▸ h2.has)
    refine ⟨Function.update m prod o, Mp.mpnorm (1 * 1) P, hrun, ?_, ?_, ?_, ?_, fun y hy => ?_⟩
    · rw [Function.update_self]
      exact hleft.is
    · rw [Mp.mpnorm, one_mul]
      exact ite_self _
    · rw [Mp.mpnorm_p, val_strip]
      exact hval
    · rw [Function.update_self]
      exact hleft.size
    · rw [Function.update_of_ne hy]
      exact Obj.Same.refl _
  | some k =>
    obtain ⟨⟨N, hN, hpos⟩, hsound, hne⟩ := hn k rfl
    obtain ⟨m', P, hrun, his, hsign, hval, hsize, hsame⟩ := mpmodmul_spec h1 h2 hN hX hY hpos hsound hroom hne1 hne2 hne.symm
    refine ⟨m', P, hrun, his, hsign, ?_, hsize, hsame⟩
    rw [hval, residue, Option.elim_some, hN.digits]

/-- `t[j]` is the power with the exponent `E`. It is a residue, but for the base itself. -/
structure Powers (m : Mem κ) (n : Option κ) (t res : κ) (B : ℕ) (E : ℕ) (s : Mem κ × κ × κ) : Prop where
  places : s.2.1 = t ∧ s.2.2 = res ∨ s.2.1 = res ∧ s.2.2 = t
  same : ∀ y, y ≠ t → y ≠ res → (m y).Same (s.1 y)
  room : 2 ≤ (s.1 s.2.1).size ∧ 2 ≤ (s.1 s.2.2).size
  power : ∃ X, (s.1 s.2.1).Is X ∧ X.sign = 1 ∧ val X.p = if E = 1 then B else residue m n (B ^ E)

variable {s : Mem κ × κ × κ} {E : ℕ}

/-- A product at `t` or `res`, and the same numbers as before elsewhere. -/
theorem expmul_step (hn : Modulus f m n t res) {M : Mem κ} {b1 b2 prod : κ} (hsame : ∀ y, y ≠ t → y ≠ res → (m y).Same (M y))
    (hprod : prod = t ∨ prod = res) (h1 : (M b1).Is X) (h2 : (M b2).Is Y) (hX : X.sign = 1) (hY : Y.sign = 1)
    (hroom : 2 ≤ (M prod).size) (hne1 : prod ≠ b1) (hne2 : prod ≠ b2) :
    ∃ M' P, expmul f n M b1 b2 prod = some M' ∧ (M' prod).Is P ∧ P.sign = 1 ∧
      val P.p = residue m n (val X.p * val Y.p) ∧ 2 ≤ (M' prod).size ∧
      (∀ y, y ≠ t → y ≠ res → (m y).Same (M' y)) ∧ ∀ y, y ≠ prod → (M y).Same (M' y) := by
  have hsame' : ∀ k, n = some k → (m k).Same (M k) := fun k hk => by
    obtain ⟨-, -, -, hkt, hkres⟩ := hn k hk
    exact hsame k hkt hkres
  obtain ⟨M', P, hrun, his, hsign, hval, hsize, hframe⟩ := expmul_spec (f := f) (n := n) h1 h2 hX hY (fun k hk => by
      obtain ⟨hnorm, hne, hsound, hkt, hkres⟩ := hn k hk
      refine ⟨⟨_, (hsame' k hk).is hnorm.is, hne⟩, (hsame' k hk).sound hsound, ?_⟩
      rcases hprod with rfl | rfl
      · exact hkt
      · exact hkres) hroom hne1 hne2
  rw [residue_same hsame'] at hval
  refine ⟨M', P, hrun, his, hsign, hval, hroom.trans hsize, fun y hyt hyres => (hsame y hyt hyres).trans (hframe y ?_), hframe⟩
  rcases hprod with rfl | rfl
  · exact hyt
  · exact hyres

theorem expturn_spec (hn : Modulus f m n t res) (hB : (m b).Is B) (hsign : B.sign = 1) (hbt : b ≠ t) (hbres : b ≠ res)
    (hne : t ≠ res) (hE : 0 < E) (bit : Bool) (h : Powers m n t res (val B.p) E s) :
    ∃ s', expturn f n b bit s = some s' ∧ Powers m n t res (val B.p) (2 * E + bit.toNat) s' := by
  obtain ⟨M, x, y⟩ := s
  obtain ⟨hplaces, hsame, ⟨hroomx, hroomy⟩, X, hX, hXsign, hXval⟩ := h
  dsimp only at hplaces hsame hroomx hroomy hX
  have hres : residue m n (val X.p) = residue m n (val B.p ^ E) := by
    rw [hXval]
    split
    · rename_i hone
      rw [hone, Nat.pow_one]
    · exact residue_residue _
  have hxy : y ≠ x := by
    rcases hplaces with ⟨rfl, rfl⟩ | ⟨rfl, rfl⟩
    · exact hne.symm
    · exact hne
  have hbx : x ≠ b := by
    rcases hplaces with ⟨rfl, -⟩ | ⟨rfl, -⟩
    · exact hbt.symm
    · exact hbres.symm
  have hby : b ≠ y := by
    rcases hplaces with ⟨-, rfl⟩ | ⟨-, rfl⟩
    · exact hbres
    · exact hbt
  obtain ⟨M₁, P, hrun₁, hP, hPsign, hPval, hroom₁, hsame₁, hframe₁⟩ := expmul_step hn hsame (hplaces.symm.imp And.right And.right)
    hX hX hXsign hXsign hroomy hxy hxy
  have hsquare : residue m n (val X.p * val X.p) = residue m n (val B.p ^ (2 * E)) := by
    rw [residue_mul hres hres, Nat.two_mul, Nat.pow_add]
  have hroomx₁ : 2 ≤ (M₁ x).size := hroomx.trans_eq (hframe₁ x hxy.symm).size.symm
  have hsquare' : residue m n (val P.p) = residue m n (val B.p ^ (2 * E)) := by rw [hPval, residue_residue, hsquare]
  cases bit with
  | false =>
    refine ⟨(M₁, y, x), ?_, hplaces.symm.imp And.symm And.symm, hsame₁, ⟨hroom₁, hroomx₁⟩, P, hP, hPsign, ?_⟩
    · rw [expturn, hrun₁]
      rfl
    · rw [if_neg (by rw [Bool.toNat_false]; omega), hPval, hsquare]
      rfl
  | true =>
    have hB₁ : (M₁ b).Is B := (hsame₁ b hbt hbres).is hB
    obtain ⟨M₂, Q, hrun₂, hQ, hQsign, hQval, hroom₂, hsame₂, hframe₂⟩ := expmul_step hn hsame₁ (hplaces.imp And.left And.left)
      hP hB₁ hPsign hsign hroomx₁ hxy.symm hbx
    have hstep : residue m n (val P.p * val B.p) = residue m n (val B.p ^ (2 * E + 1)) := by
      rw [Nat.pow_succ]
      exact residue_mul hsquare' rfl
    refine ⟨(M₂, x, y), ?_, hplaces, hsame₂, ⟨hroom₂, hroom₁.trans_eq (hframe₂ y hxy).size.symm⟩, Q, hQ, hQsign, ?_⟩
    · rw [expturn, hrun₁, Option.bind_eq_bind, Option.bind_some, if_pos rfl, hrun₂]
      rfl
    · rw [if_neg (by rw [Bool.toNat_true]; omega), hQval, hstep]
      rfl

theorem expbits_spec (hn : Modulus f m n t res) (hB : (m b).Is B) (hsign : B.sign = 1) (hbt : b ≠ t) (hbres : b ≠ res)
    (hne : t ≠ res) (d : UInt32) (k : ℕ) (hE : 0 < E) (h : Powers m n t res (val B.p) E s) :
    ∃ s', expbits f n b d k s = some s' ∧ Powers m n t res (val B.p) (E * 2 ^ k + d.toNat % 2 ^ k) s' := by
  induction k generalizing E s with
  | zero =>
    refine ⟨s, rfl, ?_⟩
    rw [Nat.pow_zero, Nat.mod_one, Nat.mul_one, Nat.add_zero]
    exact h
  | succ k ih =>
    obtain ⟨s₁, hrun₁, h₁⟩ := expturn_spec hn hB hsign hbt hbres hne hE (d.toNat.testBit k) h
    obtain ⟨s₂, hrun₂, h₂⟩ := ih (by omega) h₁
    have hbit : (d.toNat.testBit k).toNat = d.toNat / 2 ^ k % 2 := by
      rw [Nat.testBit_eq_decide_div_mod_eq]
      rcases Nat.mod_two_eq_zero_or_one (d.toNat / 2 ^ k) with h0 | h1
      · rw [h0]
        rfl
      · rw [h1]
        rfl
    have hexp : (2 * E + (d.toNat.testBit k).toNat) * 2 ^ k + d.toNat % 2 ^ k = E * 2 ^ (k + 1) + d.toNat % 2 ^ (k + 1) := by
      rw [Nat.mod_pow_succ, hbit]
      ring
    rw [hexp] at h₂
    refine ⟨s₂, ?_, h₂⟩
    rw [expbits, hrun₁]
    exact hrun₂

theorem expdigits_spec (hn : Modulus f m n t res) (hB : (m b).Is B) (hsign : B.sign = 1) (hbt : b ≠ t) (hbres : b ≠ res)
    (hne : t ≠ res) {e : κ} (het : e ≠ t) (heres : e ≠ res) (hfits : (m e).top ≤ (m e).size) {i : ℕ} (hi : i ≤ (m e).top)
    (hE : 0 < E) (h : Powers m n t res (val B.p) E s) :
    ∃ s', expdigits f n b e i s = some s' ∧
      Powers m n t res (val B.p) (E * (2 ^ 32) ^ i + val ((m e).digits.take i)) s' := by
  induction i generalizing E s with
  | zero =>
    refine ⟨s, rfl, ?_⟩
    rw [Nat.pow_zero, List.take_zero, val_nil, Nat.mul_one, Nat.add_zero]
    exact h
  | succ i ih =>
    have hlen := digits_length hfits
    obtain ⟨d, hd⟩ : ∃ d, (m e).digits[i]? = some d := ⟨_, List.getElem?_eq_getElem (by omega)⟩
    have hread : (s.1 e).p[i]? = some d := by
      rw [← hd, ← (h.same e het heres).digits, Obj.digits, (h.same e het heres).top, List.getElem?_take_of_lt hi]
    obtain ⟨s₁, hrun₁, h₁⟩ := expbits_spec hn hB hsign hbt hbres hne d 32 hE h
    rw [Nat.mod_eq_of_lt d.toNat_lt] at h₁
    obtain ⟨s₂, hrun₂, h₂⟩ := ih (by omega) (by omega) h₁
    have htake : val ((m e).digits.take (i + 1)) = val ((m e).digits.take i) + (2 ^ 32) ^ i * d.toNat := by
      rw [List.take_add_one, hd, val_append, List.length_take_of_le (by omega), Option.toList_some, val_singleton]
    have hexp : (E * 2 ^ 32 + d.toNat) * (2 ^ 32) ^ i + val ((m e).digits.take i) =
        E * (2 ^ 32) ^ (i + 1) + val ((m e).digits.take (i + 1)) := by
      rw [htake]
      ring
    rw [hexp] at h₂
    refine ⟨s₂, ?_, h₂⟩
    rw [expdigits, hread, Option.bind_eq_bind, Option.bind_some, hrun₁]
    exact hrun₂

end Powers

section Power

variable {ι : Type} [DecidableEq ι] {m : Mem ι} {f : Option Reduce} {n : Option ι} {b e res : ι}

theorem mpcopy_norm {o : Obj} (h : o.Norm) : (mpcopy o).Norm := (mpcopy_is h.is).norm h.proper

theorem mpcopy_digits {o : Obj} (h : o.top ≤ o.size) : (mpcopy o).digits = o.digits := by
  rw [Obj.digits, mpcopy_p h]
  exact List.take_left' (digits_length h)

/-- An operand, or the copy of it where the result goes to the same place. -/
theorem temps_operand {a : ι} {x : Temp} (hx : x ≠ .t0) (hcopy : temps m b e n x = mpcopy (m a)) (ha : (m a).Norm) :
    let k : ι ⊕ Temp := if res = a then .inr x else .inl a
    (Sum.elim m (temps m b e n) k).Norm ∧ (Sum.elim m (temps m b e n) k).sign = (m a).sign ∧
      (Sum.elim m (temps m b e n) k).top = (m a).top ∧ (Sum.elim m (temps m b e n) k).digits = (m a).digits ∧
      k ≠ .inr .t0 ∧ k ≠ .inl res := by
  dsimp only
  split
  · rw [Sum.elim_inr, hcopy]
    exact ⟨mpcopy_norm ha, rfl, rfl, mpcopy_digits ha.fits, fun h => hx (Sum.inr_injective h), Sum.inr_ne_inl⟩
  · rename_i hne
    exact ⟨ha, rfl, rfl, rfl, Sum.inl_ne_inr, fun h => hne (Sum.inl_injective h).symm⟩

theorem mpcmp_mpzero {o : Obj} (h : o.sign = 1) : mpcmp o mpzero = o.top := by
  have hsign : ((o.sign : ℤ) - mpzero.sign) / 2 = 0 := by
    rw [h]
    rfl
  rw [mpcmp, hsign, if_neg (by simp), h, Units.val_one, mul_one, mpmagcmp]
  split
  · exact sub_zero _
  · rename_i htop
    have hzero : o.top = 0 := not_not.mp htop
    rw [Obj.digits, hzero]
    rfl

theorem mpexp_power (hb : (m b).Norm) (hbsign : (m b).sign = 1) (he : (m e).Norm) (hesign : (m e).sign = 1)
    (htop : (m e).top ≠ 0) (hn : ∀ k, n = some k → (m k).Norm ∧ (m k).digits ≠ [] ∧ (k ≠ res → Sound f (m k)))
    (hres : 2 ≤ (m res).size) :
    ∃ m' X, mpexp f m b e n res = some m' ∧ (m' res).Is X ∧ X.sign = 1 ∧
      val X.p = (if val (m e).digits = 1 then val (m b).digits
        else residue m n (val (m b).digits ^ val (m e).digits)) ∧
      ∀ y, y ≠ res → (m y).Same (m' y) := by
  obtain ⟨hbN, hbS, -, hbD, hbt, hbres⟩ := temps_operand (e := e) (n := n) (x := .b) (by decide) rfl hb
  obtain ⟨heN, heS, heT, heD, het, heres⟩ := temps_operand (b := b) (n := n) (x := .e) (by decide) rfl he
  obtain ⟨b', hb'⟩ : ∃ b' : ι ⊕ Temp, (if res = b then .inr .b else .inl b) = b' := ⟨_, rfl⟩
  obtain ⟨e', he'⟩ : ∃ e' : ι ⊕ Temp, (if res = e then .inr .e else .inl e) = e' := ⟨_, rfl⟩
  rw [hb'] at hbN hbS hbD hbt hbres
  rw [he'] at heN heS heT heD het heres
  set M : Mem (ι ⊕ Temp) := Sum.elim m (temps m b e n) with hM
  obtain ⟨f', hf'⟩ : ∃ f', (if n = some res then none else f) = f' := ⟨_, rfl⟩
  obtain ⟨n', hn'⟩ : ∃ n' : Option (ι ⊕ Temp), (n.map fun k => if res = k then .inr .m else .inl k) = n' := ⟨_, rfl⟩
  have hmodulus : Modulus f' M n' (.inr .t0) (.inl res) := by
    intro k' hk'
    rw [← hn'] at hk'
    obtain ⟨k, rfl, rfl⟩ := Option.map_eq_some_iff.mp hk'
    obtain ⟨hnorm, hne, hsound⟩ := hn k rfl
    obtain ⟨hkN, -, -, hkD, hkt, hkres⟩ := temps_operand (b := b) (e := e) (n := some k) (x := .m) (by decide) rfl hnorm
    refine ⟨hkN, by rw [hkD]; exact hne, ?_, hkt, hkres⟩
    rw [← hf']
    by_cases hsame : k = res
    · rw [if_pos (congrArg some hsame)]
      exact fun reduce hnone => absurd hnone (Option.some_ne_none _).symm
    · rw [if_neg fun h => hsame (Option.some_inj.mp h)]
      unfold Sound
      rw [hkD]
      exact hsound hsame
  have hresidue : ∀ v, residue M n' v = residue m n v := by
    intro v
    rw [← hn']
    cases n with
    | none => rfl
    | some k =>
      obtain ⟨hnorm, -, -⟩ := hn k rfl
      obtain ⟨-, -, -, hkD, -, -⟩ := temps_operand (b := b) (e := e) (n := some k) (x := .m) (by decide) rfl hnorm
      rw [residue, Option.map_some, Option.elim_some, hM, hkD]
      rfl
  -- the highest digit and its highest bit
  have hlen := digits_length he.fits
  obtain ⟨i, hi⟩ : ∃ i, (m e).top = i + 1 := Nat.exists_eq_succ_of_ne_zero htop
  obtain ⟨d, hd⟩ : ∃ d, (m e).digits.drop i = [d] := List.length_eq_one_iff.mp (by rw [List.length_drop]; omega)
  have hlast : (m e).digits[i]? = some d := by
    rw [← Nat.add_zero i, ← List.getElem?_drop, hd]
    rfl
  have hd0 : d ≠ 0 := fun hzero => he.last (by
    rw [List.getLast?_eq_getElem?, hlen, hi, Nat.add_sub_cancel, hlast, hzero])
  have hread : (M e').p[i]? = some d := by
    rw [← hlast, ← heD, Obj.digits, List.getElem?_take_of_lt (by omega)]
  obtain ⟨k, hskip, hone⟩ := skipbits_spec (k := 32) hd0 d.toNat_lt
  have hstart : Powers M n' (.inr .t0) (.inl res) (val (m b).digits) 1 (M, .inr .t0, .inl res) := by
    refine ⟨.inl ⟨rfl, rfl⟩, fun y _ _ => Obj.Same.refl _, ⟨?_, hres⟩, _, mpcopy_is hb.is, hbsign, ?_⟩
    · refine le_trans ?_ (le_of_eq (mpcopy_size hb.fits).symm)
      exact le_max_of_le_right (by decide)
    · rw [if_pos rfl]
  have hB : (M b').Is ⟨(M b').sign, (M b').digits, hbN.last⟩ := hbN.is
  obtain ⟨s₁, hrun₁, h₁⟩ := expbits_spec hmodulus hB (hbS.trans hbsign) hbt hbres Sum.inr_ne_inl d k Nat.one_pos
    (by dsimp only; rw [hbD]; exact hstart)
  have hdigit : 1 * 2 ^ k + d.toNat % 2 ^ k = d.toNat := by
    have hdiv := Nat.div_add_mod d.toNat (2 ^ k)
    rw [hone] at hdiv
    omega
  rw [hdigit] at h₁
  obtain ⟨s₂, hrun₂, h₂⟩ := expdigits_spec hmodulus hB (hbS.trans hbsign) hbt hbres Sum.inr_ne_inl het heres heN.fits
    (i := i) (by omega) (Nat.pos_of_ne_zero fun h0 => hd0 (UInt32.toNat_inj.mp h0)) h₁
  have hvalue : d.toNat * (2 ^ 32) ^ i + val ((M e').digits.take i) = val (m e).digits := by
    have hsplit := val_split (m e).digits i
    rw [hd, val_singleton] at hsplit
    rw [heD, hsplit, Nat.mul_comm, Nat.add_comm]
  rw [hvalue] at h₂
  obtain ⟨-, hsame, -, X, hX, hXsign, hXval⟩ := h₂
  dsimp only at hXval
  rw [hbD, hresidue] at hXval
  refine ⟨fun y => mpassign s₂.1 s₂.2.1 (.inl res) (.inl y), X, ?_, ?_, hXsign, hXval, fun y hy => ?_⟩
  · have hcmp := mpcmp_mpzero hesign
    rw [mpexp, hcmp, if_neg (by omega), if_neg (by omega)]
    dsimp only
    rw [hb', he', hf', hn', ← hM, heT, hi, Nat.add_sub_cancel]
    simp only [Option.bind_eq_bind, Option.bind_some, hread, hskip, hrun₁, hrun₂]
    rfl
  · dsimp only
    rw [mpassign_eq, Function.update_self]
    split
    · exact hX
    · exact assign_is hX
  · dsimp only
    rw [mpassign_eq, Function.update_of_ne (Sum.inl_injective.ne hy)]
    exact hsame (.inl y) Sum.inl_ne_inr (Sum.inl_injective.ne hy)

/-- What the result is to be: the power, modulo the modulus where there is one. -/
def PowerRight (m : Mem ι) (b e : ι) (n : Option ι) (o : Obj) : Prop :=
  o.toInt = n.elim ((m b).toInt ^ (m e).toInt.toNat) fun n => (m b).toInt ^ (m e).toInt.toNat % (m n).toInt

/-- The power is right but for two shortcuts that skip the reduction: the exponent 0 with the modulus 1, and the
exponent 1 with a base that is no residue. -/
theorem mpexp_iff (f : Option Reduce) (m : Mem ι) (b e : ι) (n : Option ι) (res : ι) (hb : (m b).Norm)
    (hbpos : 0 ≤ (m b).toInt) (he : (m e).Norm) (hepos : 0 ≤ (m e).toInt)
    (hn : ∀ k, n = some k → (m k).Norm ∧ 0 < (m k).toInt ∧ (k ≠ res → Sound f (m k)))
    (hroom : 2 ≤ (m res).size) :
    ∃ m', mpexp f m b e n res = some m' ∧ (m' res).Norm ∧ (∀ y, y ≠ res → (m y).Same (m' y)) ∧
      (PowerRight m b e n (m' res) ↔ ∀ k, n = some k →
        ¬ ((m e).toInt = 0 ∧ (m k).toInt = 1) ∧ ¬ ((m e).toInt = 1 ∧ (m k).toInt ≤ (m b).toInt)) := by
  obtain ⟨hbsign, hbval⟩ := hb.nonneg hbpos
  obtain ⟨hesign, heval⟩ := he.nonneg hepos
  by_cases htop : (m e).top = 0
  · have hnil : (m e).digits = [] := by rw [Obj.digits, htop, List.take_zero]
    have hzero : (m e).toInt = 0 := by
      rw [heval, hnil]
      rfl
    have hone : (assign mpone (m res)).toInt = 1 := (assign_is mpone_is).toInt.trans (by decide)
    refine ⟨Function.update m res (assign mpone (m res)), ?_, ?_, fun y hy => ?_, ?_⟩
    · rw [mpexp, mpcmp_mpzero hesign, htop]
      rfl
    · rw [Function.update_self]
      exact (assign_is mpone_is).norm fun h => absurd h (by decide)
    · rw [Function.update_of_ne hy]
      exact Obj.Same.refl _
    · rw [Function.update_self, PowerRight, hone, hzero, Int.toNat_zero, pow_zero]
      cases n with
      | none => simp
      | some k =>
        obtain ⟨-, hpos, -⟩ := hn k rfl
        have hmod : (1 : ℤ) = 1 % (m k).toInt ↔ ¬ (m k).toInt = 1 := by
          constructor
          · intro h h1
            rw [h1] at h
            exact absurd h (by decide)
          · intro h1
            rw [Int.emod_eq_of_lt (by omega) (by omega)]
        simpa using hmod
  · obtain ⟨m', X, hrun, hX, hXsign, hXval, hsame⟩ := mpexp_power (f := f) hb hbsign he hesign htop (fun k hk => by
        obtain ⟨hnorm, hpos, hsound⟩ := hn k hk
        refine ⟨hnorm, fun hnil => ?_, hsound⟩
        rw [Obj.toInt, hnil] at hpos
        simp at hpos) hroom
    have hval : (m' res).toInt = val X.p := by
      rw [hX.toInt, Mpint.toInt, hXsign, Units.val_one, one_mul]
    refine ⟨m', hrun, hX.norm fun _ => hXsign, hsame, ?_⟩
    rw [PowerRight, hval, hXval, hbval, heval, Int.toNat_natCast]
    have hepos' : val (m e).digits ≠ 0 := fun h0 =>
      htop ((digits_length he.fits).symm.trans (congrArg List.length ((val_eq_zero (b := ⟨1, _, he.last⟩)).mp h0)))
    cases n with
    | none =>
      have hpow : (if val (m e).digits = 1 then val (m b).digits
          else residue m none (val (m b).digits ^ val (m e).digits)) = val (m b).digits ^ val (m e).digits := by
        split
        · rename_i hone
          rw [hone, pow_one]
        · rfl
      rw [hpow]
      simp
    | some k =>
      obtain ⟨hnorm, hpos, -⟩ := hn k rfl
      obtain ⟨-, hkval⟩ := hnorm.nonneg hpos.le
      rw [hkval] at hpos
      rw [Option.elim_some, hkval]
      simp only [Option.some.injEq, forall_eq']
      rw [hkval]
      by_cases hone : val (m e).digits = 1
      · have hmod : (val (m b).digits : ℤ) = val (m b).digits % val (m k).digits ↔ ¬ (val (m k).digits : ℤ) ≤ val (m b).digits := by
          constructor
          · intro h hle
            have hlt := Int.emod_lt_of_pos (val (m b).digits : ℤ) hpos
            omega
          · intro hlt
            rw [Int.emod_eq_of_lt (by omega) (by omega)]
        rw [if_pos hone, hone, pow_one]
        simpa using hmod
      · rw [if_neg hone]
        refine iff_of_true ?_ ⟨fun h => hepos' (by omega), fun h => hone (by omega)⟩
        rw [residue, Option.elim_some]
        push_cast
        rfl

/-- 5 to the third power modulo 7, in place. -/
theorem mpexp_iff_inplace :
    ∃ m', mpexp none (fun i : Fin 3 => if i = 0 then ⟨1, 1, [5, 9]⟩ else if i = 1 then ⟨1, 1, [3]⟩ else ⟨1, 1, [7]⟩) 0 1
      (some 2) 0 = some m' ∧ (m' 0).toInt = 6 := by
  obtain ⟨m', hrun, -, -, hright⟩ := mpexp_iff none
    (fun i : Fin 3 => if i = 0 then ⟨1, 1, [5, 9]⟩ else if i = 1 then ⟨1, 1, [3]⟩ else ⟨1, 1, [7]⟩) 0 1 (some 2) 0
    ⟨by decide, by decide, by decide⟩ (by decide) ⟨by decide, by decide, by decide⟩ (by decide) (fun k hk => by
      obtain rfl := Option.some_inj.mp hk
      exact ⟨⟨by decide, by decide, by decide⟩, by decide, fun _ _ h => absurd h (Option.some_ne_none _).symm⟩)
    (by decide)
  refine ⟨m', hrun, (hright.mpr fun k hk => ?_).trans (by decide)⟩
  obtain rfl := Option.some_inj.mp hk
  decide

instance (m : Mem ι) (b e : ι) (n : Option ι) (o : Obj) : Decidable (PowerRight m b e n o) :=
  inferInstanceAs (Decidable (_ = _))

/-- 5 to the power of 1 modulo 3 is left as 5, and 5 to the power of 0 modulo 1 as 1. -/
theorem mpexp_unreduced :
    (∃ m', mpexp none (fun i : Fin 4 => if i = 0 then ⟨1, 1, [5]⟩ else if i = 1 then ⟨1, 1, [1]⟩ else
      if i = 2 then ⟨1, 1, [3]⟩ else ⟨1, 0, [0, 0]⟩) 0 1 (some 2) 3 = some m' ∧ (m' 3).toInt = 5 ∧
      ¬ PowerRight (fun i : Fin 4 => if i = 0 then ⟨1, 1, [5]⟩ else if i = 1 then ⟨1, 1, [1]⟩ else
        if i = 2 then ⟨1, 1, [3]⟩ else ⟨1, 0, [0, 0]⟩) 0 1 (some 2) (m' 3)) ∧
    ∃ m', mpexp none (fun i : Fin 4 => if i = 0 then ⟨1, 1, [5]⟩ else if i = 1 then ⟨1, 0, [0]⟩ else
      if i = 2 then ⟨1, 1, [1]⟩ else ⟨1, 0, [0, 0]⟩) 0 1 (some 2) 3 = some m' ∧ (m' 3).toInt = 1 ∧
      ¬ PowerRight (fun i : Fin 4 => if i = 0 then ⟨1, 1, [5]⟩ else if i = 1 then ⟨1, 0, [0]⟩ else
        if i = 2 then ⟨1, 1, [1]⟩ else ⟨1, 0, [0, 0]⟩) 0 1 (some 2) (m' 3) :=
  ⟨⟨_, rfl, by decide, by decide⟩, ⟨_, rfl, by decide, by decide⟩⟩

end Power

end Petele.Mp.Heap
