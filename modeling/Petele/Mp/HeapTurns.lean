import Petele.Mp.HeapShift

namespace Petele.Mp.Heap

open Lib Limbs Inplace

section Vectors

variable {κ : Type} [DecidableEq κ]

/-- A turn of the loop of `mpvecdigmulsub`, with `part[1]` and the borrow. -/
def mulsubstep (m : UInt32) (s : UInt32 × UInt32) (d : UInt32 × UInt32) : UInt32 × (UInt32 × UInt32) :=
  let y := d.2 - s.2
  let borrow := truth (d.2 < y)
  let next := mpdigmul d.1 m
  let x := s.1 + next.1
  let borrow := borrow + truth (x < next.1)
  let r := y - x
  (r, next.2, borrow + truth (y < r))

def mpvecdigmulsub (M : Mem κ) (b : κ × ℕ) (n : ℕ) (m : UInt32) (p : κ × ℕ) : Option (ℤ × Mem κ) := do
  let (s, P) ← sweep (both (peek b.1 b.2) (peek p.1 p.2)) (mulsubstep m) p.1 p.2 n 0 (0, 0) (bufs M)
  let x ← peek p.1 p.2 P n
  let y := x - s.2 - s.1
  let P ← poke P p.1 (p.2 + n) y
  return (if x < y then -1 else 1, withbufs M P)

/-- Step D3a, with turns that go around all digits. -/
def trial (v u : Vec) : ℕ → UInt32 → Option UInt32
  | 0, _ => none
  | fuel + 1, qd => if 0 < mpveccmp (muladdloop qd v [0, 0] 0 0) u then trial v u fuel (qd - 1) else some qd

/-- Step D3 where `j` digits of `u` are left. -/
def firstdigit (M : Mem κ) (u v : κ) (j : ℕ) : Option UInt32 := do
  let hi ← (M u).p[j - 1]?
  let lo ← (M u).p[j - 2]?
  let vp ← (M v).p[(M v).top - 1]?
  return mpdigdiv lo hi vp

def trialdigit (M : Mem κ) (u v : κ) (j fuel : ℕ) : Option UInt32 := do
  let vn := (M v).top
  let qd ← firstdigit M u v j
  if 1 < vn then
    let vs ← slice (M v).p (vn - 2) 2
    let us ← slice (M u).p (j - 3) 3
    trial vs us fuel qd
  else return qd

/-- Steps D4 and D6. -/
def mulsub (M : Mem κ) (u v : κ) (off vn : ℕ) (qd : UInt32) : Option (UInt32 × Mem κ) := do
  let (sign, M) ← mpvecdigmulsub M (v, 0) vn qd (u, off)
  if sign < 0 then
    let M ← mpvecadd M (u, off) (vn + 1) (v, 0) vn (u, off)
    return (qd - 1, M)
  else return (qd, M)

/-- Step D5. -/
def saveq (M : Mem κ) (q : Option κ) (i : ℕ) (qd : UInt32) : Option (Mem κ) :=
  match q with
  | none => some M
  | some q => do
    let P ← poke (bufs M) q i qd
    return withbufs M P

/-- A turn of the loop over the dividend. -/
def divturn (M : Mem κ) (u v : κ) (q : Option κ) (j : ℕ) : Option (Mem κ) := do
  let vn := (M v).top
  let qd ← trialdigit M u v j (2 ^ 32)
  let (qd, M) ← mulsub M u v (j - 1 - vn) vn qd
  let M ← saveq M q (j - 1 - vn) qd
  return Function.update M u { M u with top := (M u).top - 1, p := (M u).p.set (j - 1) 0 }

def divturns (u v : κ) (q : Option κ) : ℕ → ℕ → Mem κ → Option (Mem κ)
  | 0, _, M => some M
  | n + 1, j, M => (divturn M u v q j).bind (divturns u v q n (j - 1))

end Vectors

section Loops

variable {κ : Type} [DecidableEq κ] {M : Mem κ} {B W : Vec}

theorem room_of_take {p W : Vec} {off : ℕ} (h : (p.drop off).take W.length = W) (hne : W ≠ []) :
    off + W.length ≤ p.length := by
  have hlen := congrArg List.length h
  have hpos := List.length_pos_of_ne_nil hne
  rw [List.length_take, List.length_drop] at hlen
  omega

theorem mulsubloop_scan (m : UInt32) (hlen : W.length = B.length + 1) (part borrow : UInt32) :
    let s := scan (mulsubstep m) (part, borrow) (B.zip W)
    let x := W.getD B.length 0
    let y := x - s.2.2 - s.2.1
    mulsubloop m B W part borrow = (s.1 ++ [y], if x < y then -1 else 1) := by
  induction B generalizing W part borrow with
  | nil =>
    obtain ⟨x, rfl⟩ := List.length_eq_one_iff.mp hlen
    rfl
  | cons b B ih =>
    cases W with
    | nil => cases hlen
    | cons x W =>
      have hrest := ih (Nat.succ.inj hlen) (mulsubstep m (part, borrow) (b, x)).2.1 (mulsubstep m (part, borrow) (b, x)).2.2
      rw [mulsubloop]
      dsimp only [mulsubstep] at hrest ⊢
      rw [hrest]
      rfl

theorem mpvecdigmulsub_heap {b p : κ × ℕ} (hne : b.1 ≠ p.1) (hB : ((M b.1).p.drop b.2).take B.length = B)
    (hW : ((M p.1).p.drop p.2).take W.length = W) (hlen : W.length = B.length + 1) (m : UInt32) :
    mpvecdigmulsub M b B.length m p = some ((mulsubloop m B W 0 0).2,
      Function.update M p.1 { M p.1 with p := splice (M p.1).p p.2 (mulsubloop m B W 0 0).1 }) := by
  have hroom := room_of_take hW (fun hnil => by rw [hnil] at hlen; cases hlen)
  have hreadB : ∀ i (hi : i < B.length), peek b.1 b.2 (bufs M) i = some B[i] := fun i hi => peek_eq hB rfl hi
  have hreadW : ∀ i (hi : i < W.length), peek p.1 p.2 (bufs M) i = some W[i] := fun i hi => peek_eq hW rfl hi
  have hahead : Ahead (α := UInt32) (both (peek b.1 b.2) (peek p.1 p.2)) p.1 p.2 B.length :=
    Ahead.both (ahead_peek fun heq => absurd heq hne) (ahead_peek fun _ => .inl le_rfl)
  have hzip : (B.zip W).length = B.length := by
    rw [List.length_zip]
    omega
  have hbufs : (bufs M p.1).length = (M p.1).p.length := rfl
  have hrun := sweep_spec (mulsubstep m) hahead (0, 0) (k := 0) (P := bufs M) (B.zip W) (fun i hi => by
      rw [hzip] at hi
      rw [Nat.zero_add, both, hreadB i hi, hreadW i (by omega)]
      simp) (by omega) (by omega)
  rw [hzip, Nat.add_zero] at hrun
  have hscan := mulsubloop_scan m hlen 0 0
  set s := scan (mulsubstep m) (0, 0) (B.zip W) with hs
  have hslen : s.1.length = B.length := by rw [hs, scan_length, hzip]
  have hsize : (splice (bufs M p.1) p.2 s.1).length = (M p.1).p.length := splice_length (by omega)
  have hlast : peek p.1 p.2 (Function.update (bufs M) p.1 (splice (bufs M p.1) p.2 s.1)) B.length =
      some (W.getD B.length 0) := by
    rw [peek_splice (by omega) fun _ => .inr (by omega), hreadW B.length (by omega), List.getD_eq_getElem _ _ (by omega)]
  rw [mpvecdigmulsub, hrun, Option.bind_eq_bind, Option.bind_some, hscan]
  dsimp only
  rw [hlast, Option.bind_eq_bind, Option.bind_some, poke_eq (by rw [Function.update_self]; omega), Option.bind_eq_bind,
    Option.bind_some, Function.update_self, Function.update_idem, ← withbufs_update, ← hslen, splice_splice _ _ _ _ (by omega)]
  rfl

/-- The loop ends after as many turns as the digit goes down. -/
theorem trial_spec {v u : Vec} (hv : v.length = 2) (qd : UInt32) :
    ∃ d n, d.toNat + n = qd.toNat ∧ d = trialloop v u qd.toNat qd ∧
      ∀ fuel, trial v u fuel qd = if n < fuel then some d else none := by
  obtain ⟨k, hk⟩ : ∃ k, qd.toNat = k := ⟨_, rfl⟩
  rw [hk]
  induction k generalizing qd with
  | zero =>
    have hstop : ¬ 0 < mpveccmp (muladdloop qd v [0, 0] 0 0) u := by
      have hprod := muladdloop_eq qd v [0, 0] hv
      obtain ⟨hneg, hzero⟩ := mpveccmp_spec (muladdloop qd v [0, 0] 0 0) u
      rw [hprod, hk, show val [0, 0] = 0 from rfl, Nat.zero_mul] at hneg hzero
      omega
    refine ⟨qd, 0, by omega, rfl, fun fuel => ?_⟩
    cases fuel with
    | zero => rfl
    | succ fuel => rw [trial, if_neg hstop, if_pos (Nat.succ_pos fuel)]
  | succ k ih =>
    rw [trialloop]
    by_cases hbig : 0 < mpveccmp (muladdloop qd v [0, 0] 0 0) u
    · have hpred := toNat_pred (x := qd) (by omega)
      obtain ⟨d, n, hsum, hd, hrun⟩ := ih (qd - 1) (by omega)
      refine ⟨d, n + 1, by omega, by rw [if_pos hbig]; exact hd, fun fuel => ?_⟩
      cases fuel with
      | zero => rfl
      | succ fuel =>
        rw [trial, if_pos hbig, hrun]
        simp only [Nat.succ_lt_succ_iff]
    · refine ⟨qd, 0, by omega, by rw [if_neg hbig], fun fuel => ?_⟩
      cases fuel with
      | zero => rfl
      | succ fuel => rw [trial, if_neg hbig, if_pos (Nat.succ_pos fuel)]

end Loops

section Windows

variable {κ : Type} {M : Mem κ} {u v : κ} {V ds R W : Vec} {d : UInt32}

/-- The loop with the digits `ds` to come, the highest first, above a window `R` that is less than the divisor. -/
structure Dividing (M : Mem κ) (u v : κ) (V ds R : Vec) : Prop where
  ne : v ≠ u
  vtop : (M v).top = V.length
  vdigits : (M v).p.take V.length = V
  high : V.getD (V.length - 1) 0 ≠ 0
  len : R.length = V.length
  lt : val R < val V
  digits : (M u).p.take (ds.length + V.length) = ds.reverse ++ R
  room : ds.length + V.length < (M u).size

theorem Dividing.pos (h : Dividing M u v V ds R) : 0 < V.length := by
  by_contra hnot
  have hhigh := h.high
  rw [List.eq_nil_of_length_eq_zero (show V.length = 0 by omega)] at hhigh
  exact hhigh rfl

/-- The window of a turn. -/
theorem Dividing.window (h : Dividing M u v V (d :: ds) R) : ((M u).p.drop ds.length).take (V.length + 1) = d :: R := by
  have hdrop := congrArg (List.drop ds.length) h.digits
  rw [List.drop_take, List.length_cons, show ds.length + 1 + V.length - ds.length = V.length + 1 by omega] at hdrop
  rw [hdrop, List.reverse_cons, List.append_assoc, List.drop_left' List.length_reverse]
  rfl

theorem Dividing.window_lt (h : Dividing M u v V (d :: ds) R) : val (d :: R) < 2 ^ 32 * val V := by
  have hd := d.toNat_lt
  have hlt := h.lt
  rw [val_cons]
  omega

theorem Dividing.window_length (h : Dividing M u v V (d :: ds) R) : (d :: R).length = V.length + 1 := by
  rw [List.length_cons, h.len]

theorem getElem?_window {p : Vec} {off n i : ℕ} (h : (p.drop off).take n = W) (hi : i < n) : p[off + i]? = W[i]? := by
  subst h
  rw [List.getElem?_take_of_lt hi, List.getElem?_drop]

theorem slice_window {p : Vec} {off n i k : ℕ} (h : (p.drop off).take n = W) (hroom : off + n ≤ p.length)
    (hi : i + k = n) : slice p (off + i) k = some (W.drop i) := by
  subst h
  rw [slice, if_pos (by omega), List.drop_take, List.drop_drop, ← hi, Nat.add_sub_cancel_left]

theorem Dividing.window_room (h : Dividing M u v V (d :: ds) R) : ds.length + (V.length + 1) ≤ (M u).p.length := by
  have hroom := h.room
  rw [Obj.size, List.length_cons] at hroom
  omega

theorem firstdigit_eq (h : Dividing M u v V (d :: ds) R) :
    firstdigit M u v (ds.length + 1 + V.length) =
      some (mpdigdiv ((d :: R).getD (V.length - 1) 0) ((d :: R).getD V.length 0) (V.getD (V.length - 1) 0)) := by
  have hpos := h.pos
  have hlen := h.window_length
  have hhi := getElem?_window h.window (Nat.lt_succ_self V.length)
  have hlo := getElem?_window h.window (show V.length - 1 < V.length + 1 by omega)
  have hvp : (M v).p[(M v).top - 1]? = V[V.length - 1]? := by
    have hread := @getElem?_window _ _ 0 _ (V.length - 1) h.vdigits (by omega)
    rw [Nat.zero_add] at hread
    rw [h.vtop, hread]
  rw [firstdigit, hvp, show ds.length + 1 + V.length - 1 = ds.length + V.length by omega,
    show ds.length + 1 + V.length - 2 = ds.length + (V.length - 1) by omega, hhi, hlo,
    List.getElem?_eq_getElem (by omega), List.getElem?_eq_getElem (by omega), List.getElem?_eq_getElem (by omega),
    List.getD_eq_getElem _ _ (by omega), List.getD_eq_getElem _ _ (by omega), List.getD_eq_getElem _ _ (by omega)]
  rfl

theorem trialdigit_eq (h : Dividing M u v V (d :: ds) R) :
    ∃ qd n, firstdigit M u v (ds.length + 1 + V.length) = some qd ∧ (estimate V (d :: R)).toNat + n = qd.toNat ∧
      ∀ fuel, n < fuel → trialdigit M u v (ds.length + 1 + V.length) fuel = some (estimate V (d :: R)) := by
  have hfirst := firstdigit_eq h
  set qd := mpdigdiv ((d :: R).getD (V.length - 1) 0) ((d :: R).getD V.length 0) (V.getD (V.length - 1) 0) with hqd
  have hest : estimate V (d :: R) =
      if 1 < V.length then trialloop (V.drop (V.length - 2)) ((d :: R).drop (V.length - 2)) qd.toNat qd else qd := rfl
  by_cases hlong : 1 < V.length
  · obtain ⟨d', n, hsum, hd', hrun⟩ := trial_spec (v := V.drop (V.length - 2)) (u := (d :: R).drop (V.length - 2))
      (by rw [List.length_drop]; omega) qd
    have hvs : slice (M v).p (V.length - 2) 2 = some (V.drop (V.length - 2)) := by
      have hread := slice_window (i := V.length - 2) (k := 2) h.vdigits (by
        have hroom := @room_of_take _ _ 0 h.vdigits (fun hnil => by rw [hnil] at hlong; exact absurd hlong (by decide))
        omega) (by omega)
      rw [Nat.zero_add] at hread
      exact hread
    have hus : slice (M u).p (ds.length + 1 + V.length - 3) 3 = some ((d :: R).drop (V.length - 2)) := by
      rw [show ds.length + 1 + V.length - 3 = ds.length + (V.length - 2) by omega]
      exact slice_window h.window h.window_room (by omega)
    rw [hest, if_pos hlong, ← hd']
    refine ⟨qd, n, hfirst, hsum, fun fuel hfuel => ?_⟩
    rw [trialdigit, hfirst, h.vtop, Option.bind_eq_bind, Option.bind_some]
    rw [if_pos hlong, hvs, Option.bind_eq_bind, Option.bind_some, hus, Option.bind_some, hrun, if_pos hfuel]
  · rw [hest, if_neg hlong]
    refine ⟨qd, 0, hfirst, Nat.add_zero _, fun fuel _ => ?_⟩
    rw [trialdigit, hfirst, h.vtop, Option.bind_eq_bind, Option.bind_some]
    rw [if_neg hlong]
    rfl

theorem Dividing.next (h : Dividing M u v V (d :: ds) R) {N : Mem κ} (hv : N v = M v) (hsize : (N u).size = (M u).size)
    (hdigits : (N u).p.take (ds.length + V.length) = ds.reverse ++ (divstep V (d :: R)).2.take V.length) :
    Dividing N u v V ds ((divstep V (d :: R)).2.take V.length) := by
  obtain ⟨-, hlen, hval⟩ := divstep_spec h.window_length h.high h.window_lt
  have hvlt := val_lt V
  have hmod := Nat.mod_lt (val (d :: R)) (Nat.zero_lt_of_lt h.lt)
  have hroom := h.room
  rw [List.length_cons] at hroom
  refine ⟨h.ne, by rw [hv]; exact h.vtop, by rw [hv]; exact h.vdigits, h.high, ?_, ?_, hdigits, by rw [hsize]; omega⟩
  · rw [List.length_take, hlen]
    omega
  · rw [val_take, hval, Nat.mod_eq_of_lt (by omega)]
    exact hmod

end Windows

section Turns

variable {κ : Type} [DecidableEq κ] {M : Mem κ} {u v : κ} {q : Option κ} {V ds R W : Vec} {d : UInt32}

/-- What the steps D4 and D6 leave from `off` on. -/
def mended (V W : Vec) : Vec :=
  let r := mulsubloop (estimate V W) V W 0 0
  if r.2 < 0 then addloop r.1 V 0 else r.1

theorem mended_take (hlen : W.length = V.length + 1) :
    (mended V W).take V.length = (divstep V W).2.take V.length ∧ V.length + 1 ≤ (mended V W).length ∧
      (mended V W).length ≤ V.length + 2 := by
  have hdigits : (mulsubloop (estimate V W) V W 0 0).1.length = V.length + 1 := by
    obtain ⟨ds, sign, hsub, hds, -⟩ := mpvecdigmulsub_spec (estimate V W) hlen
    rw [Mp.mpvecdigmulsub, if_pos hlen, Option.some_inj] at hsub
    rw [hsub, hds]
  rw [mended, divstep_eq]
  dsimp only
  split
  · rw [List.take_take, Nat.min_eq_left (Nat.le_succ _), addloop_length, hdigits]
    exact ⟨rfl, Nat.le_succ _, le_rfl⟩
  · exact ⟨rfl, hdigits.ge, hdigits.le.trans (Nat.le_succ _)⟩

theorem mulsub_eq (h : Dividing M u v V (d :: ds) R) :
    mulsub M u v ds.length V.length (estimate V (d :: R)) = some ((divstep V (d :: R)).1,
      Function.update M u { M u with p := splice (M u).p ds.length (mended V (d :: R)) }) := by
  have hlen := h.window_length
  have hwindow := h.window
  rw [← hlen] at hwindow
  have hsub := mpvecdigmulsub_heap (M := M) (b := (v, 0)) (p := (u, ds.length)) h.ne h.vdigits hwindow hlen
    (estimate V (d :: R))
  dsimp only at hsub
  have hroom := h.room
  rw [List.length_cons] at hroom
  have hsize : (M u).size = (M u).p.length := rfl
  have hdigits : (mulsubloop (estimate V (d :: R)) V (d :: R) 0 0).1.length = V.length + 1 := by
    obtain ⟨xs, sign, hsub, hxs, -⟩ := mpvecdigmulsub_spec (estimate V (d :: R)) hlen
    rw [Mp.mpvecdigmulsub, if_pos hlen, Option.some_inj] at hsub
    rw [hsub, hxs]
  rw [mulsub, hsub, Option.bind_eq_bind, Option.bind_some, mended, divstep_eq]
  dsimp only
  set r := mulsubloop (estimate V (d :: R)) V (d :: R) 0 0 with hr
  by_cases hneg : r.2 < 0
  · set p₁ := splice (M u).p ds.length r.1 with hp₁
    have hp₁len : p₁.length = (M u).p.length := splice_length (by omega)
    have hmid : (p₁.drop ds.length).take r.1.length = r.1 := splice_mid (by omega)
    have hsize₁ : (Function.update M u { M u with p := p₁ } u).size = p₁.length := by
      rw [Function.update_self]
      rfl
    have hadd := mpvecadd_spec (Function.update M u { M u with p := p₁ }) (u, ds.length) (v, 0) (u, ds.length)
      (A := r.1) (B := V) (by rw [Function.update_self]; exact hmid)
      (by rw [Function.update_of_ne h.ne]; exact h.vdigits) (by omega)
      (by rw [hsize₁]; omega) (fun _ => .inl le_rfl) (fun heq => absurd heq h.ne)
    dsimp only at hadd
    rw [hdigits, Function.update_self, Function.update_idem] at hadd
    have hall : splice p₁ ds.length (addloop r.1 V 0) = splice (M u).p ds.length (addloop r.1 V 0) :=
      splice_over (by omega) (by rw [addloop_length]; exact Nat.le_succ _)
    rw [if_pos hneg, if_pos hneg, if_pos hneg, hadd, hall]
    rfl
  · rw [if_neg hneg, if_neg hneg, if_neg hneg]
    rfl

/-- The memory with the digits of the quotient from `off` on. -/
def withdigits (M : Mem κ) (q : Option κ) (off : ℕ) (xs : Vec) : Mem κ :=
  q.elim M fun r => Function.update M r { M r with p := splice (M r).p off xs }

theorem saveq_eq {i : ℕ} (hroom : ∀ r, q = some r → i < (M r).size) (x : UInt32) :
    saveq M q i x = some (withdigits M q i [x]) := by
  cases q with
  | none => rfl
  | some r =>
    have hplace : i < (bufs M r).length := hroom r rfl
    rw [saveq, poke_eq hplace, Option.bind_eq_bind, Option.bind_some, withbufs_update]
    rfl

theorem withdigits_of_ne {xs : Vec} {off : ℕ} {r : κ} (h : q ≠ some r) : withdigits M q off xs r = M r := by
  cases q with
  | none => rfl
  | some q => exact Function.update_of_ne (fun heq => h (congrArg some heq.symm)) _ _

theorem withdigits_update {xs : Vec} {off : ℕ} {o : Obj} (h : q ≠ some u) :
    withdigits (Function.update M u o) q off xs = Function.update (withdigits M q off xs) u o := by
  cases q with
  | none => rfl
  | some q =>
    have hne : q ≠ u := fun heq => h (congrArg some heq)
    simp only [withdigits, Option.elim_some, Function.update_of_ne hne]
    exact Function.update_comm hne.symm _ _ _

theorem withdigits_above {xs : Vec} {x : UInt32} (hroom : ∀ r, q = some r → xs.length < (M r).size) :
    withdigits (withdigits M q xs.length [x]) q 0 xs = withdigits M q 0 (xs ++ [x]) := by
  cases q with
  | none => rfl
  | some q =>
    have hplace := hroom q rfl
    simp only [withdigits, Option.elim_some, Function.update_self, Function.update_idem]
    rw [splice_singleton hplace]
    have hjoin := splice_set_above (M q).p 0 x xs (by rw [Nat.zero_add]; exact hplace)
    rw [Nat.zero_add] at hjoin
    rw [hjoin]

theorem divturn_spec (h : Dividing M u v V (d :: ds) R) (hq : q ≠ some u)
    (hroom : ∀ r, q = some r → ds.length < (M r).size) :
    ∃ o : Obj, divturn M u v q (ds.length + 1 + V.length) =
        some (Function.update (withdigits M q ds.length [(divstep V (d :: R)).1]) u o) ∧
      o.top = (M u).top - 1 ∧ o.sign = (M u).sign ∧ o.size = (M u).size ∧
      o.p.take (ds.length + V.length) = ds.reverse ++ (divstep V (d :: R)).2.take V.length := by
  obtain ⟨qd, n, -, hsum, htrial⟩ := trialdigit_eq h
  have hfuel : n < 2 ^ 32 := by
    have hlt := qd.toNat_lt
    omega
  obtain ⟨htake, hlong, hshort⟩ := mended_take h.window_length
  have hspace := h.room
  rw [List.length_cons] at hspace
  have hsize : (M u).size = (M u).p.length := rfl
  set p₁ := splice (M u).p ds.length (mended V (d :: R)) with hp₁
  have hp₁len : p₁.length = (M u).p.length := splice_length (by omega)
  refine ⟨{ M u with top := (M u).top - 1, p := p₁.set (ds.length + V.length) 0 }, ?_, rfl, rfl, ?_, ?_⟩
  · have hj : ds.length + 1 + V.length - 1 - V.length = ds.length := by omega
    have hup : ds.length + 1 + V.length - 1 = ds.length + V.length := by omega
    have hmem : ∀ r, q = some r → Function.update M u { M u with p := p₁ } r = M r := fun r hr =>
      Function.update_of_ne (fun heq => hq (hr.trans (congrArg some heq))) _ _
    rw [divturn, h.vtop, htrial _ hfuel, Option.bind_eq_bind, Option.bind_some, hj, mulsub_eq h, Option.bind_eq_bind,
      Option.bind_some]
    dsimp only
    rw [saveq_eq (fun r hr => by rw [hmem r hr]; exact hroom r hr), Option.bind_eq_bind, Option.bind_some,
      withdigits_update hq, Function.update_self, Function.update_idem, hup]
    rfl
  · rw [Obj.size, List.length_set, hp₁len, hsize]
  · rw [List.take_set_of_le le_rfl, hp₁, splice, List.append_assoc, List.take_append, List.take_take,
      List.length_take, Nat.min_eq_left (by omega : ds.length ≤ (M u).p.length), Nat.add_sub_cancel_left,
      Nat.min_eq_right (by omega), List.take_append_of_le_length (by omega), htake]
    have hlow := congrArg (List.take ds.length) h.digits
    rw [List.take_take, Nat.min_eq_left (by rw [List.length_cons]; omega), List.reverse_cons, List.append_assoc,
      List.take_left' List.length_reverse] at hlow
    rw [hlow]

theorem divloop_acc (V ds R Q : Vec) : divloop V ds R Q = ((divloop V ds R []).1 ++ Q, (divloop V ds R []).2) := by
  induction ds generalizing R Q with
  | nil => rfl
  | cons d ds ih =>
    rw [divloop, divloop, ih, ih _ [_]]
    dsimp only
    rw [List.append_assoc, List.singleton_append]

theorem length_divloop (V ds R : Vec) : (divloop V ds R []).1.length = ds.length := by
  induction ds generalizing R with
  | nil => rfl
  | cons d ds ih =>
    rw [divloop, divloop_acc]
    dsimp only
    rw [List.length_append, ih, List.length_singleton, List.length_cons]

/-- The state after a turn. -/
theorem divturn_next (h : Dividing M u v V (d :: ds) R) (hq : q ≠ some u) (hqv : q ≠ some v)
    (hroom : ∀ r, q = some r → (d :: ds).length ≤ (M r).size) :
    ∃ o N, N = Function.update (withdigits M q ds.length [(divstep V (d :: R)).1]) u o ∧
      divturn M u v q (ds.length + 1 + V.length) = some N ∧ Dividing N u v V ds ((divstep V (d :: R)).2.take V.length) ∧
      (∀ r, q = some r → ds.length ≤ (N r).size) ∧
      (N u).top = (M u).top - 1 ∧ (N u).sign = (M u).sign ∧ (N u).size = (M u).size := by
  obtain ⟨o, hturn, htop, hsign, hsize, hdigits⟩ := divturn_spec h hq hroom
  set N := Function.update (withdigits M q ds.length [(divstep V (d :: R)).1]) u o with hN
  have hself : N u = o := Function.update_self _ _ _
  have hv : N v = M v := by
    rw [hN, Function.update_of_ne h.ne]
    exact withdigits_of_ne hqv
  rw [← hself] at htop hsign hsize hdigits
  refine ⟨o, N, rfl, hturn, h.next hv hsize hdigits, fun r hr => ?_, htop, hsign, hsize⟩
  have hplace := hroom r hr
  rw [List.length_cons] at hplace
  have hne : r ≠ u := fun heq => hq (hr.trans (congrArg some heq))
  rw [hN, Function.update_of_ne hne, hr, withdigits, Option.elim_some, Function.update_self, Obj.size,
    splice_length (by rw [List.length_singleton]; exact hplace)]
  exact Nat.le_of_succ_le hplace

/-- The whole loop leaves the remainder in `u` and writes the quotient. -/
theorem divturns_spec (h : Dividing M u v V ds R) (hq : q ≠ some u) (hqv : q ≠ some v)
    (hroom : ∀ r, q = some r → ds.length ≤ (M r).size) :
    ∃ o : Obj, divturns u v q ds.length (ds.length + V.length) M =
        some (Function.update (withdigits M q 0 (divloop V ds R []).1) u o) ∧
      o.top = (M u).top - ds.length ∧ o.sign = (M u).sign ∧ o.size = (M u).size ∧
      o.p.take V.length = (divloop V ds R []).2 := by
  induction ds generalizing M R with
  | nil =>
    refine ⟨M u, ?_, rfl, rfl, rfl, ?_⟩
    · have hnil : withdigits M q 0 [] = M := by
        cases q with
        | none => rfl
        | some r =>
          rw [withdigits, Option.elim_some, splice_nil]
          exact Function.update_eq_self r M
      rw [List.length_nil, divturns]
      change some M = some (Function.update (withdigits M q 0 []) u (M u))
      rw [hnil, Function.update_eq_self]
    · have hdigits := h.digits
      rw [List.length_nil, Nat.zero_add] at hdigits
      exact hdigits
  | cons d ds ih =>
    obtain ⟨o, N, hN, hturn, hnext, hroomN, htop, hsign, hsize⟩ := divturn_next h hq hqv hroom
    set x := (divstep V (d :: R)).1 with hx
    obtain ⟨o', hrun, htop', hsign', hsize', hdigits'⟩ := ih hnext hroomN
    refine ⟨o', ?_, by rw [htop', htop, List.length_cons]; omega, hsign'.trans hsign, hsize'.trans hsize, ?_⟩
    · have habove := @withdigits_above _ _ M q (divloop V ds ((divstep V (d :: R)).2.take V.length) []).1 x
        (by rw [length_divloop]; exact hroom)
      rw [length_divloop] at habove
      rw [List.length_cons, divturns, hturn, Option.bind_some, show ds.length + 1 + V.length - 1 = ds.length + V.length by omega,
        hrun, hN, withdigits_update hq, Function.update_idem, habove, divloop, divloop_acc V ds _ [_]]
    · rw [hdigits', divloop, divloop_acc V ds _ [_]]

/-- The state before a turn. -/
theorem divturns_visits (h : Dividing M u v V ds R) (hq : q ≠ some u) (hqv : q ≠ some v)
    (hroom : ∀ r, q = some r → ds.length ≤ (M r).size) {k : ℕ} (hk : k ≤ ds.length) :
    ∃ N T, divturns u v q k (ds.length + V.length) M = some N ∧ Dividing N u v V (ds.drop k) T := by
  induction ds generalizing M R k with
  | nil =>
    rw [Nat.le_zero.mp hk]
    exact ⟨M, R, rfl, h⟩
  | cons d ds ih =>
    cases k with
    | zero => exact ⟨M, R, rfl, h⟩
    | succ k =>
      obtain ⟨o, N, -, hturn, hnext, hroomN, -⟩ := divturn_next h hq hqv hroom
      obtain ⟨N', T, hrun, hdiv⟩ := ih hnext hroomN (Nat.le_of_succ_le_succ hk)
      refine ⟨N', T, ?_, hdiv⟩
      rw [List.length_cons, divturns, hturn, Option.bind_some, show ds.length + 1 + V.length - 1 = ds.length + V.length by omega]
      exact hrun

end Turns

end Petele.Mp.Heap
