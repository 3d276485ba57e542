import Mathlib.Data.List.Induction
import Mathlib.Logic.Function.Basic

namespace Petele.Lib.Inplace

variable {ι α β σ : Type*} [DecidableEq ι]

/-- Buffers by name: what is written to one is read from it under the same name. -/
abbrev Bufs (ι α : Type*) := ι → List α

def poke (P : Bufs ι α) (r : ι) (i : ℕ) (x : α) : Option (Bufs ι α) :=
  if i < (P r).length then some (Function.update P r ((P r).set i x)) else none

/-- The elements from `off` on replaced. -/
def splice (p : List α) (off : ℕ) (xs : List α) : List α := p.take off ++ xs ++ p.drop (off + xs.length)

/-- A loop upwards from `i` with `n` turns to go, which writes to a buffer that it may read from. -/
def sweep (read : Bufs ι α → ℕ → Option β) (step : σ → β → α × σ) (dst : ι) (off : ℕ) :
    ℕ → ℕ → σ → Bufs ι α → Option (σ × Bufs ι α)
  | 0, _, c, P => some (c, P)
  | n + 1, i, c, P =>
    (read P i).bind fun x => (poke P dst (off + i) (step c x).1).bind
      (sweep read step dst off n (i + 1) (step c x).2)

/-- A loop downwards, with `n` turns to go. -/
def sweepdown (read : Bufs ι α → ℕ → Option β) (step : σ → β → α × σ) (dst : ι) (off : ℕ) :
    ℕ → σ → Bufs ι α → Option (σ × Bufs ι α)
  | 0, c, P => some (c, P)
  | n + 1, c, P =>
    (read P n).bind fun x => (poke P dst (off + n) (step c x).1).bind
      (sweepdown read step dst off n (step c x).2)

/-- The same loop over a list of its own. -/
def scan (step : σ → β → α × σ) : σ → List β → List α × σ
  | c, [] => ([], c)
  | c, x :: xs => ((step c x).1 :: (scan step (step c x).2 xs).1, (scan step (step c x).2 xs).2)

section Lists

variable {p xs ys : List α} {off i k : ℕ} {x : α}

attribute [local simp] splice scan poke

theorem splice_length (h : off + xs.length ≤ p.length) : (splice p off xs).length = p.length := by
  simp only [splice, List.length_append, List.length_take, List.length_drop]
  omega

@[simp] theorem splice_nil (p : List α) (off : ℕ) : splice p off [] = p := by
  rw [splice, List.append_nil, List.length_nil, Nat.add_zero, List.take_append_drop]

theorem splice_set (h : i < p.length) : splice (p.set i x) (i + 1) ys = splice p i (x :: ys) := by
  have htake : (p.set i x).take (i + 1) = p.take i ++ [x] := by
    rw [List.take_add_one, List.getElem?_set_self h, List.take_set_of_le (Nat.le_refl i)]
    rfl
  have hdrop : (p.set i x).drop (i + 1 + ys.length) = p.drop (i + (x :: ys).length) := by
    rw [List.drop_set_of_lt (by omega), List.length_cons, Nat.add_right_comm, Nat.add_assoc]
  rw [splice, splice, htake, hdrop, List.append_assoc _ [x], List.singleton_append]

theorem splice_set_above (p : List α) (off : ℕ) (x : α) (xs : List α) (h : off + xs.length < p.length) :
    splice (p.set (off + xs.length) x) off xs = splice p off (xs ++ [x]) := by
  have htake : (p.set (off + xs.length) x).take off = p.take off := List.take_set_of_le (by omega)
  have hdrop : (p.set (off + xs.length) x).drop (off + xs.length) = x :: p.drop (off + (xs ++ [x]).length) := by
    rw [List.drop_eq_getElem_cons (by simpa using h), List.getElem_set_self, List.drop_set_of_lt (by omega),
      List.length_append, List.length_singleton, Nat.add_assoc]
  rw [splice, splice, htake, hdrop]
  simp

theorem splice_take (h : off ≤ p.length) (hk : k ≤ off) : (splice p off xs).take k = p.take k := by
  rw [splice, List.append_assoc, List.take_append_of_le_length (by simp; omega), List.take_take,
    Nat.min_eq_left hk]

theorem splice_mid (h : off ≤ p.length) : ((splice p off xs).drop off).take xs.length = xs := by
  rw [splice, List.append_assoc, List.drop_left' (by simp; omega), List.take_left]

theorem splice_zero_take (xs : List α) : (splice p 0 xs).take xs.length = xs := by
  rw [splice, List.take_zero, List.nil_append, List.take_left]

theorem splice_splice (p : List α) (off : ℕ) (xs ys : List α) (h : off + xs.length ≤ p.length) :
    splice (splice p off xs) (off + xs.length) ys = splice p off (xs ++ ys) := by
  have htake : (splice p off xs).take (off + xs.length) = p.take off ++ xs := by
    rw [splice]
    exact List.take_left' (by simp; omega)
  have hdrop : (splice p off xs).drop (off + xs.length + ys.length) = p.drop (off + (xs ++ ys).length) := by
    rw [splice, ← List.drop_drop, List.drop_left' (by simp; omega), List.drop_drop, List.length_append, Nat.add_assoc]
  rw [splice, htake, hdrop, List.append_assoc (p.take off), splice]

/-- What is written from the start up to `xs`, after it. -/
theorem splice_before (h : ys.length ≤ p.length) : splice (splice p ys.length xs) 0 ys = splice p 0 (ys ++ xs) := by
  have hdrop : (splice p ys.length xs).drop ys.length = xs ++ p.drop (ys.length + xs.length) := by
    rw [splice, List.append_assoc, List.drop_left' (by simp; omega)]
  rw [splice, List.take_zero, List.nil_append, Nat.zero_add, hdrop, splice, List.take_zero, List.nil_append,
    Nat.zero_add, List.length_append, List.append_assoc]

/-- What is written over `xs`, and over no less. -/
theorem splice_over (hroom : off + xs.length ≤ p.length) (h : xs.length ≤ ys.length) :
    splice (splice p off xs) off ys = splice p off ys := by
  have htake : (splice p off xs).take off = p.take off := by
    rw [splice, List.append_assoc]
    exact List.take_left' (by simp; omega)
  have hdrop : (splice p off xs).drop (off + ys.length) = p.drop (off + ys.length) := by
    obtain ⟨k, hk⟩ := Nat.exists_eq_add_of_le h
    rw [splice, hk, ← Nat.add_assoc, ← List.drop_drop, List.drop_left' (by simp; omega), List.drop_drop]
  rw [splice, htake, hdrop, splice]

theorem set_splice (h : i < p.length) : (splice p (i + 1) xs).set i x = splice p i (x :: xs) := by
  have hlen : (p.take i).length = i := by simp; omega
  have htake : (p.take (i + 1)).set i x = p.take i ++ [x] := by
    rw [List.take_succ_eq_append_getElem h, List.set_append_right i x (by omega), hlen, Nat.sub_self]
    rfl
  rw [splice, List.append_assoc, List.set_append_left _ _ (by simp; omega), htake, splice, List.length_cons,
    Nat.add_right_comm, Nat.add_assoc, List.append_assoc, List.append_assoc]
  rfl

theorem splice_singleton (h : i < p.length) : splice p i [x] = p.set i x := by
  have hset : splice (p.set i x) (i + 1) [] = splice p i [x] := splice_set h
  rw [splice_nil] at hset
  exact hset.symm

theorem splice_getElem? (h : off + xs.length ≤ p.length) (hi : i < off ∨ off + xs.length ≤ i) :
    (splice p off xs)[i]? = p[i]? := by
  rw [splice]
  rcases hi with hi | hi
  · rw [List.append_assoc, List.getElem?_append_left (by simp; omega), List.getElem?_take_of_lt hi]
  · rw [List.getElem?_append_right (by simp; omega), List.getElem?_drop]
    congr 1
    simp
    omega

end Lists

section Loops

variable {read : Bufs ι α → ℕ → Option β} {step : σ → β → α × σ} {dst : ι} {off n : ℕ}

/-- What a loop upwards writes it does not read later. -/
def Ahead (read : Bufs ι α → ℕ → Option β) (dst : ι) (off n : ℕ) : Prop :=
  ∀ P i j y, j < i → i < n → read (Function.update P dst ((P dst).set (off + j) y)) i = read P i

/-- What a loop downwards writes it does not read later. -/
def Behind (read : Bufs ι α → ℕ → Option β) (dst : ι) (off n : ℕ) : Prop :=
  ∀ P i j y, i < j → j < n → read (Function.update P dst ((P dst).set (off + j) y)) i = read P i

theorem scan_length (c : σ) (xs : List β) : (scan step c xs).1.length = xs.length := by
  induction xs generalizing c with
  | nil => rfl
  | cons x xs ih => rw [scan, List.length_cons, List.length_cons, ih]

theorem scan_append (c : σ) (xs ys : List β) :
    scan step c (xs ++ ys) =
      ((scan step c xs).1 ++ (scan step (scan step c xs).2 ys).1, (scan step (scan step c xs).2 ys).2) := by
  induction xs generalizing c with
  | nil => rfl
  | cons x xs ih => rw [List.cons_append, scan, ih, scan, List.cons_append]

theorem sweep_spec (step : σ → β → α × σ) (ha : Ahead read dst off n) (c : σ) {k : ℕ} (xs : List β) {P : Bufs ι α}
    (hread : ∀ i (hi : i < xs.length), read P (k + i) = some xs[i]) (hn : k + xs.length ≤ n)
    (hroom : off + k + xs.length ≤ (P dst).length) :
    sweep read step dst off xs.length k c P =
      some ((scan step c xs).2, Function.update P dst (splice (P dst) (off + k) (scan step c xs).1)) := by
  induction xs generalizing k c P with
  | nil => rw [List.length_nil, sweep, scan, splice_nil, Function.update_eq_self]
  | cons x xs ih =>
    rw [List.length_cons] at hn hroom
    have hfirst : read P k = some x := hread 0 (Nat.succ_pos _)
    have hplace : off + k < (P dst).length := by omega
    let P' := Function.update P dst ((P dst).set (off + k) (step c x).1)
    have hP' : P' dst = (P dst).set (off + k) (step c x).1 := Function.update_self _ _ _
    have hrest := ih (step c x).2 (k := k + 1) (P := P') (fun i hi => by
      rw [show P' = Function.update P dst ((P dst).set (off + k) (step c x).1) from rfl,
        ha P (k + 1 + i) k _ (by omega) (by omega), Nat.add_right_comm, Nat.add_assoc]
      exact hread (i + 1) (Nat.succ_lt_succ hi)) (by omega) (by rw [hP', List.length_set]; omega)
    rw [List.length_cons, sweep, hfirst, Option.bind_some, poke, if_pos hplace]
    rw [hP', ← Nat.add_assoc, splice_set hplace] at hrest
    refine hrest.trans ?_
    rw [scan, show P' = Function.update P dst _ from rfl, Function.update_idem]

theorem sweepdown_spec (step : σ → β → α × σ) (hb : Behind read dst off n) (c : σ) (xs : List β) {P : Bufs ι α}
    (hread : ∀ i (hi : i < xs.length), read P i = some xs[i]) (hn : xs.length ≤ n)
    (hroom : off + xs.length ≤ (P dst).length) :
    sweepdown read step dst off xs.length c P = some ((scan step c xs.reverse).2,
      Function.update P dst (splice (P dst) off (scan step c xs.reverse).1.reverse)) := by
  induction xs using List.reverseRecOn generalizing c P with
  | nil => rw [List.length_nil, sweepdown, List.reverse_nil, scan, List.reverse_nil, splice_nil,
      Function.update_eq_self]
  | append_singleton xs x ih =>
    have hlen : (xs ++ [x]).length = xs.length + 1 := by simp
    rw [hlen] at hn hroom
    have hlast : read P xs.length = some x := by
      rw [hread xs.length (by omega)]
      simp
    have hplace : off + xs.length < (P dst).length := by omega
    let P' := Function.update P dst ((P dst).set (off + xs.length) (step c x).1)
    have hP' : P' dst = (P dst).set (off + xs.length) (step c x).1 := Function.update_self _ _ _
    have hrest := ih (step c x).2 (P := P') (fun i hi => by
      rw [show P' = Function.update P dst ((P dst).set (off + xs.length) (step c x).1) from rfl,
        hb P i xs.length _ hi (by omega), hread i (by omega), List.getElem_append_left hi])
      (by omega) (by rw [hP', List.length_set]; omega)
    have hlen' : (scan step (step c x).2 xs.reverse).1.reverse.length = xs.length := by
      rw [List.length_reverse, scan_length, List.length_reverse]
    have hsplice := splice_set_above (P dst) off (step c x).1 (scan step (step c x).2 xs.reverse).1.reverse
      (by rw [hlen']; exact hplace)
    rw [hlen'] at hsplice
    rw [hlen, sweepdown, hlast, Option.bind_some, poke, if_pos hplace]
    rw [hP', hsplice] at hrest
    refine hrest.trans ?_
    rw [List.reverse_append, List.reverse_singleton, List.singleton_append, scan, List.reverse_cons,
      show P' = Function.update P dst _ from rfl, Function.update_idem]

end Loops

section Reads

variable {a b dst : ι} {off k k' n : ℕ}

/-- The element `k + i` of a buffer. -/
def peek (a : ι) (k : ℕ) (P : Bufs ι α) (i : ℕ) : Option α := (P a)[k + i]?

def both {γ : Type*} (read : Bufs ι α → ℕ → Option β) (read' : Bufs ι α → ℕ → Option γ) (P : Bufs ι α) (i : ℕ) :
    Option (β × γ) :=
  (read P i).bind fun x => (read' P i).map fun y => (x, y)

theorem peek_update (P : Bufs ι α) {i j : ℕ} (y : α) (h : a = dst → j ≠ k + i) :
    peek a k (Function.update P dst ((P dst).set j y)) i = peek a k P i := by
  unfold peek
  by_cases hdst : a = dst
  · subst hdst
    rw [Function.update_self, List.getElem?_set_ne (h rfl)]
  · rw [Function.update_of_ne hdst]

theorem poke_eq {P : Bufs ι α} {x : α} {i : ℕ} (h : i < (P dst).length) :
    poke P dst i x = some (Function.update P dst (splice (P dst) i [x])) := by
  rw [poke, if_pos h, splice_singleton h]

theorem peek_splice {P : Bufs ι α} {xs : List α} {i : ℕ} (hroom : off + xs.length ≤ (P dst).length)
    (h : a = dst → k + i < off ∨ off + xs.length ≤ k + i) :
    peek a k (Function.update P dst (splice (P dst) off xs)) i = peek a k P i := by
  unfold peek
  by_cases hdst : a = dst
  · subst hdst
    rw [Function.update_self, splice_getElem? hroom (h rfl)]
  · rw [Function.update_of_ne hdst]

theorem ahead_peek (h : a = dst → off ≤ k ∨ k + n ≤ off) : Ahead (α := α) (peek a k) dst off n :=
  fun P i j y hj hi => peek_update P y fun hdst => by
    have := h hdst
    omega

theorem behind_peek (h : a = dst → k ≤ off ∨ off + n ≤ k) : Behind (α := α) (peek a k) dst off n :=
  fun P i j y hj hi => peek_update P y fun hdst => by
    have := h hdst
    omega

theorem Ahead.both {γ : Type*} {read : Bufs ι α → ℕ → Option β} {read' : Bufs ι α → ℕ → Option γ}
    (h : Ahead read dst off n) (h' : Ahead read' dst off n) : Ahead (both read read') dst off n := by
  intro P i j y hj hi
  rw [Inplace.both, h P i j y hj hi, h' P i j y hj hi, Inplace.both]

omit [DecidableEq ι] in
theorem peek_eq {P : Bufs ι α} {xs : List α} (h : ((P a).drop k).take n = xs) (hlen : xs.length = n) {i : ℕ}
    (hi : i < xs.length) : peek a k P i = some xs[i] := by
  subst h
  rw [peek, List.getElem_take, List.getElem_drop, List.getElem?_eq_getElem]

end Reads

end Petele.Lib.Inplace
