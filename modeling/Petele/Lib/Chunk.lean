import Mathlib.Data.List.Basic
import Mathlib.Data.List.Flatten

namespace Petele.Lib

variable {α β : Type*} {f : α → List β} {c : ℕ} {l : List α}

/-- A list made of pieces of one length. -/
theorem getElem?_flatMap (hc : 0 < c) (hl : ∀ x ∈ l, (f x).length = c) (k : ℕ) :
    (l.flatMap f)[k]? = l[k / c]?.bind fun x => (f x)[k % c]? := by
  induction l generalizing k with
  | nil => simp
  | cons x l ih =>
    have hx : (f x).length = c := hl x List.mem_cons_self
    rw [List.flatMap_cons]
    rcases Nat.lt_or_ge k c with hk | hk
    · rw [List.getElem?_append_left (by omega), Nat.div_eq_of_lt hk, Nat.mod_eq_of_lt hk]
      rfl
    · have hdiv : k / c = (k - c) / c + 1 := by
        rw [Nat.div_eq k c, if_pos ⟨hc, hk⟩]
      have hmod : k % c = (k - c) % c := by
        rw [Nat.mod_eq k c, if_pos ⟨hc, hk⟩]
      rw [List.getElem?_append_right (by omega), hx, ih (fun y hy => hl y (List.mem_cons_of_mem _ hy)), hdiv, hmod]
      rfl

theorem length_flatMap_chunk (hl : ∀ x ∈ l, (f x).length = c) : (l.flatMap f).length = l.length * c := by
  induction l with
  | nil => simp
  | cons x l ih =>
    rw [List.flatMap_cons, List.length_append, hl x List.mem_cons_self,
      ih fun y hy => hl y (List.mem_cons_of_mem _ hy), List.length_cons, Nat.succ_mul, Nat.add_comm]

/-- One element of a piece is replaced. -/
theorem flatMap_set {i j : ℕ} {x y : α} {v : β} (hl : ∀ x ∈ l, (f x).length = c) (hi : l[i]? = some y)
    (hj : j < c) (hx : f x = (f y).set j v) : (l.set i x).flatMap f = (l.flatMap f).set (i * c + j) v := by
  induction l generalizing i with
  | nil => simp at hi
  | cons z l ih =>
    have hz : (f z).length = c := hl z List.mem_cons_self
    cases i with
    | zero =>
      obtain rfl : z = y := by simpa using hi
      rw [List.set_cons_zero, List.flatMap_cons, List.flatMap_cons, hx, Nat.zero_mul, Nat.zero_add,
        List.set_append_left _ _ (by omega)]
    | succ i =>
      have hrest := ih (i := i) (fun w hw => hl w (List.mem_cons_of_mem _ hw)) (by simpa using hi)
      rw [List.set_cons_succ, List.flatMap_cons, List.flatMap_cons, hrest, List.set_append_right _ _ (by rw [hz, Nat.succ_mul]; omega)]
      congr 2
      rw [hz, Nat.succ_mul]
      omega

section Count

variable {k : ℕ} {y : β} {o : List (Option β)}

theorem filterMap_none (o : List (Option β)) : (none :: o).filterMap id = o.filterMap id := rfl

theorem filterMap_some (z : β) (o : List (Option β)) : (some z :: o).filterMap id = z :: o.filterMap id := rfl

variable [DecidableEq β]

/-- How often a value occurs after an element has been replaced. -/
theorem count_filterMap_set {w : Option β} (hk : o[k]? = some w) (x y : β) :
    ((o.set k (some x)).filterMap id).count y + (if w = some y then 1 else 0) =
      (o.filterMap id).count y + if x = y then 1 else 0 := by
  induction o generalizing k with
  | nil => simp at hk
  | cons z o ih =>
    cases k with
    | zero =>
      obtain rfl : z = w := by simpa using hk
      cases z with
      | none =>
        rw [List.set_cons_zero, filterMap_none, filterMap_some, List.count_cons]
        simp
      | some z =>
        rw [List.set_cons_zero, filterMap_some, filterMap_some,
          List.count_cons, List.count_cons]
        simp only [beq_iff_eq, Option.some.injEq]
        omega
    | succ k =>
      have hrest := ih (k := k) (by simpa using hk)
      rw [List.set_cons_succ]
      cases z with
      | none =>
        rw [filterMap_none, filterMap_none]
        exact hrest
      | some z =>
        rw [filterMap_some, filterMap_some, List.count_cons, List.count_cons]
        omega

theorem count_pos_of_getElem? (hk : o[k]? = some (some y)) : 0 < (o.filterMap id).count y := by
  apply List.count_pos_iff.mpr
  exact List.mem_filterMap.mpr ⟨some y, List.mem_of_getElem? hk, rfl⟩

/-- Two places that hold the same value. -/
theorem two_le_count {j : ℕ} (hne : k ≠ j) (hk : o[k]? = some (some y)) (hk' : o[j]? = some (some y)) :
    2 ≤ (o.filterMap id).count y := by
  induction o generalizing k j with
  | nil => simp at hk
  | cons z o ih =>
    cases k with
    | zero =>
      cases j with
      | zero => exact absurd rfl hne
      | succ j =>
        obtain rfl : z = some y := by simpa using hk
        have hpos := count_pos_of_getElem? (k := j) (o := o) (y := y) (by simpa using hk')
        rw [filterMap_some, List.count_cons_self]
        omega
    | succ k =>
      cases j with
      | zero =>
        obtain rfl : z = some y := by simpa using hk'
        have hpos := count_pos_of_getElem? (k := k) (o := o) (y := y) (by simpa using hk)
        rw [filterMap_some, List.count_cons_self]
        omega
      | succ j =>
        have hrest := ih (k := k) (j := j) (fun heq => hne (congrArg _ heq)) (by simpa using hk) (by simpa using hk')
        cases z with
        | none =>
          rw [filterMap_none]
          exact hrest
        | some z =>
          rw [filterMap_some, List.count_cons]
          omega

end Count

end Petele.Lib
