import Petele.Lib.Fifo

namespace Petele.Lib

variable {P : Type*} [DecidableEq P] {next prev : P → Option P} {p head tail : Option P} {l l₁ l₂ : List P} {x y : P}

/-- The links with that of `y`, if there is one, led to `v`. -/
def relinked (next : P → Option P) (y v : Option P) : P → Option P :=
  match y with
  | none => next
  | some y => Function.update next y v

omit [DecidableEq P] in
theorem Links.head_eq (h : Links next p l) : p = l.head? := by
  cases l with
  | nil => exact h
  | cons x l => exact h.1

theorem relinked_of_ne {y v : Option P} (h : ∀ z ∈ y, x ≠ z) : relinked next y v x = next x := by
  cases y with
  | none => rfl
  | some y => exact Function.update_of_ne (h y rfl) _ _

theorem Links.relinked (h : Links next p l) {y v : Option P} (hy : ∀ z ∈ y, z ∉ l) : Links (relinked next y v) p l := by
  apply h.frame
  intro z hz
  apply relinked_of_ne
  intro w hw heq
  rw [heq] at hz
  exact hy w hw hz

omit [DecidableEq P] in
theorem getLast?_mem {z : P} (hz : z ∈ l.getLast?) : z ∈ l := List.mem_of_getLast? hz

/-- A member is passed over. -/
theorem Links.remove (h : Links next p (l₁ ++ x :: l₂)) :
    Links (Lib.relinked next l₁.getLast? (next x)) (if l₁.getLast? = none then next x else p) (l₁ ++ l₂) := by
  induction l₁ generalizing p with
  | nil => exact h.2
  | cons z l₁ ih =>
    have hz : z ∉ l₁ ++ x :: l₂ := (List.nodup_cons.mp (Links.nodup h)).1
    rw [if_neg (by rw [List.getLast?_cons]; exact Option.some_ne_none _)]
    refine ⟨h.1, ?_⟩
    cases l₁ with
    | nil =>
      rw [List.getLast?_singleton, Lib.relinked, Function.update_self]
      refine h.2.2.update (fun hmem => hz ?_) _
      exact List.mem_cons_of_mem _ hmem
    | cons w l₁ =>
      have hrest := ih h.2
      rw [if_neg (by rw [List.getLast?_cons]; exact Option.some_ne_none _)] at hrest
      rw [List.getLast?_cons_cons, relinked_of_ne]
      · exact hrest
      · intro v hv heq
        rw [heq] at hz
        exact hz (List.mem_append_left _ (getLast?_mem hv))

/-- A new member goes behind the last, if there is one. -/
theorem Links.push (h : Links next p l) (hx : x ∉ l) (hnil : next x = none) :
    Links (Lib.relinked next l.getLast? (some x)) (if l = [] then some x else p) (l ++ [x]) := by
  rcases List.eq_nil_or_concat l with rfl | ⟨l, y, rfl⟩
  · exact ⟨rfl, hnil⟩
  · rw [List.concat_eq_append] at h hx ⊢
    have hlast : (l ++ [y]).getLast? = some y := by
      rw [List.getLast?_append, List.getLast?_singleton]
      rfl
    rw [hlast, if_neg (by simp)]
    exact h.relink hx hnil

/-- A list that is linked both ways. -/
structure Dlist (next prev : P → Option P) (head tail : Option P) (l : List P) : Prop where
  front : Links next head l
  back : Links prev tail l.reverse

omit [DecidableEq P] in
theorem Dlist.swap (h : Dlist next prev head tail l) : Dlist prev next tail head l.reverse :=
  ⟨h.back, by rw [List.reverse_reverse]; exact h.front⟩

omit [DecidableEq P] in
theorem Dlist.head_eq (h : Dlist next prev head tail l) : head = l.head? := h.front.head_eq

omit [DecidableEq P] in
theorem Dlist.tail_eq (h : Dlist next prev head tail l) : tail = l.getLast? := by
  rw [h.back.head_eq, List.head?_reverse]

omit [DecidableEq P] in
theorem Dlist.nodup (h : Dlist next prev head tail l) : l.Nodup := h.front.nodup

omit [DecidableEq P] in
theorem Dlist.prev_eq (h : Dlist next prev head tail (l₁ ++ x :: l₂)) : prev x = l₁.getLast? := by
  have hback := h.back
  rw [List.reverse_append, List.reverse_cons, List.append_assoc, List.singleton_append] at hback
  obtain ⟨q, hq⟩ := hback.suffix
  rw [hq.2.head_eq, List.head?_reverse]

omit [DecidableEq P] in
theorem Dlist.next_eq (h : Dlist next prev head tail (l₁ ++ x :: l₂)) : next x = l₂.head? := by
  obtain ⟨q, hq⟩ := h.front.suffix
  exact hq.2.head_eq

theorem Dlist.pushFront (h : Dlist next prev head tail l) (hx : x ∉ l) :
    Dlist (Function.update next x head) (Function.update (relinked prev head (some x)) x none) (some x)
      (if head = none then some x else tail) (x :: l) := by
  refine ⟨⟨rfl, ?_⟩, ?_⟩
  · rw [Function.update_self]
    exact h.front.update hx _
  · have hx' : x ∉ l.reverse := fun hmem => hx (List.mem_reverse.mp hmem)
    have hback := (h.back.update hx' none).push hx' (Function.update_self _ _ _)
    rw [List.getLast?_reverse, ← h.head_eq] at hback
    rw [List.reverse_cons]
    have hempty : (l.reverse = []) = (head = none) := by
      rw [List.reverse_eq_nil_iff, h.head_eq, List.head?_eq_none_iff]
    simp only [hempty] at hback
    have hcomm : relinked (Function.update prev x none) head (some x) = Function.update (relinked prev head (some x)) x none := by
      rw [h.head_eq]
      cases hl : l.head? with
      | none => rfl
      | some z =>
        have hz : z ≠ x := by
          intro heq
          rw [heq] at hl
          exact hx (List.mem_of_mem_head? hl)
        exact (Function.update_comm hz _ _ _).symm
    rw [hcomm] at hback
    exact hback

theorem Dlist.pushBack (h : Dlist next prev head tail l) (hx : x ∉ l) :
    Dlist (Function.update (relinked next tail (some x)) x none) (Function.update prev x tail)
      (if tail = none then some x else head) (some x) (l ++ [x]) := by
  have hfront := h.swap.pushFront fun hmem => hx (List.mem_reverse.mp hmem)
  have hswap := hfront.swap
  rw [List.reverse_cons, List.reverse_reverse] at hswap
  exact hswap

/-- A member is taken out, and its links are cleared. -/
theorem Dlist.unlink (h : Dlist next prev head tail (l₁ ++ x :: l₂)) :
    Dlist (Function.update (relinked next (prev x) (next x)) x none)
      (Function.update (relinked prev (next x) (prev x)) x none)
      (if prev x = none then next x else head) (if next x = none then prev x else tail) (l₁ ++ l₂) := by
  have hx : x ∉ l₁ ++ l₂ := by
    have hnodup := h.nodup
    rw [List.nodup_middle] at hnodup
    exact (List.nodup_cons.mp hnodup).1
  constructor
  · apply Links.update _ hx
    rw [h.prev_eq]
    exact h.front.remove
  · apply Links.update _ fun hmem => hx (List.mem_reverse.mp hmem)
    have hback := h.back
    rw [List.reverse_append, List.reverse_cons, List.append_assoc, List.singleton_append] at hback
    have hremoved := hback.remove
    rw [List.getLast?_reverse, ← h.next_eq, ← List.reverse_append] at hremoved
    exact hremoved

end Petele.Lib
