import Mathlib.Data.List.Nodup
import Mathlib.Logic.Function.Basic

namespace Petele.Lib

variable {P : Type*}

/-- The links lead from `p` through `l` and end there. -/
def Links (next : P → Option P) : Option P → List P → Prop
  | p, [] => p = none
  | p, x :: l => p = some x ∧ Links next (next x) l

/-- The two ends of a queue whose links are kept in its members. -/
structure Ends (P : Type*) where
  head : Option P
  tail : Option P

structure Fifo (next : P → Option P) (e : Ends P) (l : List P) : Prop where
  links : Links next e.head l
  tail : e.tail = l.getLast?

section Links

variable {next next' : P → Option P} {p : Option P} {l : List P}

theorem Links.frame (h : Links next p l) (hnext : ∀ x ∈ l, next' x = next x) : Links next' p l := by
  induction l generalizing p with
  | nil => exact h
  | cons x l ih =>
    refine ⟨h.1, ?_⟩
    rw [hnext x List.mem_cons_self]
    exact ih h.2 fun y hy => hnext y (List.mem_cons_of_mem _ hy)

theorem Links.unique {l' : List P} (h : Links next p l) (h' : Links next p l') : l = l' := by
  induction l generalizing p l' with
  | nil =>
    have hp : p = none := h
    cases l' with
    | nil => rfl
    | cons y l' =>
      rw [hp] at h'
      cases h'.1
  | cons x l ih =>
    obtain ⟨rfl, hl⟩ := h
    cases l' with
    | nil => cases h'
    | cons y l' =>
      obtain ⟨hy, hl'⟩ := h'
      obtain rfl := Option.some.inj hy
      rw [ih hl hl']

theorem Links.suffix {l' : List P} (h : Links next p (l ++ l')) : ∃ q, Links next q l' := by
  induction l generalizing p with
  | nil => exact ⟨p, h⟩
  | cons x l ih => exact ih h.2

/-- No member is met twice: from there on the queue would be as long as from the first meeting. -/
theorem Links.nodup (h : Links next p l) : l.Nodup := by
  induction l generalizing p with
  | nil => exact List.nodup_nil
  | cons x l ih =>
    refine List.nodup_cons.mpr ⟨fun hmem => ?_, ih h.2⟩
    obtain ⟨l₁, l₂, rfl⟩ := List.append_of_mem hmem
    obtain ⟨q, hq⟩ := h.2.suffix
    have hagain : Links next (some x) (x :: l₂) := ⟨rfl, hq.2⟩
    have hself : Links next (some x) (x :: (l₁ ++ x :: l₂)) := ⟨rfl, h.2⟩
    have hlen := congrArg List.length (hself.unique hagain)
    simp only [List.length_cons, List.length_append] at hlen
    omega

variable [DecidableEq P]

theorem Links.update (h : Links next p l) {x : P} (hx : x ∉ l) (v : Option P) :
    Links (Function.update next x v) p l := by
  apply h.frame
  intro y hy
  apply Function.update_of_ne
  intro heq
  rw [heq] at hy
  exact hx hy

/-- The last member gets a follower. -/
theorem Links.relink {x y : P} (h : Links next p (l ++ [x])) (hy : y ∉ l ++ [x]) (hnil : next y = none) :
    Links (Function.update next x (some y)) p (l ++ [x] ++ [y]) := by
  induction l generalizing p with
  | nil =>
    have hne : y ≠ x := by
      intro heq
      exact hy (by rw [heq]; exact List.mem_singleton_self x)
    refine ⟨h.1, ?_, ?_⟩
    · exact Function.update_self _ _ _
    · rw [Function.update_of_ne hne]
      exact hnil
  | cons z l ih =>
    have hne : z ≠ x := by
      intro heq
      have hnodup := Links.nodup h
      rw [heq] at hnodup
      exact (List.nodup_cons.mp hnodup).1 (List.mem_append_right _ (List.mem_singleton_self x))
    refine ⟨h.1, ?_⟩
    rw [Function.update_of_ne hne]
    exact ih h.2 fun hmem => hy (List.mem_cons_of_mem _ hmem)

end Links

section Fifo

variable {next next' : P → Option P} {e : Ends P} {l : List P}

theorem Fifo.frame (h : Fifo next e l) (hnext : ∀ x ∈ l, next' x = next x) : Fifo next' e l :=
  ⟨h.links.frame hnext, h.tail⟩

theorem Fifo.nil_iff (h : Fifo next e l) : e.head = none ↔ l = [] := by
  have hlinks := h.links
  cases l with
  | nil => exact ⟨fun _ => rfl, fun _ => hlinks⟩
  | cons x l =>
    rw [hlinks.1]
    exact ⟨(fun hh => nomatch hh), (fun hh => nomatch hh)⟩

theorem Fifo.head {x : P} (h : Fifo next e (x :: l)) : e.head = some x := h.links.1

/-- The first member is taken out. -/
theorem Fifo.pop {x : P} (h : Fifo next e (x :: l)) :
    Fifo next ⟨next x, if next x = none then none else e.tail⟩ l := by
  refine ⟨h.links.2, ?_⟩
  have hlinks := h.links.2
  cases l with
  | nil => exact if_pos hlinks
  | cons y l =>
    have hne : next x ≠ none := by
      rw [hlinks.1]
      exact Option.some_ne_none y
    rw [if_neg hne, h.tail, List.getLast?_cons_cons]

/-- A new member goes behind the last. -/
theorem Fifo.push [DecidableEq P] {x : P} (h : Fifo next e l) (hx : x ∉ l) (hnil : next x = none) :
    Fifo (match e.tail with
      | none => next
      | some p => Function.update next p (some x))
      ⟨if e.tail = none then some x else e.head, some x⟩ (l ++ [x]) := by
  rcases List.eq_nil_or_concat l with rfl | ⟨l, y, rfl⟩
  · have htail : e.tail = none := h.tail
    rw [htail]
    exact ⟨⟨rfl, hnil⟩, rfl⟩
  · rw [List.concat_eq_append] at h hx ⊢
    have htail : e.tail = some y := by
      rw [h.tail, List.getLast?_append, List.getLast?_singleton]
      rfl
    rw [htail]
    refine ⟨h.links.relink hx hnil, ?_⟩
    rw [List.getLast?_append, List.getLast?_singleton]
    rfl

end Fifo

end Petele.Lib
