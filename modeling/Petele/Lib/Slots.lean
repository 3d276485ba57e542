import Mathlib.Data.List.Basic
import Mathlib.Data.Nat.Notation

namespace Petele.Lib

variable {α : Type} [DecidableEq α] {x y : α} {q : List (Option α)}

/-- A value is put into the first empty slot, where `more` slots are added if there is none. -/
def fill (more : ℕ) (x : α) : List (Option α) → List (Option α)
  | [] => some x :: List.replicate more none
  | none :: q => some x :: q
  | some y :: q => some y :: fill more x q

/-- The first slot with a value gets empty. -/
def vacate (x : α) : List (Option α) → List (Option α)
  | [] => []
  | e :: q => if e = some x then none :: q else e :: vacate x q

/-- How often a value is in the slots. -/
def times (x : α) (q : List (Option α)) : ℕ := q.count (some x)

theorem times_pos : 0 < times x q ↔ some x ∈ q := List.count_pos_iff

theorem times_fill (more : ℕ) (x y : α) (q : List (Option α)) :
    times y (fill more x q) = times y q + if x = y then 1 else 0 := by
  induction q with
  | nil =>
    rw [fill, times, times, List.count_cons, List.count_replicate]
    simp
  | cons e q ih =>
    cases e with
    | none =>
      rw [fill, times, times, List.count_cons, List.count_cons]
      simp
    | some z =>
      rw [times, times] at ih
      rw [fill, times, times, List.count_cons, List.count_cons, ih]
      omega

theorem times_vacate (x y : α) (q : List (Option α)) :
    times y (vacate x q) = times y q - if x = y then 1 else 0 := by
  induction q with
  | nil => simp [vacate, times]
  | cons e q ih =>
    rw [times, times] at ih
    rw [vacate, times, times]
    split
    · rename_i he
      rw [he, List.count_cons, List.count_cons]
      by_cases hxy : x = y <;> simp [hxy]
    · rename_i he
      rw [List.count_cons, List.count_cons, ih]
      by_cases hxy : x = y
      · subst hxy
        simp [he]
      · simp [hxy]

theorem mem_fill {more : ℕ} : some y ∈ fill more x q ↔ some y ∈ q ∨ x = y := by
  rw [← times_pos, ← times_pos, times_fill]
  by_cases hxy : x = y <;> simp [hxy]

theorem times_eq_zero : times x q = 0 ↔ some x ∉ q := by
  rw [← times_pos]
  omega

end Petele.Lib
