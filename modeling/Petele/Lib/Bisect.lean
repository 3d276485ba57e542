import Mathlib.Data.Int.Init
import Mathlib.Algebra.Order.Group.Unbundled.Int

namespace Petele.Lib.Bisect

/-- Search in `[lo, hi)`, from the middle; `cmp k` is the order of what is sought and the element
`k`. The first argument bounds the number of turns. -/
def bisect (cmp : ℕ → ℤ) : ℕ → ℕ → ℕ → Option ℕ
  | 0, _, _ => none
  | fuel + 1, lo, hi =>
    if lo < hi then
      if cmp ((hi + lo) / 2) < 0 then bisect cmp fuel lo ((hi + lo) / 2)
      else if 0 < cmp ((hi + lo) / 2) then bisect cmp fuel ((hi + lo) / 2 + 1) hi
      else some ((hi + lo) / 2)
    else none

variable {cmp : ℕ → ℤ} {fuel lo hi k : ℕ}

theorem bisect_found (h : bisect cmp fuel lo hi = some k) : lo ≤ k ∧ k < hi ∧ cmp k = 0 := by
  induction fuel generalizing lo hi with
  | zero => cases h
  | succ fuel ih =>
    rw [bisect] at h
    split at h
    · rename_i hlt
      split at h
      · have hk := ih h
        omega
      · split at h
        · have hk := ih h
          omega
        · cases h
          omega
    · cases h

/-- Where the elements are in order, what the search misses is not there. -/
theorem bisect_missed (hmono : ∀ i j, lo ≤ i → i ≤ j → j < hi → (cmp i < 0 → cmp j < 0) ∧
    (0 < cmp j → 0 < cmp i)) (hfuel : hi ≤ lo + fuel) (h : bisect cmp fuel lo hi = none) :
    ∀ k, lo ≤ k → k < hi → cmp k ≠ 0 := by
  induction fuel generalizing lo hi with
  | zero => omega
  | succ fuel ih =>
    intro k hlo hhi
    have hlt : lo < hi := by omega
    rw [bisect, if_pos hlt] at h
    split at h
    · rename_i hneg
      by_cases hk : k < (hi + lo) / 2
      · exact ih (fun i j hi hij hj => hmono i j hi hij (by omega)) (by omega) h k hlo hk
      · have hup := (hmono _ k (by omega) (by omega) hhi).1 hneg
        omega
    · split at h
      · rename_i hpos
        by_cases hk : (hi + lo) / 2 < k
        · exact ih (fun i j hi hij hj => hmono i j (by omega) hij hj) (by omega) h k (by omega) hhi
        · have hdown := (hmono k _ hlo (by omega) (by omega)).2 hpos
          omega
      · cases h

end Petele.Lib.Bisect
