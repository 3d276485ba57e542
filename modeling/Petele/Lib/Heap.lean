import Mathlib.Data.List.Perm.Basic
import Mathlib.Algebra.Order.Group.Unbundled.Int

namespace Petele.Lib.Heap

variable {α : Type*} (key : α → ℤ)

/-- The key in slot `i` of the array, 0 past its end. -/
def keyAt (a : Array α) (i : ℕ) : ℤ := (a[i]?).elim 0 key

/-- Slot `i` is inside the array. -/
def lower (a : Array α) (i j : ℕ) : Bool := j < a.size && keyAt key a i < keyAt key a j

/-- The loop that moves the entry in slot `i` up while it is not below the one above it. -/
def siftup (a : Array α) (i : ℕ) : Array α :=
  if 0 < i then
    if keyAt key a i < keyAt key a ((i - 1) / 2) then a
    else siftup (a.swapIfInBounds i ((i - 1) / 2)) ((i - 1) / 2)
  else a
termination_by i

/-- The slot of the greatest of the entries in slot `i` and the two below it. -/
def greatest (a : Array α) (i : ℕ) : ℕ :=
  let m := if lower key a i (2 * i + 1) then 2 * i + 1 else i
  if lower key a m (2 * i + 2) then 2 * i + 2 else m

theorem lower_lt {key : α → ℤ} {a : Array α} {i j : ℕ} (h : lower key a i j = true) :
    j < a.size := by
  rw [lower, Bool.and_eq_true, decide_eq_true_eq] at h
  exact h.1

theorem greatest_cases (a : Array α) (i : ℕ) :
    greatest key a i = i ∨
    ((greatest key a i = 2 * i + 1 ∨ greatest key a i = 2 * i + 2) ∧ greatest key a i < a.size) := by
  unfold greatest
  by_cases hl : lower key a i (2 * i + 1) = true
  · have := lower_lt hl
    simp only [if_pos hl]
    split
    · rename_i hr
      have := lower_lt hr
      omega
    · omega
  · simp only [if_neg hl]
    split
    · rename_i hr
      have := lower_lt hr
      omega
    · omega

/-- The loop that moves the entry in slot `i` down while one below it is greater. -/
def siftdown (a : Array α) (i : ℕ) : Array α :=
  if greatest key a i = i then a
  else siftdown (a.swapIfInBounds (greatest key a i) i) (greatest key a i)
termination_by a.size - i
decreasing_by
  rename_i h
  have hcases := greatest_cases key a i
  rw [Array.size_swapIfInBounds]
  omega

def put (a : Array α) (x : α) : Array α := siftup key (a.push x) a.size

/-- The first entry, and the rest with the last one moved into its place. -/
def take (a : Array α) : Option (α × Array α) :=
  match a.toList with
  | [] => none
  | [x] => some (x, #[])
  | x :: y :: l => some (x, siftdown key ((y :: l).getLast (by simp) :: (y :: l).dropLast).toArray 0)

/-- No entry is above the one over it. -/
def Ordered (a : Array α) : Prop :=
  ∀ j, 0 < j → j < a.size → keyAt key a j ≤ keyAt key a ((j - 1) / 2)

variable {key} {a : Array α} {i j k : ℕ}

theorem keyAt_swap (hi : i < a.size) (hj : j < a.size) (k : ℕ) :
    keyAt key (a.swapIfInBounds i j) k =
      if k = i then keyAt key a j else if k = j then keyAt key a i else keyAt key a k := by
  have hswap : a.swapIfInBounds i j = a.swap i j hi hj := by
    rw [Array.swapIfInBounds_def, dif_pos hi, dif_pos hj]
  rw [hswap]
  unfold keyAt
  rw [Array.getElem?_swap]
  by_cases hkj : k = j
  · subst hkj
    by_cases hki : k = i
    · subst hki
      simp [hi]
    · simp [hki, hi]
  · by_cases hki : k = i
    · subst hki
      simp [Ne.symm hkj, hj]
    · simp [hki, hkj, Ne.symm hkj, Ne.symm hki]

theorem swap_perm (a : Array α) (i j : ℕ) : (a.swapIfInBounds i j).toList.Perm a.toList := by
  rw [Array.swapIfInBounds_def]
  split
  · split
    · exact (Array.swap_perm _ _).toList
    · exact .refl _
  · exact .refl _

theorem siftup_perm (a : Array α) (i : ℕ) : (siftup key a i).toList.Perm a.toList := by
  fun_induction siftup key a i with
  | case1 a i hi hlt => exact .refl _
  | case2 a i hi hlt ih => exact ih.trans (swap_perm _ _ _)
  | case3 a i hi => exact .refl _

theorem siftdown_perm (a : Array α) (i : ℕ) : (siftdown key a i).toList.Perm a.toList := by
  fun_induction siftdown key a i with
  | case1 a i hstop => exact .refl _
  | case2 a i hstop ih => exact ih.trans (swap_perm _ _ _)

/-- All is in order but what concerns the entry in slot `i` and the one over it. -/
structure UpOrdered (key : α → ℤ) (a : Array α) (i : ℕ) : Prop where
  others : ∀ j, 0 < j → j < a.size → j ≠ i → keyAt key a j ≤ keyAt key a ((j - 1) / 2)
  below : 0 < i → ∀ j, 0 < j → j < a.size → (j - 1) / 2 = i →
    keyAt key a j ≤ keyAt key a ((i - 1) / 2)

theorem siftup_ordered (hi : i < a.size) (h : UpOrdered key a i) : Ordered key (siftup key a i) := by
  fun_induction siftup key a i with
  | case1 a i hpos hlt =>
    intro j hj hja
    by_cases hji : j = i
    · subst hji
      exact Int.le_of_lt hlt
    · exact h.others j hj hja hji
  | case2 a i hpos hlt ih =>
    have hp : (i - 1) / 2 < a.size := by omega
    refine ih (by rw [Array.size_swapIfInBounds]; exact hp) ⟨?_, ?_⟩
    · intro j hj hja hjp
      rw [Array.size_swapIfInBounds] at hja
      rw [keyAt_swap hi hp, keyAt_swap hi hp, if_neg hjp]
      by_cases hji : j = i
      · subst hji
        rw [if_pos rfl, if_neg (by omega), if_pos rfl]
        omega
      · have hup := h.others j hj hja hji
        rw [if_neg hji]
        split
        · rename_i hjpi
          exact h.below hpos j hj hja hjpi
        · split
          · rename_i hjpp
            rw [hjpp] at hup
            omega
          · exact hup
    · intro hpp j hj hja hjp
      rw [Array.size_swapIfInBounds] at hja
      have hpup := h.others ((i - 1) / 2) hpp hp (by omega)
      rw [keyAt_swap hi hp, keyAt_swap hi hp, if_neg (show ((i - 1) / 2 - 1) / 2 ≠ i by omega),
        if_neg (show ((i - 1) / 2 - 1) / 2 ≠ (i - 1) / 2 by omega)]
      by_cases hji : j = i
      · rw [if_pos hji]
        exact hpup
      · have hup := h.others j hj hja hji
        rw [hjp] at hup
        rw [if_neg hji, if_neg (by omega)]
        exact Int.le_trans hup hpup
  | case3 a i hpos =>
    intro j hj hja
    exact h.others j hj hja (by omega)

/-- All is in order but what concerns the entry in slot `i` and the ones below it. -/
structure DownOrdered (key : α → ℤ) (a : Array α) (i : ℕ) : Prop where
  others : ∀ j, 0 < j → j < a.size → (j - 1) / 2 ≠ i → keyAt key a j ≤ keyAt key a ((j - 1) / 2)
  below : 0 < i → ∀ j, 0 < j → j < a.size → (j - 1) / 2 = i →
    keyAt key a j ≤ keyAt key a ((i - 1) / 2)

/-- Nothing in the slots `i` and below it is above the greatest. -/
theorem le_greatest (key : α → ℤ) (a : Array α) (i : ℕ) :
    keyAt key a i ≤ keyAt key a (greatest key a i) ∧
    ∀ j, 0 < j → j < a.size → (j - 1) / 2 = i → keyAt key a j ≤ keyAt key a (greatest key a i) := by
  unfold greatest lower
  dsimp only
  simp only [Bool.and_eq_true, decide_eq_true_eq]
  refine ⟨?_, fun j hj hja hji => ?_⟩
  · split <;> split at * <;> omega
  · have hcases : j = 2 * i + 1 ∨ j = 2 * i + 2 := by omega
    rcases hcases with rfl | rfl
    · split <;> split at * <;> omega
    · split <;> split at * <;> omega

theorem siftdown_ordered (hi : i < a.size) (h : DownOrdered key a i) :
    Ordered key (siftdown key a i) := by
  fun_induction siftdown key a i with
  | case1 a i hstop =>
    intro j hj hja
    by_cases hji : (j - 1) / 2 = i
    · have hle := (le_greatest key a i).2 j hj hja hji
      rw [hstop] at hle
      rwa [hji]
    · exact h.others j hj hja hji
  | case2 a i hstop ih =>
    obtain ⟨hself, hchild⟩ := le_greatest key a i
    have hcases := (greatest_cases key a i).resolve_left hstop
    have hgi : i < greatest key a i ∧ greatest key a i < a.size := by omega
    have hpar : (greatest key a i - 1) / 2 = i := by omega
    generalize greatest key a i = g at *
    have hsize : (a.swapIfInBounds g i).size = a.size := Array.size_swapIfInBounds
    refine ih (by rw [hsize]; exact hgi.2) ⟨?_, ?_⟩
    · intro j hj hja hjg
      rw [hsize] at hja
      rw [keyAt_swap hgi.2 hi, keyAt_swap hgi.2 hi, if_neg hjg]
      by_cases hjeq : j = g
      · rw [if_pos hjeq, if_pos (by omega)]
        exact hself
      · rw [if_neg hjeq]
        by_cases hji : j = i
        · rw [if_pos hji, if_neg (by omega), hji]
          exact h.below (by omega) g (by omega) hgi.2 hpar
        · rw [if_neg hji]
          split
          · rename_i hjpi
            exact hchild j hj hja hjpi
          · rename_i hjpi
            exact h.others j hj hja hjpi
    · intro _ j hj hja hjg
      rw [hsize] at hja
      rw [keyAt_swap hgi.2 hi, keyAt_swap hgi.2 hi, if_neg (by omega), if_neg (by omega), hpar,
        if_neg (by omega), if_pos rfl]
      have := h.others j hj hja (by omega)
      rwa [hjg] at this

theorem put_perm (a : Array α) (x : α) : (put key a x).toList.Perm (x :: a.toList) := by
  refine (siftup_perm _ _).trans ?_
  rw [Array.toList_push]
  exact List.perm_append_singleton x a.toList

theorem keyAt_push (a : Array α) (x : α) (hj : j < a.size) :
    keyAt key (a.push x) j = keyAt key a j := by
  rw [keyAt, keyAt, Array.getElem?_push, if_neg (by omega)]

theorem put_ordered (h : Ordered key a) (x : α) : Ordered key (put key a x) := by
  refine siftup_ordered (by rw [Array.size_push]; omega) ⟨?_, ?_⟩
  · intro j hj hja hne
    rw [Array.size_push] at hja
    rw [keyAt_push a x (by omega), keyAt_push a x (by omega)]
    exact h j hj (by omega)
  · intro _ j _ hja hji
    rw [Array.size_push] at hja
    omega

theorem keyAt_le_first (h : Ordered key a) (j : ℕ) (hj : j < a.size) :
    keyAt key a j ≤ keyAt key a 0 := by
  induction j using Nat.strongRecOn with
  | ind j ih =>
    by_cases hz : j = 0
    · rw [hz]
    · exact Int.le_trans (h j (by omega) hj) (ih ((j - 1) / 2) (by omega) (by omega))

theorem le_first {x : α} {l : List α} (h : Ordered key a) (ha : a.toList = x :: l) {y : α}
    (hy : y ∈ a.toList) : key y ≤ key x := by
  obtain ⟨j, hj⟩ := List.mem_iff_getElem?.mp hy
  rw [Array.getElem?_toList] at hj
  have hlt : j < a.size := (Array.getElem?_eq_some_iff.mp hj).1
  have hfirst : a[0]? = some x := by
    rw [← Array.getElem?_toList, ha]
    rfl
  have hle := keyAt_le_first h j hlt
  rwa [keyAt, keyAt, hj, hfirst] at hle

theorem take_perm {x : α} {b : Array α} (h : take key a = some (x, b)) :
    a.toList.Perm (x :: b.toList) := by
  unfold take at h
  split at h
  · cases h
  · rename_i hl
    cases h
    rw [hl]
  · rename_i z y l hl
    cases h
    rw [hl]
    refine List.Perm.cons x ((siftdown_perm _ _).trans ?_).symm
    have hlast := List.dropLast_append_getLast (show y :: l ≠ [] by simp)
    refine (List.perm_append_singleton _ _).symm.trans ?_
    rw [hlast]

theorem take_ordered {x : α} {b : Array α} (h : take key a = some (x, b)) (ha : Ordered key a) :
    Ordered key b := by
  unfold take at h
  split at h
  · cases h
  · cases h
    intro j _ hj
    simp at hj
  · rename_i z y l hl
    cases h
    -- Only the first slot holds another entry than before.
    have hsize : a.size = l.length + 2 := by
      rw [← Array.length_toList, hl]
      rfl
    have hkeys : ∀ j, 0 < j → j < l.length + 1 →
        keyAt key ((y :: l).getLast (by simp) :: (y :: l).dropLast).toArray j = keyAt key a j := by
      intro j hj hjl
      obtain ⟨j, rfl⟩ := Nat.exists_eq_succ_of_ne_zero (Nat.pos_iff_ne_zero.mp hj)
      rw [keyAt, keyAt, ← Array.getElem?_toList, ← Array.getElem?_toList, hl,
        List.getElem?_cons_succ, List.getElem?_cons_succ, List.getElem?_dropLast,
        if_pos (by simp only [List.length_cons]; omega)]
    refine siftdown_ordered (by simp) ⟨?_, fun hz => absurd hz (Nat.lt_irrefl 0)⟩
    intro j hj hja hne
    simp only [List.size_toArray, List.length_cons, List.length_dropLast] at hja
    rw [hkeys j hj (by omega), hkeys _ (by omega) (by omega)]
    exact ha j hj (by omega)

theorem take_greatest {x : α} {b : Array α} (h : take key a = some (x, b)) (ha : Ordered key a)
    {y : α} (hy : y ∈ a.toList) : key y ≤ key x := by
  unfold take at h
  split at h
  · cases h
  · rename_i hl
    cases h
    exact le_first ha hl hy
  · rename_i hl
    cases h
    exact le_first ha hl hy

end Petele.Lib.Heap
