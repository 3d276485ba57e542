import Mathlib.Data.List.Basic

namespace Petele.Lib.Probe

variable {α : Type*}

/-- Linear probing from slot `i`: the first slot that is empty or whose entry is a hit. The walk
fails when it has made `fuel` steps, that is, with `fuel` the length of the table, when it has
come round without an end. -/
def probe (hit : α → Bool) (t : List (Option α)) : ℕ → ℕ → Option ℕ
  | 0, _ => none
  | fuel + 1, i =>
    match t[i]? with
    | none => none
    | some none => some i
    | some (some a) => if hit a then some i else probe hit t fuel ((i + 1) % t.length)

/-- The number of slots in use. -/
def entries (t : List (Option α)) : ℕ := t.countP Option.isSome

/-- The steps from slot `i` round to slot `j` of a table of `n` slots. -/
def distance (n i j : ℕ) : ℕ := if i ≤ j then j - i else n + j - i

theorem distance_step {n i j : ℕ} (hi : i < n) (hj : j < n) (hne : i ≠ j) :
    distance n ((i + 1) % n) j + 1 = distance n i j := by
  unfold distance
  by_cases hlast : i + 1 = n
  · rw [hlast, Nat.mod_self, if_pos (Nat.zero_le j), if_neg (by omega)]
    omega
  · rw [Nat.mod_eq_of_lt (by omega)]
    by_cases hle : i ≤ j
    · rw [if_pos hle, if_pos (by omega)]
      omega
    · rw [if_neg hle, if_neg (by omega)]
      omega

theorem distance_lt {n i j : ℕ} (hi : i < n) (hj : j < n) : distance n i j < n := by
  unfold distance
  split <;> omega

theorem probe_of_distance (hit : α → Bool) (t : List (Option α)) {j : ℕ}
    (hj : t[j]? = some none) (fuel i : ℕ) (hi : i < t.length)
    (hfuel : distance t.length i j < fuel) : ∃ k, probe hit t fuel i = some k := by
  have hjlt : j < t.length := (List.getElem?_eq_some_iff.mp hj).1
  -- Every step that ends the walk at no slot comes one step closer to the empty one.
  induction fuel generalizing i with
  | zero => omega
  | succ fuel ih =>
    rw [probe, List.getElem?_eq_getElem hi]
    cases hslot : t[i] with
    | none => exact ⟨i, rfl⟩
    | some a =>
      cases hhit : hit a with
      | true => exact ⟨i, by simp [hhit]⟩
      | false =>
        have hne : i ≠ j := by
          intro heq
          subst heq
          rw [List.getElem?_eq_getElem hi, hslot] at hj
          cases hj
        have hstep := distance_step hi hjlt hne
        have hnext : (i + 1) % t.length < t.length := Nat.mod_lt _ (by omega)
        simpa [hhit] using ih ((i + 1) % t.length) hnext (by omega)

theorem exists_empty {t : List (Option α)} (h : entries t < t.length) :
    ∃ j : ℕ, t[j]? = some none := by
  by_contra hnone
  have hall : ∀ x ∈ t, Option.isSome x = true := by
    intro x hx
    obtain ⟨j, hj⟩ := List.mem_iff_getElem?.mp hx
    cases x with
    | none => exact absurd ⟨j, hj⟩ hnone
    | some a => rfl
  have hfull : t.countP Option.isSome = t.length := List.countP_eq_length.mpr hall
  rw [entries] at h
  omega

/-- A walk over a table with a free slot ends. -/
theorem probe_ends (hit : α → Bool) {t : List (Option α)} (h : entries t < t.length)
    {i : ℕ} (hi : i < t.length) : ∃ k, probe hit t t.length i = some k := by
  obtain ⟨j, hj⟩ := exists_empty h
  have hjlt : j < t.length := (List.getElem?_eq_some_iff.mp hj).1
  exact probe_of_distance hit t hj t.length i hi (distance_lt hi hjlt)

/-- Where a walk ends there is an empty slot or a hit. -/
theorem probe_slot {hit : α → Bool} {t : List (Option α)} {fuel i k : ℕ}
    (h : probe hit t fuel i = some k) :
    t[k]? = some none ∨ ∃ a, t[k]? = some (some a) ∧ hit a = true := by
  induction fuel generalizing i with
  | zero => cases h
  | succ fuel ih =>
    rw [probe] at h
    split at h
    · cases h
    · rename_i hslot
      cases h
      exact Or.inl hslot
    · rename_i a hslot
      split at h
      · rename_i hhit
        cases h
        exact Or.inr ⟨a, hslot, hhit⟩
      · exact ih h

@[simp] theorem entries_replicate (n : ℕ) : entries (List.replicate n (none : Option α)) = 0 := by
  simp [entries, List.countP_replicate]

theorem entries_set {t : List (Option α)} {k : ℕ} (h : t[k]? = some none) (a : α) :
    entries (t.set k (some a)) = entries t + 1 := by
  obtain ⟨hk, hslot⟩ := List.getElem?_eq_some_iff.mp h
  simp [entries, List.countP_set hk, hslot]

theorem mem_set {t : List (Option α)} {k : ℕ} {a b : α} (h : some b ∈ t.set k (some a)) :
    b = a ∨ some b ∈ t := by
  rcases List.mem_or_eq_of_mem_set h with hmem | heq
  · exact Or.inr hmem
  · exact Or.inl (Option.some.inj heq)

/-- A walk that ends at a hit meets no empty slot on its way, so it does not see one filled. -/
theorem probe_set {hit : α → Bool} {t : List (Option α)} {fuel i k e : ℕ} {a b : α}
    (h : probe hit t fuel i = some k) (hk : t[k]? = some (some a)) (he : t[e]? = some none) :
    probe hit (t.set e (some b)) fuel i = some k := by
  induction fuel generalizing i with
  | zero => cases h
  | succ fuel ih =>
    rw [probe] at h ⊢
    have hei : e ≠ i ∨ t[i]? = some none := by
      by_cases heq : e = i
      · exact Or.inr (heq ▸ he)
      · exact Or.inl heq
    split at h
    · cases h
    · rename_i hslot
      cases h
      rw [hk] at hslot
      cases hslot
    · rename_i c hslot
      have hne : e ≠ i := by
        rcases hei with hne | hempty
        · exact hne
        · rw [hempty] at hslot
          cases hslot
      rw [List.getElem?_set_ne hne, hslot, List.length_set]
      split at h
      · rename_i hhit
        simp only [hhit, if_pos]
        exact h
      · rename_i hhit
        simp only [if_neg hhit]
        exact ih h

/-- A walk that ended at an empty slot ends there when the slot is filled with a hit. -/
theorem probe_filled {hit : α → Bool} {t : List (Option α)} {fuel i k : ℕ} {a : α}
    (h : probe hit t fuel i = some k) (hk : t[k]? = some none) (ha : hit a = true) :
    probe hit (t.set k (some a)) fuel i = some k := by
  have hlt : k < t.length := (List.getElem?_eq_some_iff.mp hk).1
  induction fuel generalizing i with
  | zero => cases h
  | succ fuel ih =>
    rw [probe] at h ⊢
    by_cases hki : k = i
    · subst hki
      simp [hlt, ha]
    · rw [List.getElem?_set_ne hki, List.length_set]
      split at h
      · cases h
      · cases h
        exact absurd rfl hki
      · split at h
        · cases h
          exact absurd rfl hki
        · rename_i hhit
          rw [if_neg hhit]
          exact ih h

end Petele.Lib.Probe
