import Mathlib.Data.List.Nodup
import Mathlib.Logic.Equiv.Basic

namespace Petele.Lib

variable {α : Type*}

/-- The members at `lo` up to `hi` change places, the others stay. -/
def Rearranged (lo hi : ℕ) (e e' : ℕ → α) : Prop :=
  ∃ π : Equiv.Perm ℕ, (∀ i, i < lo ∨ hi ≤ i → π i = i) ∧ ∀ i, e' i = e (π i)

namespace Rearranged

variable {lo hi lo' hi' i j : ℕ} {e e' e'' : ℕ → α}

theorem refl (lo hi : ℕ) (e : ℕ → α) : Rearranged lo hi e e := ⟨Equiv.refl ℕ, fun _ _ => rfl, fun _ => rfl⟩

theorem trans (h : Rearranged lo hi e e') (h' : Rearranged lo hi e' e'') : Rearranged lo hi e e'' := by
  obtain ⟨π, hout, hπ⟩ := h
  obtain ⟨π', hout', hπ'⟩ := h'
  refine ⟨π'.trans π, fun i hi => ?_, fun i => ?_⟩
  · rw [Equiv.trans_apply, hout' i hi, hout i hi]
  · rw [hπ', hπ, Equiv.trans_apply]

theorem mono (h : Rearranged lo hi e e') (hlo : lo' ≤ lo) (hhi : hi ≤ hi') : Rearranged lo' hi' e e' := by
  obtain ⟨π, hout, hπ⟩ := h
  exact ⟨π, fun i hi => hout i (by omega), hπ⟩

theorem swap (hi₁ : lo ≤ i ∧ i < hi) (hj : lo ≤ j ∧ j < hi) (h : ∀ k, e' k = e (Equiv.swap i j k)) :
    Rearranged lo hi e e' :=
  ⟨Equiv.swap i j, fun k hk => Equiv.swap_apply_of_ne_of_ne (by omega) (by omega), h⟩

theorem outside (h : Rearranged lo hi e e') (hi₁ : i < lo ∨ hi ≤ i) : e' i = e i := by
  obtain ⟨π, hout, hπ⟩ := h
  rw [hπ, hout i hi₁]

/-- A member comes from one of those places. -/
theorem source (h : Rearranged lo hi e e') (hi₁ : lo ≤ i ∧ i < hi) : ∃ k, (lo ≤ k ∧ k < hi) ∧ e' i = e k := by
  obtain ⟨π, hout, hπ⟩ := h
  refine ⟨π i, ?_, hπ i⟩
  by_contra hk
  have hfix : π (π i) = π i := hout (π i) (by omega)
  have heq := π.injective hfix
  omega

theorem forall_mem (h : Rearranged lo hi e e') {P : α → Prop} (hP : ∀ i, lo ≤ i ∧ i < hi → P (e i)) :
    ∀ i, lo ≤ i ∧ i < hi → P (e' i) := by
  intro i hi₁
  obtain ⟨k, hk, heq⟩ := h.source hi₁
  rw [heq]
  exact hP k hk

/-- The list of the members is permuted. -/
theorem perm (h : Rearranged 0 hi e e') : ((List.range hi).map e').Perm ((List.range hi).map e) := by
  obtain ⟨π, hout, hπ⟩ := h
  have hmap : (List.range hi).map e' = ((List.range hi).map π).map e := by
    rw [List.map_map]
    exact List.map_congr_left fun i _ => hπ i
  rw [hmap]
  refine List.Perm.map e ((List.perm_ext_iff_of_nodup (List.Nodup.map π.injective List.nodup_range) List.nodup_range).mpr ?_)
  intro k
  rw [List.mem_map, List.mem_range]
  constructor
  · rintro ⟨i, hi₁, rfl⟩
    rw [List.mem_range] at hi₁
    by_contra hk
    have heq := π.injective (hout (π i) (by omega))
    omega
  · intro hk
    refine ⟨π.symm k, ?_, π.apply_symm_apply k⟩
    rw [List.mem_range]
    by_contra hi₁
    have hfix := hout (π.symm k) (by omega)
    rw [π.apply_symm_apply] at hfix
    omega

end Rearranged

/-- The members at `lo` up to `hi` are in order. -/
def Nondecreasing (le : α → α → Prop) (lo hi : ℕ) (e : ℕ → α) : Prop :=
  ∀ i j, lo ≤ i → i ≤ j → j < hi → le (e i) (e j)

namespace Nondecreasing

variable {le : α → α → Prop} {lo q hi : ℕ} {e e₁ e₂ : ℕ → α}

theorem congr (h : Nondecreasing le lo hi e) (heq : ∀ i, lo ≤ i → i < hi → e₁ i = e i) :
    Nondecreasing le lo hi e₁ := by
  intro i j hi₁ hij hj
  rw [heq i hi₁ (by omega), heq j (by omega) hj]
  exact h i j hi₁ hij hj

/-- Two parts in order about a member between them. -/
theorem join (hrefl : ∀ x, le x x) (htrans : ∀ x y z, le x y → le y z → le x z)
    (hl : Nondecreasing le lo q e) (hr : Nondecreasing le (q + 1) hi e)
    (hbelow : ∀ k, lo ≤ k ∧ k < q → le (e k) (e q)) (habove : ∀ k, q + 1 ≤ k ∧ k < hi → le (e q) (e k)) :
    Nondecreasing le lo hi e := by
  intro i j hi₁ hij hj
  rcases Nat.lt_trichotomy i q with hiq | rfl | hiq
  · rcases Nat.lt_trichotomy j q with hjq | rfl | hjq
    · exact hl i j hi₁ hij hjq
    · exact hbelow i ⟨hi₁, hiq⟩
    · exact htrans _ _ _ (hbelow i ⟨hi₁, hiq⟩) (habove j ⟨hjq, hj⟩)
  · rcases Nat.eq_or_lt_of_le hij with rfl | hiq
    · exact hrefl _
    · exact habove j ⟨hiq, hj⟩
  · exact hr i j hiq hij hj

/-- The lower part is put in order first. -/
theorem below_above (hrefl : ∀ x, le x x) (htrans : ∀ x y z, le x y → le y z → le x z)
    (hbelow : ∀ k, lo ≤ k ∧ k < q → le (e k) (e q)) (habove : ∀ k, q + 1 ≤ k ∧ k < hi → le (e q) (e k))
    (h₁ : Rearranged lo q e e₁) (hs₁ : Nondecreasing le lo q e₁)
    (h₂ : Rearranged (q + 1) hi e₁ e₂) (hs₂ : Nondecreasing le (q + 1) hi e₂) : Nondecreasing le lo hi e₂ := by
  have hq : e₂ q = e q := (h₂.outside (by omega)).trans (h₁.outside (by omega))
  refine join hrefl htrans (hs₁.congr fun i _ hi₁ => h₂.outside (by omega)) hs₂ ?_ ?_
  · intro k hk
    rw [hq, h₂.outside (by omega)]
    exact h₁.forall_mem (P := (le · (e q))) hbelow k hk
  · rw [hq]
    refine h₂.forall_mem (P := (le (e q) ·)) fun k hk => ?_
    rw [h₁.outside (by omega)]
    exact habove k hk

/-- The upper part is put in order first. -/
theorem above_below (hrefl : ∀ x, le x x) (htrans : ∀ x y z, le x y → le y z → le x z)
    (hbelow : ∀ k, lo ≤ k ∧ k < q → le (e k) (e q)) (habove : ∀ k, q + 1 ≤ k ∧ k < hi → le (e q) (e k))
    (h₁ : Rearranged (q + 1) hi e e₁) (hs₁ : Nondecreasing le (q + 1) hi e₁)
    (h₂ : Rearranged lo q e₁ e₂) (hs₂ : Nondecreasing le lo q e₂) : Nondecreasing le lo hi e₂ := by
  have hq : e₂ q = e q := (h₂.outside (by omega)).trans (h₁.outside (by omega))
  refine join hrefl htrans hs₂ (hs₁.congr fun i hi₁ _ => h₂.outside (by omega)) ?_ ?_
  · rw [hq]
    refine h₂.forall_mem (P := (le · (e q))) fun k hk => ?_
    rw [h₁.outside (by omega)]
    exact hbelow k hk
  · intro k hk
    rw [hq, h₂.outside (by omega)]
    exact h₁.forall_mem (P := (le (e q) ·)) habove k hk

end Nondecreasing

end Petele.Lib
