import Mathlib.Logic.Function.Basic
import Mathlib.Tactic.Common

namespace Petele.Lib

variable {τ : Type*}

/-- What lies in a stretch of memory: at the address where a block starts, the place that holds
the block and its size. -/
abbrev Extents (τ : Type*) := ℕ → Option (τ × ℕ)

/-- The blocks lie between `lo` and `hi`, and no two of them overlap. -/
structure Carved (B : Extents τ) (lo hi : ℕ) : Prop where
  bounds : ∀ {a t n}, B a = some (t, n) → 0 < n ∧ lo ≤ a ∧ a + n ≤ hi
  apart : ∀ {a t n b t' n'}, B a = some (t, n) → B b = some (t', n') → a < b → a + n ≤ b

section

variable {B : Extents τ} {lo hi a m n : ℕ} {t t' t₁ t₂ : τ}

theorem carved_nothing (lo hi : ℕ) : Carved (fun _ => none : Extents τ) lo hi := by
  constructor
  · intro a t n h
    cases h
  · intro a t n b t' n' h
    cases h

/-- A new block in a gap. -/
theorem Carved.fill (h : Carved B lo hi) (hn : 0 < n) (hlo : lo ≤ a) (hhi : a + n ≤ hi)
    (hgap : ∀ b u k, B b = some (u, k) → b ≠ a → b + k ≤ a ∨ a + n ≤ b) (t : τ) :
    Carved (Function.update B a (some (t, n))) lo hi := by
  constructor
  · intro b u k hbk
    rw [Function.update_apply] at hbk
    split at hbk
    · obtain ⟨rfl, rfl⟩ := Prod.mk.inj (Option.some.inj hbk)
      omega
    · exact h.bounds hbk
  · intro b u k c v j hbk hcj hlt
    rw [Function.update_apply] at hbk hcj
    split at hbk <;> split at hcj
    · omega
    · obtain ⟨rfl, rfl⟩ := Prod.mk.inj (Option.some.inj hbk)
      rename_i hba hca
      have := hgap c v j hcj hca
      have := h.bounds hcj
      omega
    · rename_i hba hca
      have := hgap b u k hbk hba
      omega
    · exact h.apart hbk hcj hlt

/-- A block inside an old one takes its place. -/
theorem Carved.shrink (h : Carved B lo hi) (ha : B a = some (t, n)) (hm : 0 < m) (hmn : m ≤ n)
    (t' : τ) : Carved (Function.update B a (some (t', m))) lo hi := by
  have hb := h.bounds ha
  refine h.fill hm hb.2.1 (by omega) ?_ t'
  intro b u k hbk hne
  rcases Nat.lt_or_gt_of_ne hne with hlt | hlt
  · exact .inl (h.apart hbk ha hlt)
  · have := h.apart ha hbk hlt
    omega

theorem Carved.move (h : Carved B lo hi) (ha : B a = some (t, n)) (t' : τ) :
    Carved (Function.update B a (some (t', n))) lo hi :=
  h.shrink ha (h.bounds ha).1 (Nat.le_refl n) t'

theorem Carved.drop (h : Carved B lo hi) (a : ℕ) : Carved (Function.update B a none) lo hi := by
  constructor
  · intro b u k hbk
    rw [Function.update_apply] at hbk
    split at hbk
    · cases hbk
    · exact h.bounds hbk
  · intro b u k c v j hbk hcj hlt
    rw [Function.update_apply] at hbk hcj
    split at hbk <;> split at hcj
    · cases hbk
    · cases hbk
    · cases hcj
    · exact h.apart hbk hcj hlt

/-- A block is cut in two. -/
theorem Carved.cut (h : Carved B lo hi) (ha : B a = some (t, n)) (hm : 0 < m) (hmn : m < n)
    (t₁ t₂ : τ) :
    Carved (Function.update (Function.update B a (some (t₁, m))) (a + m) (some (t₂, n - m)))
      lo hi := by
  have hb := h.bounds ha
  refine Carved.fill (h.shrink ha hm (Nat.le_of_lt hmn) t₁) (by omega) (by omega) (by omega) ?_ t₂
  intro b u k hbk hne
  rw [Function.update_apply] at hbk
  split at hbk
  · obtain ⟨rfl, rfl⟩ := Prod.mk.inj (Option.some.inj hbk)
    omega
  · rename_i hba
    rcases Nat.lt_or_gt_of_ne hba with hlt | hlt
    · have := h.apart hbk ha hlt
      omega
    · have := h.apart ha hbk hlt
      omega

/-- A block takes in the one behind it. -/
theorem Carved.join (h : Carved B lo hi) (ha : B a = some (t, n)) (ha' : B (a + n) = some (t', m))
    (t₁ : τ) :
    Carved (Function.update (Function.update B (a + n) none) a (some (t₁, n + m))) lo hi := by
  have hb := h.bounds ha
  have hb' := h.bounds ha'
  refine Carved.fill (h.drop (a + n)) (by omega) (by omega) (by omega) ?_ t₁
  intro b u k hbk hne
  rw [Function.update_apply] at hbk
  split at hbk
  · cases hbk
  · rename_i hbn
    rcases Nat.lt_or_gt_of_ne hne with hlt | hlt
    · have := h.apart hbk ha hlt
      omega
    · have := h.apart ha hbk hlt
      have := h.apart ha' hbk (by omega)
      omega

theorem Carved.mono (h : Carved B lo hi) {hi' : ℕ} (hle : hi ≤ hi') : Carved B lo hi' :=
  ⟨fun hb => ⟨(h.bounds hb).1, (h.bounds hb).2.1, Nat.le_trans (h.bounds hb).2.2 hle⟩,
    fun ha hb => h.apart ha hb⟩

/-- A new block above all others. -/
theorem Carved.top (h : Carved B lo hi) (hlo : lo ≤ hi) (hn : 0 < n) (t : τ) :
    Carved (Function.update B hi (some (t, n))) lo (hi + n) := by
  refine (h.mono (Nat.le_add_right hi n)).fill hn hlo (Nat.le_refl _) ?_ t
  intro b u k hbk _
  exact .inl (h.bounds hbk).2.2

/-- The block at the top goes, and the bound with it. -/
theorem Carved.untop (h : Carved B lo hi) (ha : B a = some (t, n)) (htop : a + n = hi) :
    Carved (Function.update B a none) lo a := by
  refine ⟨fun hbk => ?_, fun hbk hcj => (h.drop a).apart hbk hcj⟩
  have hb := (h.drop a).bounds hbk
  refine ⟨hb.1, hb.2.1, ?_⟩
  rw [Function.update_apply] at hbk
  split at hbk
  · cases hbk
  · rename_i b u k hba
    rcases Nat.lt_or_gt_of_ne hba with hlt | hlt
    · exact h.apart hbk ha hlt
    · have := h.apart ha hbk hlt
      omega

/-- A place keeps its blocks when a block that is neither was nor gets there changes. -/
theorem update_place (ha : ∀ j, B a ≠ some (t, j)) {v : Option (τ × ℕ)} (hv : ∀ j, v ≠ some (t, j))
    (b j : ℕ) : Function.update B a v b = some (t, j) ↔ B b = some (t, j) := by
  rw [Function.update_apply]
  split
  · rename_i hba
    rw [hba]
    exact ⟨fun h => absurd h (hv j), fun h => absurd h (ha j)⟩
  · rfl

/-- Writing where a place has no block leaves its blocks as they are. -/
theorem update_away {α : Type*} (ha : ∀ j, B a ≠ some (t, j)) (f : ℕ → α) (v : α) {b j : ℕ}
    (hb : B b = some (t, j)) : Function.update f a v b = f b := by
  refine Function.update_of_ne ?_ _ _
  rintro rfl
  exact ha j hb

end

end Petele.Lib
