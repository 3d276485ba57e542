import Mathlib.Data.List.Nodup

namespace Petele.Lib

variable {P : Type*}

/-- The links lead from `p` through the nodes `l` to `q`. -/
def Path (next : P → P) : P → List P → P → Prop
  | p, [], q => p = q
  | p, x :: l, q => p = x ∧ Path next (next x) l q

section

variable {next next' : P → P} {p q r x y : P} {l l' : List P}

theorem Path.frame (h : Path next p l q) (hn : ∀ a ∈ l, next' a = next a) : Path next' p l q := by
  induction l generalizing p with
  | nil => exact h
  | cons x l ih =>
    refine ⟨h.1, ?_⟩
    rw [hn x List.mem_cons_self]
    exact ih h.2 fun a ha => hn a (List.mem_cons_of_mem _ ha)

theorem Path.append (h : Path next p l q) (h' : Path next q l' r) : Path next p (l ++ l') r := by
  induction l generalizing p with
  | nil =>
    have hp : p = q := h
    rw [hp]
    exact h'
  | cons x l ih => exact ⟨h.1, ih h.2⟩

/-- A list is cut before one of its nodes. -/
theorem Path.split (h : Path next p (l ++ x :: l') r) :
    Path next p l x ∧ Path next (next x) l' r := by
  induction l generalizing p with
  | nil => exact ⟨h.1, h.2⟩
  | cons y l ih =>
    obtain ⟨hl, hl'⟩ := ih h.2
    exact ⟨⟨h.1, hl⟩, hl'⟩

/-- What follows a node that is not the last. -/
theorem Path.after (h : Path next p (l ++ x :: l') q) (hx : next x ≠ q) :
    ∃ l'', l' = next x :: l'' := by
  obtain ⟨-, hl'⟩ := h.split
  cases l' with
  | nil => exact absurd hl' hx
  | cons y l'' => exact ⟨l'', by rw [hl'.1]⟩

theorem Path.remove (h : Path next p (l ++ x :: y :: l') q) (hx : next' x = next y)
    (hn : ∀ a, a ∈ l ∨ a ∈ l' → next' a = next a) : Path next' p (l ++ x :: l') q := by
  obtain ⟨hl, -, hl'⟩ := h.split
  refine (hl.frame fun a ha => hn a (.inl ha)).append ⟨rfl, ?_⟩
  rw [hx]
  exact hl'.frame fun a ha => hn a (.inr ha)

theorem Path.insert (h : Path next p (l ++ x :: l') q) (hx : next' x = y) (hy : next' y = next x)
    (hn : ∀ a, a ∈ l ∨ a ∈ l' → next' a = next a) : Path next' p (l ++ x :: y :: l') q := by
  obtain ⟨hl, hl'⟩ := h.split
  refine (hl.frame fun a ha => hn a (.inl ha)).append ⟨rfl, hx, ?_⟩
  rw [hy]
  exact hl'.frame fun a ha => hn a (.inr ha)

/-- A ring may be entered at any of its nodes. -/
theorem Path.rotate (h : Path next p (l ++ x :: l') p) : Path next x (x :: (l' ++ l)) x := by
  obtain ⟨hl, hl'⟩ := h.split
  exact ⟨rfl, hl'.append hl⟩

/-- The list from `p` to `q` meets the nodes of `S`, each once. -/
structure Listed (next : P → P) (S : P → Prop) (p : P) (l : List P) (q : P) : Prop where
  path : Path next p l q
  nodup : l.Nodup
  mem_iff : ∀ a, a ∈ l ↔ S a

variable {S S' : P → Prop} {l₁ l₂ : List P}

theorem Listed.frame (h : Listed next S p l q) (hS : ∀ a, S' a ↔ S a)
    (hn : ∀ a, S a → next' a = next a) : Listed next' S' p l q :=
  ⟨h.path.frame fun a ha => hn a ((h.mem_iff a).mp ha), h.nodup,
    fun a => (h.mem_iff a).trans (hS a).symm⟩

theorem Listed.push (h : Listed next S p l q) (hx : ¬ S x) (hS : ∀ a, S' a ↔ a = x ∨ S a)
    (hp : next' x = p) (hn : ∀ a, S a → next' a = next a) : Listed next' S' x (x :: l) q := by
  refine ⟨⟨rfl, ?_⟩, List.nodup_cons.mpr ⟨fun hmem => hx ((h.mem_iff x).mp hmem), h.nodup⟩, ?_⟩
  · rw [hp]
    exact h.path.frame fun a ha => hn a ((h.mem_iff a).mp ha)
  · intro a
    rw [List.mem_cons, h.mem_iff, hS]

theorem Listed.pop (h : Listed next S x l q) (hx : S x) (hS : ∀ a, S' a ↔ a ≠ x ∧ S a)
    (hn : ∀ a, S' a → next' a = next a) : ∃ l', Listed next' S' (next x) l' q := by
  cases l with
  | nil => exact absurd ((h.mem_iff x).mpr hx) List.not_mem_nil
  | cons y l =>
    obtain ⟨rfl, hpath⟩ := h.path
    obtain ⟨hnotin, hnodup⟩ := List.nodup_cons.mp h.nodup
    have hmem : ∀ a, a ∈ l ↔ S' a := by
      intro a
      rw [hS, ← h.mem_iff, List.mem_cons]
      constructor
      · intro ha
        exact ⟨fun heq => hnotin (heq ▸ ha), .inr ha⟩
      · rintro ⟨hne, rfl | ha⟩
        · exact absurd rfl hne
        · exact ha
    exact ⟨l, hpath.frame fun a ha => hn a ((hmem a).mp ha), hnodup, hmem⟩

theorem Listed.at (h : Listed next S p l q) (hx : S x) : ∃ l₁ l₂, l = l₁ ++ x :: l₂ :=
  List.append_of_mem ((h.mem_iff x).mpr hx)

theorem Listed.adjacent (h : Listed next S p l q) (hx : S x) (hq : next x ≠ q) :
    ∃ l₁ l₂, l = l₁ ++ x :: next x :: l₂ := by
  obtain ⟨l₁, l', rfl⟩ := h.at hx
  obtain ⟨l₂, rfl⟩ := h.path.after hq
  exact ⟨l₁, l₂, rfl⟩

/-- The node `y` after `x` leaves the list. -/
theorem Listed.unlink (h : Listed next S p (l₁ ++ x :: y :: l₂) q)
    (hS : ∀ a, S' a ↔ a ≠ y ∧ S a) (hx : next' x = next y)
    (hn : ∀ a, S a → a ≠ x → a ≠ y → next' a = next a) :
    Listed next' S' p (l₁ ++ x :: l₂) q := by
  have hnodup := h.nodup
  simp only [List.nodup_append, List.nodup_cons, List.mem_cons, not_or] at hnodup
  obtain ⟨hn₁, ⟨⟨hxy, hx₂⟩, hy₂, hn₂⟩, hdisj⟩ := hnodup
  have hy₁ : y ∉ l₁ := fun hmem => hdisj y hmem y (.inr (.inl rfl)) rfl
  refine ⟨h.path.remove hx ?_, h.nodup.sublist ?_, ?_⟩
  · rintro a (ha | ha)
    · refine hn a ((h.mem_iff a).mp (List.mem_append_left _ ha)) ?_ ?_
      · rintro rfl
        exact hdisj a ha a (.inl rfl) rfl
      · rintro rfl
        exact hy₁ ha
    · refine hn a ((h.mem_iff a).mp ?_) (fun heq => hx₂ (heq ▸ ha)) (fun heq => hy₂ (heq ▸ ha))
      simp [ha]
  · exact List.Sublist.append_left ((List.sublist_cons_self y l₂).cons_cons x) l₁
  · intro a
    rw [hS, ← h.mem_iff]
    simp only [List.mem_append, List.mem_cons]
    constructor
    · rintro (ha | rfl | ha)
      · exact ⟨fun heq => hy₁ (heq ▸ ha), .inl ha⟩
      · exact ⟨hxy, .inr (.inl rfl)⟩
      · exact ⟨fun heq => hy₂ (heq ▸ ha), .inr (.inr (.inr ha))⟩
    · rintro ⟨hne, ha | rfl | rfl | ha⟩
      · exact .inl ha
      · exact .inr (.inl rfl)
      · exact absurd rfl hne
      · exact .inr (.inr ha)

/-- The node `y` is put after `x`. -/
theorem Listed.link (h : Listed next S p (l₁ ++ x :: l₂) q) (hy : ¬ S y)
    (hS : ∀ a, S' a ↔ a = y ∨ S a) (hx : next' x = y) (hxy : next' y = next x)
    (hn : ∀ a, S a → a ≠ x → next' a = next a) :
    Listed next' S' p (l₁ ++ x :: y :: l₂) q := by
  have hnodup := h.nodup
  simp only [List.nodup_append, List.nodup_cons, List.mem_cons] at hnodup
  obtain ⟨hn₁, ⟨hx₂, hn₂⟩, hdisj⟩ := hnodup
  have hyl : y ∉ l₁ ++ x :: l₂ := fun hmem => hy ((h.mem_iff y).mp hmem)
  have hperm : (l₁ ++ x :: y :: l₂).Perm (y :: (l₁ ++ x :: l₂)) :=
    (List.Perm.append_left l₁ (List.Perm.swap y x l₂)).trans List.perm_middle
  refine ⟨h.path.insert hx hxy ?_, hperm.nodup_iff.mpr (List.nodup_cons.mpr ⟨hyl, h.nodup⟩), ?_⟩
  · rintro a (ha | ha)
    · refine hn a ((h.mem_iff a).mp (List.mem_append_left _ ha)) ?_
      rintro rfl
      exact hdisj a ha a (.inl rfl) rfl
    · refine hn a ((h.mem_iff a).mp ?_) (fun heq => hx₂ (heq ▸ ha))
      simp [ha]
  · intro a
    rw [hperm.mem_iff, List.mem_cons, h.mem_iff, hS]

end

end Petele.Lib
