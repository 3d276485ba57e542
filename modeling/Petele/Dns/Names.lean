import Petele.Dns.Parse

namespace Petele.Dns

/-- A label of `c` bytes is copied, and there is no room for it behind `n` bytes. -/
def Long (n len c : ℕ) : Prop := len + c < Domlen - 1 ∧ Domlen < n + c

instance (n len c : ℕ) : Decidable (Long n len c) := inferInstanceAs (Decidable (_ ∧ _))

/-- What stands at `p` ends the name with an error. -/
def Refused (m : Msg) (n p len pointer : ℕ) : Prop :=
  1 ≤ (m.mem p).toNat / 2 ^ 6 ∧ (m.mem p).toNat / 2 ^ 6 ≤ 2 ∨ (m.mem p).toNat / 2 ^ 6 = 3 ∧ 10 < pointer ∨
    (m.mem p).toNat / 2 ^ 6 = 0 ∧ Long n len (m.mem p).toNat

instance (m : Msg) (n p len pointer : ℕ) : Decidable (Refused m n p len pointer) :=
  inferInstanceAs (Decidable (_ ∨ _ ∨ _))

/-- The bytes written behind a label of `c` bytes. -/
def copied (n len c : ℕ) : ℕ := if len + c < Domlen - 1 then n + c else n

/-- The name at `p` lies in the message, as far as it is read: `n` bytes are written before it, `len` is what it has
taken of the message, and `pointer` are the pointers that led here. -/
inductive NameIn (m : Msg) : ℕ → ℕ → ℕ → ℕ → Prop
  | root {n p len pointer} : p < m.ep → m.mem p = 0 → NameIn m n p len pointer
  | refused {n p len pointer} : p < m.ep → m.mem p ≠ 0 → Refused m n p len pointer → NameIn m n p len pointer
  | label {n p len pointer} : m.mem p ≠ 0 → (m.mem p).toNat / 2 ^ 6 = 0 → p + 1 + (m.mem p).toNat < m.ep →
      (m.mem (p + 1 + (m.mem p).toNat) ≠ 0 → copied n len (m.mem p).toNat < Domlen →
        NameIn m (copied n len (m.mem p).toNat + 1) (p + 1 + (m.mem p).toNat)
          (if pointer = 0 then len + ((m.mem p).toNat + 1) else len) pointer) →
      NameIn m n p len pointer
  | pointer {n p len pointer} : p + 1 < m.ep → (m.mem p).toNat / 2 ^ 6 = 3 →
      ((m.mem p).toNat % 2 ^ 6 * 2 ^ 8 + (m.mem (p + 1)).toNat < m.ep →
        NameIn m n ((m.mem p).toNat % 2 ^ 6 * 2 ^ 8 + (m.mem (p + 1)).toNat) len (pointer + 1)) →
      NameIn m n p len pointer

section Names

variable {m : Msg} {dst : List UInt8} {p len pointer : ℕ}

theorem slice_length {p n : ℕ} : (slice m p n).length = n := by
  rw [slice, List.length_map, List.length_range]

theorem NameIn.lt {n : ℕ} (h : NameIn m n p len pointer) : p < m.ep := by
  cases h <;> omega

theorem nameIn_zero {n : ℕ} (h0 : m.mem p = 0) : NameIn m n p len pointer ↔ p < m.ep :=
  ⟨NameIn.lt, fun h => .root h h0⟩

theorem nameIn_label {n : ℕ} (h0 : m.mem p ≠ 0) (hc : (m.mem p).toNat / 2 ^ 6 = 0)
    (hlong : ¬ Long n len (m.mem p).toNat) :
    NameIn m n p len pointer ↔ p + 1 + (m.mem p).toNat < m.ep ∧
      (m.mem (p + 1 + (m.mem p).toNat) ≠ 0 → copied n len (m.mem p).toNat < Domlen →
        NameIn m (copied n len (m.mem p).toNat + 1) (p + 1 + (m.mem p).toNat)
          (if pointer = 0 then len + ((m.mem p).toNat + 1) else len) pointer) := by
  constructor
  · intro h
    cases h with
    | root _ h => exact absurd h h0
    | refused _ _ h =>
      rcases h with h | h | h
      · omega
      · omega
      · exact absurd h.2 hlong
    | label _ _ hq h => exact ⟨hq, h⟩
    | pointer _ h _ => omega
  · rintro ⟨hq, h⟩
    exact .label h0 hc hq h

theorem nameIn_pointer {n : ℕ} (hc : (m.mem p).toNat / 2 ^ 6 = 3) (hpointer : pointer ≤ 10) :
    NameIn m n p len pointer ↔ p + 1 < m.ep ∧
      ((m.mem p).toNat % 2 ^ 6 * 2 ^ 8 + (m.mem (p + 1)).toNat < m.ep →
        NameIn m n ((m.mem p).toNat % 2 ^ 6 * 2 ^ 8 + (m.mem (p + 1)).toNat) len (pointer + 1)) := by
  constructor
  · intro h
    cases h with
    | root _ h =>
      rw [h] at hc
      cases hc
    | refused _ _ h => rcases h with h | h | h <;> omega
    | label _ h _ _ => omega
    | pointer h1 _ h2 => exact ⟨h1, h2⟩
  · rintro ⟨h1, h2⟩
    exact .pointer h1 hc h2

/-- The label at `p` behind what is written so far, if it is copied. -/
def written (m : Msg) (dst : List UInt8) (p len : ℕ) : List UInt8 :=
  if len + (m.mem p).toNat < Domlen - 1 then dst ++ slice m (p + 1) (m.mem p).toNat else dst

theorem written_length : (written m dst p len).length = copied dst.length len (m.mem p).toNat := by
  rw [written, copied]
  split
  · rw [List.length_append, slice_length]
  · rfl

theorem gnameloop_end (h : m.mem p = 0 ∨ m.ep ≤ p) :
    gnameloop m dst p len pointer = ⟨dst, len, pointer, none, decide (p < m.ep)⟩ := by
  rw [gnameloop, if_neg]
  rintro ⟨h0, hp⟩
  rcases h with h | h
  · exact h0 h
  · omega

theorem gnameloop_label (h0 : m.mem p ≠ 0) (hp : p < m.ep) (hc : (m.mem p).toNat / 2 ^ 6 = 0)
    (hlong : ¬ Long dst.length len (m.mem p).toNat) :
    gnameloop m dst p len pointer =
      let q := p + 1 + (m.mem p).toNat
      let len' := if pointer = 0 then len + ((m.mem p).toNat + 1) else len
      if m.mem q = 0 then (gnameloop m (written m dst p len) q len' pointer).after (decide (q < m.ep))
      else if Domlen ≤ (written m dst p len).length then
        ⟨written m dst p len, len, pointer, some (.toolong (Domlen - (written m dst p len).length) 2
          "more name components but no bytes left"), decide (q < m.ep)⟩
      else (gnameloop m (written m dst p len ++ [46]) q len' pointer).after (decide (q < m.ep)) := by
  have hlong' : ¬ (decide (len + (m.mem p).toNat < Domlen - 1) = true ∧
      ((m.mem p).toNat : ℤ) > Domlen - dst.length) := by
    rintro ⟨h1, h2⟩
    exact hlong ⟨of_decide_eq_true h1, by omega⟩
  have hhere : ∀ b : Bool, (decide (p < m.ep) && (b || decide (p + 1 + (m.mem p).toNat ≤ m.ep)) &&
      decide (p + 1 + (m.mem p).toNat < m.ep)) = decide (p + 1 + (m.mem p).toNat < m.ep) := by
    intro b
    by_cases hq : p + 1 + (m.mem p).toNat < m.ep
    · simp [hp, hq, hq.le]
    · simp [hq]
  rw [gnameloop, if_pos ⟨h0, hp⟩]
  dsimp only
  rw [if_pos hc, if_neg hlong', hhere]
  simp only [decide_eq_true_eq]
  by_cases hq : m.mem (p + 1 + (m.mem p).toNat) = 0
  · rw [if_neg (not_not.mpr hq), if_pos hq, written]
  · rw [if_pos hq, if_neg hq]
    rfl

theorem gnameloop_pointer (h0 : m.mem p ≠ 0) (hp : p < m.ep) (hc : (m.mem p).toNat / 2 ^ 6 = 3) (hpointer : pointer ≤ 10) :
    gnameloop m dst p len pointer =
      let off := (m.mem p).toNat % 2 ^ 6 * 2 ^ 8 + (m.mem (p + 1)).toNat
      if m.ep ≤ off then ⟨dst, len, pointer, some (.err "bad pointer"), decide (p + 1 < m.ep)⟩
      else (gnameloop m dst off len (pointer + 1)).after (decide (p + 1 < m.ep)) := by
  have hhere : (decide (p < m.ep) && decide (p + 1 < m.ep)) = decide (p + 1 < m.ep) := by
    rw [decide_eq_true hp, Bool.true_and]
  rw [gnameloop, if_pos ⟨h0, hp⟩]
  dsimp only
  rw [if_neg (by omega), if_neg (by omega), if_neg (by omega), if_neg (by omega), hhere]

theorem gnameloop_refused (h0 : m.mem p ≠ 0) (hp : p < m.ep) (hc : Refused m dst.length p len pointer) :
    ∃ e, gnameloop m dst p len pointer = ⟨dst, len, pointer, some e, true⟩ := by
  rw [gnameloop, if_pos ⟨h0, hp⟩, decide_eq_true hp]
  dsimp only
  rcases hc with ⟨h1, h2⟩ | ⟨h3, h10⟩ | ⟨hc, hlong⟩
  · rw [if_neg (by omega)]
    by_cases hc : (m.mem p).toNat / 2 ^ 6 = 1
    · exact ⟨_, by rw [if_pos hc]⟩
    · exact ⟨_, by rw [if_neg hc, if_pos (by omega)]⟩
  · exact ⟨_, by rw [if_neg (by omega), if_neg (by omega), if_neg (by omega), if_pos h10]⟩
  · refine ⟨_, by rw [if_pos hc, if_pos ⟨decide_eq_true hlong.1, ?_⟩]⟩
    have := hlong.2
    omega

/-- Induction along a name, by what stands at `p`. -/
theorem gnameloop_rec {motive : List UInt8 → ℕ → ℕ → ℕ → Prop}
    (stop : ∀ dst p len pointer, m.mem p = 0 ∨ m.ep ≤ p → motive dst p len pointer)
    (refused : ∀ dst p len pointer, m.mem p ≠ 0 → p < m.ep → Refused m dst.length p len pointer →
      motive dst p len pointer)
    (label : ∀ dst p len pointer, m.mem p ≠ 0 → p < m.ep → (m.mem p).toNat / 2 ^ 6 = 0 →
      ¬ Long dst.length len (m.mem p).toNat →
      (m.mem (p + 1 + (m.mem p).toNat) = 0 → motive (written m dst p len) (p + 1 + (m.mem p).toNat)
        (if pointer = 0 then len + ((m.mem p).toNat + 1) else len) pointer) →
      (m.mem (p + 1 + (m.mem p).toNat) ≠ 0 → (written m dst p len).length < Domlen →
        motive (written m dst p len ++ [46]) (p + 1 + (m.mem p).toNat)
          (if pointer = 0 then len + ((m.mem p).toNat + 1) else len) pointer) → motive dst p len pointer)
    (pointers : ∀ dst p len pointer, m.mem p ≠ 0 → p < m.ep → (m.mem p).toNat / 2 ^ 6 = 3 → pointer ≤ 10 →
      ((m.mem p).toNat % 2 ^ 6 * 2 ^ 8 + (m.mem (p + 1)).toNat < m.ep →
        motive dst ((m.mem p).toNat % 2 ^ 6 * 2 ^ 8 + (m.mem (p + 1)).toNat) len (pointer + 1)) →
      motive dst p len pointer) (dst : List UInt8) (p len pointer : ℕ) : motive dst p len pointer := by
  obtain ⟨d, hd⟩ : ∃ d, 11 - pointer = d := ⟨_, rfl⟩
  obtain ⟨r, hr⟩ : ∃ r, m.ep - p = r := ⟨_, rfl⟩
  induction d using Nat.strong_induction_on generalizing dst p len pointer r with
  | _ d ihd =>
    induction r using Nat.strong_induction_on generalizing dst p len with
    | _ r ihr =>
      by_cases h0 : m.mem p = 0 ∨ m.ep ≤ p
      · exact stop dst p len pointer h0
      obtain ⟨h0, hp⟩ := not_or.mp h0
      have hp := not_le.mp hp
      have hc : (m.mem p).toNat / 2 ^ 6 ≤ 3 := by
        have := (m.mem p).toNat_lt
        omega
      by_cases hlabel : (m.mem p).toNat / 2 ^ 6 = 0
      · by_cases hlong : Long dst.length len (m.mem p).toNat
        · exact refused _ _ _ _ h0 hp (.inr (.inr ⟨hlabel, hlong⟩))
        · exact label _ _ _ _ h0 hp hlabel hlong (fun _ => ihr _ (by omega) _ _ _ rfl)
            fun _ _ => ihr _ (by omega) _ _ _ rfl
      · by_cases hpointer : (m.mem p).toNat / 2 ^ 6 = 3 ∧ pointer ≤ 10
        · exact pointers _ _ _ _ h0 hp hpointer.1 hpointer.2 fun _ => ihd _ (by omega) _ _ _ _ rfl _ rfl
        · exact refused _ _ _ _ h0 hp (by rw [Refused]; omega)

/-- All that `gname` looks at lies in the message where the name does. -/
theorem gnameloop_inside : (gnameloop m dst p len pointer).inside = true ↔ NameIn m dst.length p len pointer := by
  induction dst, p, len, pointer using gnameloop_rec (m := m) with
  | stop dst p len pointer h =>
    rw [gnameloop_end h, decide_eq_true_iff]
    rcases h with h | h
    · exact (nameIn_zero h).symm
    · exact ⟨fun hp => absurd hp (not_lt.mpr h), NameIn.lt⟩
  | refused dst p len pointer h0 hp hc =>
    obtain ⟨e, he⟩ := gnameloop_refused h0 hp hc
    rw [he]
    exact ⟨fun _ => .refused hp h0 hc, fun _ => rfl⟩
  | label dst p len pointer h0 hp hc hlong ih0 ih1 =>
    rw [gnameloop_label h0 hp hc hlong, nameIn_label h0 hc hlong]
    dsimp only
    split
    · next hq =>
      rw [Name.after, Bool.and_eq_true, decide_eq_true_iff, ih0 hq, nameIn_zero hq]
      exact ⟨fun h => ⟨h.1, fun h' => absurd hq h'⟩, fun h => ⟨h.1, h.1⟩⟩
    · next hq =>
      rw [written_length] at ih1 ⊢
      split
      · next hfull =>
        rw [decide_eq_true_iff]
        exact ⟨fun h => ⟨h, fun _ h' => absurd hfull (not_le.mpr h')⟩, fun h => h.1⟩
      · next hfull =>
        have h1 := ih1 hq (not_le.mp hfull)
        rw [List.length_append, written_length] at h1
        rw [Name.after, Bool.and_eq_true, decide_eq_true_iff, h1]
        exact ⟨fun h => ⟨h.1, fun _ _ => h.2⟩, fun h => ⟨h.1, h.2 hq (not_le.mp hfull)⟩⟩
  | pointers dst p len pointer h0 hp hc hpointer ih =>
    rw [gnameloop_pointer h0 hp hc hpointer, nameIn_pointer hc hpointer]
    dsimp only
    split
    · next hoff =>
      rw [decide_eq_true_iff]
      exact ⟨fun h => ⟨h, fun h' => absurd hoff (not_le.mpr h')⟩, fun h => h.1⟩
    · next hoff =>
      rw [Name.after, Bool.and_eq_true, decide_eq_true_iff, ih (not_le.mp hoff)]
      exact ⟨fun h => ⟨h.1, fun _ => h.2⟩, fun h => ⟨h.1, h.2 (not_le.mp hoff)⟩⟩

/-- What `gname` writes ends before the last byte of its destination. -/
theorem gnameloop_length (h : dst.length ≤ Domlen) : (gnameloop m dst p len pointer).dst.length ≤ Domlen := by
  induction dst, p, len, pointer using gnameloop_rec (m := m) with
  | stop dst p len pointer h0 => rwa [gnameloop_end h0]
  | refused dst p len pointer h0 hp hc =>
    obtain ⟨e, he⟩ := gnameloop_refused h0 hp hc
    rwa [he]
  | label dst p len pointer h0 hp hc hlong ih0 ih1 =>
    have hw : (written m dst p len).length ≤ Domlen := by
      rw [written_length, copied]
      split
      · next hshort => exact not_lt.mp fun h' => hlong ⟨hshort, h'⟩
      · exact h
    rw [gnameloop_label h0 hp hc hlong]
    dsimp only
    split
    · next hq => exact ih0 hq hw
    · next hq =>
      split
      · exact hw
      · next hfull =>
        refine ih1 hq (not_le.mp hfull) ?_
        rw [List.length_append]
        exact not_le.mp hfull
  | pointers dst p len pointer h0 hp hc hpointer ih =>
    rw [gnameloop_pointer h0 hp hc hpointer]
    dsimp only
    split
    · exact h
    · next hoff => exact ih (not_le.mp hoff) h

end Names

end Petele.Dns
