import Petele.Regexp.Texts
import Mathlib.Logic.Relation

/-! The states that a matcher comes to, and that it comes to an end. -/

namespace Petele.Regexp

section Walks

variable {t : Text} {s p q c : ℕ}

/-- The place is that of a character, and the other is the next one. -/
def Text.Next (t : Text) (s s' : ℕ) : Prop := t.bol ≤ s ∧ s < t.stop ∧ s' = s + (t.rune s).2

/-- From character to character. -/
def Text.Walk (t : Text) : ℕ → ℕ → Prop := Relation.ReflTransGen t.Next

namespace Text.Lawful

/-- The place of a character that is found. -/
theorem find_range (h : t.Lawful) (hc : c < Runeself) (hs : t.bol ≤ s) (hle : s ≤ t.stop) (hf : t.find s c = some p) :
    s ≤ p ∧ p ≤ t.stop ∧ (t.rune p).1 = c := by
  induction hn : t.stop - s using Nat.strong_induction_on generalizing s with
  | _ n ih =>
    rcases hle.lt_or_eq with hlt | rfl
    · by_cases hr : (t.rune s).1 = c
      · rw [h.here s c hs hlt hc hr] at hf
        obtain rfl := Option.some.inj hf
        exact ⟨le_rfl, hlt.le, hr⟩
      · obtain ⟨hpos, hnext⟩ := h.width s hs hlt
        rw [h.later s c hs hlt hc hr] at hf
        obtain ⟨hsp, hrest⟩ := ih _ (by omega) (by omega) hnext hf rfl
        exact ⟨by omega, hrest⟩
    · rcases eq_or_ne c 0 with rfl | hc0
      · rw [h.nul] at hf
        obtain rfl := Option.some.inj hf
        exact ⟨le_rfl, le_rfl, h.zero⟩
      · rw [h.missing c hc0] at hf
        exact nomatch hf

theorem next (h : t.Lawful) (hn : t.Next s p) : s < p ∧ t.bol ≤ p ∧ p ≤ t.stop := by
  obtain ⟨hb, hlt, rfl⟩ := hn
  have hw := h.width s hb hlt
  omega

theorem walk_le (h : t.Lawful) (hw : t.Walk s p) : s ≤ p := by
  induction hw with
  | refl => exact le_rfl
  | tail _ hn ih => exact ih.trans (h.next hn).1.le

theorem walk_stop (h : t.Lawful) (hs : s ≤ t.stop) (hw : t.Walk s p) : p ≤ t.stop := by
  induction hw with
  | refl => exact hs
  | tail _ hn _ => exact (h.next hn).2.2

/-- Two places that are both come to are on one way. -/
theorem walk_total (h : t.Lawful) (hp : t.Walk s p) (hq : t.Walk s q) (hle : p ≤ q) : t.Walk p q := by
  induction hp using Relation.ReflTransGen.head_induction_on with
  | refl => exact hq
  | head hn hw ih =>
    rcases Relation.ReflTransGen.cases_head hq with rfl | ⟨s', hn', hq'⟩
    · have hlt := (h.next hn).1
      have hle' := h.walk_le hw
      omega
    · obtain rfl := hn.2.2.trans hn'.2.2.symm
      exact ih hq'

/-- The search for a character goes by all others. -/
theorem find_walk (h : t.Lawful) (hc : c < Runeself) (hb : t.bol ≤ s) (hs : s ≤ t.stop) (hf : t.find s c = some p) :
    t.Walk s p ∧ ∀ q, t.Walk s q → q < p → (t.rune q).1 ≠ c := by
  induction hn : t.stop - s using Nat.strong_induction_on generalizing s with
  | _ n ih =>
    rcases hs.lt_or_eq with hlt | rfl
    · by_cases hr : (t.rune s).1 = c
      · rw [h.here s c hb hlt hc hr] at hf
        obtain rfl := Option.some.inj hf
        exact ⟨.refl, fun q hq hlt => absurd (h.walk_le hq) (by omega)⟩
      · have hnext : t.Next s (s + (t.rune s).2) := ⟨hb, hlt, rfl⟩
        obtain ⟨hgt, hb', hs'⟩ := h.next hnext
        rw [h.later s c hb hlt hc hr] at hf
        obtain ⟨hw, hnone⟩ := ih _ (by omega) hb' hs' hf rfl
        refine ⟨.head hnext hw, fun q hq hlt' => ?_⟩
        rcases Relation.ReflTransGen.cases_head hq with rfl | ⟨s', hn', hq'⟩
        · exact hr
        · obtain rfl := hn'.2.2
          exact hnone q hq' hlt'
    · obtain ⟨-, hle, -⟩ := h.find_range hc hb hs hf
      have hge := (h.find_range hc hb hs hf).1
      obtain rfl : p = t.stop := by omega
      exact ⟨.refl, fun q hq hlt => absurd (h.walk_le hq) (by omega)⟩

theorem find_none (h : t.Lawful) (hc : c < Runeself) (hb : t.bol ≤ s) (hs : s ≤ t.stop) (hf : t.find s c = none) (hw : t.Walk s q) :
    (t.rune q).1 ≠ c := by
  induction hw using Relation.ReflTransGen.head_induction_on with
  | refl =>
    rintro hr
    rcases hs.lt_or_eq with hlt | rfl
    · rw [h.here q c hb hlt hc hr] at hf
      exact nomatch hf
    · rw [h.zero] at hr
      rw [← hr, h.nul] at hf
      exact nomatch hf
  | head hn hw ih =>
    rename_i a a'
    by_cases hr : (t.rune a).1 = c
    · rw [h.here a c hb hn.2.1 hc hr] at hf
      exact nomatch hf
    · obtain ⟨-, hb', hs'⟩ := h.next hn
      rw [h.later a c hb hn.2.1 hc hr, ← hn.2.2] at hf
      exact ih hb' hs' hf

end Text.Lawful

end Walks

namespace Machine

variable {m : Machine} {st st' : State} {out : Out}

structure Ok (m : Machine) : Prop where
  text : m.text.Lawful
  low : m.startchar < Runeself
  bol : m.text.bol ≤ m.starts
  stop : m.starts ≤ m.text.stop

theorem Ok.resize (h : m.Ok) (size : ℕ) : ({ m with size := size } : Machine).Ok := ⟨h.text, h.low, h.bol, h.stop⟩

/-- The state is at a place of the string. -/
structure Inside (m : Machine) (s : ℕ) : Prop where
  bol : m.text.bol ≤ s
  stop : s ≤ m.text.stop

theorem jump_inside (h : m.Ok) (hi : m.Inside st.s) {p : ℕ} (hj : m.jump st = some p) : st.s ≤ p ∧ m.Inside p := by
  have hstay : some st.s = some p → st.s ≤ p ∧ m.Inside p := by
    rintro ⟨⟩
    exact ⟨le_rfl, hi⟩
  have hb := hi.bol
  rw [jump] at hj
  split at hj
  · split at hj
    · exact hstay hj
    · obtain ⟨q, hq, hj⟩ := Option.bind_eq_some_iff.mp hj
      split at hj
      · exact nomatch hj
      · obtain rfl := Option.some.inj hj
        obtain ⟨hle, hlt, -⟩ := h.text.find_range h.low hi.bol hi.stop hq
        exact ⟨hle, by omega, hlt⟩
    · split at hj
      · exact hstay hj
      · obtain ⟨q, hq, hj⟩ := Option.bind_eq_some_iff.mp hj
        split at hj
        · exact nomatch hj
        · obtain rfl := Option.some.inj hj
          obtain ⟨hle, hlt, hr⟩ := h.text.find_range (by decide) hi.bol hi.stop hq
          have hne : q ≠ m.text.stop := by
            rintro rfl
            exact absurd (h.text.zero.symm.trans hr) (by decide)
          exact ⟨by omega, by omega, by omega⟩
  · exact hstay hj

theorem advance_inside (h : m.Ok) {p : ℕ} {c : Lists} (hi : m.Inside p) (ha : m.advance p c = .inr st) :
    p < st.s ∧ m.Inside st.s := by
  rw [advance] at ha
  simp only at ha
  split at ha
  · exact nomatch ha
  · rename_i hgo
    cases ha
    rw [not_or] at hgo
    have hlt : p < m.text.stop := by
      rcases hi.stop.lt_or_eq with hlt | rfl
      · exact hlt
      · exact absurd h.text.zero hgo.2
    obtain ⟨hpos, hle⟩ := h.text.width p hi.bol hlt
    exact ⟨Nat.lt_add_of_pos_right hpos, hi.bol.trans (Nat.le_add_right _ _), hle⟩

/-- What a turn does when it does not come to an end. -/
theorem step_eq_inr (hs : m.step st = .inr st') :
    ∃ p c, m.jump st = some p ∧ m.execute { st with s := p } = .ok c ∧ m.advance p c = .inr st' := by
  rw [step] at hs
  split at hs
  · cases hs
  · rename_i p hp
    rw [turn] at hs
    split at hs
    · cases hs
    · cases hs
    · cases hs
    · cases hs
    · rename_i c hc
      exact ⟨p, c, hp, hc, hs⟩

theorem step_inside (h : m.Ok) (hi : m.Inside st.s) (hs : m.step st = .inr st') : st.s < st'.s ∧ m.Inside st'.s := by
  obtain ⟨p, c, hp, -, ha⟩ := step_eq_inr hs
  obtain ⟨hle, hip⟩ := jump_inside h hi hp
  obtain ⟨hlt, hi'⟩ := advance_inside h hip ha
  exact ⟨hle.trans_lt hlt, hi'⟩

/-- The states from one on. -/
def Reaches (m : Machine) : State → State → Prop := Relation.ReflTransGen fun st st' => m.step st = .inr st'

theorem Reaches.inside (h : m.Ok) (hi : m.Inside st.s) (hr : m.Reaches st st') : m.Inside st'.s := by
  induction hr with
  | refl => exact hi
  | tail _ hs ih => exact (step_inside h ih hs).2

/-- A loop with turns enough ends as one of the states from its own on does. -/
theorem loop_eq_iff (h : m.Ok) (fuel : ℕ) (hi : m.Inside st.s) (hf : m.text.stop < st.s + fuel) :
    m.loop fuel st = out ↔ ∃ st', m.Reaches st st' ∧ m.step st' = .inl out := by
  induction fuel generalizing st with
  | zero =>
    have hle := hi.stop
    omega
  | succ fuel ih =>
    rw [loop]
    cases hs : m.step st with
    | inl o =>
      simp only
      constructor
      · rintro rfl
        exact ⟨st, .refl, hs⟩
      · rintro ⟨st', hr, hs'⟩
        rcases Relation.ReflTransGen.cases_head hr with rfl | ⟨st₁, h₁, -⟩
        · rw [hs] at hs'
          exact Sum.inl.inj hs'
        · exact nomatch hs.symm.trans h₁
    | inr st₁ =>
      obtain ⟨hlt, hi₁⟩ := step_inside h hi hs
      simp only
      rw [ih hi₁ (by omega)]
      constructor
      · rintro ⟨st', hr, hs'⟩
        exact ⟨st', .head hs hr, hs'⟩
      · rintro ⟨st', hr, hs'⟩
        rcases Relation.ReflTransGen.cases_head hr with rfl | ⟨st₂, h₂, hr⟩
        · exact nomatch hs.symm.trans hs'
        · rw [hs] at h₂
          obtain rfl := Sum.inr.inj h₂
          exact ⟨st', hr, hs'⟩

theorem init_inside (h : m.Ok) (mp : Option (List Resub)) : m.Inside (m.init mp).s := ⟨h.bol, h.stop⟩

theorem run_eq_iff (h : m.Ok) (mp : Option (List Resub)) :
    m.run mp = out ↔ ∃ st, m.Reaches (m.init mp) st ∧ m.step st = .inl out := by
  have hle := h.stop
  exact loop_eq_iff h _ (init_inside h mp) (by simp only [init]; omega)

end Machine

section Matchers

variable (progp : Reprog) (ms : ℕ) (mp : Option (List Resub))

theorem shortcut_low : (shortcut progp).2 < Runeself := by
  rw [shortcut]
  split
  · split
    · assumption
    · decide
  · decide
  · decide

/-- The start that the user gives is in the string. -/
structure Within (t : Text) : Prop where
  bol : t.bol ≤ startof ms mp t.bol
  stop : startof ms mp t.bol ≤ t.stop

theorem regexec1_ok (t : Chars) (h : Within ms mp t.text) : (regexec1 progp ms mp t).Ok :=
  ⟨t.lawful, shortcut_low progp, h.bol, h.stop⟩

theorem rregexec1_ok (t : Runes) (h : Within ms mp t.text) : (rregexec1 progp ms mp t).Ok :=
  ⟨t.lawful, shortcut_low progp, h.bol, h.stop⟩

end Matchers

end Petele.Regexp
