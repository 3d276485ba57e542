import Petele.Regexp.Regexec

/-! What the matchers need of a string: it ends, and a search for a character comes to it from rune to rune. -/

namespace Petele.Regexp

open Libc

structure Text.Lawful (t : Text) : Prop where
  pos : 0 < t.bol
  zero : (t.rune t.stop).1 = 0
  char : ∀ s, t.bol ≤ s → s < t.stop → (t.rune s).1 ≠ 0
  width : ∀ s, t.bol ≤ s → s < t.stop → 0 < (t.rune s).2 ∧ s + (t.rune s).2 ≤ t.stop
  ascii : ∀ s, t.bol ≤ s → s < t.stop → (t.rune s).1 < Runeself → (t.rune s).2 = 1
  here : ∀ s c, t.bol ≤ s → s < t.stop → c < Runeself → (t.rune s).1 = c → t.find s c = some s
  later : ∀ s c, t.bol ≤ s → s < t.stop → c < Runeself → (t.rune s).1 ≠ c → t.find s c = t.find (s + (t.rune s).2) c
  nul : t.find t.stop 0 = some t.stop
  missing : ∀ c, c ≠ 0 → t.find t.stop c = none
  newline : ∀ s, t.bol ≤ s → s < t.stop → (t.nlbefore (s + (t.rune s).2) = true ↔ (t.rune s).1 = '\n'.toNat)

section Search

variable {α : Type} {p : α → Bool} {l front rest : List α}

theorem find_here {x : α} {c : ℕ} (bol s : ℕ) (hc : c ≠ 0) (hl : l.drop (s - bol) = x :: rest) (hp : p x = true) :
    (if c = 0 then some (bol + l.length) else ((l.drop (s - bol)).findIdx? p).map (s + ·)) = some s := by
  rw [if_neg hc, hl, List.findIdx?_cons, if_pos hp]
  rfl

/-- The search goes on behind elements that it does not look for. -/
theorem find_later {bol s c : ℕ} (hs : bol ≤ s) (hl : l.drop (s - bol) = front ++ rest) (hp : c ≠ 0 → ∀ x ∈ front, p x = false) :
    (if c = 0 then some (bol + l.length) else ((l.drop (s - bol)).findIdx? p).map (s + ·)) =
      if c = 0 then some (bol + l.length) else ((l.drop (s + front.length - bol)).findIdx? p).map (s + front.length + ·) := by
  split
  · rfl
  rename_i hc
  have hrest : l.drop (s + front.length - bol) = rest := by
    rw [show s + front.length - bol = s - bol + front.length by omega, ← List.drop_drop, hl, List.drop_left]
  rw [hrest, hl, List.findIdx?_append, List.findIdx?_eq_none_iff.mpr (hp hc), Option.none_or, Option.map_map]
  congr 1
  funext i
  simp only [Function.comp_apply]
  omega

end Search

section Bytes

variable {t : Chars} {s : ℕ}

/-- The bytes of a rune: one of ASCII, or a run of bytes none of which is one. -/
structure Front (t : Chars) (s : ℕ) (front rest : List UInt8) : Prop where
  split : t.bytes.drop (s - t.bol) = front ++ rest
  length : front.length = (t.text.rune s).2
  ascii : (∃ b, front = [b] ∧ b.toNat < 0x80 ∧ (t.text.rune s).1 = b.toNat) ∨
    front ≠ [] ∧ 0x80 ≤ (t.text.rune s).1 ∧ ∀ x ∈ front, 0x80 ≤ x.toNat

theorem Chars.front (hs : t.bol ≤ s) (hlt : s < t.text.stop) : ∃ front rest, Front t s front rest := by
  have hin : s - t.bol < t.bytes.length := by
    rw [show t.text.stop = t.bol + t.bytes.length from rfl] at hlt
    omega
  have hdrop := List.drop_eq_getElem_cons hin
  generalize hb : t.bytes[s - t.bol] = b at hdrop
  generalize htail : t.bytes.drop (s - t.bol + 1) = tail at hdrop
  have hat : t.at s = b :: tail ++ [0] := by
    rw [Chars.at, List.drop_append_of_le_length hin.le, hdrop]
  obtain ⟨r, hr, hpos, hle, hcase⟩ := chartorune_ascii b tail
  have hrune : t.text.rune s = r := by
    rw [show t.text.rune s = if ((t.at s).headD 0).toNat < Runeself then (((t.at s).headD 0).toNat, 1)
      else (chartorune (t.at s)).getD (0, 1) from rfl, hat, hr]
    rw [List.cons_append, List.headD_cons, Option.getD_some]
    rcases hcase with ⟨hlow, rfl⟩ | ⟨hhigh, hall⟩
    · rw [if_pos (show b.toNat < Runeself from hlow)]
    · have hbig := hall b (by rw [← Nat.succ_pred_eq_of_pos hpos, List.take_succ_cons]; exact List.mem_cons_self)
      rw [if_neg (show ¬ b.toNat < Runeself from Nat.not_lt.mpr hbig)]
  refine ⟨(b :: tail).take r.2, (b :: tail).drop r.2, by rw [hdrop, List.take_append_drop], ?_, ?_⟩
  · rw [hrune, List.length_take, List.length_cons, min_eq_left hle]
  · rw [hrune]
    rcases hcase with ⟨hlow, rfl⟩ | ⟨hhigh, hall⟩
    · exact .inl ⟨b, rfl, hlow, rfl⟩
    · refine .inr ⟨fun hnil => ?_, hhigh, hall⟩
      rw [← Nat.succ_pred_eq_of_pos hpos, List.take_succ_cons] at hnil
      exact List.cons_ne_nil _ _ hnil

theorem Front.last {front rest : List UInt8} (h : Front t s front rest) (hs : t.bol ≤ s) (hne : front ≠ []) :
    t.bytes[s + (t.text.rune s).2 - 1 - t.bol]? = some (front.getLast hne) := by
  have hpos := List.length_pos_iff.mpr hne
  rw [← h.length, show s + front.length - 1 - t.bol = s - t.bol + (front.length - 1) by omega, ← List.getElem?_drop, h.split,
    List.getElem?_append_left (by omega), List.getLast_eq_getElem, List.getElem?_eq_getElem]

theorem Chars.rune_ne_zero (hs : t.bol ≤ s) (hlt : s < t.text.stop) : (t.text.rune s).1 ≠ 0 := by
  obtain ⟨front, rest, h⟩ := Chars.front hs hlt
  rcases h.ascii with ⟨b, rfl, -, hr⟩ | ⟨-, hr, -⟩
  · rw [hr]
    intro hb
    have hmem : b ∈ t.bytes := List.mem_of_mem_drop (by rw [h.split]; exact List.mem_cons_self)
    rw [UInt8.toNat_inj.mp (hb.trans UInt8.toNat_zero.symm)] at hmem
    exact t.nul hmem
  · omega

theorem Chars.lawful (t : Chars) : t.text.Lawful where
  pos := t.pos
  zero := by
    have hat : t.at t.text.stop = [0] := by
      rw [Chars.at, show t.text.stop = t.bol + t.bytes.length from rfl, Nat.add_sub_cancel_left, List.drop_left]
    rw [show t.text.rune t.text.stop = if ((t.at t.text.stop).headD 0).toNat < Runeself then (((t.at t.text.stop).headD 0).toNat, 1)
      else (chartorune (t.at t.text.stop)).getD (0, 1) from rfl, hat]
    rfl
  char s hs hlt := Chars.rune_ne_zero hs hlt
  ascii s hs hlt hlow := by
    obtain ⟨front, rest, h⟩ := Chars.front hs hlt
    rw [← h.length]
    rcases h.ascii with ⟨b, rfl, -, -⟩ | ⟨-, hhigh, -⟩
    · rfl
    · rw [Runeself] at hlow
      omega
  width s hs hlt := by
    obtain ⟨front, rest, h⟩ := Chars.front hs hlt
    have hlen := congrArg List.length h.split
    rw [List.length_drop, List.length_append] at hlen
    have hpos : 0 < front.length := by
      rcases h.ascii with ⟨b, rfl, -⟩ | ⟨hne, -⟩
      · exact Nat.one_pos
      · exact List.length_pos_iff.mpr hne
    rw [← h.length, show t.text.stop = t.bol + t.bytes.length from rfl]
    exact ⟨hpos, by omega⟩
  here s c hs hlt hc hr := by
    obtain ⟨front, rest, h⟩ := Chars.front hs hlt
    rcases h.ascii with ⟨b, rfl, -, hb⟩ | ⟨-, hhigh, -⟩
    · exact find_here t.bol s (by rw [← hr]; exact Chars.rune_ne_zero hs hlt) h.split (by rw [decide_eq_true_iff, ← hb, hr])
    · rw [Runeself] at hc
      omega
  later s c hs hlt hc hr := by
    obtain ⟨front, rest, h⟩ := Chars.front hs hlt
    rw [← h.length]
    refine find_later hs h.split fun _ x hx => ?_
    rw [decide_eq_false_iff_not]
    rcases h.ascii with ⟨b, rfl, -, hb⟩ | ⟨-, -, hall⟩
    · rw [List.mem_singleton] at hx
      rw [hx, ← hb]
      exact hr
    · have hx := hall x hx
      rw [Runeself] at hc
      omega
  nul := rfl
  missing c hc := by
    rw [show t.text.find t.text.stop c = if c = 0 then some (t.bol + t.bytes.length) else
        ((t.bytes.drop (t.text.stop - t.bol)).findIdx? fun b => b.toNat = c).map (t.text.stop + ·) from rfl, if_neg hc,
      show t.text.stop - t.bol = t.bytes.length from Nat.add_sub_cancel_left _ _, List.drop_length]
    rfl
  newline s hs hlt := by
    obtain ⟨front, rest, h⟩ := Chars.front hs hlt
    rw [show t.text.nlbefore (s + (t.text.rune s).2) = decide (t.bytes[s + (t.text.rune s).2 - 1 - t.bol]? = some 10) from rfl,
      decide_eq_true_iff]
    rcases h.ascii with ⟨b, rfl, -, hb⟩ | ⟨hne, hhigh, hall⟩
    · rw [h.last hs (List.cons_ne_nil _ _), hb]
      constructor
      · intro heq
        rw [List.getLast_singleton, Option.some.injEq] at heq
        rw [heq]
        rfl
      · intro heq
        rw [List.getLast_singleton, UInt8.toNat_inj.mp (heq.trans rfl : b.toNat = (10 : UInt8).toNat)]
    · rw [h.last hs hne]
      have hlast := hall _ (List.getLast_mem hne)
      refine iff_of_false (fun heq => ?_) fun heq => ?_
      · rw [Option.some.inj heq] at hlast
        exact absurd hlast (by decide)
      · rw [heq] at hhigh
        exact absurd hhigh (by decide)

end Bytes

section Runes

theorem Runes.front {t : Runes} {s : ℕ} (hs : t.bol ≤ s) (hlt : s < t.text.stop) :
    t.runes.drop (s - t.bol) = (t.text.rune s).1 :: t.runes.drop (s - t.bol + 1) := by
  have hin : s - t.bol < t.runes.length := by
    rw [show t.text.stop = t.bol + t.runes.length from rfl] at hlt
    omega
  rw [List.drop_eq_getElem_cons hin, show (t.text.rune s).1 = t.runes.getD (s - t.bol) 0 from rfl, List.getD_eq_getElem _ _ hin]

theorem Runes.rune_ne_zero {t : Runes} {s : ℕ} (hs : t.bol ≤ s) (hlt : s < t.text.stop) : (t.text.rune s).1 ≠ 0 := by
  intro hzero
  have hmem : (t.text.rune s).1 ∈ t.runes := List.mem_of_mem_drop (by rw [Runes.front hs hlt]; exact List.mem_cons_self)
  rw [hzero] at hmem
  exact t.nul hmem

theorem Runes.lawful (t : Runes) : t.text.Lawful where
  pos := t.pos
  zero := by
    rw [show (t.text.rune t.text.stop).1 = t.runes.getD (t.bol + t.runes.length - t.bol) 0 from rfl, Nat.add_sub_cancel_left,
      List.getD_eq_default _ _ le_rfl]
  char s hs hlt := Runes.rune_ne_zero hs hlt
  ascii s hs hlt hlow := rfl
  width s hs hlt := ⟨Nat.one_pos, hlt⟩
  here s c hs hlt hc hr := find_here t.bol s (by rw [← hr]; exact Runes.rune_ne_zero hs hlt) (Runes.front hs hlt) (decide_eq_true hr)
  later s c hs hlt hc hr := by
    have hsplit : t.runes.drop (s - t.bol) = [(t.text.rune s).1] ++ t.runes.drop (s - t.bol + 1) := Runes.front hs hlt
    refine find_later hs hsplit fun _ x hx => ?_
    rw [List.mem_singleton] at hx
    rw [hx]
    exact decide_eq_false hr
  nul := rfl
  missing c hc := by
    rw [show t.text.find t.text.stop c = if c = 0 then some (t.bol + t.runes.length) else
        ((t.runes.drop (t.text.stop - t.bol)).findIdx? fun r => r = c).map (t.text.stop + ·) from rfl, if_neg hc,
      show t.text.stop - t.bol = t.runes.length from Nat.add_sub_cancel_left _ _, List.drop_length]
    rfl
  newline s hs hlt := by
    have hget : t.runes[s - t.bol]? = some (t.text.rune s).1 := by
      rw [← List.head?_drop, Runes.front hs hlt, List.head?_cons]
    rw [show t.text.nlbefore (s + (t.text.rune s).2) = decide (t.runes[s + 1 - 1 - t.bol]? = some 10) from rfl, decide_eq_true_iff,
      Nat.add_sub_cancel, hget, Option.some.injEq]
    rfl

end Runes

end Petele.Regexp
