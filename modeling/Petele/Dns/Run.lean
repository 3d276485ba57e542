import Petele.Dns.Names

namespace Petele.Dns

/-- What is kept besides a `Scan` is the same. -/
structure Scan.Same (s s' : Scan) : Prop where
  inside : s'.inside = s.inside
  names : s'.names = s.names
  txts : s'.txts = s.txts

theorem Scan.Same.trans {s s' s'' : Scan} (h : s.Same s') (h' : s'.Same s'') : s.Same s'' :=
  ⟨h'.inside.trans h.inside, h'.names.trans h.names, h'.txts.trans h.txts⟩

section Getters

variable {m : Msg} {s : Scan} {n p : ℕ} {place : String}

theorem look_same (h : n = 0 ∨ p + n ≤ m.ep) : s.Same (look m s p n) := by
  refine ⟨?_, rfl, rfl⟩
  rcases h with h | h
  · simp [look, h]
  · simp [look, h]

theorem gnum_same : s.Same (gnum m n place s).2 := by
  rw [gnum]
  split
  · exact ⟨rfl, rfl, rfl⟩
  · split
    · exact ⟨rfl, rfl, rfl⟩
    · next h => exact (look_same (.inr (not_lt.mp h))).trans ⟨rfl, rfl, rfl⟩

theorem gaddr_same {verb : List UInt8 → List Char} : s.Same (gaddr m n verb place s).2 := by
  rw [gaddr]
  split
  · exact ⟨rfl, rfl, rfl⟩
  · split
    · exact ⟨rfl, rfl, rfl⟩
    · next h => exact (look_same (.inr (not_lt.mp h))).trans ⟨rfl, rfl, rfl⟩

theorem gbytes_same {n : ℤ} : s.Same (gbytes m n s).2 := by
  rw [gbytes]
  split
  · exact ⟨rfl, rfl, rfl⟩
  · split
    · exact ⟨rfl, rfl, rfl⟩
    · split
      · exact ⟨rfl, rfl, rfl⟩
      · have hn : s.p + n.toNat ≤ m.ep := by omega
        exact (look_same (.inr hn)).trans ⟨rfl, rfl, rfl⟩

/-- The scan behind the length of a string. -/
theorem counted_same : s.Same (if s.p < m.ep then { look m s s.p 1 with p := s.p + 1 } else s) := by
  split
  · next h => exact (look_same (.inr h)).trans ⟨rfl, rfl, rfl⟩
  · exact ⟨rfl, rfl, rfl⟩

theorem gcounted_same {illegal short : String} : s.Same (gcounted m place illegal short s).2 := by
  rw [gcounted]
  split
  · exact ⟨rfl, rfl, rfl⟩
  · dsimp only
    refine (counted_same (m := m)).trans ?_
    generalize (if s.p < m.ep then { look m s s.p 1 with p := s.p + 1 } else s) = s'
    generalize (if s.p < m.ep then (m.mem s.p).toNat else 0) = n'
    split
    · exact ⟨rfl, rfl, rfl⟩
    · next h =>
      split
      · exact ⟨rfl, rfl, rfl⟩
      · refine (look_same (p := s'.p) (n := n') (.inr (not_lt.mp h))).trans ?_
        split <;> exact ⟨rfl, rfl, rfl⟩

theorem gnum_err (h : (gnum m n place s).2.err = none) :
    s.err = none ∧ (gnum m n place s).2.p = s.p + n ∧ s.p + n ≤ m.ep := by
  rw [gnum] at h ⊢
  split at h
  · next hs =>
    rw [h] at hs
    cases hs
  · next hs =>
    split at h
    · cases h
    · next hn => exact ⟨h, by rw [if_neg hs, if_neg hn], not_lt.mp hn⟩

theorem gnum_spec (m : Msg) (n : ℕ) (place : String) (s : Scan) :
    ∃ x s', gnum m n place s = (x, s') ∧ s.Same s' ∧
      (s'.err = none → s.err = none ∧ s'.p = s.p + n ∧ s.p + n ≤ m.ep) :=
  ⟨_, _, rfl, gnum_same, gnum_err⟩

theorem gname_err (h : (gname m s).2.err = none) : s.err = none := by
  rw [gname] at h
  split at h
  · exact h
  · next hs => 
    rw [Bool.or_eq_true, not_or, Option.not_isSome_iff_eq_none] at hs
    exact hs.1

theorem gname_p : s.p ≤ (gname m s).2.p := by
  rw [gname]
  split
  · exact le_rfl
  · dsimp only
    split
    · dsimp only
      omega
    all_goals exact le_rfl

end Getters

namespace Outcome

variable {α β : Type} {P Q : Scan → Prop}

/-- A result is reached in a state with `P`, or a store through a nil pointer in one with `Q`. -/
def Holds (P Q : Scan → Prop) : Outcome α → Prop
  | ok _ s => P s
  | nil s => Q s
  | hang _ => False

theorem Holds.bind {x : Outcome α} {f : α → Scan → Outcome β} (hx : x.Holds P Q)
    (hf : ∀ a s, P s → (f a s).Holds P Q) : (x.bind f).Holds P Q := by
  cases x with
  | ok a s => exact hf a s hx
  | nil s => exact hx
  | hang s => exact hx

end Outcome

/-- `P` is kept by whatever the parser reads, where `Q` is what holds before a store through a nil pointer. -/
structure Kept (m : Msg) (P Q : Scan → Prop) : Prop where
  same : ∀ {s s' : Scan}, s.Same s' → P s → P s'
  name : ∀ {s : Scan}, P s → P (gname m s).2
  txts : ∀ {s : Scan} {len : ℕ}, s.err = none → s.p + len ≤ m.ep → P s → (getfield m s.p len s .txts).Holds P Q

namespace Kept

variable {m : Msg} {P Q : Scan → Prop} {s : Scan} {data len now : ℕ} {newline : DN → Bool} {what : What}

theorem getfield_holds (h : Kept m P Q) (hs : P s) {f : Field} (hf : f ≠ .txts) :
    (getfield m data len s f).Holds P Q := by
  cases f with
  | short => exact h.same gnum_same hs
  | char => exact h.same gnum_same hs
  | long => exact h.same gnum_same hs
  | sym => exact h.same gcounted_same hs
  | name => exact h.name hs
  | v4 =>
    have hv4 : s.Same (gv4addr m s).2 := gaddr_same
    exact h.same hv4 hs
  | v6 =>
    have hv6 : s.Same (gv6addr m s).2 := gaddr_same
    exact h.same hv6 hs
  | bytes => exact h.same gbytes_same hs
  | txts => exact absurd rfl hf

theorem getfields_holds (h : Kept m P Q) {fs : List Field} (hfs : .txts ∉ fs) (hs : P s) :
    (getfields m data len fs s).Holds P Q := by
  induction fs generalizing s with
  | nil => exact hs
  | cons f fs ih =>
    obtain ⟨hf, hfs⟩ := not_or.mp (mt List.mem_cons.mpr hfs)
    exact (h.getfield_holds hs (Ne.symm hf)).bind fun v s hs => (ih hfs hs).bind fun vs s hs => hs

/-- Strings are all that there is in the record with strings. -/
theorem fields_txts {type : ℕ} {fs : List Field} (h : fields type = some fs) : fs = [.txts] ∨ .txts ∉ fs := by
  rw [fields.eq_def] at h
  split at h <;> cases h <;> decide

theorem record_holds (h : Kept m P Q) {type : ℕ} {fs : List Field} (hfs : fields type = some fs)
    (herr : s.err = none) (hlen : s.p + len ≤ m.ep) (hs : P s) : (getfields m s.p len fs s).Holds P Q := by
  rcases fields_txts hfs with rfl | hfs
  · exact (h.txts herr hlen hs).bind fun v s hs => hs
  · exact h.getfields_holds hfs hs

theorem mstypehack_spec (s : Scan) (type : ℕ) :
    ∃ type' s', mstypehack s type = (type', s') ∧ s.Same s' ∧ s'.err = s.err ∧ s'.p = s.p := by
  rw [mstypehack]
  split
  · split <;> exact ⟨_, _, rfl, ⟨rfl, rfl, rfl⟩, rfl, rfl⟩
  · exact ⟨_, _, rfl, ⟨rfl, rfl, rfl⟩, rfl, rfl⟩

theorem failed_err (hs : ¬ s.failed = true) : s.err = none := by
  rw [Scan.failed, Bool.or_eq_true, Bool.or_eq_true, not_or, not_or, Option.not_isSome_iff_eq_none] at hs
  exact hs.1.1

/-- Each record of an unknown type takes bytes of the message. -/
theorem convM2RR_holds (h : Kept m P Q) {k : ℕ} (hk : m.ep - s.p < k) (hs : P s) :
    (convM2RR m now newline what k s).Holds P Q := by
  induction k generalizing s with
  | zero => omega
  | succ k ih =>
    rw [convM2RR]
    obtain ⟨dname, s1, e1⟩ : ∃ a b, gname m s = (a, b) := ⟨_, _, rfl⟩
    have hp1 : s.p ≤ (gname m s).2.p := gname_p
    replace hs := h.name hs
    rw [e1] at hp1 hs ⊢
    obtain ⟨type, s2, e2, hs2, herr2⟩ := gnum_spec m 2 "gshort" s1
    obtain ⟨class_, s3, e3, hs3, herr3⟩ := gnum_spec m 2 "gshort" s2
    obtain ⟨type', s4, e4, hs4, herr4, hp4⟩ := mstypehack_spec s3 type
    obtain ⟨ttl, s5, e5, hs5, herr5⟩ := gnum_spec m 4 "glong" s4
    obtain ⟨len, s6, e6, hs6, herr6⟩ := gnum_spec m 2 "gshort" s5
    replace hs := h.same ((((hs2.trans hs3).trans hs4).trans hs5).trans hs6) hs
    dsimp only [gshort, glong]
    rw [e2]
    dsimp only
    rw [e3]
    dsimp only
    rw [e4]
    dsimp only
    rw [e5]
    dsimp only
    rw [e6]
    dsimp only
    generalize hs7 : (if ((len : ℤ) > m.ep - s6.p ∧ ¬(what = .hints ∨ s6.p = m.ep + 1 ∧ what = .answers)) then
      errtoolong m s6 (m.ep - s6.p) len "convM2RR" else s6) = s7
    have hsame : s6.Same s7 ∧ s7.p = s6.p ∧ (s7.err = none → s6.err = none) := by
      rw [← hs7]
      split
      · exact ⟨⟨rfl, rfl, rfl⟩, rfl, fun h => by cases h⟩
      · exact ⟨⟨rfl, rfl, rfl⟩, rfl, id⟩
    obtain ⟨hsame, hp7, herr7⟩ := hsame
    replace hs := h.same hsame hs
    split
    · exact hs
    · next hfailed =>
      obtain ⟨he5, hp6, hep⟩ := herr6 (herr7 (failed_err hfailed))
      obtain ⟨he4, hp5, -⟩ := herr5 he5
      obtain ⟨he2, hp3, -⟩ := herr3 (herr4 ▸ he4)
      obtain ⟨-, hp2, -⟩ := herr2 he2
      dsimp only at hp1
      generalize hlen : (if (len : ℤ) > m.ep - s6.p then ((m.ep : ℤ) - s6.p).toNat else len) = l
      have hl : s6.p + l ≤ m.ep := by
        rw [← hlen]
        split <;> omega
      split
      · have hnext : s7.Same { s7 with p := s6.p + l } := ⟨rfl, rfl, rfl⟩
        exact ih (by dsimp only; omega) (h.same hnext hs)
      · next fs hfs =>
        rw [← hp7] at hl ⊢
        refine (h.record_holds hfs (failed_err hfailed) hl hs).bind fun vals s8 hs8 => ?_
        have htrunc : ∀ (b : Prop) [Decidable b], s8.Same (if b then { s8 with trunc := true } else s8) := by
          intro b _
          split <;> exact ⟨rfl, rfl, rfl⟩
        exact h.same (htrunc _) hs8

theorem convM2Q_keeps (h : Kept m P Q) (hs : P s) : P (convM2Q m s).2 := by
  rw [convM2Q]
  obtain ⟨dname, s1, e1⟩ : ∃ a b, gname m s = (a, b) := ⟨_, _, rfl⟩
  replace hs := h.name hs
  rw [e1] at hs ⊢
  obtain ⟨type, s2, e2, hs2, -⟩ := gnum_spec m 2 "gshort" s1
  obtain ⟨class_, s3, e3, hs3, -⟩ := gnum_spec m 2 "gshort" s2
  obtain ⟨type', s4, e4, hs4, -⟩ := mstypehack_spec s3 type
  replace hs := h.same (hs2.trans hs3) hs
  dsimp only [gshort]
  rw [e2]
  dsimp only
  rw [e3]
  dsimp only
  split
  · exact hs
  · rw [e4]
    exact h.same hs4 hs

theorem sectionloop_holds {get : Scan → Outcome (Option RR)} (hget : ∀ s, P s → (get s).Holds P Q) {count : ℕ} (hs : P s) :
    (sectionloop get count s).Holds P Q := by
  induction count generalizing s with
  | zero => exact hs
  | succ count ih =>
    refine (hget s hs).bind fun r s hs => ?_
    cases r with
    | none => exact hs
    | some rp =>
      dsimp only
      split
      · exact hs
      · exact (ih hs).bind fun rs s hs => hs

theorem rrloop_holds (h : Kept m P Q) {count : ℕ} (hs : P s) : (rrloop m now newline what count s).Holds P Q := by
  rw [rrloop]
  split
  · exact hs
  · refine sectionloop_holds (fun s hs => ?_) hs
    split
    · exact h.convM2Q_keeps hs
    · exact h.convM2RR_holds (by omega) hs

/-- What every getter keeps holds where the parser ends. -/
theorem convM2DNS_holds (h : Kept m P Q) (now : ℕ) (newline : DN → Bool) (hstart : P start) : (convM2DNS m now newline).Holds P Q := by
  rw [convM2DNS]
  obtain ⟨id, s1, e1, hs1, -⟩ := gnum_spec m 2 "gshort" start
  obtain ⟨flags, s2, e2, hs2, -⟩ := gnum_spec m 2 "gshort" s1
  obtain ⟨qdcount, s3, e3, hs3, -⟩ := gnum_spec m 2 "gshort" s2
  obtain ⟨ancount, s4, e4, hs4, -⟩ := gnum_spec m 2 "gshort" s3
  obtain ⟨nscount, s5, e5, hs5, -⟩ := gnum_spec m 2 "gshort" s4
  obtain ⟨arcount, s6, e6, hs6, -⟩ := gnum_spec m 2 "gshort" s5
  have hs := h.same (((((hs1.trans hs2).trans hs3).trans hs4).trans hs5).trans hs6) hstart
  dsimp only [gshort]
  rw [e1]
  dsimp only
  rw [e2]
  dsimp only
  rw [e3]
  dsimp only
  rw [e4]
  dsimp only
  rw [e5]
  dsimp only
  rw [e6]
  dsimp only
  refine (h.rrloop_holds hs).bind fun qd s hs => (h.rrloop_holds hs).bind fun an s hs =>
    (h.rrloop_holds hs).bind fun ns s hs => ?_
  refine (h.rrloop_holds (h.same ?_ hs)).bind fun ar s hs => hs
  split <;> exact ⟨rfl, rfl, rfl⟩

end Kept

end Petele.Dns
