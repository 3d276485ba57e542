import Petele.Dns.Run
import Mathlib.Data.List.TakeWhile

namespace Petele.Dns

/-- The data of a record up to `e` are strings without a zero byte, each in the message; the last one may have one where
nothing follows it, and may be cut off where only its length is part of the data. -/
inductive Strings (m : Msg) (e : ℕ) : ℕ → Prop
  | done {p} : e ≤ p → Strings m e p
  | string {p} : p < e → p + 1 + (m.mem p).toNat ≤ m.ep →
      (e ≤ p + 1 + (m.mem p).toNat ∨ 0 ∉ slice m (p + 1) (m.mem p).toNat) → Strings m e (p + 1 + (m.mem p).toNat) →
      Strings m e p
  | cut {p} : p + 1 = e → m.ep < p + 1 + (m.mem p).toNat → Strings m e p

section Strings

variable {m : Msg} {e p : ℕ} {s : Scan}

theorem strings_cut (hp : p < e) (hcut : m.ep < p + 1 + (m.mem p).toNat) : Strings m e p ↔ p + 1 = e := by
  constructor
  · intro h
    cases h with
    | done h => omega
    | string _ h _ _ => omega
    | cut h _ => exact h
  · exact fun h => .cut h hcut

theorem strings_string (hp : p < e) (hin : p + 1 + (m.mem p).toNat ≤ m.ep) :
    Strings m e p ↔ (e ≤ p + 1 + (m.mem p).toNat ∨ 0 ∉ slice m (p + 1) (m.mem p).toNat) ∧
      Strings m e (p + 1 + (m.mem p).toNat) := by
  constructor
  · intro h
    cases h with
    | done h => omega
    | string _ _ h h' => exact ⟨h, h'⟩
    | cut _ h => omega
  · exact fun h => .string hp hin h.1 h.2

theorem cstr_eq_self {l : List UInt8} : (cstr l).length = l.length ↔ 0 ∉ l := by
  rw [cstr]
  constructor
  · intro h h0
    have hall := (List.takeWhile_prefix (fun b : UInt8 => decide (b ≠ 0)) (l := l)).eq_of_length h
    exact absurd rfl (of_decide_eq_true (List.takeWhile_eq_self_iff.mp hall 0 h0))
  · intro h
    rw [List.takeWhile_eq_self_iff.mpr]
    exact fun b hb => decide_eq_true fun h0 => h (h0 ▸ hb)

/-- After an error nothing is read. -/
theorem gstr_err (h : s.err ≠ none) : gstr m s = (none, s) := by
  rw [gstr, gcounted, if_pos (Option.isSome_iff_ne_none.mpr h)]

theorem gstr_cut (h : s.err = none) (hp : s.p < m.ep) (hcut : m.ep < s.p + 1 + (m.mem s.p).toNat) :
    ∃ s', gstr m s = (none, s') ∧ s'.err ≠ none ∧ s'.p = s.p + 1 ∧ s.Same s' := by
  have hsame : s.Same (gstr m s).2 := gcounted_same
  have heq : ∃ s', gstr m s = (none, s') ∧ s'.err ≠ none ∧ s'.p = s.p + 1 := by
    rw [gstr, gcounted, h, if_pos hp, if_pos hp]
    dsimp only [look]
    rw [if_neg (by decide), if_pos hcut]
    exact ⟨_, rfl, by simp [errtoolong], rfl⟩
  obtain ⟨s', heq, herr, hp'⟩ := heq
  rw [heq] at hsame
  exact ⟨s', heq, herr, hp', hsame⟩

theorem gstr_string (h : s.err = none) (hp : s.p < m.ep) (hin : s.p + 1 + (m.mem s.p).toNat ≤ m.ep) :
    ∃ t s', gstr m s = (some t, s') ∧ (s'.err = none ↔ 0 ∉ slice m (s.p + 1) (m.mem s.p).toNat) ∧
      s'.p = s.p + 1 + (m.mem s.p).toNat ∧ s.Same s' := by
  have hsame : s.Same (gstr m s).2 := gcounted_same
  have hlt := (m.mem s.p).toNat_lt
  have heq : ∃ t s', gstr m s = (some t, s') ∧ (s'.err = none ↔ 0 ∉ slice m (s.p + 1) (m.mem s.p).toNat) ∧
      s'.p = s.p + 1 + (m.mem s.p).toNat := by
    rw [gstr, gcounted, h, if_pos hp, if_pos hp]
    dsimp only [look]
    rw [if_neg (by decide), if_neg (by omega), if_neg (by rw [Strlen]; omega)]
    refine ⟨_, _, rfl, ?_, ?_⟩
    · rw [← cstr_eq_self, slice_length]
      dsimp only
      split
      · next hshort => simp [hshort]
      · next hfull => simp [h, not_not.mp hfull]
    · split <;> rfl
  obtain ⟨t, s', heq, herr, hp'⟩ := heq
  rw [heq] at hsame
  exact ⟨t, s', heq, herr, hp', hsame⟩

/-- Behind an error there is no place for a string where the data go on. -/
theorem txtloop_err {k : ℕ} {txts : List (List UInt8)} {l : Bool} (herr : s.err ≠ none) (hp : s.p < e)
    (hk : if l then 2 ≤ k else 1 ≤ k) : txtloop m e k txts l s = .nil s := by
  obtain _ | k := k
  · cases l <;> cases hk
  · cases l with
    | false => rw [txtloop, if_pos hp, gstr_err herr]; rfl
    | true =>
      obtain _ | k := k
      · exact absurd hk (by decide)
      · rw [txtloop, if_pos hp, gstr_err herr]
        dsimp only
        rw [if_neg (by decide), Option.isSome_none, txtloop, if_pos hp, gstr_err herr]
        rfl

/-- The strings are read through exactly where they are well formed. -/
theorem txtloop_spec {k : ℕ} (txts : List (List UInt8)) (herr : s.err = none) (he : e ≤ m.ep)
    (hk : e - s.p + 1 < k) :
    ∃ s', s.Same s' ∧ ((∃ txts', txtloop m e k txts true s = .ok txts' s' ∧ Strings m e s.p) ∨
      txtloop m e k txts true s = .nil s' ∧ ¬ Strings m e s.p) := by
  induction k generalizing s txts with
  | zero => omega
  | succ k ih =>
    by_cases hp : s.p < e
    · by_cases hin : s.p + 1 + (m.mem s.p).toNat ≤ m.ep
      · obtain ⟨t, s', hg, herr', hp', hsame⟩ := gstr_string herr (by omega) hin
        rw [txtloop, if_pos hp, hg, strings_string hp hin, ← herr', ← hp']
        dsimp only
        rw [if_neg (by decide), Option.isSome_some]
        by_cases hok : s'.err = none
        · obtain ⟨s'', hsame', h⟩ := @ih s' (txts ++ (some t).toList) hok (by omega)
          refine ⟨s'', hsame.trans hsame', ?_⟩
          rcases h with ⟨txts', h, hs⟩ | ⟨h, hs⟩
          · exact .inl ⟨txts', h, .inr hok, hs⟩
          · exact .inr ⟨h, fun h' => hs h'.2⟩
        · by_cases hend : s'.p < e
          · refine ⟨s', hsame, .inr ⟨txtloop_err hok hend (by rw [if_pos rfl]; omega), ?_⟩⟩
            rintro ⟨h | h, -⟩
            · omega
            · exact hok h
          · obtain _ | k := k
            · omega
            · rw [txtloop, if_neg hend]
              exact ⟨s', hsame, .inl ⟨_, rfl, .inl (not_lt.mp hend), .done (not_lt.mp hend)⟩⟩
      · have hcut := not_le.mp hin
        obtain ⟨s', hg, herr', hp', hsame⟩ := gstr_cut herr (by omega) hcut
        rw [txtloop, if_pos hp, hg, strings_cut hp hcut]
        dsimp only
        rw [if_neg (by decide), Option.isSome_none]
        by_cases hend : s'.p < e
        · exact ⟨s', hsame, .inr ⟨txtloop_err herr' hend (by rw [if_neg (by decide)]; omega), by omega⟩⟩
        · obtain _ | k := k
          · omega
          · rw [txtloop, if_neg hend]
            exact ⟨s', hsame, .inl ⟨_, rfl, by omega⟩⟩
    · rw [txtloop, if_neg hp]
      exact ⟨s, ⟨rfl, rfl, rfl⟩, .inl ⟨_, rfl, .done (not_lt.mp hp)⟩⟩

end Strings

section Message

variable (m : Msg) (now : ℕ) (newline : DN → Bool)

/-- The strings of the records reached are well formed. -/
def Scan.Terminated (s : Scan) : Prop := ∀ r ∈ s.txts, Strings m r.2 r.1

/-- What is looked at lies in the message where the names do. -/
def Scan.Tracked (s : Scan) : Prop := s.inside = true ↔ ∀ p ∈ s.names, NameIn m 0 p 0 0

theorem tracked_iff {s : Scan} (h : s.Tracked m) : s.inside = true ↔ ∀ p ∈ s.names, NameIn m 0 p 0 0 := h

theorem kept_terminated : Kept m (Scan.Terminated m) (fun s => ¬ s.Terminated m) where
  same h hs := by
    rw [Scan.Terminated, h.txts]
    exact hs
  name hs := by
    rw [Scan.Terminated] at hs ⊢
    rw [gname]
    split
    · exact hs
    · dsimp only
      split <;> exact hs
  txts {s len} herr hlen hs := by
    obtain ⟨s', hsame, h⟩ := txtloop_spec (m := m) (e := s.p + len) (k := len + 2)
      (s := { s with txts := (s.p, s.p + len) :: s.txts }) [] herr hlen (by dsimp only; omega)
    rw [getfield]
    rcases h with ⟨txts', h, hstrings⟩ | ⟨h, hstrings⟩
    · rw [h]
      change s'.Terminated m
      rw [Scan.Terminated, hsame.txts]
      exact List.forall_mem_cons.mpr ⟨hstrings, hs⟩
    · rw [h]
      change ¬ s'.Terminated m
      rw [Scan.Terminated, hsame.txts]
      exact fun h' => hstrings (List.forall_mem_cons.mp h').1

theorem kept_tracked : Kept m (Scan.Tracked m) (Scan.Tracked m) where
  same h hs := by
    rw [Scan.Tracked, h.inside, h.names]
    exact hs
  name {s} hs := by
    rw [gname]
    split
    · exact hs
    · have hnames : (s.inside && (gnameloop m [] s.p 0 0).inside) = true ↔ ∀ p ∈ s.p :: s.names, NameIn m 0 p 0 0 := by
        rw [Bool.and_eq_true, gnameloop_inside, List.forall_mem_cons, and_comm, tracked_iff m hs]
        rfl
      dsimp only
      split <;> exact hnames
  txts {s len} herr hlen hs := by
    obtain ⟨s', hsame, h⟩ := txtloop_spec (m := m) (e := s.p + len) (k := len + 2)
      (s := { s with txts := (s.p, s.p + len) :: s.txts }) [] herr hlen (by dsimp only; omega)
    have hs' : s'.Tracked m := by
      rw [Scan.Tracked, hsame.inside, hsame.names]
      exact hs
    rw [getfield]
    rcases h with ⟨txts', h, -⟩ | ⟨h, -⟩
    · rw [h]
      exact hs'
    · rw [h]
      exact hs'

/-- The parser ends without a store through a nil pointer exactly where the strings of all records are well formed. -/
theorem returns_iff :
    (∃ r s, convM2DNS m now newline = .ok r s) ↔ (convM2DNS m now newline).scan.Terminated m := by
  have h := (kept_terminated m).convM2DNS_holds now newline (by simp [Scan.Terminated, start])
  cases hd : convM2DNS m now newline with
  | ok r s =>
    rw [hd] at h
    exact ⟨fun _ => h, fun _ => ⟨r, s, rfl⟩⟩
  | nil s =>
    rw [hd] at h
    exact ⟨fun ⟨_, _, h'⟩ => (by cases h'), fun h' => absurd h' h⟩
  | hang s =>
    rw [hd] at h
    exact h.elim

/-- All reads are of the message and all writes of a name's destination. -/
def Bounded : Prop :=
  (convM2DNS m now newline).scan.inside = true ∧ ∀ p, (gnameloop m [] p 0 0).dst.length + 1 ≤ Domlen + 1

theorem bounded_iff :
    Bounded m now newline ↔ ∀ p ∈ (convM2DNS m now newline).scan.names, NameIn m 0 p 0 0 := by
  have h := (kept_tracked m).convM2DNS_holds now newline (by simp [Scan.Tracked, start])
  have hs : (convM2DNS m now newline).scan.Tracked m := by
    cases hd : convM2DNS m now newline with
    | ok r s | nil s =>
      rw [hd] at h
      exact h
    | hang s =>
      rw [hd] at h
      exact h.elim
  rw [Bounded, tracked_iff m hs]
  exact and_iff_left fun p => Nat.succ_le_succ (gnameloop_length (by decide))

end Message

section Header

variable {m : Msg} {now : ℕ} {newline : DN → Bool}

theorem gshort_start {p : ℕ} (hp : p + 2 ≤ m.ep) :
    gshort m { start with p := p } = ((m.mem p).toNat * 2 ^ 8 + (m.mem (p + 1)).toNat, { start with p := p + 2 }) := by
  rw [gshort, gnum, if_neg (by simp [start]), if_neg (not_lt.mpr hp)]
  simp [slice, List.range_succ, look, start, hp]

/-- The sections behind the header. -/
theorem convM2DNS_header (hep : 12 ≤ m.ep) :
    convM2DNS m now newline =
      (rrloop m now newline .questions ((m.mem 4).toNat * 2 ^ 8 + (m.mem 5).toNat) { start with p := 12 }).bind fun qd s =>
      (rrloop m now newline .answers ((m.mem 6).toNat * 2 ^ 8 + (m.mem 7).toNat) s).bind fun an s =>
      (rrloop m now newline .nameservers ((m.mem 8).toNat * 2 ^ 8 + (m.mem 9).toNat) s).bind fun ns s =>
      let s := if s.stop then { s with err := none } else s
      (rrloop m now newline .hints ((m.mem 10).toNat * 2 ^ 8 + (m.mem 11).toNat) s).bind fun ar s' =>
      .ok (⟨(m.mem 0).toNat * 2 ^ 8 + (m.mem 1).toNat,
        if s'.trunc then ((m.mem 2).toNat * 2 ^ 8 + (m.mem 3).toNat) ||| Ftrunc
          else (m.mem 2).toNat * 2 ^ 8 + (m.mem 3).toNat, qd, an, ns, ar⟩, s.err, if s'.stop then Rok else s'.rcode) s' := by
  rw [convM2DNS, show start = { start with p := 0 } from rfl]
  rw [gshort_start (by omega)]
  dsimp only
  rw [gshort_start (by omega)]
  dsimp only
  rw [gshort_start (by omega)]
  dsimp only
  rw [gshort_start (by omega)]
  dsimp only
  rw [gshort_start (by omega)]
  dsimp only
  rw [gshort_start (by omega)]

end Header

/-- An answer with a record whose one string is said to be of 5 bytes, where a single one follows. -/
def cutoff : Msg where
  mem i := [0, 0, 0x80, 0, 0, 0, 0, 1, 0, 0, 0, 0, 0, 0, 16, 0, 1, 0, 0, 0, 0, 0, 2, 5, 97].getD i 0
  ep := 25

/-- A header that announces a question, and nothing behind it. -/
def headless : Msg where
  mem i := if i = 5 then 1 else 0
  ep := 12

theorem headless_read : ¬ ∀ (m : Msg) (now : ℕ) (newline : DN → Bool), Bounded m now newline := by
  intro h
  have hname : gname headless { start with p := 12 } = ([], { start with p := 13, inside := false, names := [12] }) := by
    rw [gname, if_neg (by decide), gnameloop_end (.inl rfl)]
    rfl
  have hq : convM2Q headless { start with p := 12 } =
      (none, errtoolong headless { start with p := 13, inside := false, names := [12] } (-1) 2 "gshort") := by
    rw [convM2Q, hname]
    rfl
  have hqd : rrloop headless 0 (fun _ => false) .questions 1 { start with p := 12 } =
      .ok [] (errtoolong headless { start with p := 13, inside := false, names := [12] } (-1) 2 "gshort") := by
    rw [rrloop, if_neg (by decide), sectionloop]
    simp only [if_true, hq, Outcome.bind]
  have hin : (convM2DNS headless 0 fun _ => false).scan.inside = false := by
    rw [convM2DNS_header le_rfl, show (headless.mem 4).toNat * 2 ^ 8 + (headless.mem 5).toNat = 1 from rfl, hqd]
    rfl
  have := (h headless 0 fun _ => false).1
  rw [hin] at this
  cases this

theorem cutoff_nil : ¬ ∀ (m : Msg) (now : ℕ) (newline : DN → Bool), ∃ r s, convM2DNS m now newline = .ok r s := by
  intro h
  have hname : gname cutoff { start with p := 12 } = ([], { start with p := 13, names := [12] }) := by
    rw [gname, if_neg (by decide), gnameloop_end (.inl rfl)]
    rfl
  have hrr : ∃ s, convM2RR cutoff 0 (fun _ => false) .answers 26 { start with p := 12 } = .nil s := by
    rw [convM2RR, hname]
    exact ⟨_, rfl⟩
  obtain ⟨s, hrr⟩ := hrr
  have hqd : rrloop cutoff 0 (fun _ => false) .questions 0 { start with p := 12 } = .ok [] { start with p := 12 } := by
    rw [rrloop, if_neg (by decide), sectionloop]
  have han : rrloop cutoff 0 (fun _ => false) .answers 1 { start with p := 12 } = .nil s := by
    rw [rrloop, if_neg (by decide), sectionloop, if_neg (by decide), show cutoff.ep + 1 = 26 from rfl, hrr]
    rfl
  obtain ⟨r, s', h⟩ := h cutoff 0 fun _ => false
  rw [convM2DNS_header (by decide), show (cutoff.mem 4).toNat * 2 ^ 8 + (cutoff.mem 5).toNat = 0 from rfl, hqd,
    show (cutoff.mem 6).toNat * 2 ^ 8 + (cutoff.mem 7).toNat = 1 from rfl] at h
  dsimp only [Outcome.bind] at h
  rw [han] at h
  cases h

end Petele.Dns
