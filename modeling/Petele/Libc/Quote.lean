import Petele.Lib.CInt
import Petele.Libc.Rune

namespace Petele.Libc

open Lib

/-- A string without its zero. With the zero its length is a `long`. -/
structure Str where
  bytes : List UInt8
  nonzero : 0 ∉ bytes
  short : bytes.length + 1 < 2 ^ 31

def Quote : UInt8 := 0x27

structure Quoteinfo where
  quoted : Bool
  nrunesin : ℤ
  nbytesin : ℤ
  nrunesout : ℤ
  nbytesout : ℤ
deriving DecidableEq

/-- What is quoted, the bytes at `s` or the runes at `r`. -/
inductive Input where
  | s (bytes : List UInt8)
  | r (runes : List ℕ)

def Input.length : Input → ℕ
  | .s bytes => bytes.length
  | .r runes => runes.length

/-- The next rune, its width, and what follows. -/
def Input.next : Input → ℕ × ℕ × Input
  | .s bytes =>
    match chartorune (bytes ++ [0]) with
    | some (c, w) => (c, w, .s (bytes.drop w))
    | none => (0, 0, .s bytes)
  | .r [] => (0, (runetochar 0).length, .r [])
  | .r (c :: runes) => (c, (runetochar c).length, .r runes)

section Setup

variable (doquote : Option (ℕ → Bool)) (nout : ℤ) (runesout : Bool)

/-- No room for so many more runes, or bytes. -/
def past (q : Quoteinfo) (runes bytes : ℤ) : Bool :=
  if runesout then wrap (q.nrunesout + runes) > nout else wrap (q.nbytesout + bytes) > nout

def special (c : ℕ) : Bool := c ≤ 0x20 || c = 0x27 || doquote.any (· c)

def Quoteinfo.add (q : Quoteinfo) (n : ℤ) : Quoteinfo :=
  { q with nrunesout := wrap (q.nrunesout + n), nbytesout := wrap (q.nbytesout + n) }

/-- The room for quotes around the string, then for a second quote. It is false if the loop is left. -/
def marks (c w : ℕ) (q : Quoteinfo) : Quoteinfo × Bool :=
  if special doquote c then
    if ¬ q.quoted ∧ past nout runesout q 3 (w + 2) then (q, false)
    else
      let q := if q.quoted then q else { q.add 2 with quoted := true }
      if c = 0x27 then
        if past nout runesout q 2 (w + 1) then (q, false) else (q.add 1, true)
      else (q, true)
  else (q, true)

/-- The loop of `_quotesetup`. -/
def setuploop : ℕ → ℤ → Input → Quoteinfo → Quoteinfo
  | 0, _, _, q => q
  | fuel + 1, nin, input, q =>
    if nin = 0 then q
    else
      let (c, w, rest) := input.next
      if c = 0 then q
      else if past nout runesout q 1 w then q
      else
        match marks doquote nout runesout c w q with
        | (q, false) => q
        | (q, true) => setuploop fuel (wrap (nin - 1)) rest
          { q with
            nbytesin := wrap (q.nbytesin + w)
            nrunesin := wrap (q.nrunesin + 1)
            nbytesout := wrap (q.nbytesout + w)
            nrunesout := wrap (q.nrunesout + 1) }

def quotesetup (input : Input) (nin : ℤ) (sharp : Bool) : Quoteinfo :=
  let none : Quoteinfo := ⟨false, 0, 0, 0, 0⟩
  if sharp ∨ nin = 0 ∨ input.length = 0 then
    if nout < 2 then none
    else setuploop doquote nout runesout input.length nin input ⟨true, 0, 0, 2, 2⟩
  else setuploop doquote nout runesout input.length nin input none

end Setup

/-- Whether quotes are needed, and the length then. -/
def needsquotes (doquote : Option (ℕ → Bool)) (s : Str) : Bool × ℤ :=
  let q := quotesetup doquote 0x7FFFFFFF false (.s s.bytes) (-1) false
  (q.quoted, q.nbytesout)

/-- The copy of `quotestrdup`, with quotes doubled. -/
def double : List UInt8 → List UInt8
  | [] => []
  | r :: t => if r = Quote then r :: r :: double t else r :: double t

/-- There is no form if the block to allocate has a negative length, which is taken for a huge one. -/
def quotestrdup (doquote : Option (ℕ → Bool)) (s : Str) : Option (List UInt8) :=
  let (quoted, quotelen) := needsquotes doquote s
  if ¬ quoted then some s.bytes
  else if wrap (quotelen + 1) < 0 then none
  else some (Quote :: double s.bytes ++ [Quote])

section Decide

variable {doquote : Option (ℕ → Bool)}

theorem past_false (q : Quoteinfo) (runes bytes : ℤ) : past 0x7FFFFFFF false q runes bytes = false := by
  have hlt : wrap (q.nbytesout + bytes) < (2 ^ 32 + 1) / 2 := Int.bmod_lt (by decide)
  rw [past, if_neg Bool.false_ne_true, decide_eq_false_iff_not]
  omega

/-- With no limit on what comes out the marks are made. -/
theorem marks_spec (c w : ℕ) {q : Quoteinfo} (hq : wrap q.nbytesout = q.nbytesout) :
    ∃ q', marks doquote 0x7FFFFFFF false c w q = (q', true) ∧
      q'.quoted = (q.quoted || special doquote c) ∧
      q'.nbytesout = wrap (q.nbytesout + (if q.quoted = false ∧ special doquote c = true then 2 else 0) +
        (if c = 0x27 then 1 else 0)) := by
  by_cases hspecial : special doquote c = true
  · rw [marks, if_pos hspecial, past_false, if_neg fun h => Bool.false_ne_true h.2]
    simp only [past_false, Bool.false_eq_true, if_false, hspecial, Bool.or_true, and_true]
    by_cases hquoted : q.quoted = true
    · by_cases hc : c = 0x27
      · refine ⟨q.add 1, by simp [hquoted, hc], hquoted, ?_⟩
        simp [hquoted, hc, Quoteinfo.add]
      · refine ⟨q, by simp [hquoted, hc], hquoted, ?_⟩
        simp [hquoted, hc, hq]
    · rw [Bool.not_eq_true] at hquoted
      by_cases hc : c = 0x27
      · refine ⟨Quoteinfo.add { q.add 2 with quoted := true } 1, by simp [hquoted, hc], rfl, ?_⟩
        simp [hquoted, hc, Quoteinfo.add]
      · refine ⟨{ q.add 2 with quoted := true }, by simp [hquoted, hc], rfl, ?_⟩
        simp [hquoted, hc, Quoteinfo.add]
  · have hc : c ≠ 0x27 := fun hc => hspecial (by rw [special, hc]; rfl)
    rw [Bool.not_eq_true] at hspecial
    refine ⟨q, by simp [marks, hspecial], by simp [hspecial], ?_⟩
    simp [hspecial, hc, hq]

def needs (doquote : Option (ℕ → Bool)) (runes : List (ℕ × ℕ)) : Bool :=
  runes.any fun r => special doquote r.1

theorem count_take {b : UInt8} {s : List UInt8} {r : ℕ × ℕ}
    (h : b.toNat < 0x80 ∧ r = (b.toNat, 1) ∨
      0x80 ≤ r.1 ∧ ∀ x ∈ (b :: s).take r.2, 0x80 ≤ x.toNat) :
    ((b :: s).take r.2).count Quote = if r.1 = 0x27 then 1 else 0 := by
  rcases h with ⟨-, rfl⟩ | ⟨hhigh, hall⟩
  · show ([b] : List UInt8).count Quote = if b.toNat = 0x27 then 1 else 0
    have hquote : b = Quote ↔ b.toNat = 0x27 := UInt8.toNat_inj.symm
    by_cases hb : b = Quote
    · rw [if_pos (hquote.mp hb), hb, List.count_singleton_self]
    · rw [if_neg fun h => hb (hquote.mpr h), List.count_eq_zero_of_not_mem fun h =>
        hb (List.mem_singleton.mp h).symm]
  · rw [if_neg (by omega), List.count_eq_zero_of_not_mem fun h => ?_]
    exact absurd (hall _ h) (by decide)

/-- What the loop finds for a string: whether a rune is special, and the length with quotes. -/
theorem setuploop_spec (fuel : ℕ) {s : List UInt8} (hfuel : s.length ≤ fuel) (hs : 0 ∉ s) {nin : ℤ}
    (hneg : nin < 0) (hlow : -2 ^ 31 ≤ nin - s.length) {q : Quoteinfo}
    (hq : wrap q.nbytesout = q.nbytesout) :
    (setuploop doquote 0x7FFFFFFF false fuel nin (.s s) q).quoted =
        (q.quoted || needs doquote (decodeloop fuel s)) ∧
      (setuploop doquote 0x7FFFFFFF false fuel nin (.s s) q).nbytesout =
        wrap (q.nbytesout + (if q.quoted = false ∧ needs doquote (decodeloop fuel s) = true then 2 else 0) +
          (s.length + s.count Quote : ℕ)) := by
  induction fuel generalizing s nin q with
  | zero =>
    rw [List.length_eq_zero_iff.mp (Nat.le_zero.mp hfuel)]
    simp [setuploop, decodeloop, needs, hq]
  | succ fuel ih =>
    rcases s with _ | ⟨b, s⟩
    · have hstop : setuploop doquote 0x7FFFFFFF false (fuel + 1) nin (.s []) q = q := by
        rw [setuploop, if_neg (by omega)]
        rfl
      rw [hstop]
      simp [decodeloop, needs, hq]
    · obtain ⟨⟨c, w⟩, hr, hpos, hle, hcases⟩ := chartorune_ascii b s
      have hb : b ≠ 0 := fun h => hs (h ▸ List.mem_cons_self)
      have hc : c ≠ 0 := by
        rcases hcases with ⟨-, h⟩ | ⟨h, -⟩
        · rw [(Prod.mk.inj h).1]
          exact fun hzero => hb (UInt8.toNat_inj.mp hzero)
        · intro hzero
          rw [hzero] at h
          omega
      obtain ⟨q', hmarks, hquoted, hbytes⟩ := @marks_spec doquote c w q hq
      have hstep : setuploop doquote 0x7FFFFFFF false (fuel + 1) nin (.s (b :: s)) q =
          setuploop doquote 0x7FFFFFFF false fuel (nin - 1) (.s ((b :: s).drop w))
            { q' with
              nbytesin := wrap (q'.nbytesin + w)
              nrunesin := wrap (q'.nrunesin + 1)
              nbytesout := wrap (q'.nbytesout + w)
              nrunesout := wrap (q'.nrunesout + 1) } := by
        rw [setuploop, if_neg (by omega), Input.next, hr]
        simp only [past_false, hmarks, if_neg hc, Bool.false_eq_true, if_false]
        rw [wrap_of_range (z := nin - 1) (by rw [List.length_cons] at hlow; omega) (by omega)]
      have hcount := congrArg₂ (· + ·) (count_take hcases) (Eq.refl (((b :: s).drop w).count Quote))
      simp only [← List.count_append, List.take_append_drop] at hcount
      have hlen : ((b :: s).drop w).length + w = s.length + 1 := by
        rw [List.length_drop, List.length_cons]
        omega
      have hneg' : nin - 1 < 0 := by omega
      obtain ⟨hq1, hq2⟩ := ih (s := (b :: s).drop w) (by rw [List.length_cons] at hfuel; omega)
        (fun h => hs (List.mem_of_mem_drop h)) hneg'
        (by rw [List.length_cons] at hlow; push_cast at hlow ⊢; omega)
        (q := { q' with
              nbytesin := wrap (q'.nbytesin + w)
              nrunesin := wrap (q'.nrunesin + 1)
              nbytesout := wrap (q'.nbytesout + w)
              nrunesout := wrap (q'.nrunesout + 1) }) (wrap_wrap _)
      rw [hstep, hq1, hq2, decodeloop_step fuel (List.cons_ne_nil b s) hr]
      refine ⟨by simp [needs, hquoted, Bool.or_assoc], ?_⟩
      have hneeds : needs doquote ((c, w) :: decodeloop fuel ((b :: s).drop w)) =
          (special doquote c || needs doquote (decodeloop fuel ((b :: s).drop w))) := rfl
      have htwo : (if q.quoted = false ∧ special doquote c = true then (2 : ℤ) else 0) +
          (if (q.quoted || special doquote c) = false ∧
            needs doquote (decodeloop fuel ((b :: s).drop w)) = true then 2 else 0) =
          if q.quoted = false ∧ (special doquote c || needs doquote (decodeloop fuel ((b :: s).drop w))) = true
            then 2 else 0 := by
        cases q.quoted <;> cases special doquote c <;> simp
      simp only [hbytes, hquoted, wrap_wrap_add, hcount, hneeds, ← htwo]
      rw [add_assoc (wrap _), wrap_wrap_add]
      congr 1
      rw [List.length_cons]
      by_cases hquote : c = 0x27
      · simp only [if_pos hquote]
        omega
      · simp only [if_neg hquote]
        omega

/-- Blanks and quotes are found. -/
theorem needs_of_mem (fuel : ℕ) {s : List UInt8} (hfuel : s.length ≤ fuel) {x : UInt8} (hx : x ∈ s)
    (hspecial : x.toNat ≤ 0x20 ∨ x = Quote) : needs doquote (decodeloop fuel s) = true := by
  have hlow : x.toNat < 0x80 := by
    rcases hspecial with h | rfl
    · omega
    · decide
  induction fuel generalizing s with
  | zero =>
    rw [List.length_eq_zero_iff.mp (Nat.le_zero.mp hfuel)] at hx
    cases hx
  | succ fuel ih =>
    rcases s with _ | ⟨b, s⟩
    · cases hx
    · obtain ⟨r, hr, hpos, hle, hcases⟩ := chartorune_ascii b s
      rw [decodeloop_step fuel (List.cons_ne_nil b s) hr, needs, List.any_cons, Bool.or_eq_true]
      rw [← List.take_append_drop r.2 (b :: s), List.mem_append] at hx
      rcases hx with hx | hx
      · left
        rcases hcases with ⟨-, rfl⟩ | ⟨-, hall⟩
        · rw [show (b :: s).take 1 = [b] from rfl, List.mem_singleton] at hx
          rw [special, Bool.or_eq_true, Bool.or_eq_true, decide_eq_true_eq, decide_eq_true_eq, ← hx]
          exact .inl (hspecial.imp_right fun h => by rw [h]; rfl)
        · exact absurd (hall x hx) (by omega)
      · right
        refine ih ?_ hx
        rw [List.length_drop, List.length_cons]
        rw [List.length_cons] at hfuel
        omega

theorem length_double (s : List UInt8) : (double s).length = s.length + s.count Quote := by
  induction s with
  | nil => rfl
  | cons b s ih =>
    rw [double]
    by_cases hb : b = Quote
    · rw [if_pos hb, hb, List.count_cons_self, List.length_cons, List.length_cons, List.length_cons, ih]
      omega
    · rw [if_neg hb, List.count_cons_of_ne hb, List.length_cons, List.length_cons, ih]
      omega

/-- The strings that are copied as they are, and the length of the form of the others. -/
theorem needsquotes_spec (s : Str) :
    (needsquotes doquote s).1 = false ∧ s.bytes ≠ [] ∧
        (∀ b ∈ s.bytes, 0x20 < b.toNat ∧ b ≠ Quote) ∧
        (needsquotes doquote s).2 = s.bytes.length ∨
      (needsquotes doquote s).1 = true ∧
        (needsquotes doquote s).2 = wrap ((Quote :: double s.bytes ++ [Quote]).length : ℕ) := by
  have hshort := s.short
  by_cases hempty : s.bytes = []
  · right
    simp only [needsquotes, hempty]
    exact ⟨rfl, rfl⟩
  · have hpos := List.length_pos_iff.mpr hempty
    have hsetup : quotesetup doquote 0x7FFFFFFF false (.s s.bytes) (-1) false =
        setuploop doquote 0x7FFFFFFF false s.bytes.length (-1) (.s s.bytes) ⟨false, 0, 0, 0, 0⟩ := by
      rw [quotesetup, if_neg]
      · rfl
      · rintro (h | h | h)
        · cases h
        · omega
        · exact absurd h (Nat.ne_of_gt hpos)
    obtain ⟨hquoted, hbytes⟩ := @setuploop_spec doquote _ _ le_rfl s.nonzero (-1) (by decide) (by omega)
      ⟨false, 0, 0, 0, 0⟩ wrap_zero
    simp only [needsquotes, hsetup, hquoted, hbytes, Bool.false_or]
    by_cases hneeds : needs doquote (decodeloop s.bytes.length s.bytes) = true
    · right
      refine ⟨hneeds, ?_⟩
      rw [if_pos ⟨trivial, hneeds⟩]
      congr 1
      simp only [List.length_cons, List.length_append, List.length_nil, length_double]
      omega
    · have hplain : ∀ b ∈ s.bytes, 0x20 < b.toNat ∧ b ≠ Quote := fun b hb =>
        ⟨not_le.mp fun h => hneeds (needs_of_mem _ le_rfl hb (.inl h)),
          fun h => hneeds (needs_of_mem _ le_rfl hb (.inr h))⟩
      left
      refine ⟨Bool.eq_false_iff.mpr hneeds, hempty, hplain, ?_⟩
      rw [if_neg fun h => hneeds h.2, List.count_eq_zero_of_not_mem fun h => (hplain _ h).2 rfl,
        Nat.add_zero, zero_add, zero_add]
      exact wrap_of_range (by omega) (by omega)

theorem form_bounds (s : Str) : 2 ≤ (Quote :: double s.bytes ++ [Quote]).length ∧
    (Quote :: double s.bytes ++ [Quote]).length + 1 < 2 ^ 32 := by
  have hshort := s.short
  have hcount : s.bytes.count Quote ≤ s.bytes.length := List.count_le_length
  simp only [List.length_cons, List.length_append, List.length_nil, length_double]
  omega

theorem wrap_neg_iff {n : ℕ} (hn : n + 1 < 2 ^ 32) : wrap (n + 1) < 0 ↔ 2 ^ 31 ≤ n + 1 := by
  rw [wrap, Int.bmod_def]
  split
  all_goals omega

/-- What `quotestrdup` returns: the string itself, or the string in quotes in a block of that length. -/
theorem quotestrdup_cases {s : Str} {form : List UInt8} (h : quotestrdup doquote s = some form) :
    (form = s.bytes ∧ s.bytes ≠ [] ∧ (∀ b ∈ s.bytes, 0x20 < b.toNat ∧ b ≠ Quote) ∨
      form = Quote :: double s.bytes ++ [Quote]) ∧ (needsquotes doquote s).2 = form.length := by
  rcases @needsquotes_spec doquote s with ⟨hno, hempty, hplain, hlen⟩ | ⟨hyes, hlen⟩
  · simp only [quotestrdup, hno, Bool.false_eq_true, not_false_eq_true, if_true] at h
    cases h
    exact ⟨.inl ⟨rfl, hempty, hplain⟩, hlen⟩
  · obtain ⟨hlow, hhigh⟩ := form_bounds s
    simp only [quotestrdup, hyes, hlen, not_true_eq_false, if_false, wrap_wrap_add] at h
    split at h
    · cases h
    · rename_i hpos
      cases h
      refine ⟨.inr rfl, hlen.trans ?_⟩
      rw [wrap_neg_iff hhigh] at hpos
      exact wrap_of_range (by omega) (by omega)

/-- It fails only where a block of 2 GiB is needed. -/
theorem quotestrdup_none {s : Str} (h : quotestrdup doquote s = none) :
    2 ^ 31 ≤ (Quote :: double s.bytes ++ [Quote]).length + 1 := by
  rcases @needsquotes_spec doquote s with ⟨hno, -⟩ | ⟨hyes, hlen⟩
  · simp only [quotestrdup, hno, Bool.false_eq_true, not_false_eq_true, if_true] at h
    cases h
  · simp only [quotestrdup, hyes, hlen, not_true_eq_false, if_false, wrap_wrap_add] at h
    split at h
    · rename_i hneg
      rwa [wrap_neg_iff (form_bounds s).2] at hneg
    · cases h

end Decide

end Petele.Libc
