import Mathlib.Data.List.TakeWhile
import Petele.Libc.Quote

namespace Petele.Libc

open Lib

/-- The string at `a` in a buffer. -/
def cstr (buf : List UInt8) (a : ℕ) : List UInt8 := (buf.drop a).takeWhile (· ≠ 0)

/-- A `char` has a sign. -/
def schar (b : UInt8) : ℤ := if b.toNat < 0x80 then b.toNat else b.toNat - 0x100

def strchrloop (c0 : ℤ) : List UInt8 → Option (List UInt8)
  | [] => none
  | c1 :: s => if schar c1 = c0 then some (c1 :: s) else strchrloop c0 s

/-- What is at the place found. -/
def strchr (s : List UInt8) (c : ℤ) : Option (List UInt8) :=
  if c = 0 then some [] else strchrloop (Int.bmod c (2 ^ 8)) s

def utfloop (c : ℤ) : ℕ → List UInt8 → Option (List UInt8)
  | 0, _ => none
  | _ + 1, [] => none
  | fuel + 1, c1 :: s =>
    if c1.toNat < 0x80 then
      if c1.toNat = c then some (c1 :: s) else utfloop c fuel s
    else
      match chartorune (c1 :: s ++ [0]) with
      | some r => if r.1 = c then some (c1 :: s) else utfloop c fuel ((c1 :: s).drop r.2)
      | none => none

def utfrune (s : List UInt8) (c : ℤ) : Option (List UInt8) :=
  if c < 0x80 then strchr s c else utfloop c s.length s

def qsep : List UInt8 := [0x20, 0x09, 0x0D, 0x0A]

def among (sep : List UInt8) (c : UInt8) : Bool := (utfrune sep (schar c)).isSome

/-- The loop of `qtoken` and of `unquotestrdup`, which writes at `s` what it reads at `t`. -/
def unquoteloop (stop : UInt8 → Bool) : ℕ → Bool → List UInt8 → ℕ → ℕ → List UInt8 × ℕ × ℕ
  | 0, _, buf, s, t => (buf, s, t)
  | fuel + 1, quoting, buf, s, t =>
    let c := buf.getD t 0
    if c = 0 ∨ quoting = false ∧ stop c then (buf, s, t)
    else if c ≠ Quote then unquoteloop stop fuel quoting (buf.set s c) (s + 1) (t + 1)
    else if quoting = false then unquoteloop stop fuel true buf s (t + 1)
    else if buf.getD (t + 1) 0 ≠ Quote then unquoteloop stop fuel false buf s (t + 1)
    else unquoteloop stop fuel quoting (buf.set s (buf.getD (t + 1) 0)) (s + 1) (t + 2)

/-- The copy is unquoted up to a blank, and the rest is moved to it. -/
def unquotestrdup (str : List UInt8) : List UInt8 :=
  let (buf, s, t) := unquoteloop (fun c => c = 0x20 || c = 0x09) (str.length + 1) false (str ++ [0]) 0 0
  let rest := cstr buf t ++ [0]
  if t ≠ s then cstr (buf.take s ++ rest ++ buf.drop (s + rest.length)) 0 else cstr buf 0

def qtoken (sep buf : List UInt8) (s : ℕ) : List UInt8 × ℕ :=
  let (buf, s, t) := unquoteloop (among sep) buf.length false buf s s
  if buf.getD s 0 ≠ 0 then (buf.set s 0, if t = s then t + 1 else t) else (buf, t)

def etokenloop (stop : UInt8 → Bool) (buf : List UInt8) : ℕ → Bool → ℕ → ℕ
  | 0, _, t => t
  | fuel + 1, quoting, t =>
    let c := buf.getD t 0
    if c = 0 ∨ quoting = false ∧ stop c then t
    else if c ≠ Quote then etokenloop stop buf fuel quoting (t + 1)
    else if quoting = false then etokenloop stop buf fuel true (t + 1)
    else if buf.getD (t + 1) 0 ≠ Quote then etokenloop stop buf fuel false (t + 1)
    else etokenloop stop buf fuel quoting (t + 2)

def etoken (sep buf : List UInt8) (t : ℕ) : ℕ := etokenloop (among sep) buf buf.length false t

/-- The loop over separators of `gettokens`, which writes zeros. -/
def zeroloop (sep : List UInt8) : ℕ → List UInt8 → ℕ → List UInt8 × ℕ
  | 0, buf, s => (buf, s)
  | fuel + 1, buf, s =>
    if buf.getD s 0 ≠ 0 ∧ among sep (buf.getD s 0) then zeroloop sep fuel (buf.set s 0) (s + 1) else (buf, s)

/-- The buffer afterwards and where the arguments are. -/
def gettokens (sep : List UInt8) : ℕ → List UInt8 → ℕ → List UInt8 × List ℕ
  | 0, buf, _ => (buf, [])
  | maxargs + 1, buf, s =>
    let (buf, s) := zeroloop sep buf.length buf s
    if buf.getD s 0 = 0 then (buf, [])
    else
      let r := gettokens sep maxargs buf (etoken sep buf s)
      (r.1, s :: r.2)

def skiploop (sep buf : List UInt8) : ℕ → ℕ → ℕ
  | 0, s => s
  | fuel + 1, s => if buf.getD s 0 ≠ 0 ∧ among sep (buf.getD s 0) then skiploop sep buf fuel (s + 1) else s

def tokenize : ℕ → List UInt8 → ℕ → List UInt8 × List ℕ
  | 0, buf, _ => (buf, [])
  | maxargs + 1, buf, s =>
    let s := skiploop qsep buf buf.length s
    if buf.getD s 0 = 0 then (buf, [])
    else
      let (buf, t) := qtoken qsep buf s
      let r := tokenize maxargs buf t
      (r.1, s :: r.2)

/-- A token is read from a text: what it stands for, and the text after it. -/
inductive Scan (stop : UInt8 → Bool) : Bool → List UInt8 → List UInt8 → List UInt8 → Prop
  | done {quoting : Bool} : Scan stop quoting [] [] []
  | stop {c : UInt8} {text : List UInt8} (h : stop c = true) : Scan stop false (c :: text) [] (c :: text)
  | copy {quoting : Bool} {c : UInt8} {text out rest : List UInt8} (h : quoting = true ∨ stop c = false)
      (hc : c ≠ Quote) (next : Scan stop quoting text out rest) : Scan stop quoting (c :: text) (c :: out) rest
  | start {text out rest : List UInt8} (h : stop Quote = false) (next : Scan stop true text out rest) :
      Scan stop false (Quote :: text) out rest
  | finish {text out rest : List UInt8} (h : text.head? ≠ some Quote) (next : Scan stop false text out rest) :
      Scan stop true (Quote :: text) out rest
  | twice {text out rest : List UInt8} (next : Scan stop true text out rest) :
      Scan stop true (Quote :: Quote :: text) (Quote :: out) rest

section Loops

variable {stop : UInt8 → Bool}

theorem getD_mid (a : List UInt8) (c : UInt8) (b : List UInt8) : (a ++ c :: b).getD a.length 0 = c := by
  rw [List.getD_append_right _ _ _ _ le_rfl, Nat.sub_self, List.getD_cons_zero]

theorem getD_next (a : List UInt8) (c : UInt8) (b : List UInt8) :
    (a ++ c :: b).getD (a.length + 1) 0 = b.headD 0 := by
  rw [List.getD_append_right _ _ _ _ (Nat.le_add_right _ 1), Nat.add_sub_cancel_left, List.getD_cons_succ]
  cases b with
  | nil => rfl
  | cons d b => rfl

/-- A byte is written behind the place where it was read, across a gap. -/
theorem set_gap (pre : List UInt8) {gap : List UInt8} (hgap : 0 ∉ gap) {c : UInt8} (hc : c ≠ 0)
    (rest : List UInt8) :
    ∃ gap' : List UInt8, 0 ∉ gap' ∧ gap'.length = gap.length ∧
      (pre ++ gap ++ c :: rest).set pre.length c = pre ++ [c] ++ gap' ++ rest := by
  rw [List.append_assoc, List.set_append_right _ _ le_rfl, Nat.sub_self]
  cases gap with
  | nil => exact ⟨[], List.not_mem_nil, rfl, by simp⟩
  | cons g gap =>
    refine ⟨gap ++ [c], ?_, by simp, by simp⟩
    rw [List.mem_append, List.mem_singleton]
    rintro (h | h)
    · exact hgap (List.mem_cons_of_mem _ h)
    · exact hc h.symm

theorem zero_not_mem_concat {gap : List UInt8} (hgap : 0 ∉ gap) : 0 ∉ gap ++ [Quote] := by
  rw [List.mem_append, List.mem_singleton]
  rintro (h | h)
  · exact hgap h
  · exact absurd h (by decide)

/-- The loop in place follows the scan: what the token stands for is before `s`, the text after it
from `t` on. -/
theorem unquoteloop_scan {quoting : Bool} {text out rest : List UInt8}
    (hscan : Scan stop quoting text out rest) (hzero : 0 ∉ text) (pre : List UInt8) {gap : List UInt8}
    (hgap : 0 ∉ gap) {fuel : ℕ} (hfuel : text.length ≤ fuel) :
    ∃ gap' : List UInt8, 0 ∉ gap' ∧ gap'.length + out.length + rest.length = gap.length + text.length ∧
      unquoteloop stop fuel quoting (pre ++ gap ++ (text ++ [0])) pre.length (pre ++ gap).length =
        (pre ++ out ++ gap' ++ (rest ++ [0]), (pre ++ out).length, (pre ++ out ++ gap').length) := by
  induction hscan generalizing pre gap fuel with
  | done =>
    refine ⟨gap, hgap, rfl, ?_⟩
    rw [List.append_nil pre]
    cases fuel with
    | zero => rfl
    | succ fuel => rw [unquoteloop, List.nil_append, getD_mid, if_pos (.inl rfl)]
  | stop h =>
    refine ⟨gap, hgap, rfl, ?_⟩
    rw [List.append_nil pre, List.cons_append]
    cases fuel with
    | zero => rfl
    | succ fuel => rw [unquoteloop, getD_mid, if_pos (.inr ⟨rfl, h⟩)]
  | @copy quoting c text out rest h hc next ih =>
    obtain ⟨fuel, rfl⟩ : ∃ k, fuel = k + 1 := ⟨fuel - 1, by rw [List.length_cons] at hfuel; omega⟩
    have hc0 : c ≠ 0 := fun h => hzero (h ▸ List.mem_cons_self)
    obtain ⟨gap1, hgap1, hlen1, hset⟩ := set_gap pre hgap hc0 (text ++ [0])
    obtain ⟨gap2, hgap2, hlen2, hrun⟩ := ih (fun h => hzero (List.mem_cons_of_mem _ h)) (pre ++ [c]) hgap1
      (Nat.le_of_succ_le_succ hfuel)
    refine ⟨gap2, hgap2, by rw [List.length_cons, List.length_cons]; omega, ?_⟩
    rw [List.cons_append, unquoteloop, getD_mid, if_neg, if_pos hc, hset]
    · rw [show pre.length + 1 = (pre ++ [c]).length by simp,
        show (pre ++ gap).length + 1 = (pre ++ [c] ++ gap1).length by simp [hlen1]; omega, hrun]
      simp
    · rintro (hc' | ⟨hq, hs⟩)
      · exact hc0 hc'
      · rcases h with h | h
        · rw [hq] at h
          cases h
        · rw [h] at hs
          cases hs
  | @start text out rest h next ih =>
    obtain ⟨fuel, rfl⟩ : ∃ k, fuel = k + 1 := ⟨fuel - 1, by rw [List.length_cons] at hfuel; omega⟩
    obtain ⟨gap2, hgap2, hlen2, hrun⟩ := ih (fun h => hzero (List.mem_cons_of_mem _ h)) pre
      (zero_not_mem_concat hgap)
      (Nat.le_of_succ_le_succ hfuel)
    refine ⟨gap2, hgap2, by simp at hlen2 ⊢; omega, ?_⟩
    rw [List.cons_append, unquoteloop, getD_mid, if_neg, if_neg (not_not.mpr rfl), if_pos rfl]
    · rw [← hrun]
      simp [Nat.add_assoc]
    · rintro (hc | ⟨-, hs⟩)
      · exact absurd hc (by decide)
      · rw [h] at hs
        cases hs
  | @finish text out rest h next ih =>
    obtain ⟨fuel, rfl⟩ : ∃ k, fuel = k + 1 := ⟨fuel - 1, by rw [List.length_cons] at hfuel; omega⟩
    obtain ⟨gap2, hgap2, hlen2, hrun⟩ := ih (fun h => hzero (List.mem_cons_of_mem _ h)) pre
      (zero_not_mem_concat hgap)
      (Nat.le_of_succ_le_succ hfuel)
    refine ⟨gap2, hgap2, by simp at hlen2 ⊢; omega, ?_⟩
    have hnext : (text ++ [0]).headD 0 ≠ Quote := by
      cases text with
      | nil => decide
      | cons d text => exact fun hd => h (congrArg some hd)
    rw [List.cons_append, unquoteloop, getD_mid, getD_next, if_neg, if_neg (not_not.mpr rfl),
      if_neg (by decide), if_pos hnext]
    · rw [← hrun]
      simp [Nat.add_assoc]
    · rintro (hc | ⟨hq, -⟩)
      · exact absurd hc (by decide)
      · cases hq
  | @twice text out rest next ih =>
    obtain ⟨fuel, rfl⟩ : ∃ k, fuel = k + 1 :=
      ⟨fuel - 1, by rw [List.length_cons, List.length_cons] at hfuel; omega⟩
    obtain ⟨gap1, hgap1, hlen1, hset⟩ := set_gap pre (zero_not_mem_concat hgap)
      (show Quote ≠ 0 by decide) (text ++ [0])
    obtain ⟨gap2, hgap2, hlen2, hrun⟩ := ih
      (fun h => hzero (List.mem_cons_of_mem _ (List.mem_cons_of_mem _ h))) (pre ++ [Quote]) hgap1
      (Nat.le_of_succ_le (Nat.le_of_succ_le_succ hfuel))
    refine ⟨gap2, hgap2, by simp at hlen1 hlen2 ⊢; omega, ?_⟩
    rw [List.cons_append, List.cons_append, unquoteloop, getD_mid, getD_next, if_neg,
      if_neg (not_not.mpr rfl), if_neg (by decide), List.headD_cons, if_neg (not_not.mpr rfl),
      show pre ++ gap ++ Quote :: Quote :: (text ++ [0]) =
        pre ++ (gap ++ [Quote]) ++ Quote :: (text ++ [0]) by simp, hset]
    · rw [show pre.length + 1 = (pre ++ [Quote]).length by simp,
        show (pre ++ gap).length + 2 = (pre ++ [Quote] ++ gap1).length by simp [hlen1]; omega, hrun]
      simp
    · rintro (hc | ⟨hq, -⟩)
      · exact absurd hc (by decide)
      · cases hq

theorem etokenloop_scan {quoting : Bool} {text out rest : List UInt8}
    (hscan : Scan stop quoting text out rest) (hzero : 0 ∉ text) (pre : List UInt8) {fuel : ℕ}
    (hfuel : text.length ≤ fuel) :
    ∃ raw : List UInt8, text = raw ++ rest ∧
      etokenloop stop (pre ++ (text ++ [0])) fuel quoting pre.length = (pre ++ raw).length := by
  induction hscan generalizing pre fuel with
  | done =>
    refine ⟨[], rfl, ?_⟩
    rw [List.append_nil]
    cases fuel with
    | zero => rfl
    | succ fuel => rw [etokenloop, List.nil_append, getD_mid, if_pos (.inl rfl)]
  | stop h =>
    refine ⟨[], rfl, ?_⟩
    rw [List.append_nil, List.cons_append]
    cases fuel with
    | zero => rfl
    | succ fuel => rw [etokenloop, getD_mid, if_pos (.inr ⟨rfl, h⟩)]
  | @copy quoting c text out rest h hc next ih =>
    obtain ⟨fuel, rfl⟩ : ∃ k, fuel = k + 1 := ⟨fuel - 1, by rw [List.length_cons] at hfuel; omega⟩
    have hc0 : c ≠ 0 := fun h => hzero (h ▸ List.mem_cons_self)
    obtain ⟨raw, hraw, hrun⟩ := ih (fun h => hzero (List.mem_cons_of_mem _ h)) (pre ++ [c])
      (Nat.le_of_succ_le_succ hfuel)
    refine ⟨c :: raw, congrArg (c :: ·) hraw, ?_⟩
    rw [List.cons_append, etokenloop, getD_mid, if_neg, if_pos hc]
    · simpa using hrun
    · rintro (hc' | ⟨hq, hs⟩)
      · exact hc0 hc'
      · rcases h with h | h
        · rw [hq] at h
          cases h
        · rw [h] at hs
          cases hs
  | @start text out rest h next ih =>
    obtain ⟨fuel, rfl⟩ : ∃ k, fuel = k + 1 := ⟨fuel - 1, by rw [List.length_cons] at hfuel; omega⟩
    obtain ⟨raw, hraw, hrun⟩ := ih (fun h => hzero (List.mem_cons_of_mem _ h)) (pre ++ [Quote])
      (Nat.le_of_succ_le_succ hfuel)
    refine ⟨Quote :: raw, congrArg (Quote :: ·) hraw, ?_⟩
    rw [List.cons_append, etokenloop, getD_mid, if_neg, if_neg (not_not.mpr rfl), if_pos rfl]
    · simpa using hrun
    · rintro (hc | ⟨-, hs⟩)
      · exact absurd hc (by decide)
      · rw [h] at hs
        cases hs
  | @finish text out rest h next ih =>
    obtain ⟨fuel, rfl⟩ : ∃ k, fuel = k + 1 := ⟨fuel - 1, by rw [List.length_cons] at hfuel; omega⟩
    obtain ⟨raw, hraw, hrun⟩ := ih (fun h => hzero (List.mem_cons_of_mem _ h)) (pre ++ [Quote])
      (Nat.le_of_succ_le_succ hfuel)
    refine ⟨Quote :: raw, congrArg (Quote :: ·) hraw, ?_⟩
    have hnext : (text ++ [0]).headD 0 ≠ Quote := by
      cases text with
      | nil => decide
      | cons d text => exact fun hd => h (congrArg some hd)
    rw [List.cons_append, etokenloop, getD_mid, getD_next, if_neg, if_neg (not_not.mpr rfl),
      if_neg (by decide), if_pos hnext]
    · simpa using hrun
    · rintro (hc | ⟨hq, -⟩)
      · exact absurd hc (by decide)
      · cases hq
  | @twice text out rest next ih =>
    obtain ⟨fuel, rfl⟩ : ∃ k, fuel = k + 1 :=
      ⟨fuel - 1, by rw [List.length_cons, List.length_cons] at hfuel; omega⟩
    obtain ⟨raw, hraw, hrun⟩ := ih (fun h => hzero (List.mem_cons_of_mem _ (List.mem_cons_of_mem _ h)))
      (pre ++ [Quote, Quote]) (Nat.le_of_succ_le (Nat.le_of_succ_le_succ hfuel))
    refine ⟨Quote :: Quote :: raw, congrArg (Quote :: Quote :: ·) hraw, ?_⟩
    rw [List.cons_append, List.cons_append, etokenloop, getD_mid, getD_next, if_neg,
      if_neg (not_not.mpr rfl), if_neg (by decide), List.headD_cons, if_neg (not_not.mpr rfl)]
    · simpa using hrun
    · rintro (hc | ⟨hq, -⟩)
      · exact absurd hc (by decide)
      · cases hq

theorem scan_exists (quoting : Bool) (text : List UInt8) : ∃ out rest, Scan stop quoting text out rest := by
  induction hn : text.length using Nat.strong_induction_on generalizing quoting text with
  | _ n ih =>
    rcases text with _ | ⟨c, text⟩
    · exact ⟨_, _, .done⟩
    rw [List.length_cons] at hn
    by_cases hc : c = Quote
    · subst hc
      cases quoting with
      | false =>
        cases hs : stop Quote with
        | true => exact ⟨_, _, .stop hs⟩
        | false =>
          obtain ⟨out, rest, h⟩ := ih text.length (by omega) true text rfl
          exact ⟨_, _, .start hs h⟩
      | true =>
        by_cases hnext : text.head? = some Quote
        · obtain ⟨text, rfl⟩ : ∃ t, text = Quote :: t := by
            cases text with
            | nil => cases hnext
            | cons d text => exact ⟨text, by rw [Option.some.inj hnext]⟩
          rw [List.length_cons] at hn
          obtain ⟨out, rest, h⟩ := ih text.length (by omega) true text rfl
          exact ⟨_, _, .twice h⟩
        · obtain ⟨out, rest, h⟩ := ih text.length (by omega) false text rfl
          exact ⟨_, _, .finish hnext h⟩
    · by_cases hgo : quoting = true ∨ stop c = false
      · obtain ⟨out, rest, h⟩ := ih text.length (by omega) quoting text rfl
        exact ⟨_, _, .copy hgo hc h⟩
      · rw [not_or, Bool.not_eq_true, Bool.not_eq_false] at hgo
        rw [hgo.1]
        exact ⟨_, _, .stop hgo.2⟩

theorem scan_rest {quoting : Bool} {text out rest : List UInt8} (hscan : Scan stop quoting text out rest) :
    rest = [] ∨ ∃ c r, rest = c :: r ∧ stop c = true := by
  induction hscan with
  | done => exact .inl rfl
  | stop h => exact .inr ⟨_, _, rfl, h⟩
  | copy _ _ _ ih => exact ih
  | start _ _ ih => exact ih
  | finish _ _ ih => exact ih
  | twice _ ih => exact ih

theorem scan_out_mem {quoting : Bool} {text out rest : List UInt8} (hscan : Scan stop quoting text out rest)
    {x : UInt8} (hx : x ∈ out) : x ∈ text := by
  induction hscan with
  | done => cases hx
  | stop h => cases hx
  | copy _ _ _ ih =>
    rw [List.mem_cons] at hx ⊢
    exact hx.imp_right ih
  | start _ _ ih => exact List.mem_cons_of_mem _ (ih hx)
  | finish _ _ ih => exact List.mem_cons_of_mem _ (ih hx)
  | twice _ ih =>
    rw [List.mem_cons] at hx
    rcases hx with rfl | hx
    · exact List.mem_cons_self
    · exact List.mem_cons_of_mem _ (List.mem_cons_of_mem _ (ih hx))

end Loops

section Forms

variable {stop : UInt8 → Bool} {rest : List UInt8}

/-- The token ends before what follows. -/
def Ends (stop : UInt8 → Bool) (rest : List UInt8) : Prop :=
  rest = [] ∨ ∃ c r, rest = c :: r ∧ stop c = true ∧ c ≠ Quote

theorem Ends.scan (h : Ends stop rest) : Scan stop false rest [] rest := by
  rcases h with rfl | ⟨c, r, rfl, hc, -⟩
  · exact .done
  · exact .stop hc

theorem Ends.head (h : Ends stop rest) : rest.head? ≠ some Quote := by
  rcases h with rfl | ⟨c, r, rfl, -, hc⟩
  · exact fun h => by cases h
  · exact fun h => hc (Option.some.inj h)

theorem scan_plain {s : List UInt8} (hs : ∀ b ∈ s, stop b = false ∧ b ≠ Quote) (hrest : Ends stop rest) :
    Scan stop false (s ++ rest) s rest := by
  induction s with
  | nil => exact hrest.scan
  | cons b s ih =>
    rw [List.forall_mem_cons] at hs
    exact .copy (.inr hs.1.1) hs.1.2 (ih hs.2)

theorem scan_double (s : List UInt8) (hrest : Ends stop rest) :
    Scan stop true (double s ++ Quote :: rest) s rest := by
  induction s with
  | nil => exact .finish hrest.head hrest.scan
  | cons b s ih =>
    rw [double]
    by_cases hb : b = Quote
    · rw [if_pos hb, hb]
      exact .twice ih
    · rw [if_neg hb]
      exact .copy (.inl rfl) hb ih

/-- The form of a string is read as the string. -/
theorem scan_form {doquote : Option (ℕ → Bool)} {s : Str} {form : List UInt8}
    (hform : quotestrdup doquote s = some form) (hstop : ∀ b : UInt8, 0x20 < b.toNat → stop b = false)
    (hrest : Ends stop rest) : Scan stop false (form ++ rest) s.bytes rest := by
  rcases (quotestrdup_cases hform).1 with ⟨rfl, -, hplain⟩ | rfl
  · exact scan_plain (fun b hb => ⟨hstop b (hplain b hb).1, (hplain b hb).2⟩) hrest
  · rw [List.append_assoc, List.cons_append]
    exact .start (hstop Quote (by decide)) (scan_double s.bytes hrest)

theorem form_head {doquote : Option (ℕ → Bool)} {s : Str} {form : List UInt8}
    (hform : quotestrdup doquote s = some form) (hstop : ∀ b : UInt8, 0x20 < b.toNat → stop b = false) :
    ∃ c r, form = c :: r ∧ stop c = false := by
  rcases (quotestrdup_cases hform).1 with ⟨rfl, hempty, hplain⟩ | rfl
  · obtain ⟨c, r, hs⟩ := List.exists_cons_of_ne_nil hempty
    exact ⟨c, r, hs, hstop c (hplain c (hs ▸ List.mem_cons_self)).1⟩
  · exact ⟨_, _, rfl, hstop Quote (by decide)⟩

theorem mem_double {s : List UInt8} {x : UInt8} (h : x ∈ double s) : x ∈ s := by
  induction s with
  | nil => cases h
  | cons b s ih =>
    rw [double] at h
    split at h
    · simp only [List.mem_cons] at h ⊢
      rcases h with h | h | h
      · exact .inl h
      · exact .inl h
      · exact .inr (ih h)
    · rw [List.mem_cons] at h ⊢
      exact h.imp_right ih

theorem form_nonzero {doquote : Option (ℕ → Bool)} {s : Str} {form : List UInt8}
    (hform : quotestrdup doquote s = some form) : 0 ∉ form := by
  rcases (quotestrdup_cases hform).1 with ⟨rfl, -⟩ | rfl
  · exact s.nonzero
  · rw [List.mem_append, List.mem_cons, List.mem_singleton]
    rintro ((h | h) | h)
    · exact absurd h (by decide)
    · exact s.nonzero (mem_double h)
    · exact absurd h (by decide)

theorem cstr_append {pre s : List UInt8} (hs : 0 ∉ s) (rest : List UInt8) :
    cstr (pre ++ (s ++ 0 :: rest)) pre.length = s := by
  rw [cstr, List.drop_left, List.takeWhile_append_of_pos]
  · rw [List.takeWhile_cons, if_neg (by decide), List.append_nil]
  · intro x hx
    exact decide_eq_true fun h => hs (h ▸ hx)

theorem unquotestrdup_form {doquote : Option (ℕ → Bool)} {s : Str} {form : List UInt8}
    (hform : quotestrdup doquote s = some form) : unquotestrdup form = s.bytes := by
  have hstop : ∀ b : UInt8, 0x20 < b.toNat → (decide (b = 0x20) || decide (b = 0x09)) = false := by
    intro b hb
    rw [Bool.or_eq_false_iff, decide_eq_false_iff_not, decide_eq_false_iff_not]
    constructor
    all_goals
      rintro rfl
      exact absurd hb (by decide)
  have hscan := scan_form hform hstop (.inl rfl)
  rw [List.append_nil] at hscan
  obtain ⟨gap, hgap, -, hrun⟩ := unquoteloop_scan hscan (form_nonzero hform) [] List.not_mem_nil
    (Nat.le_succ _)
  have hstr : ∀ tail, cstr (s.bytes ++ 0 :: tail) 0 = s.bytes := @cstr_append [] _ s.nonzero
  simp only [List.nil_append, List.length_nil] at hrun
  rw [unquotestrdup, hrun]
  have hrest : cstr (s.bytes ++ gap ++ [0]) (s.bytes ++ gap).length = [] :=
    @cstr_append (s.bytes ++ gap) [] List.not_mem_nil []
  simp only [hrest, List.nil_append]
  split
  · rw [List.append_assoc s.bytes, List.take_left, List.append_assoc, List.singleton_append, hstr]
  · rename_i hsame
    rw [List.length_append] at hsame
    rw [List.length_eq_zero_iff.mp (show gap.length = 0 by omega), List.append_nil, hstr]

end Forms

section Tokens

/-- The tokens of a text that starts at `off`: where each starts, what it stands for, and its own
text. At most so many are taken, and `left` is not looked at. -/
inductive Toks (stop : UInt8 → Bool) :
    ℕ → ℕ → List UInt8 → List (ℕ × List UInt8 × List UInt8) → List UInt8 → Prop
  | full {off : ℕ} {text : List UInt8} : Toks stop 0 off text [] text
  | last {n off : ℕ} {text : List UInt8} (h : ∀ c ∈ text, stop c = true) : Toks stop (n + 1) off text [] []
  | next {n off : ℕ} {seps body raw out rest left : List UInt8} {c : UInt8}
      {toks : List (ℕ × List UInt8 × List UInt8)} (hseps : ∀ c ∈ seps, stop c = true) (hc : stop c = false)
      (hraw : c :: body = raw ++ rest) (hscan : Scan stop false (c :: body) out rest)
      (more : Toks stop n (off + seps.length + raw.length) rest toks left) :
      Toks stop (n + 1) off (seps ++ c :: body) ((off + seps.length, out, raw) :: toks) left

variable {stop : UInt8 → Bool} {n off : ℕ} {text left : List UInt8}
  {toks : List (ℕ × List UInt8 × List UInt8)}

theorem scan_raw {quoting : Bool} {out rest : List UInt8} (hscan : Scan stop quoting text out rest) :
    ∃ raw, text = raw ++ rest := by
  induction hscan with
  | done => exact ⟨[], rfl⟩
  | stop h => exact ⟨[], rfl⟩
  | @copy _ c _ _ _ _ _ _ ih => exact ih.imp' (c :: ·) fun _ h => congrArg (c :: ·) h
  | start _ _ ih => exact ih.imp' (Quote :: ·) fun _ h => congrArg (Quote :: ·) h
  | finish _ _ ih => exact ih.imp' (Quote :: ·) fun _ h => congrArg (Quote :: ·) h
  | twice _ ih => exact ih.imp' (Quote :: Quote :: ·) fun _ h => congrArg (Quote :: Quote :: ·) h

theorem toks_exists (stop : UInt8 → Bool) (n off : ℕ) (text : List UInt8) :
    ∃ toks left, Toks stop n off text toks left := by
  induction n generalizing off text with
  | zero => exact ⟨_, _, .full⟩
  | succ n ih =>
    have hseps : ∀ c ∈ text.takeWhile stop, stop c = true := fun c hc => List.mem_takeWhile_imp hc
    rcases hbody : text.dropWhile stop with _ | ⟨c, body⟩
    · refine ⟨_, _, .last fun c hc => ?_⟩
      exact List.dropWhile_eq_nil_iff.mp hbody c hc
    · have hc : stop c = false := by
        have hne : text.dropWhile stop ≠ [] := by rw [hbody]; exact List.cons_ne_nil _ _
        have hhead := List.head_dropWhile_not stop hne
        simp only [hbody, List.head_cons] at hhead
        exact hhead
      obtain ⟨out, rest, hscan⟩ := @scan_exists stop false (c :: body)
      obtain ⟨raw, hraw⟩ := scan_raw hscan
      obtain ⟨toks, left, more⟩ := ih (off + (text.takeWhile stop).length + raw.length) rest
      have htext : text.takeWhile stop ++ c :: body = text := by
        rw [← hbody, List.takeWhile_append_dropWhile]
      have hall := Toks.next hseps hc hraw hscan more
      rw [htext] at hall
      exact ⟨_, left, hall⟩

theorem Toks.nil (h : Toks stop n off [] toks left) : toks = [] := by
  generalize hnil : ([] : List UInt8) = text at h
  cases h with
  | full => rfl
  | last h => rfl
  | next => exact absurd hnil.symm (List.append_ne_nil_of_right_ne_nil _ (List.cons_ne_nil _ _))

/-- One separator may be skipped before. -/
theorem Toks.skip {c : UInt8} (hc : stop c = true) (h : Toks stop n off (c :: text) toks left) :
    ∃ left', Toks stop n (off + 1) text toks left' := by
  generalize htext : c :: text = text' at h
  cases h with
  | full => exact ⟨_, .full⟩
  | last h =>
    subst htext
    exact ⟨_, .last fun d hd => h d (List.mem_cons_of_mem _ hd)⟩
  | @next n off seps body raw out rest left d toks hseps hd hraw hscan more =>
    rcases seps with _ | ⟨e, seps⟩
    · rw [List.nil_append] at htext
      rw [(List.cons.inj htext).1, hd] at hc
      cases hc
    · rw [List.cons_append] at htext
      rw [(List.cons.inj htext).2, List.length_cons, Nat.add_comm seps.length 1, ← Nat.add_assoc]
      rw [List.length_cons, Nat.add_comm seps.length 1, ← Nat.add_assoc] at more
      exact ⟨_, .next (fun c hc => hseps c (List.mem_cons_of_mem _ hc)) hd hraw hscan more⟩

theorem Toks.unskip {c : UInt8} (hc : stop c = true) (h : Toks stop (n + 1) (off + 1) text toks left) :
    Toks stop (n + 1) off (c :: text) toks left := by
  cases h with
  | last h => exact .last (List.forall_mem_cons.mpr ⟨hc, h⟩)
  | @next _ _ seps body raw out rest _ d toks hseps hd hraw hscan more =>
    have hlen : off + 1 + seps.length = off + (c :: seps).length := by
      rw [List.length_cons]
      omega
    rw [hlen] at more ⊢
    exact .next (List.forall_mem_cons.mpr ⟨hc, hseps⟩) hd hraw hscan more

theorem skiploop_seps {sep pre seps : List UInt8} {c : UInt8} (tail : List UInt8) {fuel : ℕ}
    (hzero : 0 ∉ seps) (hseps : ∀ c ∈ seps, among sep c = true) (hc : c = 0 ∨ among sep c = false)
    (hfuel : seps.length ≤ fuel) :
    skiploop sep (pre ++ (seps ++ c :: tail)) fuel pre.length = (pre ++ seps).length := by
  induction seps generalizing pre fuel with
  | nil =>
    rw [List.append_nil, List.nil_append]
    cases fuel with
    | zero => rfl
    | succ fuel =>
      rw [skiploop, getD_mid, if_neg]
      rintro ⟨h, hsep⟩
      rcases hc with hc | hc
      · exact h hc
      · rw [hc] at hsep
        cases hsep
  | cons d seps ih =>
    obtain ⟨fuel, rfl⟩ : ∃ k, fuel = k + 1 := ⟨fuel - 1, by rw [List.length_cons] at hfuel; omega⟩
    rw [List.forall_mem_cons] at hseps
    have hd : d ≠ 0 := fun h => hzero (h ▸ List.mem_cons_self)
    have hnext := @ih (pre ++ [d]) fuel (fun h => hzero (List.mem_cons_of_mem _ h)) hseps.2
      (Nat.le_of_succ_le_succ hfuel)
    rw [List.cons_append, skiploop, getD_mid, if_pos ⟨hd, hseps.1⟩]
    simpa using hnext

theorem zeroloop_seps {sep pre seps : List UInt8} {c : UInt8} (tail : List UInt8) {fuel : ℕ}
    (hzero : 0 ∉ seps) (hseps : ∀ c ∈ seps, among sep c = true) (hc : c = 0 ∨ among sep c = false)
    (hfuel : seps.length ≤ fuel) :
    zeroloop sep fuel (pre ++ (seps ++ c :: tail)) pre.length =
      (pre ++ List.replicate seps.length 0 ++ c :: tail, (pre ++ seps).length) := by
  induction seps generalizing pre fuel with
  | nil =>
    rw [List.length_nil, List.replicate_zero, List.append_nil, List.nil_append]
    cases fuel with
    | zero => rfl
    | succ fuel =>
      rw [zeroloop, getD_mid, if_neg]
      rintro ⟨h, hsep⟩
      rcases hc with hc | hc
      · exact h hc
      · rw [hc] at hsep
        cases hsep
  | cons d seps ih =>
    obtain ⟨fuel, rfl⟩ : ∃ k, fuel = k + 1 := ⟨fuel - 1, by rw [List.length_cons] at hfuel; omega⟩
    rw [List.forall_mem_cons] at hseps
    have hd : d ≠ 0 := fun h => hzero (h ▸ List.mem_cons_self)
    have hnext := @ih (pre ++ [0]) fuel (fun h => hzero (List.mem_cons_of_mem _ h)) hseps.2
      (Nat.le_of_succ_le_succ hfuel)
    rw [List.cons_append, zeroloop, getD_mid, if_pos ⟨hd, hseps.1⟩,
      List.set_append_right _ _ le_rfl, Nat.sub_self, List.set_cons_zero]
    simpa [List.replicate_succ] using hnext

/-- After a token there is a zero, its own or the one of the text. -/
theorem qtoken_scan {sep text out rest : List UInt8} (hscan : Scan (among sep) false text out rest)
    (hzero : 0 ∉ text) (hrest : 0 ∉ rest) (pre : List UInt8) :
    rest = [] ∧ qtoken sep (pre ++ (text ++ [0])) pre.length = (pre ++ out ++ [0], (pre ++ out).length) ∨
      ∃ junk rest', (rest' = rest ∨ ∃ d, among sep d = true ∧ rest = d :: rest') ∧
        out.length + 1 + junk.length + rest'.length = text.length ∧
        qtoken sep (pre ++ (text ++ [0])) pre.length =
          (pre ++ (out ++ 0 :: junk) ++ (rest' ++ [0]), (pre ++ (out ++ 0 :: junk)).length) := by
  have hfuel : text.length ≤ (pre ++ (text ++ [0])).length := by
    simp only [List.length_append]
    omega
  obtain ⟨gap, hgap, hlen, hrun⟩ := unquoteloop_scan hscan hzero pre List.not_mem_nil hfuel
  rw [List.append_nil] at hrun
  rw [List.length_nil] at hlen
  rw [qtoken, hrun]
  rcases gap with _ | ⟨g, gap⟩
  · rw [List.append_nil]
    rcases scan_rest hscan with rfl | ⟨d, r, rfl, hd⟩
    · left
      refine ⟨rfl, ?_⟩
      simp only [List.nil_append, getD_mid]
      rfl
    · right
      have hd0 : d ≠ 0 := fun h => hrest (h ▸ List.mem_cons_self)
      refine ⟨[], r, .inr ⟨d, hd, rfl⟩, by simp only [List.length_cons, List.length_nil] at hlen ⊢; omega, ?_⟩
      simp only [List.cons_append, getD_mid, if_pos hd0, if_true]
      rw [List.set_append_right _ _ le_rfl, Nat.sub_self, List.set_cons_zero]
      simp [Nat.add_assoc]
  · right
    have hg : g ≠ 0 := fun h => hgap (h ▸ List.mem_cons_self)
    refine ⟨gap, rest, .inl rfl, by rw [List.length_cons] at hlen; omega, ?_⟩
    have hne : (pre ++ out ++ g :: gap).length ≠ (pre ++ out).length := by
      simp only [List.length_append, List.length_cons]
      omega
    simp only [List.append_assoc (pre ++ out), List.cons_append, getD_mid, if_pos hg, if_neg hne]
    rw [List.set_append_right _ _ le_rfl, Nat.sub_self, List.set_cons_zero]
    simp

theorem tokenize_end (n : ℕ) (pre : List UInt8) : tokenize n (pre ++ [0]) pre.length = (pre ++ [0], []) := by
  cases n with
  | zero => rfl
  | succ n =>
    have hskip := @skiploop_seps qsep pre [] 0 [] (pre ++ [0]).length List.not_mem_nil
      (fun _ h => by cases h) (.inl rfl) (Nat.zero_le _)
    rw [List.nil_append, List.append_nil] at hskip
    rw [tokenize, hskip, getD_mid, if_pos rfl]

/-- The whole of `tokenize` over the tokens of a text. -/
theorem tokenize_toks (h : Toks (among qsep) n off text toks left) (hzero : 0 ∉ text) {pre : List UInt8}
    (hpre : pre.length = off) :
    ∃ tail, tokenize n (pre ++ (text ++ [0])) off = (pre ++ tail, toks.map Prod.fst) ∧
      ∀ k ∈ toks, cstr (pre ++ tail) k.1 = k.2.1 := by
  induction n generalizing off text toks left pre with
  | zero =>
    cases h
    exact ⟨text ++ [0], rfl, fun _ h => by cases h⟩
  | succ n ih =>
    subst hpre
    cases h with
    | last hall =>
      refine ⟨text ++ [0], ?_, fun _ h => by cases h⟩
      rw [tokenize, skiploop_seps [] hzero hall (.inl rfl) (by simp; omega), ← List.append_assoc, getD_mid,
        if_pos rfl]
      rfl
    | @next _ _ seps body raw out rest _ c toks hseps hc hraw hscan more =>
      have hzbody : 0 ∉ c :: body := fun h => hzero (List.mem_append_right _ h)
      have hzout : 0 ∉ out := fun h => hzbody (scan_out_mem hscan h)
      have hzrest : 0 ∉ rest := fun h => hzbody (hraw ▸ List.mem_append_right _ h)
      have hc0 : c ≠ 0 := fun h => hzbody (h ▸ List.mem_cons_self)
      have hrawlen := congrArg List.length hraw
      rw [List.length_append] at hrawlen
      have hstep : tokenize (n + 1) (pre ++ (seps ++ c :: body ++ [0])) pre.length =
          let q := qtoken qsep (pre ++ seps ++ (c :: body ++ [0])) (pre ++ seps).length
          ((tokenize n q.1 q.2).1, (pre ++ seps).length :: (tokenize n q.1 q.2).2) := by
        rw [List.append_assoc seps, List.cons_append, tokenize,
          skiploop_seps _ (fun h => hzero (List.mem_append_left _ h)) hseps (.inr hc) (by simp; omega),
          ← List.append_assoc pre, getD_mid, if_neg hc0]
      have hfirst : ∀ tail, cstr (pre ++ seps ++ (out ++ 0 :: tail)) (pre ++ seps).length = out :=
        cstr_append hzout
      rw [hstep, List.map_cons, ← List.length_append]
      rcases qtoken_scan hscan hzbody hzrest (pre ++ seps) with
        ⟨rfl, hq⟩ | ⟨junk, rest', hrest', hlen, hq⟩
      · rw [more.nil, hq]
        simp only [tokenize_end]
        refine ⟨seps ++ (out ++ [0]), by simp, fun k hk => ?_⟩
        rw [List.mem_singleton.mp hk, ← List.append_assoc]
        exact hfirst []
      · have hmore : ∃ left', Toks (among qsep) n (pre ++ seps ++ (out ++ 0 :: junk)).length rest' toks left' := by
          have hoff : (pre ++ seps ++ (out ++ 0 :: junk)).length + rest'.length =
              pre.length + seps.length + raw.length + rest.length := by
            simp only [List.length_append, List.length_cons] at hlen hrawlen ⊢
            omega
          rcases hrest' with rfl | ⟨d, hd, rfl⟩
          · rw [Nat.add_right_cancel hoff]
            exact ⟨_, more⟩
          · rw [List.length_cons] at hoff
            rw [show (pre ++ seps ++ (out ++ 0 :: junk)).length =
              pre.length + seps.length + raw.length + 1 by omega]
            exact more.skip hd
        have hzrest' : 0 ∉ rest' := by
          rcases hrest' with rfl | ⟨d, -, rfl⟩
          · exact hzrest
          · exact fun h => hzrest (List.mem_cons_of_mem _ h)
        obtain ⟨left', hmore⟩ := hmore
        obtain ⟨tail, hrun, hstr⟩ := ih hmore hzrest' rfl
        rw [hq]
        simp only [hrun]
        refine ⟨seps ++ (out ++ 0 :: junk) ++ tail, by simp, fun k hk => ?_⟩
        rw [← List.append_assoc, ← List.append_assoc]
        rcases List.mem_cons.mp hk with rfl | hk
        · rw [List.append_assoc (pre ++ seps), List.append_assoc out]
          exact hfirst _
        · exact hstr k hk

/-- The whole of `gettokens`. Where it is not stopped by the count each argument has the text of its
token. -/
theorem gettokens_toks {sep : List UInt8} (h : Toks (among sep) n off text toks left) (hzero : 0 ∉ text)
    {pre : List UInt8} (hpre : pre.length = off) :
    ∃ tail, gettokens sep n (pre ++ (text ++ [0])) off = (pre ++ tail, toks.map Prod.fst) ∧
      (left = [] → (∀ k ∈ toks, cstr (pre ++ tail) k.1 = k.2.2) ∧
        ((text = [] ∨ ∃ c r, text = c :: r ∧ among sep c = true) → ∃ t, tail = 0 :: t)) := by
  induction h generalizing pre with
  | @full off text =>
    refine ⟨text ++ [0], rfl, fun hleft => ⟨fun _ h => (by cases h), fun _ => ⟨[], by rw [hleft]; rfl⟩⟩⟩
  | @last n off text hall =>
    subst hpre
    refine ⟨List.replicate text.length 0 ++ [0], ?_, fun _ => ⟨fun _ h => (by cases h), fun _ => ?_⟩⟩
    · rw [gettokens, zeroloop_seps [] hzero hall (.inl rfl) (by simp; omega)]
      simp only
      rw [if_pos]
      · simp
      · rw [show (pre ++ text).length = (pre ++ List.replicate text.length 0).length by simp, getD_mid]
    · rw [← List.replicate_one, List.replicate_append_replicate, Nat.add_comm, List.replicate_add]
      exact ⟨_, rfl⟩
  | @next n off seps body raw out rest left c toks hseps hc hraw hscan more ih =>
    subst hpre
    have hzbody : 0 ∉ c :: body := fun h => hzero (List.mem_append_right _ h)
    have hzraw : 0 ∉ raw := fun h => hzbody (hraw ▸ List.mem_append_left _ h)
    have hzrest : 0 ∉ rest := fun h => hzbody (hraw ▸ List.mem_append_right _ h)
    have hc0 : c ≠ 0 := fun h => hzbody (h ▸ List.mem_cons_self)
    have hzeros : (pre ++ seps).length = (pre ++ List.replicate seps.length 0).length := by simp
    have hfuel : (c :: body).length ≤ (pre ++ List.replicate seps.length 0 ++ (c :: body ++ [0])).length := by
      simp only [List.length_append]
      omega
    obtain ⟨raw', hraw', hend⟩ := etokenloop_scan hscan hzbody (pre ++ List.replicate seps.length 0) hfuel
    obtain rfl : raw' = raw := List.append_cancel_right (hraw'.symm.trans hraw)
    have hoff : (pre ++ List.replicate seps.length 0 ++ raw').length =
        pre.length + seps.length + raw'.length := by simp [Nat.add_assoc]
    obtain ⟨tail, hrun, hstr⟩ := ih hzrest hoff
    refine ⟨List.replicate seps.length 0 ++ raw' ++ tail, ?_, fun hleft => ⟨fun k hk => ?_, fun hstart => ?_⟩⟩
    · rw [List.append_assoc seps, List.cons_append, gettokens,
        zeroloop_seps _ (fun h => hzero (List.mem_append_left _ h)) hseps (.inr hc) (by simp; omega)]
      rw [List.cons_append] at hend
      simp only [hzeros, getD_mid, if_neg hc0, etoken, hend, hoff]
      rw [← List.cons_append, hraw', List.append_assoc raw', ← List.append_assoc _ raw', hrun]
      simp
    · obtain ⟨hstrs, htail⟩ := hstr hleft
      rw [List.append_assoc _ raw', ← List.append_assoc]
      rcases List.mem_cons.mp hk with rfl | hk
      · obtain ⟨t, rfl⟩ := htail (scan_rest hscan)
        show cstr _ (pre.length + seps.length) = raw'
        rw [show pre.length + seps.length = (pre ++ List.replicate seps.length 0).length by simp]
        exact cstr_append hzraw t
      · rw [← List.append_assoc]
        exact hstrs k hk
    · rcases seps with _ | ⟨d, seps⟩
      · rcases hstart with h | ⟨d, r, h, hd⟩
        · cases h
        · rw [List.nil_append] at h
          rw [← (List.cons.inj h).1, hc] at hd
          cases hd
      · exact ⟨_, rfl⟩

end Tokens

section Joined

theorem schar_inj {a b : UInt8} : schar a = schar b ↔ a = b := by
  refine ⟨fun h => UInt8.toNat_inj.mp ?_, fun h => h ▸ rfl⟩
  have ha := a.toNat_lt
  have hb := b.toNat_lt
  rw [schar, schar] at h
  split at h
  all_goals
    split at h
    all_goals omega

theorem schar_range (b : UInt8) : -0x80 ≤ schar b ∧ schar b < 0x80 := by
  have hb := b.toNat_lt
  rw [schar]
  split
  all_goals omega

theorem strchrloop_isSome (c : UInt8) (s : List UInt8) : (strchrloop (schar c) s).isSome ↔ c ∈ s := by
  induction s with
  | nil => exact ⟨fun h => (by cases h), fun h => (by cases h)⟩
  | cons d s ih =>
    rw [strchrloop, List.mem_cons]
    split
    · rename_i h
      exact ⟨fun _ => .inl (schar_inj.mp h).symm, fun _ => rfl⟩
    · rename_i h
      rw [ih]
      exact ⟨.inr, fun hmem => hmem.resolve_left fun hc => h (schar_inj.mpr hc.symm)⟩

/-- A byte never is a rune of more bytes. -/
theorem among_iff {sep : List UInt8} {c : UInt8} (hc : c ≠ 0) : among sep c = true ↔ c ∈ sep := by
  obtain ⟨hlow, hhigh⟩ := schar_range c
  have hne : schar c ≠ 0 := fun h => hc (schar_inj.mp h)
  rw [among, utfrune, if_pos hhigh, strchr, if_neg hne, Int.bmod_eq_of_le (by omega) (by omega)]
  exact strchrloop_isSome c sep

theorem among_qsep (b : UInt8) (hb : 0x20 < b.toNat) : among qsep b = false := by
  have hb0 : b ≠ 0 := fun h => by
    rw [h] at hb
    exact absurd hb (by decide)
  rw [← Bool.not_eq_true, among_iff hb0]
  intro h
  have hall : qsep.all (fun c => c.toNat ≤ 0x20) := by decide
  have hle := List.all_eq_true.mp hall b h
  simp only [decide_eq_true_eq] at hle
  omega

variable {doquote : Option (ℕ → Bool)} {strs : List Str} {forms : List (List UInt8)}

/-- The forms joined by blanks have the strings for tokens. -/
theorem toks_forms (h : List.Forall₂ (fun s form => quotestrdup doquote s = some form) strs forms)
    {n : ℕ} (hn : strs.length ≤ n) (off : ℕ) :
    ∃ toks, Toks (among qsep) n off ([0x20].intercalate forms) toks [] ∧
      toks.map (fun k => k.2.1) = strs.map Str.bytes ∧ toks.map (fun k => k.2.2) = forms := by
  induction h generalizing n off with
  | nil =>
    refine ⟨[], ?_, rfl, rfl⟩
    cases n with
    | zero => exact .full
    | succ n => exact .last fun _ h => by cases h
  | @cons s form strs forms hform hforms ih =>
    obtain ⟨n, rfl⟩ : ∃ k, n = k + 1 := ⟨n - 1, by rw [List.length_cons] at hn; omega⟩
    obtain ⟨c, r, rfl, hc⟩ := form_head hform among_qsep
    have hblank : among qsep 0x20 = true := by decide
    rw [List.length_cons, Nat.succ_le_succ_iff] at hn
    -- what follows the form is empty, or a blank and the other forms
    have hrest : ∃ rest toks, [0x20].intercalate ((c :: r) :: forms) = c :: r ++ rest ∧
        Ends (among qsep) rest ∧ Toks (among qsep) n (off + 0 + (c :: r).length) rest toks [] ∧
        toks.map (fun k => k.2.1) = strs.map Str.bytes ∧ toks.map (fun k => k.2.2) = forms := by
      rcases hforms with _ | ⟨hform', hforms⟩
      · obtain ⟨toks, htoks, hout, hraw⟩ := ih (Nat.zero_le n) (off + 0 + (c :: r).length)
        exact ⟨[], toks, by simp, .inl rfl, htoks, hout, hraw⟩
      · obtain ⟨n, rfl⟩ : ∃ k, n = k + 1 := ⟨n - 1, by rw [List.length_cons] at hn; omega⟩
        obtain ⟨toks, htoks, hout, hraw⟩ := ih hn (off + 0 + (c :: r).length + 1)
        exact ⟨_, toks, by simp [List.intercalate], .inr ⟨_, _, rfl, hblank, by decide⟩,
          htoks.unskip hblank, hout, hraw⟩
    obtain ⟨rest, toks, hjoin, hends, htoks, hout, hraw⟩ := hrest
    rw [hjoin]
    refine ⟨_, @Toks.next _ n off [] _ (c :: r) _ rest [] c toks (fun _ h => by cases h) hc rfl
      (scan_form hform among_qsep hends) htoks, ?_, ?_⟩
    · rw [List.map_cons, List.map_cons, hout]
    · rw [List.map_cons, hraw]

theorem join_nonzero (h : List.Forall₂ (fun s form => quotestrdup doquote s = some form) strs forms) :
    0 ∉ [0x20].intercalate forms := by
  induction h with
  | nil => exact List.not_mem_nil
  | @cons s form strs forms hform hforms ih =>
    rcases forms with _ | ⟨form', forms⟩
    · simpa [List.intercalate] using form_nonzero hform
    · rw [show [0x20].intercalate (form :: form' :: forms) =
          form ++ 0x20 :: [0x20].intercalate (form' :: forms) by simp [List.intercalate],
        List.mem_append, List.mem_cons]
      rintro (h | h | h)
      · exact form_nonzero hform h
      · exact absurd h (by decide)
      · exact ih h

/-- Quoting and reading back are inverse. -/
theorem quote_inverse (doquote : Option (ℕ → Bool)) :
    (∀ (strs : List Str) (forms : List (List UInt8)),
      List.Forall₂ (fun s form => quotestrdup doquote s = some form) strs forms →
      ∀ maxargs : ℕ, strs.length ≤ maxargs →
      ∃ buf buf' args, tokenize maxargs ([0x20].intercalate forms ++ [0]) 0 = (buf, args) ∧
        args.map (cstr buf) = strs.map Str.bytes ∧
        gettokens qsep maxargs ([0x20].intercalate forms ++ [0]) 0 = (buf', args) ∧
        args.map (cstr buf') = forms) ∧
    (∀ text : List UInt8, 0 ∉ text → ∀ maxargs : ℕ,
      (gettokens qsep maxargs (text ++ [0]) 0).2 = (tokenize maxargs (text ++ [0]) 0).2) ∧
    (∀ (s : Str) (form : List UInt8), quotestrdup doquote s = some form →
      unquotestrdup form = s.bytes ∧ (needsquotes doquote s).2 = form.length) ∧
    ∀ s : Str, quotestrdup doquote s = none → 2 ^ 31 ≤ (Quote :: double s.bytes ++ [Quote]).length + 1 := by
  refine ⟨fun strs forms h maxargs hmax => ?_, fun text hzero maxargs => ?_, fun s form h => ?_,
    fun s => quotestrdup_none⟩
  · obtain ⟨toks, htoks, hout, hraw⟩ := toks_forms h hmax 0
    obtain ⟨tail, ht, hts⟩ := @tokenize_toks _ _ _ _ _ htoks (join_nonzero h) [] rfl
    obtain ⟨tail', hg, hgs⟩ := @gettokens_toks _ _ _ _ _ _ htoks (join_nonzero h) [] rfl
    refine ⟨_, _, _, ht, ?_, hg, ?_⟩
    · rw [List.map_map, ← hout]
      exact List.map_congr_left hts
    · rw [List.map_map, ← hraw]
      exact List.map_congr_left (hgs rfl).1
  · obtain ⟨toks, left, htoks⟩ := toks_exists (among qsep) maxargs 0 text
    obtain ⟨tail, ht, -⟩ := @tokenize_toks _ _ _ _ _ htoks hzero [] rfl
    obtain ⟨tail', hg, -⟩ := @gettokens_toks _ _ _ _ _ _ htoks hzero [] rfl
    rw [List.nil_append] at ht hg
    rw [ht, hg]
  · exact ⟨unquotestrdup_form h, (quotestrdup_cases h).2⟩

theorem quote_inverse_blank :
    tokenize 2 ([0x20].intercalate [[0x27, 0x61, 0x20, 0x27], [0x62]] ++ [0]) 0 =
        ([0x61, 0x20, 0, 0x27, 0x20, 0x62, 0], [0, 5]) ∧
      ∃ buf args, tokenize 2 ([0x20].intercalate [[0x27, 0x61, 0x20, 0x27], [0x62]] ++ [0]) 0 = (buf, args) ∧
        args.map (cstr buf) = [[0x61, 0x20], [0x62]] := by
  refine ⟨by decide, ?_⟩
  obtain ⟨buf, -, args, h, hstrs, -⟩ := (quote_inverse none).1
    [⟨[0x61, 0x20], by decide, by decide⟩, ⟨[0x62], by decide, by decide⟩]
    [[0x27, 0x61, 0x20, 0x27], [0x62]] (.cons (by decide) (.cons (by decide) .nil)) 2 le_rfl
  exact ⟨buf, args, h, hstrs⟩

end Joined

end Petele.Libc
