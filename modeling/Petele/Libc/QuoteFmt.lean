import Petele.Libc.Quote

namespace Petele.Libc

open Lib

def Runeself : ℕ := 0x80

/-- A sink that is flushed when it is full. What went out is bytes, or runes. -/
structure Fmt where
  runes : Bool
  width : ℤ
  prec : ℤ
  fmtLeft : Bool
  fmtPrec : Bool
  fmtSharp : Bool
  out : List ℕ
  nfmt : ℤ

namespace Fmt

def put (f : Fmt) (units : List ℕ) : Fmt :=
  { f with out := f.out ++ units, nfmt := wrap (f.nfmt + units.length) }

/-- `FMTRCHAR` into runes, `FMTRUNE` into bytes. -/
def rune (f : Fmt) (r : ℕ) : Fmt :=
  if f.runes then f.put [r]
  else if r < Runeself then f.put [r]
  else f.put ((runetochar r).map UInt8.toNat)

/-- `_rfmtpad` into runes, `_fmtpad` into bytes. -/
def pad (f : Fmt) (n : ℤ) : Fmt := f.put (List.replicate n.toNat 0x20)

/-- The bytes of what went out. -/
def text (f : Fmt) : List UInt8 :=
  if f.runes then f.out.flatMap runetochar else f.out.map UInt8.ofNat

end Fmt

/-- The rune at `m` and its width, unless it goes on behind `me`. -/
def readrune (m : List UInt8) (left : ℤ) : Option (ℕ × ℕ) :=
  let r := (m.headD 0).toNat
  if r < Runeself then some (r, 1)
  else if left ≥ UTFmax ∨ fullrune m left.toNat then chartorune (m ++ [0])
  else none

/-- The loop of `_fmtcpy`. -/
def cpyloop : ℕ → List UInt8 → ℤ → Fmt → Fmt
  | 0, _, _, f => f
  | nc + 1, m, left, f =>
    match readrune m left with
    | some (r, w) => cpyloop nc (m.drop w) (left - w) (f.rune r)
    | none => f

def fmtcpy (f : Fmt) (vm : List UInt8) (n sz : ℤ) : Fmt :=
  let n := if f.fmtPrec ∧ n > f.prec then f.prec else n
  let f := if f.fmtLeft then f else f.pad (wrap (f.width - n))
  let f := cpyloop n.toNat vm sz f
  if f.fmtLeft then f.pad (wrap (f.width - n)) else f

def fmtrcpy (f : Fmt) (vm : List ℕ) (n : ℤ) : Fmt :=
  let n := if f.fmtPrec ∧ n > f.prec then f.prec else n
  let f := if f.fmtLeft then f else f.pad (wrap (f.width - n))
  let f := (vm.take n.toNat).foldl Fmt.rune f
  if f.fmtLeft then f.pad (wrap (f.width - n)) else f

/-- The next rune in `qstrfmt`. Of one in memory the byte that stands first is read, its lowest. -/
def qnext : Input → ℤ → Option (ℕ × Input × ℤ)
  | .s m, left =>
    match readrune m left with
    | some (r, w) => some (r, .s (m.drop w), left - w)
    | none => none
  | .r rm, left => if left ≤ 0 then none else some (rm.headD 0 % 0x100, .r rm.tail, left - 1)

/-- The loop of `qstrfmt`. -/
def qloop : ℕ → Input → ℤ → Fmt → Fmt
  | 0, _, _, f => f
  | nc + 1, input, left, f =>
    match qnext input left with
    | some (r, input, left) => qloop nc input left (if r = 0x27 then (f.rune r).rune r else f.rune r)
    | none => f

/-- How far it is to `me`, or to `rme`. -/
def Input.left (q : Quoteinfo) : Input → ℤ
  | .s _ => q.nbytesin
  | .r _ => q.nrunesin

def qstrfmt (input : Input) (q : Quoteinfo) (f : Fmt) : Fmt :=
  let n := if f.runes then q.nrunesout else q.nbytesout
  let f := if f.fmtLeft then f else f.pad (wrap (f.width - n))
  let f := (qloop q.nrunesin.toNat input (input.left q) (f.rune 0x27)).rune 0x27
  if f.fmtLeft then f.pad (wrap (f.width - n)) else f

/-- What is found out before anything is put out. -/
def foreseen (doquote : Option (ℕ → Bool)) (input : Input) (f : Fmt) : Quoteinfo :=
  quotesetup doquote 0x7FFFFFFF f.runes input (if f.fmtPrec then f.prec else -1) f.fmtSharp

/-- `%q` of bytes, `%Q` of runes. -/
def quotestrfmt (doquote : Option (ℕ → Bool)) (input : Option Input) (f : Fmt) : Fmt :=
  match input with
  | none => fmtcpy f [0x3C, 0x6E, 0x69, 0x6C, 0x3E] 5 5
  | some input =>
    let q := foreseen doquote input f
    if q.quoted then qstrfmt input q f
    else
      match input with
      | .s s => fmtcpy f s q.nrunesin q.nbytesin
      | .r r => fmtrcpy f r q.nrunesin

section Out

def utf8 (cs : List Char) : List UInt8 := cs.flatMap fun c => runetochar c.toNat

theorem utf8_cons (c : Char) (cs : List Char) : utf8 (c :: cs) = runetochar c.toNat ++ utf8 cs :=
  List.flatMap_cons

theorem utf8_append (cs ds : List Char) : utf8 (cs ++ ds) = utf8 cs ++ utf8 ds := List.flatMap_append

theorem utf8_inj {cs ds : List Char} (h : utf8 cs = utf8 ds) : cs = ds := by
  have hc := decodeloop_chars cs (utf8 cs).length le_rfl
  have hd := decodeloop_chars ds (utf8 ds).length le_rfl
  rw [utf8, utf8] at h
  rw [utf8, h] at hc
  have hmap := congrArg (List.map Prod.fst) (hc.symm.trans hd)
  rw [List.map_map, List.map_map] at hmap
  exact List.map_injective_iff.mpr (fun a b hab => Char.toNat_inj.mp hab) hmap

/-- The text grows by `cs`, and the count by the units of `cs`. -/
structure Wrote (f g : Fmt) (cs : List Char) : Prop where
  runes : g.runes = f.runes
  width : g.width = f.width
  left : g.fmtLeft = f.fmtLeft
  text : g.text = f.text ++ utf8 cs
  units : g.out.length = f.out.length + if f.runes then cs.length else (utf8 cs).length
  nfmt : wrap g.nfmt = wrap (f.nfmt + (if f.runes then cs.length else (utf8 cs).length : ℕ))

variable {f g h : Fmt} {cs ds : List Char}

theorem Wrote.refl (f : Fmt) : Wrote f f [] :=
  ⟨rfl, rfl, rfl, (List.append_nil _).symm, by simp [utf8], by simp [utf8]⟩

theorem Wrote.trans (hf : Wrote f g cs) (hg : Wrote g h ds) : Wrote f h (cs ++ ds) := by
  refine ⟨hg.runes.trans hf.runes, hg.width.trans hf.width, hg.left.trans hf.left, ?_, ?_, ?_⟩
  · rw [hg.text, hf.text, utf8_append, List.append_assoc]
  · rw [hg.units, hf.units, hf.runes, utf8_append, List.length_append, List.length_append]
    split_ifs <;> omega
  · rw [hg.nfmt, ← wrap_wrap_add, hf.nfmt, wrap_wrap_add, hf.runes, utf8_append, List.length_append,
      List.length_append, add_assoc]
    congr 1
    split_ifs <;> omega

theorem map_ofNat_toNat (s : List UInt8) : (s.map UInt8.toNat).map UInt8.ofNat = s := by
  rw [List.map_map]
  conv_rhs => rw [← List.map_id s]
  exact List.map_congr_left fun b _ => UInt8.ofNat_toNat

theorem runetochar_low {r : ℕ} (hr : r < Runeself) : runetochar r = [UInt8.ofNat r] := by
  rw [runetochar, if_pos (show r ≤ Rune1 from Nat.le_of_lt_succ hr)]

theorem wrote_rune (f : Fmt) (c : Char) : Wrote f (f.rune c.toNat) [c] := by
  have hutf : utf8 [c] = runetochar c.toNat := List.append_nil _
  rw [Fmt.rune]
  by_cases hrunes : f.runes = true
  · rw [if_pos hrunes]
    refine ⟨rfl, rfl, rfl, ?_, ?_, ?_⟩
    · simp [Fmt.text, Fmt.put, hrunes, hutf]
    · simp [Fmt.put, hrunes]
    · simp [Fmt.put, hrunes]
  · rw [if_neg hrunes]
    rw [Bool.not_eq_true] at hrunes
    by_cases hlow : c.toNat < Runeself
    · rw [if_pos hlow]
      refine ⟨rfl, rfl, rfl, ?_, ?_, ?_⟩
      · simp [Fmt.text, Fmt.put, hrunes, hutf, runetochar_low hlow]
      · simp [Fmt.put, hrunes, hutf, runetochar_low hlow]
      · simp [Fmt.put, hrunes, hutf, runetochar_low hlow]
    · rw [if_neg hlow]
      refine ⟨rfl, rfl, rfl, ?_, ?_, ?_⟩
      · simp only [Fmt.text, Fmt.put, hrunes, hutf, List.map_append, map_ofNat_toNat]
        rfl
      · simp [Fmt.put, hrunes, hutf]
      · simp [Fmt.put, hrunes, hutf]

theorem wrote_pad (f : Fmt) {n : ℤ} (hn : n ≤ 0) : Wrote f (f.pad n) [] := by
  rw [Fmt.pad, Int.toNat_of_nonpos hn]
  exact ⟨rfl, rfl, rfl, by simp [Fmt.text, Fmt.put, utf8], by simp [Fmt.put, utf8], by simp [Fmt.put, utf8]⟩

end Out

section Loops

theorem fullrune_cons (b : UInt8) (s : List UInt8) {n : ℕ} (hn : 0 < n) :
    fullrune (b :: s) n = if b.toNat < Tx then true else fullloop b.toNat n 2 3 := if_neg (by omega)

/-- All bytes of a character are enough for it. -/
theorem fullrune_char (c : Char) (s : List UInt8) {n : ℕ} (hn : (String.utf8EncodeChar c).length ≤ n) :
    fullrune (String.utf8EncodeChar c ++ s) n = true := by
  have hrange := char_range c
  have htx : Tx = 0x80 := rfl
  have ht3 : T 3 = 0xE0 := rfl
  have ht4 : T (3 + 1) = 0xF0 := rfl
  rw [String.utf8EncodeChar, show c.val.toNat = c.toNat from rfl] at hn ⊢
  generalize c.toNat = v at *
  split at hn
  · rename_i hone
    rw [List.length_singleton] at hn
    rw [if_pos hone, List.singleton_append, fullrune_cons _ _ hn, toNat_byte (by omega), if_pos (by omega)]
  · rename_i hone
    rw [if_neg hone]
    split at hn
    · rename_i htwo
      replace hn : 2 ≤ n := hn
      rw [if_pos htwo, List.cons_append, fullrune_cons _ _ (by omega), toNat_byte (by omega),
        if_neg (by omega), fullloop, if_pos (by omega)]
      exact decide_eq_true hn
    · rename_i htwo
      rw [if_neg htwo]
      split at hn
      · rename_i hthree
        replace hn : 3 ≤ n := hn
        rw [if_pos hthree, List.cons_append, fullrune_cons _ _ (by omega), toNat_byte (by omega),
          if_neg (by omega), fullloop, if_neg (by omega), fullloop, if_pos (by omega)]
        exact decide_eq_true hn
      · rename_i hthree
        replace hn : 4 ≤ n := hn
        rw [if_neg hthree, List.cons_append, fullrune_cons _ _ (by omega), toNat_byte (by omega),
          if_neg (by omega), fullloop, if_neg (by omega), fullloop, if_neg (by omega), fullloop]
        exact decide_eq_true hn

theorem length_runetochar_pos (c : Char) : 0 < (runetochar c.toNat).length := by
  rw [runetochar_char]
  exact List.length_pos_iff.mpr (utf8_ne_nil c)

theorem readrune_char (c : Char) (cs : List Char) :
    readrune (utf8 (c :: cs)) (utf8 (c :: cs)).length = some (c.toNat, (runetochar c.toNat).length) := by
  have hpos := length_runetochar_pos c
  have hchar := chartorune_char c (utf8 cs ++ [0])
  rw [← runetochar_char, ← List.append_assoc] at hchar
  have hfull := @fullrune_char c (utf8 cs) (runetochar c.toNat ++ utf8 cs).length
    (by rw [← runetochar_char, List.length_append]; exact Nat.le_add_right _ _)
  rw [← runetochar_char] at hfull
  rw [utf8_cons]
  obtain ⟨b, s, hb⟩ := List.exists_cons_of_length_pos hpos
  by_cases hlow : b.toNat < Runeself
  · rw [hb, List.cons_append, List.cons_append, chartorune, if_pos (show b.toNat < Tx from hlow)] at hchar
    rw [hb, List.cons_append, readrune, List.headD_cons, if_pos hlow, hchar, ← hb]
  · rw [readrune, if_neg (by rw [hb]; exact hlow), if_pos (.inr (by rw [Int.toNat_natCast]; exact hfull)), hchar]

theorem utf8_drop (c : Char) (cs : List Char) : (utf8 (c :: cs)).drop (runetochar c.toNat).length = utf8 cs := by
  rw [utf8_cons, List.drop_left]

theorem cpyloop_wrote (cs : List Char) (f : Fmt) :
    Wrote f (cpyloop cs.length (utf8 cs) (utf8 cs).length f) cs := by
  induction cs generalizing f with
  | nil => exact .refl f
  | cons c cs ih =>
    have hleft : ((utf8 (c :: cs)).length : ℤ) - (runetochar c.toNat).length = (utf8 cs).length := by
      rw [utf8_cons, List.length_append]
      omega
    rw [List.length_cons, cpyloop, readrune_char]
    dsimp only
    rw [utf8_drop, hleft]
    exact (wrote_rune f c).trans (ih _)

theorem foldl_wrote (cs : List Char) (f : Fmt) : Wrote f ((cs.map Char.toNat).foldl Fmt.rune f) cs := by
  induction cs generalizing f with
  | nil => exact .refl f
  | cons c cs ih => exact (wrote_rune f c).trans (ih _)

/-- A quote is put out twice. -/
def dbl (cs : List Char) : List Char := cs.flatMap fun c => if c.toNat = 0x27 then [c, c] else [c]

theorem dbl_cons (c : Char) (cs : List Char) :
    dbl (c :: cs) = (if c.toNat = 0x27 then [c, c] else [c]) ++ dbl cs := List.flatMap_cons

theorem wrote_twice (f : Fmt) (c : Char) :
    Wrote f (if c.toNat = 0x27 then (f.rune c.toNat).rune c.toNat else f.rune c.toNat)
      (if c.toNat = 0x27 then [c, c] else [c]) := by
  split_ifs
  · exact (wrote_rune f c).trans (wrote_rune _ c)
  · exact wrote_rune f c

theorem qloop_bytes (cs : List Char) (f : Fmt) :
    Wrote f (qloop cs.length (.s (utf8 cs)) (utf8 cs).length f) (dbl cs) := by
  induction cs generalizing f with
  | nil => exact .refl f
  | cons c cs ih =>
    have hleft : ((utf8 (c :: cs)).length : ℤ) - (runetochar c.toNat).length = (utf8 cs).length := by
      rw [utf8_cons, List.length_append]
      omega
    rw [List.length_cons, qloop, qnext, readrune_char, dbl_cons]
    dsimp only
    rw [utf8_drop, hleft]
    exact (wrote_twice f c).trans (ih _)

/-- The character that the first byte of a rune is taken for. -/
def lowbyte (c : Char) : Char := Char.ofNat (c.toNat % 0x100)

theorem toNat_lowbyte (c : Char) : (lowbyte c).toNat = c.toNat % 0x100 := by
  obtain ⟨d, hd⟩ := @exists_char (c.toNat % 0x100) (.inl (by omega))
  rw [lowbyte, ← hd, Char.ofNat_toNat]

theorem qloop_runes (cs : List Char) (f : Fmt) :
    Wrote f (qloop cs.length (.r (cs.map Char.toNat)) cs.length f) (dbl (cs.map lowbyte)) := by
  induction cs generalizing f with
  | nil => exact .refl f
  | cons c cs ih =>
    have hleft : ((c :: cs).length : ℤ) - 1 = cs.length := by
      rw [List.length_cons]
      omega
    rw [List.length_cons, qloop, qnext, if_neg (by omega), List.map_cons, List.map_cons, dbl_cons]
    dsimp only [List.headD_cons, List.tail_cons]
    rw [← List.length_cons (a := c), hleft, ← toNat_lowbyte]
    exact (wrote_twice f (lowbyte c)).trans (ih _)

end Loops

section Foreseen

variable {doquote : Option (ℕ → Bool)} {runesout : Bool} {input : Input} {cs : List Char} {q : Quoteinfo}

/-- The characters of a string of bytes or of runes. -/
inductive Denotes : Input → List Char → Prop
  | bytes (cs : List Char) : Denotes (.s (utf8 cs)) cs
  | runes (cs : List Char) : Denotes (.r (cs.map Char.toNat)) cs

theorem Denotes.next {c : Char} (h : Denotes input (c :: cs)) :
    ∃ rest, input.next = (c.toNat, (runetochar c.toNat).length, rest) ∧ Denotes rest cs := by
  cases h with
  | bytes =>
    have hchar := chartorune_char c (utf8 cs ++ [0])
    rw [← runetochar_char, ← List.append_assoc, ← utf8_cons] at hchar
    refine ⟨.s (utf8 cs), ?_, .bytes cs⟩
    rw [Input.next, hchar]
    dsimp only
    rw [utf8_drop]
  | runes => exact ⟨_, rfl, .runes cs⟩

theorem Denotes.next_nil (h : Denotes input []) : input.next.1 = 0 := by
  cases h with
  | bytes => rfl
  | runes => rfl

theorem length_le_utf8 (cs : List Char) : cs.length ≤ (utf8 cs).length := by
  induction cs with
  | nil => exact le_rfl
  | cons c cs ih =>
    have hpos := length_runetochar_pos c
    rw [utf8_cons, List.length_append, List.length_cons]
    omega

theorem Denotes.length (h : Denotes input cs) : cs.length ≤ input.length ∧ (input.length = 0 ↔ cs = []) := by
  cases h with
  | bytes =>
    have hle := length_le_utf8 cs
    refine ⟨hle, fun hzero => ?_, fun hnil => by rw [hnil]; rfl⟩
    exact List.length_eq_zero_iff.mp (Nat.le_zero.mp (hzero ▸ hle))
  | runes =>
    refine ⟨(List.length_map _).ge, fun hzero => ?_, fun hnil => by rw [hnil]; rfl⟩
    exact List.length_eq_zero_iff.mp ((List.length_map _).symm.trans hzero)

theorem never_past (q : Quoteinfo) (runes bytes : ℤ) : past 0x7FFFFFFF runesout q runes bytes = false := by
  have hrunes := wrap_lt (q.nrunesout + runes)
  have hbytes := wrap_lt (q.nbytesout + bytes)
  rw [past]
  split_ifs
  · rw [decide_eq_false_iff_not]
    omega
  · rw [decide_eq_false_iff_not]
    omega

def anyspecial (doquote : Option (ℕ → Bool)) (cs : List Char) : Bool := cs.any fun c => special doquote c.toNat

/-- The two quotes around the string are counted at its first special character. -/
def around (quoted special : Bool) : ℤ := if !quoted && special then 2 else 0

/-- The counts after the characters `cs`. -/
def tally (doquote : Option (ℕ → Bool)) (q : Quoteinfo) (cs : List Char) : Quoteinfo where
  quoted := q.quoted || anyspecial doquote cs
  nrunesin := wrap (q.nrunesin + cs.length)
  nbytesin := wrap (q.nbytesin + (utf8 cs).length)
  nrunesout := wrap (q.nrunesout + around q.quoted (anyspecial doquote cs) + (dbl cs).length)
  nbytesout := wrap (q.nbytesout + around q.quoted (anyspecial doquote cs) + (utf8 (dbl cs)).length)

structure Ranged (q : Quoteinfo) : Prop where
  nrunesin : wrap q.nrunesin = q.nrunesin
  nbytesin : wrap q.nbytesin = q.nbytesin
  nrunesout : wrap q.nrunesout = q.nrunesout
  nbytesout : wrap q.nbytesout = q.nbytesout

theorem tally_ranged : Ranged (tally doquote q cs) :=
  ⟨wrap_wrap _, wrap_wrap _, wrap_wrap _, wrap_wrap _⟩

theorem tally_nil (hq : Ranged q) : tally doquote q [] = q := by
  obtain ⟨quoted, a, b, c, d⟩ := q
  obtain ⟨ha, hb, hc, hd⟩ := hq
  simp_all [tally, anyspecial, utf8, dbl, around]

theorem tally_cons (c : Char) : tally doquote (tally doquote q [c]) cs = tally doquote q (c :: cs) := by
  have hany : anyspecial doquote (c :: cs) = (anyspecial doquote [c] || anyspecial doquote cs) := by
    simp [anyspecial]
  have hdbl : dbl (c :: cs) = dbl [c] ++ dbl cs := by
    rw [← List.singleton_append, dbl, List.flatMap_append]
    rfl
  have hutf : utf8 (c :: cs) = utf8 [c] ++ utf8 cs := by rw [← utf8_append, List.singleton_append]
  have htwo : around q.quoted (anyspecial doquote [c]) +
      around (q.quoted || anyspecial doquote [c]) (anyspecial doquote cs) =
      around q.quoted (anyspecial doquote [c] || anyspecial doquote cs) := by
    cases q.quoted <;> cases anyspecial doquote [c] <;> simp [around]
  simp only [tally, hany, hdbl, hutf, utf8_append, ← htwo, Bool.or_assoc, wrap_wrap_add, List.length_append,
    List.length_cons, List.length_nil, Quoteinfo.mk.injEq, true_and]
  refine ⟨?_, ?_, ?_, ?_⟩
  · congr 1
    omega
  · congr 1
    omega
  · rw [add_assoc (wrap _), wrap_wrap_add]
    congr 1
    omega
  · rw [add_assoc (wrap _), wrap_wrap_add]
    congr 1
    omega

theorem marks_tally (c : Char) (w : ℕ) (hq : Ranged q) :
    marks doquote 0x7FFFFFFF runesout c.toNat w q =
      ({ q with
        quoted := q.quoted || special doquote c.toNat
        nrunesout := wrap (q.nrunesout + around q.quoted (special doquote c.toNat) +
          if c.toNat = 0x27 then 1 else 0)
        nbytesout := wrap (q.nbytesout + around q.quoted (special doquote c.toNat) +
          if c.toNat = 0x27 then 1 else 0) }, true) := by
  obtain ⟨quoted, a, b, n, k⟩ := q
  obtain ⟨-, -, hn, hk⟩ := hq
  dsimp only at hn hk
  by_cases hspecial : special doquote c.toNat = true
  · rw [marks, if_pos hspecial]
    simp only [never_past, hspecial, Bool.false_eq_true, and_false, if_false, Bool.or_true]
    cases quoted with
    | true =>
      by_cases hc : c.toNat = 0x27
      · simp [hc, around, Quoteinfo.add]
      · simp [hc, around, hn, hk]
    | false =>
      by_cases hc : c.toNat = 0x27
      · simp [hc, around, Quoteinfo.add]
      · simp [hc, around, Quoteinfo.add]
  · have hc : c.toNat ≠ 0x27 := fun hc => hspecial (by rw [special, hc]; rfl)
    rw [Bool.not_eq_true] at hspecial
    simp [marks, hspecial, hc, around, hn, hk]

/-- The loop counts what its characters come to, for both kinds of input and of output. -/
theorem setuploop_tally {fuel : ℕ} {nin : ℤ} (hfuel : cs.length ≤ fuel) (hzero : ∀ c ∈ cs, c.toNat ≠ 0)
    (hneg : nin < 0) (hlow : -2 ^ 31 ≤ nin - cs.length) (hden : Denotes input cs) (hq : Ranged q) :
    setuploop doquote 0x7FFFFFFF runesout fuel nin input q = tally doquote q cs := by
  induction cs generalizing fuel nin input q with
  | nil =>
    rw [tally_nil hq]
    cases fuel with
    | zero => rfl
    | succ fuel =>
      rw [setuploop, if_neg (by omega)]
      exact if_pos hden.next_nil
  | cons c cs ih =>
    obtain ⟨rest, hnext, hrest⟩ := hden.next
    rw [List.forall_mem_cons] at hzero
    rw [List.length_cons] at hfuel hlow
    obtain ⟨fuel, rfl⟩ : ∃ k, fuel = k + 1 := ⟨fuel - 1, by omega⟩
    have hstep : ({ q with
        quoted := q.quoted || special doquote c.toNat
        nbytesin := wrap (q.nbytesin + (runetochar c.toNat).length)
        nrunesin := wrap (q.nrunesin + 1)
        nbytesout := wrap (wrap (q.nbytesout + around q.quoted (special doquote c.toNat) +
          if c.toNat = 0x27 then 1 else 0) + (runetochar c.toNat).length)
        nrunesout := wrap (wrap (q.nrunesout + around q.quoted (special doquote c.toNat) +
          if c.toNat = 0x27 then 1 else 0) + 1) } : Quoteinfo) = tally doquote q [c] := by
      have hspecial : anyspecial doquote [c] = special doquote c.toNat := Bool.or_false _
      have hutf : utf8 [c] = runetochar c.toNat := List.append_nil _
      have hdbl : dbl [c] = if c.toNat = 0x27 then [c, c] else [c] := List.append_nil _
      rw [tally, hspecial, hutf, hdbl, wrap_wrap_add, wrap_wrap_add]
      by_cases hc : c.toNat = 0x27
      · have hone : (runetochar c.toNat).length = 1 := by rw [hc]; rfl
        rw [if_pos hc, if_pos hc, utf8_cons, hutf, List.length_append, hone, add_assoc, add_assoc _ 1]
        rfl
      · rw [if_neg hc, if_neg hc, hutf, add_zero, add_zero]
        rfl
    rw [setuploop, if_neg (by omega), hnext]
    dsimp only
    rw [if_neg hzero.1, never_past, if_neg Bool.false_ne_true, marks_tally c _ hq]
    dsimp only
    rw [hstep, wrap_of_range (by omega) (by omega), ih (by omega) hzero.2 (by omega) (by push_cast at hlow; omega)
      hrest tally_ranged, tally_cons]

/-- The quoted form. -/
def quotes (doquote : Option (ℕ → Bool)) (cs : List Char) : List Char :=
  if cs = [] ∨ anyspecial doquote cs then '\'' :: dbl cs ++ ['\''] else cs

theorem dbl_plain (h : anyspecial doquote cs = false) : dbl cs = cs := by
  rw [anyspecial, List.any_eq_false] at h
  have hcs : dbl cs = cs.flatMap fun c => [c] := List.flatMap_congr fun c hc => by
    rw [if_neg]
    intro hquote
    refine h c hc ?_
    rw [special, hquote]
    rfl
  rw [hcs]
  simp

/-- What is foreseen of a string without a zero is what its form comes to. -/
theorem quotesetup_form (hzero : ∀ c ∈ cs, c.toNat ≠ 0) (hshort : cs.length < 2 ^ 31) (hden : Denotes input cs) :
    quotesetup doquote 0x7FFFFFFF runesout input (-1) false =
      ⟨decide (cs = [] ∨ anyspecial doquote cs), wrap cs.length, wrap (utf8 cs).length,
        wrap (quotes doquote cs).length, wrap (utf8 (quotes doquote cs)).length⟩ := by
  obtain ⟨hle, hnil⟩ := hden.length
  have hrun := fun q => @setuploop_tally doquote runesout input cs q input.length (-1) hle hzero (by decide)
    (by omega) hden
  by_cases hempty : cs = []
  · have hlen : input.length = 0 := hnil.mpr hempty
    rw [quotesetup, if_pos (.inr (.inr hlen)), if_neg (by decide), hlen, setuploop]
    subst hempty
    rw [quotes, if_pos (.inl rfl)]
    have hform : '\'' :: dbl [] ++ ['\''] = ['\'', '\''] := rfl
    have htwo : (utf8 ['\'', '\'']).length = 2 := rfl
    rw [hform, htwo]
    simp only [Quoteinfo.mk.injEq, true_or, decide_true, true_and]
    exact ⟨rfl, rfl, rfl, rfl⟩
  · have hlen : input.length ≠ 0 := fun h => hempty (hnil.mp h)
    rw [quotesetup, if_neg (by simp [hlen]), hrun _ ⟨wrap_zero, wrap_zero, wrap_zero, wrap_zero⟩, tally]
    simp only [hempty, false_or, Bool.false_or, zero_add]
    cases hany : anyspecial doquote cs with
    | false =>
      rw [quotes, if_neg (by simp [hempty, hany]), dbl_plain hany]
      simp [around]
    | true =>
      have hquote : (utf8 ['\'']).length = 1 := rfl
      rw [quotes, if_pos (.inr hany), List.cons_append, utf8_cons, utf8_append, List.length_cons,
        List.length_append, List.length_append, List.length_append, hquote]
      simp only [around, Quoteinfo.mk.injEq, true_and, decide_true]
      refine ⟨?_, ?_⟩
      · congr 1
        simp
        omega
      · congr 1
        rw [show (runetochar '\''.toNat).length = 1 from rfl, Bool.not_false, Bool.and_self, if_pos rfl]
        push_cast
        omega

end Foreseen

section Verbs

variable {doquote : Option (ℕ → Bool)} {cs : List Char} {f : Fmt}

/-- The verb has no width, no precision and no flags. -/
structure Fmt.Plain (f : Fmt) : Prop where
  width : f.width = 0
  fmtLeft : f.fmtLeft = false
  fmtPrec : f.fmtPrec = false
  fmtSharp : f.fmtSharp = false

theorem plain_pad (hf : f.Plain) {n : ℤ} (hlow : 0 ≤ n) (hhigh : n < 2 ^ 31) :
    Wrote f (if f.fmtLeft then f else f.pad (wrap (f.width - n))) [] := by
  rw [hf.fmtLeft, if_neg Bool.false_ne_true, hf.width, zero_sub]
  refine wrote_pad f ?_
  rw [wrap_of_range (by omega) (by omega)]
  omega

theorem qstrfmt_wrote {input : Input} {q : Quoteinfo} {ds : List Char} (hf : f.Plain)
    (hrunes : 0 ≤ q.nrunesout ∧ q.nrunesout < 2 ^ 31) (hbytes : 0 ≤ q.nbytesout ∧ q.nbytesout < 2 ^ 31)
    (hloop : ∀ g, Wrote g (qloop q.nrunesin.toNat input (input.left q) g) ds) :
    Wrote f (qstrfmt input q f) ('\'' :: ds ++ ['\'']) := by
  have hpad := plain_pad hf (n := if f.runes then q.nrunesout else q.nbytesout) (by split_ifs <;> omega)
    (by split_ifs <;> omega)
  rw [qstrfmt]
  generalize (if f.fmtLeft then f else f.pad _) = g at hpad ⊢
  have hopen := (hpad.trans (wrote_rune g '\'')).trans (hloop (g.rune '\''.toNat))
  have hclose := hopen.trans (wrote_rune _ '\'')
  rw [if_neg]
  · exact hclose
  · have hleft := hclose.left
    rw [hf.fmtLeft] at hleft
    exact Bool.eq_false_iff.mp hleft

theorem fmtcpy_wrote (hf : f.Plain) (hshort : (cs.length : ℤ) < 2 ^ 31) :
    Wrote f (fmtcpy f (utf8 cs) cs.length (utf8 cs).length) cs := by
  have hpad := plain_pad hf (n := cs.length) (by omega) hshort
  have hn : (if f.fmtPrec = true ∧ (cs.length : ℤ) > f.prec then f.prec else (cs.length : ℤ)) = cs.length :=
    if_neg fun h => absurd (hf.fmtPrec.symm.trans h.1) Bool.false_ne_true
  rw [fmtcpy, hn, Int.toNat_natCast]
  generalize (if f.fmtLeft then f else f.pad _) = g at hpad ⊢
  have hrun := hpad.trans (cpyloop_wrote cs g)
  rw [if_neg]
  · exact hrun
  · have hleft := hrun.left
    rw [hf.fmtLeft] at hleft
    exact Bool.eq_false_iff.mp hleft

theorem fmtrcpy_wrote (hf : f.Plain) (hshort : (cs.length : ℤ) < 2 ^ 31) :
    Wrote f (fmtrcpy f (cs.map Char.toNat) cs.length) cs := by
  have hpad := plain_pad hf (n := cs.length) (by omega) hshort
  have hn : (if f.fmtPrec = true ∧ (cs.length : ℤ) > f.prec then f.prec else (cs.length : ℤ)) = cs.length :=
    if_neg fun h => absurd (hf.fmtPrec.symm.trans h.1) Bool.false_ne_true
  rw [fmtrcpy, hn, Int.toNat_natCast,
    List.take_of_length_le (List.length_map _).le]
  generalize (if f.fmtLeft then f else f.pad _) = g at hpad ⊢
  have hrun := hpad.trans (foldl_wrote cs g)
  rw [if_neg]
  · exact hrun
  · have hleft := hrun.left
    rw [hf.fmtLeft] at hleft
    exact Bool.eq_false_iff.mp hleft

/-- Sizes that an `int` holds. -/
structure Fits (doquote : Option (ℕ → Bool)) (cs : List Char) : Prop where
  nonzero : ∀ c ∈ cs, c.toNat ≠ 0
  text : (utf8 cs).length < 2 ^ 31
  form : (utf8 (quotes doquote cs)).length < 2 ^ 31

theorem Fits.foreseen {input : Input} (hfit : Fits doquote cs) (hf : f.Plain) (hden : Denotes input cs) :
    foreseen doquote input f = ⟨decide (cs = [] ∨ anyspecial doquote cs), cs.length, (utf8 cs).length,
      (quotes doquote cs).length, (utf8 (quotes doquote cs)).length⟩ := by
  have htext := hfit.text
  have hform := hfit.form
  have hcs := length_le_utf8 cs
  have hquotes := length_le_utf8 (quotes doquote cs)
  rw [Libc.foreseen, hf.fmtPrec, hf.fmtSharp, if_neg Bool.false_ne_true,
    quotesetup_form hfit.nonzero (by omega) hden, wrap_of_range (by omega) (by omega),
    wrap_of_range (by omega) (by omega), wrap_of_range (by omega) (by omega),
    wrap_of_range (by omega) (by omega)]

/-- `%q` puts out the form. -/
theorem quotestrfmt_bytes (hfit : Fits doquote cs) (hf : f.Plain) :
    Wrote f (quotestrfmt doquote (some (.s (utf8 cs))) f) (quotes doquote cs) := by
  have hform := hfit.form
  have hquotes := length_le_utf8 (quotes doquote cs)
  rw [quotestrfmt, hfit.foreseen hf (.bytes cs)]
  dsimp only
  by_cases hquoted : cs = [] ∨ anyspecial doquote cs = true
  · rw [if_pos (decide_eq_true hquoted)]
    conv => arg 3; rw [quotes, if_pos hquoted]
    refine qstrfmt_wrote hf (by dsimp only; omega) (by dsimp only; omega) fun g => ?_
    dsimp only
    rw [Int.toNat_natCast]
    exact qloop_bytes cs g
  · rw [if_neg fun h => hquoted (of_decide_eq_true h)]
    conv => arg 3; rw [quotes, if_neg hquoted]
    exact fmtcpy_wrote hf (by have := length_le_utf8 cs; have := hfit.text; omega)

/-- `%Q` puts out the form of the characters that the low bytes stand for. -/
theorem quotestrfmt_runes (hfit : Fits doquote cs) (hf : f.Plain) :
    Wrote f (quotestrfmt doquote (some (.r (cs.map Char.toNat))) f)
      (if cs = [] ∨ anyspecial doquote cs then '\'' :: dbl (cs.map lowbyte) ++ ['\''] else cs) := by
  have hform := hfit.form
  have hquotes := length_le_utf8 (quotes doquote cs)
  rw [quotestrfmt, hfit.foreseen hf (.runes cs)]
  dsimp only
  by_cases hquoted : cs = [] ∨ anyspecial doquote cs = true
  · rw [if_pos (decide_eq_true hquoted), if_pos hquoted]
    refine qstrfmt_wrote hf (by dsimp only; omega) (by dsimp only; omega) fun g => ?_
    dsimp only
    rw [Int.toNat_natCast]
    exact qloop_runes cs g
  · rw [if_neg fun h => hquoted (of_decide_eq_true h), if_neg hquoted]
    exact fmtrcpy_wrote hf (by have := length_le_utf8 cs; have := hfit.text; omega)

end Verbs

section Agree

variable {doquote : Option (ℕ → Bool)} {cs : List Char} {f : Fmt} {form : List UInt8} {str : Str}

theorem double_append (s t : List UInt8) : double (s ++ t) = double s ++ double t := by
  induction s with
  | nil => rfl
  | cons b s ih =>
    rw [List.cons_append, double, double, ih]
    split_ifs <;> rfl

theorem double_plain {s : List UInt8} (hs : Quote ∉ s) : double s = s := by
  induction s with
  | nil => rfl
  | cons b s ih =>
    rw [List.mem_cons, not_or] at hs
    rw [double, if_neg (Ne.symm hs.1), ih hs.2]

/-- To double the quotes among the bytes is to double them among the characters. -/
theorem double_utf8 (cs : List Char) : double (utf8 cs) = utf8 (dbl cs) := by
  induction cs with
  | nil => rfl
  | cons c cs ih =>
    rw [utf8_cons, double_append, ih, dbl_cons, utf8_append]
    congr 1
    by_cases hc : c.toNat = 0x27
    · rw [if_pos hc, utf8_cons, utf8_cons, hc]
      rfl
    · rw [if_neg hc, utf8_cons, show utf8 [] = [] from rfl, List.append_nil]
      refine double_plain fun hmem => ?_
      by_cases hlow : c.toNat < 0x80
      · rw [runetochar_low hlow, List.mem_singleton] at hmem
        have hnat := congrArg UInt8.toNat hmem
        rw [toNat_byte (by omega)] at hnat
        exact hc hnat.symm
      · rw [runetochar_char] at hmem
        exact absurd (utf8_high (by omega) hmem) (by decide)

theorem needsquotes_form (hstr : str.bytes = utf8 cs) (hzero : ∀ c ∈ cs, c.toNat ≠ 0) :
    needsquotes doquote str =
      (decide (cs = [] ∨ anyspecial doquote cs), wrap (utf8 (quotes doquote cs)).length) := by
  have hshort := str.short
  have hle := length_le_utf8 cs
  rw [hstr] at hshort
  rw [needsquotes, hstr, quotesetup_form hzero (by omega) (.bytes cs)]

theorem nonzero_of_str (hstr : str.bytes = utf8 cs) {c : Char} (hc : c ∈ cs) : c.toNat ≠ 0 := by
  intro hzero
  refine str.nonzero ?_
  rw [hstr, utf8, List.mem_flatMap]
  exact ⟨c, hc, by rw [hzero]; exact List.mem_singleton.mpr rfl⟩

/-- What `quotestrdup` returns is the form of the characters, and an `int` holds its size. -/
theorem quotestrdup_form (hstr : str.bytes = utf8 cs) (hform : quotestrdup doquote str = some form) :
    form = utf8 (quotes doquote cs) ∧ Fits doquote cs := by
  have hshort := str.short
  have hneeds := @needsquotes_form doquote cs str hstr fun c => nonzero_of_str hstr
  obtain ⟨-, hbound⟩ := form_bounds str
  rw [hstr] at hshort hbound
  rw [quotestrdup, hneeds, hstr] at hform
  dsimp only at hform
  by_cases hquoted : cs = [] ∨ anyspecial doquote cs = true
  · have hbytes : utf8 (quotes doquote cs) = Quote :: double (utf8 cs) ++ [Quote] := by
      rw [quotes, if_pos hquoted, double_utf8, List.cons_append, utf8_cons, utf8_append]
      rfl
    rw [hbytes, if_neg (by simp [hquoted]), wrap_wrap_add] at hform
    split at hform
    · cases hform
    · rename_i hpos
      rw [wrap_neg_iff hbound] at hpos
      refine ⟨hbytes ▸ (Option.some.inj hform).symm, fun c => nonzero_of_str hstr, by omega, ?_⟩
      rw [hbytes]
      omega
  · have hplain : quotes doquote cs = cs := if_neg hquoted
    rw [if_pos (by simpa using hquoted)] at hform
    refine ⟨by rw [hplain]; exact (Option.some.inj hform).symm, fun c => nonzero_of_str hstr, by omega, ?_⟩
    rw [hplain]
    omega

/-- The verb puts `form` out, and what was foreseen of it is so. -/
structure Agrees (doquote : Option (ℕ → Bool)) (input : Input) (f : Fmt) (form : List UInt8) : Prop where
  text : (quotestrfmt doquote (some input) f).text = f.text ++ form
  bytes : (foreseen doquote input f).nbytesout = form.length
  runes : (foreseen doquote input f).nrunesout = (decode form).length
  units : ((quotestrfmt doquote (some input) f).out.length : ℤ) = f.out.length +
    if f.runes then (foreseen doquote input f).nrunesout else (foreseen doquote input f).nbytesout
  count : wrap (quotestrfmt doquote (some input) f).nfmt = wrap (f.nfmt +
    if f.runes then (foreseen doquote input f).nrunesout else (foreseen doquote input f).nbytesout)

theorem agrees_of_wrote {input : Input} (hfit : Fits doquote cs) (hf : f.Plain) (hden : Denotes input cs)
    (h : Wrote f (quotestrfmt doquote (some input) f) (quotes doquote cs)) :
    Agrees doquote input f (utf8 (quotes doquote cs)) := by
  have hdecode : (decode (utf8 (quotes doquote cs))).length = (quotes doquote cs).length := by
    rw [decode, utf8, decodeloop_chars _ _ le_rfl, List.length_map]
  have hunits := h.units
  have hcount := h.nfmt
  refine ⟨h.text, ?_, ?_, ?_, ?_⟩
  all_goals rw [hfit.foreseen hf hden]
  · rw [hdecode]
  · rw [hunits]
    split_ifs
    all_goals push_cast; rfl
  · rw [hcount]
    split_ifs <;> rfl

/-- Runes above the bytes are taken for others. -/
theorem dbl_lowbyte (h : dbl (cs.map lowbyte) = dbl cs) : ∀ c ∈ cs, c.toNat < 0x100 := by
  have hhead : ∀ (c : Char) (ds : List Char), (dbl (c :: ds)).head? = some c := fun c ds => by
    rw [dbl_cons]
    split_ifs <;> rfl
  induction cs with
  | nil => exact fun c hc => absurd hc List.not_mem_nil
  | cons c cs ih =>
    have hc : lowbyte c = c := by
      have heads := congrArg List.head? h
      rw [List.map_cons, hhead, hhead] at heads
      exact Option.some.inj heads
    rw [List.map_cons, hc, dbl_cons, dbl_cons] at h
    rw [List.forall_mem_cons]
    refine ⟨?_, ih (List.append_cancel_left h)⟩
    have hlow := toNat_lowbyte c
    rw [hc] at hlow
    omega

theorem map_lowbyte (h : ∀ c ∈ cs, c.toNat < 0x100) : cs.map lowbyte = cs := by
  conv_rhs => rw [← List.map_id cs]
  refine List.map_congr_left fun c hc => Char.toNat_inj.mp ?_
  rw [toNat_lowbyte, Nat.mod_eq_of_lt (h c hc)]
  rfl

end Agree

/-- `%q` agrees with `quotestrdup`. `%Q` does if nothing has to be quoted or all runes are bytes. -/
theorem verbs_agree_iff (doquote : Option (ℕ → Bool)) {cs : List Char} {str : Str} (hstr : str.bytes = utf8 cs)
    {form : List UInt8} (hform : quotestrdup doquote str = some form) {f : Fmt} (hf : f.Plain) :
    Agrees doquote (.s str.bytes) f form ∧ Agrees doquote (.r (cs.map Char.toNat)) f form ↔
      (needsquotes doquote str).1 = false ∨ ∀ c ∈ cs, c.toNat < 0x100 := by
  obtain ⟨rfl, hfit⟩ := quotestrdup_form hstr hform
  have hbytes := agrees_of_wrote hfit hf (.bytes cs) (quotestrfmt_bytes hfit hf)
  have hrunes := quotestrfmt_runes hfit hf
  rw [hstr, and_iff_right hbytes, needsquotes_form hstr fun c => nonzero_of_str hstr, decide_eq_false_iff_not]
  by_cases hquoted : cs = [] ∨ anyspecial doquote cs = true
  · rw [if_pos hquoted] at hrunes
    rw [or_iff_right (not_not.mpr hquoted)]
    have hquotes : quotes doquote cs = '\'' :: dbl cs ++ ['\''] := if_pos hquoted
    refine ⟨fun h => dbl_lowbyte ?_, fun h => agrees_of_wrote hfit hf (.runes cs) ?_⟩
    · have htext := utf8_inj (List.append_cancel_left (hrunes.text.symm.trans h.text))
      rw [hquotes] at htext
      exact List.append_cancel_right (List.cons.inj htext).2
    · rw [map_lowbyte h] at hrunes
      rwa [hquotes]
  · rw [if_neg hquoted] at hrunes
    refine iff_of_true (agrees_of_wrote hfit hf (.runes cs) ?_) (.inl hquoted)
    rwa [show quotes doquote cs = cs from if_neg hquoted]

/-- A sink of bytes for a plain verb. -/
def Fmt.bytes : Fmt := ⟨false, 0, 0, false, false, false, [], 0⟩

/-- `%q` and `%Q` of `a b`. -/
theorem verbs_agree_iff_blank :
    Agrees none (.s [0x61, 0x20, 0x62]) Fmt.bytes [0x27, 0x61, 0x20, 0x62, 0x27] ∧
        Agrees none (.r [0x61, 0x20, 0x62]) Fmt.bytes [0x27, 0x61, 0x20, 0x62, 0x27] ↔
      (needsquotes none ⟨[0x61, 0x20, 0x62], by decide, by decide⟩).1 = false ∨
        ∀ c ∈ ['a', ' ', 'b'], c.toNat < 0x100 :=
  @verbs_agree_iff none ['a', ' ', 'b'] ⟨[0x61, 0x20, 0x62], by decide, by decide⟩ (by decide)
    [0x27, 0x61, 0x20, 0x62, 0x27] (by decide) Fmt.bytes ⟨rfl, rfl, rfl, rfl⟩

/-- `%Q` of a Greek letter and a blank puts out the character at the low byte of the letter. -/
theorem verbs_disagree :
    quotestrdup none ⟨utf8 ['α', ' '], by decide, by decide⟩ = some [0x27, 0xCE, 0xB1, 0x20, 0x27] ∧
      (quotestrfmt none (some (.r (['α', ' '].map Char.toNat))) Fmt.bytes).text = [0x27, 0xC2, 0xB1, 0x20, 0x27] ∧
      ¬ Agrees none (.r (['α', ' '].map Char.toNat)) Fmt.bytes [0x27, 0xCE, 0xB1, 0x20, 0x27] :=
  ⟨by decide, by decide, fun h => absurd h.text (by decide)⟩

end Petele.Libc
