import Mathlib.Data.Nat.Bitwise
import Mathlib.Data.List.Basic
import Mathlib.Tactic.Common

namespace Petele.Libc

def UTFmax : ℕ := 4

def Runeerror : ℕ := 0xFFFD

def Runemax : ℕ := 0x10FFFF

def Bit (i : ℕ) : ℕ := 7 - i

/-- Bits set from the highest of a byte on, `T 2` is 1100 0000. -/
def T (i : ℕ) : ℕ := (1 <<< (Bit i + 1) - 1) ^^^ 0xFF

def Bitx : ℕ := Bit 1

/-- The highest rune of `i` bytes. -/
def RuneX (i : ℕ) : ℕ := 1 <<< (Bit i + (i - 1) * Bitx) - 1

def Tx : ℕ := T 1

def Rune1 : ℕ := 1 <<< (Bit 0 + 0 * Bitx) - 1

def Maskx : ℕ := 1 <<< Bitx - 1

def Testx : ℕ := Maskx ^^^ 0xFF

def SurrogateMin : ℕ := 0xD800

def SurrogateMax : ℕ := 0xDFFF

def Bad : ℕ × ℕ := (Runeerror, 1)

/-- The end of a sequence of `i + 1` bytes with the bits `l`: overlong forms, runes too high and
surrogates are bad. -/
def judge (c0 i l : ℕ) : ℕ × ℕ :=
  if i = 1 ∧ (c0 < T 2 ∨ l ≤ Rune1) ∨ i ≠ 1 ∧ (l ≤ RuneX i ∨ l > Runemax) then Bad
  else if i = 2 ∧ SurrogateMin ≤ l ∧ l ≤ SurrogateMax then Bad
  else (l, i + 1)

/-- The loop of `chartorune`, from the byte at `str + i` on with `k` turns to go. There is no result
if it comes to a byte that is not given. -/
def charloop (c0 : ℕ) : ℕ → ℕ → ℕ → List UInt8 → Option (ℕ × ℕ)
  | 0, _, _, _ => some Bad
  | _ + 1, _, _, [] => none
  | k + 1, i, l, b :: str =>
    let c := b.toNat ^^^ Tx
    if c &&& Testx ≠ 0 then some Bad
    else
      let l := l <<< Bitx ||| c
      if c0 < T (i + 2) then some (judge c0 i (l &&& RuneX (i + 1)))
      else charloop c0 k (i + 1) l str

/-- The rune and its width. -/
def chartorune : List UInt8 → Option (ℕ × ℕ)
  | [] => none
  | b :: str =>
    if b.toNat < Tx then some (b.toNat, 1) else charloop b.toNat (UTFmax - 1) 1 b.toNat str

/-- The loop of `runetochar`, from `i` bytes on. -/
def runeloop : ℕ → ℕ → ℕ → List UInt8
  | 0, _, _ => []
  | k + 1, i, c =>
    let c := if i = 3 then
        let c := if c > Runemax then Runeerror else c
        if SurrogateMin ≤ c ∧ c ≤ SurrogateMax then Runeerror else c
      else c
    if c ≤ RuneX i ∨ i = UTFmax then
      UInt8.ofNat (T i ||| c >>> ((i - 1) * Bitx)) :: (List.range' 1 (i - 1)).map fun j =>
        UInt8.ofNat (Tx ||| (c >>> ((i - j - 1) * Bitx) &&& Maskx))
    else runeloop k (i + 1) c

def runetochar (c : ℕ) : List UInt8 :=
  if c ≤ Rune1 then [UInt8.ofNat c] else runeloop (UTFmax - 1) 2 c

/-- The loop of `fullrune`. -/
def fullloop (c n : ℕ) : ℕ → ℕ → Bool
  | 0, _ => n ≥ UTFmax
  | k + 1, i => if c < T i then n ≥ i - 1 else fullloop c n k (i + 1)

def fullrune (str : List UInt8) (n : ℕ) : Bool :=
  if n ≤ 0 then false
  else
    let c := (str.headD 0).toNat
    if c < Tx then true else fullloop c n (UTFmax + 1 - 3) 3

section Steps

/-- A continuation byte, 10xx xxxx. -/
theorem cont_byte (b : UInt8) : ((b.toNat ^^^ Tx) &&& Testx = 0 ↔ b.toNat / 64 = 2) ∧
    (b.toNat / 64 = 2 → b.toNat ^^^ Tx = b.toNat % 64) := by
  have hall : ∀ n < 256, ((n ^^^ Tx) &&& Testx = 0 ↔ n / 64 = 2) ∧ (n / 64 = 2 → n ^^^ Tx = n % 64) := by
    decide +kernel
  exact hall b.toNat b.toNat_lt

variable {c0 k i l : ℕ} {b : UInt8} (str : List UInt8)

theorem charloop_stop (hb : b.toNat / 64 ≠ 2) : charloop c0 (k + 1) i l (b :: str) = some Bad := by
  rw [charloop, if_pos fun h => hb ((cont_byte b).1.mp h)]

theorem charloop_next (hb : b.toNat / 64 = 2) :
    charloop c0 (k + 1) i l (b :: str) =
      if c0 < T (i + 2) then some (judge c0 i ((l * 64 + b.toNat % 64) &&& RuneX (i + 1)))
      else charloop c0 k (i + 1) (l * 64 + b.toNat % 64) str := by
  have hlow : b.toNat % 64 < 2 ^ 6 := Nat.mod_lt _ (by decide)
  have hbits : l <<< Bitx ||| (b.toNat ^^^ Tx) = l * 64 + b.toNat % 64 := by
    rw [(cont_byte b).2 hb, show Bitx = 6 from rfl, ← Nat.shiftLeft_add_eq_or_of_lt hlow,
      Nat.shiftLeft_eq]
  rw [charloop, if_neg (not_not.mpr ((cont_byte b).1.mpr hb)), hbits]

end Steps

section Decode

variable {b0 b1 b2 b3 : UInt8} (str : List UInt8)

theorem chartorune_two (h0 : ¬ b0.toNat < Tx) (h : b0.toNat < T 3) (h1 : b1.toNat / 64 = 2) :
    chartorune (b0 :: b1 :: str) = some (if b0.toNat < 0xC2 then Bad
      else (b0.toNat % 32 * 64 + b1.toNat % 64, 2)) := by
  have hmask : (b0.toNat * 64 + b1.toNat % 64) &&& RuneX (1 + 1) =
      b0.toNat % 32 * 64 + b1.toNat % 64 := by
    rw [show RuneX (1 + 1) = 2 ^ 11 - 1 from rfl, Nat.and_two_pow_sub_one_eq_mod]
    omega
  have h3 : T 3 = 0xE0 := rfl
  have h2 : T 2 = 0xC0 := rfl
  have hone : Rune1 = 0x7F := rfl
  rw [chartorune, if_neg h0, show UTFmax - 1 = 2 + 1 from rfl, charloop_next _ h1, if_pos h, hmask, judge]
  by_cases hlow : b0.toNat < 0xC2
  · rw [if_pos hlow, if_pos (.inl ⟨rfl, by omega⟩)]
  · rw [if_neg hlow, if_neg (by omega), if_neg (by omega)]

theorem chartorune_three (h0 : ¬ b0.toNat < T 3) (h : b0.toNat < T 4) (h1 : b1.toNat / 64 = 2)
    (h2 : b2.toNat / 64 = 2) {l : ℕ}
    (hl : l = b0.toNat % 16 * 4096 + b1.toNat % 64 * 64 + b2.toNat % 64) :
    chartorune (b0 :: b1 :: b2 :: str) =
      some (if l ≤ 0x7FF ∨ 0xD800 ≤ l ∧ l ≤ 0xDFFF then Bad else (l, 3)) := by
  have hmask : ((b0.toNat * 64 + b1.toNat % 64) * 64 + b2.toNat % 64) &&& RuneX (1 + 1 + 1) = l := by
    rw [show RuneX (1 + 1 + 1) = 2 ^ 16 - 1 from rfl, Nat.and_two_pow_sub_one_eq_mod]
    omega
  have ht3 : T 3 = 0xE0 := rfl
  have htx : Tx = 0x80 := rfl
  have hx : RuneX (1 + 1) = 0x7FF := rfl
  have hmax : Runemax = 0x10FFFF := rfl
  have hs : SurrogateMin = 0xD800 := rfl
  have hs' : SurrogateMax = 0xDFFF := rfl
  rw [chartorune, if_neg (by omega), show UTFmax - 1 = 1 + 1 + 1 from rfl, charloop_next _ h1,
    if_neg h0, charloop_next _ h2, if_pos h, hmask, judge, hx, hmax, hs, hs']
  congr 1
  by_cases hlow : l ≤ 0x7FF
  · rw [if_pos (.inr ⟨by decide, .inl hlow⟩), if_pos (.inl hlow)]
  · rw [if_neg (by omega)]
    by_cases hsur : 0xD800 ≤ l ∧ l ≤ 0xDFFF
    · rw [if_pos ⟨rfl, hsur⟩, if_pos (.inr hsur)]
    · rw [if_neg (fun h => hsur h.2), if_neg (by omega)]

theorem chartorune_four (h0 : ¬ b0.toNat < T 4) (h1 : b1.toNat / 64 = 2) (h2 : b2.toNat / 64 = 2)
    (h3 : b3.toNat / 64 = 2) {l : ℕ}
    (hl : l = b0.toNat % 8 * 262144 + b1.toNat % 64 * 4096 + b2.toNat % 64 * 64 + b3.toNat % 64) :
    chartorune (b0 :: b1 :: b2 :: b3 :: str) =
      some (if 0xF8 ≤ b0.toNat ∨ l ≤ 0xFFFF ∨ l > 0x10FFFF then Bad else (l, 4)) := by
  have hmask : (((b0.toNat * 64 + b1.toNat % 64) * 64 + b2.toNat % 64) * 64 + b3.toNat % 64) &&&
      RuneX (1 + 1 + 1 + 1) = l := by
    rw [show RuneX (1 + 1 + 1 + 1) = 2 ^ 21 - 1 from rfl, Nat.and_two_pow_sub_one_eq_mod]
    omega
  have ht3 : T 3 = 0xE0 := rfl
  have ht4 : T 4 = 0xF0 := rfl
  have ht5 : T (1 + 1 + 1 + 2) = 0xF8 := rfl
  have htx : Tx = 0x80 := rfl
  have hx : RuneX (1 + 1 + 1) = 0xFFFF := rfl
  have hmax : Runemax = 0x10FFFF := rfl
  rw [chartorune, if_neg (by omega), show UTFmax - 1 = 0 + 1 + 1 + 1 from rfl, charloop_next _ h1,
    if_neg (show ¬ b0.toNat < T (1 + 2) by rw [ht3]; omega), charloop_next _ h2,
    if_neg (show ¬ b0.toNat < T (1 + 1 + 2) from h0), charloop_next _ h3, ht5, hmask, charloop, judge,
    hx, hmax]
  by_cases hbig : b0.toNat < 0xF8
  · rw [if_pos hbig]
    congr 1
    by_cases hout : l ≤ 0xFFFF ∨ l > 0x10FFFF
    · rw [if_pos (.inr ⟨by decide, hout⟩), if_pos (.inr hout)]
    · rw [if_neg (by omega), if_neg (by omega), if_neg (by omega)]
  · rw [if_neg hbig, if_pos (.inl (by omega))]

end Decode

section Encode

theorem char_range (c : Char) :
    c.toNat < 0xD800 ∨ 0xDFFF < c.toNat ∧ c.toNat < 0x110000 := c.valid

theorem toNat_byte {n : ℕ} (hn : n < 256) : (UInt8.ofNat n).toNat = n := by
  rw [UInt8.toNat_ofNat', Nat.mod_eq_of_lt hn]

/-- A sequence is decoded to its character. -/
theorem chartorune_char (c : Char) (str : List UInt8) :
    chartorune (String.utf8EncodeChar c ++ str) =
      some (c.toNat, (String.utf8EncodeChar c).length) := by
  have hrange := char_range c
  have htx : Tx = 0x80 := rfl
  have ht3 : T 3 = 0xE0 := rfl
  have ht4 : T 4 = 0xF0 := rfl
  rw [String.utf8EncodeChar, show c.val.toNat = c.toNat from rfl]
  generalize c.toNat = v at *
  by_cases hone : v ≤ 0x7F
  · rw [if_pos hone, List.singleton_append, chartorune, toNat_byte (by omega), if_pos (by omega)]
    rfl
  · rw [if_neg hone]
    by_cases htwo : v ≤ 0x7FF
    · have h0 : (UInt8.ofNat (v / 64 % 0x20 + 0xc0)).toNat = v / 64 + 0xC0 := by
        rw [toNat_byte (by omega)]
        omega
      have h1 : (UInt8.ofNat (v % 0x40 + 0x80)).toNat = v % 64 + 0x80 := toNat_byte (by omega)
      rw [if_pos htwo]
      simp only [List.cons_append, List.nil_append]
      rw [chartorune_two str (by omega) (by omega) (by omega), h0, h1, if_neg (by omega)]
      refine congrArg some (Prod.ext ?_ rfl)
      show (v / 64 + 0xC0) % 32 * 64 + (v % 64 + 0x80) % 64 = v
      omega
    · rw [if_neg htwo]
      by_cases hthree : v ≤ 0xFFFF
      · have h0 : (UInt8.ofNat (v / 4096 % 0x10 + 0xe0)).toNat = v / 4096 + 0xE0 := by
          rw [toNat_byte (by omega)]
          omega
        have h1 : (UInt8.ofNat (v / 64 % 0x40 + 0x80)).toNat = v / 64 % 64 + 0x80 := toNat_byte (by omega)
        have h2 : (UInt8.ofNat (v % 0x40 + 0x80)).toNat = v % 64 + 0x80 := toNat_byte (by omega)
        rw [if_pos hthree]
        simp only [List.cons_append, List.nil_append]
        rw [chartorune_three str (by omega) (by omega) (by omega) (by omega) (l := v)
          (by rw [h0, h1, h2]; omega), if_neg (by omega)]
        rfl
      · have h0 : (UInt8.ofNat (v / 262144 % 0x08 + 0xf0)).toNat = v / 262144 + 0xF0 := by
          rw [toNat_byte (by omega)]
          omega
        have h1 : (UInt8.ofNat (v / 4096 % 0x40 + 0x80)).toNat = v / 4096 % 64 + 0x80 :=
          toNat_byte (by omega)
        have h2 : (UInt8.ofNat (v / 64 % 0x40 + 0x80)).toNat = v / 64 % 64 + 0x80 := toNat_byte (by omega)
        have h3 : (UInt8.ofNat (v % 0x40 + 0x80)).toNat = v % 64 + 0x80 := toNat_byte (by omega)
        rw [if_neg hthree]
        simp only [List.cons_append, List.nil_append]
        rw [chartorune_four str (by omega) (by omega) (by omega) (by omega) (l := v)
          (by rw [h0, h1, h2, h3]; omega), if_neg (by omega)]
        rfl

/-- Bits of a rune below the marks of a byte. -/
theorem or_mark {x k m : ℕ} (hx : x < 2 ^ k) : m * 2 ^ k ||| x = x + m * 2 ^ k := by
  rw [← Nat.shiftLeft_eq, ← Nat.shiftLeft_add_eq_or_of_lt hx, Nat.add_comm]

/-- The sequence of a character is the one of Unicode. -/
theorem runetochar_char (c : Char) : runetochar c.toNat = String.utf8EncodeChar c := by
  have hrange := char_range c
  rw [String.utf8EncodeChar, show c.val.toNat = c.toNat from rfl, runetochar, show Rune1 = 0x7F from rfl]
  generalize c.toNat = v at *
  have hbyte : ∀ i, UInt8.ofNat (Tx ||| (v >>> (i * Bitx) &&& Maskx)) =
      UInt8.ofNat (v / 64 ^ i % 0x40 + 0x80) := fun i => by
    rw [show Maskx = 2 ^ 6 - 1 from rfl, Nat.and_two_pow_sub_one_eq_mod, Nat.shiftRight_eq_div_pow,
      show Bitx = 6 from rfl, Nat.mul_comm, Nat.pow_mul, show Tx = 2 * 2 ^ 6 from rfl,
      or_mark (Nat.mod_lt _ (by decide)), show (2 : ℕ) ^ 6 = 64 from rfl]
  by_cases hone : v ≤ 0x7F
  · rw [if_pos hone, if_pos hone]
  · rw [if_neg hone, if_neg hone]
    have hkeep : (if (3 : ℕ) = 3 then
        if SurrogateMin ≤ (if v > Runemax then Runeerror else v) ∧
          (if v > Runemax then Runeerror else v) ≤ SurrogateMax then Runeerror
        else if v > Runemax then Runeerror else v else v) = v := by
      have hmax : Runemax = 0x10FFFF := rfl
      have hs : SurrogateMin = 0xD800 := rfl
      have hs' : SurrogateMax = 0xDFFF := rfl
      rw [if_pos rfl, if_neg (show ¬ v > Runemax by omega), if_neg (by omega)]
    rw [show UTFmax - 1 = 0 + 1 + 1 + 1 from rfl, runeloop, if_neg (show ¬ 2 = 3 by decide),
      show RuneX 2 = 0x7FF from rfl]
    by_cases htwo : v ≤ 0x7FF
    · have h0 : UInt8.ofNat (T 2 ||| v >>> ((2 - 1) * Bitx)) = UInt8.ofNat (v / 64 % 0x20 + 0xc0) := by
        rw [show T 2 = 6 * 2 ^ 5 from rfl, show (2 - 1) * Bitx = 6 from rfl,
          Nat.shiftRight_eq_div_pow, or_mark (by omega)]
        congr 2
        omega
      rw [if_pos (.inl htwo), if_pos htwo, h0]
      simp only [List.range'_succ, List.range'_zero, List.map_cons, List.map_nil, hbyte]
      simp
    · rw [if_neg (by rw [show UTFmax = 4 from rfl]; omega), if_neg htwo, runeloop, hkeep,
        show RuneX (2 + 1) = 0xFFFF from rfl]
      by_cases hthree : v ≤ 0xFFFF
      · have h0 : UInt8.ofNat (T (2 + 1) ||| v >>> ((2 + 1 - 1) * Bitx)) =
            UInt8.ofNat (v / 4096 % 0x10 + 0xe0) := by
          rw [show T (2 + 1) = 14 * 2 ^ 4 from rfl, show (2 + 1 - 1) * Bitx = 12 from rfl,
            Nat.shiftRight_eq_div_pow, or_mark (by omega)]
          congr 2
          omega
        rw [if_pos (.inl hthree), if_pos hthree, h0]
        simp only [List.range'_succ, List.range'_zero, List.map_cons, List.map_nil, hbyte]
        simp
      · have h0 : UInt8.ofNat (T (2 + 1 + 1) ||| v >>> ((2 + 1 + 1 - 1) * Bitx)) =
            UInt8.ofNat (v / 262144 % 0x08 + 0xf0) := by
          rw [show T (2 + 1 + 1) = 30 * 2 ^ 3 from rfl, show (2 + 1 + 1 - 1) * Bitx = 18 from rfl,
            Nat.shiftRight_eq_div_pow, or_mark (by omega)]
          congr 2
          omega
        rw [if_neg (by rw [show UTFmax = 4 from rfl]; omega), if_neg hthree, runeloop,
          if_neg (show ¬ 2 + 1 + 1 = 3 by decide), if_pos (.inr rfl), h0]
        simp only [List.range'_succ, List.range'_zero, List.map_cons, List.map_nil, hbyte]
        simp

end Encode

section Cases

theorem exists_char {v : ℕ} (h : v < 0xD800 ∨ 0xDFFF < v ∧ v < 0x110000) : ∃ c : Char, c.toNat = v :=
  ⟨Char.ofNatAux v h, rfl⟩

theorem charloop_append {c0 k i l : ℕ} {str : List UInt8} {r : ℕ × ℕ} (t : List UInt8)
    (h : charloop c0 k i l str = some r) : charloop c0 k i l (str ++ t) = some r := by
  induction k generalizing i l str with
  | zero => exact h
  | succ k ih =>
    cases str with
    | nil => cases h
    | cons b str =>
      rw [List.cons_append]
      by_cases hb : b.toNat / 64 = 2
      · rw [charloop_next _ hb] at h ⊢
        split at h
        · rename_i hlast
          rwa [if_pos hlast]
        · rename_i hmore
          rw [if_neg hmore]
          exact ih h
      · rw [charloop_stop _ hb] at h ⊢
        exact h

/-- Bytes that follow what is examined do not matter. -/
theorem chartorune_append {s : List UInt8} {r : ℕ × ℕ} (t : List UInt8) (h : chartorune s = some r) :
    chartorune (s ++ t) = some r := by
  cases s with
  | nil => cases h
  | cons b str =>
    rw [chartorune] at h
    rw [List.cons_append, chartorune]
    split at h
    · rename_i hone
      rwa [if_pos hone]
    · rename_i hmore
      rw [if_neg hmore]
      exact charloop_append t h

/-- The bytes are those of a character. -/
def Starts (s : List UInt8) (r : ℕ × ℕ) : Prop :=
  ∃ (c : Char) (t : List UInt8), s = String.utf8EncodeChar c ++ t ∧
    r = (c.toNat, (String.utf8EncodeChar c).length)

theorem starts_of {v : ℕ} (h : v < 0xD800 ∨ 0xDFFF < v ∧ v < 0x110000) (bs t : List UInt8)
    (hbs : ∀ c : Char, c.toNat = v → String.utf8EncodeChar c = bs) : Starts (bs ++ t) (v, bs.length) := by
  obtain ⟨c, hc⟩ := exists_char h
  exact ⟨c, t, by rw [hbs c hc], by rw [hbs c hc, hc]⟩

theorem chartorune_cases {s : List UInt8} {r : ℕ × ℕ} (h : chartorune s = some r) :
    r = Bad ∨ Starts s r := by
  have htx : Tx = 0x80 := rfl
  have ht3 : T 3 = 0xE0 := rfl
  have ht4 : T 4 = 0xF0 := rfl
  rcases s with _ | ⟨b0, s⟩
  · cases h
  have hb0 := b0.toNat_lt
  by_cases hone : b0.toNat < Tx
  · rw [chartorune, if_pos hone] at h
    cases h
    refine .inr (starts_of (.inl (by omega)) [b0] s fun c hc => ?_)
    rw [String.utf8EncodeChar, show c.val.toNat = c.toNat from rfl, hc, if_pos (by omega), UInt8.ofNat_toNat]
  · rcases s with _ | ⟨b1, s⟩
    · rw [chartorune, if_neg hone] at h
      cases h
    by_cases h1 : b1.toNat / 64 ≠ 2
    · rw [chartorune, if_neg hone, show UTFmax - 1 = 2 + 1 from rfl, charloop_stop _ h1] at h
      exact .inl (Option.some.inj h).symm
    rw [not_not] at h1
    have hbyte : ∀ (b : UInt8) (n : ℕ), n = b.toNat → UInt8.ofNat n = b := fun b n hn => by
      rw [hn, UInt8.ofNat_toNat]
    by_cases htwo : b0.toNat < T 3
    · rw [chartorune_two s hone htwo h1] at h
      split at h
      · exact .inl (Option.some.inj h).symm
      · cases h
        refine .inr (starts_of (.inl (by omega)) [b0, b1] s fun c hc => ?_)
        rw [String.utf8EncodeChar, show c.val.toNat = c.toNat from rfl, hc, if_neg (by omega),
          if_pos (by omega), hbyte b0 _ (by omega), hbyte b1 _ (by omega)]
    · rcases s with _ | ⟨b2, s⟩
      · rw [chartorune, if_neg hone, show UTFmax - 1 = 1 + 1 + 1 from rfl, charloop_next _ h1,
          if_neg htwo] at h
        cases h
      by_cases h2 : b2.toNat / 64 ≠ 2
      · rw [chartorune, if_neg hone, show UTFmax - 1 = 1 + 1 + 1 from rfl, charloop_next _ h1,
          if_neg htwo, charloop_stop _ h2] at h
        exact .inl (Option.some.inj h).symm
      rw [not_not] at h2
      by_cases hthree : b0.toNat < T 4
      · rw [chartorune_three s htwo hthree h1 h2 rfl] at h
        split at h
        · exact .inl (Option.some.inj h).symm
        · cases h
          refine .inr (starts_of (by omega) [b0, b1, b2] s fun c hc => ?_)
          rw [String.utf8EncodeChar, show c.val.toNat = c.toNat from rfl, hc, if_neg (by omega),
            if_neg (by omega), if_pos (by omega), hbyte b0 _ (by omega), hbyte b1 _ (by omega),
            hbyte b2 _ (by omega)]
      · rcases s with _ | ⟨b3, s⟩
        · rw [chartorune, if_neg hone, show UTFmax - 1 = 0 + 1 + 1 + 1 from rfl, charloop_next _ h1,
            if_neg htwo, charloop_next _ h2, if_neg hthree] at h
          cases h
        by_cases h3 : b3.toNat / 64 ≠ 2
        · rw [chartorune, if_neg hone, show UTFmax - 1 = 0 + 1 + 1 + 1 from rfl, charloop_next _ h1,
            if_neg htwo, charloop_next _ h2, if_neg hthree, charloop_stop _ h3] at h
          exact .inl (Option.some.inj h).symm
        rw [not_not] at h3
        rw [chartorune_four s hthree h1 h2 h3 rfl] at h
        split at h
        · exact .inl (Option.some.inj h).symm
        · cases h
          refine .inr (starts_of (by omega) [b0, b1, b2, b3] s fun c hc => ?_)
          rw [String.utf8EncodeChar, show c.val.toNat = c.toNat from rfl, hc, if_neg (by omega),
            if_neg (by omega), if_neg (by omega), hbyte b0 _ (by omega), hbyte b1 _ (by omega),
            hbyte b2 _ (by omega), hbyte b3 _ (by omega)]

end Cases

section Strings

/-- Repeated calls of `chartorune` on a string, which has a zero after it. -/
def decodeloop : ℕ → List UInt8 → List (ℕ × ℕ)
  | 0, _ => []
  | _ + 1, [] => []
  | fuel + 1, b :: s =>
    match chartorune (b :: s ++ [0]) with
    | some r => r :: decodeloop fuel ((b :: s).drop r.2)
    | none => []

def decode (s : List UInt8) : List (ℕ × ℕ) := decodeloop s.length s

theorem charloop_ended (c0 k i l : ℕ) (t : List UInt8) : charloop c0 k i l (t ++ [0]) ≠ none := by
  induction k generalizing i l t with
  | zero => exact Option.some_ne_none _
  | succ k ih =>
    cases t with
    | nil =>
      rw [List.nil_append, charloop_stop _ (by decide)]
      exact Option.some_ne_none _
    | cons b t =>
      rw [List.cons_append]
      by_cases hb : b.toNat / 64 = 2
      · rw [charloop_next _ hb]
        split
        · exact Option.some_ne_none _
        · exact ih (i + 1) _ t
      · rw [charloop_stop _ hb]
        exact Option.some_ne_none _

theorem utf8_ne_nil (c : Char) : String.utf8EncodeChar c ≠ [] := by
  rw [String.utf8EncodeChar]
  split
  · exact List.cons_ne_nil _ _
  · split
    · exact List.cons_ne_nil _ _
    · split
      all_goals exact List.cons_ne_nil _ _

/-- The zero after a string is in no sequence that starts in it. -/
theorem utf8_in_string {c : Char} {s t : List UInt8} (hs : s ≠ [])
    (h : s ++ [0] = String.utf8EncodeChar c ++ t) : String.utf8EncodeChar c <+: s := by
  rcases List.eq_nil_or_concat t with ht | ⟨t', z, ht⟩
  · rw [ht, List.append_nil] at h
    exfalso
    obtain ⟨b, s, rfl⟩ := List.exists_cons_of_ne_nil hs
    have hmem : ∀ n, UInt8.ofNat (n % 0x40 + 0x80) ≠ 0 := fun n hzero => by
      have hnat := congrArg UInt8.toNat hzero
      rw [toNat_byte (by omega), UInt8.toNat_zero] at hnat
      omega
    have hlast := congrArg List.getLast? h
    rw [List.getLast?_concat, String.utf8EncodeChar] at hlast
    rw [String.utf8EncodeChar] at h
    split at hlast
    · rename_i hone
      rw [if_pos hone] at h
      simp at h
    · split at hlast
      · exact hmem _ (Option.some.inj hlast).symm
      · split at hlast
        all_goals exact hmem _ (Option.some.inj hlast).symm
  · rw [ht, List.concat_eq_append, ← List.append_assoc] at h
    exact ⟨t', (List.append_inj_left' h rfl).symm⟩

/-- A call on a string that is not at its end: it goes on by the bytes of a character, or by one byte
exactly where no character starts. -/
theorem chartorune_string {s : List UInt8} (hs : s ≠ []) :
    ∃ r, chartorune (s ++ [0]) = some r ∧ 0 < r.2 ∧ r.2 ≤ s.length ∧
      (r = Bad ↔ ¬ ∃ c : Char, String.utf8EncodeChar c <+: s) ∧ (r ≠ Bad → Starts s r) := by
  obtain ⟨r, hr⟩ : ∃ r, chartorune (s ++ [0]) = some r := by
    obtain ⟨b, t, rfl⟩ := List.exists_cons_of_ne_nil hs
    refine Option.ne_none_iff_exists'.mp ?_
    rw [List.cons_append, chartorune]
    split
    · exact Option.some_ne_none _
    · exact charloop_ended _ _ _ _ t
  have hpos := List.length_pos_iff.mpr hs
  refine ⟨r, hr, ?_⟩
  by_cases hchar : ∃ c : Char, String.utf8EncodeChar c <+: s
  · obtain ⟨c, t, ht⟩ := hchar
    have hc := chartorune_char c (t ++ [0])
    rw [← List.append_assoc, ht, hr] at hc
    have hrc := Option.some.inj hc
    have hlen : 0 < (String.utf8EncodeChar c).length := List.length_pos_iff.mpr (utf8_ne_nil c)
    have hgood : r ≠ Bad := fun hbad => by
      rw [hrc, Bad, Prod.mk.injEq] at hbad
      rw [String.utf8EncodeChar, show c.val.toNat = c.toNat from rfl, hbad.1] at hbad
      exact absurd hbad.2 (by decide)
    refine ⟨by rw [hrc]; exact hlen, ?_, iff_of_false hgood (not_not.mpr ⟨c, t, ht⟩), fun _ =>
      ⟨c, t, ht.symm, hrc⟩⟩
    rw [hrc, ← ht, List.length_append]
    exact Nat.le_add_right _ _
  · rcases chartorune_cases hr with hbad | ⟨c, t, ht, -⟩
    · rw [hbad]
      exact ⟨by decide, hpos, iff_of_true rfl hchar, fun h => absurd rfl h⟩
    · exact absurd ⟨c, utf8_in_string hs ht⟩ hchar

theorem utf8_high {c : Char} (hc : 0x80 ≤ c.toNat) {b : UInt8} (hb : b ∈ String.utf8EncodeChar c) :
    0x80 ≤ b.toNat := by
  have hrange := char_range c
  rw [String.utf8EncodeChar, show c.val.toNat = c.toNat from rfl, if_neg (by omega)] at hb
  generalize c.toNat = v at *
  split at hb
  · simp only [List.mem_cons, List.not_mem_nil, or_false] at hb
    rcases hb with rfl | rfl
    all_goals rw [toNat_byte (by omega)]; omega
  · split at hb
    · simp only [List.mem_cons, List.not_mem_nil, or_false] at hb
      rcases hb with rfl | rfl | rfl
      all_goals rw [toNat_byte (by omega)]; omega
    · simp only [List.mem_cons, List.not_mem_nil, or_false] at hb
      rcases hb with rfl | rfl | rfl | rfl
      all_goals rw [toNat_byte (by omega)]; omega

/-- A rune is one byte, or a run of bytes none of which is one. -/
theorem chartorune_ascii (b : UInt8) (s : List UInt8) :
    ∃ r, chartorune (b :: s ++ [0]) = some r ∧ 0 < r.2 ∧ r.2 ≤ s.length + 1 ∧
      (b.toNat < 0x80 ∧ r = (b.toNat, 1) ∨
        0x80 ≤ r.1 ∧ ∀ x ∈ (b :: s).take r.2, 0x80 ≤ x.toNat) := by
  obtain ⟨r, hr, hpos, hle, -, hstart⟩ := chartorune_string (List.cons_ne_nil b s)
  refine ⟨r, hr, hpos, hle, ?_⟩
  by_cases hb : b.toNat < 0x80
  · rw [List.cons_append, chartorune, if_pos (show b.toNat < Tx from hb)] at hr
    exact .inl ⟨hb, (Option.some.inj hr).symm⟩
  · right
    by_cases hbad : r = Bad
    · rw [hbad]
      refine ⟨by decide, fun x hx => ?_⟩
      rw [show Bad.2 = 0 + 1 from rfl, List.take_succ_cons, List.take_zero, List.mem_singleton] at hx
      rw [hx]
      omega
    · obtain ⟨c, t, hs, rfl⟩ := hstart hbad
      have hhigh : 0x80 ≤ c.toNat := by
        by_contra hlow
        rw [String.utf8EncodeChar, show c.val.toNat = c.toNat from rfl, if_pos (by omega)] at hs
        rw [(List.cons.inj hs).1, toNat_byte (by omega)] at hb
        omega
      refine ⟨hhigh, fun x hx => utf8_high hhigh ?_⟩
      rwa [hs, List.take_left] at hx

theorem decodeloop_step (fuel : ℕ) {s : List UInt8} (hs : s ≠ []) {r : ℕ × ℕ}
    (hr : chartorune (s ++ [0]) = some r) :
    decodeloop (fuel + 1) s = r :: decodeloop fuel (s.drop r.2) := by
  obtain ⟨b, t, rfl⟩ := List.exists_cons_of_ne_nil hs
  rw [decodeloop, hr]

theorem decodeloop_nil (fuel : ℕ) : decodeloop fuel [] = [] := by
  cases fuel with
  | zero => rfl
  | succ fuel => rfl

/-- The calls come to the end of the string. -/
theorem decodeloop_widths (fuel : ℕ) (s : List UInt8) (h : s.length ≤ fuel) :
    ((decodeloop fuel s).map Prod.snd).sum = s.length := by
  induction fuel generalizing s with
  | zero =>
    rw [List.length_eq_zero_iff.mp (Nat.le_zero.mp h)]
    rfl
  | succ fuel ih =>
    by_cases hs : s = []
    · rw [hs, decodeloop_nil]
      rfl
    · obtain ⟨r, hr, hpos, hle, -⟩ := chartorune_string hs
      rw [decodeloop_step fuel hs hr, List.map_cons, List.sum_cons, ih _ (by
        rw [List.length_drop]
        omega), List.length_drop]
      omega

/-- Where no call fails, the characters found are those of the string. -/
theorem decodeloop_encode (fuel : ℕ) (s : List UInt8) (h : s.length ≤ fuel)
    (hgood : ∀ r ∈ decodeloop fuel s, r ≠ Bad) :
    (decodeloop fuel s).flatMap (fun r => runetochar r.1) = s := by
  induction fuel generalizing s with
  | zero =>
    rw [List.length_eq_zero_iff.mp (Nat.le_zero.mp h)]
    rfl
  | succ fuel ih =>
    by_cases hs : s = []
    · rw [hs, decodeloop_nil]
      rfl
    · obtain ⟨r, hr, hpos, hle, -, hstart⟩ := chartorune_string hs
      rw [decodeloop_step fuel hs hr] at hgood ⊢
      rw [List.forall_mem_cons] at hgood
      obtain ⟨c, t, hsplit, hrc⟩ := hstart hgood.1
      rw [List.flatMap_cons, ih _ (by rw [List.length_drop]; omega) hgood.2, hrc, runetochar_char,
        hsplit, List.drop_left]

theorem decodeloop_chars (cs : List Char) (fuel : ℕ)
    (h : (cs.flatMap fun c => runetochar c.toNat).length ≤ fuel) :
    decodeloop fuel (cs.flatMap fun c => runetochar c.toNat) =
      cs.map fun c => (c.toNat, (runetochar c.toNat).length) := by
  induction cs generalizing fuel with
  | nil => exact decodeloop_nil fuel
  | cons c cs ih =>
    rw [List.flatMap_cons, List.length_append] at h
    rw [List.flatMap_cons, List.map_cons]
    have hpos : 0 < (runetochar c.toNat).length := by
      rw [runetochar_char]
      exact List.length_pos_iff.mpr (utf8_ne_nil c)
    obtain ⟨fuel, rfl⟩ : ∃ k, fuel = k + 1 := ⟨fuel - 1, by omega⟩
    have hne : runetochar c.toNat ++ cs.flatMap (fun c => runetochar c.toNat) ≠ [] :=
      List.append_ne_nil_of_left_ne_nil (List.ne_nil_of_length_pos hpos) _
    have hc := chartorune_char c (cs.flatMap (fun c => runetochar c.toNat) ++ [0])
    rw [← runetochar_char, ← List.append_assoc] at hc
    rw [decodeloop_step fuel hne hc, List.drop_left, ih fuel (by omega)]

theorem fullloop_le {c n k i : ℕ} (hk : k + i = UTFmax + 1) (h : fullloop c n k i = true) : i - 1 ≤ n := by
  induction k generalizing i with
  | zero =>
    have hfour : n ≥ UTFmax := of_decide_eq_true h
    omega
  | succ k ih =>
    rw [fullloop] at h
    split at h
    · exact of_decide_eq_true h
    · have hnext := ih (by omega) h
      omega

theorem charloop_full {c0 k i l : ℕ} {str : List UInt8} (hk : k + i + 1 = UTFmax)
    (h : fullloop c0 (str.length + i) k (i + 2) = true) : charloop c0 (k + 1) i l str ≠ none := by
  induction k generalizing i l str with
  | zero =>
    have hle := fullloop_le (by omega) h
    obtain ⟨b, str, rfl⟩ := List.exists_cons_of_length_pos (show 0 < str.length by omega)
    by_cases hb : b.toNat / 64 = 2
    · rw [charloop_next _ hb]
      split
      all_goals exact Option.some_ne_none _
    · rw [charloop_stop _ hb]
      exact Option.some_ne_none _
  | succ k ih =>
    have hle := fullloop_le (by omega) h
    obtain ⟨b, str, rfl⟩ := List.exists_cons_of_length_pos (show 0 < str.length by omega)
    rw [fullloop] at h
    by_cases hb : b.toNat / 64 = 2
    · rw [charloop_next _ hb]
      split
      · exact Option.some_ne_none _
      · rename_i hmore
        rw [if_neg hmore, List.length_cons, Nat.add_assoc, Nat.add_comm 1 i] at h
        exact ih (by omega) h
    · rw [charloop_stop _ hb]
      exact Option.some_ne_none _

/-- Enough bytes by `fullrune` are enough for `chartorune`. -/
theorem fullrune_enough {s : List UInt8} {n : ℕ} (hn : n ≤ s.length) (h : fullrune s n = true) :
    ∃ r, chartorune (s.take n) = some r ∧ chartorune s = some r := by
  have hsome : ∃ r, chartorune (s.take n) = some r := by
    rw [← Option.ne_none_iff_exists']
    rw [fullrune] at h
    split at h
    · cases h
    · rename_i hpos
      obtain ⟨b, s, rfl⟩ := List.exists_cons_of_length_pos (show 0 < s.length by omega)
      obtain ⟨n, rfl⟩ : ∃ k, n = k + 1 := ⟨n - 1, by omega⟩
      rw [List.take_succ_cons, chartorune]
      rw [List.length_cons] at hn
      by_cases hone : b.toNat < Tx
      · rw [if_pos hone]
        exact Option.some_ne_none _
      · replace h : fullloop b.toNat (n + 1) (UTFmax + 1 - 3) 3 = true := (if_neg hone).symm.trans h
        rw [if_neg hone]
        refine charloop_full rfl ?_
        rwa [List.length_take, Nat.min_eq_left (by omega)]
  obtain ⟨r, hr⟩ := hsome
  refine ⟨r, hr, ?_⟩
  rw [← List.take_append_drop n s]
  exact chartorune_append _ hr

end Strings

/-- Decoding is exact: a call goes on by a byte exactly where no character starts, calls come to the end
of the string, what they find encodes to the string where none fails, characters come back from their
encoding, and no byte is examined beyond those `fullrune` asks for. -/
theorem utf8_exact :
    (∀ s : List UInt8, s ≠ [] → ∃ r, chartorune (s ++ [0]) = some r ∧ 0 < r.2 ∧ r.2 ≤ s.length ∧
      (r = Bad ↔ ¬ ∃ c : Char, String.utf8EncodeChar c <+: s) ∧ (r ≠ Bad → Starts s r)) ∧
    (∀ s : List UInt8, ((decode s).map Prod.snd).sum = s.length ∧
      ((∀ r ∈ decode s, r ≠ Bad) → (decode s).flatMap (fun r => runetochar r.1) = s)) ∧
    (∀ cs : List Char, decode (cs.flatMap fun c => runetochar c.toNat) =
      cs.map fun c => (c.toNat, (runetochar c.toNat).length)) ∧
    ∀ (s : List UInt8) (n : ℕ), n ≤ s.length → fullrune s n = true →
      ∃ r, chartorune (s.take n) = some r ∧ chartorune s = some r :=
  ⟨fun _ => chartorune_string, fun s => ⟨decodeloop_widths _ s le_rfl, decodeloop_encode _ s le_rfl⟩,
    fun cs => decodeloop_chars cs _ le_rfl, fun _ _ => fullrune_enough⟩

example : chartorune [0xE2, 0x82, 0xAC, 0] = some (0x20AC, 3) := by decide

example : runetochar 0x20AC = [0xE2, 0x82, 0xAC] := by decide

end Petele.Libc
