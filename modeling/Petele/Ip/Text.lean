import Petele.Libc.Strtoul

namespace Petele.Ip

open Libc

def IPaddrlen : ℕ := 16

def IPv4off : ℕ := 12

def v4prefix : List UInt8 := [0, 0, 0, 0, 0, 0, 0, 0, 0, 0, 0xff, 0xff]

structure Addr where
  bytes : List UInt8
  len : bytes.length = IPaddrlen

section Eipfmt

variable (size : ℕ) (p : List UInt8)

/-- The text that `snprint` leaves in a buffer of that size, from the end of what is there. -/
def snprint (buf s : List Char) : List Char := buf ++ s.take (size - buf.length - 1)

/-- `%d` -/
def dec (n : ℕ) : List Char := Nat.toDigits 10 n

/-- `%ux` -/
def hex (n : ℕ) : List Char := Nat.toDigits 16 n

/-- `%.2ux` -/
def hex2 (n : ℕ) : List Char := if n < 16 then '0' :: hex n else hex n

def byte (i : ℕ) : ℕ := (p.getD i 0).toNat

def short (i : ℕ) : ℕ := byte p i * 2 ^ 8 + byte p (i + 1)

/-- The end of the zeros from `j` on. -/
def zeroend : ℕ → ℕ → ℕ
  | 0, j => j
  | k + 1, j => if j < 16 ∧ ¬ (byte p j ≠ 0 ∨ byte p (j + 1) ≠ 0) then zeroend k (j + 2) else j

/-- The longest elision, as its start and length. -/
def elideloop : ℕ → ℕ → ℤ → ℤ → ℤ × ℤ
  | 0, _, eli, eln => (eli, eln)
  | k + 1, i, eli, eln =>
    if i < 16 then
      let j := zeroend p 8 i
      if j > i ∧ (j - i : ℤ) > eln then elideloop k (i + 2) i (j - i) else elideloop k (i + 2) eli eln
    else (eli, eln)

/-- The text with possible elision. -/
def printloop (eli eln : ℤ) : ℕ → ℕ → List Char → List Char
  | 0, _, buf => buf
  | k + 1, i, buf =>
    if i < 16 then
      if i = eli then
        let buf := snprint size buf [':', ':']
        let i := i + eln.toNat
        if i ≥ 16 then buf else printloop eli eln k (i + 2) (snprint size buf (hex (short p i)))
      else
        let buf := if i ≠ 0 then snprint size buf [':'] else buf
        printloop eli eln k (i + 2) (snprint size buf (hex (short p i)))
    else buf

def efmt (p : List UInt8) : List Char :=
  hex2 (byte p 0) ++ hex2 (byte p 1) ++ hex2 (byte p 2) ++ hex2 (byte p 3) ++ hex2 (byte p 4) ++ hex2 (byte p 5)

def ifmt (p : List UInt8) : List Char :=
  dec (byte p 0) ++ '.' :: (dec (byte p 1) ++ '.' :: (dec (byte p 2) ++ '.' :: dec (byte p 3)))

/-- The text of an address, from `common` on. -/
def common : List Char :=
  if p.take 12 = v4prefix then snprint size [] (ifmt (p.drop 12))
  else
    let (eli, eln) := elideloop p 8 0 (-1) (-1)
    printloop size p eli eln 8 0 []

/-- Bits of a byte that is a prefix. -/
def prefixvals (b : ℕ) : Option ℕ :=
  match b with
  | 0x00 => some 0
  | 0x80 => some 1
  | 0xC0 => some 2
  | 0xE0 => some 3
  | 0xF0 => some 4
  | 0xF8 => some 5
  | 0xFC => some 6
  | 0xFE => some 7
  | 0xFF => some 8
  | _ => none

/-- The bits of a prefix mask. -/
def maskbits : Option ℕ :=
  let i := (p.takeWhile (· = 0xff)).length
  if i < 16 then
    match prefixvals (byte p i) with
    | some n => if (p.drop (i + 1)).all (· = 0) then some (8 * i + n) else none
    | none => none
  else some (8 * 16)

inductive Verb where
  | E (p : List UInt8)
  | I (p : List UInt8)
  | i (lp : List UInt32)
  | V (p : List UInt8)
  | M (p : List UInt8)

def hnputl (v : UInt32) : List UInt8 :=
  [UInt8.ofNat (v.toNat / 2 ^ 24), UInt8.ofNat (v.toNat / 2 ^ 16), UInt8.ofNat (v.toNat / 2 ^ 8),
    UInt8.ofNat v.toNat]

/-- The text with a buffer of that size. -/
def eipfmt : Verb → List Char
  | .E p => snprint size [] (efmt p)
  | .I p => common size p
  | .i lp => common size (lp.flatMap hnputl)
  | .V p => snprint size [] (ifmt p)
  | .M p =>
    match maskbits p with
    | some n => snprint size [] ('/' :: dec n)
    | none => common size p

/-- The size of the buffer of `eipfmt`. -/
def sizeof : ℕ := 5 * 8

end Eipfmt

section Parseip

def nul : Char := '\x00'

def isxdigit (c : Char) : Bool :=
  ('0' ≤ c && c ≤ '9') || ('a' ≤ c && c ≤ 'f') || ('A' ≤ c && c ≤ 'F')

def isalnum (c : Char) : Bool :=
  ('0' ≤ c && c ≤ '9') || ('a' ≤ c && c ≤ 'z') || ('A' ≤ c && c ≤ 'Z')

def ipcharok (c : Char) : Bool := c = '.' || c = ':' || isxdigit c

def delimchar (c : Char) : Bool := c = nul || !(c = '.' || c = ':' || isalnum c)

def v4loop : ℕ → ℕ → List UInt8 → List Char → ℕ × List UInt8 × List Char
  | 0, i, into, p => (i, into, p)
  | k + 1, i, into, p =>
    if p.headD nul ≠ nul then
      let (x, p) := strtoul p 0
      v4loop k (i + 1) (into.set i (UInt8.ofNat x)) (if p.headD nul = '.' then p.tail else p)
    else (i, into, p)

/-- The bytes at `into`, where those of a class may be missing, and the text after the address. -/
def v4parseip (into : List UInt8) (text : List Char) : List UInt8 × List Char :=
  let (i, into, p) := v4loop 4 0 into text
  let b := fun j => into.getD j 0
  match (b 0).toNat / 64 with
  | 0 | 1 => (if i = 3 then [b 0, 0, b 1, b 2] else if i = 2 then [b 0, 0, b 2, b 1] else into, p)
  | 2 => (if i = 3 then [b 0, b 1, 0, b 2] else into, p)
  | _ => (into, p)

structure Parse where
  i : ℕ
  elipsis : ℕ
  v4 : Bool
  into : List UInt8
  p : List Char

/-- The loop of `parseip`; there is no result after a parse error. -/
def parseloop : ℕ → Parse → Option Parse
  | 0, s => some s
  | k + 1, s =>
    if s.i < IPaddrlen ∧ ipcharok (s.p.headD nul) then
      let (x, p) := strtoul s.p 16
      let c := p.headD nul
      if c = '.' ∧ s.i ≤ IPaddrlen - 4 ∨ c = nul ∧ s.i = 0 then
        let (v, p) := v4parseip ((s.into.drop s.i).take 4) s.p
        some { s with into := s.into.take s.i ++ v ++ s.into.drop (s.i + 4), p := p, i := s.i + 4 }
      else if x ≠ x % 2 ^ 16 ∨ c ≠ ':' ∧ delimchar c = false then none
      else
        let into := (s.into.set s.i (UInt8.ofNat (x / 2 ^ 8))).set (s.i + 1) (UInt8.ofNat x)
        if c = ':' then
          if p.tail.headD nul = ':' then
            if s.elipsis ≠ 0 then none else parseloop k ⟨s.i + 2, s.i + 2, false, into, p.tail.tail⟩
          else parseloop k ⟨s.i + 2, s.elipsis, false, into, p.tail⟩
        else if p.length = s.p.length then some { s with into := into, p := p }
        else parseloop k { s with i := s.i + 2, into := into, p := p }
    else some s

def memmove (into : List UInt8) (dst src n : ℕ) : List UInt8 :=
  into.take dst ++ (into.drop src).take n ++ into.drop (dst + n)

def memset (into : List UInt8) (dst n : ℕ) : List UInt8 :=
  into.take dst ++ List.replicate n 0 ++ into.drop (dst + n)

def nhgetl (p : List UInt8) : ℕ :=
  (p.getD 0 0).toNat * 2 ^ 24 + (p.getD 1 0).toNat * 2 ^ 16 + (p.getD 2 0).toNat * 2 ^ 8 + (p.getD 3 0).toNat

/-- The bytes at `into`, and the value returned. -/
def parseip (text : List Char) : List UInt8 × ℤ :=
  let zeros := List.replicate IPaddrlen 0
  match parseloop 8 ⟨0, 0, true, zeros, text⟩ with
  | none => (zeros, -1)
  | some s =>
    if s.p.length = text.length ∨ delimchar (s.p.headD nul) = false then (zeros, -1)
    else
      let into := if s.i < IPaddrlen then
          memset (memmove s.into (s.elipsis + IPaddrlen - s.i) s.elipsis (s.i - s.elipsis)) s.elipsis
            (IPaddrlen - s.i)
        else s.into
      if s.v4 then
        let into := (into.set 10 0xff).set 11 0xff
        (into, nhgetl (into.drop IPv4off))
      else (into, 6)

end Parseip

end Petele.Ip
