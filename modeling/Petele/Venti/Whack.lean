import Mathlib

namespace Petele.Venti

section Constants

def MaxFastLen : ℕ := 9

def BigLenCode : ℕ := 0x1f4

def BigLenBits : ℕ := 9

def BigLenBase : ℕ := 4

def MinOffBits : ℕ := 6

def MaxOffBits : ℕ := MinOffBits + 8

def MaxLen : ℕ := 2051

def WhackMaxOff : ℕ := 16 * 1024

def HashLog : ℕ := 14

def HashMask : ℕ := (1 <<< HashLog) - 1

def MinMatch : ℕ := 3

/-- The length of a code and the code. -/
def lentab : List (ℕ × ℕ) :=
  [(2, 0x2), (3, 0x6), (5, 0x1c), (5, 0x1d), (6, 0x3c), (7, 0x7a), (7, 0x7b), (8, 0xf8), (8, 0xf9)]

end Constants

section Matches

/-- The times in the tables are `ushort`. -/
structure Whack where
  begin : ℕ
  hash : ℕ → ℕ
  next : ℕ → ℕ
  /-- The variable of the file that `whackinit` sets. -/
  thwmaxcheck : ℕ

def whackinit (level : ℕ) : Whack where
  begin := 2 * WhackMaxOff
  hash _ := 0
  next _ := 0
  thwmaxcheck :=
    let n := 1 <<< level - (1 <<< level) >>> 2
    if n < 2 then 2 else if n > 1024 then 1024 else n

variable (src : List UInt8)

/-- The loop over equal bytes: where it stops, with `r` bytes left. -/
def agree : (s t r : ℕ) → ℕ
  | s, _, 0 => s
  | s, t, r + 1 => if src.getD s 0 ≠ src.getD t 0 then s else agree (s + 1) (t + 1) r

/-- The loop of `whackmatch`, which returns the best offset and the best length. -/
def matchloop (w : Whack) (s esrc now : ℕ) : (check time last bestoff bestlen : ℕ) → ℕ × ℕ
  | 0, _, _, bestoff, bestlen => (bestoff, bestlen)
  | check + 1, time, last, bestoff, bestlen =>
    let off := (now + 2 ^ 16 - time) % 2 ^ 16
    if off ≤ last ∨ off > WhackMaxOff then (bestoff, bestlen)
    else
      let t := s - off
      let time := w.next (time &&& (WhackMaxOff - 1))
      if (src.getD s 0 = src.getD t 0 ∧ src.getD (s + 1) 0 = src.getD (t + 1) 0 ∧ src.getD (s + 2) 0 = src.getD (t + 2) 0) ∧
          (bestlen = 0 ∨ esrc - s > bestlen ∧ src.getD (s + bestlen) 0 = src.getD (t + bestlen) 0) then
        let len := agree src (s + 3) (t + 3) (esrc - (s + 3)) - s
        if len > bestlen then
          if len > w.thwmaxcheck then (off, len) else matchloop w s esrc now check time off off len
        else matchloop w s esrc now check time off bestoff bestlen
      else matchloop w s esrc now check time off bestoff bestlen

/-- The offset and the length of a match. -/
def whackmatch (w : Whack) (s h now : ℕ) : ℤ × ℕ :=
  if src.length < s + MinMatch then (-1, 0)
  else
    let r := matchloop src w s (if s + MaxLen < src.length then s + MaxLen else src.length) now w.thwmaxcheck (w.hash h) 0 0 0
    (r.1, r.2)

end Matches

section Codes

def hashit (c : ℕ) : ℕ := (((c &&& 0xffffff) * 0x6b43a9b5 % 2 ^ 32) >>> (32 - HashLog)) &&& HashMask

/-- Whole bytes go to the output, of which there are at most `n`. -/
def flush (n : ℕ) (out : List UInt8) (wbits wnbits : ℕ) : Option (List UInt8 × ℕ) :=
  if 8 ≤ wnbits then
    if n ≤ out.length then none
    else flush n (out ++ [UInt8.ofNat (wbits >>> (wnbits - 8))]) wbits (wnbits - 8)
  else some (out, wnbits)

/-- The kinds of the last literals. -/
def remember (lithist : ℕ) (lit : UInt8) : ℕ :=
  (lithist <<< 1 ||| (if lit < 32 then 1 else 0) ||| (if lit > 127 then 1 else 0)) % 2 ^ 32

/-- `wbits` has 32 bits. -/
def put (wbits bits code : ℕ) : ℕ := (wbits <<< bits ||| code) % 2 ^ 32

/-- The code of a literal, where `lithist` has its kind already. -/
def litcode (lithist : ℕ) (lit : UInt8) : ℕ × ℕ :=
  if lithist &&& 0x1e ≠ 0 then (9, lit.toNat)
  else if lithist &&& 1 ≠ 0 then
    let toff := (lit.toNat + 64) &&& 0xff
    if toff < 96 then (10, toff) else (11, toff)
  else (8, lit.toNat)

/-- The loop for large lengths. There is more fuel than length. -/
def biglen : (fuel len code use bits : ℕ) → ℕ × ℕ
  | 0, len, code, _, bits => (bits, code + len)
  | fuel + 1, len, code, use, bits =>
    if use ≤ len then biglen fuel (len - use) ((code + use) <<< 1) (use <<< ((bits &&& 1) ^^^ 1)) (bits + 1)
    else (bits, code + len)

/-- How many bits an offset has. -/
def offsize (toff : ℕ) : (fuel bits : ℕ) → ℕ
  | 0, bits => bits
  | fuel + 1, bits => if 1 <<< bits ≤ toff then offsize toff fuel (bits + 1) else bits

/-- The code of an offset: its head, and how many of its own bits follow. -/
def offcode (toff : ℕ) : (ℕ × ℕ) × ℕ :=
  let bits := offsize toff toff MinOffBits
  if bits < MaxOffBits - 1 then ((3, bits - MinOffBits), if bits ≠ MinOffBits then bits - 1 else bits)
  else ((4, 0xe ||| (bits - (MaxOffBits - 1))), bits - 1)

end Codes

section Blocks

structure Enc where
  w : Whack
  now : ℕ
  s : ℕ
  cont : ℕ
  half : ℕ
  wbits : ℕ
  wnbits : ℕ
  out : List UInt8
  lits : ℕ
  lithist : ℕ

variable (src : List UInt8)

/-- The position is put into the tables. -/
def enter (e : Enc) : Enc :=
  let h := hashit e.cont
  let e :=
    if e.s + MinMatch ≤ src.length then
      { e with
        w := { e.w with
          next := Function.update e.w.next (e.now &&& (WhackMaxOff - 1)) (e.w.hash h)
          hash := Function.update e.w.hash h e.now }
        cont := if e.s + MinMatch < src.length then (e.cont <<< 8 ||| (src.getD (e.s + MinMatch) 0).toNat) % 2 ^ 32 else e.cont }
    else e
  { e with now := (e.now + 1) % 2 ^ 16, s := e.s + 1 }

/-- A literal. Without progress in the first half there is no output. -/
def literal (e : Enc) : Option Enc :=
  let lit := src.getD e.s 0
  let lithist := remember e.lithist lit
  let c := litcode lithist lit
  let e := { e with
    lithist := lithist, wbits := put e.wbits c.1 c.2, wnbits := e.wnbits + c.1, lits := e.lits + 1 }
  if e.s > e.half then
    if 4 * e.s < 5 * e.lits then none else some (enter src { e with half := src.length })
  else some (enter src e)

/-- The length of a match, and the output so far if it is large. -/
def putlen (e : Enc) (len : ℕ) : Option Enc :=
  let len := len - MinMatch
  if len < MaxFastLen then
    let c := lentab.getD len (0, 0)
    some { e with wbits := put e.wbits c.1 c.2, wnbits := e.wnbits + c.1 }
  else
    let len := len - MaxFastLen
    let c := biglen len len BigLenCode BigLenBase BigLenBits
    let e := { e with wbits := put e.wbits c.1 c.2, wnbits := e.wnbits + c.1 }
    (flush src.length e.out e.wbits e.wnbits).map fun r => { e with out := r.1, wnbits := r.2 }

def putoff (e : Enc) (toff : ℕ) : Enc :=
  let c := offcode toff
  { e with
    wbits := put (put e.wbits c.1.1 c.1.2) c.2 (toff &&& ((1 <<< c.2) - 1))
    wnbits := e.wnbits + (c.1.1 + c.2) }

/-- A match. -/
def repeated (e : Enc) (toff : ℤ) (len : ℕ) : Option Enc :=
  let len := if len > MaxLen then MaxLen else len
  (putlen src e len).map fun e => (enter src)^[len] (putoff e (toff - 1).toNat)

/-- The loop over the block. There is as much fuel as there are bytes. -/
def whackloop : (fuel : ℕ) → Enc → Option Enc
  | 0, e => some e
  | fuel + 1, e =>
    if e.s < src.length then
      let m := whackmatch src e.w e.s (hashit e.cont) e.now
      (flush src.length e.out e.wbits e.wnbits).bind fun r =>
        let e := { e with out := r.1, wnbits := r.2 }
        (if m.2 < MinMatch then literal src e else repeated src e m.1 m.2).bind (whackloop fuel)
    else some e

/-- Nothing is returned for -1. -/
def whack (w : Whack) (compressblocks : Bool) : Option (List UInt8) :=
  if compressblocks = false ∨ src.length < MinMatch then none
  else
    let cont := ((src.getD 0 0).toNat <<< 16) ||| ((src.getD 1 0).toNat <<< 8) ||| (src.getD 2 0).toNat
    (whackloop src src.length
      { w := w, now := w.begin, s := 0, cont := cont, half := src.length >>> 1, wbits := 0, wnbits := 0, out := []
        lits := 0, lithist := 2 ^ 32 - 1 }).bind fun e =>
      let pad := if e.wnbits &&& 7 ≠ 0 then 8 - (e.wnbits &&& 7) else 0
      (flush src.length e.out ((e.wbits <<< pad) % 2 ^ 32) (e.wnbits + pad)).map Prod.fst

def whackblock (compressblocks : Bool) : Option (List UInt8) := whack src (whackinit 6) compressblocks

end Blocks

end Petele.Venti
