import Petele.Venti.Whack

namespace Petele.Venti

section Constants

def DMaxFastLen : ℕ := 7

def DBigLenCode : ℕ := 0x3c

def DBigLenBits : ℕ := 6

def DBigLenBase : ℕ := 1

def MinDecode : ℕ := 8

def lenval : List ℕ :=
  [0, 0, 0, 0, 0, 0, 0, 0, 0, 0, 0, 0, 0, 0, 0, 0, 3, 3, 3, 3, 3, 3, 3, 3, 4, 4, 4, 4, 5, 6, 255, 255]

def lenbits : List ℕ := [0, 0, 0, 2, 3, 5, 5]

def offbits : List ℕ := [5, 5, 5, 5, 6, 6, 7, 7, 8, 8, 9, 9, 10, 10, 12, 13]

def offbase : List ℕ :=
  [0, 0x20, 0x40, 0x60, 0x80, 0xc0, 0x100, 0x180, 0x200, 0x300, 0x400, 0x600, 0x800, 0xc00, 0x1000, 0x2000]

end Constants

section Decoder

/-- What `uw->err` says: "too much output", "len out of range", "offset out of range" with the numbers
and "compressed data overrun". -/
inductive Err
  | output
  | len
  | off (off d len nbits : ℕ)
  | overrun
deriving DecidableEq

structure Dec where
  /-- How many bytes have been read. -/
  src : ℕ
  uwbits : ℕ
  uwnbits : ℕ
  overbits : ℕ
  lithist : ℕ
  /-- The bytes that have been written. -/
  out : List UInt8

variable (src : List UInt8) (ndst : ℕ)

/-- Nothing is returned for a byte outside of the source. -/
def refill (d : Dec) : Option Dec :=
  if d.uwnbits ≤ 24 then
    if d.src < src.length then
      src[d.src]?.bind fun b =>
        refill { d with src := d.src + 1, uwbits := (d.uwbits <<< 8 ||| b.toNat) % 2 ^ 32, uwnbits := d.uwnbits + 8 }
    else refill { d with uwbits := (d.uwbits <<< 8) % 2 ^ 32, overbits := d.overbits + 8, uwnbits := d.uwnbits + 8 }
  else some d
termination_by 32 - d.uwnbits

/-- A byte is written. Nothing is returned when it would be outside of the destination. -/
def emit (out : List UInt8) (b : UInt8) : Option (List UInt8) := if out.length < ndst then some (out ++ [b]) else none

/-- The copy of earlier output, a byte at a time. Only bytes that have been written can be read. -/
def copy (off : ℕ) : (len : ℕ) → List UInt8 → Option (List UInt8)
  | 0, out => some out
  | len + 1, out =>
    if out.length < off then none
    else out[out.length - off]?.bind fun b => (emit ndst out b).bind (copy off len)

/-- A literal and the bits that are left. There are more than 24 before. -/
def getlit (d : Dec) : UInt8 × ℕ :=
  if d.lithist &&& 0xf ≠ 0 then
    let uwnbits := d.uwnbits - 9
    (UInt8.ofNat (d.uwbits >>> uwnbits &&& 0xff), uwnbits)
  else
    let uwnbits := d.uwnbits - 8
    let lit := d.uwbits >>> uwnbits &&& 0x7f
    if lit < 32 then
      if lit < 24 then
        let uwnbits := uwnbits - 2
        (UInt8.ofNat (lit <<< 2 ||| d.uwbits >>> uwnbits &&& 3) - 64, uwnbits)
      else
        let uwnbits := uwnbits - 3
        (UInt8.ofNat (lit <<< 3 ||| d.uwbits >>> uwnbits &&& 7) - 64, uwnbits)
    else (UInt8.ofNat lit, uwnbits)

/-- The loop for large lengths. Nothing is returned when there are no more bits. -/
def lenloop (uwbits : ℕ) : (uwnbits len code use bits : ℕ) → Option (ℕ × ℕ)
  | 0, len, code, use, _ => if use ≤ code then none else some (len + code, 0)
  | uwnbits + 1, len, code, use, bits =>
    if use ≤ code then
      lenloop uwbits uwnbits (len + use) ((code - use) <<< 1 ||| uwbits >>> uwnbits &&& 1) (use <<< bits) (bits ^^^ 1)
    else some (len + code, uwnbits + 1)

/-- The length of a match. -/
def getlen (d : Dec) (len : ℕ) : Option (Except Err (ℕ × Dec)) :=
  if len < 255 then some (.ok (len, { d with uwnbits := d.uwnbits - lenbits.getD len 0 }))
  else
    let uwnbits := d.uwnbits - DBigLenBits
    let code := (d.uwbits >>> uwnbits &&& ((1 <<< DBigLenBits) - 1)) - DBigLenCode
    match lenloop d.uwbits uwnbits DMaxFastLen code DBigLenBase ((DBigLenBits &&& 1) ^^^ 1) with
    | none => some (.error .len)
    | some (len, uwnbits) => (refill src { d with uwnbits := uwnbits }).map fun d => .ok (len, d)

/-- The offset of a match. -/
def getoff (d : Dec) : ℕ × Dec :=
  let uwnbits := d.uwnbits - 4
  let bits := d.uwbits >>> uwnbits &&& 0xf
  let off := offbase.getD bits 0
  let bits := offbits.getD bits 0
  let uwnbits := uwnbits - bits
  ((off ||| (d.uwbits >>> uwnbits &&& ((1 <<< bits) - 1))) + 1, { d with uwnbits := uwnbits })

/-- A match with a length. -/
def getmatch (len : ℕ) (d : Dec) : Option (Except Err Dec) :=
  let r := getoff d
  let off := r.1
  let d := r.2
  if off > d.out.length then some (.error (.off off d.out.length len d.uwnbits))
  else if d.out.length + len > ndst then some (.error .len)
  else (copy ndst off len d.out).map fun out => .ok { d with out := out }

/-- One turn of the loop, after the bits have been filled up. -/
def decode (d : Dec) : Option (Except Err Dec) :=
  let len := lenval.getD (d.uwbits >>> (d.uwnbits - 5) &&& 0x1f) 0
  if len = 0 then
    let r := getlit d
    if ndst ≤ d.out.length then some (.error .output)
    else (emit ndst d.out r.1).map fun out => .ok { d with uwnbits := r.2, out := out, lithist := remember d.lithist r.1 }
  else
    (getlen src d len).bind fun r =>
      match r with
      | .error e => some (.error e)
      | .ok (len, d) => getmatch ndst len d

/-- Nothing is returned when the fuel does not last. -/
def unwhackloop : (fuel : ℕ) → Dec → Option (Except Err (List UInt8))
  | 0, _ => none
  | fuel + 1, d =>
    if d.src < src.length ∨ d.uwnbits ≥ d.overbits + MinDecode then
      ((refill src d).bind (decode src ndst)).bind fun r =>
        match r with
        | .error e => some (.error e)
        | .ok d => unwhackloop fuel d
    else if d.uwnbits < d.overbits then some (.error .overrun)
    else some (.ok d.out)

/-- The bytes written, or an error for -1. -/
def unwhack : Option (Except Err (List UInt8)) := unwhackloop src ndst (src.length + 1) ⟨0, 0, 0, 0, 2 ^ 32 - 1, []⟩

end Decoder

end Petele.Venti
