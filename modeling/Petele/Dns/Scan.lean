import Petele.Ip.Text

namespace Petele.Dns

open Ip (eipfmt)

def Domlen : ℕ := 256

def Labellen : ℕ := 64

def Strlen : ℕ := 256

def Maxpayload : ℕ := 4096

def Cin : ℕ := 1

def Csym : ℕ := 0

/-- What `sp->err` points to, without the record that a formatted error ends with. -/
inductive Err
  | text (s : String)
  | negative (actual : ℤ)
  | toolong (remain need : ℤ) (place : String)
  deriving DecidableEq

/-- The memory that a message lies in, from `base` on, and `ep - base`. -/
structure Msg where
  mem : ℕ → UInt8
  ep : ℕ

/-- `Scan`, with `p` from `base` on. Kept besides: whether every byte looked at so far is one of the message, where
`gname` has looked for a name, and where the strings of a record begin and end. -/
structure Scan where
  p : ℕ
  err : Option Err
  rcode : ℕ
  stop : Bool
  trunc : Bool
  inside : Bool
  names : List ℕ
  txts : List (ℕ × ℕ)

/-- A domain name or symbol. -/
structure DN where
  name : List UInt8
  class_ : ℕ
  deriving DecidableEq

/-- The string that a buffer holds. -/
def cstr (s : List UInt8) : List UInt8 := s.takeWhile (· ≠ 0)

def dnlookup (name : List UInt8) (class_ : ℕ) : DN := ⟨cstr name, class_⟩

section Getters

variable (m : Msg)

def slice (p n : ℕ) : List UInt8 := (List.range n).map fun i => m.mem (p + i)

/-- The `n` bytes from `p` on are looked at. -/
def look (s : Scan) (p n : ℕ) : Scan := { s with inside := s.inside && (n == 0 || decide (p + n ≤ m.ep)) }

def errneg (s : Scan) (actual : ℤ) : Scan := { s with err := some (.negative actual) }

/-- A full-sized packet is taken for a truncated one. -/
def errtoolong (s : Scan) (remain need : ℤ) (place : String) : Scan :=
  { s with err := some (.toolong remain need place), trunc := s.trunc || decide (Maxpayload ≤ m.ep) }

/-- A number of `n` bytes. -/
def gnum (n : ℕ) (place : String) (s : Scan) : ℕ × Scan :=
  if s.err.isSome then (0, s)
  else if m.ep < s.p + n then (0, errtoolong m s (m.ep - s.p) n place)
  else ((slice m s.p n).foldl (fun x b => x * 2 ^ 8 + b.toNat) 0, { look m s s.p n with p := s.p + n })

def gchar : Scan → ℕ × Scan := gnum m 1 "gchar"

def gshort : Scan → ℕ × Scan := gnum m 2 "gshort"

def glong : Scan → ℕ × Scan := gnum m 4 "glong"

/-- An address of `n` bytes, in the text that `verb` gives it. -/
def gaddr (n : ℕ) (verb : List UInt8 → List Char) (place : String) (s : Scan) : Option DN × Scan :=
  if s.err.isSome then (none, s)
  else if m.ep < s.p + n then (none, errtoolong m s (m.ep - s.p) n place)
  else
    (some (dnlookup ((verb (slice m s.p n)).map fun c => UInt8.ofNat c.toNat) Cin),
      { look m s s.p n with p := s.p + n })

def gv4addr : Scan → Option DN × Scan := gaddr m 4 (fun p => eipfmt 32 (.V p)) "gv4addr"

def gv6addr : Scan → Option DN × Scan := gaddr m 16 (fun p => eipfmt 64 (.I p)) "gv6addr"

/-- A string behind its length, where `short` is the error for one with a zero byte in it. -/
def gcounted (place illegal short : String) (s : Scan) : Option (List UInt8) × Scan :=
  if s.err.isSome then (none, s)
  else
    let n := if s.p < m.ep then (m.mem s.p).toNat else 0
    let s := if s.p < m.ep then { look m s s.p 1 with p := s.p + 1 } else s
    if m.ep < s.p + n then (none, errtoolong m s (m.ep - s.p) n place)
    else if n > Strlen then (none, { s with err := some (.text illegal) })
    else
      let sym := slice m s.p n
      let s := look m s s.p n
      let s := if (cstr sym).length ≠ n then { s with err := some (.text short) } else s
      (some (cstr sym), { s with p := s.p + n })

def gsym (s : Scan) : Option DN × Scan :=
  let (t, s) := gcounted m "gsym" "illegal string (symbol)" "symbol shorter than declared length" s
  (t.map fun t => dnlookup t Csym, s)

def gstr : Scan → Option (List UInt8) × Scan :=
  gcounted m "gstr" "illegal string" "string shorter than declared length"

def gbytes (n : ℤ) (s : Scan) : Option (List UInt8) × Scan :=
  if s.err.isSome then (none, s)
  else if n < 0 then (none, errneg s n)
  else if m.ep < s.p + n then (none, errtoolong m s (m.ep - s.p) n "gbytes")
  else (some (slice m s.p n.toNat), { look m s s.p n.toNat with p := s.p + n.toNat })

/-- Where a name is given up. -/
inductive Fail
  | stop
  | err (s : String)
  | toolong (remain need : ℤ) (place : String)

/-- The loop of `gname` is left: what it has written at `to`, `len` and `pointer`, and whether all it has looked at is in
the message. -/
structure Name where
  dst : List UInt8
  len : ℕ
  pointer : ℕ
  fail : Option Fail
  inside : Bool

def Name.after (r : Name) (inside : Bool) : Name := { r with inside := inside && r.inside }

def gnameloop (dst : List UInt8) (p len pointer : ℕ) : Name :=
  let here : Bool := p < m.ep
  if m.mem p ≠ 0 ∧ p < m.ep then
    let c := (m.mem p).toNat
    if c / 2 ^ 6 = 0 then
      let short : Bool := len + c < Domlen - 1
      if short ∧ (c : ℤ) > Domlen - dst.length then
        ⟨dst, len, pointer, some (.toolong (Domlen - dst.length) c "name too long"), here⟩
      else
        let dst := if short then dst ++ slice m (p + 1) c else dst
        let q := p + 1 + c
        let here := here && (!short || decide (q ≤ m.ep)) && decide (q < m.ep)
        let len' := if pointer = 0 then len + (c + 1) else len
        if m.mem q ≠ 0 then
          if dst.length ≥ Domlen then
            ⟨dst, len, pointer, some (.toolong (Domlen - dst.length) 2 "more name components but no bytes left"), here⟩
          else (gnameloop (dst ++ [46]) q len' pointer).after here
        else (gnameloop dst q len' pointer).after here
    else if c / 2 ^ 6 = 1 then ⟨dst, len, pointer, some .stop, here⟩
    else if c / 2 ^ 6 = 2 then ⟨dst, len, pointer, some (.err "reserved-use label present"), here⟩
    else if pointer > 10 then ⟨dst, len, pointer, some (.err "pointer loop"), here⟩
    else
      let off := c % 2 ^ 6 * 2 ^ 8 + (m.mem (p + 1)).toNat
      let here := here && decide (p + 1 < m.ep)
      if off ≥ m.ep then ⟨dst, len, pointer, some (.err "bad pointer"), here⟩
      else (gnameloop dst off len (pointer + 1)).after here
  else ⟨dst, len, pointer, none, here⟩
termination_by (11 - pointer, m.ep - p)

/-- The string left at `to`, which is empty after an error. -/
def gname (s : Scan) : List UInt8 × Scan :=
  if s.err.isSome || s.stop then ([], s)
  else
    let r := gnameloop m [] s.p 0 0
    let s := { s with inside := s.inside && r.inside, names := s.p :: s.names }
    match r.fail with
    | none => (r.dst, { s with p := s.p + r.len + if r.pointer > 0 then 2 else 1 })
    | some .stop => ([], { s with stop := true })
    | some (.err e) => ([], { s with err := some (.text e) })
    | some (.toolong remain need place) => ([], errtoolong m s remain need place)

end Getters

end Petele.Dns
