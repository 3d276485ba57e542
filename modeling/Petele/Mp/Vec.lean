import Petele.Lib.Limbs
import Mathlib.Tactic.Linarith

namespace Petele.Mp

open Lib Limbs

/-- Digits in memory, the least significant first; an `mpdigit` has 32 bits. -/
abbrev Vec := List UInt32

/-- The value of a comparison in C. -/
def truth (p : Prop) [Decidable p] : UInt32 := if p then 1 else 0

/-- The loops of `mpvecadd`. -/
def addloop : Vec → Vec → UInt32 → Vec
  | [], _, carry => [carry]
  | x :: a, [], carry =>
    let x := x + carry
    x :: addloop a [] (truth (x < carry))
  | x :: a, y :: b, carry =>
    let x := x + carry
    let carry := truth (x < carry)
    let x := x + y
    x :: addloop a b (carry + truth (x < y))

/-- The sum, with a digit for the carry. `a` may not be the shorter one. -/
def mpvecadd (a b : Vec) : Option Vec :=
  if b.length ≤ a.length then some (addloop a b 0) else none

/-- The loops of `mpvecsub`. -/
def subloop : Vec → Vec → UInt32 → Vec
  | [], _, _ => []
  | x :: a, [], borrow =>
    let y := x - borrow
    y :: subloop a [] (truth (x < y))
  | x :: a, y :: b, borrow =>
    let y := y + borrow
    let borrow := truth (y < borrow)
    (x - y) :: subloop a b (borrow + truth (x < y))

/-- The difference, in as many digits as `a` has. `a` may not be the shorter one. -/
def mpvecsub (a b : Vec) : Option Vec :=
  if b.length ≤ a.length then some (subloop a b 0) else none

/-- The last loop of `mpveccmp`, from the top digits down. -/
def cmploop : Vec → Vec → ℤ
  | x :: a, y :: b => if x - y = 0 then cmploop a b else if x < x - y then -1 else 1
  | _, _ => 0

def mpveccmp (a b : Vec) : ℤ :=
  if (a.drop b.length).any (· != 0) then 1
  else if (b.drop a.length).any (· != 0) then -1
  else cmploop (a.take b.length).reverse (b.take a.length).reverse

def LO (x : UInt32) : UInt32 := x &&& 0xffff

def HI (x : UInt32) : UInt32 := x >>> 16

/-- The product of two digits, low digit first. -/
def mpdigmul (a b : UInt32) : UInt32 × UInt32 :=
  let p1 := HI a * LO b
  let p2 := HI b * LO a
  let p3 := LO b * LO a
  let p4 := HI a * HI b
  let x := p1 <<< 16
  let p3 := p3 + x
  let carry := truth (p3 < x)
  let x := p2 <<< 16
  let p3 := p3 + x
  let carry := carry + truth (p3 < x)
  (p3, p4 + (carry + HI p1 + HI p2))

/-- The loop of `mpvecdigmuladd` over the digits of `b` and of `p`; `part` is `part[1]`. -/
def muladdloop (m : UInt32) : Vec → Vec → UInt32 → UInt32 → Vec
  | b :: bs, y :: p, part, carry =>
    let x := part + carry
    let carry := truth (x < carry)
    let part := mpdigmul b m
    let x := x + part.1
    let carry := carry + truth (x < part.1)
    let x := x + y
    x :: muladdloop m bs p part.2 (carry + truth (x < y))
  | _, _, part, carry => [part + carry]

/-- `p += b*m`: the digits stored from `p` on, one more than `b` has. -/
def mpvecdigmuladd (b : Vec) (m : UInt32) (p : Vec) (off : ℕ) : Option Vec := do
  let y ← slice p off b.length
  store p off (muladdloop m b y 0 0)

/-- The loop of `mpvecdigmulsub`; it goes on to the digit of `p` behind those of `b`. -/
def mulsubloop (m : UInt32) : Vec → Vec → UInt32 → UInt32 → Vec × ℤ
  | b :: bs, x :: p, part, borrow =>
    let y := x - borrow
    let borrow := truth (x < y)
    let next := mpdigmul b m
    let z := part + next.1
    let borrow := borrow + truth (z < next.1)
    let r := y - z
    let borrow := borrow + truth (y < r)
    let rest := mulsubloop m bs p next.2 borrow
    (r :: rest.1, rest.2)
  | [], x :: _, part, borrow =>
    let y := x - borrow - part
    ([y], if x < y then -1 else 1)
  | _, [], _, _ => ([], 1)

/-- `p -= b*m`: the digits that take the place of those of `p`, and the sign. -/
def mpvecdigmulsub (b : Vec) (m : UInt32) (p : Vec) : Option (Vec × ℤ) :=
  if p.length = b.length + 1 then some (mulsubloop m b p 0 0) else none

end Petele.Mp
