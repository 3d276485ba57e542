import Petele.Libc.Rune

/-! Regular expressions: programs, and the compiler from strings. -/

namespace Petele.Regexp

open Libc

/-- `nelem(sp->m)` -/
def NSUBEXP : ℕ := 32

/-- The stacks of the parser. -/
def NSTACK : ℕ := 20

/-- `nelem(reprog->class)` -/
def NCLASS : ℕ := 16

/-- `nelem(classp->spans)` -/
def NCCRUNE : ℕ := 64

/-- The type of an instruction, with what the union beside it holds. -/
inductive Inst
  | RUNE (r : ℕ)
  | LBRA (subid : ℕ)
  | RBRA (subid : ℕ)
  /-- The left choice is the next instruction. -/
  | OR (right : ℕ)
  | ANY
  | ANYNL
  | NOP
  | BOL
  | EOL
  | CCLASS (cp : List (ℕ × ℕ))
  | NCCLASS (cp : List (ℕ × ℕ))
  | END
deriving DecidableEq

/-- A pointer to an instruction is its place in the program. -/
structure Reinst where
  type : Inst
  /-- `left` and `next` -/
  next : Option ℕ
deriving DecidableEq

structure Reprog where
  startinst : ℕ
  firstinst : List Reinst
deriving DecidableEq

inductive Operator
  /-- `START-1` -/
  | prime
  | START
  | RBRA
  | LBRA
  | OR
  | CAT
  | STAR
  | PLUS
  | QUEST
deriving DecidableEq

/-- value == precedence -/
def Operator.value : Operator → ℕ
  | .prime => 0o177
  | .START => 0o200
  | .RBRA => 0o201
  | .LBRA => 0o202
  | .OR => 0o203
  | .CAT => 0o204
  | .STAR => 0o205
  | .PLUS => 0o206
  | .QUEST => 0o207

structure Node where
  first : ℕ
  last : ℕ

/-- The stacks have their top in front. -/
structure Parser where
  /-- The instructions before `freep`. -/
  insts : List Reinst
  andstack : List Node
  /-- `atorstack` and `subidstack` -/
  atorstack : List (Operator × ℕ)
  cursubid : ℕ
  nbra : ℕ
  lastwasand : Bool

section Stacks

/-- The parser ends with `longjmp`, after it has handed the text to `regerror`. -/
def rcerror {α : Type} (s : String) : Except String α := .error s

def cant {α : Type} (s : String) : Except String α := rcerror ("can't happen: " ++ s)

def newinst (p : Parser) (t : Inst) (next : Option ℕ) : ℕ × Parser :=
  (p.insts.length, { p with insts := p.insts ++ [⟨t, next⟩] })

/-- `last->next = i` -/
def Parser.link (p : Parser) (last i : ℕ) : Parser :=
  { p with insts := p.insts.modify last fun inst => { inst with next := some i } }

def pushand (p : Parser) (f l : ℕ) : Except String Parser :=
  if NSTACK ≤ p.andstack.length then cant "operand stack overflow"
  else .ok { p with andstack := ⟨f, l⟩ :: p.andstack }

def pushator (p : Parser) (t : Operator) : Except String Parser :=
  if NSTACK ≤ p.atorstack.length then cant "operator stack overflow"
  else .ok { p with atorstack := (t, p.cursubid) :: p.atorstack }

def popand (p : Parser) (op : String) : Except String (Node × Parser) :=
  match p.andstack with
  | [] => rcerror ("missing operand for " ++ op)
  | n :: rest => .ok (n, { p with andstack := rest })

end Stacks

section Operators

/-- One turn of `evaluntil` for an operator that is not a bracket. -/
def evaluate (p : Parser) : Operator → Except String Parser
  | .OR => do
    let (op2, p) ← popand p "|"
    let (op1, p) ← popand p "|"
    let (inst2, p) := newinst p .NOP none
    let p := (p.link op2.last inst2).link op1.last inst2
    let (inst1, p) := newinst p (.OR op1.first) (some op2.first)
    pushand p inst1 inst2
  | .CAT => do
    let (op2, p) ← popand p ""
    let (op1, p) ← popand p ""
    pushand (p.link op1.last op2.first) op1.first op2.last
  | .STAR => do
    let (op2, p) ← popand p "*"
    let (inst1, p) := newinst p (.OR op2.first) none
    pushand (p.link op2.last inst1) inst1 inst1
  | .PLUS => do
    let (op2, p) ← popand p "+"
    let (inst1, p) := newinst p (.OR op2.first) none
    pushand (p.link op2.last inst1) op2.first inst1
  | .QUEST => do
    let (op2, p) ← popand p "?"
    let (inst1, p) := newinst p (.OR op2.first) none
    let (inst2, p) := newinst p .NOP none
    pushand ((p.link inst1 inst2).link op2.last inst2) inst1 inst2
  | _ => rcerror "unknown operator in evaluntil"

/-- The left bracket that is on the stack gets its operand. -/
def bracket (p : Parser) (subid : ℕ) : Except String Parser := do
  let (op1, p) ← popand p "("
  let (inst2, p) := newinst p (.RBRA subid) none
  let p := p.link op1.last inst2
  let (inst1, p) := newinst p (.LBRA subid) (some op1.first)
  pushand p inst1 inst2

/-- The loop of `evaluntil`, on what the operator stack holds. -/
def evalloop (pri : Operator) : List (Operator × ℕ) → Parser → Except String Parser
  | [], _ => cant "operator stack underflow"
  | (op, subid) :: rest, p =>
    if pri = .RBRA ∨ pri.value ≤ op.value then
      let p := { p with atorstack := rest }
      if op = .LBRA then bracket p subid
      else do
        let p ← evaluate p op
        evalloop pri rest p
    else .ok p

def evaluntil (pri : Operator) (p : Parser) : Except String Parser := evalloop pri p.atorstack p

/-- Catenate is implicit. -/
def catenate (p : Parser) : Except String Parser :=
  if p.lastwasand then do
    let p ← evaluntil .CAT p
    let p ← pushator p .CAT
    .ok { p with lastwasand := false }
  else .ok p

def operator (t : Operator) (p : Parser) : Except String Parser := do
  let p ← if t = .RBRA then
      if p.nbra = 0 then rcerror "unmatched right paren" else .ok { p with nbra := p.nbra - 1 }
    else .ok p
  let p ← if t = .LBRA then
      if NSUBEXP ≤ p.cursubid + 1 then rcerror "too many subexpressions"
      else catenate { p with cursubid := p.cursubid + 1, nbra := p.nbra + 1 }
    else evaluntil t p
  let p ← if t = .RBRA then .ok p else pushator p t
  -- these look like operands
  .ok { p with lastwasand := t = .STAR || t = .QUEST || t = .PLUS || t = .RBRA }

def operand (t : Inst) (p : Parser) : Except String Parser := do
  let p ← catenate p
  let (i, p) := newinst p t none
  let p ← pushand p i i
  .ok { p with lastwasand := true }

end Operators

section Lexer

structure Lexer where
  /-- What is left of the expression, with its terminator. -/
  exprp : List UInt8
  lexdone : Bool
  nclass : ℕ

/-- The next rune, and whether it was quoted. -/
def nextc (l : Lexer) : ℕ × Bool × Lexer :=
  if l.lexdone then (0, true, l)
  else
    let (r, n) := (chartorune l.exprp).getD (0, 0)
    let l := { l with exprp := l.exprp.drop n }
    if r = '\\'.toNat then
      let (r, n) := (chartorune l.exprp).getD (0, 0)
      (r, true, { l with exprp := l.exprp.drop n })
    else (r, false, { l with lexdone := r = 0 })

/-- The loop of `bldcclass`: `ep` are the spans so far, and `rune` has been read. -/
def spanloop : ℕ → (ep : List (ℕ × ℕ)) → (rune : ℕ) → (quoted : Bool) → Lexer → Except String (List (ℕ × ℕ) × Lexer)
  | 0, _, _, _, _ => rcerror "malformed '[]'"
  | fuel + 1, ep, rune, quoted, l =>
    if NCCRUNE - 1 ≤ 2 * ep.length then rcerror "char class too large; increase Reclass.spans size"
    else if rune = 0 then rcerror "malformed '[]'"
    else if quoted = false ∧ rune = ']'.toNat then .ok (ep, l)
    else if quoted = false ∧ rune = '-'.toNat then
      match ep.getLast? with
      | none => rcerror "malformed '[]'"
      | some span =>
        let (rune, quoted, l) := nextc l
        if quoted = false ∧ rune = ']'.toNat ∨ rune = 0 then rcerror "malformed '[]'"
        else
          let (next, quoted, l) := nextc l
          spanloop fuel (ep.dropLast ++ [(span.1, rune)]) next quoted l
    else
      let (next, quoted, l) := nextc l
      spanloop fuel (ep ++ [(rune, rune)]) next quoted l

/-- One turn of the sort: `p` changes places with each span that starts before it. -/
def sortpass (p : ℕ × ℕ) : List (ℕ × ℕ) → (ℕ × ℕ) × List (ℕ × ℕ)
  | [] => (p, [])
  | np :: rest =>
    if np.1 < p.1 then
      let (q, rest) := sortpass np rest
      (q, p :: rest)
    else
      let (q, rest) := sortpass p rest
      (q, np :: rest)

/-- sort on span start -/
def sortspans : ℕ → List (ℕ × ℕ) → List (ℕ × ℕ)
  | 0, r => r
  | _ + 1, [] => []
  | n + 1, p :: rest =>
    let (q, rest) := sortpass p rest
    q :: sortspans n rest

/-- merge spans: `np` is the last one so far -/
def mergespans (np : ℕ × ℕ) : List (ℕ × ℕ) → List (ℕ × ℕ)
  | [] => [np]
  | p :: rest =>
    if p.1 ≤ np.2 + 1 then mergespans (if np.2 ≤ p.2 then (np.1, p.2) else np) rest
    else np :: mergespans p rest

def bldcclass (l : Lexer) : Except String (Inst × Lexer) :=
  if NCLASS ≤ l.nclass then rcerror "too many character classes; increase Reprog.class size"
  else do
    let (rune, quoted, l) := nextc { l with nclass := l.nclass + 1 }
    -- negated classes don't match \n
    let negated := quoted = false ∧ rune = '^'.toNat
    let (ep, rune, quoted, l) := if negated then ([('\n'.toNat, '\n'.toNat)], nextc l) else ([], rune, quoted, l)
    let (r, l) ← spanloop (l.exprp.length + 2) ep rune quoted l
    let spans := match sortspans r.length r with
      | [] => []
      | p :: rest => mergespans p rest
    .ok (if negated then .NCCLASS spans else .CCLASS spans, l)

inductive Token
  | operator (t : Operator)
  | operand (t : Inst)
  | END

def lex (literal : Bool) (dot_type : Inst) (l : Lexer) : Except String (Token × Lexer) :=
  let (yyrune, quoted, l) := nextc l
  if literal ∨ quoted then .ok (if yyrune = 0 then .END else .operand (.RUNE yyrune), l)
  else if yyrune = 0 then .ok (.END, l)
  else if yyrune = '*'.toNat then .ok (.operator .STAR, l)
  else if yyrune = '?'.toNat then .ok (.operator .QUEST, l)
  else if yyrune = '+'.toNat then .ok (.operator .PLUS, l)
  else if yyrune = '|'.toNat then .ok (.operator .OR, l)
  else if yyrune = '.'.toNat then .ok (.operand dot_type, l)
  else if yyrune = '('.toNat then .ok (.operator .LBRA, l)
  else if yyrune = ')'.toNat then .ok (.operator .RBRA, l)
  else if yyrune = '^'.toNat then .ok (.operand .BOL, l)
  else if yyrune = '$'.toNat then .ok (.operand .EOL, l)
  else if yyrune = '['.toNat then do
    let (t, l) ← bldcclass l
    .ok (.operand t, l)
  else .ok (.operand (.RUNE yyrune), l)

end Lexer

section Compiler

/-- The instruction at the end of a chain of no operations. -/
def target (insts : List Reinst) : ℕ → ℕ → ℕ
  | 0, i => i
  | fuel + 1, i =>
    match insts[i]? with
    | some ⟨.NOP, some j⟩ => target insts fuel j
    | _ => i

/-- get rid of NOOP chains -/
def optimize (insts : List Reinst) : List Reinst :=
  insts.map fun inst => { inst with next := inst.next.map (target insts insts.length) }

/-- The loop of `regcomp1` over the tokens. -/
def parse (literal : Bool) (dot_type : Inst) : ℕ → Lexer → Parser → Except String Parser
  | 0, _, p => .ok p
  | fuel + 1, l, p => do
    let (token, l) ← lex literal dot_type l
    match token with
    | .END => .ok p
    | .operator t =>
      let p ← operator t p
      parse literal dot_type fuel l p
    | .operand t =>
      let p ← operand t p
      parse literal dot_type fuel l p

def regcomp1 (s : List UInt8) (literal : Bool) (dot_type : Inst) : Except String Reprog := do
  let p : Parser := ⟨[], [], [], 0, 0, false⟩
  let p ← pushator p .prime
  let p ← parse literal dot_type (s.length + 1) ⟨s ++ [0], false, 0⟩ p
  let p ← evaluntil .START p
  let p ← operand .END p
  let p ← evaluntil .START p
  if p.nbra ≠ 0 then rcerror "unmatched left paren"
  else
    let (n, p) ← popand p ""
    .ok ⟨n.first, optimize p.insts⟩

def regcomp (s : List UInt8) : Except String Reprog := regcomp1 s false .ANY

def regcomplit (s : List UInt8) : Except String Reprog := regcomp1 s true .ANY

def regcompnl (s : List UInt8) : Except String Reprog := regcomp1 s false .ANYNL

end Compiler

end Petele.Regexp
