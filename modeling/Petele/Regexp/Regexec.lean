import Petele.Regexp.Regcomp

/-! The matchers for strings of bytes and of runes: lists of threads, one for each character. -/

namespace Petele.Regexp

open Libc

def LISTSIZE : ℕ := 10

def BIGLISTSIZE : ℕ := 25 * LISTSIZE

def Runeself : ℕ := 0x80

section Texts

/-- A string as a matcher reads it. Pointers are addresses, and 0 is nil. -/
structure Text where
  bol : ℕ
  /-- Where the terminator is. -/
  stop : ℕ
  /-- The rune at an address, and how far it is to the next one. -/
  rune : ℕ → ℕ × ℕ
  /-- `*(s-1) == '\n'` -/
  nlbefore : ℕ → Bool
  /-- `utfrune` or `runestrchr` -/
  find : ℕ → ℕ → Option ℕ

/-- A string at an address. -/
structure Chars where
  bol : ℕ
  bytes : List UInt8
  pos : 0 < bol
  nul : 0 ∉ bytes

/-- The bytes from an address on. -/
def Chars.at (t : Chars) (s : ℕ) : List UInt8 := (t.bytes ++ [0]).drop (s - t.bol)

/-- What `regexec1` reads. The rune that it looks for is below `Runesync`, so that `utfrune` is `strchr`. -/
def Chars.text (t : Chars) : Text where
  bol := t.bol
  stop := t.bol + t.bytes.length
  rune s :=
    let r := ((t.at s).headD 0).toNat
    if r < Runeself then (r, 1) else (chartorune (t.at s)).getD (0, 1)
  nlbefore s := t.bytes[s - 1 - t.bol]? = some 10
  find s c :=
    if c = 0 then some (t.bol + t.bytes.length)
    else ((t.bytes.drop (s - t.bol)).findIdx? fun b => b.toNat = c).map (s + ·)

/-- A string of runes at an address, which counts runes. -/
structure Runes where
  bol : ℕ
  runes : List ℕ
  pos : 0 < bol
  nul : 0 ∉ runes

/-- What `rregexec1` reads. -/
def Runes.text (t : Runes) : Text where
  bol := t.bol
  stop := t.bol + t.runes.length
  rune s := (t.runes.getD (s - t.bol) 0, 1)
  nlbefore s := t.runes[s - 1 - t.bol]? = some 10
  find s c :=
    if c = 0 then some (t.bol + t.runes.length)
    else ((t.runes.drop (s - t.bol)).findIdx? fun r => r = c).map (s + ·)

end Texts

section Lists

structure Resub where
  sp : ℕ
  ep : ℕ
deriving DecidableEq

def Resub.nil : Resub := ⟨0, 0⟩

/-- `m[0]` -/
def first (se : List Resub) : Resub := se.headD .nil

/-- A thread. Its array of matches has `NSUBEXP` elements, of which only the first counts when `ms` is at most 1. -/
structure Relist where
  inst : ℕ
  se : List Resub
deriving DecidableEq

/-- save a new match in mp -/
def renewmatch (mp : Option (List Resub)) (ms : ℕ) (se : List Resub) : Option (List Resub) :=
  mp.map fun mp =>
    if 0 < ms ∧ ((first mp).sp = 0 ∨ (first se).sp < (first mp).sp ∨
        (first se).sp = (first mp).sp ∧ (first mp).ep < (first se).ep) then
      (List.range ms).map fun i => if i < NSUBEXP then se.getD i .nil else .nil
    else mp

/-- `p->se = *sep` or `p->se.m[0] = sep->m[0]` -/
def copy (ms : ℕ) (old sep : List Resub) : List Resub := if 1 < ms then sep else old.set 0 (first sep)

def zeros : List Resub := List.replicate NSUBEXP .nil

/-- The loop of `_renewthread` and its like: the thread for the instruction gets the matches `old`, or is added with
the matches `new`. -/
def renew (ip : ℕ) (old : List Resub → List Resub) (new : List Resub) : List Relist → List Relist × Bool
  | [] => ([⟨ip, new⟩], true)
  | p :: l =>
    if p.inst = ip then ({ p with se := old p.se } :: l, false)
    else
      let (l, added) := renew ip old new l
      (p :: l, added)

/-- The list with the thread, and whether it was added. -/
def renewthread (ms ip : ℕ) (sep : List Resub) : List Relist → List Relist × Bool :=
  renew ip (fun se => if (first sep).sp < (first se).sp then copy ms se sep else se) (copy ms zeros sep)

/-- `memset(&p->se, 0, sizeof(p->se))` where there are more matches than one, and `p->se.m[0].sp = sp` -/
def restart (ms : ℕ) (se : List Resub) (sp : ℕ) : List Resub :=
  (if 1 < ms then zeros else se).modify 0 fun m => { m with sp := sp }

/-- `_renewemptythread` and `_rrenewemptythread` -/
def renewemptythread (ms ip sp : ℕ) : List Relist → List Relist × Bool :=
  renew ip (fun se => if sp < (first se).sp then restart ms se sp else se) (restart ms zeros sp)

end Lists

inductive Starttype
  | none
  | RUNE
  | BOL
deriving DecidableEq

/-- What `regexec1` and `rregexec1` get, and in what they differ. -/
structure Machine where
  progp : Reprog
  text : Text
  ms : ℕ
  starts : ℕ
  eol : ℕ
  starttype : Starttype
  startchar : ℕ
  /-- What `checkstart` is while the list is empty. -/
  check : Bool
  /-- The first instruction is added after a match, too. -/
  always : Bool
  /-- The length of each list's array. Its end is two entries before. -/
  size : ℕ

/-- Why the threads of a character are not all executed. -/
inductive Stop
  /-- The next list has come to its end. -/
  | nlfull (mp : Option (List Resub))
  /-- This list has. -/
  | tlfull (mp : Option (List Resub))
  /-- Something is stored behind an array. -/
  | overrun
  /-- There is no instruction, or no end of them. -/
  | wild
deriving DecidableEq

/-- This list from the thread on that is executed, and the next list. -/
structure Lists where
  cur : List Relist
  nl : List Relist
  found : Bool
  mp : Option (List Resub)
deriving DecidableEq

inductive Out
  | ret (rv : ℤ) (mp : Option (List Resub))
  | overrun
  | wild
deriving DecidableEq

structure State where
  s : ℕ
  found : Bool
  tl : List Relist
  mp : Option (List Resub)
  checkstart : Bool

/-- The thread that is executed gets other matches. -/
def Lists.modify (c : Lists) (i : ℕ) (f : Resub → Resub) : Lists :=
  { c with cur := c.cur.modify 0 fun t => { t with se := t.se.modify i f } }

/-- The instruction is for such a character. -/
def takes (r : ℕ) : Inst → Bool
  | .RUNE c => c = r
  | .ANY => r ≠ '\n'.toNat
  | .ANYNL => true
  | .CCLASS cp => cp.any fun rp => rp.1 ≤ r && r ≤ rp.2
  | .NCCLASS cp => !cp.any fun rp => rp.1 ≤ r && r ≤ rp.2
  | _ => false

namespace Machine

variable (m : Machine) (s r : ℕ)

/-- `_renewthread(nl, inst->next, ms, &tlp->se)==nle`. A thread without an instruction is stored as a terminator. -/
def addnext (next : Option ℕ) (c : Lists) : Except Stop Lists :=
  match c.cur with
  | t :: _ =>
    let (nl, added) := match next with
      | some ip => renewthread m.ms ip t.se c.nl
      | none => (c.nl, true)
    if added ∧ m.size ≤ c.nl.length + 1 then .error .overrun
    else if added ∧ c.nl.length + 3 = m.size then .error (.nlfull c.mp)
    else .ok { c with nl := nl }
  | [] => .error .wild

/-- `_renewthread(tlp, inst->right, ms, &tlp->se) == tle`, where the array has `left` entries from the thread on -/
def addright (left right : ℕ) (c : Lists) : Except Stop Lists :=
  match c.cur with
  | t :: _ =>
    let (cur, added) := renewthread m.ms right t.se c.cur
    if added ∧ left ≤ cur.length then .error .overrun
    else if added ∧ cur.length + 2 = left then .error (.tlfull c.mp)
    else .ok { c with cur := cur }
  | [] => .error .wild

/-- Match! -/
def accept (c : Lists) : Lists :=
  let c := c.modify 0 fun sub => { sub with ep := s }
  { c with found := true, mp := renewmatch c.mp m.ms ((c.cur.head?.map Relist.se).getD []) }

/-- One instruction, and whether the thread goes on with the next one. -/
def visit (left : ℕ) (inst : Reinst) (c : Lists) : Except Stop (Bool × Lists) :=
  match inst.type with
  | .LBRA subid => .ok (true, c.modify subid fun sub => { sub with sp := s })
  | .RBRA subid => .ok (true, c.modify subid fun sub => { sub with ep := s })
  | .BOL => .ok (s = m.text.bol ∨ m.text.nlbefore s, c)
  | .EOL => .ok (s = m.eol ∨ r = 0 ∨ r = '\n'.toNat, c)
  | .OR right => (m.addright left right c).map fun c => (true, c)
  | .END => .ok (false, m.accept s c)
  | t => if takes r t then (m.addnext inst.next c).map fun c => (false, c) else .ok (false, c)

/-- A thread, from an instruction on. After as many turns as there are instructions it would go on forever. -/
def chain (left : ℕ) : ℕ → ℕ → Lists → Except Stop Lists
  | 0, _, _ => .error .wild
  | fuel + 1, i, c =>
    match m.progp.firstinst[i]? with
    | none => .error .wild
    | some inst =>
      match m.visit s r left inst c with
      | .error e => .error e
      | .ok (false, c) => .ok c
      | .ok (true, c) =>
        match inst.next with
        | none => .error .wild
        | some j => chain left fuel j c

/-- Execute machine until current list is empty, which has `left` entries to the end of its array. -/
def threads : ℕ → Lists → Except Stop Lists
  | 0, c => if c.cur = [] then .ok c else .error .overrun
  | left + 1, c =>
    match c.cur with
    | [] => .ok c
    | t :: _ =>
      match m.chain s r (left + 1) m.progp.firstinst.length t.inst c with
      | .error e => .error e
      | .ok c => threads left { c with cur := c.cur.tail }

/-- Add first instruction to current list, without a look at its end. -/
def addstart (st : State) : Except Stop (List Relist) :=
  if m.always ∨ st.found = false then
    let (tl, _) := renewemptythread m.ms m.progp.startinst st.s st.tl
    if m.size ≤ tl.length then .error .overrun else .ok tl
  else .ok st.tl

def execute (st : State) : Except Stop Lists :=
  match m.addstart st with
  | .error e => .error e
  | .ok tl => m.threads st.s (m.text.rune st.s).1 m.size ⟨tl, [], st.found, st.mp⟩

/-- fast check for first char: where to go on, or nothing to return -/
def jump (st : State) : Option ℕ :=
  if st.checkstart then
    match m.starttype with
    | .none => some st.s
    | .RUNE => (m.text.find st.s m.startchar).bind fun p => if st.s = m.eol then none else some p
    | .BOL =>
      if st.s = m.text.bol then some st.s
      else (m.text.find st.s '\n'.toNat).bind fun p => if st.s = m.eol then none else some (p + 1)
  else some st.s

/-- What follows when the list is empty. -/
def advance (s : ℕ) (c : Lists) : Out ⊕ State :=
  let (r, n) := m.text.rune s
  if s = m.eol ∨ r = 0 then .inl (.ret (if c.found then 1 else 0) c.mp)
  else .inr ⟨s + n, c.found, c.nl, c.mp, m.check ∧ c.nl = []⟩

/-- The character at `s`. -/
def turn (st : State) : Out ⊕ State :=
  match m.execute st with
  | .error (.nlfull mp) => .inl (.ret (-1) mp)
  | .error (.tlfull mp) => .inl (.ret (-1) mp)
  | .error .overrun => .inl .overrun
  | .error .wild => .inl .wild
  | .ok c => m.advance st.s c

/-- One turn of the loop over the characters. -/
def step (st : State) : Out ⊕ State :=
  match m.jump st with
  | none => .inl (.ret (if st.found then 1 else 0) st.mp)
  | some p => m.turn { st with s := p }

def loop : ℕ → State → Out
  | 0, _ => .wild
  | fuel + 1, st =>
    match m.step st with
    | .inl out => out
    | .inr st => loop fuel st

/-- `mp` with no match -/
def cleared (mp : Option (List Resub)) : Option (List Resub) := mp.map fun _ => List.replicate m.ms .nil

def init (mp : Option (List Resub)) : State := ⟨m.starts, false, [], m.cleared mp, m.check⟩

/-- There are no more turns than characters, with the terminator. -/
def run (mp : Option (List Resub)) : Out := m.loop (m.text.stop + 1 - m.starts) (m.init mp)

/-- A run with small lists, and where they are too small one with lists of a given length. -/
def search (big : ℕ) (malloc : Bool) (mp : Option (List Resub)) : Out :=
  match m.run mp with
  | .ret (-1) mp => if malloc then { m with size := big }.run mp else .ret (-1) mp
  | out => out

end Machine

section Matchers

variable (progp : Reprog) (ms : ℕ) (mp : Option (List Resub))

/-- `j.starts` -/
def startof (bol : ℕ) : ℕ :=
  match mp with
  | some mp => if 0 < ms ∧ (first mp).sp ≠ 0 then (first mp).sp else bol
  | none => bol

/-- `j.eol` -/
def endof : ℕ :=
  match mp with
  | some mp => if 0 < ms then (first mp).ep else 0
  | none => 0

/-- `j.starttype` and `j.startchar` -/
def shortcut : Starttype × ℕ :=
  match progp.firstinst[progp.startinst]?.map Reinst.type with
  | some (.RUNE r) => if r < Runeself then (.RUNE, r) else (.none, 0)
  | some .BOL => (.BOL, 0)
  | _ => (.none, 0)

/-- `regexec1` with the lists of `regexec` -/
def regexec1 (t : Chars) : Machine where
  progp := progp
  text := t.text
  ms := ms
  starts := startof ms mp t.bol
  eol := endof ms mp
  starttype := (shortcut progp).1
  startchar := (shortcut progp).2
  check := (shortcut progp).1 ≠ .none
  always := false
  size := LISTSIZE

/-- `malloc` tells whether there is memory for `regexec2`. -/
def regexec (t : Chars) (malloc : Bool) : Out := (regexec1 progp ms mp t).search BIGLISTSIZE malloc mp

/-- `rregexec1` with the lists of `rregexec` -/
def rregexec1 (t : Runes) : Machine where
  progp := progp
  text := t.text
  ms := ms
  starts := startof ms mp t.bol
  eol := endof ms mp
  starttype := (shortcut progp).1
  startchar := (shortcut progp).2
  check := (shortcut progp).2 ≠ 0
  always := true
  size := LISTSIZE

def rregexec (t : Runes) : Out := (rregexec1 progp ms mp t).search (5 * LISTSIZE) true mp

end Matchers

end Petele.Regexp
