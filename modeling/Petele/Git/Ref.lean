import Petele.Git.Objset
import Petele.Lib.Heap

namespace Petele.Git

open Lib

inductive Color
  | Keep
  | Drop
  | Skip
  deriving DecidableEq

/-- What `paint` looks for. -/
inductive Mode
  | Lca
  | Twixt
  | Range
  deriving DecidableEq

structure Cinfo where
  parent : List Hash
  ctime : ℤ

/-- What `readobject` finds: a commit or an object of another type. -/
inductive Stored
  | commit (c : Cinfo)
  | other

/-- The objects of the repository, by their hashes. -/
abbrev Repo := Hash → Option Stored

structure Qelt where
  o : Hash
  ctime : ℤ
  color : Color
  deriving DecidableEq

/-- A queue of commits, the youngest first. -/
abbrev Objq := Array Qelt

def qput (q : Objq) (o : Hash) (c : Cinfo) (color : Color) : Objq :=
  Heap.put Qelt.ctime q ⟨o, c.ctime, color⟩

def qpop (q : Objq) : Option (Qelt × Objq) := Heap.take Qelt.ctime q

/-- The variables of `paint`. -/
structure Painting where
  objq : Objq
  keep : Objset
  drop : Objset
  skip : Objset
  range : List Hash

/-- The loops of `paint` over the heads and over the tails. -/
def seed (repo : Repo) (color : Color) (fail : Hash → Fail) : List Hash → Objq → Except Fail Objq
  | [], q => .ok q
  | h :: hs, q =>
    if h = Zhash then seed repo color fail hs q
    else
      match repo h with
      | none => .error (fail h)
      | some .other => seed repo color fail hs q
      | some (.commit c) => seed repo color fail hs (qput q h c color)

/-- The loop over the parents of a commit. -/
def spread (repo : Repo) (color : Color) : List Hash → Objq → Except Fail Objq
  | [], q => .ok q
  | p :: ps, q =>
    match repo p with
    | none => .error (.missing p)
    | some .other => spread repo color ps q
    | some (.commit c) => spread repo color ps (qput q p c color)

/-- The end of a turn: the parents get the colour. -/
def enqueue (repo : Repo) (s : Painting) (o : Hash) (color : Color) : Except Fail Painting :=
  match repo o with
  | some (.commit c) => (spread repo color c.parent s.objq).map fun q => { s with objq := q }
  | _ => .error (.notcommit o)

/-- One turn of the loop, with `e` popped. -/
def turn (repo : Repo) (mode : Mode) (s : Painting) (e : Qelt) : Except Fail Painting :=
  (oshas s.skip e.o).bind fun skipped =>
    if skipped then .ok s
    else
      match e.color with
      | .Keep =>
        (oshas s.keep e.o).bind fun kept =>
          if kept then .ok s
          else
            (oshas s.drop e.o).bind fun dropped =>
              (osadd s.keep e.o).bind fun keep =>
                if dropped then enqueue repo { s with keep := keep } e.o .Skip
                else if mode = .Range then
                  enqueue repo { s with keep := keep, range := s.range ++ [e.o] } e.o .Keep
                else enqueue repo { s with keep := keep } e.o .Keep
      | .Drop =>
        (oshas s.drop e.o).bind fun dropped =>
          if dropped then .ok s
          else
            (oshas s.keep e.o).bind fun kept =>
              (osadd s.drop e.o).bind fun drop =>
                enqueue repo { s with drop := drop } e.o (if kept then .Skip else .Drop)
      | .Skip =>
        (osadd s.skip e.o).bind fun skip => enqueue repo { s with skip := skip } e.o .Skip

/-- The loop over the queue, for at most so many turns. -/
def paintloop (repo : Repo) (mode : Mode) : ℕ → Painting → Except Fail Painting
  | 0, s => if s.objq.toList = [] then .ok s else .error .fuel
  | fuel + 1, s =>
    match qpop s.objq with
    | none => .ok s
    | some (e, q) => (turn repo mode { s with objq := q } e).bind (paintloop repo mode fuel)

/-- The objects of the list that pass the test, in order. -/
def select (test : Hash → Except Fail Bool) : List Hash → Except Fail (List Hash)
  | [] => .ok []
  | o :: l =>
    (test o).bind fun b => (select test l).map fun r => if b then o :: r else r

/-- The first object of the list that passes the test. -/
def first (test : Hash → Except Fail Bool) : List Hash → Except Fail (List Hash)
  | [] => .ok []
  | o :: l => (test o).bind fun b => if b then .ok [o] else first test l

/-- Whether an object is dropped as `want` says and not skipped. -/
def dropped (s : Painting) (want : Bool) (o : Hash) : Except Fail Bool :=
  (oshas s.drop o).bind fun d => (oshas s.skip o).map fun k => d == want && !k

/-- The switch at the end of `paint`. -/
def answer (mode : Mode) (s : Painting) : Except Fail (List Hash) :=
  match mode with
  | .Lca => first (dropped s true) s.keep.list
  | .Twixt => select (dropped s false) s.keep.list
  | .Range => select (dropped s false) s.range.reverse

def paint (repo : Repo) (fuel : ℕ) (head tail : List Hash) (mode : Mode) :
    Except Fail (List Hash) :=
  (seed repo .Keep .head head #[]).bind fun q =>
    (seed repo .Drop .tail tail q).bind fun q =>
      (paintloop repo mode fuel ⟨q, osinit, osinit, osinit, []⟩).bind (answer mode)

/-- What `range` leaves on the stack for `a..b`. -/
def range (repo : Repo) (fuel : ℕ) (a b : Hash) : Except Fail (List Hash) :=
  paint repo fuel [b] [a] .Range

end Petele.Git
