import Mathlib.Data.Int.Notation
import Mathlib.Data.Nat.Notation
import Mathlib.Logic.Function.Basic

namespace Petele.Avl

/-- The address of an `Avl`. -/
abbrev Ptr := ℕ

/-- An `Avl **`: the root of the tree, or one of the two links of a node. -/
inductive Loc
  | root
  | n (a : Ptr) (i : Bool)
  deriving DecidableEq, Repr

structure Avlwalk where
  started : Bool
  moved : Bool
  node : Option Ptr
  deriving DecidableEq, Repr

/-- The fields of the tree and of all nodes, side by side: `link .root` is `t->root` and
`link (.n a i)` is `a->n[i]`. -/
structure State where
  link : Loc → Option Ptr
  p : Ptr → Option Ptr
  bal : Ptr → ℤ
  walks : List Avlwalk

namespace State

def setLink (s : State) (tp : Loc) (v : Option Ptr) : State := { s with link := Function.update s.link tp v }

def setP (s : State) (a : Ptr) (v : Option Ptr) : State := { s with p := Function.update s.p a v }

def setBal (s : State) (a : Ptr) (v : ℤ) : State := { s with bal := Function.update s.bal a v }

/-- `if(x) x->p = q`. -/
def adopt (s : State) (x : Option Ptr) (q : Option Ptr) : State :=
  match x with
  | none => s
  | some x => s.setP x q

end State

/-! Dereferencing nil, an assertion that fails and a loop that outlasts its fuel are `none`. -/

def singleleft (s : State) (tp : Loc) (p : Option Ptr) : Option State := do
  let a ← s.link tp
  let c ← s.link (.n a true)
  let r2 := s.bal c
  let l := (if r2 > 0 then r2 else 0) + 1 - s.bal a
  let s := s.setLink (.n a true) (s.link (.n c false))
  let s := s.adopt (s.link (.n a true)) (some a)
  let s := s.setLink (.n c false) (some a)
  let s := s.setP a (some c)
  let s := s.setLink tp (some c)
  let s := s.setP c p
  let s := s.setBal a (-l)
  return s.setBal c (r2 - ((if l > 0 then l else 0) + 1))

def singleright (s : State) (tp : Loc) (p : Option Ptr) : Option State := do
  let a ← s.link tp
  let c ← s.link (.n a false)
  let l2 := -s.bal c
  let r := s.bal a + ((if l2 > 0 then l2 else 0) + 1)
  let s := s.setLink (.n a false) (s.link (.n c true))
  let s := s.adopt (s.link (.n a false)) (some a)
  let s := s.setLink (.n c true) (some a)
  let s := s.setP a (some c)
  let s := s.setLink tp (some c)
  let s := s.setP c p
  let s := s.setBal a r
  return s.setBal c (((if r > 0 then r else 0) + 1) - l2)

def doublerightleft (s : State) (tp : Loc) (p : Option Ptr) : Option State := do
  let a ← s.link tp
  let s ← singleright s (.n a true) (some a)
  singleleft s tp p

def doubleleftright (s : State) (tp : Loc) (p : Option Ptr) : Option State := do
  let a ← s.link tp
  let s ← singleleft s (.n a false) (some a)
  singleright s tp p

def balance (s : State) (tp : Loc) (p : Option Ptr) : Option State := do
  let a ← s.link tp
  if s.bal a = -2 then
    let c ← s.link (.n a false)
    if s.bal c ≤ 0 then singleright s tp p
    else if s.bal c = 1 then doubleleftright s tp p
    else none
  else if s.bal a = 2 then
    let c ← s.link (.n a true)
    if s.bal c ≥ 0 then singleleft s tp p
    else if s.bal c = -1 then doublerightleft s tp p
    else none
  else return s

def canoncmp (cmp : ℤ) : ℤ :=
  if cmp < 0 then -1
  else if cmp > 0 then 1
  else 0

/-- The `int` value of a C truth value. -/
def truth (b : Prop) [Decidable b] : ℤ := if b then 1 else 0

/-- Install new entry `r` for `a`: `*tp = r; **tp = **rfree`, and the children's parent pointers. -/
def install (s : State) (tp : Loc) (a r : Ptr) : State :=
  let s := s.setLink tp (some r)
  let s := s.setP r (s.p a)
  let s := s.setLink (.n r false) (s.link (.n a false))
  let s := s.setLink (.n r true) (s.link (.n a true))
  let s := s.setBal r (s.bal a)
  let s := s.adopt (s.link (.n r false)) (some r)
  s.adopt (s.link (.n r true)) (some r)

/-- With the new state come the returned change of height and `*rfree`. -/
def insertavl_ (cmp : Ptr → Ptr → ℤ) : ℕ → State → Loc → Option Ptr → Ptr → Option (State × ℤ × Option Ptr)
  | 0, _, _, _, _ => none
  | fuel + 1, s, tp, p, r =>
    match s.link tp with
    | none =>
      let s := s.setBal r 0
      let s := s.setLink (.n r false) none
      let s := s.setLink (.n r true) none
      let s := s.setP r p
      let s := s.setLink tp (some r)
      some (s, 1, none)
    | some a => do
      let ob := s.bal a
      let i := canoncmp (cmp r a)
      if i ≠ 0 then
        let (s, d, rfree) ← insertavl_ cmp fuel s (.n a (i = 1)) (some a) r
        let s := s.setBal a (s.bal a + i * d)
        let s ← balance s tp p
        let t ← s.link tp
        return (s, truth (ob = 0 ∧ s.bal t ≠ 0), rfree)
      else
        return (install s tp a r, 0, some a)

/-- With the new state come the returned change of height and `*r`. -/
def successor : ℕ → State → Loc → Option Ptr → Option (State × ℤ × Ptr)
  | 0, _, _, _ => none
  | fuel + 1, s, tp, p => do
    let a ← s.link tp
    match s.link (.n a false) with
    | none =>
      let s := s.setLink tp (s.link (.n a true))
      let s := s.adopt (s.link tp) p
      return (s, -1, a)
    | some _ =>
      let ob := s.bal a
      let (s, d, r) ← successor fuel s (.n a false) (some a)
      let s := s.setBal a (s.bal a - d)
      let s ← balance s tp p
      let t ← s.link tp
      return (s, -truth (ob ≠ 0 ∧ s.bal t = 0), r)

/-- `for(a = ..; a->n[i]; a = a->n[i]);` -/
def descend (i : Bool) : ℕ → State → Ptr → Option Ptr
  | 0, _, _ => none
  | fuel + 1, s, a =>
    match s.link (.n a i) with
    | none => some a
    | some c => descend i fuel s c

/-- `while(a->p && a->p->n[i] == a) a = a->p; return a->p;` -/
def climb (i : Bool) : ℕ → State → Ptr → Option (Option Ptr)
  | 0, _, _ => none
  | fuel + 1, s, a =>
    match s.p a with
    | none => some none
    | some q => if s.link (.n q i) = some a then climb i fuel s q else some (some q)

/-- `findpredecessor` is `neighbor false`, and `findsuccessor` its mirror image. -/
def neighbor (i : Bool) (fuel : ℕ) (s : State) (a : Option Ptr) : Option (Option Ptr) := do
  match a with
  | none => return none
  | some a =>
    match s.link (.n a i) with
    | some c => return some (← descend (!i) fuel s c)
    | none => climb i fuel s a

def findpredecessor : ℕ → State → Option Ptr → Option (Option Ptr) := neighbor false

def findsuccessor : ℕ → State → Option Ptr → Option (Option Ptr) := neighbor true

def walkdel (fuel : ℕ) (s : State) (a : Option Ptr) : Option State :=
  match a with
  | none => return s
  | some a => do
    let p ← findpredecessor fuel s (some a)
    return { s with walks := s.walks.map (fun w ↦
      if w.node = some a then
        -- back pointer to predecessor; not perfect but adequate
        { started := if p = none then false else w.started, moved := true, node := p }
      else w) }

/-- The successor `r` takes the place of the deleted node `a`. -/
def splice (s : State) (tp : Loc) (p : Option Ptr) (a r : Ptr) : State :=
  let s := s.setBal r (s.bal a)
  let s := s.setLink (.n r false) (s.link (.n a false))
  let s := s.setLink (.n r true) (s.link (.n a true))
  let s := s.setLink tp (some r)
  let s := s.setP r p
  -- node has changed; fix children's parent pointers
  let s := s.adopt (s.link (.n r false)) (some r)
  s.adopt (s.link (.n r true)) (some r)

/-- The rest of `_deleteavl` once `a` is found at `tp` and `predel` has been called. -/
def unlink (fuel : ℕ) (s : State) (tp : Loc) (p : Option Ptr) (a : Ptr) (ob : ℤ) : Option (State × ℤ × Option Ptr) := do
  if s.link (.n a false) = none then
    let s := s.setLink tp (s.link (.n a true))
    let s := s.adopt (s.link tp) p
    return (s, -1, some a)
  else if s.link (.n a true) = none then
    let s := s.setLink tp (s.link (.n a false))
    let s := s.adopt (s.link tp) p
    return (s, -1, some a)
  else
    -- deleting node with two kids, find successor
    let (s, d, r) ← successor fuel s (.n a true) (some a)
    let s := s.setBal a (s.bal a + d)
    let s := splice s tp p a r
    let s ← balance s tp p
    let t ← s.link tp
    return (s, -truth (ob ≠ 0 ∧ s.bal t = 0), some a)

/-- With the new state come the returned change of height and `*del`. -/
def deleteavl_ (cmp : Ptr → Ptr → ℤ) (predel : State → Option Ptr → Option State) :
    ℕ → State → Loc → Option Ptr → Ptr → Option (State × ℤ × Option Ptr)
  | 0, _, _, _, _ => none
  | fuel + 1, s, tp, p, rx =>
    match s.link tp with
    | none => some (s, 0, none)
    | some a => do
      let ob := s.bal a
      let i := canoncmp (cmp rx a)
      if i ≠ 0 then
        let (s, d, del) ← deleteavl_ cmp predel fuel s (.n a (i = 1)) (some a) rx
        let s := s.setBal a (s.bal a + i * d)
        let s ← balance s tp p
        let t ← s.link tp
        return (s, -truth (ob ≠ 0 ∧ s.bal t = 0), del)
      else
        let s ← predel s (some a)
        unlink fuel s tp p a ob

/-- The new state and `*oldp`. -/
def insertavl (cmp : Ptr → Ptr → ℤ) (fuel : ℕ) (s : State) (new : Ptr) : Option (State × Option Ptr) := do
  let (s, _, rfree) ← insertavl_ cmp fuel s .root none new
  return (s, rfree)

def deleteavl (cmp : Ptr → Ptr → ℤ) (fuel : ℕ) (s : State) (key : Ptr) : Option (State × Option Ptr) := do
  let (s, _, del) ← deleteavl_ cmp (walkdel fuel) fuel s .root none key
  return (s, del)

/-- The loop of `_lookupavl` from the node `t` with parent `p`: the node it returns, or the last
node it saw and the last comparison. -/
def lookuploop (cmp : Ptr → Ptr → ℤ) : ℕ → State → Ptr → Option Ptr → Ptr → Option (Ptr ⊕ Ptr × ℤ)
  | 0, _, _, _, _ => none
  | fuel + 1, s, t, p, r =>
    if s.p t = p then
      let i := canoncmp (cmp r t)
      if i = 0 then some (.inl t)
      else
        match s.link (.n t (i = 1)) with
        | some c => lookuploop cmp fuel s c (some t) r
        | none => some (.inr (t, i))
    else none

def lookupavl_ (cmp : Ptr → Ptr → ℤ) (fuel : ℕ) (s : State) (t : Option Ptr) (r : Ptr) (neighbor : ℤ) :
    Option (Option Ptr) := do
  match t with
  | none => return none
  | some t =>
    match ← lookuploop cmp fuel s t none r with
    | .inl t => return some t
    | .inr (p, i) =>
      if neighbor = 0 then return none
      else if neighbor < 0 then
        if i > 0 then return some p else findpredecessor fuel s (some p)
      else
        if i < 0 then return some p else findsuccessor fuel s (some p)

def searchavl (cmp : Ptr → Ptr → ℤ) (fuel : ℕ) (s : State) (key : Ptr) (neighbor : ℤ) : Option (Option Ptr) :=
  lookupavl_ cmp fuel s (s.link .root) key neighbor

def lookupavl (cmp : Ptr → Ptr → ℤ) (fuel : ℕ) (s : State) (key : Ptr) : Option (Option Ptr) :=
  lookupavl_ cmp fuel s (s.link .root) key 0

end Petele.Avl
