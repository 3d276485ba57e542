import Mathlib.Data.Nat.Bitwise
import Petele.Lib.Nest

namespace Petele.Ip

open Lib

/-- The type bits of a route besides `Rv4`. -/
structure Kind where
  ifc : Bool
  ptpt : Bool
  uni : Bool
  bcast : Bool
  multi : Bool
  proxy : Bool
deriving DecidableEq

structure Ipifc where
  x : ℕ
  ifcid : ℕ
deriving DecidableEq

/-- A node without its place in the tree. Addresses of version 6 are numbers of 128 bits; `node` tells
nodes apart as pointers do. -/
structure Route where
  node : ℕ
  v4 : Bool
  kind : Kind
  ifcid : ℕ
  ifc : Option Ipifc
  tag : List UInt8
  ref : ℤ
  address : ℕ
  endaddress : ℕ
  gate : List UInt8
  ordered : address ≤ endaddress
  fits : endaddress < 2 ^ 128
deriving DecidableEq

instance : Ranged Route ℕ := ⟨Route.address, Route.endaddress, Route.ordered⟩

abbrev Tree := Tri Route

section Compare

/-- The longs of an address, most significant first. -/
def longs (a : ℕ) : List ℕ := [a / 2 ^ 96, a / 2 ^ 64 % 2 ^ 32, a / 2 ^ 32 % 2 ^ 32, a % 2 ^ 32]

def lcmp : List ℕ → List ℕ → ℤ
  | x :: a, y :: b => if x > y then 1 else if x < y then -1 else lcmp a b
  | _, _ => 0

inductive Range
  | Rpreceeds
  | Rfollows
  | Requals
  | Rcontains
  | Rcontained
deriving DecidableEq

def rangecompare (a b : Route) : Range :=
  if a.v4 then
    if a.endaddress < b.address then .Rpreceeds
    else if a.address > b.endaddress then .Rfollows
    else if a.address ≤ b.address ∧ a.endaddress ≥ b.endaddress then
      if a.address = b.address ∧ a.endaddress = b.endaddress then .Requals else .Rcontains
    else .Rcontained
  else if lcmp (longs a.endaddress) (longs b.address) < 0 then .Rpreceeds
  else if lcmp (longs a.address) (longs b.endaddress) > 0 then .Rfollows
  else if lcmp (longs a.address) (longs b.address) ≤ 0 ∧ lcmp (longs a.endaddress) (longs b.endaddress) ≥ 0 then
    if lcmp (longs a.address) (longs b.address) = 0 ∧ lcmp (longs a.endaddress) (longs b.endaddress) = 0
    then .Requals else .Rcontains
  else .Rcontained

end Compare

section Nodes

def depth : Tree → ℕ
  | .nil => 0
  | .node d _ _ _ _ => d

/-- The depth is a byte. -/
def calcd : Tree → Tree
  | .nil => .nil
  | .node _ x l m r => .node ((max (max (depth l) (depth r)) (depth m) + 1) % 2 ^ 8) x l m r

def balancetree : Tree → Tree
  | .nil => .nil
  | .node d p l m r =>
    if depth l > depth r + 1 then
      match l with
      | .node dl pl ll lm lr => calcd (.node dl pl ll lm (calcd (.node d p lr m r)))
      | .nil => .nil
    else if depth r > depth l + 1 then
      match r with
      | .node dr pr rl rm rr => calcd (.node dr pr (calcd (.node d p l m rl)) rm rr)
      | .nil => .nil
    else calcd (.node d p l m r)

/-- An entry with the range of a new one. -/
def supercede (p new : Route) : Route :=
  if p.kind.ifc = false then
    { p with v4 := new.v4, kind := new.kind, ifcid := 0xff, gate := new.gate }
  else if new.kind.ifc then { p with ref := p.ref + 1 }
  else p

/-- The trees to be merged into the root, the last one first. -/
def addqueue (queue : List Tree) : Tree → List Tree
  | .nil => queue
  | p => p :: queue

/-- The new node has a tree in the middle if it was in the tree before. -/
def addnode (new : Route) (mid : Tree) (queue : List Tree) : Tree → Tree × List Tree
  | .nil => (.node 1 new .nil mid .nil, queue)
  | .node d p l m r =>
    match rangecompare new p with
    | .Rpreceeds =>
      let s := addnode new mid queue l
      (balancetree (.node d p s.1 m r), s.2)
    | .Rfollows =>
      let s := addnode new mid queue r
      (balancetree (.node d p l m s.1), s.2)
    | .Rcontains => (balancetree (.node 1 new .nil mid .nil), addqueue queue (.node d p l m r))
    | .Requals => (balancetree (.node d (supercede p new) l m r), queue)
    | .Rcontained =>
      let s := addnode new mid queue m
      (balancetree (.node d p l s.1 r), s.2)

def walkadd (root : Tree) (queue : List Tree) : Tree → Tree × List Tree
  | .nil => (root, queue)
  | .node _ p l m r =>
    let s := addnode p m queue root
    let s := walkadd s.1 s.2 l
    walkadd s.1 s.2 r

/-- The queue is merged into the root; there is no result if it is not empty after `k` turns. -/
def mergequeue : ℕ → Tree → List Tree → Option Tree
  | _, root, [] => some root
  | 0, _, _ :: _ => none
  | k + 1, root, p :: queue =>
    let s := walkadd root queue p
    mergequeue k s.1 s.2

def add1route (k : ℕ) (root : Tree) (new : Route) : Option Tree :=
  let s := addnode new .nil [] root
  mergequeue k s.1 s.2

def looknode (r : Route) : Tree → Option Tree
  | .nil => none
  | .node d p l m rt =>
    match rangecompare r p with
    | .Rcontains => none
    | .Rpreceeds => looknode r l
    | .Rfollows => looknode r rt
    | .Rcontained => looknode r m
    | .Requals => some (.node d p l m rt)

/-- A tree is put where `looknode` points to. -/
def putnode (r : Route) (s : Tree) : Tree → Tree
  | .nil => .nil
  | .node d p l m rt =>
    match rangecompare r p with
    | .Rcontains => .node d p l m rt
    | .Rpreceeds => .node d p (putnode r s l) m rt
    | .Rfollows => .node d p l m (putnode r s rt)
    | .Rcontained => .node d p l (putnode r s m) rt
    | .Requals => s

def del1route (k : ℕ) (root : Tree) (r : Route) : Option Tree :=
  match looknode r root with
  | some (.node d p l m rt) =>
    if p.ref - 1 = 0 then
      let queue := addqueue (addqueue (addqueue [] l) m) rt
      mergequeue k (putnode r .nil root) queue
    else some (putnode r (.node d { p with ref := p.ref - 1 } l m rt) root)
  | _ => some root

end Nodes

section Tables

def Lroot : ℕ := 10

def V4H (a : ℕ) : ℕ := (a &&& 0x07ffffff) >>> (32 - Lroot - 5)

def V6H (a : ℕ) : ℕ := ((longs a).getD 3 0 &&& 0x07ffffff) >>> (32 - Lroot - 5)

structure Fs where
  v4root : ℕ → Tree
  v6root : ℕ → Tree
  v4routegeneration : ℕ
  v6routegeneration : ℕ
  nodes : ℕ

/-- A bucket at a time, from `h` on; the node is a new one in each. -/
def addbuckets (k : ℕ) (new : ℕ → Route) : List ℕ → (ℕ → Tree) → ℕ → Option ((ℕ → Tree) × ℕ)
  | [], root, nodes => some (root, nodes)
  | h :: hs, root, nodes => do
    let t ← add1route k (root h) (new nodes)
    addbuckets k new hs (Function.update root h t) (nodes + 1)

def delbuckets (k : ℕ) (r : Route) : List ℕ → (ℕ → Tree) → Option (ℕ → Tree)
  | [], root => some root
  | h :: hs, root => do
    let t ← del1route k (root h) r
    delbuckets k r hs (Function.update root h t)

variable {w : ℕ} (hw : w ≤ 128)

/-- The route from `sa` to `ea` as `allocroute` and its caller make it. -/
def allocroute (v4 : Bool) (tag : List UInt8) (sa ea : BitVec w) (h : sa.toNat ≤ ea.toNat) (gate : List UInt8)
    (kind : Kind) (node : ℕ) : Route where
  node := node
  v4 := v4
  kind := kind
  ifcid := 0
  ifc := none
  tag := tag
  ref := 1
  address := sa.toNat
  endaddress := ea.toNat
  gate := gate
  ordered := h
  fits := lt_of_lt_of_le ea.isLt (Nat.pow_le_pow_right (by decide) hw)

/-- The numbers from `h` to `eh`. -/
def upto (h eh : ℕ) : List ℕ := List.range' h (eh + 1 - h)

theorem and_le_or (a m : BitVec w) : (a &&& m).toNat ≤ (a &&& m ||| ~~~ m).toNat := by
  rw [BitVec.toNat_or]
  exact Nat.left_le_or

theorem and_le_or' (a m : BitVec w) : (a &&& m).toNat ≤ (a ||| ~~~ m).toNat := by
  rw [BitVec.toNat_or, BitVec.toNat_and]
  exact le_trans Nat.and_le_left Nat.left_le_or

def v4addroute (k : ℕ) (f : Fs) (tag : List UInt8) (a m : BitVec 32) (gate : List UInt8) (kind : Kind) :
    Option Fs := do
  let s ← addbuckets k (allocroute (by decide) true tag (a &&& m) (a &&& m ||| ~~~ m) (and_le_or a m) gate kind)
    (upto (V4H (a &&& m).toNat) (V4H (a &&& m ||| ~~~ m).toNat)) f.v4root f.nodes
  some { f with v4root := s.1, nodes := s.2, v4routegeneration := f.v4routegeneration + 1 }

def v6addroute (k : ℕ) (f : Fs) (tag : List UInt8) (a m : BitVec 128) (gate : List UInt8) (kind : Kind) :
    Option Fs := do
  let s ← addbuckets k (allocroute le_rfl false tag (a &&& m) (a ||| ~~~ m) (and_le_or' a m) gate kind)
    (upto (V6H (a &&& m).toNat) (V6H (a ||| ~~~ m).toNat)) f.v6root f.nodes
  some { f with v6root := s.1, nodes := s.2, v6routegeneration := f.v6routegeneration + 1 }

def noKind : Kind := ⟨false, false, false, false, false, false⟩

def v4delroute (k : ℕ) (f : Fs) (a m : BitVec 32) : Option Fs := do
  let root ← delbuckets k (allocroute (by decide) true [] (a &&& m) (a &&& m ||| ~~~ m) (and_le_or a m) [] noKind 0)
    (upto (V4H (a &&& m).toNat) (V4H (a &&& m ||| ~~~ m).toNat)) f.v4root
  some { f with v4root := root, v4routegeneration := f.v4routegeneration + 1 }

def v6delroute (k : ℕ) (f : Fs) (a m : BitVec 128) : Option Fs := do
  let root ← delbuckets k (allocroute le_rfl false [] (a &&& m) (a ||| ~~~ m) (and_le_or' a m) [] noKind 0)
    (upto (V6H (a &&& m).toNat) (V6H (a ||| ~~~ m).toNat)) f.v6root
  some { f with v6root := root, v6routegeneration := f.v6routegeneration + 1 }

/-- The walk of `v4lookup`. -/
def v4walk (f : Fs) (la : ℕ) : Option Route := (f.v4root (V4H la)).walk la none

/-- The walk of `v6lookup`, long by long. -/
def walk6 (la : ℕ) : Tree → Option Route → Option Route
  | .nil, q => q
  | .node _ p l m r, q =>
    if lcmp (longs la) (longs p.address) < 0 then walk6 la l q
    else if lcmp (longs la) (longs p.endaddress) > 0 then walk6 la r q
    else walk6 la m (some p)

def v6walk (f : Fs) (la : ℕ) : Option Route := walk6 la (f.v6root (V6H la)) none

end Tables

end Petele.Ip
