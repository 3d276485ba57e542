import Petele.Ip.RouteTable
import Petele.Lib.BigEndian

namespace Petele.Ip

open Lib Ranged BigEndian

section Interfaces

structure Iplifc where
  net : BitVec 128
  mask : BitVec 128

/-- The conversations of the interfaces and their logical interfaces. -/
abbrev Interfaces := List (Option (Ipifc × List Iplifc))

def lifcloop (remote : BitVec 128) (ifc : Ipifc) :
    List Iplifc → Option Ipifc × BitVec 128 → Option Ipifc × BitVec 128
  | [], x => x
  | lifc :: lifcs, (x, xmask) =>
    if remote &&& lifc.mask = lifc.net ∧ (x = none ∨ lifc.mask > xmask)
    then lifcloop remote ifc lifcs (some ifc, lifc.mask)
    else lifcloop remote ifc lifcs (x, xmask)

def convloop (remote : BitVec 128) : Interfaces → Option Ipifc × BitVec 128 → Option Ipifc × BitVec 128
  | [], x => x
  | none :: cs, x => convloop remote cs x
  | some (ifc, lifcs) :: cs, x => convloop remote cs (lifcloop remote ifc lifcs x)

def firstlifc : Interfaces → Option Ipifc
  | [] => none
  | none :: cs => firstlifc cs
  | some (ifc, lifcs) :: cs => if lifcs.isEmpty then firstlifc cs else some ifc

def findipifc (ifcs : Interfaces) (remote : BitVec 128) (kind : Kind) : Option Ipifc :=
  match (convloop remote ifcs (none, 0)).1 with
  | some x => some x
  | none => if kind.bcast || kind.multi then firstlifc ifcs else none

end Interfaces

section Nodes

/-- A node stays in its table and bucket as long as it lives. -/
structure Ptr where
  v4 : Bool
  h : ℕ
  node : ℕ
deriving DecidableEq

/-- The cache of a conversation. The generation is a number here and compared as a `ulong`. -/
structure Conv where
  r : Option Ptr
  rgen : ℕ
deriving DecidableEq

def Fs.root (f : Fs) (v4 : Bool) : ℕ → Tree := if v4 then f.v4root else f.v6root

def Fs.generation (f : Fs) (v4 : Bool) : ℕ := if v4 then f.v4routegeneration else f.v6routegeneration

/-- What a pointer points to. Nodes that are free, or in use again, have any contents. -/
def deref (junk : Ptr → Route) (f : Fs) (p : Ptr) : Route :=
  ((f.root p.v4 p.h).find fun x => x.node == p.node).getD (junk p)

/-- The test for a cached route. -/
def hit (junk : Ptr → Route) (f : Fs) (v4 : Bool) (c : Option Conv) : Option Ptr := do
  let c ← c
  let p ← c.r
  if (deref junk f p).ifc.isSome && c.rgen % 2 ^ 32 == f.generation v4 % 2 ^ 32 then some p else none

/-- The address whose interface is that of a route. -/
def remote (v4 : Bool) (q : Route) : BitVec 128 :=
  if v4 then .ofNat 128 (0xffff * 2 ^ 32 + if q.kind.ifc then q.address else beVal (q.gate.take 4))
  else .ofNat 128 (if q.kind.ifc then q.address else beVal (q.gate.take 16))

/-- The interface a route has, or is to have. -/
def ifcof (ifcs : Interfaces) (v4 : Bool) (q : Route) : Option Ipifc :=
  match q.ifc with
  | none => findipifc ifcs (remote v4 q) q.kind
  | some ifc => if q.ifcid ≠ ifc.ifcid then findipifc ifcs (remote v4 q) q.kind else some ifc

def setifc (ifc : Ipifc) (q : Route) : Route := { q with ifc := some ifc, ifcid := ifc.ifcid }

end Nodes

section Lookup

/-- How a search ends: without a route, with one that has no interface, or with that for `la`. -/
inductive Found
  | nil
  | stuck
  | route (la : ℕ) (q : Route) (ifc : Ipifc)

/-- The search in the table of version 4, which goes on with the gateway of a default route; there is no
result if it has not ended after `k` turns. -/
def v4find (ifcs : Interfaces) (f : Fs) : ℕ → ℕ → Option Found
  | 0, _ => none
  | k + 1, la =>
    match (f.v4root (V4H la)).walk la none with
    | none => some .nil
    | some q =>
      match ifcof ifcs true q with
      | some ifc => some (.route la q ifc)
      | none =>
        if q.address = 0 ∧ q.endaddress = 2 ^ 32 - 1 then v4find ifcs f k (beVal (q.gate.take 4))
        else some .stuck

def v6find (ifcs : Interfaces) (f : Fs) (la : ℕ) : Found :=
  match walk6 la (f.v6root (V6H la)) none with
  | none => .nil
  | some q =>
    match ifcof ifcs false q with
    | some ifc => .route la q ifc
    | none => .stuck

def Found.ptr (v4 : Bool) : Found → Option Ptr
  | .route la q _ => some ⟨v4, if v4 then V4H la else V6H la, q.node⟩
  | _ => none

/-- The node of the route gets its interface. -/
def Fs.settle (f : Fs) (v4 : Bool) (la : ℕ) (ifc : Ipifc) : Fs :=
  if v4 then
    { f with v4root := Function.update f.v4root (V4H la) ((f.v4root (V4H la)).modify la (setifc ifc)) }
  else { f with v6root := Function.update f.v6root (V6H la) ((f.v6root (V6H la)).modify la (setifc ifc)) }

/-- The end of a lookup. The cache is left as it is if there is no interface. -/
def finish (v4 : Bool) (f : Fs) (c : Option Conv) : Found → Option Ptr × Fs × Option Conv
  | .nil => (none, f, c.map fun _ => ⟨none, f.generation v4⟩)
  | .stuck => (none, f, c)
  | .route la q ifc =>
    let p := (Found.route la q ifc).ptr v4
    (p, f.settle v4 la ifc, c.map fun _ => ⟨p, f.generation v4⟩)

variable (ifcs : Interfaces) (junk : Ptr → Route)

def v4lookup (k : ℕ) (f : Fs) (a : BitVec 32) (c : Option Conv) : Option (Option Ptr × Fs × Option Conv) :=
  match hit junk f true c with
  | some p => some (some p, f, c)
  | none => (v4find ifcs f k a.toNat).map (finish true f c)

/-- Whether an address begins with `v4prefix`. -/
def mapped (a : BitVec 128) : Bool := a.toNat / 2 ^ 32 == 0xffff

/-- The rest of `v6lookup`, in the table of version 6. -/
def v6lookup6 (f : Fs) (a : BitVec 128) (c : Option Conv) : Option Ptr × Fs × Option Conv :=
  match hit junk f false c with
  | some p => (some p, f, c)
  | none => finish false f c (v6find ifcs f a.toNat)

def v6lookup (k : ℕ) (f : Fs) (a : BitVec 128) (c : Option Conv) : Option (Option Ptr × Fs × Option Conv) :=
  if mapped a then
    match v4lookup ifcs junk k f (a.setWidth 32) c with
    | none => none
    | some (some q, s) => some (some q, s)
    | some (none, f, c) => some (v6lookup6 ifcs junk f a c)
  else some (v6lookup6 ifcs junk f a c)

end Lookup

end Petele.Ip
