import Petele.Dns.Parse

namespace Petele.Dns

open Ip (parseip)

def Ndict : ℕ := 64

def Tsrv : ℕ := 33

/-- A name in the dictionary. Kept besides: where it was put before `offset` was cut to 16 bits, how many pointers lie
behind it there, and whether its record was left out. -/
structure Entry where
  offset : ℕ
  name : List UInt8
  place : ℕ
  hops : ℕ
  dropped : Bool

/-- `ep` is what is used of `buf`. -/
structure Dict where
  x : List Entry
  ep : ℕ

/-- A name field of the message, from `place` up to `stop`, and whether it can be read back. -/
structure NameField where
  place : ℕ
  stop : ℕ
  name : List UInt8
  fine : Bool

/-- Where the message has got to, which is beyond its end where something did not fit, and what it is packed in. -/
structure Pack where
  p : ℕ
  mem : ℕ → UInt8
  dict : Dict
  log : List NameField

def store (mem : ℕ → UInt8) (p : ℕ) (l : List UInt8) : ℕ → UInt8 :=
  fun i => if p ≤ i then l.getD (i - p) (mem i) else mem i

/-- What stands before the first dot. -/
def component (np : List UInt8) : List UInt8 := np.takeWhile (· ≠ 46)

/-- What stands behind it. -/
def components (np : List UInt8) : List UInt8 := np.drop ((component np).length + 1)

theorem components_lt {np : List UInt8} (h : np ≠ []) : (components np).length < np.length := by
  rw [components, List.length_drop]
  have := List.length_pos_iff.mpr h
  omega

/-- The bytes of the longest component. -/
def widest (np : List UInt8) : ℕ :=
  if _ : np = [] then 0 else max (component np).length (widest (components np))
termination_by np.length
decreasing_by exact components_lt ‹_›

section Name

variable (x : List Entry)

def lookup (np : List UInt8) : Option Entry := x.find? fun e => e.name == np

/-- The pointers that are followed where `np` is read. -/
def hops (np : List UInt8) : ℕ :=
  if _ : np = [] then 0
  else match lookup x np with
    | some e => e.hops + 1
    | none => hops (components np)
termination_by np.length
decreasing_by exact components_lt ‹_›

/-- A name of which `len` bytes are packed can be read back: the components that are packed have 1 to 63 bytes and end
before the last place of a name, no dot ends the name, and the entry that is pointed to stands in the message, at a
place of 14 bits, with no more than 10 pointers behind it and components that are copied. -/
def fine (len : ℕ) (np : List UInt8) : Bool :=
  if _ : np = [] then true
  else match lookup x np with
    | some e => decide (e.place < 2 ^ 14) && !e.dropped && decide (e.hops ≤ 10) && decide (len + widest np < Domlen - 1)
    | none =>
      decide (0 < (component np).length) && decide ((component np).length < Labellen) &&
        decide (len + (component np).length < Domlen - 1) &&
        (decide (np = component np) || components np != []) &&
        fine (len + (component np).length + 1) (components np)
termination_by np.length
decreasing_by exact components_lt ‹_›

end Name

section Puts

variable (ep : ℕ)

def puts (l : List UInt8) (b : Pack) : Pack :=
  if ep < b.p + l.length then { b with p := ep + 1 } else { b with p := b.p + l.length, mem := store b.mem b.p l }

def psym (np : List UInt8) : Pack → Pack :=
  let n := if np.length ≥ Strlen then Strlen - 1 else np.length
  puts ep (UInt8.ofNat n :: np.take n)

def pstr (np : List UInt8) : Pack → Pack := psym ep np

def pbytes (l : List UInt8) : Pack → Pack := puts ep l

def puchar (val : ℕ) : Pack → Pack := puts ep [UInt8.ofNat val]

def pushort (val : ℕ) : Pack → Pack := puts ep [UInt8.ofNat (val / 2 ^ 8), UInt8.ofNat val]

def pulong (val : ℕ) : Pack → Pack :=
  puts ep [UInt8.ofNat (val / 2 ^ 24), UInt8.ofNat (val / 2 ^ 16), UInt8.ofNat (val / 2 ^ 8), UInt8.ofNat val]

def v6tov4 (v6 : List UInt8) : List UInt8 :=
  if v6.take 12 = List.replicate 10 0 ++ [0xff, 0xff] then v6.drop 12 else List.replicate 4 0

def text (name : List UInt8) : List Char := name.map fun b => Char.ofNat b.toNat

def pv4addr (name : List UInt8) : Pack → Pack := puts ep (v6tov4 (parseip (text name)).1)

def pv6addr (name : List UInt8) : Pack → Pack := puts ep (parseip (text name)).1

/-- The name is entered in the dictionary, which `last` says it may stand in already. -/
def enter (b : Pack) (np : List UInt8) (last : Option (List UInt8)) (hops : ℕ) : Pack × Option (List UInt8) :=
  if b.dict.x.length < Ndict then
    match last with
    | some l =>
      let l := components l
      ({ b with dict.x := b.dict.x ++ [⟨b.p % 2 ^ 16, l, b.p, hops, false⟩] }, some l)
    | none =>
      if b.dict.ep + np.length + 1 < 16 * 1024 then
        ({ b with dict := ⟨b.dict.x ++ [⟨b.p % 2 ^ 16, np, b.p, hops, false⟩], b.dict.ep + np.length + 1⟩ }, some np)
      else (b, none)
  else (b, last)

/-- The loop of `pname`, with the pointers that lie behind the name. -/
def pnameloop (hops : ℕ) (last : Option (List UInt8)) (np : List UInt8) (b : Pack) : Pack :=
  if _ : np = [] then if b.p ≥ ep then { b with p := ep + 1 } else puts ep [0] b
  else match lookup b.dict.x np with
    | some e => puts ep [UInt8.ofNat (e.offset / 2 ^ 8 ||| 0xc0), UInt8.ofNat e.offset] b
    | none =>
      let (b, last) := enter b np last hops
      let i := (component np).length
      if ep < b.p + (i + 1) then { b with p := ep + 1 }
      else if i > Labellen then { b with p := ep + 1 }
      else pnameloop hops last (components np) (puts ep (UInt8.ofNat i :: component np) b)
termination_by np.length
decreasing_by exact components_lt ‹_›

def pname (np : List UInt8) (b : Pack) : Pack :=
  if np.length ≥ Domlen then { b with p := ep + 1 }
  else
    let b' := pnameloop ep (hops b.dict.x np) none np b
    { b' with log := ⟨b.p, b'.p, np, fine b.dict.x 0 np⟩ :: b'.log }

/-- A string where a name is read, which is then read back only if it is empty. -/
def ptarget (np : List UInt8) (b : Pack) : Pack :=
  { pstr ep np b with log := ⟨b.p, (pstr ep np b).p, np, np == []⟩ :: (pstr ep np b).log }

end Puts

/-- What is written in the data of a record. -/
inductive Put
  | symbol
  | string
  | name
  | strings
  | bytes
  | ushort
  | uchar
  | ulong
  | v4addr
  | v6addr
  deriving DecidableEq

/-- The `switch` of `convRR2M`. -/
def putters : ℕ → List Put
  | 13 => [.symbol, .symbol]
  | 5 | 7 | 3 | 4 | 2 => [.name]
  | 8 | 9 => [.name]
  | 14 => [.name, .name]
  | 15 => [.ushort, .name]
  | 1 => [.v4addr]
  | 28 => [.v6addr]
  | 12 => [.name]
  | 6 => [.name, .name, .ulong, .ulong, .ulong, .ulong, .ulong]
  | 33 => [.ushort, .ushort, .ushort, .string]
  | 16 => [.strings]
  | 10 => [.bytes]
  | 17 => [.name, .name]
  | 25 => [.ushort, .uchar, .uchar, .bytes]
  | 24 => [.ushort, .uchar, .uchar, .ulong, .ulong, .ulong, .ushort, .name, .bytes]
  | 37 => [.ushort, .ushort, .uchar, .bytes]
  | _ => []

def Put.Fits : Put → Val → Prop
  | .ushort, .num _ | .uchar, .num _ | .ulong, .num _ => True
  | .symbol, .dn (some d) | .string, .dn (some d) | .name, .dn (some d) | .v4addr, .dn (some d) | .v6addr, .dn (some d) =>
    0 ∉ d.name
  | .strings, .txts l => ∀ t ∈ l, 0 ∉ t
  | .bytes, .bytes (some _) => True
  | _, _ => False

/-- A record that holds what its type says. -/
structure Record extends RR where
  db : Bool
  owned : 0 ∉ owner.name
  fits : List.Forall₂ Put.Fits (putters type) vals

section Records

variable (now ep : ℕ)

def putval : Put → Val → Pack → Pack
  | .symbol, .dn (some d) => psym ep d.name
  | .string, .dn (some d) => ptarget ep d.name
  | .name, .dn (some d) => pname ep d.name
  | .strings, .txts l => fun b => l.foldl (fun b t => pstr ep t b) b
  | .bytes, .bytes (some l) => pbytes ep l
  | .ushort, .num x => pushort ep x
  | .uchar, .num x => puchar ep x
  | .ulong, .num x => pulong ep x
  | .v4addr, .dn (some d) => pv4addr ep d.name
  | .v6addr, .dn (some d) => pv6addr ep d.name
  | _, _ => id

def putvals : List Put → List Val → Pack → Pack
  | k :: ks, v :: vs, b => putvals ks vs (putval ep k v b)
  | _, _, b => b

/-- The time to live that is sent. -/
def ttl (rp : Record) : ℕ := if rp.db then ((rp.ttl : ℤ).bmod (2 ^ 32)).toNat else ((rp.ttl - now : ℤ).bmod (2 ^ 32)).toNat

def convRR2M (rp : Record) (b : Pack) : Pack :=
  let b := pulong ep (ttl now rp) (pushort ep rp.owner.class_ (pushort ep rp.type (pname ep rp.owner.name b)))
  let lp := b.p
  let data := lp + 2
  if data ≥ ep then { b with p := data + 1 }
  else
    let b := putvals ep (putters rp.type) rp.vals { b with p := data }
    let len := b.p - data
    { b with mem := store b.mem lp [UInt8.ofNat (len / 2 ^ 8), UInt8.ofNat len] }

/-- A question: its owner's name and class, and its type. -/
structure Question where
  owner : DN
  type : ℕ
  owned : 0 ∉ owner.name

def convQ2M (rp : Question) (b : Pack) : Pack :=
  pushort ep rp.owner.class_ (pushort ep rp.type (pname ep rp.owner.name b))

/-- A record is left out: what it has entered and written stays. -/
def Pack.drop (b b' : Pack) : Pack where
  p := b.p
  mem := b'.mem
  dict := { b'.dict with
    x := b'.dict.x.take b.dict.x.length ++ (b'.dict.x.drop b.dict.x.length).map fun e => { e with dropped := true } }
  log := b.log

/-- `rrloop` of `convDNS2M`: what it counts, and the message. -/
def packloop {α : Type} (conv : α → Pack → Pack) : List α → Pack → ℕ × Pack
  | [], b => (0, b)
  | rp :: rest, b =>
    if b.p < ep then
      let np := conv rp b
      if np.p > ep then (0, b.drop np)
      else ((packloop conv rest np).1 + 1, (packloop conv rest np).2)
    else (0, b)

end Records

structure Message where
  id : ℕ
  flags : ℕ
  qd : List Question
  an : List Record
  ns : List Record
  ar : List Record

/-- The message in `mem`, which ends at `n`, with what each section counts. -/
structure Packed where
  n : ℕ
  mem : ℕ → UInt8
  qdcount : ℕ
  ancount : ℕ
  nscount : ℕ
  arcount : ℕ
  log : List NameField

def convDNS2M (now : ℕ) (m : Message) (buf : ℕ → UInt8) (len : ℕ) : Packed :=
  let b : Pack := ⟨12, fun i => if i < len then 0 else buf i, ⟨[], 0⟩, []⟩
  let (qdcount, b) := packloop len (convQ2M len) m.qd b
  let (ancount, b) := packloop len (convRR2M now len) m.an b
  let (nscount, b) := packloop len (convRR2M now len) m.ns b
  let (arcount, b) := packloop len (convRR2M now len) m.ar b
  let trunc := if b.p > len then Ftrunc else 0
  let np := if b.p > len then len else b.p
  let b := [m.id, m.flags ||| trunc, qdcount, ancount, nscount, arcount].foldl (fun b x => pushort len x b) { b with p := 0 }
  ⟨np, b.mem, qdcount, ancount, nscount, arcount, b.log⟩

end Petele.Dns
