import Petele.Dns.Scan

namespace Petele.Dns

def Rok : ℕ := 0

def Rformat : ℕ := 1

def Ftrunc : ℕ := 1 <<< 9

def Tcname : ℕ := 5

def Tmx : ℕ := 15

/-- What is read in the data of a record. -/
inductive Field
  | short
  | char
  | long
  | sym
  | name
  | v4
  | v6
  | bytes
  | txts
  deriving DecidableEq

/-- The getters of a type, in the order of `convM2RR`. -/
def fields : ℕ → Option (List Field)
  | 13 => some [.sym, .sym]
  | 5 | 7 | 3 | 4 | 2 => some [.name]
  | 8 | 9 => some [.name]
  | 14 => some [.name, .name]
  | 15 => some [.short, .name]
  | 1 => some [.v4]
  | 28 => some [.v6]
  | 12 => some [.name]
  | 6 => some [.name, .name, .long, .long, .long, .long, .long]
  | 33 => some [.short, .short, .short, .name]
  | 16 => some [.txts]
  | 10 => some [.bytes]
  | 17 => some [.name, .name]
  | 25 => some [.short, .char, .char, .bytes]
  | 24 => some [.short, .char, .char, .long, .long, .long, .short, .name, .bytes]
  | 37 => some [.short, .short, .char, .bytes]
  | _ => none

/-- What is stored in a record. -/
inductive Val
  | num (n : ℕ)
  | dn (d : Option DN)
  | bytes (b : Option (List UInt8))
  | txts (l : List (List UInt8))
  deriving DecidableEq

structure RR where
  owner : DN
  type : ℕ
  ttl : ℕ
  vals : List Val
  deriving DecidableEq

/-- A result, or a store through a nil pointer; `hang` is a loop that has not come to an end. -/
inductive Outcome (α : Type)
  | ok (a : α) (s : Scan)
  | nil (s : Scan)
  | hang (s : Scan)

namespace Outcome

variable {α β : Type}

def scan : Outcome α → Scan
  | ok _ s | nil s | hang s => s

def bind (x : Outcome α) (f : α → Scan → Outcome β) : Outcome β :=
  match x with
  | ok a s => f a s
  | nil s => .nil s
  | hang s => .hang s

end Outcome

section Records

variable (m : Msg)

/-- The loop over the strings of a record, up to `e`; `l` says whether the place for the next one is that of a string. -/
def txtloop (e : ℕ) : ℕ → List (List UInt8) → Bool → Scan → Outcome (List (List UInt8))
  | 0, _, _, s => .hang s
  | k + 1, txts, l, s =>
    if s.p < e then
      let (t, s) := gstr m s
      if !l then .nil s else txtloop e k (txts ++ t.toList) t.isSome s
    else .ok txts s

/-- A getter, in the data from `data` on that are said to be `len` bytes. -/
def getfield (data len : ℕ) (s : Scan) : Field → Outcome Val
  | .short => let (x, s) := gshort m s; .ok (.num x) s
  | .char => let (x, s) := gchar m s; .ok (.num x) s
  | .long => let (x, s) := glong m s; .ok (.num x) s
  | .sym => let (x, s) := gsym m s; .ok (.dn x) s
  | .name => let (x, s) := gname m s; .ok (.dn (some (dnlookup x Cin))) s
  | .v4 => let (x, s) := gv4addr m s; .ok (.dn x) s
  | .v6 => let (x, s) := gv6addr m s; .ok (.dn x) s
  | .bytes => let (x, s) := gbytes m (len - (s.p - data : ℤ)) s; .ok (.bytes x) s
  | .txts =>
    (txtloop m (data + len) (len + 2) [] true { s with txts := (s.p, data + len) :: s.txts }).bind
      fun x s => .ok (.txts x) s

def getfields (data len : ℕ) : List Field → Scan → Outcome (List Val)
  | [], s => .ok [] s
  | f :: fs, s => (getfield m data len s f).bind fun v s => (getfields data len fs s).bind fun vs s => .ok (v :: vs) s

/-- The type as it is with its bytes in order. -/
def mstypehack (s : Scan) (type : ℕ) : ℕ × Scan :=
  if type % 2 ^ 8 = 0 ∧ type / 2 ^ 8 ≠ 0 then
    (type / 2 ^ 8, if s.rcode = Rok then { s with rcode := Rformat } else s)
  else (type, s)

def Scan.failed (s : Scan) : Bool := s.err.isSome || s.rcode ≠ 0 || s.stop

/-- Which of the sections. -/
inductive What
  | questions
  | answers
  | nameservers
  | hints
  deriving DecidableEq

/-- The part of `convM2RR` behind its `switch`; without a record the data are shorter than said. -/
def checklen (data len : ℕ) (rp : RR) (s : Scan) : Option RR :=
  if (s.p - data : ℤ) ≠ len then
    if rp.type = Tcname ∧ (s.p - data : ℤ) = 2 ∧ len = 0 then some rp
    else if (len : ℤ) > s.p - data then none
    else some rp
  else some rp

/-- `now` is the time; `newline` is whether `strchr` finds a newline from the start of a `DN` on. -/
def convM2RR (now : ℕ) (newline : DN → Bool) (what : What) : ℕ → Scan → Outcome (Option RR)
  | 0, s => .hang s
  | k + 1, s =>
    let (dname, s) := gname m s
    let (type, s) := gshort m s
    let (class_, s) := gshort m s
    let (type, s) := mstypehack s type
    let (ttl, s) := glong m s
    let (len, s) := gshort m s
    let data := s.p
    let left : ℤ := m.ep - s.p
    let s :=
      if len > left ∧ ¬ (what = .hints ∨ s.p = m.ep + 1 ∧ what = .answers) then errtoolong m s left len "convM2RR" else s
    if s.failed then .ok none s
    else
      let len := if len > left then left.toNat else len
      match fields type with
      | none => convM2RR now newline what k { s with p := data + len }
      | some fs =>
        (getfields m data len fs s).bind fun vals s =>
          let s := if type = Tmx ∧ (match vals with | [_, .dn (some d)] => newline d | _ => false) = true
            then { s with trunc := true } else s
          .ok (checklen data len ⟨dnlookup dname class_, type, (ttl + now) % 2 ^ 32, vals⟩ s) s

def convM2Q (s : Scan) : Option RR × Scan :=
  let (dname, s) := gname m s
  let (type, s) := gshort m s
  let (class_, s) := gshort m s
  if s.failed then (none, s)
  else
    let (type, s) := mstypehack s type
    (some ⟨dnlookup dname class_, type, 0, []⟩, s)

/-- The records of a section, up to the first that is none. -/
def sectionloop (get : Scan → Outcome (Option RR)) : ℕ → Scan → Outcome (List RR)
  | 0, s => .ok [] s
  | count + 1, s =>
    (get s).bind fun r s =>
      match r with
      | none => .ok [] s
      | some rp => if s.failed then .ok [] s else (sectionloop get count s).bind fun rs s => .ok (rp :: rs) s

def rrloop (now : ℕ) (newline : DN → Bool) (what : What) (count : ℕ) (s : Scan) : Outcome (List RR) :=
  if s.failed then .ok [] s
  else sectionloop (fun s => if what = .questions then .ok (convM2Q m s).1 (convM2Q m s).2
    else convM2RR m now newline what (m.ep + 1) s) count s

structure DNSmsg where
  id : ℕ
  flags : ℕ
  qd : List RR
  an : List RR
  ns : List RR
  ar : List RR
  deriving DecidableEq

def start : Scan where
  p := 0
  err := none
  rcode := Rok
  stop := false
  trunc := false
  inside := true
  names := []
  txts := []

/-- `convM2DNS`: the message, the error it returns and `*codep`. -/
def convM2DNS (now : ℕ) (newline : DN → Bool) : Outcome (DNSmsg × Option Err × ℕ) :=
  let (id, s) := gshort m start
  let (flags, s) := gshort m s
  let (qdcount, s) := gshort m s
  let (ancount, s) := gshort m s
  let (nscount, s) := gshort m s
  let (arcount, s) := gshort m s
  (rrloop m now newline .questions qdcount s).bind fun qd s =>
  (rrloop m now newline .answers ancount s).bind fun an s =>
  (rrloop m now newline .nameservers nscount s).bind fun ns s =>
  let s := if s.stop then { s with err := none } else s
  let err := s.err
  (rrloop m now newline .hints arcount s).bind fun ar s =>
  .ok (⟨id, if s.trunc then flags ||| Ftrunc else flags, qd, an, ns, ar⟩, err, if s.stop then Rok else s.rcode) s

end Records

end Petele.Dns
