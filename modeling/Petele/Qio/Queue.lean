import Petele.Lib.Chain
import Petele.Lib.CInt

namespace Petele.Qio

open Lib

/-- `struct Block` in a memory of `n` addresses. `alloc` is `lim - base`, `data` the bytes from
`rp` to `wp`. A block comes from `allocb`, whose size is an `int`, and `checkb` would panic on data
outside the buffer. -/
structure Block (n : ℕ) where
  next : Option (Fin n)
  alloc : ℕ
  data : List UInt8
  fits : data.length ≤ alloc
  small : alloc < 2 ^ 31

variable {n : ℕ}

def BLEN (b : Block n) : ℕ := b.data.length

def BALLOC (b : Block n) : ℕ := b.alloc

/-- `b->rp += k`. -/
def Block.advance (b : Block n) (k : ℕ) : Block n where
  next := b.next
  alloc := b.alloc
  data := b.data.drop k
  fits := Nat.le_trans (by simp) b.fits
  small := b.small

/-- `b->wp = b->rp + k`. -/
def Block.cut (b : Block n) (k : ℕ) : Block n where
  next := b.next
  alloc := b.alloc
  data := b.data.take k
  fits := Nat.le_trans (by simp) b.fits
  small := b.small

/-- `b->next = p`. -/
def Block.link (b : Block n) (p : Option (Fin n)) : Block n := { b with next := p }

abbrev Mem (n : ℕ) := Fin n → Option (Block n)

def Ehungup : List UInt8 := "i/o on hungup channel".toUTF8.data.toList

def ERRMAX : ℕ := 128

def Maxatomic : ℕ := 64 * 1024

/-- `struct Queue`, with the bits of `state` one by one. Left out are the locks, which are part of
the system around the queue, and what only wakes other processes up. -/
structure Queue (n : ℕ) where
  bfirst : Option (Fin n)
  blast : Option (Fin n)
  len : ℤ
  dlen : ℤ
  limit : ℤ
  inilim : ℤ
  starve : Bool
  msg : Bool
  closed : Bool
  flow : Bool
  coalesce : Bool
  kick : Bool
  noblock : Bool
  eof : ℤ
  bypass : Bool
  err : List UInt8

structure Sys (n : ℕ) where
  mem : Mem n
  q : Queue n

/-- `qopen`; of `msg` the bits that say how the queue is read. -/
def qopen (limit : ℤ) (msg coalesce kick : Bool) : Queue n where
  bfirst := none
  blast := none
  len := 0
  dlen := 0
  limit := limit
  inilim := limit
  starve := true
  msg := msg
  closed := false
  flow := false
  coalesce := coalesce
  kick := kick
  noblock := false
  eof := 0
  bypass := false
  err := []

/-- `qbypass`: a queue that only passes blocks on. -/
def qbypass : Queue n := { qopen 0 false false false with bypass := true, starve := false }

/-- What `malloc` finds for a block: an address and the length of the buffer. -/
structure Room (n : ℕ) where
  addr : Fin n
  alloc : ℕ

/-- A room is free and has space for `k` bytes. -/
def Room.Fits (m : Mem n) (k : ℕ) (r : Room n) : Prop :=
  m r.addr = none ∧ k ≤ r.alloc ∧ r.alloc < 2 ^ 31

/-- A new block with data already in it. -/
def alloc (m : Mem n) (r : Room n) (data : List UInt8) : Option (Mem n) :=
  match m r.addr with
  | some _ => none
  | none =>
    if h : data.length ≤ r.alloc ∧ r.alloc < 2 ^ 31 then
      some (Function.update m r.addr (some ⟨none, r.alloc, data, h.1, h.2⟩))
    else none

/-- `freeb` panics on what is no block. -/
def freeb (m : Mem n) (x : Fin n) : Option (Mem n) :=
  (m x).map fun _ => Function.update m x none

/-- The blocks of a list, as the loops over `b->next` meet them. -/
def blocks (m : Mem n) (p : Option (Fin n)) : Option (List (Fin n × Block n)) :=
  walk Block.next m n p

def freeblist (m : Mem n) (p : Option (Fin n)) : Option (Mem n) :=
  (blocks m p).bind fun l => l.foldlM (fun m x => freeb m x.1) m

/-- `blocklen` on the blocks of a list. -/
def blocklen (l : List (Fin n × Block n)) : ℤ := l.foldl (fun len x => wrap (len + BLEN x.2)) 0

/-- `blockalloclen` on the blocks of a list. -/
def blockalloclen (l : List (Fin n × Block n)) : ℤ :=
  l.foldl (fun len x => wrap (len + BALLOC x.2)) 0

/-- The end of most sections: if the writer is flow controlled, restart it. -/
def unflow (q : Queue n) : Queue n :=
  if q.flow ∧ q.len < q.limit.tdiv 2 then { q with flow := false } else q

def qget (s : Sys n) : Option (Option (Fin n) × Sys n) :=
  match s.q.bfirst with
  | none => some (none, { s with q := { s.q with starve := true } })
  | some x => do
    let b ← s.mem x
    let q := { s.q with
      bfirst := b.next
      len := wrap (s.q.len - BALLOC b)
      dlen := wrap (s.q.dlen - BLEN b) }
    return (some x, ⟨Function.update s.mem x (some (b.link none)), unflow q⟩)

/-- The loop of `qdiscard`. -/
def discard (len : ℤ) : ℕ → ℤ → Sys n → Option (ℤ × Sys n)
  | 0, _, _ => none
  | fuel + 1, sofar, s =>
    if sofar < len then
      match s.q.bfirst with
      | none => some (sofar, s)
      | some x => do
        let b ← s.mem x
        if (BLEN b : ℤ) ≤ len - sofar then
          let q := { s.q with
            bfirst := b.next
            len := wrap (s.q.len - BALLOC b)
            dlen := wrap (s.q.dlen - BLEN b) }
          let m ← freeb s.mem x
          discard len fuel (sofar + BLEN b) ⟨m, q⟩
        else
          let k := len - sofar
          let m := Function.update s.mem x (some (b.advance k.toNat))
          let q := { s.q with dlen := wrap (s.q.dlen - k) }
          discard len fuel (sofar + k) ⟨m, q⟩
    else some (sofar, s)

def qdiscard (s : Sys n) (len : ℤ) : Option (ℤ × Sys n) := do
  let (sofar, s) ← discard len (n + 2) 0 s
  return (sofar, { s with q := unflow s.q })

/-- The loop of `qconsume` that looks for a block with data: the block, and the empty ones it
passed in the list `tofree`. -/
def skipempty : ℕ → Option (Fin n) → Sys n →
    Option (Option (Fin n × Block n) × Option (Fin n) × Sys n)
  | 0, _, _ => none
  | fuel + 1, tofree, s =>
    match s.q.bfirst with
    | none => some (none, tofree, s)
    | some x => do
      let b ← s.mem x
      if 0 < BLEN b then return (some (x, b), tofree, s)
      else
        let q := { s.q with bfirst := b.next, len := wrap (s.q.len - BALLOC b) }
        let m := Function.update s.mem x (some (b.link tofree))
        skipempty fuel (some x) ⟨m, q⟩

/-- `qconsume`; the result is `-1` or the bytes copied out. -/
def qconsume (s : Sys n) (len : ℕ) : Option (Option (List UInt8) × Sys n) := do
  let (found, tofree, s) ← skipempty (n + 1) none s
  match found with
  | none => return (none, { s with q := { s.q with starve := true } })
  | some (x, b) =>
    let k := if BLEN b < len then BLEN b else len
    let out := b.data.take k
    let b' := b.advance k
    let q : Queue n := { s.q with dlen := wrap (s.q.dlen - k) }
    if q.msg ∨ k = BLEN b then
      let q : Queue n := { q with
        bfirst := b'.next
        len := wrap (q.len - BALLOC b')
        dlen := wrap (q.dlen - BLEN b') }
      let m := Function.update s.mem x (some (b'.link tofree))
      let m ← freeblist m (some x)
      return (some out, ⟨m, unflow q⟩)
    else
      let m := Function.update s.mem x (some b')
      let m ← freeblist m tofree
      return (some out, ⟨m, unflow q⟩)

/-- `q->blast->next = b`, or `q->bfirst = b` in an empty queue. -/
def attach (s : Sys n) (x : Fin n) : Option (Sys n) :=
  match s.q.bfirst with
  | some _ => do
    let y ← s.q.blast
    let b ← s.mem y
    return { s with mem := Function.update s.mem y (some (b.link (some x))) }
  | none => some { s with q := { s.q with bfirst := some x } }

/-- The common part of `qpass` and `qpassnolim`. -/
def addbuffer (s : Sys n) (x : Fin n) : Option (ℤ × Sys n) := do
  let s ← attach s x
  let l ← blocks s.mem (some x)
  let len := blockalloclen l
  let q : Queue n := { s.q with
    blast := (l.getLast?).map Prod.fst
    len := wrap (s.q.len + len)
    dlen := wrap (s.q.dlen + blocklen l) }
  let q := if q.limit.tdiv 2 ≤ q.len then { q with flow := true } else q
  return (len, { s with q := { q with starve := false } })

/-- What `qpass` and `qpassnolim` do on a closed queue. -/
def dropbuffer (s : Sys n) (x : Fin n) : Option (ℤ × Sys n) := do
  let b ← s.mem x
  let m ← freeblist s.mem (some x)
  return (wrap (BALLOC b), { s with mem := m })

def qpass (s : Sys n) (x : Fin n) : Option (ℤ × Sys n) :=
  if s.q.limit ≤ s.q.len then do
    let m ← freeblist s.mem (some x)
    return (-1, { s with mem := m })
  else if s.q.closed then dropbuffer s x
  else addbuffer s x

def qpassnolim (s : Sys n) (x : Fin n) : Option (ℤ × Sys n) :=
  if s.q.closed then dropbuffer s x else addbuffer s x

/-- `qproduce`, with what `iallocb` finds. -/
def qproduce (s : Sys n) (p : List UInt8) (r : Option (Room n)) : Option (ℤ × Sys n) :=
  if s.q.limit ≤ s.q.len then some (-1, { s with q := { s.q with flow := true } })
  else
    match r with
    | none => some (0, s)
    | some r => do
      let m ← alloc s.mem r p
      let s ← attach { s with mem := m } r.addr
      let b ← s.mem r.addr
      let q := { s.q with
        blast := some r.addr
        len := wrap (s.q.len + BALLOC b)
        dlen := wrap (s.q.dlen + BLEN b)
        starve := false }
      let q := if q.limit ≤ q.len then { q with flow := true } else q
      return (p.length, { s with q := q })

/-- What one turn of the loop of `qwait` finds. -/
inductive Wait where
  | ready
  | sleep
  | eof
  | error
  deriving DecidableEq

def qwait (q : Queue n) : Wait × Queue n :=
  if q.bfirst.isSome then (.ready, q)
  else if q.closed then
    let q := { q with eof := wrap (q.eof + 1) }
    if 3 < q.eof then (.error, q)
    else if q.err ≠ [] ∧ q.err ≠ Ehungup then (.error, q)
    else (.eof, q)
  else (.sleep, { q with starve := true })

def qremove (s : Sys n) : Option (Option (Fin n) × Sys n) :=
  match s.q.bfirst with
  | none => some (none, s)
  | some x => do
    let b ← s.mem x
    let q := { s.q with
      bfirst := b.next
      len := wrap (s.q.len - BALLOC b)
      dlen := wrap (s.q.dlen - BLEN b) }
    return (some x, ⟨Function.update s.mem x (some (b.link none)), q⟩)

def qputback (s : Sys n) (x : Fin n) : Option (Sys n) := do
  let b ← s.mem x
  let q := { s.q with
    blast := if s.q.bfirst.isNone then some x else s.q.blast
    bfirst := some x
    len := wrap (s.q.len + BALLOC b)
    dlen := wrap (s.q.dlen + BLEN b) }
  return ⟨Function.update s.mem x (some (b.link s.q.bfirst)), q⟩

/-- `bl2mem`: the bytes copied and the first block not used up. -/
def bl2mem : ℕ → Mem n → Option (Fin n) → ℕ → Option (List UInt8 × Option (Fin n) × Mem n)
  | _, m, none, _ => some ([], none, m)
  | 0, _, some _, _ => none
  | fuel + 1, m, some x, k => do
    let b ← m x
    if k < BLEN b then
      return (b.data.take k, some x, Function.update m x (some (b.advance k)))
    else
      let m ← freeb m x
      let (out, rest, m) ← bl2mem fuel m b.next (k - BLEN b)
      return (b.data ++ out, rest, m)

/-- The section of `qbread` behind `qwait`, with what `allocb` finds if it has to split; without
memory it panics. The block returned is no longer the queue's. -/
def qbread (s : Sys n) (len : ℕ) (r : Option (Room n)) : Option (Fin n × Sys n) := do
  let (x, s) ← qremove s
  let x ← x
  let b ← s.mem x
  if len < BLEN b then
    if s.q.msg then
      return (x, ⟨Function.update s.mem x (some (b.cut len)), unflow s.q⟩)
    else
      let r ← r
      let m ← alloc s.mem r (b.data.drop len)
      let s ← qputback { s with mem := m } r.addr
      return (x, ⟨Function.update s.mem x (some (b.cut len)), unflow s.q⟩)
  else return (x, { s with q := unflow s.q })

/-- The loop of `qread` that collects blocks behind `last` as long as the read has room: `cnt` is
its `n`, an `int`. -/
def gather (len : ℕ) : ℕ → ℤ → Fin n → Sys n → Option (ℤ × Sys n)
  | 0, _, _, _ => none
  | fuel + 1, cnt, last, s =>
    match s.q.bfirst with
    | none => some (cnt, s)
    | some x => do
      let b ← s.mem x
      if (len : ℤ) < wrap (cnt + BLEN b) then return (cnt, s)
      else
        let (y, s) ← qremove s
        let c ← s.mem last
        let s := { s with mem := Function.update s.mem last (some (c.link y)) }
        gather len fuel (wrap (cnt + BLEN b)) x s

/-- What `qread` holds after its first section: the blocks and its `n`, or the result of
`qwait`. -/
inductive Taken (n : ℕ) where
  | wait (w : Wait)
  | blocks (first : Fin n) (cnt : ℤ)

/-- The first section of `qread`, from `again` on. -/
def qtake (len : ℕ) : ℕ → Sys n → Option (Taken n × Sys n)
  | 0, _ => none
  | fuel + 1, s =>
    match qwait s.q with
    | (.ready, q) => do
      let x ← q.bfirst
      let b ← s.mem x
      if q.coalesce then
        if BLEN b = 0 then
          let (_, s) ← qremove { s with q := q }
          let m ← freeb s.mem x
          qtake len fuel { s with mem := m }
        else
          let (_, s) ← qremove { s with q := q }
          let (cnt, s) ← gather len (n + 1) (BLEN b) x s
          return (.blocks x cnt, s)
      else
        let (_, s) ← qremove { s with q := q }
        return (.blocks x (BLEN b), s)
    | (w, q) => some (.wait w, { s with q := q })

/-- The second section of `qread`: the block left over and the `n` it returns. -/
def qreadend (s : Sys n) (rest : Option (Fin n)) (cnt : ℤ) : Option (ℤ × Sys n) :=
  match rest with
  | none => some (cnt, { s with q := unflow s.q })
  | some x => do
    let b ← s.mem x
    let cnt := wrap (cnt - BLEN b)
    if s.q.msg then
      let m ← freeb s.mem x
      return (cnt, ⟨m, unflow s.q⟩)
    else
      let s ← qputback s x
      return (cnt, { s with q := unflow s.q })

def qnotfull (q : Queue n) : Bool := q.len < q.limit ∨ q.closed

/-- How the section of `qbwrite` ends. -/
inductive Written where
  | error
  | dropped
  | queued
  deriving DecidableEq

/-- The section of `qbwrite`. -/
def qbwrite (s : Sys n) (x : Fin n) : Option (Written × Sys n) := do
  let b ← s.mem x
  if s.q.closed then
    let m ← freeb s.mem x
    return (.error, { s with mem := m })
  else if s.q.limit ≤ s.q.len ∧ s.q.noblock then
    let m ← freeb s.mem x
    return (.dropped, { s with mem := m })
  else
    let s ← attach s x
    let b' ← s.mem x
    let q := { s.q with
      blast := some x
      len := wrap (s.q.len + BALLOC b')
      dlen := wrap (s.q.dlen + BLEN b)
      starve := false }
    return (.queued, ⟨Function.update s.mem x (some (b'.link none)), q⟩)

/-- The section of `qiwrite` for a block of its own; the result says whether it goes on. -/
def qiwrite (s : Sys n) (x : Fin n) : Option (Bool × Sys n) := do
  let b ← s.mem x
  if 16 * 1024 ≤ s.q.dlen then
    let m ← freeb s.mem x
    return (false, { s with mem := m })
  else
    let s ← attach s x
    let q := { s.q with
      blast := some x
      len := wrap (s.q.len + BALLOC b)
      dlen := wrap (s.q.dlen + BLEN b)
      starve := false }
    return (true, { s with q := q })

def qclose (s : Sys n) : Option (Sys n) := do
  let m ← freeblist s.mem s.q.bfirst
  return ⟨m, { s.q with
    closed := true
    flow := false
    starve := false
    err := Ehungup
    bfirst := none
    len := 0
    dlen := 0
    noblock := false }⟩

/-- `qhangup`; a nil message is an empty one. -/
def qhangup (s : Sys n) (msg : List UInt8) : Sys n :=
  let err := if msg = [] then Ehungup else msg.take (ERRMAX - 1)
  { s with q := { s.q with closed := true, err := err } }

def qreopen (s : Sys n) : Sys n :=
  { s with q := { s.q with closed := false, starve := true, eof := 0, limit := s.q.inilim } }

def qflush (s : Sys n) : Option (Sys n) := do
  let m ← freeblist s.mem s.q.bfirst
  return ⟨m, { s.q with bfirst := none, len := 0, dlen := 0 }⟩

end Petele.Qio
