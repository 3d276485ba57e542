import Petele.Qio.Queue

namespace Petele.Qio

open Lib

variable {n : ℕ}

/-- The two calls that read under `rlock`. -/
inductive Reader where
  | qread (len : ℕ)
  | qbread (len : ℕ)

/-- Where the holder of `rlock` is: in `qwait`, or in `qread` behind its first section with the
blocks it took, or behind `bl2mem` with the block left over and the bytes it has copied. -/
inductive Rlock (n : ℕ) where
  | free
  | wait (r : Reader)
  | copy (first : Fin n) (cnt : ℤ) (len : ℕ)
  | back (rest : Option (Fin n)) (got : List UInt8) (cnt : ℤ)

/-- The list of blocks the reader holds. -/
def Rlock.held : Rlock n → Option (Fin n)
  | .copy first _ _ => some first
  | .back rest _ _ => rest
  | _ => none

/-- The bytes the reader has copied and not yet returned. -/
def Rlock.got : Rlock n → List UInt8
  | .back _ got _ => got
  | _ => []

/-- A call of `qwrite` or `qiwrite` between two blocks: its data and `sofar`. -/
structure Writing where
  p : List UInt8
  sofar : ℕ

/-- The block such a call writes next. -/
def Writing.chunk (w : Writing) : List UInt8 := (w.p.drop w.sofar).take Maxatomic

def Writing.next (w : Writing) : Writing := { w with sofar := w.sofar + w.chunk.length }

/-- Where the holder of `wlock` is: in the flow control of `qbwrite`, for the `qwrite` that called
it if one did. -/
inductive Wlock where
  | free
  | flow (w : Option Writing)

/-- A queue and the calls in progress on it. Which process makes a call does not matter. -/
structure St (n : ℕ) where
  sys : Sys n
  rlock : Rlock n
  wlock : Wlock
  writes : List Writing
  iwrites : List Writing

/-- What the processes do between two moments when nobody holds the `ilock`. -/
inductive Act (n : ℕ) where
  | qget
  | qdiscard (len : ℤ)
  | qconsume (len : ℕ)
  | qpass (x : Fin n)
  | qpassnolim (x : Fin n)
  | qproduce (p : List UInt8) (r : Option (Room n))
  /-- `qread` or `qbread` gets `rlock`. -/
  | rlock (r : Reader)
  /-- The reader looks at the queue; `r` is for the block that `qbread` may have to make. -/
  | section1 (r : Option (Room n))
  /-- The sleep in `qwait` is interrupted. -/
  | rintr
  /-- `qread` copies out, without a lock. -/
  | bl2mem
  | section2
  /-- A process gets `wlock` in `qbwrite` and queues its block. -/
  | qbwrite (x : Fin n)
  | qwrite (p : List UInt8)
  /-- The next block of the `i`th call of `qwrite` in progress. -/
  | qwblock (i : ℕ) (r : Room n)
  /-- One turn of the flow control in `qbwrite`. -/
  | flow
  | wintr
  | qiwrite (p : List UInt8)
  /-- The next block of the `i`th call of `qiwrite` in progress. -/
  | qiwblock (i : ℕ) (r : Option (Room n))
  | qflush
  | qclose
  | qhangup (msg : List UInt8)
  | qreopen
  /-- Other code changes the blocks it owns. -/
  | other (m : Mem n)

/-- What an action means for the stream of bytes: bytes that the queue accepts from a writer, or
bytes that it returns to a reader. -/
inductive Event where
  | none
  | accept (bs : List UInt8)
  | deliver (bs : List UInt8)

/-- The bytes an event accepts. -/
def Event.accepted : Event → List UInt8
  | .accept bs => bs
  | _ => []

/-- The bytes an event returns. -/
def Event.returned : Event → List UInt8
  | .deliver bs => bs
  | _ => []

/-- The bytes of a list of blocks. -/
def flat (l : List (Fin n × Block n)) : List UInt8 := l.flatMap fun x => x.2.data

/-- `qpass` on the system; on a full or closed queue the blocks are dropped. -/
def pass (s : St n) (x : Fin n) (f : Sys n → Fin n → Option (ℤ × Sys n)) (full : Bool) :
    Option (Event × St n) := do
  let l ← blocks s.sys.mem (some x)
  let (_, sys) ← f s.sys x
  return (if full ∨ s.sys.q.closed then .none else .accept (flat l), { s with sys := sys })

/-- The reader's turn under the `ilock`. -/
def section1 (s : St n) (r : Reader) (room : Option (Room n)) : Option (Event × St n) :=
  match r with
  | .qread len => do
    let (t, sys) ← qtake len (n + 1) s.sys
    match t with
    | .blocks first cnt => return (.none, { s with sys := sys, rlock := .copy first cnt len })
    | .wait .sleep => return (.none, { s with sys := sys })
    | .wait _ => return (.none, { s with sys := sys, rlock := .free })
  | .qbread len =>
    match qwait s.sys.q with
    | (.ready, q) => do
      let (x, sys) ← qbread { s.sys with q := q } len room
      let b ← sys.mem x
      return (.deliver b.data, { s with sys := sys, rlock := .free })
    | (.sleep, q) => some (.none, { s with sys := { s.sys with q := q } })
    | (_, q) => some (.none, { s with sys := { s.sys with q := q }, rlock := .free })

/-- `qwrite` goes on behind a block, or returns. -/
def Writing.resume (w : Writing) (q : Queue n) : List Writing :=
  if w.sofar < w.p.length ∧ ¬ q.msg then [w] else []

/-- `qbwrite` returns to the `qwrite` that called it, if one did. -/
def St.resume (s : St n) (w : Option Writing) : St n :=
  { s with writes := (w.map fun w => w.resume s.sys.q).getD [] ++ s.writes }

/-- `qbwrite` up to its flow control, for the `qwrite` that called it if one did. -/
def bwrite (s : St n) (x : Fin n) (w : Option Writing) : Option (Event × St n) := do
  let b ← s.sys.mem x
  if s.sys.q.bypass then return (.none, s.resume w)
  else
    let (r, sys) ← qbwrite s.sys x
    match r with
    | .queued => return (.accept b.data, { s with sys := sys, wlock := .flow w })
    | .dropped => return (.none, St.resume { s with sys := sys } w)
    | .error => return (.none, { s with sys := sys })

def step (s : St n) (a : Act n) : Option (Event × St n) :=
  match a with
  | .qget => do
    let (_, sys) ← qget s.sys
    return (.none, { s with sys := sys })
  | .qdiscard len => do
    let (_, sys) ← qdiscard s.sys len
    return (.none, { s with sys := sys })
  | .qconsume len => do
    let (_, sys) ← qconsume s.sys len
    return (.none, { s with sys := sys })
  | .qpass x => pass s x qpass (s.sys.q.limit ≤ s.sys.q.len)
  | .qpassnolim x => pass s x qpassnolim false
  | .qproduce p r => do
    let (_, sys) ← qproduce s.sys p r
    let full := s.sys.q.limit ≤ s.sys.q.len
    return (if full ∨ r.isNone then .none else .accept p, { s with sys := sys })
  | .rlock r =>
    match s.rlock with
    | .free => some (.none, { s with rlock := .wait r })
    | _ => none
  | .section1 room =>
    match s.rlock with
    | .wait r => section1 s r room
    | _ => none
  | .rintr =>
    match s.rlock with
    | .wait _ => some (.none, { s with rlock := .free })
    | _ => none
  | .bl2mem =>
    match s.rlock with
    | .copy first cnt len => do
      let (got, rest, m) ← bl2mem n s.sys.mem (some first) len
      return (.none, { s with sys := { s.sys with mem := m }, rlock := .back rest got cnt })
    | _ => none
  | .section2 =>
    match s.rlock with
    | .back rest got cnt => do
      let (_, sys) ← qreadend s.sys rest cnt
      return (.deliver got, { s with sys := sys, rlock := .free })
    | _ => none
  | .qbwrite x =>
    match s.wlock with
    | .free => bwrite s x none
    | _ => none
  | .qwrite p => some (.none, { s with writes := ⟨p, 0⟩ :: s.writes })
  | .qwblock i r =>
    match s.wlock, s.writes[i]? with
    | .free, some w => do
      let m ← alloc s.sys.mem r w.chunk
      bwrite { s with sys := { s.sys with mem := m }, writes := s.writes.eraseIdx i } r.addr w.next
    | _, _ => none
  | .flow =>
    match s.wlock with
    | .flow w =>
      if s.sys.q.noblock ∨ qnotfull s.sys.q then
        some (.none, St.resume { s with wlock := .free } w)
      else some (.none, { s with sys := { s.sys with q := { s.sys.q with flow := true } } })
    | _ => none
  | .wintr =>
    match s.wlock with
    | .flow _ => some (.none, { s with wlock := .free })
    | _ => none
  | .qiwrite p => some (.none, { s with iwrites := ⟨p, 0⟩ :: s.iwrites })
  | .qiwblock i r =>
    match s.iwrites[i]?, r with
    | none, _ => none
    | some _, none => some (.none, { s with iwrites := s.iwrites.eraseIdx i })
    | some w, some r => do
      let m ← alloc s.sys.mem r w.chunk
      let (more, sys) ← qiwrite { s.sys with mem := m } r.addr
      let rest := if more then w.next.resume sys.q else []
      return (if more then .accept w.chunk else .none,
        { s with sys := sys, iwrites := rest ++ s.iwrites.eraseIdx i })
  | .qflush => do
    let sys ← qflush s.sys
    return (.none, { s with sys := sys })
  | .qclose => do
    let sys ← qclose s.sys
    return (.none, { s with sys := sys })
  | .qhangup msg => some (.none, { s with sys := qhangup s.sys msg })
  | .qreopen => some (.none, { s with sys := qreopen s.sys })
  | .other m => some (.none, { s with sys := { s.sys with mem := m } })

/-- A block the queue or its reader holds. -/
def Mine (s : St n) (y : Fin n) : Prop :=
  ∃ l, (Chain Block.next s.sys.mem s.sys.q.bfirst l ∨
    Chain Block.next s.sys.mem s.rlock.held l) ∧ y ∈ addrs l

/-- What the callers of the queue promise: they have the lock they need, blocks they pass are
their own, memory they are given is free, and they keep off the blocks of others. -/
def Allowed (s : St n) : Act n → Prop
  | .qpass x | .qpassnolim x =>
    ∃ l, Chain Block.next s.sys.mem (some x) l ∧ ∀ y ∈ addrs l, ¬ Mine s y
  | .qproduce p r => ∀ r' ∈ r, r'.Fits s.sys.mem p.length
  | .rlock _ => s.rlock = .free
  | .section1 r =>
    (∃ rd, s.rlock = .wait rd) ∧
      ∀ len x b, s.rlock = .wait (.qbread len) → s.sys.q.bfirst = some x →
        s.sys.mem x = some b → ¬ s.sys.q.msg → len < BLEN b →
          ∃ r' ∈ r, r'.Fits s.sys.mem (BLEN b - len)
  | .rintr => ∃ rd, s.rlock = .wait rd
  | .bl2mem => ∃ first cnt len, s.rlock = .copy first cnt len
  | .section2 => ∃ rest got cnt, s.rlock = .back rest got cnt
  | .qbwrite x => s.wlock = .free ∧ (∃ b, s.sys.mem x = some b) ∧ ¬ Mine s x
  | .qwblock i r =>
    s.wlock = .free ∧ ∃ w, s.writes[i]? = some w ∧ r.Fits s.sys.mem w.chunk.length
  | .flow | .wintr => ∃ w, s.wlock = .flow w
  | .qiwblock i r =>
    ∃ w, s.iwrites[i]? = some w ∧ ∀ r' ∈ r, r'.Fits s.sys.mem w.chunk.length
  | .other m => ∀ y, Mine s y → m y = s.sys.mem y
  | _ => True

/-- A new queue, in any memory. -/
inductive Opened : St n → Prop where
  | qopen (m : Mem n) (limit : ℤ) (msg coalesce kick : Bool) :
    Opened ⟨⟨m, qopen limit msg coalesce kick⟩, .free, .free, [], []⟩
  | qbypass (m : Mem n) : Opened ⟨⟨m, qbypass⟩, .free, .free, [], []⟩

/-- The states between the sections of any interleaving, with what happened on the way. -/
inductive Runs : St n → List (Act n) → List Event → St n → Prop where
  | nil (s : St n) : Runs s [] [] s
  | cons {s s' t : St n} {a : Act n} {ev : Event} {as : List (Act n)} {evs : List Event}
      (hallowed : Allowed s a) (hstep : step s a = some (ev, s')) (hrest : Runs s' as evs t) :
    Runs s (a :: as) (ev :: evs) t

end Petele.Qio
