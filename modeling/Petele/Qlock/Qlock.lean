import Petele.Lib.Fifo
import Mathlib.Data.Fintype.Card

namespace Petele.Qlock

open Lib

variable {P K R : Type} [DecidableEq P] [DecidableEq K] [DecidableEq R]

section Data

/-- Of the states of a process those that matter to a lock. A process that runs may call a lock. -/
inductive Pstate
  | Running
  | Ready
  | Queueing
  | QueueingR
  | QueueingW
deriving DecidableEq

/-- A process, and the lock in whose call it is at `sched`. -/
structure Proc (P L : Type) where
  qnext : Option P
  state : Pstate
  call : Option L

structure QLock (P : Type) extends Ends P where
  locked : Bool

/-- The counts are `int`, and there are less than `2 ^ 31` processes. -/
structure RWlock (P : Type) extends Ends P where
  readers : ℤ
  writer : ℤ

/-- What has happened to a lock. The code does not look at it. -/
structure Log (P : Type) where
  /-- Those that hold it alone, and those that hold it to read. -/
  held : List P
  readers : List P
  /-- Those that had to wait, in the order in which they came, and those that got the lock after it. -/
  asked : List P
  granted : List P

/-- All locks of one kind and of the other, over the same processes. -/
structure Sys (P K R : Type) where
  proc : P → Proc P (K ⊕ R)
  q : K → QLock P
  rw : R → RWlock P
  log : K ⊕ R → Log P

end Data

section Queue

variable {L : Type}

def ready (proc : P → Proc P L) (p : P) : P → Proc P L :=
  Function.update proc p { proc p with state := .Ready }

/-- A process goes to the end of a queue and to sleep. -/
def wait (proc : P → Proc P L) (e : Ends P) (up : P) (st : Pstate) (i : L) : (P → Proc P L) × Ends P :=
  let linked := match e.tail with
    | none => proc
    | some p => Function.update proc p { proc p with qnext := some up }
  (Function.update linked up ⟨none, st, some i⟩,
    ⟨if e.tail = none then some up else e.head, some up⟩)

/-- The ends of a queue after its first process has left. -/
def unlink (proc : P → Proc P L) (e : Ends P) (p : P) : Ends P :=
  ⟨(proc p).qnext, if (proc p).qnext = none then none else e.tail⟩

end Queue

section QLock

def Sys.record (s : Sys P K R) (i : K ⊕ R) (f : Log P → Log P) : K ⊕ R → Log P :=
  Function.update s.log i (f (s.log i))

def qlock (s : Sys P K R) (up : P) (k : K) : Sys P K R :=
  let q := s.q k
  if q.locked = false then
    { s with
      q := Function.update s.q k { q with locked := true }
      log := s.record (.inl k) fun g => { g with held := up :: g.held } }
  else
    let w := wait s.proc q.toEnds up .Queueing (.inl k)
    { s with
      proc := w.1
      q := Function.update s.q k { q with toEnds := w.2 }
      log := s.record (.inl k) fun g => { g with asked := g.asked ++ [up] } }

/-- `got` tells whether `canlock` finds `q->use` free. -/
def canqlock (s : Sys P K R) (up : P) (k : K) (got : Bool) : Sys P K R :=
  let q := s.q k
  if got = false then s
  else if q.locked then s
  else
    { s with
      q := Function.update s.q k { q with locked := true }
      log := s.record (.inl k) fun g => { g with held := up :: g.held } }

def qunlock (s : Sys P K R) (up : P) (k : K) : Sys P K R :=
  let q := s.q k
  match q.head with
  | some p =>
    { s with
      proc := ready s.proc p
      q := Function.update s.q k { q with toEnds := unlink s.proc q.toEnds p }
      log := s.record (.inl k) fun g => { g with held := p :: g.held.erase up, granted := g.granted ++ [p] } }
  | none =>
    { s with
      q := Function.update s.q k { q with locked := false }
      log := s.record (.inl k) fun g => { g with held := g.held.erase up } }

end QLock

section RWlock

def rlock (s : Sys P K R) (up : P) (r : R) : Sys P K R :=
  let q := s.rw r
  if q.writer = 0 ∧ q.head = none then
    { s with
      rw := Function.update s.rw r { q with readers := q.readers + 1 }
      log := s.record (.inr r) fun g => { g with readers := up :: g.readers } }
  else
    let w := wait s.proc q.toEnds up .QueueingR (.inr r)
    { s with
      proc := w.1
      rw := Function.update s.rw r { q with toEnds := w.2 }
      log := s.record (.inr r) fun g => { g with asked := g.asked ++ [up] } }

def canrlock (s : Sys P K R) (up : P) (r : R) : Sys P K R :=
  let q := s.rw r
  if q.writer = 0 ∧ q.head = none then
    { s with
      rw := Function.update s.rw r { q with readers := q.readers + 1 }
      log := s.record (.inr r) fun g => { g with readers := up :: g.readers } }
  else s

/-- Nothing is the panic. -/
def runlock (s : Sys P K R) (up : P) (r : R) : Option (Sys P K R) :=
  let q := s.rw r
  let readers := q.readers - 1
  match q.head with
  | none => some
    { s with
      rw := Function.update s.rw r { q with readers := readers }
      log := s.record (.inr r) fun g => { g with readers := g.readers.erase up } }
  | some p =>
    if readers > 0 then some
      { s with
        rw := Function.update s.rw r { q with readers := readers }
        log := s.record (.inr r) fun g => { g with readers := g.readers.erase up } }
    else if (s.proc p).state ≠ .QueueingW then none
    else some
      { s with
        proc := ready s.proc p
        rw := Function.update s.rw r { toEnds := unlink s.proc q.toEnds p, readers := readers, writer := 1 }
        log := s.record (.inr r) fun g =>
          { g with readers := g.readers.erase up, held := p :: g.held, granted := g.granted ++ [p] } }

def wlock (s : Sys P K R) (up : P) (r : R) : Sys P K R :=
  let q := s.rw r
  if q.readers = 0 ∧ q.writer = 0 then
    { s with
      rw := Function.update s.rw r { q with writer := 1 }
      log := s.record (.inr r) fun g => { g with held := up :: g.held } }
  else
    let w := wait s.proc q.toEnds up .QueueingW (.inr r)
    { s with
      proc := w.1
      rw := Function.update s.rw r { q with toEnds := w.2 }
      log := s.record (.inr r) fun g => { g with asked := g.asked ++ [up] } }

/-- The loop that wakes the readers at the head of a queue, with those it has woken. -/
def wakeloop {L : Type} : ℕ → (P → Proc P L) → Option P → List P →
    Option ((P → Proc P L) × Option P × List P)
  | _, proc, none, woken => some (proc, none, woken)
  | fuel, proc, some p, woken =>
    if (proc p).state = .QueueingR then
      match fuel with
      | 0 => none
      | fuel + 1 => wakeloop fuel (ready proc p) (proc p).qnext (woken ++ [p])
    else some (proc, some p, woken)

/-- Nothing is the panic, or a loop that does not end. -/
def wunlock [Fintype P] (s : Sys P K R) (up : P) (r : R) : Option (Sys P K R) :=
  let q := s.rw r
  match q.head with
  | none => some
    { s with
      rw := Function.update s.rw r { q with writer := 0 }
      log := s.record (.inr r) fun g => { g with held := g.held.erase up } }
  | some p =>
    if (s.proc p).state = .QueueingW then some
      { s with
        proc := ready s.proc p
        rw := Function.update s.rw r { q with toEnds := unlink s.proc q.toEnds p }
        log := s.record (.inr r) fun g => { g with held := p :: g.held.erase up, granted := g.granted ++ [p] } }
    else if (s.proc p).state ≠ .QueueingR then none
    else
      (wakeloop (Fintype.card P) s.proc (some p) []).map fun w =>
        { s with
          proc := w.1
          rw := Function.update s.rw r
            { head := w.2.1
              tail := if w.2.1 = none then none else q.tail
              readers := q.readers + w.2.2.length
              writer := 0 }
          log := s.record (.inr r) fun g =>
            { g with held := g.held.erase up, readers := w.2.2 ++ g.readers, granted := g.granted ++ w.2.2 } }

end RWlock

section Runs

variable [Fintype P]

inductive Act (P K R : Type)
  | qlock (up : P) (k : K)
  | canqlock (up : P) (k : K) (got : Bool)
  | qunlock (up : P) (k : K)
  | rlock (up : P) (r : R)
  | canrlock (up : P) (r : R)
  | runlock (up : P) (r : R)
  | wlock (up : P) (r : R)
  | wunlock (up : P) (r : R)
  /-- A process that is ready runs, and returns from the call it was in. -/
  | sched (p : P)

def step (s : Sys P K R) : Act P K R → Option (Sys P K R)
  | .qlock up k => some (qlock s up k)
  | .canqlock up k got => some (canqlock s up k got)
  | .qunlock up k => some (qunlock s up k)
  | .rlock up r => some (rlock s up r)
  | .canrlock up r => some (canrlock s up r)
  | .runlock up r => runlock s up r
  | .wlock up r => some (wlock s up r)
  | .wunlock up r => wunlock s up r
  | .sched p => some { s with proc := Function.update s.proc p { s.proc p with state := .Running, call := none } }

/-- A call is made by a process that runs, and undoes only what that process holds. -/
def Allowed (s : Sys P K R) : Act P K R → Prop
  | .qlock up _ | .canqlock up _ _ | .rlock up _ | .canrlock up _ | .wlock up _ => (s.proc up).state = .Running
  | .qunlock up k => (s.proc up).state = .Running ∧ up ∈ (s.log (.inl k)).held
  | .runlock up r => (s.proc up).state = .Running ∧ up ∈ (s.log (.inr r)).readers
  | .wunlock up r => (s.proc up).state = .Running ∧ up ∈ (s.log (.inr r)).held
  | .sched p => (s.proc p).state = .Ready

/-- All locks are as they are allocated, filled with zeroes, and all processes run. -/
structure Start (s : Sys P K R) : Prop where
  proc : ∀ p, (s.proc p).state = .Running ∧ (s.proc p).call = none
  q : ∀ k, s.q k = ⟨⟨none, none⟩, false⟩
  rw : ∀ r, s.rw r = ⟨⟨none, none⟩, 0, 0⟩
  log : ∀ i, s.log i = ⟨[], [], [], []⟩

inductive Reachable : Sys P K R → Prop
  | start {s : Sys P K R} (h : Start s) : Reachable s
  | step {s s' : Sys P K R} {a : Act P K R} (h : Reachable s) (ha : Allowed s a) (hs : step s a = some s') : Reachable s'

end Runs

end Petele.Qlock
