import Petele.Lib.Slots
import Mathlib.Logic.Function.Basic

namespace Petele.Thread

open Lib

variable {K C V : Type} [DecidableEq K] [DecidableEq C]

section Data

inductive Op
  | CHANSND
  | CHANRCV
  | CHANNOP
deriving DecidableEq

/-- `(CHANSND+CHANRCV) - op` -/
def Op.other : Op → Op
  | .CHANSND => .CHANRCV
  | .CHANRCV => .CHANSND
  | .CHANNOP => .CHANNOP

/-- An entry of the array that `alt` gets. -/
structure Alt (C V : Type) where
  op : Op
  c : Option C
  /-- What the pointer points to, if it is not nil. -/
  v : Option V
  /-- `err == errcl` -/
  err : Bool

/-- A channel. An entry of its queue is a call and the place in its array. There are fewer operations
than an `int` can count. -/
structure Channel (K V : Type) where
  s : ℕ
  n : ℕ
  f : ℕ
  closed : ℕ
  v : ℕ → V
  qentry : List (Option (K × ℕ))

/-- What `_threadrendezvous` returns: 0, `Closed` or `Intred`. -/
inductive Res
  | met
  | closed
  | intr
deriving DecidableEq

/-- What follows the rendezvous of `altexec` and of `chanclose`. -/
inductive Next (C : Type)
  | ret (i : ℕ)
  | close (c : C) (i : ℕ)

/-- Where a call of `alt` or `chanclose` is. A thread makes one call after another, but here any may
run at any time. -/
inductive Phase (K C : Type)
  | ready
  /-- In the rendezvous at its own tag. -/
  | wait
  /-- After it, before the lock. -/
  | woken (r : Res)
  /-- In the rendezvous at the tag of another call. -/
  | meet (b : K) (next : Next C)
  /-- In the loop of `chanclose`, before the lock. -/
  | closing (c : C) (i : ℕ)
  | done (ret : Option ℕ)
  | ended (ok : Bool)

/-- A send or a receive that has been committed under the lock. -/
structure Event (K C V : Type) where
  call : K
  op : Op
  chan : C
  val : V

structure St (K C V : Type) where
  chan : C → Channel K V
  phase : K → Phase K C
  /-- The variable `c` of a call of `alt`, to which the tags of its entries point. -/
  tag : K → Option C
  alts : K → List (Alt C V)
  /-- One of the calls of `abort` or an assertion. -/
  aborted : Bool
  -- The code does not have the rest: what has been committed, the array of a call as its caller gave it,
  -- who has committed to a call that waits, and who has woken it.
  log : List (Event K C V)
  given : K → List (Alt C V)
  parties : K → List K
  wakers : K → List K

end Data

section Locked

variable (zero : V) (st : St K C V)

def isopenfor (ch : Channel K V) (op : Op) : Bool := ch.closed = 0 || (op = .CHANRCV && 0 < ch.n)

/-- The entry waits for such an operation and nobody has committed to it. -/
def waits (op : Op) : Option (K × ℕ) → Bool
  | none => false
  | some (k, i) => (st.alts k)[i]?.map Alt.op = some op && st.tag k = none

def canexec (op : Op) (c : C) : Bool :=
  (st.chan c).qentry.any (waits st op.other) ||
    (op = .CHANSND && (st.chan c).n < (st.chan c).s || op = .CHANRCV && 0 < (st.chan c).n)

/-- The slot of the buffer and the channel after it. Nothing is the call of `abort`. -/
def altexecbuffered (ch : Channel K V) (op : Op) (willreplace : Bool) : Option (ℕ × Channel K V) :=
  if op = .CHANRCV ∧ 0 < ch.n then some (ch.f % ch.s, { ch with n := if willreplace then ch.n else ch.n - 1, f := ch.f + 1 })
  else if op = .CHANSND ∧ ch.n < ch.s then some ((ch.f + ch.n) % ch.s, { ch with n := if willreplace then ch.n else ch.n + 1 })
  else none

/-- What the destination points to after the copy. -/
def altcopy (dst src : Option V) : Option V := dst.map fun _ => src.getD zero

/-- The value of an entry changes. -/
def setv (l : List (Alt C V)) (i : ℕ) (v : Option V) : List (Alt C V) := l.modify i fun a => { a with v := v }

/-- The commitment to the entry of another call. -/
def commit (k : K) (i : ℕ) (c : C) (b : K) (events : List (Event K C V)) : St K C V :=
  { st with
    tag := Function.update st.tag b (some c)
    phase := Function.update st.phase k (.meet b (.ret i))
    parties := Function.update st.parties b (st.parties b ++ [k])
    log := st.log ++ events }

/-- The rendezvous with a waiter. -/
def altexecwaiter (k : K) (i : ℕ) (a : Alt C V) (c : C) (b : K) (j : ℕ) : St K C V :=
  let ch := st.chan c
  let waiter := (st.alts b)[j]?.bind Alt.v
  if ch.s ≠ 0 ∧ ch.n ≠ 0 then
    if a.op ≠ .CHANRCV then { st with aborted := true }
    else
      match altexecbuffered ch a.op true with
      | none => { st with aborted := true }
      | some (slot, ch') =>
        commit { st with
          chan := Function.update st.chan c { ch' with v := Function.update ch'.v slot (waiter.getD zero) }
          alts := Function.update st.alts k (setv (st.alts k) i (altcopy zero a.v (some (ch.v slot)))) } k i c b
          [⟨k, .CHANRCV, c, ch.v slot⟩, ⟨b, .CHANSND, c, waiter.getD zero⟩]
  else if a.op = .CHANRCV then
    commit { st with alts := Function.update st.alts k (setv (st.alts k) i (altcopy zero a.v waiter)) } k i c b
      [⟨k, .CHANRCV, c, waiter.getD zero⟩, ⟨b, .CHANSND, c, waiter.getD zero⟩]
  else
    commit { st with alts := Function.update st.alts b (setv (st.alts b) j (altcopy zero waiter a.v)) } k i c b
      [⟨k, .CHANSND, c, a.v.getD zero⟩, ⟨b, .CHANRCV, c, a.v.getD zero⟩]

/-- The use of the buffer. -/
def altexecalone (k : K) (i : ℕ) (a : Alt C V) (c : C) : St K C V :=
  let ch := st.chan c
  match altexecbuffered ch a.op false with
  | none => { st with aborted := true }
  | some (slot, ch') =>
    if a.op = .CHANRCV then
      { st with
        chan := Function.update st.chan c ch'
        alts := Function.update st.alts k (setv (st.alts k) i (altcopy zero a.v (some (ch.v slot))))
        phase := Function.update st.phase k (.done (some i))
        log := st.log ++ [⟨k, .CHANRCV, c, ch.v slot⟩] }
    else
      { st with
        chan := Function.update st.chan c { ch' with v := Function.update ch'.v slot (a.v.getD zero) }
        phase := Function.update st.phase k (.done (some i))
        log := st.log ++ [⟨k, .CHANSND, c, a.v.getD zero⟩] }

/-- `j` is the choice of a waiter by `nrand`. -/
def altexec (k : K) (i : ℕ) (a : Alt C V) (c : C) (j : ℕ) : Option (St K C V) :=
  let q := (st.chan c).qentry
  if q.any (waits st a.op.other) then
    q[j]?.join.bind fun b => if waits st a.op.other (some b) then some (altexecwaiter zero st k i a c b.1 b.2) else none
  else some (altexecalone zero st k i a c)

/-- The entry can proceed. -/
def able (a : Alt C V) : Bool :=
  a.op ≠ .CHANNOP && match a.c with
    | none => false
    | some c => isopenfor (st.chan c) a.op && canexec st a.op c

/-- The entry is for a channel that is open for it. -/
def opened (chan : C → Channel K V) (a : Alt C V) : Bool :=
  a.op ≠ .CHANNOP && match a.c with
    | none => false
    | some c => isopenfor (chan c) a.op

/-- The last place in a list with a property. -/
def lastidx {α : Type} (p : α → Bool) (l : List α) : Option ℕ := ((l.zipIdx.filter fun x => p x.1).getLast?).map Prod.snd

def enqueue (k : K) (i : ℕ) (c : C) (chan : C → Channel K V) : C → Channel K V :=
  Function.update chan c { chan c with qentry := fill 15 (k, i) (chan c).qentry }

def dequeue (k : K) (i : ℕ) (c : C) (chan : C → Channel K V) : C → Channel K V :=
  Function.update chan c { chan c with qentry := vacate (k, i) (chan c).qentry }

/-- The entries from `i` on are enqueued where the channels are open. -/
def enqueues (k : K) : (i : ℕ) → List (Alt C V) → (C → Channel K V) → C → Channel K V
  | _, [], chan => chan
  | i, a :: l, chan => enqueues k (i + 1) l (if opened chan a then (a.c.map fun c => enqueue k i c chan).getD chan else chan)

def dequeues (k : K) : (i : ℕ) → List (Alt C V) → (C → Channel K V) → C → Channel K V
  | _, [], chan => chan
  | i, a :: l, chan => dequeues k (i + 1) l (if a.op ≠ .CHANNOP then (a.c.map fun c => dequeue k i c chan).getD chan else chan)

/-- Nothing can proceed. -/
def block (k : K) (alts : List (Alt C V)) : St K C V :=
  if alts.any (opened st.chan) then
    { st with
      chan := enqueues k 0 alts st.chan
      tag := Function.update st.tag k none
      phase := Function.update st.phase k .wait }
  else
    match lastidx (fun a => a.op ≠ .CHANNOP && !a.err) alts with
    | some i =>
      { st with
        alts := Function.update st.alts k (alts.modify i fun a => { a with err := true })
        phase := Function.update st.phase k (.done (some i)) }
    | none =>
      if alts.any fun a => a.op ≠ .CHANNOP && a.err then { st with phase := Function.update st.phase k (.done none) }
      else { st with tag := Function.update st.tag k none, phase := Function.update st.phase k .wait }

/-- The part of `alt` before it waits. `i` and `j` are choices, and `nb` tells `CHANNOBLK`. -/
def alt (k : K) (alts : List (Alt C V)) (nb : Bool) (i j : ℕ) : Option (St K C V) :=
  let st := { st with alts := Function.update st.alts k alts, given := Function.update st.given k alts }
  if alts.any fun a => a.op ≠ .CHANNOP && a.c.isNone then some { st with phase := Function.update st.phase k (.done none) }
  else if alts.any (able st) then
    alts[i]?.bind fun a => if able st a then a.c.bind fun c => altexec zero st k i a c j else none
  else if nb then some { st with phase := Function.update st.phase k (.done (some alts.length)) }
  else some (block st k alts)

/-- The entry is for the channel that a call has been woken for. -/
def selected (c : Option C) (a : Alt C V) : Bool := a.op ≠ .CHANNOP && c.isSome && a.c = c

/-- What the loop after the rendezvous makes of an entry. -/
def told (c : Option C) (e : Bool) (a : Alt C V) : Alt C V := if selected c a then { a with err := e } else a

/-- The part of `alt` after it has waited. -/
def wake (k : K) (r : Res) : St K C V :=
  if r = .intr ∧ st.tag k ≠ none then { st with phase := Function.update st.phase k .wait }
  else
    let c := if r = .intr then none else st.tag k
    let a := lastidx (selected c) (st.alts k)
    { st with
      alts := Function.update st.alts k ((st.alts k).map (told c (r = .closed)))
      chan := dequeues k 0 (st.alts k) st.chan
      phase := Function.update st.phase k (.done a)
      aborted := st.aborted || (a.isNone && r ≠ .intr) }

/-- The entry fails because of the close. -/
def closable (c : C) : Option (K × ℕ) → Bool
  | none => false
  | some (k, i) =>
    st.tag k = none && match (st.alts k)[i]?.map Alt.op with
      | some .CHANSND => true
      | some .CHANRCV => (st.chan c).n = 0
      | _ => false

/-- The loop of `chanclose` under the lock. -/
def closeloop (k : K) (c : C) (i : ℕ) : St K C V :=
  let q := (st.chan c).qentry
  match (List.range q.length).find? fun j => i ≤ j && closable st c q[j]?.join with
  | some j =>
    match q[j]?.join with
    | some (b, _) =>
      { st with
        tag := Function.update st.tag b (some c)
        parties := Function.update st.parties b (st.parties b ++ [k])
        phase := Function.update st.phase k (.meet b (.close c (j + 1))) }
    | none => st
  | none =>
    { st with
      chan := Function.update st.chan c { st.chan c with closed := 2 }
      phase := Function.update st.phase k (.ended true) }

def chanclose (k : K) (c : C) : St K C V :=
  if (st.chan c).closed ≠ 0 then { st with phase := Function.update st.phase k (.ended false) }
  else closeloop { st with chan := Function.update st.chan c { st.chan c with closed := 1 } } k c 0

end Locked

section Rendezvous

variable (st : St K C V)

/-- The call whose tag the rendezvous is at. -/
def Phase.rendezvous (k : K) : Phase K C → Option K
  | .wait => some k
  | .meet b _ => some b
  | _ => none

/-- What a call gives to the other. -/
def Phase.offer : Phase K C → Res
  | .meet _ (.close _ _) => .closed
  | _ => .met

/-- A call goes on after it has got something. -/
def Phase.after (r : Res) : Phase K C → Phase K C
  | .wait => .woken r
  | .meet _ (.ret i) => .done (some i)
  | .meet _ (.close c i) => .closing c i
  | p => p

/-- Who wakes a call. -/
def Phase.wakers (other : K) : Phase K C → List K
  | .wait => [other]
  | _ => []

/-- Two calls meet. -/
def meeting (k₁ k₂ : K) : Option (St K C V) :=
  let p₁ := st.phase k₁
  let p₂ := st.phase k₂
  if k₁ ≠ k₂ ∧ (p₁.rendezvous k₁).isSome ∧ p₁.rendezvous k₁ = p₂.rendezvous k₂ then
    some { st with
      phase := Function.update (Function.update st.phase k₁ (p₁.after p₂.offer)) k₂ (p₂.after p₁.offer)
      wakers := Function.update (Function.update st.wakers k₁ (st.wakers k₁ ++ p₁.wakers k₂)) k₂ (st.wakers k₂ ++ p₂.wakers k₁) }
  else none

/-- A rendezvous is interrupted: a waiter looks at its tag, the others try again. -/
def interrupt (k : K) : Option (St K C V) :=
  match st.phase k with
  | .wait => some { st with phase := Function.update st.phase k (.woken .intr) }
  | .meet _ _ => some st
  | _ => none

end Rendezvous

section Runs

variable (zero : V)

inductive Act (K C V : Type)
  | alt (k : K) (alts : List (Alt C V)) (nb : Bool) (i j : ℕ)
  | wake (k : K)
  | chanclose (k : K) (c : C)
  | closeloop (k : K)
  | meeting (k₁ k₂ : K)
  | interrupt (k : K)

def step (st : St K C V) : Act K C V → Option (St K C V)
  | .alt k alts nb i j =>
    match st.phase k with
    | .ready => alt zero st k alts nb i j
    | _ => none
  | .wake k =>
    match st.phase k with
    | .woken r => some (wake st k r)
    | _ => none
  | .chanclose k c =>
    match st.phase k with
    | .ready => some (chanclose st k c)
    | _ => none
  | .closeloop k =>
    match st.phase k with
    | .closing c i => some (closeloop st k c i)
    | _ => none
  | .meeting k₁ k₂ => meeting st k₁ k₂
  | .interrupt k => interrupt st k

section Runop

variable (k : K) (op : Op) (c : Option C) (v : Option V) (nb : Bool) (i j : ℕ)

def runop : Act K C V := .alt k [⟨op, c, v, false⟩] nb i j

def recv : Act K C V := runop k .CHANRCV c v false i j

def nbrecv : Act K C V := runop k .CHANRCV c v true i j

def send : Act K C V := runop k .CHANSND c v false i j

def nbsend : Act K C V := runop k .CHANSND c v true i j

/-- What `runop` makes of the result of `alt`. -/
def runret (st : St K C V) (k : K) : Option Int :=
  match st.phase k with
  | .done none => some (-1)
  | .done (some 1) => some 0
  | .done (some 0) => (st.alts k)[0]?.map fun a => if a.err then -1 else 1
  | _ => none

end Runop

/-- A channel is in an array at most once. -/
def Distinct (alts : List (Alt C V)) : Prop :=
  ∀ (i j : ℕ) (a b : Alt C V), alts[i]? = some a → alts[j]? = some b → a.op ≠ .CHANNOP → b.op ≠ .CHANNOP → a.c ≠ none → a.c = b.c → i = j

def Allowed : Act K C V → Prop
  | .alt _ alts _ _ _ => Distinct alts
  | _ => True

/-- No entry behind the place `i` of the array is for the channel. -/
def Last (alts : List (Alt C V)) (c : C) (i : ℕ) : Prop :=
  ∀ (j : ℕ) (a : Alt C V), i < j → alts[j]? = some a → a.op ≠ .CHANNOP → a.c ≠ some c

/-- A waiter that a call commits to is the last entry of its array for the channel. -/
def LastMet (st : St K C V) : Act K C V → Prop
  | .alt _ alts _ i j => ∀ (a : Alt C V) (c : C) (b : K) (l : ℕ), alts[i]? = some a → a.c = some c →
      (st.chan c).qentry[j]?.join = some (b, l) → waits st a.op.other (some (b, l)) = true → Last (st.alts b) c l
  | _ => True

/-- Channels as `chancreate` makes them, and no call. -/
structure Start (st : St K C V) : Prop where
  chan : ∀ c, (st.chan c).n = 0 ∧ (st.chan c).closed = 0 ∧ (st.chan c).qentry = []
  phase : ∀ k, st.phase k = .ready
  aborted : st.aborted = false
  log : st.log = []
  given : ∀ k, st.given k = st.alts k
  parties : ∀ k, st.parties k = []
  wakers : ∀ k, st.wakers k = []

inductive Reachable : St K C V → Prop
  | start {st : St K C V} (h : Start st) : Reachable st
  | step {st st' : St K C V} {a : Act K C V} (h : Reachable st) (ha : Allowed a) (hs : step zero st a = some st') : Reachable st'

/-- The states of the runs of which each step is one that `ok` tells of. -/
inductive Reached (ok : St K C V → Act K C V → Prop) : St K C V → Prop
  | start {st : St K C V} (h : Start st) : Reached ok st
  | step {st st' : St K C V} {a : Act K C V} (h : Reached ok st) (ha : ok st a) (hs : step zero st a = some st') : Reached ok st'

end Runs

end Petele.Thread
