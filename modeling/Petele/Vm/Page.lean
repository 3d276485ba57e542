import Mathlib
import Petele.Lib.Dlist

namespace Petele.Vm

open Lib

variable {P I : Type} [DecidableEq P] [DecidableEq I]

section Data

def PGSHFT : ℕ := 12

def PGHSIZE : ℕ := 1 <<< 9

def PTEPERTAB : ℕ := 256

/-- The pages, a function for each field, and the allocator. -/
structure Mem (P I : Type) where
  va : P → ℕ
  daddr : P → ℕ
  ref : P → ℤ
  color : P → ℕ
  lg2size : P → ℕ
  image : P → Option I
  next : P → Option P
  prev : P → Option P
  hash : P → Option P
  /-- What the page holds. -/
  data : P → List UInt8
  head : Option P
  tail : Option P
  freecount : ℤ
  /-- `palloc.hash` -/
  bucket : ℕ → Option P
  /-- The reference counts of the images. -/
  iref : I → ℤ

/-- What does not change after the start. -/
structure Env (I : Type) where
  highwater : ℕ
  getpgcolor : ℕ → ℕ
  notext : I → Bool

def pghash (daddr : ℕ) : ℕ := (daddr >>> PGSHFT) % PGHSIZE

end Data

section FreeList

variable (m : Mem P I) (p : P)

def pageunchain : Mem P I :=
  { m with
    next := Function.update (relinked m.next (m.prev p) (m.next p)) p none
    prev := Function.update (relinked m.prev (m.next p) (m.prev p)) p none
    head := if m.prev p = none then m.next p else m.head
    tail := if m.next p = none then m.prev p else m.tail
    freecount := m.freecount - 1 }

def pagechaintail : Mem P I :=
  { m with
    next := Function.update (relinked m.next m.tail (some p)) p none
    prev := Function.update m.prev p m.tail
    head := if m.tail = none then some p else m.head
    tail := some p
    freecount := m.freecount + 1 }

def pagechainhead : Mem P I :=
  { m with
    next := Function.update m.next p m.head
    prev := Function.update (relinked m.prev m.head (some p)) p none
    tail := if m.head = none then some p else m.tail
    head := some p
    freecount := m.freecount + 1 }

end FreeList

section Cache

/-- The loops over a chain: the first page that passes `test` and the one before it. -/
def scan (next : P → Option P) (test : P → Bool) : ℕ → Option P → Option P → Option (Option P × P)
  | _, _, none => none
  | 0, _, some _ => none
  | fuel + 1, l, some f => if test f then some (l, f) else scan next test fuel (some f) (next f)

variable [Fintype P] (e : Env I) (m : Mem P I)

def putimage (i : I) : Mem P I :=
  if e.notext i then m else { m with iref := Function.update m.iref i (m.iref i - 1) }

/-- A page leaves the chain `h`, where `l` is the page before it. -/
def unhash (h : ℕ) (l : Option P) (f : P) : Mem P I :=
  { m with
    hash := relinked m.hash l (m.hash f)
    bucket := if l = none then Function.update m.bucket h (m.hash f) else m.bucket }

def clear (p : P) : Mem P I :=
  { m with image := Function.update m.image p none, daddr := Function.update m.daddr p 0 }

def uncachepage (p : P) : Mem P I :=
  match m.image p with
  | none => m
  | some i =>
    let h := pghash (m.daddr p)
    let m := match scan m.hash (· = p) (Fintype.card P) none (m.bucket h) with
      | some (l, f) => unhash m h l f
      | none => m
    clear (putimage e m i) p

/-- Nothing is the panic. -/
def cachepage (p : P) (i : I) : Option (Mem P I) :=
  match m.image p with
  | some _ => none
  | none =>
    let h := pghash (m.daddr p)
    some { m with
      iref := Function.update m.iref i (m.iref i + 1)
      image := Function.update m.image p (some i)
      hash := Function.update m.hash p (m.bucket h)
      bucket := Function.update m.bucket h (some p) }

/-- The page caches the address of the image. -/
def caches (i : I) (daddr : ℕ) (f : P) : Bool := m.image f = some i && m.daddr f = daddr

def cachedel (i : I) (daddr : ℕ) : Mem P I :=
  let h := pghash daddr
  match scan m.hash (caches m i daddr) (Fintype.card P) none (m.bucket h) with
  | none => m
  | some (l, f) =>
    clear (putimage e (unhash m h l f) i) f

def lookpage (i : I) (daddr : ℕ) : Mem P I × Option P :=
  match scan m.hash (caches m i daddr) (Fintype.card P) none (m.bucket (pghash daddr)) with
  | none => (m, none)
  | some (_, f) =>
    let m := { m with ref := Function.update m.ref f (m.ref f + 1) }
    (if m.ref f = 1 then pageunchain m f else m, some f)

end Cache

section Alloc

variable [Fintype P] (e : Env I) (m : Mem P I)

/-- The loop of `pagereclaim`. Nothing is left when it does not end. -/
def reclaimloop : ℕ → Mem P I → Option P → ℤ → Option (Mem P I)
  | _, m, none, _ => some m
  | 0, _, some _, _ => none
  | fuel + 1, m, some p, npages =>
    if m.image p ≠ none ∧ npages > 0 then
      if m.ref p = 0 then
        let m := pagechainhead (pageunchain (uncachepage e m p) p) p
        reclaimloop fuel m (m.prev p) (npages - 1)
      else reclaimloop fuel m (m.prev p) npages
    else some m

def pagereclaim (npages : ℤ) : Option (Mem P I) := reclaimloop e (Fintype.card P) m m.tail npages

/-- The first free page of a colour. -/
def colored (color : ℕ) : Option P :=
  (scan m.next (fun p => m.color p = color) (Fintype.card P) none m.head).map Prod.snd

/-- A free page, of the colour if there is one. -/
def pick (color : ℕ) : Option (Mem P I × P) :=
  match colored m color with
  | some p => some (m, p)
  | none => m.head.map fun p => ({ m with color := Function.update m.color p color }, p)

/-- `kp` tells a kernel process. When memory is tight no page is returned after `pagewait`: a
caller whose segment is not locked asks again. -/
def newpage (clear : Bool) (va : ℕ) (kp : Bool) : Option (Mem P I × Option P) :=
  if m.freecount ≤ e.highwater ∧ (kp = false ∨ m.freecount ≤ 0) then
    (pagereclaim e m (e.highwater / 2 : ℕ)).map fun m => (m, none)
  else
    (pick m (e.getpgcolor va)).bind fun (m, p) =>
      let m := pageunchain m p
      if m.ref p ≠ 0 then none
      else
        let m := uncachepage e m p
        let m := { m with
          ref := Function.update m.ref p (m.ref p + 1)
          va := Function.update m.va p va }
        let m := if clear then { m with data := Function.update m.data p (List.replicate (1 <<< m.lg2size p) 0) } else m
        some (m, some p)

def putpage (p : P) : Option (Mem P I) :=
  let m := { m with ref := Function.update m.ref p (m.ref p - 1) }
  if m.ref p > 0 then some m
  else if m.ref p < 0 then none
  else if m.image p ≠ none then some (pagechaintail m p)
  else some (pagechainhead m p)

def auxpage : Option (Mem P I × Option P) :=
  if m.freecount ≤ e.highwater then some (m, none)
  else
    m.head.bind fun p =>
      let m := pageunchain m p
      if m.ref p ≠ 0 then none
      else
        let m := { m with ref := Function.update m.ref p (m.ref p + 1) }
        some (uncachepage e m p, some p)

def copypage (f t : P) : Option (Mem P I) :=
  if m.lg2size f ≠ m.lg2size t then none
  else some { m with data := Function.update m.data t (m.data f) }

/-- The part of `duppage` that caches the new version. -/
def recache (p np : P) (i : I) : Option (Mem P I) :=
  let m := uncachepage e (pagechaintail (pageunchain m np) np) np
  let m := { m with
    va := Function.update m.va np (m.va p)
    daddr := Function.update m.daddr np (m.daddr p) }
  (copypage m p np).bind fun m => cachepage m np i

/-- With the result. Run to the end, it finds `palloc` unlocked at the first try. -/
def duppage (p : P) : Option (Mem P I × ℕ) :=
  if m.ref p ≠ 1 then some (m, 0)
  else
    match m.image p with
    | none => some (m, 0)
    | some i =>
      if e.notext i then some (m, 0)
      else if m.lg2size p ≠ PGSHFT then some (uncachepage e m p, 1)
      else if m.freecount ≤ e.highwater then some (uncachepage e m p, 1)
      else
        match colored m (e.getpgcolor (m.va p)) with
        | none => some (uncachepage e m p, 1)
        | some np => (recache e m p np i).map fun m => (uncachepage e m p, 0)

end Alloc

section Segment

/-- What `mfreeseg` reads of a segment. -/
structure Segment (P : Type) where
  base : ℕ
  lg2pgsize : ℕ
  map : List (Option (List (Option P)))

def Segment.ptemapmem (s : Segment P) : ℕ := PTEPERTAB <<< s.lg2pgsize

/-- The loop over the pages of one `Pte` from `j` on: they go to `list`, and the loop ends for good
when `pages` becomes zero. -/
def freepages (next : P → Option P) (list : Option P) (pages : BitVec 32) :
    List (Option P) → (P → Option P) × Option P × BitVec 32 × List (Option P)
  | [] => (next, list, pages, [])
  | pg :: rest =>
    let next' := match pg with
      | none => next
      | some p => Function.update next p list
    let list' := if pg = none then list else pg
    if pages - 1 = 0 then (next', list', 0, none :: rest)
    else
      let r := freepages next' list' (pages - 1) rest
      (r.1, r.2.1, r.2.2.1, none :: r.2.2.2)

/-- The loop over the map from `i` on. -/
def freemap (next : P → Option P) (list : Option P) (pages : BitVec 32) (j : ℕ) :
    List (Option (List (Option P))) → (P → Option P) × Option P × List (Option (List (Option P)))
  | [] => (next, list, [])
  | pte :: rest =>
    if pages = 0 then (next, list, pte :: rest)
    else
      match pte with
      | none =>
        -- an unsigned difference: it may wrap around
        let r := freemap next list (pages - BitVec.ofNat 32 (PTEPERTAB - j)) 0 rest
        (r.1, r.2.1, none :: r.2.2)
      | some pg =>
        let r := freepages next list pages (pg.drop j)
        let pte' := some (pg.take j ++ r.2.2.2)
        if r.2.2.1 = 0 then (r.1, r.2.1, pte' :: rest)
        else
          let r' := freemap r.1 r.2.1 r.2.2.1 0 rest
          (r'.1, r'.2.1, pte' :: r'.2.2)

/-- The loop that frees the pages of `list`. -/
def putlist [Fintype P] : ℕ → Mem P I → Option P → Option (Mem P I)
  | _, m, none => some m
  | 0, _, some _ => none
  | fuel + 1, m, some pg => (putpage m pg).bind fun m' => putlist fuel m' (m.next pg)

def mfreeseg [Fintype P] (m : Mem P I) (s : Segment P) (start top : ℕ) : Option (Mem P I × Segment P) :=
  let pages := BitVec.ofNat 32 ((top - start) >>> s.lg2pgsize)
  let soff := start - s.base
  let j := (soff % s.ptemapmem) >>> s.lg2pgsize
  let i := soff / s.ptemapmem
  let r := freemap m.next none pages j (s.map.drop i)
  (putlist (Fintype.card P) { m with next := r.1 } r.2.1).map fun m =>
    (m, { s with map := s.map.take i ++ r.2.2 })

end Segment

end Petele.Vm
