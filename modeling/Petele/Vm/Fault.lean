import Petele.Vm.PageRun

namespace Petele.Vm

variable {P I : Type} [DecidableEq P] [DecidableEq I] [Fintype P]

section Data

@[irreducible] def PGSZ : ℕ := 1 <<< PGSHFT

theorem PGSZ_eq : PGSZ = 4096 := by
  rw [PGSZ]
  rfl

def PTEMAPMEM : ℕ := PTEPERTAB * PGSZ

def SEGMAPSIZE : ℕ := 65536

def SSEGMAPSIZE : ℕ := 16

inductive SegType
  | TEXT
  | DATA
  | BSS
  | STACK
deriving DecidableEq

structure Pte (P : Type) where
  pages : List (Option P)
  first : ℕ
  last : ℕ

/-- A segment. The pages of the source's segments here are all of the usual size. -/
structure Seg (P I : Type) where
  type : SegType
  base : ℕ
  top : ℕ
  fstart : ℕ
  flen : ℕ
  image : Option I
  ref : ℤ
  map : List (Option (Pte P))
  /-- What memory of its own would hold at an offset. The code does not look at it. -/
  priv : ℕ → UInt8

/-- The file of an image: a header with the text, then the data. -/
structure Aout where
  textlen : ℕ
  datalen : ℕ
  byte : ℕ → UInt8

/-- What does not change after the start. -/
structure World (I : Type) where
  env : Env I
  copymode : ℕ
  file : I → Aout

/-- How a fault ends: the page is there, there was no memory and the process tries again, or the
file cannot be read. -/
inductive Outcome
  | ok
  | again
  | err
deriving DecidableEq

end Data

section Segments

def HOWMANY (x y : ℕ) : ℕ := (x + (y - 1)) / y

def ROUNDUP (x y : ℕ) : ℕ := HOWMANY x y * y

/-- `usize` has 32 bits. -/
def usize (n : ℕ) : ℕ := n % 2 ^ 32

/-- `HOWMANY(size, PTEPERTAB)` for a `usize` -/
def ptes (size : ℕ) : ℕ := usize (size + (PTEPERTAB - 1)) / PTEPERTAB

/-- The length of the map that `newseg` makes. -/
def mapsize (size : ℕ) : ℕ :=
  let mapsize := ptes size
  if mapsize > SSEGMAPSIZE then min (mapsize * 2) SEGMAPSIZE else SSEGMAPSIZE

def newseg (type : SegType) (base top : ℕ) : Option (Seg P I) :=
  if base % PGSZ ≠ 0 ∨ top % PGSZ ≠ 0 then none
  else
    let size := usize ((top - base) / PGSZ)
    if size > SEGMAPSIZE * PTEPERTAB then none
    else some
      { type := type, base := base, top := top, fstart := 0, flen := 0, image := none, ref := 1
        map := List.replicate (mapsize size) none, priv := fun _ => 0 }

def ptealloc : Pte P := ⟨List.replicate PTEPERTAB none, PTEPERTAB, 0⟩

def Pte.within (t : Pte P) (j : ℕ) : Bool := t.first ≤ j && j ≤ t.last

/-- The last used entry that `ptecpy` finds. -/
@[irreducible] def lastused (t : Pte P) : ℕ :=
  (List.range PTEPERTAB).foldl (fun last j => if t.within j && (t.pages[j]?.join).isSome then j else last) 0

def ptecpy (t : Pte P) : Pte P :=
  { pages := t.pages.mapIdx fun j pg => if t.within j then pg else none
    first := t.first
    last := lastused t }

/-- The pages between the first and the last used entry. -/
def Pte.used (t : Pte P) : List P := (t.pages.mapIdx fun j pg => if t.within j then pg else none).filterMap id

def share (m : Mem P I) (l : List P) : Mem P I :=
  l.foldl (fun m p => { m with ref := Function.update m.ref p (m.ref p + 1) }) m

/-- The map of the copy: an entry outside of it would be written to other memory. -/
def copymap (n : List (Option (Pte P))) : List (Option (Pte P)) → Option (List (Option (Pte P)))
  | [] => some n
  | t :: rest =>
    match n with
    | [] => if t.isSome then none else copymap [] rest
    | o :: n => (copymap n rest).map fun map => (match t with | some t => some (ptecpy t) | none => o) :: map

/-- A segment after `dupseg` without sharing, and the new segment if there is one. -/
def dupseg (m : Mem P I) (s : Seg P I) : Option (Mem P I × Seg P I × Option (Seg P I)) :=
  match s.type with
  | .TEXT => some (m, { s with ref := s.ref + 1 }, none)
  | _ =>
    (newseg s.type s.base s.top).bind fun n =>
      let n := if s.type = .DATA then { n with image := s.image, fstart := s.fstart, flen := s.flen } else n
      let m := match n.image with
        | some i => { m with iref := Function.update m.iref i (m.iref i + 1) }
        | none => m
      (copymap n.map s.map).map fun map =>
        (share m (s.map.flatMap fun t => (t.map Pte.used).getD []), s, some { n with map := map, priv := s.priv })

def putpages : Mem P I → List P → Option (Mem P I)
  | m, [] => some m
  | m, p :: l => (putpage m p).bind fun m => putpages m l

/-- The segment is gone when nothing is returned beside the pages. -/
def putseg (w : World I) (m : Mem P I) (s : Seg P I) : Option (Mem P I × Option (Seg P I)) :=
  if s.ref - 1 ≠ 0 then some (m, some { s with ref := s.ref - 1 })
  else
    let m := match s.image with
      | some i => putimage w.env m i
      | none => m
    (putpages m (s.map.flatMap fun t => (t.map Pte.used).getD [])).map fun m => (m, none)

/-- The part of `ibrk` that lets a segment grow. Without memory for the map nothing changes. -/
def ibrk (s : Seg P I) (addr : ℕ) : Seg P I :=
  let newtop := ROUNDUP addr PGSZ
  let newsize := usize ((newtop - s.base) / PGSZ)
  let mapsize := ptes newsize
  if mapsize > SEGMAPSIZE then s
  else { s with top := newtop, map := s.map ++ List.replicate (mapsize - s.map.length) none }

end Segments

section Faults

variable (w : World I)

/-- The entry of a page in the map. -/
def Seg.slot (s : Seg P I) (k : ℕ) : Option P :=
  (s.map[k / PTEPERTAB]?.join).bind fun t => t.pages[k % PTEPERTAB]?.join

def Seg.set (s : Seg P I) (i j : ℕ) (t : Pte P) (pg : P) : Seg P I :=
  { s with map := s.map.set i (some { t with pages := t.pages.set j (some pg) }) }

def touch (t : Pte P) (j : ℕ) : Pte P := { t with first := min t.first j, last := max t.last j }

/-- The bytes read by `pio`. The difference goes through an `int` and is compared as unsigned. -/
def loaded (a : Aout) (flen soff daddr : ℕ) : List UInt8 :=
  let rest : ℤ := flen - soff
  let ask : ℕ := if rest < 0 ∨ rest > PGSZ then PGSZ else rest.toNat
  (List.range PGSZ).map fun b => if b < ask then a.byte (daddr + b) else 0

/-- The page for an empty entry. `ioerr` tells whether reading the file fails. -/
def pio (m : Mem P I) (s : Seg P I) (addr soff : ℕ) (kp ioerr : Bool) : Option (Mem P I × Option P × Outcome) :=
  s.image.bind fun i =>
    let daddr := (s.fstart + soff) % 2 ^ 32
    match lookpage m i daddr with
    | (m, some new) => some (m, some new, .ok)
    | (m, none) =>
      (newpage w.env m false addr kp).bind fun r =>
        match r with
        | (m, none) => some (m, none, .again)
        | (m, some new) =>
          if ioerr then (putpage m new).map fun m => (m, none, .err)
          else
            let m := { m with
              data := Function.update m.data new (loaded (w.file i) s.flen soff daddr)
              daddr := Function.update m.daddr new daddr }
            (cachepage m new i).map fun m => (m, some new, .ok)

/-- The end of the branch for data: copy on write. `lkp` is the page of the entry `t`, `j`. -/
def common (m : Mem P I) (s : Seg P I) (addr i j : ℕ) (t : Pte P) (lkp : P) (read kp : Bool) :
    Option (Mem P I × Seg P I × Outcome) :=
  if read ∧ w.copymode = 0 ∧ s.ref = 1 then some (m, s, .ok)
  else if m.ref lkp ≤ 0 then none
  else
    let dup := if m.ref lkp = 1 ∧ m.image lkp ≠ none then (duppage w.env m lkp).map Prod.fst else some m
    dup.bind fun m =>
      if m.ref lkp > 1 then
        (newpage w.env m false addr kp).bind fun r =>
          match r with
          | (m, none) => some (m, s, .again)
          | (m, some new) =>
            (copypage m lkp new).bind fun m => (putpage m lkp).map fun m => (m, s.set i j t new, .ok)
      else some (m, s, .ok)

/-- The branch for text: demand load. -/
def textfault (m : Mem P I) (s : Seg P I) (addr soff i j : ℕ) (t : Pte P) (kp ioerr : Bool) :
    Option (Mem P I × Seg P I × Outcome) :=
  match t.pages[j]?.join with
  | some _ => some (m, s, .ok)
  | none =>
    (pio w m s addr soff kp ioerr).map fun r =>
      match r with
      | (m, some new, o) => (m, s.set i j t new, o)
      | (m, none, o) => (m, s, o)

/-- The branch for zero fill on demand. -/
def zerofault (m : Mem P I) (s : Seg P I) (addr i j : ℕ) (t : Pte P) (read kp : Bool) :
    Option (Mem P I × Seg P I × Outcome) :=
  match t.pages[j]?.join with
  | some lkp => common w m s addr i j t lkp read kp
  | none =>
    (newpage w.env m true addr kp).bind fun r =>
      match r with
      | (m, none) => some (m, s, .again)
      | (m, some new) => common w m (s.set i j t new) addr i j t new read kp

/-- The branch for data. -/
def datafault (m : Mem P I) (s : Seg P I) (addr soff i j : ℕ) (t : Pte P) (read kp ioerr : Bool) :
    Option (Mem P I × Seg P I × Outcome) :=
  match t.pages[j]?.join with
  | some lkp => common w m s addr i j t lkp read kp
  | none =>
    (pio w m s addr soff kp ioerr).bind fun r =>
      match r with
      | (m, some new, _) => common w m (s.set i j t new) addr i j t new read kp
      | (m, none, o) => some (m, s, o)

/-- An address outside of the map is not fixed. -/
def fixfault (m : Mem P I) (s : Seg P I) (addr : ℕ) (read kp ioerr : Bool) : Option (Mem P I × Seg P I × Outcome) :=
  let addr := addr - addr % PGSZ
  let soff := addr - s.base
  let i := soff / PTEMAPMEM
  let j := (soff % PTEMAPMEM) >>> PGSHFT
  s.map[i]?.bind fun o =>
    let t := touch (o.getD ptealloc) j
    let s := { s with map := s.map.set i (some t) }
    match s.type with
    | .TEXT => textfault w m s addr soff i j t kp ioerr
    | .BSS | .STACK => zerofault w m s addr i j t read kp
    | .DATA => datafault w m s addr soff i j t read kp ioerr

end Faults

end Petele.Vm
