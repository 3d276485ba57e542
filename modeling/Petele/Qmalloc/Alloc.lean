import Mathlib.Logic.Function.Basic
import Petele.Lib.CInt

namespace Petele.Qmalloc

open Petele.Lib

/-- A `Header`, one unit of the heap. Addresses are counted in units: `p + 1` is the header after
`p`, sixteen bytes further on, and `nil` is 0. -/
structure Header where
  next : ℕ
  size : ℕ
  deriving DecidableEq

def Unitsz : ℕ := 16

def NQUICK : ℕ := 4096 / Unitsz + 1

/-- `HOWMANY` on a `uintptr`. -/
def HOWMANY (x y : ℕ) : ℕ := (x + (y - 1)) % 2 ^ 64 / y

def NUNITS (n : ℕ) : ℕ := HOWMANY n Unitsz + 1

/-- What the linker and `mmuinit` fix: where the heap starts and how many units it has, and the
addresses of the allocator's own headers, which are kernel data and lie below it. The difference of
two addresses of the heap, in bytes, is a `vlong`. -/
structure Kernel where
  tailbase : ℕ
  units : ℕ
  misclist : ℕ
  checkval : ℕ
  misclist_pos : 0 < misclist
  misclist_lt : misclist < tailbase
  top : tailbase + units < 2 ^ 60
  half : units < 2 ^ 59

abbrev Mem := ℕ → Header

/-- The allocator's variables. -/
structure Arena where
  mem : Mem
  quicklist : ℕ → ℕ
  rover : ℕ
  tailsize : ℕ
  availnunits : ℕ
  tailptr : ℕ

/-- After `mallocinit`. -/
def mallocinit (k : Kernel) (mem : Mem) : Arena where
  mem := mem
  quicklist := fun _ => 0
  rover := 0
  tailsize := 0
  availnunits := k.units
  tailptr := k.tailbase

/-- The loops over the lists run for at most this many turns; no list is longer than the heap. -/
def Kernel.turns (k : Kernel) : ℕ := 2 * k.units + 4

def morecore (nunits : ℕ) (s : Arena) : Arena × ℕ :=
  let n := if nunits < NUNITS (128 * 1024) then NUNITS (128 * 1024) else nunits
  let n := if n > s.availnunits then s.availnunits else n
  ({ s with availnunits := s.availnunits - n }, n)

/-- `tailsize += n` after `morecore` has answered `n`. -/
def growtail (s : Arena) (n : ℕ) : Arena := { s with tailsize := (s.tailsize + n) % 2 ^ 64 }

def tailalloc (k : Kernel) (s : Arena) (n : ℕ) : Arena × ℕ :=
  ({ s with
      tailsize := (s.tailsize + 2 ^ 64 - n) % 2 ^ 64
      tailptr := (s.tailptr + n) % 2 ^ 60
      mem := Function.update s.mem s.tailptr ⟨k.checkval, n⟩ }, s.tailptr)

/-- The loop of `qfreeinternal` that looks for the neighbours of `p` on the misc list. -/
def neighbour (mem : Mem) (p : ℕ) : ℕ → ℕ → Option ℕ
  | 0, _ => none
  | fuel + 1, q =>
    if p > q ∧ p < (mem q).next then some q
    else if q ≥ (mem q).next ∧ (p > q ∨ p < (mem q).next) then some q
    else neighbour mem p fuel (mem q).next

/-- `p` takes in the block after it if it ends where that one starts. -/
def joinnext (mem : Mem) (p q : ℕ) : Mem :=
  let r := (mem q).next
  if p + (mem p).size = r then
    Function.update mem p ⟨(mem r).next, (mem p).size + (mem r).size⟩
  else Function.update mem p { mem p with next := r }

/-- `q` takes `p` in if it ends where `p` starts. -/
def joinprev (mem : Mem) (p q : ℕ) : Mem :=
  if q + (mem q).size = p then
    Function.update mem q ⟨(mem p).next, (mem q).size + (mem p).size⟩
  else Function.update mem q { mem q with next := p }

/-- The end of `qfreeinternal`: `p` goes on the misc list, which is made if need be. -/
def freemisc (k : Kernel) (s : Arena) (p : ℕ) : Option Arena :=
  let mem := if s.rover = 0 then Function.update s.mem k.misclist ⟨k.misclist, 0⟩ else s.mem
  let q := if s.rover = 0 then k.misclist else s.rover
  (neighbour mem p k.turns q).map fun q =>
    { s with mem := joinprev (joinnext mem p q) p q, rover := q }

/-- `none` is the panic, or a loop that does not come to its end. -/
def qfreeinternal (k : Kernel) (s : Arena) (ap : ℕ) : Option Arena :=
  if ap = 0 then some s
  else
    let p := ap - 1
    let nunits := (s.mem p).size
    if nunits = 0 ∨ (s.mem p).next ≠ k.checkval then none
    else if s.tailptr ≠ 0 ∧ p + nunits = s.tailptr then
      some { s with tailptr := p, tailsize := (s.tailsize + nunits) % 2 ^ 64 }
    else if nunits ≤ NQUICK then
      some { s with
        mem := Function.update s.mem p { s.mem p with next := s.quicklist nunits }
        quicklist := Function.update s.quicklist nunits p }
    else freemisc k s p

/-- The loops of `qmalloc` and `qmallocalign` over the misc list, once around from `rover`. The
answer is the block `p` that serves and the block `q` before it. -/
def roverfind (mem : Mem) (serves : ℕ → Bool) (rover : ℕ) : ℕ → ℕ → Option (Option (ℕ × ℕ))
  | 0, _ => none
  | fuel + 1, q =>
    if serves (mem q).next then some (some (q, (mem q).next))
    else if (mem q).next = rover then some none
    else roverfind mem serves rover fuel (mem q).next

def misc (k : Kernel) (s : Arena) (serves : ℕ → Bool) : Option (Option (ℕ × ℕ)) :=
  if s.rover = 0 then some none else roverfind s.mem serves s.rover k.turns s.rover

/-- `qmalloc` takes the block `p` after `q`, or the end of it. -/
def rovertake (k : Kernel) (s : Arena) (nunits q p : ℕ) : Arena × ℕ :=
  if (s.mem p).size > nunits then
    let rest := (s.mem p).size - nunits
    let mem := Function.update s.mem p { s.mem p with size := rest }
    ({ s with mem := Function.update mem (p + rest) ⟨k.checkval, nunits⟩, rover := q },
      p + rest + 1)
  else
    let mem := Function.update s.mem q { s.mem q with next := (s.mem p).next }
    ({ s with mem := Function.update mem p { mem p with next := k.checkval }, rover := q }, p + 1)

/-- The block `p` leaves a quicklist. `pp` says where the link to it is: in the block before it,
or in the list's head. -/
def quicktake (k : Kernel) (s : Arena) (i : ℕ) (pp : Option ℕ) (p : ℕ) : Arena :=
  let s := match pp with
    | none => { s with quicklist := Function.update s.quicklist i (s.mem p).next }
    | some q => { s with
        mem := Function.update s.mem q { s.mem q with next := (s.mem p).next } }
  { s with mem := Function.update s.mem p { s.mem p with next := k.checkval } }

/-- The end of `qmalloc`. -/
def tailtake (k : Kernel) (s : Arena) (nunits : ℕ) : Arena × ℕ :=
  let (s, p) := tailalloc k s nunits
  (s, p + 1)

/-- Memory from the misc list or from the tail. The answer 0 is `nil`. -/
def hardalloc (k : Kernel) (s : Arena) (nunits : ℕ) : Option (Arena × ℕ) :=
  if nunits > s.tailsize then
    (misc k s fun p => nunits ≤ (s.mem p).size).map fun found =>
      match found with
      | some (q, p) => rovertake k s nunits q p
      | none =>
        let (s, n) := morecore nunits s
        if n = 0 then (s, 0) else tailtake k (growtail s n) nunits
  else some (tailtake k s nunits)

def qmalloc (k : Kernel) (s : Arena) (nbytes : ℕ) : Option (Arena × ℕ) :=
  if nbytes = 0 then some (s, 0)
  else
    let nunits := NUNITS nbytes
    if nunits ≤ NQUICK ∧ s.quicklist nunits ≠ 0 then
      let p := s.quicklist nunits
      some (quicktake k s nunits none p, p + 1)
    else hardalloc k s nunits

def ISPOWEROF2 (x : ℕ) : Bool := x &&& (x - 1) = 0

/-- The address `h`, in units, is a multiple of `a` bytes. -/
def ALIGNED (h a : ℕ) : Bool := (Unitsz * h) &&& (a - 1) = 0

def ALIGNHDR (h a : ℕ) : ℕ := ((Unitsz * h + (a - 1)) % 2 ^ 64 &&& (2 ^ 64 - a)) / Unitsz

/-- The loop of `qmallocalign` over a quicklist. -/
def quickfind (mem : Mem) (align : ℕ) : ℕ → Option ℕ → ℕ → Option (Option (Option ℕ × ℕ))
  | 0, _, _ => none
  | fuel + 1, pp, p =>
    if p = 0 then some none
    else if ALIGNED (p + 1) align then some (some (pp, p))
    else quickfind mem align fuel (some p) (mem p).next

/-- The runt in front of the alignment is freed. -/
def cutfront (k : Kernel) (s : Arena) (align p : ℕ) : Option (Arena × ℕ) :=
  if ALIGNED (p + 1) align then some (s, p)
  else
    let r := p
    let p := ALIGNHDR (p + 1) align - 1
    let n := p - r
    let mem := Function.update s.mem p { s.mem p with size := (s.mem r).size - n }
    let mem := Function.update mem r ⟨k.checkval, n⟩
    (qfreeinternal k { s with mem := mem } (r + 1)).map fun s => (s, p)

/-- The residue after the aligned block is freed. -/
def cutback (k : Kernel) (s : Arena) (nunits p : ℕ) : Option Arena :=
  if (s.mem p).size > nunits then
    let r := p + nunits
    let mem := Function.update s.mem r ⟨k.checkval, (s.mem p).size - nunits⟩
    (qfreeinternal k { s with mem := mem } (r + 1)).map fun s =>
      { s with mem := Function.update s.mem p { s.mem p with size := nunits } }
  else some s

/-- `qmallocalign` takes the block `p` after `q` and keeps the aligned part of it. -/
def aligntake (k : Kernel) (s : Arena) (nunits align q p : ℕ) : Option (Arena × ℕ) :=
  let mem := Function.update s.mem q { s.mem q with next := (s.mem p).next }
  (cutfront k { s with mem := mem, rover := q } align p).bind fun (s, p) =>
    (cutback k s nunits p).map fun s =>
      ({ s with mem := Function.update s.mem p { s.mem p with next := k.checkval } }, p + 1)

/-- What is in front of an aligned block in the tail, `q-tailptr - 1` as a `uintptr`. -/
def runt (s : Arena) (q : ℕ) : ℕ :=
  ((Int.bmod (Unitsz * (q - s.tailptr)) (2 ^ 64) / Unitsz - 1) % 2 ^ 64).toNat

/-- The tail is cut so that the block is aligned; what is in front of it is freed. -/
def aligncut (k : Kernel) (s : Arena) (nunits q : ℕ) : Option (Arena × ℕ) :=
  let (s, r) := tailalloc k s (runt s q)
  let (s, p) := tailalloc k s nunits
  (qfreeinternal k s (r + 1)).map fun s => (s, p + 1)

/-- `qmallocalign` on a tail of at least `nunits` units. -/
def aligntail (k : Kernel) (s : Arena) (nunits align : ℕ) : Option (Arena × ℕ) :=
  let q := ALIGNHDR (s.tailptr + 1) align
  if q = s.tailptr + 1 then some (tailtake k s nunits)
  else
    let naligned := NUNITS align - 1
    if s.tailsize < nunits + naligned then
      let (s, n) := morecore naligned s
      if n = 0 then some (s, 0) else aligncut k (growtail s n) nunits q
    else aligncut k s nunits q

def alignserves (mem : Mem) (nunits align p : ℕ) : Bool :=
  nunits ≤ (mem p).size &&
    (ALIGNED (p + 1) align || nunits + (NUNITS align - 1) ≤ (mem p).size)

def hardalign (k : Kernel) (s : Arena) (nunits align : ℕ) : Option (Arena × ℕ) :=
  if nunits > s.tailsize then
    (misc k s (alignserves s.mem nunits align)).bind fun found =>
      match found with
      | some (q, p) => aligntake k s nunits align q p
      | none =>
        let (s, n) := morecore nunits s
        if n = 0 then some (s, 0) else aligntail k (growtail s n) nunits align
  else aligntail k s nunits align

def qmallocalign (k : Kernel) (s : Arena) (nbytes align : ℕ) (offset : ℤ) (span : ℕ) :
    Option (Arena × ℕ) :=
  if nbytes = 0 ∨ offset ≠ 0 ∨ span ≠ 0 then some (s, 0)
  else if !ISPOWEROF2 align then none
  else if align ≤ 8 then qmalloc k s nbytes
  else
    let nunits := NUNITS nbytes
    if nunits ≤ NQUICK then
      (quickfind s.mem align k.turns none (s.quicklist nunits)).bind fun found =>
        match found with
        | some (pp, p) => some (quicktake k s nunits pp p, p + 1)
        | none => hardalign k s nunits align
    else hardalign k s nunits align

/-- The first `n` bytes of the word `w` are those of `v`. -/
def overlay (n v w : ℕ) : ℕ := if 8 ≤ n then v else w / 256 ^ n * 256 ^ n + v % 256 ^ n

/-- The first `n` bytes of the unit `w` are those of `v`. -/
def Header.overlay (n : ℕ) (v w : Header) : Header :=
  ⟨Qmalloc.overlay n v.next w.next, Qmalloc.overlay (n - 8) v.size w.size⟩

def memset (mem : Mem) (v n : ℕ) : Mem := fun a =>
  if v ≤ a then Header.overlay (n - Unitsz * (a - v)) ⟨0, 0⟩ (mem a) else mem a

def memmove (mem : Mem) (v ap n : ℕ) : Mem := fun a =>
  if v ≤ a then Header.overlay (n - Unitsz * (a - v)) (mem (ap + (a - v))) (mem a) else mem a

/-- What `malloc`, `mallocz` and `mallocalign` do with the answer they get. -/
def cleared (n : ℕ) (clr : Bool) : Arena × ℕ → Arena × ℕ := fun (s, v) =>
  if v ≠ 0 ∧ clr then ({ s with mem := memset s.mem v n }, v) else (s, v)

def malloc (k : Kernel) (s : Arena) (size : ℕ) : Option (Arena × ℕ) :=
  (qmalloc k s size).map (cleared size true)

def mallocz (k : Kernel) (s : Arena) (size : ℕ) (clr : Bool) : Option (Arena × ℕ) :=
  (qmalloc k s size).map (cleared size clr)

def mallocalign (k : Kernel) (s : Arena) (nbytes align : ℕ) (offset : ℤ) (span : ℕ) :
    Option (Arena × ℕ) :=
  if span ≠ 0 ∧ align ≤ span then
    if nbytes > span then some (s, 0)
    else (qmallocalign k s nbytes span offset 0).map (cleared nbytes true)
  else (qmallocalign k s nbytes align offset span).map (cleared nbytes true)

/-- The end of `realloc`: allocate, copy and free. `osize` is a `ulong`, of four bytes. -/
def reallocmove (k : Kernel) (s : Arena) (ap size ounits : ℕ) : Option (Arena × ℕ) :=
  (qmalloc k s size).bind fun (s, v) =>
    if v = 0 then some (s, 0)
    else
      let osize := (ounits - 1) * Unitsz % 2 ^ 32
      let osize := if size < osize then size else osize
      (qfreeinternal k { s with mem := memmove s.mem v ap osize } ap).map fun s => (s, v)

/-- `delta` is an `int`. -/
def realloc (k : Kernel) (s : Arena) (ap size : ℕ) : Option (Arena × ℕ) :=
  if size = 0 then (qfreeinternal k s ap).map fun s => (s, 0)
  else if ap = 0 then qmalloc k s size
  else
    let p := ap - 1
    let ounits := (s.mem p).size
    if ounits = 0 ∨ (s.mem p).next ≠ k.checkval then none
    else
      let nunits := NUNITS size
      if nunits = ounits then some (s, ap)
      else
        let delta := wrap (nunits - ounits)
        if (s.tailptr ≠ 0 ∧ p + ounits = s.tailptr) ∧ (delta < 0 ∨ (s.tailsize : ℤ) ≥ delta) then
          some ({ s with
            mem := Function.update s.mem p { s.mem p with size := nunits }
            tailsize := ((s.tailsize - delta) % 2 ^ 64).toNat
            tailptr := ((s.tailptr + delta) % 2 ^ 60).toNat }, ap)
        else reallocmove k s ap size ounits

def free (k : Kernel) (s : Arena) (ap : ℕ) : Option Arena := qfreeinternal k s ap

end Petele.Qmalloc
