import Mathlib

namespace Petele.Fscache

variable {P M K : Type} [DecidableEq P] [DecidableEq M] [DecidableEq K]

section Pages

def PGSZ : ℕ := 4096

structure Page where
  daddr : ℕ
  v : ℕ → UInt8

structure Extent (P : Type) where
  bid : ℕ
  start : ℕ
  len : ℕ
  cache : P

/-- What happens up to a moment: pages are reclaimed and get other values. Then the page that an extent gets, unless it is
refused. -/
structure Env (P : Type) where
  reclaim : List (P × Page)
  aux : Option P

/-- The pages, those of `fscache` with the ones last cached first, and the counter for the next. The counter is taken as
unsigned. -/
structure Store (P : Type) where
  page : P → Page
  hash : List P
  pgno : ℕ
  env : List (Env P)
  /-- How many pages the cache has got. The code does not have it. -/
  count : ℕ

variable (s : Store P)

def uncachepage (p : P) (pg : Page) : Store P :=
  { s with hash := s.hash.filter (· ≠ p), page := Function.update s.page p pg }

/-- The next moment. -/
def tick : Env P × Store P :=
  match s.env with
  | [] => (⟨[], none⟩, s)
  | e :: env => (e, e.reclaim.foldl (fun s x => uncachepage s x.1 x.2) { s with env := env })

def lookpage (daddr : ℕ) : Option P := s.hash.find? fun p => (s.page p).daddr = daddr

def cpage (e : Extent P) : Option P × Store P :=
  let s := (tick s).2
  (if (s.page e.cache).daddr ≠ e.bid then none else lookpage s e.bid, s)

/-- `memmove` into a page -/
def overwrite (v : ℕ → UInt8) (o : ℕ) (buf : List UInt8) : ℕ → UInt8 := fun i => if o ≤ i then buf.getD (i - o) (v i) else v i

/-- wrap the counter -/
def nextpgno (n : ℕ) : ℕ :=
  let m := (n + PGSZ) % 2 ^ 32
  if m < PGSZ then (if m = PGSZ - 1 then 0 else m + 1) else m

/-- A page gets its number and its data. -/
def chainpage (p : P) (buf : List UInt8) : Store P :=
  { s with
    page := Function.update s.page p ⟨s.pgno, overwrite (s.page p).v 0 buf⟩
    hash := p :: s.hash.filter (· ≠ p)
    pgno := nextpgno s.pgno
    count := s.count + 1 }

def cchain (s : Store P) (buf : List UInt8) (offset : ℕ) : List (Extent P) × Store P :=
  if buf = [] then ([], s)
  else
    let x := tick s
    match x.1.aux with
    | none => ([], x.2)
    | some p =>
      let r := cchain (chainpage x.2 p (buf.take PGSZ)) (buf.drop PGSZ) (offset + min buf.length PGSZ)
      (⟨x.2.pgno, offset, min buf.length PGSZ, p⟩ :: r.1, r.2)
termination_by buf.length
decreasing_by
  rename_i h
  have := List.length_pos_of_ne_nil h
  simp only [List.length_drop, PGSZ]
  omega

def cpgmove (e : Extent P) (buf : List UInt8) (boff : ℕ) : Bool × Store P :=
  let x := cpage s e
  match x.1 with
  | none => (false, x.2)
  | some p => (true, { x.2 with page := Function.update x.2.page p { x.2.page p with v := overwrite (x.2.page p).v boff buf } })

end Pages

section Lists

variable (s : Store P)

/-- The bytes of a page. -/
def bytes (v : ℕ → UInt8) (o l : ℕ) : List UInt8 := (List.range l).map fun i => v (o + i)

/-- The loop of `cread`, in front of the extents that are left. -/
def creadloop (s : Store P) (pre : List (Extent P)) : List (Extent P) → (offset len : ℕ) → List UInt8 × List (Extent P) × Store P
  | [], _, _ => ([], pre, s)
  | e :: post, offset, len =>
    if len = 0 then ([], pre ++ e :: post, s)
    else
      let x := cpage s e
      match x.1 with
      | none => ([], pre ++ post, x.2)
      | some p =>
        let o := offset - e.start
        let l := min len (e.len - o)
        let b := bytes (x.2.page p).v o l
        if post.head?.map Extent.start ≠ some (offset + l) then (b, pre ++ e :: post, x.2)
        else
          let r := creadloop x.2 (pre ++ [e]) post (offset + l) (len - l)
          (b ++ r.1, r.2)

def creadlist (list : List (Extent P)) (len offset : ℕ) : List UInt8 × List (Extent P) × Store P :=
  let miss := fun e : Extent P => ¬ (e.start ≤ offset ∧ offset < e.start + e.len)
  creadloop s (list.takeWhile fun e => miss e) (list.dropWhile fun e => miss e) offset len

/-- trim if there is a successor -/
def trim (post : List (Extent P)) (buf : List UInt8) (offset : ℕ) : List UInt8 :=
  match post with
  | [] => buf
  | f :: _ => buf.take (f.start - offset)

def cupdatelist (list : List (Extent P)) (buf : List UInt8) (offset : ℕ) : List (Extent P) × Store P :=
  let pre := list.takeWhile fun f => f.start ≤ offset
  let post := list.dropWhile fun f => f.start ≤ offset
  let buf := trim post buf offset
  match pre.getLast? with
  | none =>
    let r := cchain s buf offset
    (r.1 ++ post, r.2)
  | some p =>
    -- trim to the predecessor
    let ee := p.start + p.len
    let buf := buf.drop (ee - offset)
    let offset := max offset ee
    if buf = [] then (list, s)
    -- try and pack data into the predecessor
    else if offset = ee ∧ p.len < PGSZ then
      let o := PGSZ - p.len
      let x := cpgmove s p (buf.take o) p.len
      if x.1 then
        let r := cchain x.2 (buf.drop o) (offset + (buf.take o).length)
        (pre.dropLast ++ { p with len := p.len + (buf.take o).length } :: (r.1 ++ post), r.2)
      else
        let r := cchain x.2 buf offset
        (pre ++ (r.1 ++ post), r.2)
    else
      let r := cchain s buf offset
      (pre ++ (r.1 ++ post), r.2)

def cwritelist (list : List (Extent P)) (buf : List UInt8) (offset : ℕ) : List (Extent P) × Store P :=
  let pre := list.takeWhile fun f => f.start < offset
  -- free the overlap -- it's a rare case
  let post := (list.dropWhile fun f => f.start < offset).dropWhile fun f => f.start < offset + buf.length
  match pre.getLast? with
  | none =>
    let r := cchain s buf offset
    (r.1 ++ post, r.2)
  | some p =>
    let eo := offset - p.start
    -- pack in predecessor if there is space
    if offset ≤ p.start + p.len ∧ eo < PGSZ then
      let o := PGSZ - eo
      let x := cpgmove s p (buf.take o) eo
      if x.1 then
        let r := cchain x.2 (buf.drop o) (offset + (buf.take o).length)
        (pre.dropLast ++ { p with len := max p.len (eo + (buf.take o).length) } :: (r.1 ++ post), r.2)
      else
        let r := cchain x.2 buf offset
        (pre ++ (r.1 ++ post), r.2)
    else
      let r := cchain s buf offset
      (pre ++ (r.1 ++ post), r.2)

end Lists

section Files

def NHASH : ℕ := 128

def maxcache : ℕ := 1024 * 1024

/-- What a file is, apart from its version. -/
structure Ident where
  path : ℕ
  type : ℕ
  devno : ℕ
  dev : ℕ
deriving DecidableEq

structure Mntcache (P : Type) where
  id : Ident
  vers : ℕ
  list : List (Extent P)

structure Chan (M : Type) where
  id : Ident
  vers : ℕ
  mc : Option M

/-- The files in the cache, by their use and by their hash, the open channels, and what the server has for one of the files. -/
structure St (P M K : Type) where
  store : Store P
  mc : M → Mntcache P
  lru : List M
  hash : ℕ → List M
  chan : K → Option (Chan M)
  content : List UInt8
  vers : ℕ

variable (st : St P M K)

def ctail (lru : List M) (m : M) : List M := lru.erase m ++ [m]

/-- directories aren't cacheable and append-only files confuse us -/
def cacheable (id : Ident) : Bool := id.type &&& 0xc0 = 0

def copen (k : K) (id : Ident) (vers : ℕ) : St P M K :=
  let bucket := id.path % NHASH
  if !cacheable id then { st with chan := Function.update st.chan k (some ⟨id, vers, none⟩) }
  else
    match (st.hash bucket).find? fun m => (st.mc m).id = id with
    | some m =>
      { st with
        chan := Function.update st.chan k (some ⟨id, vers, some m⟩)
        lru := ctail st.lru m
        mc := if (st.mc m).vers = vers then st.mc else Function.update st.mc m ⟨id, vers, []⟩ }
    | none =>
      match st.lru with
      | [] => { st with chan := Function.update st.chan k (some ⟨id, vers, none⟩) }
      | m :: _ =>
        let old := (st.mc m).id.path % NHASH
        let hash := Function.update st.hash old ((st.hash old).erase m)
        { st with
          chan := Function.update st.chan k (some ⟨id, vers, some m⟩)
          lru := ctail st.lru m
          mc := Function.update st.mc m ⟨id, vers, []⟩
          hash := Function.update hash bucket (m :: hash bucket) }

def cdev (mc : Mntcache P) (c : Chan M) : Bool := mc.id = c.id && mc.vers = c.vers

/-- The cache of a channel, if it is still for its file. -/
def mcof (k : K) : Option (Chan M × M) :=
  (st.chan k).bind fun c => c.mc.bind fun m => if cdev (st.mc m) c then some (c, m) else none

def setlist (m : M) (x : List (Extent P) × Store P) : St P M K :=
  { st with store := x.2, mc := Function.update st.mc m { st.mc m with list := x.1 } }

def cread (k : K) (len off : ℕ) : List UInt8 × St P M K :=
  if maxcache < off + len then ([], st)
  else
    match mcof st k with
    | none => ([], st)
    | some (_, m) =>
      let r := creadlist st.store (st.mc m).list len off
      (r.1, setlist st m r.2)

def cupdate (k : K) (buf : List UInt8) (off : ℕ) : St P M K :=
  if maxcache < off ∨ buf = [] then st
  else
    match mcof st k with
    | none => st
    | some (_, m) => setlist st m (cupdatelist st.store (st.mc m).list buf off)

def cwrite (k : K) (buf : List UInt8) (off : ℕ) : St P M K :=
  if maxcache < off ∨ buf = [] then st
  else
    match mcof st k with
    | none => st
    | some (c, m) =>
      let st' := setlist st m (cwritelist st.store (st.mc m).list buf off)
      { st' with
        mc := Function.update st'.mc m { st'.mc m with vers := ((st.mc m).vers + 1) % 2 ^ 32 }
        chan := Function.update st.chan k (some { c with vers := (c.vers + 1) % 2 ^ 32 }) }

/-- The server reads. It may give less. -/
def serve (content : List UInt8) (off n less : ℕ) : List UInt8 := ((content.drop off).take n).take ((content.drop off).length - less)

/-- The server writes, with zeros up to the offset. -/
def store (content : List UInt8) (buf : List UInt8) (off : ℕ) : List UInt8 :=
  (content ++ List.replicate (off - content.length) 0).take off ++ buf ++ content.drop (off + buf.length)

/-- `mntread`, where the server gives `data off n` -/
def mntread (k : K) (n off : ℕ) (data : ℕ → ℕ → List UInt8) : List UInt8 × St P M K :=
  let r := cread st k n off
  let nc := r.1.length
  if nc ≠ 0 ∧ n = nc then r
  else
    let b := data (off + nc) (n - nc)
    (r.1 ++ b, cupdate r.2 k b (off + nc))

end Files

section Runs

variable (file : K) (id : Ident)

inductive Act (P K : Type)
  | opens (k : K) (id : Ident) (vers : ℕ)
  | reads (env : List (Env P)) (n off less : ℕ)
  | writes (env : List (Env P)) (buf : List UInt8) (off : ℕ)
  /-- The same for other files, where the server gives anything. -/
  | readsother (env : List (Env P)) (k : K) (n off : ℕ) (data : List UInt8)
  | writesother (env : List (Env P)) (k : K) (buf : List UInt8) (off : ℕ)
  | reclaims (p : P) (pg : Page)

def withenv (st : St P M K) (env : List (Env P)) : St P M K := { st with store := { st.store with env := env } }

/-- A channel is opened once for the file that is looked at, and the others are for other files. -/
def step (st : St P M K) : Act P K → Option (St P M K)
  | .opens k i vers =>
    if k = file then (if (st.chan file).isNone then some (copen st file id st.vers) else none)
    else if i = id then none else some (copen st k i vers)
  | .reads env n off less => some (mntread (withenv st env) file n off fun off n => serve st.content off n less).2
  | .writes env buf off =>
    some (cwrite { withenv st env with content := store st.content buf off, vers := (st.vers + 1) % 2 ^ 32 } file buf off)
  | .readsother env k n off data => if k = file then none else some (mntread (withenv st env) k n off fun _ n => data.take n).2
  | .writesother env k buf off => if k = file then none else some (cwrite (withenv st env) k buf off)
  | .reclaims p pg => some { st with store := uncachepage st.store p pg }

/-- The cache as `cinit` leaves it. -/
structure Start (st : St P M K) : Prop where
  hash : st.store.hash = []
  pgno : st.store.pgno = 0
  count : st.store.count = 0
  mc : ∀ m, (st.mc m).list = []
  chan : ∀ k, st.chan k = none

inductive Reachable : St P M K → Prop
  | start {st : St P M K} (h : Start st) : Reachable st
  | step {st st' : St P M K} {a : Act P K} (h : Reachable st) (hs : step file id st a = some st') : Reachable st'

end Runs

end Petele.Fscache
