import Mathlib
import Petele.Lib.Probe

namespace Petele.Git

open Lib Probe

/-- The object types of `git.h`. -/
inductive Otype where
  | GNone
  | GCommit
  | GTree
  | GBlob
  | GTag
  | GOdelta
  | GRdelta
  deriving DecidableEq

/-- The part of `struct Object` that deltas read and write. `all` is the text of the header, a
NUL and the data; sizes are those of the lists, and offsets into them are `int`s of the source,
exact as long as the data has fewer than `2 ^ 31` bytes. -/
structure Object where
  type : Otype
  all : List UInt8
  data : List UInt8

def Object.size (o : Object) : ℕ := o.data.length

/-- `n` bytes of `s` from offset `o` on. -/
def bytes (s : List UInt8) (o n : ℕ) : List UInt8 := (s.drop o).take n

theorem bytes_length {s : List UInt8} {o n : ℕ} (h : o + n ≤ s.length) :
    (bytes s o n).length = n := by
  rw [bytes, List.length_take, List.length_drop]
  omega

def Minchunk : ℕ := 128
def Maxchunk : ℕ := 8192
def Splitmask : UInt32 := (1 : UInt32) <<< 8 - 1

def geartab : List UInt32 :=
  [0x67ed26b7, 0x32da500c, 0x53d0fee0, 0xce387dc7, 0xcd406d90, 0x2e83a4d4, 0x9fc9a38d, 0xb67259dc,
   0xca6b1722, 0x6d2ea08c, 0x235cea2e, 0x3149bb5f, 0x1beda787, 0x2a6b77d5, 0x2f22d9ac, 0x91fc0544,
   0xe413acfa, 0x5a30ff7a, 0xad6fdde0, 0x444fd0f5, 0x7ad87864, 0x58c5ff05, 0x8d2ec336, 0x2371f853,
   0x550f8572, 0x6aa448dd, 0x7c9ddbcf, 0x95221e14, 0x2a82ec33, 0xcbec5a78, 0xc6795a0d, 0x243995b7,
   0x1c909a2f, 0x4fded51c, 0x635d334b, 0x0e2b9999, 0x2702968d, 0x856de1d5, 0x3325d60e, 0xeb6a7502,
   0xec2a9844, 0x0905835a, 0xa1820375, 0xa4be5cab, 0x96a6c058, 0x2c2ccd70, 0xba40fce3, 0xd794c46b,
   0x8fbae83e, 0xc3aa7899, 0x3d3ff8ed, 0xa0d42b5b, 0x571c0c97, 0xd2811516, 0xf7e7b96c, 0x4fd2fcbd,
   0xe2fdec94, 0x282cc436, 0x78e8e95c, 0x80a3b613, 0xcfbee20c, 0xd4a32d1c, 0x2a12ff13, 0x6af82936,
   0xe5630258, 0x8efa6a98, 0x294fb2d1, 0xdeb57086, 0x5f0fddb3, 0xeceda7ce, 0x4c87305f, 0x3a6d3307,
   0xe22d2942, 0x9d060217, 0x1e42ed02, 0xb6f63b52, 0x4367f39f, 0x055cf262, 0x03a461b2, 0x5ef9e382,
   0x386bc03a, 0x2a1e79c7, 0xf1a0058b, 0xd4d2dea9, 0x56baf37d, 0x5daff6cc, 0xf03a951d, 0xaef7de45,
   0xa8f4581e, 0x3960b555, 0xffbfff6d, 0xbe702a23, 0x8f5b6d6f, 0x061739fb, 0x98696f47, 0x3fd596d4,
   0x151eac6b, 0xa9fcc4f5, 0x69181a12, 0x3ac5a107, 0xb5198fe7, 0x96bcb1da, 0x1b5ddf8e, 0xc757d650,
   0x65865c3a, 0x8fc0a41a, 0x87435536, 0x99eda6f2, 0x41874794, 0x29cff4e8, 0xb70efd9a, 0x3103f6e7,
   0x84d2453b, 0x15a450bd, 0x74f49af1, 0x60f664b1, 0xa1c86935, 0xfdafbce1, 0xe36353e3, 0x5d9ba739,
   0xbc0559ba, 0x708b0054, 0xd41d808c, 0xb2f31723, 0x9027c41f, 0xf136d165, 0xb5374b12, 0x9420a6ac,
   0x273958b6, 0xe6c2fad0, 0xebdc1f21, 0xfb33af8b, 0xc71c25cd, 0xe9a2d8e5, 0xbeb38a50, 0xbceb7cc2,
   0x4e4e73f0, 0xcd6c251d, 0xde4c032c, 0x4b04ac30, 0x725b8b21, 0x4eb8c33b, 0x20d07b75, 0x0567aa63,
   0xb56b2bb7, 0xc1f5fd3a, 0xcafd35ca, 0x470dd4da, 0xfe4f94cd, 0xfb8de424, 0xe8dbcf40, 0xfe50a37a,
   0x62db5b5d, 0xf32f4ab6, 0x2c4a8a51, 0x18473dc0, 0xfe0cbb6e, 0xfe399efd, 0xdf34ecc9, 0x6ccd5055,
   0x46097073, 0x139135c2, 0x721c76f6, 0x1c6a94b4, 0x6eee014d, 0x8a508e02, 0x3da538f5, 0x280d394f,
   0x5248a0c4, 0x3ce94c6c, 0x9a71ad3a, 0x8493dd05, 0xe43f0ab6, 0x18e4ed42, 0x6c5c0e09, 0x42b06ec9,
   0x8d330343, 0xa45b6f59, 0x2a573c0c, 0xd7fd3de6, 0xeedeab68, 0x5c84dafc, 0xbbd1b1a8, 0xa3ce1ad1,
   0x85b70bed, 0xb6add07f, 0xa531309c, 0x8f8ab852, 0x564de332, 0xeac9ed0c, 0x73da402c, 0x3ec52761,
   0x43af2f4d, 0xd6ff45c8, 0x4c367462, 0xd553bd6a, 0x44724855, 0x3b2aa728, 0x56e5eb65, 0xeaf16173,
   0x33fa42ff, 0xd714bb5d, 0xfbd0a3b9, 0xaf517134, 0x9416c8cd, 0x534cf94f, 0x548947c2, 0x34193569,
   0x32f4389a, 0xfe7028bc, 0xed73b1ed, 0x9db95770, 0x468e3922, 0x0440c3cd, 0x60059a62, 0x33504562,
   0x2b229fbd, 0x5174dca5, 0xf7028752, 0xd63c6aa8, 0x31276f38, 0x0646721c, 0xb0191da8, 0xe00e6de0,
   0x9eac1a6e, 0x9f7628a5, 0xed6c06ea, 0x0bb8af15, 0xf119fb12, 0x38693c1c, 0x732bc0fe, 0x84953275,
   0xb82ec888, 0x33a4f1b3, 0x3099835e, 0x028a8782, 0x5fdd51d7, 0xc6c717b3, 0xb06caf71, 0x17c8c111,
   0x61bad754, 0x9fd03061, 0xe09df1af, 0x3bc9eb73, 0x85878413, 0x9889aaf2, 0x3f5a9e46, 0x42c9f01f,
   0x9984a4f4, 0xd5de43cc, 0xd294daed, 0xbecba2d2, 0xf1f6e72c, 0x5551128a, 0x83af87e2, 0x6f0342ba]

def Seed : UInt32 := 2928213749

/-- The loop of `murmurhash2` over whole words and the switch over the bytes behind them. -/
def murmurmix (m : UInt32) (h : UInt32) : List UInt8 → UInt32
  | w0 :: w1 :: w2 :: w3 :: w =>
    let k := w0.toUInt32 ||| w1.toUInt32 <<< 8 ||| w2.toUInt32 <<< 16 ||| w3.toUInt32 <<< 24
    let k := k * m
    let k := k ^^^ k >>> 24
    let k := k * m
    murmurmix m (h * m ^^^ k) w
  | [w0, w1, w2] => (h ^^^ w2.toUInt32 <<< 16 ^^^ w1.toUInt32 <<< 8 ^^^ w0.toUInt32) * m
  | [w0, w1] => (h ^^^ w1.toUInt32 <<< 8 ^^^ w0.toUInt32) * m
  | [w0] => (h ^^^ w0.toUInt32) * m
  | [] => h

def murmurhash2 (p : List UInt8) : UInt64 :=
  let m := 0x5bd1e995
  let h := murmurmix m (Seed ^^^ UInt32.ofNat p.length) p
  let h := h ^^^ h >>> 13
  let h := h * m
  let h := h ^^^ h >>> 15
  h.toUInt64

def hash (p : List UInt8) : UInt64 := murmurhash2 p

/-- `struct Dblock` in use; a slot with a nil `buf` is `none`. `buf` points into the data of the
base object and is the offset there. -/
structure Dblock where
  buf : ℕ
  len : ℕ
  off : ℕ
  hash : UInt64

/-- `sizeof(Dblock)`. -/
def sizeofDblock : ℕ := 24

/-- `struct Dtab`; `nbase` and `sz` are the lengths of `base` and `b`. -/
structure Dtab where
  base : List UInt8
  b : List (Option Dblock)
  nb : ℕ

def Dtab.sz (dt : Dtab) : ℕ := dt.b.length

/-- `eamalloc` and `earealloc` give up on `2 ^ 30` bytes. -/
def eamalloc (n sz : ℕ) : Option Unit := if 2 ^ 30 ≤ n * sz then none else some ()

/-- What `addblk` compares: the length and the bytes. -/
def sameblk (dt : Dtab) (d a : Dblock) : Bool :=
  d.len == a.len && bytes dt.base d.buf d.len == bytes dt.base a.buf d.len

/-- One turn of the loop of `addblk` over the slots of the table it replaces, with `add` for the
call to itself. -/
def readd (add : Dtab → Dblock → Option Dtab) (dt : Dtab) (slot : Option Dblock) : Option Dtab :=
  match slot with
  | none => some dt
  | some d => add dt d

/-- The end of `addblk` where the table doubles. -/
def doubletab (add : Dtab → Dblock → Option Dtab) (dt : Dtab) : Option Dtab := do
  eamalloc (2 * dt.sz) sizeofDblock
  dt.b.foldlM (readd add) ⟨dt.base, List.replicate (2 * dt.sz) none, 0⟩

/-- `addblk`; it fails where the source stops in `eamalloc` or probes for ever. The first argument
bounds the calls `addblk` makes to itself: each is made on a table of double size. -/
def addblk : ℕ → Dtab → Dblock → Option Dtab
  | 0, _, _ => none
  | depth + 1, dt, d =>
    match probe (sameblk dt d) dt.b dt.sz (d.hash.toNat % dt.sz) with
    | none => none
    | some k =>
      match dt.b[k]? with
      | some none =>
        let dt := { dt with b := dt.b.set k (some d), nb := dt.nb + 1 }
        if dt.sz < 2 * dt.nb then doubletab (addblk depth) dt else some dt
      | _ => some dt

/-- The outer `Option` is `none` when the probe never ends, the inner one is the result. -/
def lookup (dt : Dtab) (p : List UInt8) (n : ℕ) : Option (Option Dblock) :=
  let h := hash p
  (probe (fun a => a.hash == h && n == a.len && p == bytes dt.base a.buf n)
    dt.b dt.sz (h.toNat % dt.sz)).map fun k => dt.b.getD k none

/-- The loop of `nextblk`: the bytes from `p` up to a split, or all of them. -/
def gear (gh : UInt32) : List UInt8 → ℕ
  | [] => 0
  | c :: p =>
    let gh := (gh <<< 1) + geartab.getD c.toNat 0
    if gh &&& Splitmask = 0 then 1 else gear gh p + 1

/-- `nextblk` on the bytes from `s` to `e`. -/
def nextblk (s : List UInt8) : ℕ :=
  if s.length < Minchunk then s.length
  else Minchunk + gear 0 ((s.take Maxchunk).drop Minchunk)

/-- Enough calls for every table: `eamalloc` refuses the table long before. -/
def maxdepth : ℕ := 32

/-- The loop of `dtinit` from offset `o` on. -/
def dtfill : ℕ → Dtab → ℕ → Option Dtab
  | 0, _, _ => none
  | fuel + 1, dt, o =>
    if o = dt.base.length then some dt
    else
      let n := nextblk (dt.base.drop o)
      let h := hash (bytes dt.base o n)
      (addblk maxdepth dt ⟨o, n, o, h⟩).bind fun dt => dtfill fuel dt (o + n)

def dtinit (obj : Object) : Option Dtab :=
  dtfill (obj.size + 1) ⟨obj.data, List.replicate 128 none, 0⟩ 0

/-- `struct Delta`. -/
structure Delta where
  cpy : Bool
  off : ℕ
  len : ℕ

/-- `sizeof(Delta)`. -/
def sizeofDelta : ℕ := 12

def emitdelta (pd : List Delta) (cpy : Bool) (off len : ℕ) : Option (List Delta) := do
  eamalloc (pd.length + 1) sizeofDelta
  return pd ++ [⟨cpy, off, len⟩]

/-- The loop of `stretch`, with `p` and `q` run up to `e` and `eb`. -/
def extend (n : ℕ) : List UInt8 → List UInt8 → ℕ
  | x :: p, y :: q =>
    if (1 <<< 24) - 1 ≤ n then n
    else if x ≠ y then n
    else extend (n + 1) p q
  | _, _ => n

def stretch (dt : Dtab) (b : Option Dblock) (s : List UInt8) (n : ℕ) : ℕ :=
  match b with
  | none => n
  | some b => extend n (s.drop n) (dt.base.drop (b.off + n))

/-- The loop of `deltify` from offset `o` on, with the deltas so far. -/
def deltifyLoop (data : List UInt8) (dt : Dtab) : ℕ → List Delta → ℕ → Option (List Delta)
  | 0, _, _ => none
  | fuel + 1, pd, o =>
    if o = data.length then some pd
    else do
      let n := nextblk (data.drop o)
      let b ← lookup dt (bytes data o n) n
      let n := stretch dt b (data.drop o) n
      let pd ←
        match b with
        | some b => emitdelta pd true b.off n
        | none => emitdelta pd false o n
      deltifyLoop data dt fuel pd (o + n)

def deltify (obj : Object) (dt : Dtab) : Option (List Delta) :=
  deltifyLoop obj.data dt (obj.size + 1) [] 0

end Petele.Git
