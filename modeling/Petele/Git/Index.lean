import Petele.Git.Objset
import Petele.Lib.BigEndian
import Petele.Lib.Bisect
import Petele.Lib.CInt

namespace Petele.Git

open Lib BigEndian

/-- What `indexpack` keeps of an `Object`: `off` is where its entry starts in the pack. -/
structure Packed where
  hash : Hash
  crc : UInt32
  off : ℕ

def putbe32 (n : ℕ) : List UInt8 :=
  [UInt8.ofNat (n >>> 24), UInt8.ofNat (n >>> 16), UInt8.ofNat (n >>> 8), UInt8.ofNat n]

def putbe64 (n : ℕ) : List UInt8 :=
  [UInt8.ofNat (n >>> 56), UInt8.ofNat (n >>> 48), UInt8.ofNat (n >>> 40), UInt8.ofNat (n >>> 32),
    UInt8.ofNat (n >>> 24), UInt8.ofNat (n >>> 16), UInt8.ofNat (n >>> 8), UInt8.ofNat n]

/-- `GETBE64` at the start of the bytes. -/
def getbe64 (b : List UInt8) : ℕ :=
  (b.getD 0 0).toNat <<< 56 ||| (b.getD 1 0).toNat <<< 48 ||| (b.getD 2 0).toNat <<< 40 |||
    (b.getD 3 0).toNat <<< 32 ||| (b.getD 4 0).toNat <<< 24 ||| (b.getD 5 0).toNat <<< 16 |||
    (b.getD 6 0).toNat <<< 8 ||| (b.getD 7 0).toNat

def memcmp (a b : List UInt8) (n : ℕ) : ℤ := compareBytes (a.take n) (b.take n)

def objcmp (a b : Packed) : ℤ := memcmp a.hash.h b.hash.h 20

def qsort (obj : List Packed) : List Packed := obj.mergeSort fun a b => objcmp a b ≤ 0

/-- The inner loop over the fanout table: `c` moves over the objects whose first byte is at most
`i`. -/
def fanned (i : ℕ) : List Packed → ℕ → ℕ
  | [], c => c
  | o :: obj, c => if (o.hash.h.getD 0 0).toNat ≤ i then fanned i obj (c + 1) else c

/-- The fanout table from the entry `i` on, with `n` entries to come. -/
def fanout (obj : List Packed) : ℕ → ℕ → ℕ → List UInt8
  | 0, _, _ => []
  | n + 1, i, c =>
    let c := fanned i (obj.drop c) c
    putbe32 c ++ fanout obj n (i + 1) c

/-- The offsets of 32 bits; one that does not fit gives its place in the table behind. -/
def offsets : List Packed → ℕ → List UInt8
  | [], _ => []
  | o :: obj, nbig =>
    if o.off < 1 <<< 31 then putbe32 o.off ++ offsets obj nbig
    else putbe32 (1 <<< 31 ||| nbig) ++ offsets obj (nbig + 1)

def bigoffsets : List Packed → List UInt8
  | [] => []
  | o :: obj => if 1 <<< 31 ≤ o.off then putbe64 o.off ++ bigoffsets obj else bigoffsets obj

/-- The index up to the hash of its own bytes. -/
def indexbody (obj : List Packed) (ph : Hash) : List UInt8 :=
  [0xff, 0x74, 0x4f, 0x63, 0, 0, 0, 2] ++ fanout obj 256 0 0 ++ obj.flatMap (·.hash.h) ++
    obj.flatMap (fun o => putbe32 o.crc.toNat) ++ offsets obj 0 ++ bigoffsets obj ++ ph.h

/-- The file that `indexpack` writes for the objects of the pack `ph`. -/
def indexpack (sha1 : List UInt8 → Hash) (obj : List Packed) (ph : Hash) : List UInt8 :=
  let body := indexbody (qsort obj) ph
  body ++ (sha1 body).h

/-- The order of the first `nbit` bits. -/
def hashcmp (a b : List UInt8) (nbit : ℕ) : ℤ :=
  let i := nbit / 8
  let r := memcmp a b i
  if r ≠ 0 ∨ nbit % 8 = 0 then r
  else ((a.getD i 0).toNat >>> (8 - nbit % 8) : ℕ) - ((b.getD i 0).toNat >>> (8 - nbit % 8) : ℕ)

/-- The hash at the place `hidx`, which is a `uint`. -/
def hashat (idx : List UInt8) (hidx : ℕ) : List UInt8 :=
  (idx.drop (8 + 256 * 4 + hidx * 20 % 2 ^ 32)).take 20

/-- The loop of `searchindex`; `lo` and `hi` are `uint`s. The first argument bounds the turns. -/
def searchloop (idx : List UInt8) (h : Hash) (npfx : ℕ) : ℕ → ℕ → ℕ → Option ℕ
  | 0, _, _ => none
  | fuel + 1, lo, hi =>
    if lo < hi then
      let hidx := (hi + lo) % 2 ^ 32 / 2
      let r := hashcmp h.h (hashat idx hidx) npfx
      if r < 0 then searchloop idx h npfx fuel lo hidx
      else if 0 < r then searchloop idx h npfx fuel (hidx + 1) hi
      else some hidx
    else none

/-- The end of `searchindex`: the offset of the entry `hidx` of `nent`. -/
def entryoff (idx : List UInt8) (nidx : ℤ) (nent hidx : ℕ) : ℤ :=
  let oo : ℕ := 8 + 256 * 4 + 20 * nent + 4 * nent + 4 * hidx % 2 ^ 32
  if nidx < (oo : ℤ) + 4 then -1
  else
    let o := getbe32 (idx.drop oo)
    if o &&& 1 <<< 31 ≠ 0 then
      let oo : ℕ := 8 + 256 * 4 + 20 * nent + 4 * nent + 4 * nent + 8 * (o &&& 0x7fffffff)
      if nidx ≤ (oo : ℤ) + 8 then -1 else getbe64 (idx.drop oo)
    else o

/-- The result, and what is stored through `hret`. -/
def searchindex (idx : List UInt8) (nidx : ℤ) (h : Hash) (npfx : ℤ) : ℤ × Option (List UInt8) :=
  if nidx < 8 + 256 * 4 then (-1, none)
  else if npfx < 8 then (-1, none)
  else
    let first := (h.h.getD 0 0).toNat
    let lo := if first = 0 then 0 else getbe32 (idx.drop (8 + first * 4 - 4))
    let hi := if first = 0 then getbe32 (idx.drop 8) else getbe32 (idx.drop (8 + first * 4))
    if hi = lo then (-1, none)
    else
      let nent := getbe32 (idx.drop (8 + 255 * 4))
      match searchloop idx h npfx.toNat hi lo hi with
      | none => (-1, none)
      | some hidx => (entryoff idx nidx nent hidx, some (hashat idx hidx))

/-- The calls of `searchindex`, with an index that has been read in: its length is passed in an
`int`. -/
def searchpack (idx : List UInt8) (h : Hash) (npfx : ℤ) : ℤ × Option (List UInt8) :=
  searchindex idx (wrap idx.length) h npfx

end Petele.Git
