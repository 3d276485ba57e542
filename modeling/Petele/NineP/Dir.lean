import Petele.NineP.Conv

namespace Petele.NineP

open Lib Cursor

def STATFIXLEN : ℕ := BIT16SZ + QIDSZ + 5 * BIT16SZ + 4 * BIT32SZ + 1 * BIT64SZ

/-- `struct Dir` over a type `S` of its strings. `ulong` has 32 bits; `length` is a `vlong`,
kept by its bits. -/
structure Dir (S : Type) where
  type : UInt16
  dev : UInt32
  qid : Qid
  mode : UInt32
  atime : UInt32
  mtime : UInt32
  length : UInt64
  name : S
  uid : S
  gid : S
  muid : S

/-- The array `sv` of `convD2M` and `convM2D`. -/
def Dir.sv {S : Type} (d : Dir S) : List S := [d.name, d.uid, d.gid, d.muid]

/-- A length as an `int` holds it. -/
def int (n : ℕ) : ℤ := Int.bmod n (2 ^ 32)

/-- The length `convD2M` and `sizeD2M` take of each string. -/
def svlen (s : CStr) : ℕ :=
  match s with
  | none => 0
  | some s => strlen s

/-- The sum is an `int` and the result a `uint`. -/
def sizeD2M (d : Dir CStr) : ℕ := (STATFIXLEN + (d.sv.map svlen).sum) % 2 ^ 32

/-- `p += n` for an `int`; a cursor in front of the buffer is outside it. -/
def shift (n : ℤ) : Cursor Unit where
  run p buf := if 0 ≤ p + n then .ok () (p + n).toNat buf else .fault

/-- One turn of the loop of `convD2M` over its strings. -/
def putStat (s : CStr) : Cursor Unit where
  run p buf :=
    let ns := int (svlen s)
    let pass : Cursor Unit := do
      if (p : ℤ) + ns + BIT16SZ > buf.length then quit
      else
        pbit16 (ns % 2 ^ 32).toNat
        if ns ≠ 0 then poke 0 ((s.getD []).take (ns % 2 ^ 32).toNat)
        shift ns
    pass.run p buf

/-- What `convD2M` writes behind the size. -/
def putFields (d : Dir CStr) : Cursor Unit := do
  pbit16 d.type.toNat
  pbit32 d.dev.toNat
  pbit8 d.qid.type
  pbit32 d.qid.vers.toNat
  pbit64 d.qid.path.toNat
  pbit32 d.mode.toNat
  pbit32 d.atime.toNat
  pbit32 d.mtime.toNat
  pbit64 d.length.toNat
  d.sv.forM putStat

/-- Run on the buffer `buf` of `nbuf` bytes; `quit` is `return 0`. -/
def convD2M (d : Dir CStr) (buf : List UInt8) : Outcome ℕ :=
  let pass : Cursor ℕ := do
    if buf.length < BIT16SZ then quit
    else
      let ss := sizeD2M d
      -- set size before erroring, so user can know how much is needed
      pbit16 ((ss + 2 ^ 32 - BIT16SZ) % 2 ^ 32)
      if ss > buf.length then return BIT16SZ
      else
        putFields d
        let p ← here
        if int ss ≠ p then quit else return p
  pass.run 0 buf

/-- The loop of `statcheck`, with `n` strings to go. -/
def skipStats : ℕ → Cursor Unit
  | 0 => return ()
  | n + 1 => do
    room BIT16SZ
    let bs ← peek 0 BIT16SZ
    advance (BIT16SZ + (GBIT16 bs).toNat)
    skipStats n

/-- Run on the buffer `buf` of `nbuf` bytes; `quit` is `return -1`. -/
def statcheck (buf : List UInt8) : Outcome Unit :=
  let pass : Cursor Unit := do
    if buf.length < STATFIXLEN then quit
    else
      let bs ← peek 0 BIT16SZ
      if buf.length ≠ BIT16SZ + (GBIT16 bs).toNat then quit
      else
        advance (STATFIXLEN - 4 * BIT16SZ)
        skipStats 4
        let p ← here
        if p ≠ buf.length then quit else return ()
  pass.run 0 buf

/-- Overwrite the bytes from the address `a`, wherever the cursor is. -/
def pokeAt (a : ℕ) (bs : List UInt8) : Cursor Unit where
  run p mem :=
    if a + bs.length ≤ mem.length then .ok () p (mem.take a ++ bs ++ mem.drop (a + bs.length)) else .fault

/-- The loop of `convM2D`, with `n` strings to go: the pointers it puts in `sv`, none of them
without a string area. -/
def getStats (ebuf : ℕ) : ℕ → Option ℕ → Cursor (List Str)
  | 0, _ => return []
  | n + 1, strs => do
    let p ← here
    if p + BIT16SZ > ebuf then quit
    else
      let ns := (← gbit16).toNat
      let p ← here
      if p + ns > ebuf then quit
      else
        match strs with
        | none =>
          advance ns
          getStats ebuf n none
        | some s =>
          let bs ← peek 0 ns
          pokeAt s bs
          pokeAt (s + ns) [0]
          advance ns
          let sv ← getStats ebuf n (some (s + ns + 1))
          return ⟨s, ns⟩ :: sv

/-- The fixed-length fields `convM2D` reads, with the strings of `sv`. -/
def getFixed : Cursor (List Str → Str → Dir Str) := do
  let type ← gbit16
  let dev ← gbit32
  let qtype ← gbit8
  let vers ← gbit32
  let path ← gbit64
  let mode ← gbit32
  let atime ← gbit32
  let mtime ← gbit32
  let length ← gbit64
  return fun sv nullstring ↦ {
    type, dev, qid := { type := qtype, vers, path }, mode, atime, mtime, length
    name := sv.getD 0 nullstring
    uid := sv.getD 1 nullstring
    gid := sv.getD 2 nullstring
    muid := sv.getD 3 nullstring }

/-- Run on the memory that holds the message at `buf` and the string area, if there is one, at
`strs`; they may overlap, and `dirstat` passes one address for both. `nullstring` is the
address of an empty string. `quit` is `return 0`. -/
def convM2D (buf nbuf : ℕ) (strs : Option ℕ) (nullstring : Str) (mem : List UInt8) : Outcome (ℕ × Dir Str) :=
  let pass : Cursor (ℕ × Dir Str) := do
    if nbuf < STATFIXLEN then quit
    else
      advance BIT16SZ -- ignore size
      let d ← getFixed
      let sv ← getStats (buf + nbuf) 4 strs
      let p ← here
      return (p - buf, d sv nullstring)
  pass.run buf mem

end Petele.NineP
