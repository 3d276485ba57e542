import Petele.NineP.Fcall

namespace Petele.NineP

open Lib Cursor

/-! ### `convS2M.c` -/

/-- `PBITn(p, v); p += BITnSZ`, for the four widths. -/
def pbit8 (v : UInt8) : Cursor Unit := do
  poke 0 (PBIT8 v)
  advance BIT8SZ

def pbit16 (v : ℕ) : Cursor Unit := do
  poke 0 (PBIT16 v)
  advance BIT16SZ

def pbit32 (v : ℕ) : Cursor Unit := do
  poke 0 (PBIT32 v)
  advance BIT32SZ

def pbit64 (v : ℕ) : Cursor Unit := do
  poke 0 (PBIT64 v)
  advance BIT64SZ

def pstring (s : CStr) : Cursor Unit :=
  match s with
  | none => pbit16 0
  | some s => do
    let n := strlen s % 2 ^ 32
    poke BIT16SZ (s.take n)
    poke 0 (PBIT16 n)
    advance (n + BIT16SZ)

def pqid (q : Qid) : Cursor Unit := do
  pbit8 q.type
  pbit32 q.vers.toNat
  pbit64 q.path.toNat

/-- `memmove(p, v, n); p += n` out of the memory at `v`. -/
def pdata (v : List UInt8) (n : ℕ) : Cursor Unit := do
  poke 0 (v.take n)
  advance n

def stringsz (s : CStr) : ℕ :=
  match s with
  | none => BIT16SZ
  | some s => BIT16SZ + strlen s

/-- What `sizeS2M` adds for each message type. -/
def sizeBody (f : Fcall CStr (List UInt8)) : MsgType → ℕ
  | .Tversion => BIT32SZ + stringsz f.version
  | .Tflush => BIT16SZ
  | .Tauth => BIT32SZ + stringsz f.uname + stringsz f.aname
  | .Tattach => BIT32SZ + BIT32SZ + stringsz f.uname + stringsz f.aname
  | .Twalk =>
    BIT32SZ + BIT32SZ + BIT16SZ + ((List.range f.nwname.toNat).map (fun i ↦ stringsz (f.wname i))).sum
  | .Topen => BIT32SZ + BIT8SZ
  | .Tcreate => BIT32SZ + stringsz f.name + BIT32SZ + BIT8SZ
  | .Tread => BIT32SZ + BIT64SZ + BIT32SZ
  | .Twrite => BIT32SZ + BIT64SZ + BIT32SZ + f.count.toNat
  | .Tclunk | .Tremove => BIT32SZ
  | .Tstat => BIT32SZ
  | .Twstat => BIT32SZ + BIT16SZ + f.nstat.toNat
  | .Rversion => BIT32SZ + stringsz f.version
  | .Rerror => stringsz f.ename
  | .Rflush => 0
  | .Rauth => QIDSZ
  | .Rattach => QIDSZ
  | .Rwalk => BIT16SZ + f.nwqid.toNat * QIDSZ
  | .Ropen | .Rcreate => QIDSZ + BIT32SZ
  | .Rread => BIT32SZ + f.count.toNat
  | .Rwrite => BIT32SZ
  | .Rclunk => 0
  | .Rremove => 0
  | .Rstat => BIT16SZ + f.nstat.toNat
  | .Rwstat => 0

/-- The additions are on `uint`, so they wrap. -/
def sizeS2M (f : Fcall CStr (List UInt8)) : ℕ :=
  match MsgType.ofCode f.type with
  | none => 0
  | some t => (BIT32SZ + BIT8SZ + BIT16SZ + sizeBody f t) % 2 ^ 32

/-- The `switch` of `convS2M`. -/
def putBody (f : Fcall CStr (List UInt8)) : MsgType → Cursor Unit
  | .Tversion => do
    pbit32 f.msize.toNat
    pstring f.version
  | .Tflush => pbit16 f.oldtag.toNat
  | .Tauth => do
    pbit32 f.afid.toNat
    pstring f.uname
    pstring f.aname
  | .Tattach => do
    pbit32 f.fid.toNat
    pbit32 f.afid.toNat
    pstring f.uname
    pstring f.aname
  | .Twalk => do
    pbit32 f.fid.toNat
    pbit32 f.newfid.toNat
    pbit16 f.nwname.toNat
    if f.nwname.toNat > MAXWELEM then quit
    else (List.range f.nwname.toNat).forM (fun i ↦ pstring (f.wname i))
  | .Topen => do
    pbit32 f.fid.toNat
    pbit8 f.mode
  | .Tcreate => do
    pbit32 f.fid.toNat
    pstring f.name
    pbit32 f.perm.toNat
    pbit8 f.mode
  | .Tread => do
    pbit32 f.fid.toNat
    pbit64 f.offset.toNat
    pbit32 f.count.toNat
  | .Twrite => do
    pbit32 f.fid.toNat
    pbit64 f.offset.toNat
    pbit32 f.count.toNat
    pdata f.data f.count.toNat
  | .Tclunk | .Tremove => pbit32 f.fid.toNat
  | .Tstat => pbit32 f.fid.toNat
  | .Twstat => do
    pbit32 f.fid.toNat
    pbit16 f.nstat.toNat
    pdata f.stat f.nstat.toNat
  | .Rversion => do
    pbit32 f.msize.toNat
    pstring f.version
  | .Rerror => pstring f.ename
  | .Rflush => return ()
  | .Rauth => pqid f.aqid
  | .Rattach => pqid f.qid
  | .Rwalk => do
    pbit16 f.nwqid.toNat
    if f.nwqid.toNat > MAXWELEM then quit
    else (List.range f.nwqid.toNat).forM (fun i ↦ pqid (f.wqid i))
  | .Ropen | .Rcreate => do
    pqid f.qid
    pbit32 f.iounit.toNat
  | .Rread => do
    pbit32 f.count.toNat
    pdata f.data f.count.toNat
  | .Rwrite => pbit32 f.count.toNat
  | .Rclunk => return ()
  | .Rremove => return ()
  | .Rstat => do
    pbit16 f.nstat.toNat
    pdata f.stat f.nstat.toNat
  | .Rwstat => return ()

/-- Run on the buffer `ap` of `nap` bytes; `quit` is `return 0`. -/
def convS2M (f : Fcall CStr (List UInt8)) (ap : List UInt8) : Outcome ℕ :=
  let size := sizeS2M f
  let pass : Cursor ℕ := do
    if size = 0 then quit
    else if size > ap.length then quit
    else
      pbit32 size
      pbit8 f.type
      pbit16 f.tag.toNat
      match MsgType.ofCode f.type with
      | none => quit
      | some t =>
        putBody f t
        let p ← here
        if size ≠ p then quit else return size
  pass.run 0 ap

/-! ### `convM2S.c` -/

/-- `GBITn(p)` and then `p += BITnSZ`, for the four widths. -/
def gbit8 : Cursor UInt8 := do
  let bs ← peek 0 BIT8SZ
  advance BIT8SZ
  return GBIT8 bs

def gbit16 : Cursor UInt16 := do
  let bs ← peek 0 BIT16SZ
  advance BIT16SZ
  return GBIT16 bs

def gbit32 : Cursor UInt32 := do
  let bs ← peek 0 BIT32SZ
  advance BIT32SZ
  return GBIT32 bs

def gbit64 : Cursor UInt64 := do
  let bs ← peek 0 BIT64SZ
  advance BIT64SZ
  return GBIT64 bs

/-- A decoded string: the pointer into the buffer that `gstring` leaves, and the count it
read there. The C program keeps the pointer only. -/
structure Str where
  p : ℕ
  n : ℕ
  deriving DecidableEq, Repr

/-- A nil result ends `convM2S` with 0, as `return 0` does. -/
def gstring : Cursor Str := do
  room BIT16SZ
  let n := (GBIT16 (← peek 0 BIT16SZ)).toNat
  advance (BIT16SZ - 1)
  room (n + 1)
  -- move it down, on top of count, to make room for the NUL
  let s ← peek 1 n
  poke 0 s
  poke n [0]
  let p ← here
  advance (n + 1)
  return ⟨p, n⟩

def gqid : Cursor Qid := do
  room QIDSZ
  let type ← gbit8
  let vers ← gbit32
  let path ← gbit64
  return { type, vers, path }

/-- `if(p+n > ep) return 0;`, and then a pointer to `n` bytes. -/
def gdata (n : ℕ) : Cursor ℕ := do
  room n
  let p ← here
  advance n
  return p

/-- The `switch` of `convM2S`. -/
def getBody (f : Fcall Str ℕ) : MsgType → Cursor (Fcall Str ℕ)
  | .Tversion => do
    room BIT32SZ
    let msize ← gbit32
    let version ← gstring
    return { f with msize, version }
  | .Tflush => do
    room BIT16SZ
    let oldtag ← gbit16
    return { f with oldtag }
  | .Tauth => do
    room BIT32SZ
    let afid ← gbit32
    let uname ← gstring
    let aname ← gstring
    return { f with afid, uname, aname }
  | .Tattach => do
    room BIT32SZ
    let fid ← gbit32
    room BIT32SZ
    let afid ← gbit32
    let uname ← gstring
    let aname ← gstring
    return { f with fid, afid, uname, aname }
  | .Twalk => do
    room (BIT32SZ + BIT32SZ + BIT16SZ)
    let fid ← gbit32
    let newfid ← gbit32
    let nwname ← gbit16
    if nwname.toNat > MAXWELEM then quit
    else
      let wname ← getAll gstring nwname.toNat 0 f.wname
      return { f with fid, newfid, nwname, wname }
  | .Topen => do
    room (BIT32SZ + BIT8SZ)
    let fid ← gbit32
    let mode ← gbit8
    return { f with fid, mode }
  | .Tcreate => do
    room BIT32SZ
    let fid ← gbit32
    let name ← gstring
    room (BIT32SZ + BIT8SZ)
    let perm ← gbit32
    let mode ← gbit8
    return { f with fid, name, perm, mode }
  | .Tread => do
    room (BIT32SZ + BIT64SZ + BIT32SZ)
    let fid ← gbit32
    let offset ← gbit64
    let count ← gbit32
    return { f with fid, offset, count }
  | .Twrite => do
    room (BIT32SZ + BIT64SZ + BIT32SZ)
    let fid ← gbit32
    let offset ← gbit64
    let count ← gbit32
    let data ← gdata count.toNat
    return { f with fid, offset, count, data }
  | .Tclunk | .Tremove => do
    room BIT32SZ
    let fid ← gbit32
    return { f with fid }
  | .Tstat => do
    room BIT32SZ
    let fid ← gbit32
    return { f with fid }
  | .Twstat => do
    room (BIT32SZ + BIT16SZ)
    let fid ← gbit32
    let nstat ← gbit16
    let stat ← gdata nstat.toNat
    return { f with fid, nstat, stat }
  | .Rversion => do
    room BIT32SZ
    let msize ← gbit32
    let version ← gstring
    return { f with msize, version }
  | .Rerror => do
    let ename ← gstring
    return { f with ename }
  | .Rflush => return f
  | .Rauth => do
    let aqid ← gqid
    return { f with aqid }
  | .Rattach => do
    let qid ← gqid
    return { f with qid }
  | .Rwalk => do
    room BIT16SZ
    let nwqid ← gbit16
    if nwqid.toNat > MAXWELEM then quit
    else
      let wqid ← getAll gqid nwqid.toNat 0 f.wqid
      return { f with nwqid, wqid }
  | .Ropen | .Rcreate => do
    let qid ← gqid
    room BIT32SZ
    let iounit ← gbit32
    return { f with qid, iounit }
  | .Rread => do
    room BIT32SZ
    let count ← gbit32
    let data ← gdata count.toNat
    return { f with count, data }
  | .Rwrite => do
    room BIT32SZ
    let count ← gbit32
    return { f with count }
  | .Rclunk | .Rremove => return f
  | .Rstat => do
    room BIT16SZ
    let nstat ← gbit16
    let stat ← gdata nstat.toNat
    return { f with nstat, stat }
  | .Rwstat => return f

/-- Run on the buffer `ap` of `nap` bytes, over what the caller's `Fcall` holds; `quit` is
`return 0`. -/
def convM2S (ap : List UInt8) (f : Fcall Str ℕ) : Outcome (ℕ × Fcall Str ℕ) :=
  let pass : Cursor (ℕ × Fcall Str ℕ) := do
    room (BIT32SZ + BIT8SZ + BIT16SZ)
    let size ← gbit32
    if size.toNat < BIT32SZ + BIT8SZ + BIT16SZ then quit
    else
      let type ← gbit8
      let tag ← gbit16
      match MsgType.ofCode type with
      | none => quit
      | some t =>
        let f ← getBody { f with type, tag } t
        room 0
        let p ← here
        if size.toNat = p then return (size.toNat, f) else quit
  pass.run 0 ap

end Petele.NineP
