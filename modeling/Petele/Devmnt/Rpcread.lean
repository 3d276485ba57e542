import Petele.Qio.Surgery
import Petele.NineP.RoundTrip
import Petele.NineP.Dir

namespace Petele.Devmnt

open Lib Qio Qio.Buffer NineP

/-- What `mntrpcread` uses of a `Mnt`, and the chains that its channel is to return; behind them, and for an empty one,
`bread` returns nil. -/
structure Mnt where
  msize : ℕ
  q : Listq
  channel : List (List Buffer)

/-- What `mntrpcread` fills in of a `Mntrpc`. -/
structure Mntrpc where
  reply : Fcall Str ℕ
  b : List Buffer

def blockalloclen (l : List Buffer) : ℤ := l.foldl (fun len b => wrap (len + b.BALLOC)) 0

def qlen (q : Listq) : ℤ := q.dlen

def qaddlist (q : Listq) (b : List Buffer) : Listq where
  bfirst := q.bfirst ++ b
  len := wrap (q.len + blockalloclen b)
  dlen := wrap (q.dlen + blocklen b)

/-- The first block is taken off the queue. -/
def qremove (q : Listq) : Option (Buffer × Listq) :=
  match q.bfirst with
  | [] => none
  | b :: l => some (b, ⟨l, wrap (q.len - b.BALLOC), wrap (q.dlen - b.BLEN)⟩)

def qputback (q : Listq) (b : Buffer) : Listq where
  bfirst := b :: q.bfirst
  len := wrap (q.len + b.BALLOC)
  dlen := wrap (q.dlen + b.BLEN)

/-- The loop of `qdiscard`, with the bytes that are still to go. -/
def discardloop (l : List Buffer) (len dlen rest : ℤ) : Option Listq :=
  match l with
  | [] => some ⟨[], len, dlen⟩
  | b :: l =>
    if 0 < rest then
      if b.BLEN ≤ rest then discardloop l (wrap (len - b.BALLOC)) (wrap (dlen - b.BLEN)) (rest - b.BLEN)
      else do
        let b ← b.advance rest.toNat
        return ⟨b :: l, len, wrap (dlen - rest)⟩
    else some ⟨b :: l, len, dlen⟩

def qdiscard (q : Listq) (len : ℤ) : Option Listq := discardloop q.bfirst q.len q.dlen len

/-- `doread`: whether the bytes are there, the queue, and what the channel is still to return. -/
def doread (len : ℤ) : List (List Buffer) → Listq → Bool × Listq × List (List Buffer)
  | [], q => (decide (len ≤ qlen q), q, [])
  | b :: channel, q =>
    if qlen q < len then if blocklen b = 0 then (false, q, channel) else doread len channel (qaddlist q b)
    else (true, q, b :: channel)

/-- The bytes of a message of type `t` that `convM2S` is given `n` of. They must be in the block, where those of an `Rread`
behind its count, which are not looked at, may be in the blocks behind it. -/
def handed (nb : Buffer) (l : List Buffer) (t : UInt8) (n : ℕ) : Option (List UInt8) :=
  if n ≤ nb.BLEN then some (nb.data.take n)
  else if t = MsgType.Rread.code ∧ BIT32SZ + BIT8SZ + BIT16SZ + BIT32SZ ≤ nb.BLEN ∧ n ≤ (flat (nb :: l)).length then
    some (nb.data ++ List.replicate (n - nb.BLEN) 0)
  else none

/-- `b->rp += hlen`, for the first block. -/
def skip (b : Buffer) (hlen : ℤ) : Option Buffer := if 0 < hlen then b.advance hlen.toNat else some b

/-- The loop behind `convM2S`, on the blocks of the queue: those of the message, and the queue. -/
def hang (g : Grant) : ℤ → ℤ → List Buffer → Listq → Option (List Buffer × Listq)
  | _, _, [], _ => none
  | hlen, len, _ :: l, q => do
    let (b, q) ← qremove q
    let b ← skip b hlen
    let len := if 0 < hlen then len - hlen else len
    if b.BLEN ≤ len then
      if 0 < len - b.BLEN then
        let (bs, q) ← hang g 0 (len - b.BLEN) l q
        return (b :: bs, q)
      else return ([b], q)
    else
      -- split block and put unused bit back
      let nb ← allocb g (wrap (b.BLEN - len))
      if 0 ≤ len then
        let nb ← nb.append (b.data.drop len.toNat)
        let b ← b.cut len.toNat
        return ([b], qputback q nb)
      else none

/-- The end of `mntrpcread`, with the whole message in the queue. Following nil, leaving a block or giving `convM2S` bytes
that are not there is `none`. Of the reply to a message that `convM2S` refuses nothing is kept, and neither is how it moves
strings, which is in front of `rp` then. -/
def unpack (g : ℕ → Grant) (mnt : Mnt) (r : Mntrpc) (t : UInt8) (size : ℕ) (q : Listq) (channel : List (List Buffer)) :
    Option (ℤ × Mntrpc × Mnt) := do
  let len := int size
  -- pullup the header (i.e. everything except data)
  let hlen : ℤ := if t = MsgType.Rread.code then (BIT32SZ + BIT8SZ + BIT16SZ + BIT32SZ : ℕ) else len
  let q ← pullupqueue (g 1) q hlen
  let nb ← q.bfirst.head?
  let ap ← handed nb q.bfirst.tail t size
  match convM2S ap r.reply with
  | .fault => none
  | .quit _ => do
    let q ← qdiscard q len
    return (-1, r, ⟨mnt.msize, q, channel⟩)
  | .ok (_, reply) _ _ => do
    let (b, q) ← hang (g 2) hlen len q.bfirst q
    return (0, ⟨reply, b⟩, ⟨mnt.msize, q, channel⟩)

/-- `mntrpcread` from where the header is in the first block of the queue, `nb`. -/
def message (g : ℕ → Grant) (mnt : Mnt) (r : Mntrpc) (nb : Buffer) (q : Listq) (channel : List (List Buffer)) :
    Option (ℤ × Mntrpc × Mnt) :=
  -- read in the rest of the message, avoid ridiculous (for now) message sizes
  let size := (GBIT32 nb.data).toNat
  let len := int size
  if len > mnt.msize then do
    let q ← qdiscard q (qlen q)
    return (-1, r, ⟨mnt.msize, q, channel⟩)
  else
    match doread len channel q with
    | (false, q, channel) => some (-1, r, ⟨mnt.msize, q, channel⟩)
    | (true, q, channel) => unpack g mnt r (nb.data.getD BIT32SZ 0) size q channel

def mntrpcread (g : ℕ → Grant) (mnt : Mnt) (r : Mntrpc) : Option (ℤ × Mntrpc × Mnt) :=
  let r := { r with reply := { r.reply with type := 0, tag := 0 } }
  -- read at least length, type, and tag and pullup to a single block
  match doread (BIT32SZ + BIT8SZ + BIT16SZ : ℕ) mnt.channel mnt.q with
  | (false, q, channel) => some (-1, r, ⟨mnt.msize, q, channel⟩)
  | (true, q, channel) => do
    let q ← pullupqueue (g 0) q (BIT32SZ + BIT8SZ + BIT16SZ : ℕ)
    let nb ← q.bfirst.head?
    message g mnt r nb q channel

/-- Call after call, each with what it is granted and the request that it fills in. -/
def mntrpcreads (mnt : Mnt) : List ((ℕ → Grant) × Mntrpc) → Option (List (ℤ × Mntrpc) × Mnt)
  | [] => some ([], mnt)
  | (g, r) :: rs => do
    let (ret, r, mnt) ← mntrpcread g mnt r
    let (rets, mnt) ← mntrpcreads mnt rs
    return ((ret, r) :: rets, mnt)

end Petele.Devmnt
