import Petele.Git.Delta

namespace Petele.Git

/-- The buffer `append` fills: the bytes in it, `len` of them, and the `sz` it has room for. -/
structure Outbuf where
  p : List UInt8
  sz : ℕ

/-- The loop of `append`. It fails where `*sz` stops growing or leaves the range of an `int`. -/
def regrow (need sz : ℕ) : Option ℕ :=
  if need < sz then some sz
  else if sz < 2 ∨ 2 ^ 31 ≤ sz + sz / 2 then none
  else regrow need (sz + sz / 2)
termination_by 2 ^ 31 - sz

def append (b : Outbuf) (seg : List UInt8) : Option Outbuf :=
  if 2 ^ 31 ≤ b.p.length + seg.length then none
  else (regrow (b.p.length + seg.length) b.sz).map fun sz => ⟨b.p ++ seg, sz⟩

/-- The loop that writes a size, with the byte it may still have to mark. -/
def sizebytes (c : UInt8) (n : ℕ) : List UInt8 :=
  if n = 0 then [c] else (c ||| 0x80) :: sizebytes (UInt8.ofNat (n &&& 0x7f)) (n >>> 7)
termination_by n
decreasing_by
  rw [Nat.shiftRight_eq_div_pow]
  omega

/-- An object's size in front of the deltas. -/
def encodesize (n : ℕ) : List UInt8 := sizebytes (UInt8.ofNat (n &&& 0x7f)) (n >>> 7)

/-- The loop over the bytes of an offset; it sets a bit of the opcode for each. -/
def offbytes : ℕ → ℕ → UInt8 → ℕ → UInt8 × List UInt8
  | 0, _, op, _ => (op, [])
  | fuel + 1, i, op, n =>
    let op := op ||| UInt8.ofNat (1 <<< i)
    let c := UInt8.ofNat (n &&& 0xff)
    let n := n >>> 8
    if n = 0 then (op, [c])
    else
      let r := offbytes fuel (i + 1) op n
      (r.1, c :: r.2)

/-- The loop over the bytes of a length. -/
def lenbytes : ℕ → ℕ → UInt8 → ℕ → UInt8 × List UInt8
  | 0, _, op, _ => (op, [])
  | fuel + 1, i, op, n =>
    if n = 0 then (op, [])
    else
      let op := op ||| UInt8.ofNat (1 <<< (i + 4))
      let r := lenbytes fuel (i + 1) op (n >>> 8)
      (r.1, UInt8.ofNat (n &&& 0xff) :: r.2)

/-- `sizeof(buf)`. -/
def sizeofbuf : ℕ := 16

/-- The command for a copy; it fails where an assertion does. -/
def copycmd (off len : ℕ) : Option (List UInt8) :=
  if off < 1 <<< 32 then
    let o := offbytes sizeofbuf 0 0x81 off
    if len < 1 <<< 24 then
      if len ≠ 0x10000 then
        let l := lenbytes (sizeofbuf - 4) 0 (o.1 ||| 0x10) len
        some (l.1 :: (o.2 ++ l.2))
      else some (o.1 :: o.2)
    else none
  else none

/-- The loop over the inline data of a delta, `n` bytes of which are out. -/
def inlinecmds (data : List UInt8) (d : Delta) : ℕ → ℕ → Outbuf → Option Outbuf
  | 0, _, _ => none
  | fuel + 1, n, out =>
    if n = d.len then some out
    else do
      let c := if d.len - n < 127 then d.len - n else 127
      let out ← append out [UInt8.ofNat c]
      let out ← append out (bytes data (d.off + n) c)
      inlinecmds data d fuel (n + c) out

/-- One turn of the loop over the deltas. -/
def encodecmd (data : List UInt8) (out : Outbuf) (d : Delta) : Option Outbuf :=
  if d.cpy then (copycmd d.off d.len).bind (append out)
  else inlinecmds data d (d.len + 1) 0 out

def encodedelta (ds : List Delta) (o b : Object) : Option (List UInt8) := do
  let out ← append ⟨[], 128⟩ (encodesize b.size)
  let out ← append out (encodesize o.size)
  let out ← ds.foldlM (encodecmd o.data) out
  return out.p

/-- `readvint`, with the bits so far and their number. -/
def readvint (s n : ℕ) : List UInt8 → Option (ℕ × List UInt8)
  | [] => none
  | c :: p =>
    let n := n ||| (c.toNat &&& 0x7f) <<< s
    if c &&& 0x80 ≠ 0 ∧ s + 7 < 63 then readvint (s + 7) n p else some (n, p)

/-- One line of `applydelta` that reads an optional byte of an offset or a length. -/
def optbyte (c bit : UInt8) (s : ℕ) (r : ℕ × List UInt8) : ℕ × List UInt8 :=
  match r.2 with
  | [] => r
  | x :: d => if c &&& bit ≠ 0 then (r.1 ||| x.toNat <<< s, d) else r

/-- The offset of a copy. -/
def copyoff (c : UInt8) (d : List UInt8) : ℕ × List UInt8 :=
  optbyte c 0x08 24 (optbyte c 0x04 16 (optbyte c 0x02 8 (optbyte c 0x01 0 (0, d))))

/-- The length of a copy. -/
def copylen (c : UInt8) (d : List UInt8) : ℕ × List UInt8 :=
  let r := optbyte c 0x40 16 (optbyte c 0x20 8 (optbyte c 0x10 0 (0, d)))
  (if r.1 = 0 then 0x10000 else r.1, r.2)

theorem optbyte_length (c bit : UInt8) (s : ℕ) (r : ℕ × List UInt8) :
    (optbyte c bit s r).2.length ≤ r.2.length := by
  rw [optbyte]
  split
  · exact Nat.le_refl _
  · rename_i x d hd
    split
    · rw [hd]
      exact Nat.le_succ _
    · exact Nat.le_refl _

theorem copyoff_length (c : UInt8) (d : List UInt8) : (copyoff c d).2.length ≤ d.length :=
  calc (copyoff c d).2.length
    _ ≤ _ := optbyte_length _ _ _ _
    _ ≤ _ := optbyte_length _ _ _ _
    _ ≤ _ := optbyte_length _ _ _ _
    _ ≤ d.length := optbyte_length _ _ _ _

theorem copylen_length (c : UInt8) (d : List UInt8) : (copylen c d).2.length ≤ d.length :=
  calc (copylen c d).2.length
    _ ≤ _ := optbyte_length _ _ _ _
    _ ≤ _ := optbyte_length _ _ _ _
    _ ≤ d.length := optbyte_length _ _ _ _

/-- The loop of `applydelta` over the commands `d`, with `r` written of the `nr` bytes. The last
byte of an offset is shifted as an `int`: from `2 ^ 31` on the offset is negative. -/
def applycmds (base : List UInt8) (nr : ℕ) (r d : List UInt8) : Except String (List UInt8) :=
  match d with
  | [] => if r.length ≠ nr then .error "truncated delta" else .ok r
  | c :: d =>
    if c &&& 0x80 ≠ 0 then
      let o := copyoff c d
      let l := copylen c o.2
      if 2 ^ 31 ≤ o.1 ∨ nr - r.length < l.1 ∨ base.length < o.1 + l.1 then
        .error "garbled delta: out of bounds copy"
      else applycmds base nr (r ++ bytes base o.1 l.1) l.2
    else if d.length < c.toNat ∨ nr - r.length < c.toNat then
      .error "garbled delta: write past object"
    else applycmds base nr (r ++ d.take c.toNat) (d.drop c.toNat)
termination_by d.length
decreasing_by
  · have ho := copyoff_length c d
    have hl := copylen_length c (copyoff c d).2
    simp only [List.length_cons]
    omega
  · simp only [List.length_drop, List.length_cons]
    omega

/-- The text `%T` prints for a type. -/
def Tfmt : Otype → String
  | .GNone => "none"
  | .GCommit => "commit"
  | .GTree => "tree"
  | .GBlob => "blob"
  | .GTag => "tag"
  | .GOdelta => "odelta"
  | .GRdelta => "gdelta"

/-- The header of an object with the NUL behind it. -/
def header (type : Otype) (size : ℕ) : List UInt8 :=
  (Tfmt type ++ " " ++ toString size).toUTF8.data.toList ++ [0]

/-- `applydelta`; the failures carry the text given to `werrstr`. -/
def applydelta (base : Object) (d : List UInt8) : Except String Object :=
  match readvint 0 0 d with
  | none => .error "mismatched source size"
  | some (n, d) =>
    if 1 <<< 31 ≤ n ∨ n ≠ base.size then .error "mismatched source size"
    else
      match readvint 0 0 d with
      | none => .error "invalid pack: %r"
      | some (nr, d) =>
        if 1 <<< 31 ≤ nr then .error "invalid pack: %r"
        else
          (applycmds base.data nr [] d).map fun r =>
            ⟨base.type, header base.type nr ++ r, r⟩

end Petele.Git
