import Petele.Qio.Account

namespace Petele.Qio

open Lib

/-- `struct Block` with the bytes of its buffer: those from `base` to `rp`, its data from `rp` to
`wp`, and those from `wp` to `lim`. `intr` is the flag `BINTR`. -/
structure Buffer where
  front : List UInt8
  data : List UInt8
  back : List UInt8
  intr : Bool
  size : 0 < front.length + data.length + back.length ∧
    front.length + data.length + back.length < 2 ^ 31

/-! A chain of blocks is the list of them, nil the empty list. What `panic`s, follows nil or leaves a
buffer is `none`. -/

namespace Buffer

def BLEN (b : Buffer) : ℕ := b.data.length

def BALLOC (b : Buffer) : ℕ := b.front.length + b.data.length + b.back.length

/-- `b->rp += k`. -/
def advance (b : Buffer) (k : ℕ) : Option Buffer :=
  if h : k ≤ b.data.length then
    some ⟨b.front ++ b.data.take k, b.data.drop k, b.back, b.intr, by
      have := b.size
      simp only [List.length_append, List.length_take, List.length_drop]
      omega⟩
  else none

/-- `b->rp -= k`. -/
def retreat (b : Buffer) (k : ℕ) : Option Buffer :=
  if h : k ≤ b.front.length then
    some ⟨b.front.take (b.front.length - k), b.front.drop (b.front.length - k) ++ b.data, b.back, b.intr, by
      have := b.size
      simp only [List.length_append, List.length_take, List.length_drop]
      omega⟩
  else none

/-- `b->wp = b->rp + k`, for a `k` up to the data there is. -/
def cut (b : Buffer) (k : ℕ) : Option Buffer :=
  if h : k ≤ b.data.length then
    some ⟨b.front, b.data.take k, b.data.drop k ++ b.back, b.intr, by
      have := b.size
      simp only [List.length_append, List.length_take, List.length_drop]
      omega⟩
  else none

/-- `memmove(b->wp, src, n); b->wp += n`. -/
def append (b : Buffer) (src : List UInt8) : Option Buffer :=
  if h : src.length ≤ b.back.length then
    some ⟨b.front, b.data ++ src, b.back.drop src.length, b.intr, by
      have := b.size
      simp only [List.length_append, List.length_drop]
      omega⟩
  else none

def Hdrspc : ℕ := 64

def BLOCKALIGN : ℕ := 8

/-- `sizeof(Block)`. -/
def sizeofBlock : ℕ := 64

def ROUNDUP (x y : ℕ) : ℕ := (x + (y - 1)) / y * y

/-- What `malloc` finds: an address, and whatever bytes are there. -/
structure Grant where
  addr : ℕ
  junk : ℕ → UInt8

/-- The bytes of the buffer of `_allocb`, from `base` to `lim`. -/
def Grant.len (g : Grant) (size : ℕ) : ℕ :=
  BLOCKALIGN - g.addr % BLOCKALIGN + ROUNDUP (size + Hdrspc) BLOCKALIGN

/-- The `size` of `_allocb` is an `int`, and so is the number of bytes it asks `malloc` for. -/
def allocs (size : ℤ) : Prop :=
  0 ≤ size ∧ BLOCKALIGN + ROUNDUP (size.toNat + Hdrspc) BLOCKALIGN + sizeofBlock < 2 ^ 31

instance (size : ℤ) : Decidable (allocs size) := inferInstanceAs (Decidable (_ ∧ _))

/-- The room in front of the data. -/
theorem Grant.len_split (g : Grant) {size : ℤ} (h : allocs size) :
    ROUNDUP size.toNat BLOCKALIGN ≤ g.len size.toNat ∧ 0 < g.len size.toNat ∧
      g.len size.toNat < 2 ^ 31 := by
  obtain ⟨hpos, hsmall⟩ := h
  have hmod : g.addr % 8 < 8 := Nat.mod_lt _ (by decide)
  simp only [Grant.len, ROUNDUP, BLOCKALIGN, Hdrspc, sizeofBlock] at *
  omega

/-- `_allocb`, with what `malloc` finds. -/
def _allocb (intr : Bool) (g : Grant) (size : ℤ) : Option Buffer :=
  if h : allocs size then
    let room := (List.range (g.len size.toNat)).map g.junk
    let rp := g.len size.toNat - ROUNDUP size.toNat BLOCKALIGN
    some ⟨room.take rp, [], room.drop rp, intr, by
      have hlen : room.length = g.len size.toNat := by rw [List.length_map, List.length_range]
      have := g.len_split h
      simp only [List.length_take, List.length_drop, List.length_nil, hlen]
      omega⟩
  else none

def allocb (g : Grant) (size : ℤ) : Option Buffer := _allocb false g size

/-- `iallocb`; where it finds no memory it returns nil. -/
def iallocb (g : Grant) (size : ℤ) : Option Buffer := _allocb true g size

/-- The bytes of a chain. -/
def flat (l : List Buffer) : List UInt8 := l.flatMap data

def blocklen (l : List Buffer) : ℤ := l.foldl (fun len b => wrap (len + BLEN b)) 0

/-- `padblock` in front. -/
def padfront (g : Grant) (l : List Buffer) (size : ℕ) : Option (List Buffer) := do
  let b ← l.head?
  if size ≤ b.front.length then
    let b ← b.retreat size
    return b :: l.tail
  else if l.tail ≠ [] then none
  else
    let nb ← allocb g (wrap (size + b.BLEN))
    -- `nbp->rp += size` while the block is empty: the bytes passed over are those of the room.
    if size ≤ nb.back.length then
      let nb ← nb.append (nb.back.take size)
      let nb ← nb.advance size
      let nb ← nb.append b.data
      let nb ← nb.retreat size
      return [nb]
    else none

/-- `padblock` at the back, where it only makes room. -/
def padback (g : Grant) (l : List Buffer) (size : ℕ) : Option (List Buffer) := do
  let b ← l.head?
  if l.tail ≠ [] then none
  else if size ≤ b.back.length then return [b]
  else
    let nb ← allocb g (wrap (size + b.BLEN))
    let nb ← nb.append b.data
    return [nb]

def padblock (g : Grant) (l : List Buffer) (size : ℤ) : Option (List Buffer) :=
  if 0 ≤ size then padfront g l size.toNat else padback g l (-size).toNat

def concatblock (g : Grant) (l : List Buffer) : Option (List Buffer) := do
  let b ← l.head?
  if l.tail = [] then return [b]
  else
    let nb ← allocb g (blocklen l)
    let nb ← l.foldlM (fun nb f => nb.append f.data) nb
    return [nb]

/-- The loop of `pullupblock`, with the first block `b` and the others. -/
def pullup (b : Buffer) (n : ℤ) : List Buffer → Option (List Buffer)
  | [] => some []
  | nb :: l =>
    if n < nb.BLEN then do
      let b ← b.append (nb.data.take n.toNat)
      let nb ← nb.advance n.toNat
      return b :: nb :: l
    else do
      let b ← b.append nb.data
      if n - nb.BLEN = 0 then return b :: l else pullup b (n - nb.BLEN) l

def pullupblock (g : Grant) (l : List Buffer) (n : ℤ) : Option (List Buffer) := do
  let b ← l.head?
  if n ≤ b.BLEN then return l
  else if (b.BLEN + b.back.length : ℕ) < n then
    let nb ← allocb g n
    pullup nb (n - nb.BLEN) l
  else pullup b (n - b.BLEN) l.tail

/-- The first loop of `trimblock` and `bp->rp += offset` behind it. -/
def trimfront : List Buffer → ℤ → Option (List Buffer)
  | [], _ => none
  | b :: l, offset =>
    if b.BLEN < offset then trimfront l (offset - b.BLEN)
    else do
      let b ← b.advance offset.toNat
      return b :: l

/-- The second loop of `trimblock` and the end. -/
def trimback : List Buffer → ℤ → Option (List Buffer)
  | [], _ => none
  | b :: l, len =>
    if b.BLEN < len then (trimback l (len - b.BLEN)).map (b :: ·)
    else do
      let b ← b.cut len.toNat
      return [b]

def trimblock (l : List Buffer) (offset len : ℤ) : Option (List Buffer) :=
  if blocklen l < wrap (offset + len) then some []
  else do
    let l ← trimfront l offset
    trimback l len

/-- The loop of `copyblock` and `memset`, with the bytes still to come. -/
def copyloop (nb : Buffer) : List Buffer → ℕ → Option Buffer
  | [], count => nb.append (List.replicate count 0)
  | b :: l, count =>
    if 0 < count then do
      let n := if count < b.BLEN then count else b.BLEN
      let nb ← nb.append (b.data.take n)
      copyloop nb l (count - n)
    else some nb

/-- `copyblock`; without memory `iallocb` returns nil, and so does `copyblock`. -/
def copyblock (g : Option Grant) (l : List Buffer) (count : ℕ) : Option (List Buffer) := do
  let b ← l.head?
  if b.intr then
    match g.bind fun g => iallocb g count with
    | none => return []
    | some nb =>
      let nb ← copyloop nb l count
      return [nb]
  else
    let g ← g
    let nb ← allocb g count
    let nb ← copyloop nb l count
    return [nb]

/-- `pullblock`; with the chain comes the count of bytes. -/
def pullblock : List Buffer → ℕ → Option (ℕ × List Buffer)
  | [], _ => some (0, [])
  | b :: l, count =>
    if count = 0 then some (0, b :: l)
    else do
      let n := if count < b.BLEN then count else b.BLEN
      let b' ← b.advance n
      if b'.BLEN = 0 then
        let (bytes, l) ← pullblock l (count - n)
        return (n + bytes, l)
      else return (n, b' :: l)

/-- `packblock`, with what `malloc` finds for each block. -/
def packblock : List Buffer → (ℕ → Grant) → Option (List Buffer)
  | [], _ => some []
  | b :: l, g =>
    if wrap (b.BLEN * 4) < b.BALLOC then do
      let nb ← allocb (g 0) b.BLEN
      let nb ← nb.append b.data
      let l ← packblock l fun i => g (i + 1)
      return nb :: l
    else do
      let l ← packblock l fun i => g (i + 1)
      return b :: l

/-- The buffers that `pullupblock` empties for `n` bytes, and releases. -/
def used : ℤ → List Buffer → ℕ
  | _, [] => 0
  | n, b :: l =>
    if n < b.BLEN then 0
    else if n - b.BLEN = 0 then b.BALLOC
    else b.BALLOC + used (n - b.BLEN) l

/-- The sum of `BALLOC`. -/
def rooms (l : List Buffer) : ℕ := (l.map BALLOC).sum

section Blocks

variable {b : Buffer} {l : List Buffer} {n k : ℕ}

@[simp] theorem flat_nil : flat [] = [] := rfl

@[simp] theorem flat_cons : flat (b :: l) = b.data ++ flat l := List.flatMap_cons

@[simp] theorem rooms_cons : rooms (b :: l) = b.BALLOC + rooms l := List.sum_cons

theorem BALLOC_pos (b : Buffer) : 0 < b.BALLOC := b.size.1

theorem advance_eq (h : k ≤ b.BLEN) :
    ∃ b', b.advance k = some b' ∧ b'.data = b.data.drop k ∧ b'.BALLOC = b.BALLOC := by
  refine ⟨_, dif_pos h, rfl, ?_⟩
  simp only [BALLOC, BLEN, List.length_append, List.length_take, List.length_drop] at h ⊢
  omega

/-- The room of a block that moves on. -/
theorem advance_room (h : k ≤ b.BLEN) :
    ∃ b', b.advance k = some b' ∧ b'.data = b.data.drop k ∧ b'.front.length = b.front.length + k ∧
      b'.back = b.back := by
  refine ⟨_, dif_pos h, rfl, ?_, rfl⟩
  rw [List.length_append, List.length_take, Nat.min_eq_left (show k ≤ b.data.length from h)]

theorem retreat_eq (h : k ≤ b.front.length) :
    ∃ b' pad, b.retreat k = some b' ∧ pad.length = k ∧ b'.data = pad ++ b.data := by
  refine ⟨_, b.front.drop (b.front.length - k), dif_pos h, ?_, rfl⟩
  rw [List.length_drop]
  omega

theorem cut_eq (h : k ≤ b.BLEN) : ∃ b', b.cut k = some b' ∧ b'.data = b.data.take k :=
  ⟨_, dif_pos h, rfl⟩

theorem append_eq {p : List UInt8} (h : p.length ≤ b.back.length) :
    ∃ b', b.append p = some b' ∧ b'.data = b.data ++ p ∧ b'.front = b.front ∧
      b'.back.length = b.back.length - p.length ∧ b'.BALLOC = b.BALLOC := by
  refine ⟨_, dif_pos h, rfl, rfl, List.length_drop, ?_⟩
  simp only [BALLOC, List.length_append, List.length_drop]
  omega

/-- A new block is empty and has the room it was asked for. -/
theorem allocb_eq (intr : Bool) (g : Grant) {size : ℤ} (h : allocs size) :
    ∃ nb, _allocb intr g size = some nb ∧ nb.data = [] ∧ size.toNat ≤ nb.back.length ∧
      nb.BALLOC = g.len size.toNat := by
  have hlen : ((List.range (g.len size.toNat)).map g.junk).length = g.len size.toNat := by
    rw [List.length_map, List.length_range]
  have hsplit := g.len_split h
  refine ⟨_, dif_pos h, rfl, ?_, ?_⟩
  · rw [List.length_drop, hlen]
    simp only [ROUNDUP, BLOCKALIGN] at hsplit ⊢
    omega
  · simp only [BALLOC, List.length_take, List.length_drop, List.length_nil, hlen]
    omega

theorem blocklen_eq (l : List Buffer) : blocklen l = wrap (flat l).length := by
  have hfold := wrap_foldl BLEN l 0
  rw [wrap_zero, Int.zero_add] at hfold
  rw [blocklen, hfold, flat, List.length_flatMap]
  rfl

end Blocks

section Pullup

/-- The loop of `pullupblock` with room for the bytes: it takes them off the chain behind, and the
blocks it empties go; without enough bytes all of it goes. -/
theorem pullup_spec (b : Buffer) (n : ℤ) (l : List Buffer) (hn : 0 < n) (hroom : n ≤ b.back.length) :
    (n ≤ (flat l).length → ∃ b' l', pullup b n l = some (b' :: l') ∧
      flat (b' :: l') = b.data ++ flat l ∧ (b'.BLEN : ℤ) = b.BLEN + n ∧
      rooms (b' :: l') + used n l = b.BALLOC + rooms l) ∧
    ((flat l).length < n → pullup b n l = some []) := by
  induction l generalizing b n with
  | nil =>
    refine ⟨fun h => ?_, fun _ => rfl⟩
    rw [flat_nil, List.length_nil] at h
    omega
  | cons nb l ih =>
    rw [pullup, flat_cons, List.length_append, used]
    by_cases hmore : n < nb.BLEN
    · rw [if_pos hmore, if_pos hmore]
      refine ⟨fun _ => ?_, fun h => ?_⟩
      · have htake : (nb.data.take n.toNat).length = n.toNat := by
          rw [List.length_take, Nat.min_eq_left]
          rw [BLEN] at hmore
          omega
        obtain ⟨b', hb', hdata, -, -, halloc⟩ := append_eq (b := b) (p := nb.data.take n.toNat) (by
          rw [htake]
          omega)
        obtain ⟨nb', hnb', hdata', halloc'⟩ := advance_eq (b := nb) (k := n.toNat) (by omega)
        refine ⟨b', nb' :: l, ?_, ?_, ?_, ?_⟩
        · simp only [hb', hnb', Option.bind_eq_bind, Option.bind_some, Option.pure_def]
        · rw [flat_cons, flat_cons, hdata, hdata', List.append_assoc, ← List.append_assoc (List.take _ _),
            List.take_append_drop]
        · rw [BLEN, hdata, List.length_append, htake, BLEN]
          omega
        · rw [rooms_cons, rooms_cons, rooms_cons, halloc, halloc', Nat.add_zero]
      · rw [BLEN] at hmore
        omega
    · rw [if_neg hmore, if_neg hmore]
      have hlen : nb.data.length = nb.BLEN := rfl
      obtain ⟨b', hb', hdata, -, hback, halloc⟩ := append_eq (b := b) (p := nb.data) (by omega)
      have hblen : b'.BLEN = b.BLEN + nb.BLEN := by
        rw [BLEN, hdata, List.length_append]
        rfl
      simp only [hb', Option.bind_eq_bind, Option.bind_some, Option.pure_def]
      by_cases hdone : n - nb.BLEN = 0
      · rw [if_pos hdone, if_pos hdone]
        refine ⟨fun _ => ⟨b', l, rfl, ?_, by omega, ?_⟩, fun h => by omega⟩
        · rw [flat_cons, hdata, List.append_assoc]
        · rw [rooms_cons, rooms_cons, halloc]
          omega
      · rw [if_neg hdone, if_neg hdone]
        obtain ⟨henough, hshort⟩ := ih b' (n - nb.BLEN) (by omega) (by omega)
        refine ⟨fun h => ?_, fun h => hshort (by omega)⟩
        obtain ⟨b'', l', hpull, hflat, hlong, hrooms⟩ := henough (by omega)
        refine ⟨b'', l', hpull, ?_, by omega, ?_⟩
        · rw [hflat, hdata, List.append_assoc]
        · rw [rooms_cons] at hrooms ⊢
          rw [rooms_cons]
          omega

/-- `pullupblock` on a chain whose first block is too short, with the memory it asks for. -/
theorem pullupblock_short (g : Grant) (b : Buffer) (l : List Buffer) (n : ℤ) (hshort : b.BLEN < n)
    (hmem : ((b.BLEN + b.back.length : ℕ) : ℤ) < n → allocs n) :
    (n ≤ (flat (b :: l)).length → ∃ b' l', pullupblock g (b :: l) n = some (b' :: l') ∧
      flat (b' :: l') = flat (b :: l) ∧ n ≤ b'.BLEN ∧
      rooms (b' :: l') + (if ((b.BLEN + b.back.length : ℕ) : ℤ) < n then used n (b :: l)
        else used (n - b.BLEN) l) =
      (if ((b.BLEN + b.back.length : ℕ) : ℤ) < n then g.len n.toNat else 0) + rooms (b :: l)) ∧
    ((flat (b :: l)).length < n → pullupblock g (b :: l) n = some []) := by
  have hlen : b.data.length = b.BLEN := rfl
  have hnot : ¬ n ≤ b.BLEN := by omega
  simp only [pullupblock, List.head?_cons, List.tail_cons, Option.bind_eq_bind, Option.bind_some,
    if_neg hnot]
  by_cases hroom : ((b.BLEN + b.back.length : ℕ) : ℤ) < n
  · rw [if_pos hroom, if_pos hroom, if_pos hroom]
    obtain ⟨nb, hnb, hempty, hback, halloc⟩ := allocb_eq false g (hmem hroom)
    have hzero : nb.BLEN = 0 := by rw [BLEN, hempty]; rfl
    rw [allocb, hnb, Option.bind_some, hzero]
    obtain ⟨henough, hshort⟩ := pullup_spec nb (n - (0 : ℕ)) (b :: l) (by omega) (by omega)
    refine ⟨fun h => ?_, fun h => hshort (by omega)⟩
    obtain ⟨b', l', hpull, hflat, hlong, hrooms⟩ := henough (by omega)
    refine ⟨b', l', hpull, by rw [hflat, hempty, List.nil_append], by omega, ?_⟩
    rw [halloc] at hrooms
    simpa using hrooms
  · rw [if_neg hroom, if_neg hroom, if_neg hroom]
    obtain ⟨henough, hshort⟩ := pullup_spec b (n - b.BLEN) l (by omega) (by omega)
    rw [flat_cons, List.length_append]
    refine ⟨fun h => ?_, fun h => hshort (by omega)⟩
    obtain ⟨b', l', hpull, hflat, hlong, hrooms⟩ := henough (by omega)
    refine ⟨b', l', hpull, hflat, by omega, ?_⟩
    rw [hrooms, rooms_cons, Nat.zero_add]

end Pullup

section Chains

variable {g : Grant} {b : Buffer} {l : List Buffer}

theorem pullupblock_flat (g : Grant) (b : Buffer) (l : List Buffer) (n : ℕ) (hmem : allocs n) :
    (n ≤ (flat (b :: l)).length → ∃ b' l', pullupblock g (b :: l) n = some (b' :: l') ∧
      flat (b' :: l') = flat (b :: l) ∧ n ≤ b'.BLEN) ∧
    ((flat (b :: l)).length < n → pullupblock g (b :: l) n = some []) := by
  by_cases hshort : b.BLEN < n
  · obtain ⟨henough, hnil⟩ := pullupblock_short g b l n (by omega) fun _ => hmem
    refine ⟨fun h => ?_, fun h => hnil (by omega)⟩
    obtain ⟨b', l', hpull, hflat, hlong, -⟩ := henough (by omega)
    exact ⟨b', l', hpull, hflat, by omega⟩
  · have hlen : b.data.length = b.BLEN := rfl
    refine ⟨fun _ => ⟨b, l, ?_, rfl, by omega⟩, fun h => ?_⟩
    · rw [pullupblock]
      simp only [List.head?_cons, Option.bind_eq_bind, Option.bind_some]
      rw [if_pos (by omega)]
      rfl
    · rw [flat_cons, List.length_append] at h
      omega

theorem trimfront_flat (l : List Buffer) (offset : ℕ) (h : offset ≤ (flat l).length) (hne : l ≠ []) :
    ∃ l', trimfront l offset = some l' ∧ flat l' = (flat l).drop offset ∧ l' ≠ [] := by
  induction l generalizing offset with
  | nil => exact absurd rfl hne
  | cons b l ih =>
    have hlen : b.data.length = b.BLEN := rfl
    rw [flat_cons, List.length_append] at h
    rw [trimfront]
    by_cases hmore : (b.BLEN : ℤ) < offset
    · rw [if_pos hmore]
      have hrest : (offset : ℤ) - b.BLEN = ((offset - b.BLEN : ℕ) : ℤ) := by omega
      obtain ⟨l', htrim, hflat, hne'⟩ := ih (offset - b.BLEN) (by omega) (by
        rintro rfl
        rw [flat_nil, List.length_nil] at h
        omega)
      have hnone : b.data.drop offset = [] := List.drop_of_length_le (by omega)
      refine ⟨l', by rw [hrest, htrim], ?_, hne'⟩
      rw [hflat, flat_cons, List.drop_append, hnone, List.nil_append, hlen]
    · rw [if_neg hmore]
      obtain ⟨b', hb', hdata, -⟩ := advance_eq (b := b) (k := offset) (by omega)
      refine ⟨b' :: l, ?_, ?_, List.cons_ne_nil _ _⟩
      · rw [Int.toNat_natCast, hb']
        rfl
      · rw [flat_cons, hdata, flat_cons, List.drop_append_of_le_length (by omega)]

theorem trimback_flat (l : List Buffer) (len : ℕ) (h : len ≤ (flat l).length) (hne : l ≠ []) :
    ∃ b' l', trimback l len = some (b' :: l') ∧ flat (b' :: l') = (flat l).take len := by
  induction l generalizing len with
  | nil => exact absurd rfl hne
  | cons b l ih =>
    have hlen : b.data.length = b.BLEN := rfl
    rw [flat_cons, List.length_append] at h
    rw [trimback]
    by_cases hmore : (b.BLEN : ℤ) < len
    · rw [if_pos hmore]
      have hrest : (len : ℤ) - b.BLEN = ((len - b.BLEN : ℕ) : ℤ) := by omega
      obtain ⟨b', l', htrim, hflat⟩ := ih (len - b.BLEN) (by omega) (by
        rintro rfl
        rw [flat_nil, List.length_nil] at h
        omega)
      have hall : b.data.take len = b.data := List.take_of_length_le (by omega)
      refine ⟨b, b' :: l', by rw [hrest, htrim]; rfl, ?_⟩
      rw [flat_cons, hflat, flat_cons, List.take_append, hall, hlen]
    · rw [if_neg hmore]
      obtain ⟨b', hb', hdata⟩ := cut_eq (b := b) (k := len) (by omega)
      refine ⟨b', [], ?_, ?_⟩
      · rw [Int.toNat_natCast, hb']
        rfl
      · rw [flat_cons, hdata, flat_nil, List.append_nil, flat_cons, List.take_append_of_le_length (by omega)]

theorem trimblock_flat (b : Buffer) (l : List Buffer) (offset len : ℕ)
    (hsmall : (flat (b :: l)).length < 2 ^ 31) (hsum : offset + len < 2 ^ 31) :
    (offset + len ≤ (flat (b :: l)).length → ∃ b' l', trimblock (b :: l) offset len = some (b' :: l') ∧
      flat (b' :: l') = ((flat (b :: l)).drop offset).take len) ∧
    ((flat (b :: l)).length < offset + len → trimblock (b :: l) offset len = some []) := by
  have hblocklen : blocklen (b :: l) = (flat (b :: l)).length := by
    rw [blocklen_eq]
    exact wrap_of_range (by omega) (by omega)
  have hwrap : wrap ((offset : ℤ) + len) = offset + len := wrap_of_range (by omega) (by omega)
  rw [trimblock, hblocklen, hwrap]
  refine ⟨fun h => ?_, fun h => if_pos (by omega)⟩
  rw [if_neg (by omega)]
  obtain ⟨l₁, hfront, hflat, hne⟩ := trimfront_flat (b :: l) offset (by omega) (List.cons_ne_nil _ _)
  obtain ⟨b', l', hback, hflat'⟩ := trimback_flat l₁ len (by rw [hflat, List.length_drop]; omega) hne
  refine ⟨b', l', ?_, by rw [hflat', hflat]⟩
  rw [hfront]
  exact hback

theorem pullblock_flat (l : List Buffer) (count : ℕ) :
    ∃ l', pullblock l count = some (min count (flat l).length, l') ∧ flat l' = (flat l).drop count := by
  induction l generalizing count with
  | nil => exact ⟨[], by simp [pullblock], by simp⟩
  | cons b l ih =>
    have hlen : b.data.length = b.BLEN := rfl
    rw [pullblock]
    by_cases hzero : count = 0
    · rw [if_pos hzero, hzero]
      exact ⟨b :: l, by simp, rfl⟩
    · rw [if_neg hzero]
      have hle : (if count < b.BLEN then count else b.BLEN) ≤ b.BLEN := by split <;> omega
      obtain ⟨b', hb', hdata, -⟩ := advance_eq hle
      have hblen : b'.BLEN = b.BLEN - if count < b.BLEN then count else b.BLEN := by
        rw [BLEN, hdata, List.length_drop, hlen]
      simp only [hb', Option.bind_eq_bind, Option.bind_some, Option.pure_def]
      by_cases hless : count < b.BLEN
      · rw [if_pos hless] at hblen hdata ⊢
        rw [if_neg (by omega)]
        refine ⟨b' :: l, ?_, ?_⟩
        · rw [flat_cons, List.length_append, Nat.min_eq_left (by omega)]
        · rw [flat_cons, hdata, flat_cons, List.drop_append_of_le_length (by omega)]
      · rw [if_neg hless] at hblen ⊢
        obtain ⟨l', hpull, hflat⟩ := ih (count - b.BLEN)
        rw [if_pos (by omega), hpull]
        refine ⟨l', ?_, ?_⟩
        · simp only [Option.bind_some, flat_cons, List.length_append, hlen]
          congr 2
          omega
        · have hnone : b.data.drop count = [] := List.drop_of_length_le (by omega)
          rw [hflat, flat_cons, List.drop_append, hnone, List.nil_append, hlen]

/-- A chain is copied block by block into the room of another. -/
theorem foldlM_append (l : List Buffer) (nb : Buffer) (h : (flat l).length ≤ nb.back.length) :
    ∃ nb', l.foldlM (fun nb f => nb.append f.data) nb = some nb' ∧ nb'.data = nb.data ++ flat l := by
  induction l generalizing nb with
  | nil => exact ⟨nb, rfl, (List.append_nil _).symm⟩
  | cons b l ih =>
    rw [flat_cons, List.length_append] at h
    obtain ⟨nb₁, hnb₁, hdata, -, hback, -⟩ := append_eq (b := nb) (p := b.data) (by omega)
    obtain ⟨nb', hfold, hdata'⟩ := ih nb₁ (by omega)
    refine ⟨nb', ?_, ?_⟩
    · rw [List.foldlM_cons, hnb₁]
      exact hfold
    · rw [hdata', hdata, flat_cons, List.append_assoc]

theorem concatblock_flat (g : Grant) (b : Buffer) (l : List Buffer)
    (hmem : allocs (flat (b :: l)).length) :
    ∃ b', concatblock g (b :: l) = some [b'] ∧ flat [b'] = flat (b :: l) := by
  rw [concatblock]
  simp only [List.head?_cons, Option.bind_eq_bind, Option.bind_some, Option.pure_def]
  by_cases hone : (b :: l).tail = []
  · have hnil : l = [] := hone
    rw [if_pos hone, hnil]
    exact ⟨b, rfl, rfl⟩
  · have hsmall : (flat (b :: l)).length < 2 ^ 31 := by
      have := hmem.2
      simp only [ROUNDUP, BLOCKALIGN, Hdrspc, sizeofBlock] at this
      omega
    have hblocklen : blocklen (b :: l) = (flat (b :: l)).length := by
      rw [blocklen_eq]
      exact wrap_of_range (by omega) (by omega)
    obtain ⟨nb, hnb, hempty, hback, -⟩ := allocb_eq false g hmem
    obtain ⟨nb', hfold, hdata⟩ := foldlM_append (b :: l) nb (by omega)
    rw [if_neg hone, hblocklen, allocb, hnb, Option.bind_some, hfold]
    exact ⟨nb', rfl, by rw [flat_cons, hdata, hempty, flat_nil, List.append_nil, List.nil_append]⟩

theorem packblock_flat (l : List Buffer) (g : ℕ → Grant) (hmem : ∀ b ∈ l, allocs b.BLEN) :
    ∃ l', packblock l g = some l' ∧ flat l' = flat l := by
  induction l generalizing g with
  | nil => exact ⟨[], rfl, rfl⟩
  | cons b l ih =>
    obtain ⟨l', hpack, hflat⟩ := ih (fun i => g (i + 1)) fun x hx => hmem x (List.mem_cons_of_mem _ hx)
    rw [packblock, hpack]
    split
    · obtain ⟨nb, hnb, hempty, hback, -⟩ := allocb_eq false (g 0) (hmem b List.mem_cons_self)
      obtain ⟨nb', happend, hdata, -⟩ := append_eq (b := nb) (p := b.data) hback
      refine ⟨nb' :: l', ?_, ?_⟩
      · rw [allocb, hnb]
        simp only [happend, Option.bind_eq_bind, Option.bind_some, Option.pure_def]
      · rw [flat_cons, hdata, hempty, hflat, flat_cons, List.nil_append]
    · exact ⟨b :: l', rfl, by rw [flat_cons, hflat, flat_cons]⟩

theorem copyloop_data (l : List Buffer) (nb : Buffer) (count : ℕ) (h : count ≤ nb.back.length) :
    ∃ nb', copyloop nb l count = some nb' ∧ nb'.data =
      nb.data ++ ((flat l).take count ++ List.replicate (count - (flat l).length) 0) := by
  induction l generalizing nb count with
  | nil =>
    obtain ⟨nb', happend, hdata, -⟩ := append_eq (b := nb) (p := List.replicate count 0) (by
      rw [List.length_replicate]
      exact h)
    exact ⟨nb', happend, by rw [hdata]; simp⟩
  | cons b l ih =>
    have hlen : b.data.length = b.BLEN := rfl
    rw [copyloop]
    by_cases hzero : 0 < count
    · rw [if_pos hzero]
      have htake : (b.data.take (if count < b.BLEN then count else b.BLEN)).length =
          if count < b.BLEN then count else b.BLEN := by
        rw [List.length_take, hlen]
        split <;> omega
      obtain ⟨nb₁, hnb₁, hdata, -, hback, -⟩ := append_eq (b := nb)
        (p := b.data.take (if count < b.BLEN then count else b.BLEN)) (by
          rw [htake]
          split <;> omega)
      rw [htake] at hback
      obtain ⟨nb', hloop, hdata'⟩ := ih nb₁ (count - if count < b.BLEN then count else b.BLEN) (by
        rw [hback]
        omega)
      refine ⟨nb', ?_, ?_⟩
      · simp only [hnb₁, Option.bind_eq_bind, Option.bind_some]
        exact hloop
      · rw [hdata', hdata, List.append_assoc, flat_cons, List.length_append]
        split
        · rw [Nat.sub_self, List.take_append_of_le_length (by omega), Nat.zero_sub,
            Nat.sub_eq_zero_of_le (by omega)]
          simp
        · rw [List.take_append, List.take_of_length_le (le_of_eq hlen), hlen,
            List.take_of_length_le (show b.data.length ≤ count by omega), List.append_assoc,
            Nat.sub_sub]
    · rw [if_neg hzero]
      have hz : count = 0 := by omega
      exact ⟨nb, rfl, by simp [hz]⟩

theorem copyblock_flat (g : Grant) (b : Buffer) (l : List Buffer) (count : ℕ) (hmem : allocs count) :
    ∃ b', copyblock (some g) (b :: l) count = some [b'] ∧ flat [b'] =
      (flat (b :: l)).take count ++ List.replicate (count - (flat (b :: l)).length) 0 := by
  have hcopy : ∀ intr, ∃ nb nb', _allocb intr g count = some nb ∧
      copyloop nb (b :: l) count = some nb' ∧ flat [nb'] =
        (flat (b :: l)).take count ++ List.replicate (count - (flat (b :: l)).length) 0 := by
    intro intr
    obtain ⟨nb, hnb, hempty, hback, -⟩ := allocb_eq intr g hmem
    obtain ⟨nb', hloop, hdata⟩ := copyloop_data (b :: l) nb count (by omega)
    exact ⟨nb, nb', hnb, hloop, by rw [flat_cons, hdata, hempty, flat_nil, List.append_nil, List.nil_append]⟩
  rw [copyblock]
  simp only [List.head?_cons, Option.bind_eq_bind, Option.bind_some, Option.pure_def, iallocb, allocb]
  split
  · obtain ⟨nb, nb', hnb, hloop, hflat⟩ := hcopy true
    rw [hnb]
    simp only [hloop, Option.bind_some]
    exact ⟨nb', rfl, hflat⟩
  · obtain ⟨nb, nb', hnb, hloop, hflat⟩ := hcopy false
    rw [hnb]
    simp only [hloop, Option.bind_some]
    exact ⟨nb', rfl, hflat⟩

/-- `padblock` in front, where there is room or only one block. -/
theorem padblock_flat (g : Grant) (b : Buffer) (l : List Buffer) (size : ℕ)
    (hroom : size ≤ b.front.length ∨ l = []) (hmem : allocs (size + b.BLEN)) :
    ∃ l' pad, padblock g (b :: l) size = some l' ∧ pad.length = size ∧ flat l' = pad ++ flat (b :: l) := by
  rw [padblock, if_pos (by omega), Int.toNat_natCast, padfront]
  simp only [List.head?_cons, Option.bind_eq_bind, Option.bind_some, Option.pure_def]
  by_cases hfront : size ≤ b.front.length
  · rw [if_pos hfront]
    obtain ⟨b', pad, hretreat, hpad, hdata⟩ := retreat_eq hfront
    rw [hretreat]
    refine ⟨b' :: l, pad, rfl, hpad, ?_⟩
    rw [flat_cons, hdata, flat_cons, List.append_assoc]
  · have hone : l = [] := hroom.resolve_left hfront
    subst hone
    have hsmall : (size : ℤ) + b.BLEN < 2 ^ 31 := by
      have := hmem.2
      simp only [ROUNDUP, BLOCKALIGN, Hdrspc, sizeofBlock] at this
      omega
    obtain ⟨nb, hnb, hempty, hback, -⟩ := allocb_eq false g hmem
    have htotal : size + b.BLEN ≤ nb.back.length := by omega
    rw [if_neg hfront, if_neg (fun h => h rfl), wrap_of_range (by omega) hsmall, allocb, hnb,
      Option.bind_some, if_pos (by omega)]
    have htake : (nb.back.take size).length = size := by
      rw [List.length_take]
      omega
    have hlen : b.data.length = b.BLEN := rfl
    obtain ⟨nb₁, h₁, hdata₁, -, hback₁, -⟩ := append_eq (b := nb) (p := nb.back.take size) (by omega)
    have hfull : nb₁.BLEN = size := by
      rw [BLEN, hdata₁, hempty, List.nil_append, htake]
    obtain ⟨nb₂, h₂, hdata₂, hfront₂, hback₂⟩ := advance_room (b := nb₁) (k := size) (by omega)
    obtain ⟨nb₃, h₃, hdata₃, hfront₃, -⟩ := append_eq (b := nb₂) (p := b.data) (by
      rw [hback₂]
      omega)
    obtain ⟨nb₄, pad, h₄, hpad, hdata₄⟩ := retreat_eq (b := nb₃) (k := size) (by
      rw [hfront₃, hfront₂]
      omega)
    refine ⟨[nb₄], pad, ?_, hpad, ?_⟩
    · simp only [h₁, h₂, h₃, h₄, Option.bind_some]
    · have hnone : nb₂.data = [] := by
        rw [hdata₂]
        exact List.drop_of_length_le (by rw [← hfull]; exact Nat.le_refl _)
      rw [flat_cons, hdata₄, hdata₃, hnone, flat_cons, List.nil_append, List.append_assoc]

/-- The routines that cut and join chains do to the bytes what they say, where `allocb` finds the
memory they ask for: `pullupblock` makes the first block long enough or, without enough bytes, frees
the chain; `trimblock` keeps a stretch, as long as its sums are `int`s; `pullblock` drops bytes in front;
`concatblock` and `packblock` keep the bytes; `copyblock` fills up with zeros; `padblock` puts bytes in
front, and panics where the first of several blocks has no room for them. -/
theorem chain_surgery (g : Grant) (gs : ℕ → Grant) (b : Buffer) (l : List Buffer) :
    (∀ n : ℕ, allocs n →
      (n ≤ (flat (b :: l)).length → ∃ b' l', pullupblock g (b :: l) n = some (b' :: l') ∧
        flat (b' :: l') = flat (b :: l) ∧ n ≤ b'.BLEN) ∧
      ((flat (b :: l)).length < n → pullupblock g (b :: l) n = some [])) ∧
    (∀ offset len : ℕ, (flat (b :: l)).length < 2 ^ 31 → offset + len < 2 ^ 31 →
      (offset + len ≤ (flat (b :: l)).length → ∃ b' l', trimblock (b :: l) offset len = some (b' :: l') ∧
        flat (b' :: l') = ((flat (b :: l)).drop offset).take len) ∧
      ((flat (b :: l)).length < offset + len → trimblock (b :: l) offset len = some [])) ∧
    (∀ n : ℕ, ∃ l', pullblock (b :: l) n = some (min n (flat (b :: l)).length, l') ∧
      flat l' = (flat (b :: l)).drop n) ∧
    (allocs (flat (b :: l)).length → ∃ b', concatblock g (b :: l) = some [b'] ∧
      flat [b'] = flat (b :: l)) ∧
    ((∀ x ∈ b :: l, allocs x.BLEN) → ∃ l', packblock (b :: l) gs = some l' ∧ flat l' = flat (b :: l)) ∧
    (∀ n : ℕ, allocs n → ∃ b', copyblock (some g) (b :: l) n = some [b'] ∧ flat [b'] =
      (flat (b :: l)).take n ++ List.replicate (n - (flat (b :: l)).length) 0) ∧
    (∀ n : ℕ, (n ≤ b.front.length ∨ l = []) → allocs (n + b.BLEN) →
      ∃ l' pad, padblock g (b :: l) n = some l' ∧ pad.length = n ∧ flat l' = pad ++ flat (b :: l)) ∧
    ∀ n : ℕ, b.front.length < n → l ≠ [] → padblock g (b :: l) n = none := by
  refine ⟨pullupblock_flat g b l, trimblock_flat b l, pullblock_flat (b :: l), concatblock_flat g b l,
    packblock_flat (b :: l) gs, copyblock_flat g b l, padblock_flat g b l, ?_⟩
  intro n hfront hmany
  rw [padblock, if_pos (by omega), Int.toNat_natCast, padfront]
  simp only [List.head?_cons, Option.bind_eq_bind, Option.bind_some]
  rw [if_neg (by omega), if_pos (show (b :: l).tail ≠ [] from hmany)]

/-- A block of one byte, with room for one more. -/
def onebyte : Buffer := ⟨[], [1], [0], false, by decide⟩

/-- Of two such blocks the first gets both bytes, or loses its byte, or gets another in front. -/
theorem chain_surgery_pair :
    (∃ b' l', pullupblock ⟨0, fun _ => 0⟩ [onebyte, onebyte] (2 : ℕ) = some (b' :: l') ∧
      flat (b' :: l') = [1, 1] ∧ 2 ≤ b'.BLEN) ∧
    (∃ b' l', trimblock [onebyte, onebyte] (1 : ℕ) (1 : ℕ) = some (b' :: l') ∧ flat (b' :: l') = [1]) ∧
    (∃ l' pad, padblock ⟨0, fun _ => 0⟩ [onebyte] (1 : ℕ) = some l' ∧ pad.length = 1 ∧
      flat l' = pad ++ [1]) := by
  have hpair := chain_surgery ⟨0, fun _ => 0⟩ (fun _ => ⟨0, fun _ => 0⟩) onebyte [onebyte]
  have hone := chain_surgery ⟨0, fun _ => 0⟩ (fun _ => ⟨0, fun _ => 0⟩) onebyte []
  refine ⟨(hpair.1 2 (by decide)).1 (by decide), (hpair.2.1 1 1 (by decide) (by decide)).1 (by decide), ?_⟩
  exact hone.2.2.2.2.2.2.1 1 (.inr rfl) (by decide)

/-- `padblock` panics on a chain of two blocks without room in front. -/
theorem padblock_panics : padblock ⟨0, fun _ => 0⟩ [onebyte, onebyte] (1 : ℕ) = none := by
  decide

end Chains

section Queue

/-- What `pullupqueue` uses of a queue. Its `blast` is the last block of the list. -/
structure Listq where
  bfirst : List Buffer
  len : ℤ
  dlen : ℤ

def pullupqueue (g : Grant) (q : Listq) (n : ℤ) : Option Listq := do
  let b ← q.bfirst.head?
  if n ≤ b.BLEN then return q
  else
    let l ← pullupblock g q.bfirst n
    return { q with bfirst := l }

/-- The counters are the sums over the list. -/
def Listq.Counted (q : Listq) : Prop :=
  q.len = (q.bfirst.map BALLOC).sum ∧ q.dlen = (q.bfirst.map BLEN).sum

/-- The first block is long enough; or it has the room and the second block is not emptied; or a block
is added as large as those released. -/
def Kept (g : Grant) (q : Listq) (n : ℤ) : Prop :=
  ∃ b l, q.bfirst = b :: l ∧ (n ≤ b.BLEN ∨
    if ((b.BLEN + b.back.length : ℕ) : ℤ) < n then
      allocs n ∧ n ≤ (flat (b :: l)).length ∧ g.len n.toNat = used n (b :: l)
    else ∃ c l', l = c :: l' ∧ n < b.BLEN + c.BLEN)

variable {g : Grant} {q : Listq} {n : ℤ}

theorem lens_eq (l : List Buffer) : (l.map BLEN).sum = (flat l).length := by
  rw [flat, List.length_flatMap]
  rfl

/-- A shorter list with the same bytes. -/
theorem counted_iff (h : q.Counted) {l : List Buffer} (hflat : flat l = flat q.bfirst) :
    Listq.Counted { q with bfirst := l } ↔ rooms l = rooms q.bfirst := by
  obtain ⟨hlen, hdlen⟩ := h
  rw [lens_eq] at hdlen
  rw [Listq.Counted]
  dsimp only
  rw [lens_eq, hflat, hlen, hdlen, rooms, rooms]
  constructor
  · exact fun h => (Int.ofNat.inj h.1).symm
  · exact fun h => ⟨by rw [h], rfl⟩

/-- The counters of blocks that are gone are wrong. -/
theorem not_counted_nil (h : q.Counted) (hne : q.bfirst ≠ []) : ¬ Listq.Counted { q with bfirst := [] } := by
  intro hnil
  obtain ⟨b, l, hb⟩ := List.exists_cons_of_ne_nil hne
  have hlen := h.1
  rw [hb, List.map_cons, List.sum_cons] at hlen
  have hzero : q.len = 0 := hnil.1
  have := BALLOC_pos b
  omega

theorem used_eq_zero {l : List Buffer} (hn : 0 < n) (h : n ≤ (flat l).length) :
    used n l = 0 ↔ ∃ c l', l = c :: l' ∧ n < c.BLEN := by
  cases l with
  | nil =>
    rw [flat_nil, List.length_nil] at h
    omega
  | cons c l =>
    have := BALLOC_pos c
    rw [used]
    constructor
    · intro hused
      refine ⟨c, l, rfl, ?_⟩
      by_contra hle
      rw [if_neg hle] at hused
      split at hused <;> omega
    · rintro ⟨c', l', heq, hlt⟩
      cases heq
      rw [if_pos hlt]

/-- `pullupqueue` keeps the counters true exactly in these cases. -/
theorem pullupqueue_iff (h : q.Counted) :
    (∃ q', pullupqueue g q n = some q' ∧ q'.Counted) ↔ Kept g q n := by
  cases hfirst : q.bfirst with
  | nil =>
    have hnone : pullupqueue g q n = none := by rw [pullupqueue, hfirst]; rfl
    simp [hnone, Kept, hfirst]
  | cons b l =>
    have hlen : b.data.length = b.BLEN := rfl
    have hkept : Kept g q n ↔ (n ≤ b.BLEN ∨ if ((b.BLEN + b.back.length : ℕ) : ℤ) < n then
        allocs n ∧ n ≤ (flat (b :: l)).length ∧ g.len n.toNat = used n (b :: l)
        else ∃ c l', l = c :: l' ∧ n < b.BLEN + c.BLEN) := by
      rw [Kept, hfirst]
      constructor
      · rintro ⟨b', l', heq, hcase⟩
        cases heq
        exact hcase
      · exact fun hcase => ⟨b, l, rfl, hcase⟩
    rw [hkept, pullupqueue, hfirst]
    simp only [List.head?_cons, Option.bind_eq_bind, Option.bind_some, Option.pure_def]
    by_cases henough : n ≤ b.BLEN
    · rw [if_pos henough]
      exact ⟨fun _ => .inl henough, fun _ => ⟨q, rfl, h⟩⟩
    rw [if_neg henough, or_iff_right henough]
    by_cases hmem : ((b.BLEN + b.back.length : ℕ) : ℤ) < n → allocs n
    · obtain ⟨hpull, hnil⟩ := pullupblock_short g b l n (by omega) hmem
      by_cases hbytes : n ≤ (flat (b :: l)).length
      · obtain ⟨b', l', hpull, hflat, -, hrooms⟩ := hpull hbytes
        have hcounted := counted_iff h (l := b' :: l') (by rw [hflat, hfirst])
        rw [hfirst] at hcounted
        have hiff : (∃ q', ((pullupblock g (b :: l) n).bind fun l => some { q with bfirst := l }) = some q' ∧
            q'.Counted) ↔ rooms (b' :: l') = rooms (b :: l) := by
          rw [hpull, Option.bind_some, ← hcounted]
          exact ⟨fun ⟨q', heq, hq⟩ => (Option.some.inj heq) ▸ hq, fun hq => ⟨_, rfl, hq⟩⟩
        rw [hiff]
        by_cases hroom : ((b.BLEN + b.back.length : ℕ) : ℤ) < n
        · rw [if_pos hroom] at hrooms ⊢
          rw [if_pos hroom] at hrooms
          exact ⟨fun heq => ⟨hmem hroom, hbytes, by omega⟩, fun hcase => by omega⟩
        · rw [if_neg hroom] at hrooms ⊢
          rw [if_neg hroom] at hrooms
          rw [flat_cons, List.length_append] at hbytes
          have hzero := used_eq_zero (n := n - b.BLEN) (l := l) (by omega) (by omega)
          constructor
          · intro heq
            obtain ⟨c, l₁, hl, hlt⟩ := hzero.mp (by omega)
            exact ⟨c, l₁, hl, by omega⟩
          · rintro ⟨c, l₁, hl, hlt⟩
            have := hzero.mpr ⟨c, l₁, hl, by omega⟩
            omega
      · rw [hnil (by omega)]
        refine iff_of_false ?_ ?_
        · rintro ⟨q', heq, hq⟩
          cases heq
          exact not_counted_nil h (by rw [hfirst]; exact List.cons_ne_nil _ _) hq
        · intro hcase
          split at hcase
          · exact hbytes hcase.2.1
          · obtain ⟨c, l', rfl, hlt⟩ := hcase
            apply hbytes
            have hc : c.data.length = c.BLEN := rfl
            rw [flat_cons, flat_cons, List.length_append, List.length_append]
            omega
    · -- Without the memory for another block `allocb` panics.
      obtain ⟨hroom, hfail⟩ := Classical.not_imp.mp hmem
      have hnone : pullupblock g (b :: l) n = none := by
        rw [pullupblock]
        simp only [List.head?_cons, Option.bind_eq_bind, Option.bind_some]
        rw [if_neg henough, if_pos hroom, allocb, _allocb, dif_neg hfail]
        rfl
      rw [hnone, if_pos hroom]
      exact iff_of_false (by simp) fun hcase => hfail hcase.1

/-- Two bytes of the first of two blocks, where it has them already. -/
theorem pullupqueue_iff_first :
    (∃ q', pullupqueue ⟨0, fun _ => 0⟩ ⟨[onebyte, onebyte], 4, 2⟩ 1 = some q' ∧ q'.Counted) ↔
      Kept ⟨0, fun _ => 0⟩ ⟨[onebyte, onebyte], 4, 2⟩ 1 :=
  pullupqueue_iff ⟨rfl, rfl⟩

/-- The second block is emptied and released, and `len` still counts it. -/
theorem pullupqueue_miscounts :
    Listq.Counted ⟨[onebyte, onebyte], 4, 2⟩ ∧
      ∃ q', pullupqueue ⟨0, fun _ => 0⟩ ⟨[onebyte, onebyte], 4, 2⟩ 2 = some q' ∧ ¬ q'.Counted := by
  refine ⟨⟨rfl, rfl⟩, _, rfl, ?_⟩
  rintro ⟨hlen, -⟩
  exact absurd hlen (by decide)

end Queue

end Buffer

end Petele.Qio
