import Petele.Qio.Surgery

namespace Petele.Tcp

open Qio Buffer

inductive Version
  | v4
  | v6

/-- `TCP4_PKT` and `TCP6_PKT`. -/
def Version.PKT : Version → ℕ
  | .v4 => 20
  | .v6 => 40

/-- `TCP4_HDRSIZE` and `TCP6_HDRSIZE`. -/
def HDRSIZE : ℕ := 20

def EOLOPT : UInt8 := 0

def NOOPOPT : UInt8 := 1

def MSSOPT : UInt8 := 2

def MSS_LENGTH : ℕ := 4

def WSOPT : UInt8 := 3

def WS_LENGTH : ℕ := 3

/-- `struct Tcp`. -/
structure Tcph where
  source : ℕ
  dest : ℕ
  seq : ℕ
  ack : ℕ
  flags : ℕ
  update : ℕ
  ws : ℕ
  wnd : ℕ
  urg : ℕ
  mss : ℕ
  len : ℕ
deriving DecidableEq

/-! A header is what is found in memory from the pointer `h` on. -/

def nhgets (h : ℕ → UInt8) (i : ℕ) : ℕ := (h i).toNat * 2 ^ 8 + (h (i + 1)).toNat

def nhgetl (h : ℕ → UInt8) (i : ℕ) : ℕ := nhgets h i * 2 ^ 16 + nhgets h (i + 2)

def ushort (z : ℤ) : ℕ := (z % 2 ^ 16).toNat

namespace Version

variable (v : Version) (h : ℕ → UInt8)

/-- `(h->tcpflag[0]>>2) & ~3`. -/
def hdrlen : ℕ := (h (v.PKT + 12)).toNat >>> 2 &&& 0xfffc

/-- The ports and numbers, read before the header length is checked. -/
def numbers (t : Tcph) : Tcph :=
  { t with
    source := nhgets h v.PKT
    dest := nhgets h (v.PKT + 2)
    seq := nhgetl h (v.PKT + 4)
    ack := nhgetl h (v.PKT + 8) }

/-- `h->length` is the length of the packet, `h->ploadlen` that of what follows the IP header. -/
def len : ℕ :=
  match v with
  | .v4 => ushort (nhgets h 2 - (v.hdrlen h + v.PKT : ℕ))
  | .v6 => ushort (nhgets h 4 - v.hdrlen h)

/-- The other fields of the fixed header. -/
def fields (t : Tcph) : Tcph :=
  { t with
    flags := (h (v.PKT + 13)).toNat
    wnd := nhgets h (v.PKT + 14)
    urg := nhgets h (v.PKT + 18)
    mss := 0
    ws := 0
    update := 0
    len := v.len h }

end Version

/-- One option, and the places it is read at. -/
def readopt (h : ℕ → UInt8) (optr optlen : ℕ) (t : Tcph) (seen : List ℕ) : Tcph × List ℕ :=
  if h optr = MSSOPT then
    if optlen = MSS_LENGTH then ({ t with mss := nhgets h (optr + 2) }, (optr + 3) :: (optr + 2) :: seen)
    else (t, seen)
  else if h optr = WSOPT then
    if optlen = WS_LENGTH then
      (if (h (optr + 2)).toNat ≤ 14 then { t with ws := (h (optr + 2)).toNat } else t, (optr + 2) :: seen)
    else (t, seen)
  else (t, seen)

/-- The loop over the options, with the places it has read. -/
def optloop (h : ℕ → UInt8) : ℕ → ℕ → ℕ → Tcph → List ℕ → Option (Tcph × List ℕ)
  | 0, _, _, _, _ => none
  | fuel + 1, optr, n, t, seen =>
    if n = 0 then some (t, seen)
    else
      let seen := optr :: seen
      if h optr = EOLOPT then some (t, seen)
      else if h optr = NOOPOPT then optloop h fuel (optr + 1) (n - 1) t seen
      else
        let seen := (optr + 1) :: seen
        let optlen := (h (optr + 1)).toNat
        if optlen < 2 ∨ optlen > n then some (t, seen)
        else
          let r := readopt h optr optlen t seen
          optloop h fuel (optr + optlen) (n - optlen) r.1 r.2

/-- What is found from `b->rp` on: behind the buffer there may be anything. -/
def memory (b : Buffer) (junk : ℕ → UInt8) : ℕ → UInt8 := fun i => ((b.data ++ b.back)[i]?).getD (junk i)

/-- `b->lim - b->rp`. -/
def room (b : Buffer) : ℕ := b.BLEN + b.back.length

structure Parsed where
  tcph : Tcph
  result : ℤ
  bp : List Buffer
  seen : List ℕ

/-- `ntohtcp4` and `ntohtcp6`. Where the second `pullupblock` puts a new block in front, all the bytes
of the old one go to it and the old one is freed: from `h` on there may be anything. -/
def ntohtcp (v : Version) (g g' : Grant) (junk : ℕ → UInt8) (t : Tcph) (bp : List Buffer) : Option Parsed := do
  let bp ← pullupblock g bp (v.PKT + HDRSIZE : ℕ)
  match bp with
  | [] => return ⟨t, -1, [], []⟩
  | b :: _ =>
    let h := memory b junk
    let t := v.numbers h t
    let hdrlen := v.hdrlen h
    if hdrlen < HDRSIZE then return ⟨t, -1, [], []⟩
    else
      let t := v.fields h t
      let bp ← pullupblock g' bp (hdrlen + v.PKT : ℕ)
      match bp with
      | [] => return ⟨t, -1, [], []⟩
      | b' :: _ =>
        let h := if room b < hdrlen + v.PKT then junk else memory b' junk
        let n := hdrlen - HDRSIZE
        let r ← optloop h (n + 1) (v.PKT + HDRSIZE) n t []
        return ⟨r.1, hdrlen, bp, r.2⟩

def ntohtcp6 : Grant → Grant → (ℕ → UInt8) → Tcph → List Buffer → Option Parsed := ntohtcp .v6

def ntohtcp4 : Grant → Grant → (ℕ → UInt8) → Tcph → List Buffer → Option Parsed := ntohtcp .v4

section Options

/-- The options end with the kind of one more where its length should be. -/
inductive Lone (h : ℕ → UInt8) : ℕ → ℕ → Prop
  | kind {optr} : h optr ≠ EOLOPT → h optr ≠ NOOPOPT → Lone h optr 1
  | noop {optr n} : h optr = NOOPOPT → Lone h (optr + 1) n → Lone h optr (n + 1)
  | option {optr optlen n} : h optr ≠ EOLOPT → h optr ≠ NOOPOPT → (h (optr + 1)).toNat = optlen → 2 ≤ optlen →
      Lone h (optr + optlen) n → Lone h optr (n + optlen)

variable {h h' : ℕ → UInt8} {fuel optr optlen n i : ℕ} {t t' : Tcph} {seen seen' : List ℕ}

/-- It ends. -/
theorem optloop_ends (hfuel : n < fuel) : ∃ r, optloop h fuel optr n t seen = some r := by
  induction fuel generalizing optr n t seen with
  | zero => omega
  | succ fuel ih =>
    rw [optloop]
    dsimp only
    split_ifs
    · exact ⟨_, rfl⟩
    · exact ⟨_, rfl⟩
    · exact ih (by omega)
    · exact ⟨_, rfl⟩
    · exact ih (by omega)

theorem readopt_congr (hagree : ∀ i, optr ≤ i → i < optr + n → h i = h' i) (hmin : 2 ≤ optlen) (hmax : optlen ≤ n) :
    readopt h optr optlen t seen = readopt h' optr optlen t seen := by
  rw [readopt, readopt, hagree optr (by omega) (by omega)]
  by_cases hmss : h' optr = MSSOPT
  · rw [if_pos hmss, if_pos hmss]
    by_cases hlen : optlen = MSS_LENGTH
    · have hfour : 4 ≤ n := hlen.symm.le.trans hmax
      rw [if_pos hlen, if_pos hlen, nhgets, nhgets, hagree (optr + 2) (by omega) (by omega),
        hagree (optr + 2 + 1) (by omega) (by omega)]
    · rw [if_neg hlen, if_neg hlen]
  · rw [if_neg hmss, if_neg hmss]
    by_cases hlen : optlen = WS_LENGTH
    · have hthree : 3 ≤ n := hlen.symm.le.trans hmax
      rw [if_pos hlen, if_pos hlen, hagree (optr + 2) (by omega) (by omega)]
    · rw [if_neg hlen, if_neg hlen]

/-- Only the bytes of the options matter. -/
theorem optloop_congr (hagree : ∀ i, optr ≤ i → i < optr + n → h i = h' i) :
    optloop h fuel optr n t seen = optloop h' fuel optr n t seen := by
  induction fuel generalizing optr n t seen with
  | zero => rfl
  | succ fuel ih =>
    rw [optloop, optloop]
    by_cases hzero : n = 0
    · rw [if_pos hzero, if_pos hzero]
    · rw [if_neg hzero, if_neg hzero, hagree optr (by omega) (by omega)]
      dsimp only
      split_ifs with heol hnoop hbad hbad' hbad'
      · rfl
      · exact ih fun i hlow hhigh => hagree i (by omega) (by omega)
      · rfl
      · rw [hagree (optr + 1) (by omega) (by omega)] at hbad
        exact absurd hbad hbad'
      · rw [← hagree (optr + 1) (by omega) (by omega)] at hbad'
        exact absurd hbad' hbad
      · rw [← hagree (optr + 1) (by omega) (by omega), readopt_congr hagree (by omega) (by omega)]
        exact ih fun i hlow hhigh => hagree i (by omega) (by omega)

theorem readopt_seen (h : ℕ → UInt8) (optr optlen : ℕ) (t : Tcph) (seen : List ℕ) :
    (∀ i ∈ (readopt h optr optlen t seen).2, i ∈ seen ∨ (optr ≤ i ∧ i < optr + optlen)) ∧
      ∀ i ∈ seen, i ∈ (readopt h optr optlen t seen).2 := by
  simp only [readopt]
  split_ifs with _ hlen _ hlen
  · have hfour : optlen = 4 := hlen
    simp only [List.mem_cons]
    grind
  · exact ⟨fun i hi => .inl hi, fun i hi => hi⟩
  · have hthree : optlen = 3 := hlen
    simp only [List.mem_cons]
    grind
  · have hthree : optlen = 3 := hlen
    simp only [List.mem_cons]
    grind
  · exact ⟨fun i hi => .inl hi, fun i hi => hi⟩
  · exact ⟨fun i hi => .inl hi, fun i hi => hi⟩

/-- What the loop reads: one byte behind the options if a kind stands alone at their end. -/
theorem optloop_seen (hrun : optloop h fuel optr n t seen = some (t', seen')) :
    (∀ i ∈ seen', i ∈ seen ∨ (optr ≤ i ∧ i < optr + n) ∨ (Lone h optr n ∧ i = optr + n)) ∧
      (Lone h optr n → optr + n ∈ seen') ∧ ∀ i ∈ seen, i ∈ seen' := by
  induction fuel generalizing optr n t seen with
  | zero => cases hrun
  | succ fuel ih =>
    rw [optloop] at hrun
    by_cases hzero : n = 0
    · rw [if_pos hzero] at hrun
      obtain ⟨-, rfl⟩ : t = t' ∧ seen = seen' := by simpa using hrun
      refine ⟨fun i hi => .inl hi, fun hlone => ?_, fun i hi => hi⟩
      cases hlone <;> omega
    rw [if_neg hzero] at hrun
    dsimp only at hrun
    by_cases heol : h optr = EOLOPT
    · rw [if_pos heol] at hrun
      obtain ⟨-, rfl⟩ : t = t' ∧ optr :: seen = seen' := by simpa using hrun
      refine ⟨fun i hi => ?_, fun hlone => ?_, fun i hi => List.mem_cons_of_mem _ hi⟩
      · rcases List.mem_cons.mp hi with rfl | hi
        · exact .inr (.inl (by omega))
        · exact .inl hi
      · cases hlone with
        | kind hkind _ => exact absurd heol hkind
        | noop hnoop _ => exact absurd (hnoop.symm.trans heol) (by decide)
        | option hkind _ _ _ _ => exact absurd heol hkind
    rw [if_neg heol] at hrun
    by_cases hnoop : h optr = NOOPOPT
    · rw [if_pos hnoop] at hrun
      obtain ⟨hreads, hlone, hkeep⟩ := ih hrun
      obtain ⟨n, rfl⟩ : ∃ k, n = k + 1 := ⟨n - 1, by omega⟩
      have hiff : Lone h optr (n + 1) ↔ Lone h (optr + 1) n := by
        refine ⟨fun hl => ?_, .noop hnoop⟩
        generalize hm : n + 1 = m at hl
        cases hl with
        | kind _ hkind => exact absurd hnoop hkind
        | noop _ hl =>
          obtain rfl : n = _ := Nat.succ.inj hm
          exact hl
        | option _ hkind _ _ _ => exact absurd hnoop hkind
      rw [Nat.add_sub_cancel] at hreads hlone
      refine ⟨fun i hi => ?_, fun hl => ?_, fun i hi => hkeep i (List.mem_cons_of_mem _ hi)⟩
      · rcases hreads i hi with hi | hi | hi
        · rcases List.mem_cons.mp hi with rfl | hi
          · exact .inr (.inl (by omega))
          · exact .inl hi
        · exact .inr (.inl (by omega))
        · exact .inr (.inr ⟨hiff.mpr hi.1, by omega⟩)
      · rw [Nat.add_comm n 1, ← Nat.add_assoc]
        exact hlone (hiff.mp hl)
    rw [if_neg hnoop] at hrun
    by_cases hbad : (h (optr + 1)).toNat < 2 ∨ (h (optr + 1)).toNat > n
    · rw [if_pos hbad] at hrun
      obtain ⟨-, rfl⟩ : t = t' ∧ (optr + 1) :: optr :: seen = seen' := by simpa using hrun
      have hiff : Lone h optr n ↔ n = 1 := by
        refine ⟨fun hl => ?_, fun hone => hone ▸ .kind heol hnoop⟩
        cases hl with
        | kind _ _ => rfl
        | noop hkind _ => exact absurd hkind hnoop
        | option _ _ _ _ _ => omega
      refine ⟨fun i hi => ?_, fun hl => ?_, fun i hi => List.mem_cons_of_mem _ (List.mem_cons_of_mem _ hi)⟩
      · rcases List.mem_cons.mp hi with rfl | hi
        · by_cases hone : n = 1
          · exact .inr (.inr ⟨hiff.mpr hone, by rw [hone]⟩)
          · exact .inr (.inl (by omega))
        · rcases List.mem_cons.mp hi with rfl | hi
          · exact .inr (.inl (by omega))
          · exact .inl hi
      · rw [hiff.mp hl]
        exact List.mem_cons_self
    · rw [if_neg hbad] at hrun
      obtain ⟨hreads, hlone, hkeep⟩ := ih hrun
      obtain ⟨hseen, hold⟩ := readopt_seen h optr (h (optr + 1)).toNat t ((optr + 1) :: optr :: seen)
      generalize hlen : (h (optr + 1)).toNat = optlen at *
      obtain ⟨n, rfl⟩ : ∃ k, n = k + optlen := ⟨n - optlen, by omega⟩
      have hiff : Lone h optr (n + optlen) ↔ Lone h (optr + optlen) n := by
        refine ⟨fun hl => ?_, .option heol hnoop hlen (by omega)⟩
        generalize hm : n + optlen = m at hl
        cases hl with
        | kind _ _ => omega
        | noop hkind _ => exact absurd hkind hnoop
        | option _ _ hlen' _ hl =>
          obtain rfl : optlen = _ := hlen.symm.trans hlen'
          obtain rfl : n = _ := Nat.add_right_cancel hm
          exact hl
      rw [Nat.add_sub_cancel] at hreads hlone
      refine ⟨fun i hi => ?_, fun hl => ?_, fun i hi => ?_⟩
      · rcases hreads i hi with hi | hi | hi
        · rcases hseen i hi with hi | hi
          · rcases List.mem_cons.mp hi with rfl | hi
            · exact .inr (.inl (by omega))
            · rcases List.mem_cons.mp hi with rfl | hi
              · exact .inr (.inl (by omega))
              · exact .inl hi
          · exact .inr (.inl (by omega))
        · exact .inr (.inl (by omega))
        · exact .inr (.inr ⟨hiff.mpr hi.1, by omega⟩)
      · rw [Nat.add_comm n optlen, ← Nat.add_assoc]
        exact hlone (hiff.mp hl)
      · exact hkeep i (hold i (List.mem_cons_of_mem _ (List.mem_cons_of_mem _ hi)))

/-- A maximum segment size, and then the end of the options. -/
theorem optloop_mss (h : ℕ → UInt8) (fuel optr : ℕ) (t : Tcph) (seen : List ℕ) (hn : 4 ≤ n) (hkind : h optr = MSSOPT) (hlen : (h (optr + 1)).toNat = MSS_LENGTH)
    (hend : h (optr + MSS_LENGTH) = EOLOPT) :
    ∃ seen', optloop h (fuel + 2) optr n t seen = some ({ t with mss := nhgets h (optr + 2) }, seen') := by
  have hread : (readopt h optr MSS_LENGTH t ((optr + 1) :: optr :: seen)).1 =
      { t with mss := nhgets h (optr + 2) } := by
    rw [readopt, if_pos hkind, if_pos rfl]
  rw [optloop, if_neg (by omega)]
  dsimp only
  rw [if_neg (by rw [hkind]; decide), if_neg (by rw [hkind]; decide), hlen, if_neg (by unfold MSS_LENGTH; omega),
    optloop, hread]
  dsimp only
  split_ifs
  · exact ⟨_, rfl⟩
  · exact ⟨_, rfl⟩

end Options

section Pullup

variable {g : Grant} {b b' : Buffer} {l l' : List Buffer} {junk : ℕ → UInt8} {i : ℕ}

theorem append_room {p : List UInt8} (h : b.append p = some b') : room b' = room b := by
  unfold Buffer.append at h
  split_ifs at h with hp
  cases h
  simp only [room, Buffer.BLEN, List.length_append, List.length_drop]
  omega

theorem pullup_room {n : ℤ} (h : pullup b n l = some (b' :: l')) : room b' = room b := by
  induction l generalizing b n with
  | nil => cases h
  | cons nb l ih =>
    rw [pullup] at h
    split_ifs at h
    · obtain ⟨b₁, hb₁, h⟩ := Option.bind_eq_some_iff.mp h
      obtain ⟨nb', -, h⟩ := Option.bind_eq_some_iff.mp h
      cases h
      exact append_room hb₁
    · obtain ⟨b₁, hb₁, h⟩ := Option.bind_eq_some_iff.mp h
      cases h
      exact append_room hb₁
    · obtain ⟨b₁, hb₁, h⟩ := Option.bind_eq_some_iff.mp h
      exact (ih h).trans (append_room hb₁)

/-- `lim - rp` of what is in front after `pullupblock`: a new block has the room it was asked for, rounded up. -/
def frontroom (b : Buffer) (n : ℕ) : ℕ := if room b < n then ROUNDUP n BLOCKALIGN else room b

theorem pullupblock_room {n : ℕ} (hmem : allocs n) (h : pullupblock g (b :: l) n = some (b' :: l')) :
    room b' = frontroom b n := by
  have hroom : room b = b.BLEN + b.back.length := rfl
  simp only [pullupblock, List.head?_cons, List.tail_cons, Option.bind_eq_bind, Option.bind_some] at h
  rw [frontroom]
  split_ifs at h with hlong hnew
  · rw [if_neg (by omega)]
    cases h
    rfl
  · obtain ⟨nb, hnb, h⟩ := Option.bind_eq_some_iff.mp h
    rw [if_pos (by omega), pullup_room h]
    unfold allocb _allocb at hnb
    rw [dif_pos hmem] at hnb
    cases hnb
    have hsplit := g.len_split hmem
    simp only [room, Buffer.BLEN, List.length_nil, List.length_drop, List.length_map, List.length_range]
    simp only [Int.toNat_natCast] at hsplit ⊢
    omega
  · rw [if_neg (by omega)]
    exact pullup_room h

/-- The bytes of the packet are there. -/
theorem memory_eq (h : i < b.BLEN) : memory b junk i = (flat (b :: l)).getD i 0 := by
  have hi : i < b.data.length := h
  rw [memory, flat_cons, List.getD_eq_getElem?_getD, List.getElem?_append_left hi, List.getElem?_append_left hi,
    List.getElem?_eq_getElem hi]
  rfl

end Pullup

def bytes (p : List UInt8) : ℕ → UInt8 := fun i => p.getD i 0

/-- What a header says, by the bytes of the packet alone: the fields, and -1 or the header length. -/
def header (v : Version) (t : Tcph) (p : List UInt8) : Tcph × ℤ :=
  let h := bytes p
  if p.length < v.PKT + HDRSIZE then (t, -1)
  else if v.hdrlen h < HDRSIZE then (v.numbers h t, -1)
  else
    let t := v.fields h (v.numbers h t)
    if p.length < v.hdrlen h + v.PKT then (t, -1)
    else
      let n := v.hdrlen h - HDRSIZE
      match optloop h (n + 1) (v.PKT + HDRSIZE) n t [] with
      | some r => (r.1, v.hdrlen h)
      | none => (t, -1)

/-- The header length is too small, or the chain shorter than it claims. -/
def Rejected (v : Version) (p : List UInt8) : Prop :=
  p.length < v.PKT + HDRSIZE ∨ v.hdrlen (bytes p) < HDRSIZE ∨ p.length < v.hdrlen (bytes p) + v.PKT

section Parsing

variable (v : Version) {h h' junk : ℕ → UInt8} (g g' : Grant) (b : Buffer) (l : List Buffer) (t : Tcph)

theorem hdrlen_le : v.hdrlen h ≤ 60 ∧ v.hdrlen h % 4 = 0 := by
  have hbyte : ∀ x : Fin 256, (x.val >>> 2 &&& 0xfffc) ≤ 60 ∧ (x.val >>> 2 &&& 0xfffc) % 4 = 0 := by
    decide +kernel
  exact hbyte ⟨_, (h (v.PKT + 12)).toNat_lt⟩

theorem hdrlen_congr (hagree : ∀ i < v.PKT + HDRSIZE, h i = h' i) : v.hdrlen h = v.hdrlen h' := by
  rw [Version.hdrlen, Version.hdrlen, hagree _ (by unfold HDRSIZE; omega)]

theorem numbers_congr (hagree : ∀ i < v.PKT + HDRSIZE, h i = h' i) : v.numbers h t = v.numbers h' t := by
  have hat (k : ℕ) (hk : k < 20) : h (v.PKT + k) = h' (v.PKT + k) := hagree _ (by unfold HDRSIZE; omega)
  have hzero : h v.PKT = h' v.PKT := hat 0 (by decide)
  simp (disch := decide) only [Version.numbers, nhgets, nhgetl, Nat.add_assoc, Nat.reduceAdd, hzero, hat]

theorem fields_congr (hagree : ∀ i < v.PKT + HDRSIZE, h i = h' i) : v.fields h t = v.fields h' t := by
  have hat (k : ℕ) (hk : k < 20) : h (v.PKT + k) = h' (v.PKT + k) := hagree _ (by unfold HDRSIZE; omega)
  have hlen : v.len h = v.len h' := by
    cases v
    · simp only [Version.len, nhgets, hdrlen_congr .v4 hagree, hagree 2 (by decide), hagree 3 (by decide)]
    · simp only [Version.len, nhgets, hdrlen_congr .v6 hagree, hagree 4 (by decide), hagree 5 (by decide)]
  simp (disch := decide) only [Version.fields, nhgets, Nat.add_assoc, Nat.reduceAdd, hlen, hat]

theorem allocs_header : allocs (v.PKT + HDRSIZE : ℕ) := by
  cases v <;> decide

theorem allocs_options (h : ℕ → UInt8) : allocs (v.hdrlen h + v.PKT : ℕ) := by
  have hle := (hdrlen_le v (h := h)).1
  have hpkt : v.PKT ≤ 40 := by cases v <;> decide
  simp only [Buffer.allocs, ROUNDUP, BLOCKALIGN, Hdrspc, sizeofBlock, Int.toNat_natCast]
  omega

variable {v b l t} (junk)

/-- Up to the header length nothing depends on how the bytes are split. -/
theorem first_block (h : v.PKT + HDRSIZE ≤ (flat (b :: l)).length) :
    ∃ b' l', pullupblock g (b :: l) (v.PKT + HDRSIZE : ℕ) = some (b' :: l') ∧ flat (b' :: l') = flat (b :: l) ∧
      room b' = frontroom b (v.PKT + HDRSIZE) ∧ v.PKT + HDRSIZE ≤ room b' ∧
      ∀ i < v.PKT + HDRSIZE, memory b' junk i = bytes (flat (b :: l)) i := by
  obtain ⟨b', l', hpull, hflat, hlong⟩ := (pullupblock_flat g b l _ (allocs_header v)).1 h
  refine ⟨b', l', hpull, hflat, pullupblock_room (allocs_header v) hpull, Nat.le_add_right_of_le hlong,
    fun i hi => ?_⟩
  rw [memory_eq (l := l') (by omega), hflat]
  rfl

theorem ntohtcp_rejects (h : Rejected v (flat (b :: l))) :
    ∃ r, ntohtcp v g g' junk t (b :: l) = some r ∧ (r.tcph, r.result) = header v t (flat (b :: l)) ∧
      r.result = -1 ∧ r.seen = [] := by
  by_cases hshort : (flat (b :: l)).length < v.PKT + HDRSIZE
  · have hpull := (pullupblock_flat g b l _ (allocs_header v)).2 hshort
    refine ⟨⟨t, -1, [], []⟩, ?_, ?_, rfl, rfl⟩
    · rw [ntohtcp, hpull]
      rfl
    · rw [header, if_pos hshort]
  obtain ⟨b', l', hpull, hflat, -, -, hagree⟩ := first_block junk g (not_lt.mp hshort)
  have hlen := hdrlen_congr v hagree
  have hnumbers := numbers_congr v t hagree
  by_cases hsmall : v.hdrlen (bytes (flat (b :: l))) < HDRSIZE
  · refine ⟨⟨v.numbers (memory b' junk) t, -1, [], []⟩, ?_, ?_, rfl, rfl⟩
    · simp only [ntohtcp, hpull, Option.bind_eq_bind, Option.bind_some]
      rw [if_pos (by rw [hlen]; exact hsmall)]
      rfl
    · rw [header, if_neg hshort, if_pos hsmall, hnumbers]
  have hlacks : (flat (b :: l)).length < v.hdrlen (bytes (flat (b :: l))) + v.PKT :=
    (h.resolve_left hshort).resolve_left hsmall
  have hnil := (pullupblock_flat g' b' l' _ (allocs_options v (memory b' junk))).2
    (by rw [hflat, hlen]; exact hlacks)
  refine ⟨⟨v.fields (memory b' junk) (v.numbers (memory b' junk) t), -1, [], []⟩, ?_, ?_, rfl, rfl⟩
  · simp only [ntohtcp, hpull, Option.bind_eq_bind, Option.bind_some]
    rw [if_neg (by rw [hlen]; exact hsmall), hnil]
    rfl
  · rw [header, if_neg hshort, if_neg hsmall, if_pos hlacks, hnumbers, fields_congr v _ hagree]

/-- The options of a header `h`, read from `ho`. -/
def optread (v : Version) (h ho : ℕ → UInt8) (t : Tcph) : Option (Tcph × List ℕ) :=
  optloop ho (v.hdrlen h - HDRSIZE + 1) (v.PKT + HDRSIZE) (v.hdrlen h - HDRSIZE) (v.fields h (v.numbers h t)) []

/-- The options are read from the first block, or from where it has been. -/
theorem ntohtcp_accepts (h : ¬ Rejected v (flat (b :: l))) :
    ∃ bp ho, ntohtcp v g g' junk t (b :: l) = (optread v (bytes (flat (b :: l))) ho t).map
          (fun r => ⟨r.1, v.hdrlen (bytes (flat (b :: l))), bp, r.2⟩) ∧
      if frontroom b (v.PKT + HDRSIZE) < v.hdrlen (bytes (flat (b :: l))) + v.PKT then ho = junk
      else ∀ i < v.hdrlen (bytes (flat (b :: l))) + v.PKT, ho i = bytes (flat (b :: l)) i := by
  simp only [Rejected, not_or, not_lt] at h
  obtain ⟨hshort, hsmall, hlacks⟩ := h
  obtain ⟨b', l', hpull, hflat, hroom, -, hagree⟩ := first_block junk g hshort
  have hlen := hdrlen_congr v hagree
  have hmem := allocs_options v (bytes (flat (b :: l)))
  obtain ⟨b'', l'', hpull', hflat', hlong⟩ := (pullupblock_flat g' b' l' _ hmem).1 (by rw [hflat]; exact hlacks)
  refine ⟨b'' :: l'', if room b' < v.hdrlen (bytes (flat (b :: l))) + v.PKT then junk else memory b'' junk, ?_, ?_⟩
  · simp only [ntohtcp, hpull, Option.bind_eq_bind, Option.bind_some, hlen, hpull', numbers_congr v t hagree,
      fields_congr v _ hagree]
    rw [if_neg (not_lt.mpr hsmall), optread]
    generalize optloop _ _ _ _ _ _ = r
    cases r <;> rfl
  · rw [← hroom]
    split_ifs with hnew
    · rfl
    · intro i hi
      rw [memory_eq (l := l'') (by omega), hflat', hflat]
      rfl

variable {g g' junk}

theorem frontroom_ge (n : ℕ) : n ≤ frontroom b n := by
  simp only [frontroom, ROUNDUP, BLOCKALIGN]
  split_ifs <;> omega

theorem optread_ends (v : Version) (h ho : ℕ → UInt8) (t : Tcph) : ∃ r, optread v h ho t = some r :=
  optloop_ends (Nat.lt_succ_self _)

theorem optread_congr (hsmall : HDRSIZE ≤ v.hdrlen h) (hagree : ∀ i < v.hdrlen h + v.PKT, h' i = h i) :
    optread v h h' t = optread v h h t :=
  optloop_congr fun i _ hhigh => hagree i (by omega)

theorem header_accepts {p : List UInt8} {r : Tcph × List ℕ} (h : ¬ Rejected v p)
    (hrun : optread v (bytes p) (bytes p) t = some r) : header v t p = (r.1, (v.hdrlen (bytes p) : ℤ)) := by
  simp only [Rejected, not_or] at h
  rw [optread] at hrun
  simp only [header, if_neg h.1, if_neg h.2.1, if_neg h.2.2, hrun]

/-- Where the first block was freed, what is found there decides. -/
theorem freed_differs (hmore : HDRSIZE < v.hdrlen h) (r : Tcph) :
    ∃ junk, ∀ r', optread v h junk t = some r' → r'.1 ≠ r := by
  obtain ⟨-, hfour⟩ := hdrlen_le v (h := h)
  have hn : 4 ≤ v.hdrlen h - HDRSIZE := by
    unfold HDRSIZE at *
    omega
  obtain ⟨mss, hmss⟩ : ∃ mss : UInt8, mss.toNat ≠ r.mss := by
    by_cases hone : r.mss = 1
    · exact ⟨2, by rw [hone]; decide⟩
    · exact ⟨1, fun heq => hone heq.symm⟩
  obtain ⟨k, hk⟩ : ∃ k, v.hdrlen h - HDRSIZE + 1 = k + 2 := ⟨v.hdrlen h - HDRSIZE - 1, by omega⟩
  refine ⟨fun i => [2, 4, 0, mss].getD (i - (v.PKT + HDRSIZE)) 0, fun r' hrun heq => hmss ?_⟩
  rw [optread, hk] at hrun
  generalize v.PKT + HDRSIZE = o at hrun
  obtain ⟨seen, hrun'⟩ := optloop_mss (fun i => [2, 4, 0, mss].getD (i - o) 0) k o (v.fields h (v.numbers h t)) [] hn
    (by simp [MSSOPT]) (by simp [MSS_LENGTH, Nat.add_sub_cancel_left]) (by simp [MSS_LENGTH, EOLOPT])
  have hval := congrArg Tcph.mss (congrArg Prod.fst (Option.some.inj (hrun'.symm.trans hrun)))
  rw [heq] at hval
  simpa [nhgets, Nat.add_assoc] using hval

/-- The header is read from the packet's bytes exactly when its first block is kept, and from none behind the
options when no kind is alone at their end. -/
theorem accepted_iff (h : ¬ Rejected v (flat (b :: l))) :
    (∀ junk, ∃ r, ntohtcp v g g' junk t (b :: l) = some r ∧ (r.tcph, r.result) = header v t (flat (b :: l)) ∧
        ∀ i ∈ r.seen, v.PKT + HDRSIZE ≤ i ∧ i < v.hdrlen (bytes (flat (b :: l))) + v.PKT) ↔
      v.hdrlen (bytes (flat (b :: l))) + v.PKT ≤ frontroom b (v.PKT + HDRSIZE) ∧
        ¬ Lone (bytes (flat (b :: l))) (v.PKT + HDRSIZE) (v.hdrlen (bytes (flat (b :: l))) - HDRSIZE) := by
  have hsmall : HDRSIZE ≤ v.hdrlen (bytes (flat (b :: l))) := by
    simp only [Rejected, not_or, not_lt] at h
    exact h.2.1
  obtain ⟨r₀, hread⟩ := optread_ends v (bytes (flat (b :: l))) (bytes (flat (b :: l))) t
  have hheader := header_accepts h hread
  have hruns (junk) := ntohtcp_accepts junk g g' h (t := t)
  obtain ⟨hinside, hlone, -⟩ := optloop_seen (show optloop _ _ _ _ _ [] = some r₀ from hread)
  generalize bytes (flat (b :: l)) = p at *
  have hend : v.PKT + HDRSIZE + (v.hdrlen p - HDRSIZE) = v.hdrlen p + v.PKT := by omega
  have hkept (hroom : v.hdrlen p + v.PKT ≤ frontroom b (v.PKT + HDRSIZE)) (junk) :
      ∃ bp, ntohtcp v g g' junk t (b :: l) = some ⟨r₀.1, v.hdrlen p, bp, r₀.2⟩ := by
    obtain ⟨bp, ho, hrun, hagree⟩ := hruns junk
    rw [if_neg (not_lt.mpr hroom)] at hagree
    exact ⟨bp, by rw [hrun, optread_congr hsmall hagree, hread]; rfl⟩
  rw [hheader]
  constructor
  · intro hall
    have hroom : v.hdrlen p + v.PKT ≤ frontroom b (v.PKT + HDRSIZE) := by
      by_contra hnew
      have hge := frontroom_ge (b := b) (v.PKT + HDRSIZE)
      obtain ⟨junk, hdiffers⟩ := freed_differs (v := v) (h := p) (t := t) (by omega) r₀.1
      obtain ⟨r, hr, hfields, -⟩ := hall junk
      obtain ⟨bp, ho, hrun, hjunk⟩ := hruns junk
      rw [if_pos (not_le.mp hnew)] at hjunk
      subst hjunk
      obtain ⟨r', hr'⟩ := optread_ends v p ho t
      rw [hr', Option.map_some, hr] at hrun
      obtain rfl := Option.some.inj hrun
      exact hdiffers r' hr' (Prod.mk.inj hfields).1
    refine ⟨hroom, fun hl => ?_⟩
    obtain ⟨bp, hrun⟩ := hkept hroom fun _ => 0
    obtain ⟨r, hr, -, hseen⟩ := hall fun _ => 0
    obtain rfl := Option.some.inj (hr.symm.trans hrun)
    have hlast := (hseen _ (hlone hl)).2
    omega
  · rintro ⟨hroom, hnone⟩ junk
    obtain ⟨bp, hrun⟩ := hkept hroom junk
    refine ⟨_, hrun, rfl, fun i hi => ?_⟩
    rcases hinside i hi with hi | hi | hi
    · exact absurd hi List.not_mem_nil
    · exact ⟨hi.1, by omega⟩
    · exact absurd hi.1 hnone

end Parsing

/-- Every chain is rejected or accepted as its bytes say. Its header is read from its bytes alone, and from
no byte behind the options, exactly when the first block has room for the header and the options do not end
with a kind without a length. -/
theorem ntohtcp_exact_iff (v : Version) (g g' : Grant) (b : Buffer) (l : List Buffer) (t : Tcph) :
    (∀ junk, ∃ r, ntohtcp v g g' junk t (b :: l) = some r ∧ (r.result = -1 ↔ Rejected v (flat (b :: l)))) ∧
    ((∀ junk, ∃ r, ntohtcp v g g' junk t (b :: l) = some r ∧ (r.tcph, r.result) = header v t (flat (b :: l)) ∧
        ∀ i ∈ r.seen, v.PKT + HDRSIZE ≤ i ∧ i < v.hdrlen (bytes (flat (b :: l))) + v.PKT) ↔
      Rejected v (flat (b :: l)) ∨
        (v.hdrlen (bytes (flat (b :: l))) + v.PKT ≤ frontroom b (v.PKT + HDRSIZE) ∧
          ¬ Lone (bytes (flat (b :: l))) (v.PKT + HDRSIZE) (v.hdrlen (bytes (flat (b :: l))) - HDRSIZE))) := by
  by_cases hrej : Rejected v (flat (b :: l))
  · have hruns (junk) := ntohtcp_rejects junk g g' hrej (t := t)
    refine ⟨fun junk => ?_, iff_of_true (fun junk => ?_) (.inl hrej)⟩
    · obtain ⟨r, hrun, -, hresult, -⟩ := hruns junk
      exact ⟨r, hrun, iff_of_true hresult hrej⟩
    · obtain ⟨r, hrun, hheader, -, hseen⟩ := hruns junk
      exact ⟨r, hrun, hheader, by simp [hseen]⟩
  · refine ⟨fun junk => ?_, (accepted_iff hrej).trans (or_iff_right hrej).symm⟩
    obtain ⟨bp, ho, hrun, -⟩ := ntohtcp_accepts junk g g' hrej (t := t)
    obtain ⟨r, hread⟩ := optread_ends v (bytes (flat (b :: l))) ho t
    rw [hread] at hrun
    exact ⟨_, hrun, iff_of_false (by simp) hrej⟩

/-- A packet with a maximum segment size of 1460, in one block. -/
def whole : Buffer :=
  ⟨[], List.replicate 32 0 ++ [0x60, 2] ++ List.replicate 6 0 ++ [2, 4, 5, 180], [], false, by decide⟩

/-- The same packet, split before the options. -/
def split : List Buffer :=
  [⟨[], List.replicate 32 0 ++ [0x60, 2] ++ List.replicate 6 0, [], false, by decide⟩,
    ⟨[], [2, 4, 5, 180], [], false, by decide⟩]

/-- The options of the split packet are read from the freed block. -/
theorem options_lost : ¬ ∀ (g g' : Grant) (junk : ℕ → UInt8) (t : Tcph) (l l' : List Buffer), flat l = flat l' →
    (ntohtcp4 g g' junk t l).map (·.tcph) = (ntohtcp4 g g' junk t l').map (·.tcph) := by
  intro h
  have hmss := congrArg (Option.map Tcph.mss) (h ⟨0, fun _ => 0⟩ ⟨0, fun _ => 0⟩ (fun _ => 0)
    ⟨0, 0, 0, 0, 0, 0, 0, 0, 0, 0, 0⟩ [whole] split (by decide))
  revert hmss
  decide +kernel

end Petele.Tcp
