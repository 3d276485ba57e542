import Mathlib.Data.List.Basic
import Mathlib.Data.List.TakeDrop
import Mathlib.Data.List.TakeWhile
import Mathlib.Algebra.Order.Ring.Int
import Mathlib.Tactic.Common

namespace Petele.Ip

def IP4HDR : ℕ := 20

def IP6HDR : ℕ := 40

def IP6FHDR : ℕ := 8

def IPFRAGSZ : ℕ := 4

/-- Which of the two functions; `uflen` is the length of the unfragmentable part. -/
inductive Version
  | v4
  | v6 (uflen : ℕ) (h : IP6HDR ≤ uflen)

def ushort (z : ℤ) : ℕ := (z % 2 ^ 16).toNat

def nhgets (p : List UInt8) (i : ℕ) : ℕ := (p.getD i 0).toNat * 2 ^ 8 + (p.getD (i + 1) 0).toNat

def hnputs (p : List UInt8) (i : ℕ) (z : ℤ) : List UInt8 :=
  (p.set i (UInt8.ofNat (ushort z / 2 ^ 8))).set (i + 1) (UInt8.ofNat (ushort z % 2 ^ 8))

namespace Version

/-- The bytes of the header that are moved up where a block loses its first bytes. -/
def moved : Version → ℕ
  | v4 => IP4HDR
  | v6 uflen _ => uflen

/-- The fragment header stands between these and the data. -/
def skipped : Version → ℕ
  | v4 => 0
  | v6 _ _ => IP6FHDR

/-- `length` counts the header, `ploadlen` does not. -/
def less : Version → ℕ
  | v4 => 0
  | v6 _ _ => IP6HDR

/-- Where `length` and `ploadlen` are. -/
def lengthat : Version → ℕ
  | v4 => 2
  | v6 _ _ => 4

/-- `frag[0]&(IP_MF>>8)`, and `offsetRM[1] & 1`. -/
def more (v : Version) (p : List UInt8) : Bool :=
  match v with
  | v4 => p.getD 6 0 &&& 0x20 ≠ 0
  | v6 uflen _ => p.getD (uflen + 3) 0 &&& 1 ≠ 0

/-- `offset<<3` as a `ushort`, and `offsetRM & ~7`. -/
def foff (v : Version) (p : List UInt8) : ℕ :=
  match v with
  | v4 => (nhgets p 6 <<< 3) % 2 ^ 16
  | v6 uflen _ => nhgets p (uflen + 2) &&& 0xfff8

end Version

/-- A block of a queue: its bytes from `rp` on, and the `Ipfrag` in front of them. -/
structure Frag where
  bytes : List UInt8
  foff : ℕ
  flen : ℕ

/-- A fragment that comes in, as the one block into which it is pulled up, with the room in front of
`rp`. If a new block was put in front then, `fraghdr` points into the freed one. -/
structure Arrival where
  bytes : List UInt8
  room : ℕ
  front : Bool
  freed : List UInt8

namespace Version

variable (v : Version)

/-- No fragment; in version 4 the caller has set `tos` to 1 for `IP_MF` and to 0 without it. -/
def whole (b : Arrival) : Bool :=
  match v with
  | v4 => !v.more b.bytes && nhgets b.bytes 6 &&& 0x9fff = 0
  | v6 uflen _ => nhgets (if b.front then b.freed else b.bytes) (uflen + 2) = 0

/-- `foff` and `flen` of a new block. Without room for them `padblock` frees the block that `ih` points into. -/
def tofrag (b : Arrival) : Frag where
  bytes := b.bytes
  foff := v.foff b.bytes
  flen := ushort ((nhgets (if b.room < IPFRAGSZ then b.freed else b.bytes) v.lengthat : ℤ) + v.less -
    (v.moved + v.skipped : ℕ))

/-- A block loses its first `ovlap` bytes of data. -/
def trimfront (c : Frag) (ovlap : ℕ) : Frag where
  bytes := c.bytes.take v.moved ++ c.bytes.drop (v.moved + ovlap)
  foff := (c.foff + ovlap) % 2 ^ 16
  flen := c.flen - ovlap

/-- The blocks behind a new one that ends at `fend`. -/
def cover (fend : ℕ) : List Frag → List Frag
  | [] => []
  | c :: l =>
    if fend ≤ c.foff then c :: l
    else if fend - c.foff < c.flen then v.trimfront c (fend - c.foff) :: l
    else cover fend l

/-- The search for a complete packet. -/
def complete : ℕ → List Frag → Bool
  | _, [] => false
  | pktposn, c :: l =>
    if c.foff ≠ pktposn then false else if v.more c.bytes = false then true else complete (pktposn + c.flen) l

/-- The packet: the length of the first block's data is taken from its header. -/
def gather (first : Frag) (l : List Frag) : List UInt8 :=
  let p := first.bytes.take v.moved ++ first.bytes.drop (v.moved + v.skipped)
  let len : ℤ := nhgets p v.lengthat - v.skipped
  hnputs (p.take (len + v.less).toNat) v.lengthat (len + (l.map Frag.flen).sum) ++
    l.flatMap fun c => (c.bytes.drop (v.moved + v.skipped)).take c.flen

def finish : List Frag → List Frag × Option (List UInt8)
  | [] => ([], none)
  | first :: l => if v.complete 0 (first :: l) then ([], some (v.gather first l)) else (first :: l, none)

/-- `ip4reassemble` and `ip6reassemble`, on the queue of the packet. -/
def reassemble (q : List Frag) (b : Arrival) : List Frag × Option (List UInt8) :=
  if v.whole b then ([], some b.bytes)
  else
    let bp := v.tofrag b
    if q = [] then ([bp], none)
    else
      let before := q.takeWhile (·.foff < bp.foff)
      let behind := q.dropWhile (·.foff < bp.foff)
      match before.getLast? with
      | none => v.finish (bp :: v.cover (bp.foff + bp.flen) behind)
      | some prev =>
        let ovlap : ℤ := prev.foff + prev.flen - bp.foff
        if ovlap > 0 then
          if ovlap ≥ bp.flen then (q, none)
          else
            v.finish (before.dropLast ++ { prev with flen := ushort (prev.flen - ovlap) } ::
              bp :: v.cover (bp.foff + bp.flen) behind)
        else v.finish (before ++ bp :: v.cover (bp.foff + bp.flen) behind)

end Version

def ip4reassemble : List Frag → Arrival → List Frag × Option (List UInt8) := Version.v4.reassemble

def ip6reassemble (uflen : ℕ) (h : IP6HDR ≤ uflen) : List Frag → Arrival → List Frag × Option (List UInt8) :=
  (Version.v6 uflen h).reassemble

/-- The bytes of a block are the fragment with the bytes `a` to `e` of the data `d` of a datagram. -/
structure Slice (v : Version) (d p : List UInt8) (a e : ℕ) : Prop where
  foff : v.foff p = a
  more : v.more p = true ↔ e ≠ d.length
  start : a ≤ e
  stop : e ≤ d.length
  field : nhgets p v.lengthat + v.less = v.moved + v.skipped + (e - a)
  long : v.moved + v.skipped ≤ p.length
  data : (p.drop (v.moved + v.skipped)).take (e - a) = (d.drop a).take (e - a)

/-- The datagram itself could be sent in one packet. -/
def Fits (v : Version) (d : List UInt8) : Prop := v.moved + d.length < 2 ^ 16 + v.less

/-- Nothing is read from a freed block. -/
def Arrival.Sound (b : Arrival) : Prop := IPFRAGSZ ≤ b.room ∧ b.front = false

instance (b : Arrival) : Decidable b.Sound := inferInstanceAs (Decidable (_ ∧ _))

/-- The block behind that loses its first bytes has the same flag as before, where it is read then. -/
def KeepsFlag (v : Version) (q : List Frag) (a e : ℕ) : Prop :=
  ∀ c ∈ q, a ≤ c.foff → c.foff < e → e < c.foff + c.flen →
    v.more (v.trimfront c (e - c.foff)).bytes = v.more c.bytes

/-- The queues that fragments of a datagram lead to; at any time it may be freed. -/
inductive Reach (v : Version) (d : List UInt8) : List Frag → Prop
  | start : Reach v d []
  | fragment {q b a e} : Reach v d q → Slice v d b.bytes a e → b.Sound → KeepsFlag v q a e →
      Reach v d (v.reassemble q b).1
  | expire {q} : Reach v d q → Reach v d []

/-- The length of the data of a block is the one its header tells. -/
def Kept (v : Version) (c : Frag) : Prop := nhgets c.bytes v.lengthat + v.less = v.moved + v.skipped + c.flen

/-- The packet has the length and the data of the datagram. -/
def Right (v : Version) (d p : List UInt8) : Prop :=
  nhgets p v.lengthat + v.less = v.moved + d.length ∧ (p.drop v.moved).take d.length = d

/-- What a block of the queue holds of the datagram. -/
structure Held (v : Version) (d : List UInt8) (c : Frag) : Prop where
  stop : c.foff + c.flen ≤ d.length
  more : v.more c.bytes = false ↔ c.foff + c.flen = d.length
  long : v.moved + v.skipped ≤ c.bytes.length
  data : (c.bytes.drop (v.moved + v.skipped)).take c.flen = (d.drop c.foff).take c.flen
  first : c.foff = 0 → ∃ o, c.flen ≤ o ∧ o ≤ d.length ∧
    nhgets c.bytes v.lengthat + v.less = v.moved + v.skipped + o ∧
      (c.bytes.drop (v.moved + v.skipped)).take o = d.take o

def Apart (c c' : Frag) : Prop := c.foff + c.flen ≤ c'.foff

/-- The blocks of a queue are in order, apart from each other. -/
structure Queue (v : Version) (d : List UInt8) (q : List Frag) : Prop where
  held : ∀ c ∈ q, Held v d c
  apart : q.Pairwise Apart

section Blocks

variable {v : Version} {d p : List UInt8} {a e i k : ℕ} {b : Arrival} {c : Frag} {q l : List Frag}

theorem lengthat_lt (v : Version) : v.lengthat + 1 < v.moved := by
  cases v with
  | v4 => decide
  | v6 uflen h => exact lt_of_lt_of_le (show 4 + 1 < IP6HDR by decide) h

theorem less_le (v : Version) : v.less ≤ v.moved := by
  cases v with
  | v4 => decide
  | v6 uflen h => exact h

theorem Fits.lt (h : Fits v d) : d.length < 2 ^ 16 := by
  have hless := less_le v
  unfold Fits at h
  omega

theorem tofrag_flen (hfits : Fits v d) (hb : b.Sound) (h : Slice v d b.bytes a e) : (v.tofrag b).flen = e - a := by
  have hlen := hfits.lt
  have hstop := h.stop
  have hfield := h.field
  rw [Version.tofrag, if_neg (not_lt.mpr hb.1)]
  dsimp only
  rw [ushort, Int.emod_eq_of_lt (by omega) (by omega)]
  omega

theorem tofrag_foff (h : Slice v d b.bytes a e) : (v.tofrag b).foff = a := h.foff

/-- A fragment as it comes in. -/
theorem held_tofrag (hfits : Fits v d) (hb : b.Sound) (h : Slice v d b.bytes a e) :
    Held v d (v.tofrag b) ∧ Kept v (v.tofrag b) := by
  have hstart := h.start
  have hstop := h.stop
  have hflen := tofrag_flen hfits hb h
  have hfoff := tofrag_foff h
  refine ⟨⟨by omega, ?_, h.long, ?_, fun hzero => ⟨e - a, by omega, by omega, h.field, ?_⟩⟩, ?_⟩
  · rw [hflen, hfoff, show a + (e - a) = e by omega, ← not_iff_not, Bool.not_eq_false]
    exact h.more
  · rw [hflen, hfoff]
    exact h.data
  · rw [hfoff] at hzero
    subst hzero
    exact h.data
  · rw [Kept, hflen]
    exact h.field

/-- A block that is cut off where the next one begins. -/
theorem held_cut (h : Held v d c) (hk : k ≤ c.flen) (hmore : c.foff + c.flen < d.length) :
    Held v d { c with flen := k } := by
  have hflag : v.more c.bytes ≠ false := fun hfalse => by
    have heq := h.more.mp hfalse
    omega
  refine ⟨by dsimp only; omega, iff_of_false hflag (by dsimp only; omega), h.long, ?_, fun hzero => ?_⟩
  · have htake := congrArg (List.take k) h.data
    rwa [List.take_take, List.take_take, Nat.min_eq_left hk] at htake
  · obtain ⟨o, ho, hrest⟩ := h.first hzero
    exact ⟨o, hk.trans ho, hrest⟩

/-- A block that loses its first bytes. -/
theorem held_trimfront (hfits : Fits v d) (h : Held v d c) (hpos : 0 < k) (hk : k < c.flen)
    (hmore : v.more (v.trimfront c k).bytes = v.more c.bytes) :
    Held v d (v.trimfront c k) ∧ (v.trimfront c k).foff = c.foff + k ∧ (v.trimfront c k).flen = c.flen - k := by
  have hlen := hfits.lt
  have hstop := h.stop
  have hfoff : (v.trimfront c k).foff = c.foff + k := Nat.mod_eq_of_lt (by omega)
  have hflen : (v.trimfront c k).flen = c.flen - k := rfl
  have hbytes : c.flen ≤ (c.bytes.drop (v.moved + v.skipped)).length := by
    have hlength := congrArg List.length h.data
    simp only [List.length_take, List.length_drop] at hlength ⊢
    omega
  rw [List.length_drop] at hbytes
  have hlong := h.long
  have hmoved : (c.bytes.take v.moved).length = v.moved := by
    rw [List.length_take]
    omega
  have hdrop : (v.trimfront c k).bytes.drop (v.moved + v.skipped) = (c.bytes.drop (v.moved + v.skipped)).drop k := by
    rw [Version.trimfront]
    dsimp only
    rw [← List.drop_drop, List.drop_left' hmoved, List.drop_drop, List.drop_drop]
    congr 1
    omega
  refine ⟨⟨?_, ?_, ?_, ?_, fun hzero => ?_⟩, hfoff, hflen⟩
  · omega
  · rw [hmore, h.more, hfoff, hflen]
    omega
  · rw [Version.trimfront]
    dsimp only
    rw [List.length_append, hmoved, List.length_drop]
    omega
  · have htake := congrArg (List.drop k) h.data
    rw [List.drop_take, List.drop_take, List.drop_drop, List.drop_drop] at htake
    rw [hdrop, hflen, hfoff, List.drop_drop]
    exact htake
  · omega

/-- The blocks that a new one meets behind it. -/
theorem cover_queue (hfits : Fits v d) (h : Queue v d q) (hkeep : KeepsFlag v q a e) (hq : ∀ c ∈ q, a ≤ c.foff) :
    Queue v d (v.cover e q) ∧ ∀ c ∈ v.cover e q, e ≤ c.foff := by
  induction q with
  | nil => exact ⟨h, fun c hc => nomatch hc⟩
  | cons c l ih =>
    obtain ⟨hc, hl⟩ := List.pairwise_cons.mp h.apart
    have htail : Queue v d l := ⟨fun x hx => h.held x (List.mem_cons_of_mem _ hx), hl⟩
    have hheld := h.held c List.mem_cons_self
    rw [Version.cover]
    split_ifs with hbehind hpart
    · refine ⟨h, fun x hx => ?_⟩
      rcases List.mem_cons.mp hx with rfl | hx
      · exact hbehind
      · have hle := hc x hx
        unfold Apart at hle
        omega
    · obtain ⟨htrim, hfoff, hflen⟩ := held_trimfront hfits hheld (k := e - c.foff) (by omega) hpart
        (hkeep c List.mem_cons_self (hq c List.mem_cons_self) (by omega) (by omega))
      refine ⟨⟨fun x hx => ?_, List.pairwise_cons.mpr ⟨fun x hx => ?_, hl⟩⟩, fun x hx => ?_⟩
      · rcases List.mem_cons.mp hx with rfl | hx
        · exact htrim
        · exact htail.held x hx
      · have hle := hc x hx
        unfold Apart at hle ⊢
        omega
      · rcases List.mem_cons.mp hx with rfl | hx
        · omega
        · have hle := hc x hx
          unfold Apart at hle
          omega
    · exact ih htail (fun x hx => hkeep x (List.mem_cons_of_mem _ hx)) fun x hx => hq x (List.mem_cons_of_mem _ hx)

theorem queue_nil : Queue v d [] := ⟨fun _ hc => (nomatch hc), List.Pairwise.nil⟩

/-- A new block between the ones before it and the ones behind it. -/
theorem queue_insert {before behind : List Frag} (hbefore : Queue v d before) (hc : Held v d c)
    (hbehind : Queue v d behind) (hend : ∀ x ∈ before, Apart x c) (hstart : ∀ x ∈ behind, Apart c x) :
    Queue v d (before ++ c :: behind) := by
  refine ⟨fun x hx => ?_, List.pairwise_append.mpr ⟨hbefore.apart, List.pairwise_cons.mpr ⟨hstart, hbehind.apart⟩, ?_⟩⟩
  · rcases List.mem_append.mp hx with hx | hx
    · exact hbefore.held x hx
    · rcases List.mem_cons.mp hx with rfl | hx
      · exact hc
      · exact hbehind.held x hx
  · intro x hx y hy
    rcases List.mem_cons.mp hy with rfl | hy
    · exact hend x hx
    · have hxc := hend x hx
      have hcy := hstart y hy
      unfold Apart at *
      omega

/-- The blocks from a complete one on give the rest of the datagram. -/
theorem complete_data (h : Queue v d q) (hcomplete : v.complete k q = true) :
    (q.flatMap fun c => (c.bytes.drop (v.moved + v.skipped)).take c.flen) = d.drop k ∧
      (q.map Frag.flen).sum = d.length - k ∧ k ≤ d.length := by
  induction q generalizing k with
  | nil => cases hcomplete
  | cons c l ih =>
    obtain ⟨hc, hl⟩ := List.pairwise_cons.mp h.apart
    have htail : Queue v d l := ⟨fun x hx => h.held x (List.mem_cons_of_mem _ hx), hl⟩
    have hheld := h.held c List.mem_cons_self
    have hstop := hheld.stop
    rw [Version.complete] at hcomplete
    split_ifs at hcomplete with hposn hflag
    · rw [not_not] at hposn
      have hend := hheld.more.mp hflag
      -- what is behind the last fragment is empty
      have hempty : ∀ x ∈ l, x.flen = 0 := fun x hx => by
        have hle := hc x hx
        have hstop := htail.held x hx |>.stop
        unfold Apart at hle
        omega
      rw [List.flatMap_cons, hheld.data, List.map_cons, List.sum_cons,
        List.flatMap_eq_nil_iff.mpr fun x hx => by rw [hempty x hx, List.take_zero],
        List.sum_eq_zero_iff_forall_eq_nat.mpr fun n hn => by
          obtain ⟨x, hx, rfl⟩ := List.mem_map.mp hn
          exact hempty x hx]
      refine ⟨?_, by omega, by omega⟩
      rw [List.append_nil, hposn, List.take_of_length_le]
      rw [List.length_drop]
      omega
    · rw [not_not] at hposn
      obtain ⟨hdata, hsum, hle⟩ := ih htail hcomplete
      rw [List.flatMap_cons, hdata, hheld.data, List.map_cons, List.sum_cons, hsum, hposn]
      refine ⟨?_, by omega, by omega⟩
      rw [← List.drop_drop, List.take_append_drop]

theorem Queue.sublist (h : Queue v d q) (hl : l.Sublist q) : Queue v d l :=
  ⟨fun c hc => h.held c (hl.mem hc), h.apart.sublist hl⟩

theorem behind_ge (h : q.Pairwise Apart) : ∀ c ∈ q.dropWhile (·.foff < a), a ≤ c.foff := by
  induction q with
  | nil => exact fun c hc => nomatch hc
  | cons c l ih =>
    obtain ⟨hc, hl⟩ := List.pairwise_cons.mp h
    rw [List.dropWhile_cons]
    split_ifs with hlt
    · exact ih hl
    · intro x hx
      have hge : a ≤ c.foff := by simpa using hlt
      rcases List.mem_cons.mp hx with rfl | hx
      · exact hge
      · have hle := hc x hx
        unfold Apart at hle
        omega

theorem hnputs_length (p : List UInt8) (i : ℕ) (z : ℤ) : (hnputs p i z).length = p.length := by
  rw [hnputs, List.length_set, List.length_set]

theorem hnputs_drop (z : ℤ) (h : i + 1 < k) : (hnputs p i z).drop k = p.drop k := by
  rw [hnputs, List.drop_set_of_lt h, List.drop_set_of_lt (by omega)]

theorem nhgets_hnputs (p p' : List UInt8) (z : ℤ) (h : i + 1 < p.length) :
    nhgets (hnputs p i z ++ p') i = ushort z := by
  have hlt : ushort z < 2 ^ 16 := by
    unfold ushort
    omega
  have hlen := hnputs_length p i z
  have hhigh : (hnputs p i z ++ p').getD i 0 = UInt8.ofNat (ushort z / 2 ^ 8) := by
    rw [List.getD_eq_getElem?_getD, List.getElem?_append_left (by omega), hnputs, List.getElem?_set_ne (by omega),
      List.getElem?_set_self (by omega), Option.getD_some]
  have hlow : (hnputs p i z ++ p').getD (i + 1) 0 = UInt8.ofNat (ushort z % 2 ^ 8) := by
    rw [List.getD_eq_getElem?_getD, List.getElem?_append_left (by omega), hnputs,
      List.getElem?_set_self (by rw [List.length_set]; exact h), Option.getD_some]
  rw [nhgets, hhigh, hlow, UInt8.toNat_ofNat_of_lt' (by unfold UInt8.size; omega),
    UInt8.toNat_ofNat_of_lt' (by unfold UInt8.size; omega)]
  omega

theorem nhgets_take (p p' : List UInt8) (h : i + 1 < k) (hk : k ≤ p.length) :
    nhgets (p.take k ++ p') i = nhgets p i := by
  have hlen : (p.take k).length = k := by rw [List.length_take, Nat.min_eq_left hk]
  simp only [nhgets, List.getD_eq_getElem?_getD]
  rw [List.getElem?_append_left (by omega), List.getElem?_append_left (by omega), List.getElem?_take_of_lt (by omega),
    List.getElem?_take_of_lt h]

/-- The packet is right when the first block has the data its header tells. -/
theorem gather_right {first : Frag} (hfits : Fits v d) (h : Queue v d (first :: l))
    (hcomplete : v.complete 0 (first :: l) = true) : Right v d (v.gather first l) ↔ Kept v first := by
  have hheld := h.held first List.mem_cons_self
  have hzero : first.foff = 0 := by
    rw [Version.complete] at hcomplete
    by_contra hne
    rw [if_pos hne] at hcomplete
    cases hcomplete
  obtain ⟨o, ho, hmax, hfield, htake⟩ := hheld.first hzero
  obtain ⟨hdata, hsum, -⟩ := complete_data h hcomplete
  have hless := less_le v
  have hat := lengthat_lt v
  have hlong := hheld.long
  have hlen := hfits.lt
  have hstop := hheld.stop
  have hmoved : (first.bytes.take v.moved).length = v.moved := by
    rw [List.length_take]
    omega
  have hrest : (l.flatMap fun c => (c.bytes.drop (v.moved + v.skipped)).take c.flen) = d.drop first.flen := by
    rw [List.flatMap_cons, hheld.data, hzero, List.drop_zero] at hdata
    exact List.append_cancel_left (hdata.trans (List.take_append_drop first.flen d).symm)
  rw [List.map_cons, List.sum_cons] at hsum
  have hgather : v.gather first l = hnputs (first.bytes.take v.moved ++ d.take o) v.lengthat
      (v.moved + o - v.less + (d.length - first.flen : ℕ)) ++ d.drop first.flen := by
    rw [Version.gather, nhgets_take _ _ hat (by omega), hrest, show ((nhgets first.bytes v.lengthat : ℤ) - v.skipped + v.less).toNat = v.moved + o by omega,
      List.take_append, hmoved, Nat.add_sub_cancel_left, htake, List.take_of_length_le (by omega)]
    congr 2
    omega
  have hdrop : (v.gather first l).drop v.moved = d.take o ++ d.drop first.flen := by
    rw [hgather, List.drop_append_of_le_length (by rw [hnputs_length, List.length_append]; omega),
      hnputs_drop _ hat, List.drop_left' hmoved]
  rw [Right, hdrop, hgather, nhgets_hnputs _ _ _ (by rw [List.length_append]; omega), Kept, ushort]
  unfold Fits at hfits
  constructor
  · rintro ⟨hlength, -⟩
    omega
  · intro hkept
    have heq : o = first.flen := by omega
    subst heq
    rw [List.take_append_drop, List.take_length]
    exact ⟨by omega, rfl⟩

/-- A new block in front of all others, or of all that are left. -/
theorem queue_front (hfits : Fits v d) (h : Queue v d q) (hslice : Slice v d b.bytes a e) (hb : b.Sound)
    (hkeep : KeepsFlag v q a e) :
    Queue v d (v.tofrag b :: v.cover e (q.dropWhile (·.foff < a))) := by
  have hsub : (q.dropWhile (·.foff < a)).Sublist q := List.dropWhile_sublist _
  obtain ⟨hcover, hstart⟩ := cover_queue hfits (h.sublist hsub) (fun c hc => hkeep c (hsub.mem hc)) (behind_ge h.apart)
  refine queue_insert queue_nil (held_tofrag hfits hb hslice).1 hcover (fun c hc => nomatch hc) fun c hc => ?_
  rw [Apart, tofrag_foff hslice, tofrag_flen hfits hb hslice, Nat.add_sub_cancel' hslice.start]
  exact hstart c hc

/-- A new block behind others. -/
theorem queue_between {before : List Frag} (hfits : Fits v d) (h : Queue v d q) (hslice : Slice v d b.bytes a e)
    (hb : b.Sound) (hkeep : KeepsFlag v q a e) (hbefore : Queue v d before) (hend : ∀ c ∈ before, c.foff + c.flen ≤ a) :
    Queue v d (before ++ v.tofrag b :: v.cover e (q.dropWhile (·.foff < a))) := by
  have hfront := queue_front hfits h hslice hb hkeep
  have hbehind := List.pairwise_cons.mp hfront.apart
  refine queue_insert hbefore (hfront.held _ List.mem_cons_self)
    ⟨fun c hc => hfront.held c (List.mem_cons_of_mem _ hc), hbehind.2⟩ (fun c hc => ?_) hbehind.1
  rw [Apart, tofrag_foff hslice]
  exact hend c hc

/-- The first block stays in front of the new one, and does not lap over it. -/
theorem kept_head (hq : q.head? = some c) (hlt : c.foff < a) (hend : c.foff + c.flen ≤ a) :
    Kept v c ↔ a = 0 ∨ ∀ c ∈ q.head?, Kept v c ∧ c.foff + c.flen ≤ a := by
  rw [hq]
  constructor
  · rintro hkept
    refine .inr fun x hx => ?_
    obtain rfl := Option.some.inj hx
    exact ⟨hkept, hend⟩
  · rintro (hzero | hall)
    · omega
    · exact (hall c rfl).1

/-- The first block is cut off where the new one begins. -/
theorem cut_head (hheld : Held v d c) (hq : q.head? = some c) (hlt : c.foff < a) (hlap : a < c.foff + c.flen)
    (hzero : c.foff = 0) :
    Kept v { c with flen := a - c.foff } ↔ a = 0 ∨ ∀ c ∈ q.head?, Kept v c ∧ c.foff + c.flen ≤ a := by
  obtain ⟨o, ho, -, hfield, -⟩ := hheld.first hzero
  refine iff_of_false (fun hkept => ?_) ?_
  · rw [Kept] at hkept
    dsimp only at hkept
    omega
  · rintro (hzero | hall)
    · omega
    · have hend := (hall c hq).2
      omega

/-- The fragment is not whole: where it goes, and whether the block then in front is kept. -/
theorem reassemble_insert (hfits : Fits v d) (h : Queue v d q) (hslice : Slice v d b.bytes a e) (hb : b.Sound)
    (hkeep : KeepsFlag v q a e) (hwhole : v.whole b = false) (hne : q ≠ []) :
    v.reassemble q b = (q, none) ∨ ∃ first l, Queue v d (first :: l) ∧ v.reassemble q b = v.finish (first :: l) ∧
      (first.foff = 0 → (Kept v first ↔ a = 0 ∨ ∀ c ∈ q.head?, Kept v c ∧ c.foff + c.flen ≤ a)) := by
  have hflen := tofrag_flen hfits hb hslice
  have hfoff := tofrag_foff hslice
  have hend : a + (e - a) = e := Nat.add_sub_cancel' hslice.start
  have hless : ∀ c ∈ q.takeWhile (·.foff < a), c.foff < a := fun c hc => by
    simpa using List.mem_takeWhile_imp hc
  have hparts := List.takeWhile_append_dropWhile (p := (·.foff < a)) (l := q)
  have hbefore := h.sublist (List.takeWhile_sublist (l := q) (·.foff < a))
  rw [Version.reassemble, if_neg (by rw [hwhole]; decide), if_neg hne]
  dsimp only
  rw [hfoff, hflen, hend]
  rcases List.eq_nil_or_concat' (q.takeWhile (·.foff < a)) with hnil | ⟨init, prev, hlast⟩
  · rw [hnil]
    refine .inr ⟨_, _, queue_front hfits h hslice hb hkeep, rfl, fun hzero => ?_⟩
    exact iff_of_true (held_tofrag hfits hb hslice).2 (.inl (hfoff.symm.trans hzero))
  · rw [hlast] at hless hbefore hparts ⊢
    rw [List.getLast?_concat, List.dropLast_concat]
    dsimp only
    have hprev := hless prev (List.mem_append_right _ List.mem_cons_self)
    have hheld := hbefore.held prev (List.mem_append_right _ List.mem_cons_self)
    obtain ⟨hinit, -, hcross⟩ := List.pairwise_append.mp hbefore.apart
    have hahead : ∀ c ∈ init, c.foff + c.flen ≤ prev.foff := fun c hc => hcross c hc prev List.mem_cons_self
    have hstop := hheld.stop
    have hmax := hslice.stop
    by_cases hovlap : (prev.foff : ℤ) + prev.flen - a > 0
    · rw [if_pos hovlap]
      by_cases hinside : (prev.foff : ℤ) + prev.flen - a ≥ (e - a : ℕ)
      · rw [if_pos hinside]
        exact .inl rfl
      · have hcut : ushort (prev.flen - ((prev.foff : ℤ) + prev.flen - a)) = a - prev.foff := by
          have hlen := hfits.lt
          rw [ushort, Int.emod_eq_of_lt (by omega) (by omega)]
          omega
        have hprev' := held_cut hheld (k := a - prev.foff) (by omega) (by omega)
        have hbefore' : Queue v d (init ++ [{ prev with flen := a - prev.foff }]) :=
          queue_insert (hbefore.sublist (List.sublist_append_left _ _)) hprev' queue_nil hahead
            fun c hc => nomatch hc
        have hqueue := queue_between hfits h hslice hb hkeep hbefore' fun c hc => by
          rcases List.mem_append.mp hc with hc | hc
          · exact (hahead c hc).trans hprev.le
          · obtain rfl := List.mem_singleton.mp hc
            dsimp only
            omega
        rw [← List.append_cons] at hqueue
        rw [if_neg hinside, hcut]
        rcases init with _ | ⟨f, init⟩
        · exact .inr ⟨_, _, hqueue, rfl, cut_head (c := prev) hheld (by rw [← hparts]; rfl) hprev (by omega)⟩
        · refine .inr ⟨_, _, hqueue, rfl, fun _ => kept_head (by rw [← hparts]; rfl) ?_ ?_⟩
          · exact hless f List.mem_cons_self
          · exact (hahead f List.mem_cons_self).trans hprev.le
    · have hqueue := queue_between hfits h hslice hb hkeep hbefore fun c hc => by
        rcases List.mem_append.mp hc with hc | hc
        · exact (hahead c hc).trans hprev.le
        · obtain rfl := List.mem_singleton.mp hc
          omega
      rw [if_neg hovlap]
      rcases init with _ | ⟨f, init⟩
      · exact .inr ⟨_, _, hqueue, rfl, fun _ => kept_head (by rw [← hparts]; rfl) hprev (by omega)⟩
      · refine .inr ⟨_, _, hqueue, rfl, fun _ => kept_head (by rw [← hparts]; rfl) ?_ ?_⟩
        · exact hless f List.mem_cons_self
        · exact (hahead f List.mem_cons_self).trans hprev.le

theorem finish_queue (h : Queue v d q) : Queue v d (v.finish q).1 := by
  cases q with
  | nil => exact h
  | cons c l =>
    rw [Version.finish]
    split_ifs
    · exact queue_nil
    · exact h

theorem reassemble_first (hwhole : v.whole b = false) : v.reassemble [] b = ([v.tofrag b], none) := by
  rw [Version.reassemble, if_neg (by rw [hwhole]; decide), if_pos rfl]

theorem reassemble_whole (hwhole : v.whole b = true) : v.reassemble q b = ([], some b.bytes) := by
  rw [Version.reassemble, if_pos hwhole]

theorem Reach.queue (hfits : Fits v d) (h : Reach v d q) : Queue v d q := by
  induction h with
  | start => exact queue_nil
  | @fragment q b a e _ hslice hb hkeep ih =>
    cases hwhole : v.whole b with
    | true =>
      rw [reassemble_whole hwhole]
      exact queue_nil
    | false =>
      by_cases hne : q = []
      · subst hne
        rw [reassemble_first hwhole]
        exact queue_front hfits queue_nil hslice hb hkeep
      · rcases reassemble_insert hfits ih hslice hb hkeep hwhole hne with heq | ⟨first, l, hqueue, heq, -⟩
        · rw [heq]
          exact ih
        · rw [heq]
          exact finish_queue hqueue
  | expire _ _ => exact queue_nil

theorem shift_zero {x : ℕ} (h : x &&& 0x9fff = 0) : (x <<< 3) % 2 ^ 16 = 0 := by
  have hlow : x &&& (2 ^ 13 - 1) = 0 := by
    rw [show 2 ^ 13 - 1 = 0x9fff &&& (2 ^ 13 - 1) by decide, ← Nat.and_assoc, h, Nat.zero_and]
  rw [Nat.and_two_pow_sub_one_eq_mod] at hlow
  rw [Nat.shiftLeft_eq]
  omega

/-- A fragment that is taken for a packet has all the data; in version 6 its fragment header stays. -/
theorem whole_right (hslice : Slice v d b.bytes a e) (hb : b.Sound) (hwhole : v.whole b = true) :
    a = 0 ∧ (Right v d b.bytes ↔ v.skipped = 0) := by
  have hfield := hslice.field
  have hfoff := hslice.foff
  cases v with
  | v4 =>
    simp only [Version.whole, Bool.and_eq_true, Bool.not_eq_true', decide_eq_true_eq] at hwhole
    have hend : e = d.length := by
      by_contra hne
      rw [hslice.more.mpr hne] at hwhole
      cases hwhole.1
    obtain rfl : a = 0 := hfoff.symm.trans (shift_zero hwhole.2)
    subst hend
    have hdata := hslice.data
    rw [Nat.sub_zero, List.drop_zero, List.take_length] at hdata
    exact ⟨rfl, iff_of_true ⟨hfield, hdata⟩ rfl⟩
  | v6 uflen h =>
    simp only [Version.whole, hb.2, Bool.false_eq_true, if_false, decide_eq_true_eq] at hwhole
    have hend : e = d.length := by
      by_contra hne
      have hmore := hslice.more.mpr hne
      have hbyte : b.bytes.getD (uflen + 3) 0 = 0 := by
        refine UInt8.toNat_inj.mp (?_ : (b.bytes.getD (uflen + 2 + 1) 0).toNat = 0)
        unfold nhgets at hwhole
        omega
      rw [Version.more, hbyte] at hmore
      exact absurd hmore (by decide)
    obtain rfl : a = 0 := by
      rw [← hfoff, Version.foff, hwhole, Nat.zero_and]
    subst hend
    refine ⟨rfl, iff_of_false (fun hright => ?_) (show ¬ IP6FHDR = 0 by decide)⟩
    have hlength := hright.1
    simp only [Version.skipped, IP6FHDR] at hfield
    omega

/-- The flag of version 4 is among the bytes that are moved. -/
theorem keepsFlag_v4 (q : List Frag) (a e : ℕ) : KeepsFlag .v4 q a e := by
  intro c _ _ _ _
  have hbyte (k : ℕ) : (c.bytes.take 20 ++ c.bytes.drop (20 + k)).getD 6 0 = c.bytes.getD 6 0 := by
    simp only [List.getD_eq_getElem?_getD]
    rcases Nat.lt_or_ge 6 c.bytes.length with hlong | hshort
    · rw [List.getElem?_append_left (by rw [List.length_take]; omega), List.getElem?_take_of_lt (by decide)]
    · rw [List.take_of_length_le (by omega), List.drop_of_length_le (by omega), List.append_nil]
  rw [Version.more, Version.more, Version.trimfront]
  exact congrArg (fun x : UInt8 => decide (x &&& 0x20 ≠ 0)) (hbyte _)

end Blocks

/-- For any fragments of a datagram, in any order and with any overlap: a packet has the datagram's length and data
exactly when it was no IPv6 fragment with all of it, and no fragment has cut off the data of the block in front. The
condition that a flag is kept is always met in version 4. -/
theorem reassemble_right_iff (v : Version) (d : List UInt8) (q : List Frag) (b : Arrival) (a e : ℕ) (p : List UInt8)
    (hfits : Fits v d) (hreach : Reach v d q) (hslice : Slice v d b.bytes a e) (hb : b.Sound)
    (hkeep : KeepsFlag v q a e) (hp : (v.reassemble q b).2 = some p) :
    Right v d p ↔ (v.skipped = 0 ∨ v.whole b = false) ∧ (a = 0 ∨ ∀ c ∈ q.head?, Kept v c ∧ c.foff + c.flen ≤ a) := by
  have hqueue := hreach.queue hfits
  cases hwhole : v.whole b with
  | true =>
    obtain ⟨hzero, hright⟩ := whole_right hslice hb hwhole
    rw [reassemble_whole hwhole] at hp
    obtain rfl := Option.some.inj hp
    simp [hright, hzero]
  | false =>
    by_cases hne : q = []
    · subst hne
      rw [reassemble_first hwhole] at hp
      cases hp
    · rcases reassemble_insert hfits hqueue hslice hb hkeep hwhole hne with heq | ⟨first, l, hq', heq, hfirst⟩
      · rw [heq] at hp
        cases hp
      · rw [heq, Version.finish] at hp
        split_ifs at hp with hcomplete
        obtain rfl := Option.some.inj hp
        have hzero : first.foff = 0 := by
          by_contra hne
          rw [Version.complete, if_pos hne] at hcomplete
          cases hcomplete
        rw [gather_right hfits hq' hcomplete, hfirst hzero]
        simp

/-- A fragment of the 24 bytes 0 to 23, with room in front of its header. -/
def fragment (length flags offset : UInt8) (data : List UInt8) : Arrival :=
  ⟨[0x45, 0, 0, length, 0, 1, flags, offset, 64, 17, 0, 0, 10, 0, 0, 1, 10, 0, 0, 2] ++ data, 64, false, []⟩

def datagram : List UInt8 := (List.range 24).map UInt8.ofNat

/-- Fragments that meet without an overlap. -/
theorem reassemble_right_iff_apart : ∃ p, (ip4reassemble (ip4reassemble [] (fragment 28 0x20 0 (datagram.take 8))).1
    (fragment 36 0 1 (datagram.drop 8))).2 = some p ∧ Right .v4 datagram p := by
  have hfirst : Slice .v4 datagram (fragment 28 0x20 0 (datagram.take 8)).bytes 0 8 :=
    ⟨by decide, by decide, by decide, by decide, by decide, by decide, by decide⟩
  have hsecond : Slice .v4 datagram (fragment 36 0 1 (datagram.drop 8)).bytes 8 24 :=
    ⟨by decide, by decide, by decide, by decide, by decide, by decide, by decide⟩
  refine ⟨_, rfl, (reassemble_right_iff .v4 datagram _ _ 8 24 _ (by unfold Fits; decide)
    (.fragment .start hfirst (by decide) (keepsFlag_v4 _ _ _)) hsecond (by decide) (keepsFlag_v4 _ _ _) rfl).mpr
    ⟨.inl rfl, .inr fun c hc => ?_⟩⟩
  obtain rfl := Option.some.inj hc
  unfold Kept
  decide

theorem first_slice : Slice .v4 datagram (fragment 36 0x20 0 (datagram.take 16)).bytes 0 16 :=
  ⟨by decide, by decide, by decide, by decide, by decide, by decide, by decide⟩

theorem second_slice : Slice .v4 datagram (fragment 36 0 1 (datagram.drop 8)).bytes 8 24 :=
  ⟨by decide, by decide, by decide, by decide, by decide, by decide, by decide⟩

/-- The second fragment cuts off half of the first one, whose header is believed. -/
theorem overlap_repeated : ∃ q b p, Reach .v4 datagram q ∧ Slice .v4 datagram b.bytes 8 24 ∧ b.Sound ∧
    ip4reassemble q b = ([], some p) ∧ nhgets p 2 = 52 ∧ ¬ Right .v4 datagram p := by
  refine ⟨_, fragment 36 0 1 (datagram.drop 8), _, .fragment .start first_slice (by decide) (keepsFlag_v4 _ _ _),
    second_slice, by decide, rfl, by decide, fun hright => ?_⟩
  exact absurd hright.1 (by decide)

end Petele.Ip
