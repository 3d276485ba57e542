import Petele.Ip.Received

namespace Petele.Ip.Fragment

/-- A packet in blocks: the bytes of the first one, what lies behind these, and the other blocks' bytes. Pulled up
into one block, it has `room` in front; `front` says whether that is a new one, `freed` what the old one holds then,
and `after` what lies behind the data of the block. -/
structure Packet where
  bp : List UInt8
  behind : List UInt8
  next : List UInt8
  room : ℕ
  front : Bool
  freed : List UInt8
  after : List UInt8

namespace Packet

variable (k : Packet)

def bytes : List UInt8 := k.bp ++ k.next

/-- `pullupblock(bp, blocklen(bp))` where there are other blocks. -/
def pullup : Arrival := ⟨k.bytes, k.room, !k.next.isEmpty && k.front, k.freed⟩

end Packet

/-- The second look for the unfragmentable part, where a packet is returned. -/
def again (after : List UInt8) (q : List Frag) : Option (List Piece) → Option (List Frag × Option (List Piece))
  | some (o :: l) => (unfraglen after o.bytes false).map fun r => (q, some (⟨r.2.2, o.wp⟩ :: l))
  | _ => some (q, none)

/-- `procxtns`, on the queue of the packet; `procopts` changes nothing. Without a value the headers lead out of the
first block. -/
def procxtns (k : Packet) (q : List Frag) (doreasm : Bool) : Option (List Frag × Option (List Piece)) :=
  match unfraglen k.behind k.bp false with
  | none => none
  | some (offset, proto, bp) =>
    let k := { k with bp := bp }
    if h : proto = FH ∧ doreasm = true ∧ IP6HDR ≤ offset then
      let v := Version.v6 offset h.2.2
      again k.after (v.reassemble q k.pullup).1 (v.packet q k.pullup)
    else some (q, some [⟨bp, bp.length⟩, ⟨k.next, k.next.length⟩])

/-- The fragment header behind `ufl` bytes is taken out, and what it announces is announced at `at`. -/
def removed (p : List UInt8) (q ufl : ℕ) : List UInt8 :=
  (p.set q (p.getD ufl 0)).take ufl ++ p.drop (ufl + IP6FHDR)

/-- The first block returned is the packet as it came, or the packet without its fragment header, with a new length. -/
def Intact (p : List UInt8) (q ufl : ℕ) (r : Option (List Frag × Option (List Piece))) : Prop :=
  ∃ q' o l, r = some (q', some (o :: l)) ∧
    (o.bytes = p ∨ ∀ j, j ≠ 4 → j ≠ 5 → o.bytes[j]? = (removed p q ufl)[j]?)

/-- The unfragmentable part of `p` ends where no fragment header is announced, or one that announces another. -/
def Quiet (after p : List UInt8) : Prop :=
  ∃ proto q ufl, headers p (p.getD 6 0) 6 IP6HDR = some (proto, q, ufl) ∧
    (proto = FH → (p ++ after).getD ufl 0 = FH)

/-- The fragment header behind `ufl` bytes has offset 0 and no more fragments. -/
def Atomic (p : List UInt8) (ufl : ℕ) : Prop :=
  nhgets p (ufl + 2) &&& 0xfff8 = 0 ∧ p.getD (ufl + 3) 0 &&& 1 = 0

/-- The fragment header, as it is found once the packet is pulled up, is all zero from its offset on. -/
def Packet.Plain (k : Packet) (ufl : ℕ) : Prop :=
  nhgets (if !k.next.isEmpty && k.front then k.freed else k.bytes) (ufl + 2) = 0

instance (k : Packet) (ufl : ℕ) : Decidable (k.Plain ufl) := inferInstanceAs (Decidable (_ = _))

section Walk

variable {p p' behind : List UInt8} {nexthdr proto : UInt8} {q q' ufl ufl' : ℕ}

theorem headers_congr (hlen : p.length = p'.length) (h : ∀ j, 6 ≤ j → p[j]? = p'[j]?) (hufl : 6 ≤ ufl) :
    headers p nexthdr q ufl = headers p' nexthdr q ufl := by
  induction nexthdr, q, ufl using headers.induct p with
  | case1 nexthdr q ufl hx hlt ih =>
    have hat : ∀ j, 6 ≤ j → p.getD j 0 = p'.getD j 0 := fun j hj => by
      rw [List.getD_eq_getElem?_getD, List.getD_eq_getElem?_getD, h j hj]
    rw [headers, if_pos hx, if_pos hlt, ih (by omega), headers.eq_def p' nexthdr, if_pos hx, if_pos (by omega),
      hat ufl hufl, hat (ufl + 1) (by omega)]
  | case2 nexthdr q ufl hx hge =>
    rw [headers, if_pos hx, if_neg hge, headers, if_pos hx, if_neg (by omega)]
  | case3 nexthdr q ufl hx => rw [headers, if_neg hx, headers, if_neg hx]

/-- The last header is announced in the field found. -/
theorem headers_announced (hq : q < p.length) (hat : p.getD q 0 = nexthdr)
    (h : headers p nexthdr q ufl = some (proto, q', ufl')) :
    q' < p.length ∧ p.getD q' 0 = proto ∧ (q' = q ∨ ufl ≤ q') := by
  induction nexthdr, q, ufl using headers.induct p with
  | case1 nexthdr q ufl hx hlt ih =>
    rw [headers, if_pos hx, if_pos hlt] at h
    obtain ⟨h1, h2, h3⟩ := ih (by omega) rfl h
    exact ⟨h1, h2, by omega⟩
  | case2 nexthdr q ufl hx hge =>
    rw [headers, if_pos hx, if_neg hge] at h
    cases h
  | case3 nexthdr q ufl hx =>
    rw [headers, if_neg hx] at h
    cases h
    exact ⟨hq, hat, .inl rfl⟩

theorem unfraglen_eq (h : headers p (p.getD 6 0) 6 IP6HDR = some (proto, q, ufl)) :
    unfraglen behind p false =
      some (ufl, proto, if proto = FH then p.set q ((p ++ behind).getD ufl 0) else p) := by
  rw [unfraglen, h]
  rfl

theorem set_eq_self {x : UInt8} (hq : q < p.length) : p.set q x = p ↔ x = p.getD q 0 := by
  constructor
  · intro h
    have : (p.set q x)[q]? = p[q]? := by rw [h]
    rw [List.getElem?_set_self hq] at this
    rw [List.getD_eq_getElem?_getD, ← this]
    rfl
  · rintro rfl
    refine List.ext_getElem? fun j => ?_
    by_cases hj : q = j
    · subst hj
      rw [List.getElem?_set_self hq, List.getD_eq_getElem?_getD, List.getElem?_eq_getElem hq]
      rfl
    · rw [List.getElem?_set_ne hj]

end Walk

section Forward

variable {k : Packet} {queue : List Frag} {proto : UInt8} {q ufl : ℕ}

/-- A forwarded packet. -/
theorem forward_iff (hlen : IP6HDR ≤ k.bp.length) (hchain : headers k.bp (k.bp.getD 6 0) 6 IP6HDR = some (proto, q, ufl)) :
    ((procxtns k queue false).bind (·.2)).map contents = some k.bytes ↔
      (proto = FH → (k.bp ++ k.behind).getD ufl 0 = FH) := by
  have h40 : IP6HDR = 40 := rfl
  obtain ⟨hq, hat, -⟩ := headers_announced (by omega) rfl hchain
  have hproc : ((procxtns k queue false).bind (·.2)).map contents =
      some ((if proto = FH then k.bp.set q ((k.bp ++ k.behind).getD ufl 0) else k.bp) ++ k.next) := by
    rw [procxtns, unfraglen_eq hchain]
    simp [contents]
  rw [hproc, Option.some_inj, Packet.bytes, List.append_left_inj]
  split
  · next hFH => rw [set_eq_self hq, hat, hFH, eq_self, forall_const]
  · next hFH => simp [hFH]

end Forward

section Local

variable {k : Packet} {queue : List Frag} {q ufl : ℕ} {p p' l after : List UInt8} {proto nexthdr : UInt8} {q' ufl' : ℕ}

/-- The headers are found as well where more bytes follow. -/
theorem headers_append (h : headers p nexthdr q ufl = some (proto, q', ufl')) :
    headers (p ++ l) nexthdr q ufl = some (proto, q', ufl') := by
  induction nexthdr, q, ufl using headers.induct p with
  | case1 nexthdr q ufl hx hlt ih =>
    have hat : ∀ j, j < p.length → (p ++ l).getD j 0 = p.getD j 0 := fun j hj => by
      rw [List.getD_eq_getElem?_getD, List.getD_eq_getElem?_getD, List.getElem?_append_left hj]
    rw [headers, if_pos hx, if_pos hlt] at h
    rw [headers, if_pos hx, if_pos (by rw [List.length_append]; omega), hat ufl (by omega), hat (ufl + 1) hlt]
    exact ih h
  | case2 nexthdr q ufl hx hge =>
    rw [headers, if_pos hx, if_neg hge] at h
    cases h
  | case3 nexthdr q ufl hx =>
    rw [headers, if_neg hx] at h
    rw [headers, if_neg hx]
    exact h

/-- The second look for the unfragmentable part cannot put a field right that the first one has changed. -/
theorem unfraglen_keeps {m m' : List UInt8} {u : ℕ} (hm : 6 < m.length) (hq : m.getD q 0 ≠ FH)
    (h : unfraglen after m false = some (u, proto, m')) : m'.getD q 0 = m.getD q 0 := by
  cases hheaders : headers m (m.getD 6 0) 6 IP6HDR with
  | none => rw [unfraglen, hheaders] at h; cases h
  | some r =>
    obtain ⟨proto2, q2, u2⟩ := r
    rw [unfraglen_eq hheaders] at h
    cases h
    obtain ⟨hlt, hat, -⟩ := headers_announced hm rfl hheaders
    split
    · next hFH =>
      have hne : q2 ≠ q := by
        rintro rfl
        exact hq (hat.trans hFH)
      rw [List.getD_eq_getElem?_getD, List.getElem?_set_ne hne, ← List.getD_eq_getElem?_getD]
    · rfl

theorem removed_length (h : ufl + IP6FHDR ≤ p.length) : (removed p q ufl).length = p.length - IP6FHDR := by
  rw [removed, List.length_append, List.length_take, List.length_set, List.length_drop]
  omega

/-- The block that is left once its fragment header is moved over, as the second look finds it. -/
theorem second_iff {n r : List UInt8} (hlen : n.length = r.length) (hr : 6 < r.length)
    (hagree : ∀ j, j ≠ 4 → j ≠ 5 → n[j]? = r[j]?) :
    (∃ u proto n', unfraglen after n false = some (u, proto, n') ∧ ∀ j, j ≠ 4 → j ≠ 5 → n'[j]? = r[j]?) ↔
      Quiet after r := by
  have hat : ∀ l : List UInt8, ∀ j, 6 ≤ j → (n ++ l).getD j 0 = (r ++ l).getD j 0 := fun l j hj => by
    rw [List.getD_eq_getElem?_getD, List.getD_eq_getElem?_getD, List.getElem?_append, List.getElem?_append, hlen,
      hagree j (by omega) (by omega)]
  have h6 := hat [] 6 (Nat.le_refl _)
  rw [List.append_nil, List.append_nil] at h6
  have hheaders : headers n (n.getD 6 0) 6 IP6HDR = headers r (r.getD 6 0) 6 IP6HDR := by
    rw [h6]
    exact headers_congr hlen (fun j hj => hagree j (by omega) (by omega)) (by decide)
  cases hr' : headers r (r.getD 6 0) 6 IP6HDR with
  | none =>
    rw [hr'] at hheaders
    constructor
    · rintro ⟨u, proto, n', h, -⟩
      rw [unfraglen, hheaders] at h
      cases h
    · rintro ⟨proto, q, u, h, -⟩
      rw [hr'] at h
      cases h
  | some t =>
    obtain ⟨proto, q, u⟩ := t
    obtain ⟨hq, hproto, hplace⟩ := headers_announced hr rfl hr'
    obtain ⟨hu, -, -⟩ := headers_le hr'
    have h40 : IP6HDR = 40 := rfl
    rw [hr'] at hheaders
    have hquiet : Quiet after r ↔ (proto = FH → (r ++ after).getD u 0 = FH) := by
      constructor
      · rintro ⟨proto', q', u', h, hFH⟩
        rw [hr'] at h
        cases h
        exact hFH
      · exact fun h => ⟨proto, q, u, hr', h⟩
    rw [hquiet, unfraglen_eq hheaders, hat after u (by omega)]
    constructor
    · rintro ⟨_, _, n', h, hsame⟩ hFH
      cases h
      have := hsame q (by omega) (by omega)
      rw [if_pos hFH, List.getElem?_set_self (by omega), List.getElem?_eq_getElem hq] at this
      rw [Option.some.inj this, ← hFH, ← hproto, List.getD_eq_getElem?_getD, List.getElem?_eq_getElem hq]
      rfl
    · intro h
      refine ⟨_, _, _, rfl, fun j h4 h5 => ?_⟩
      split
      · next hFH =>
        have hself : n.set q ((r ++ after).getD u 0) = n := by
          have hn := hat [] q (by omega)
          rw [List.append_nil, List.append_nil] at hn
          rw [set_eq_self (by omega), h hFH, hn, hproto, hFH]
        rw [hself]
        exact hagree j h4 h5
      · exact hagree j h4 h5

/-- The packet as the first look at it leaves it. -/
def announced (k : Packet) (q ufl : ℕ) : Packet := { k with bp := k.bp.set q ((k.bp ++ k.behind).getD ufl 0) }

theorem announced_bytes (hq : q < k.bp.length) (hufl : ufl < k.bp.length) :
    (announced k q ufl).bytes = k.bytes.set q (k.bytes.getD ufl 0) := by
  rw [announced, Packet.bytes, Packet.bytes, List.set_append_left _ _ hq, List.getD_eq_getElem?_getD,
    List.getD_eq_getElem?_getD, List.getElem?_append_left hufl, List.getElem?_append_left hufl]

theorem getD_set_ne {x : UInt8} {i j : ℕ} (h : i ≠ j) : (p.set i x).getD j 0 = p.getD j 0 := by
  rw [List.getD_eq_getElem?_getD, List.getD_eq_getElem?_getD, List.getElem?_set_ne h]

theorem whole_announced (h40 : IP6HDR ≤ ufl) (hq : q < ufl) (hfh : ufl + IP6FHDR ≤ k.bp.length) :
    (Version.v6 ufl h40).whole (announced k q ufl).pullup = decide (k.Plain ufl) := by
  have h8 : IP6FHDR = 8 := rfl
  have hsame : nhgets (k.bytes.set q (k.bytes.getD ufl 0)) (ufl + 2) = nhgets k.bytes (ufl + 2) :=
    nhgets_congr (List.getElem?_set_ne (by omega)) (List.getElem?_set_ne (by omega))
  refine decide_eq_decide.mpr ?_
  unfold Packet.Plain Packet.pullup
  simp only
  rw [announced_bytes (by omega) (by omega)]
  change nhgets (if !k.next.isEmpty && k.front then k.freed else _) _ = 0 ↔ _
  split
  · rfl
  · rw [hsame]

/-- What is returned for a packet with a fragment header. -/
theorem procxtns_fragment (hchain : headers k.bp (k.bp.getD 6 0) 6 IP6HDR = some (FH, q, ufl)) (h40 : IP6HDR ≤ ufl) :
    procxtns k queue true =
      again k.after ((Version.v6 ufl h40).reassemble queue (announced k q ufl).pullup).1
        ((Version.v6 ufl h40).packet queue (announced k q ufl).pullup) := by
  rw [procxtns, unfraglen_eq hchain]
  simp only [if_true]
  rw [dif_pos ⟨trivial, trivial, h40⟩]
  rfl

theorem intact_again {o : Piece} {ps : List Piece} {qs : List Frag} :
    Intact p q ufl (again after qs (some (o :: ps))) ↔ ∃ u proto n, unfraglen after o.bytes false = some (u, proto, n) ∧
      (n = p ∨ ∀ j, j ≠ 4 → j ≠ 5 → n[j]? = (removed p q ufl)[j]?) := by
  rw [again]
  constructor
  · rintro ⟨q', o', l', h, hsame⟩
    obtain ⟨⟨u, proto, n⟩, hun, hr⟩ := Option.map_eq_some_iff.mp h
    cases hr
    exact ⟨u, proto, n, hun, hsame⟩
  · rintro ⟨u, proto, n, hun, hsame⟩
    exact ⟨qs, ⟨n, o.wp⟩, ps, by rw [hun]; rfl, hsame⟩

theorem unfraglen_length {m m' : List UInt8} {u : ℕ} (h : unfraglen after m false = some (u, proto, m')) :
    m'.length = m.length := by
  rw [unfraglen] at h
  obtain ⟨⟨a, b, c⟩, -, hr⟩ := Option.map_eq_some_iff.mp h
  cases hr
  simp only [Bool.false_eq_true, if_false]
  split
  · rw [List.length_set]
  · rfl

/-- Blocks of different lengths are not the same. -/
theorem not_agree {n r : List UInt8} (hlt : r.length < n.length) (hr : 6 ≤ r.length) :
    ¬ ∀ j, j ≠ 4 → j ≠ 5 → n[j]? = r[j]? := by
  intro h
  have := h r.length (by omega) (by omega)
  rw [List.getElem?_eq_none (Nat.le_refl _), List.getElem?_eq_getElem hlt] at this
  cases this

/-- A fragment header that is zero from its offset on stays, and is no longer announced. -/
theorem plain_iff (hchain : headers k.bp (k.bp.getD 6 0) 6 IP6HDR = some (FH, q, ufl))
    (hfh : ufl + IP6FHDR ≤ k.bp.length) (hplain : k.Plain ufl) :
    Intact k.bytes q ufl (procxtns k queue true) ↔ k.bp.getD ufl 0 = FH := by
  have h8 : IP6FHDR = 8 := rfl
  have h40' : IP6HDR = 40 := rfl
  obtain ⟨h40, -, -⟩ := headers_le hchain
  have hq := headers_lt (by decide) hchain
  obtain ⟨-, hat, -⟩ := headers_announced (by omega) rfl hchain
  have hlen : ufl + IP6FHDR ≤ k.bytes.length := by
    rw [Packet.bytes, List.length_append]
    omega
  have hbyte : ∀ j, j < k.bp.length → k.bytes.getD j 0 = k.bp.getD j 0 := fun j hj => by
    rw [Packet.bytes, List.getD_eq_getElem?_getD, List.getD_eq_getElem?_getD, List.getElem?_append_left hj]
  have hpacket : (Version.v6 ufl h40).packet queue (announced k q ufl).pullup =
      some [⟨(announced k q ufl).bytes, (announced k q ufl).bytes.length⟩] := by
    rw [Version.packet, if_pos (by rw [whole_announced h40 hq hfh]; exact decide_eq_true hplain)]
    rfl
  rw [procxtns_fragment hchain h40, hpacket, intact_again]
  dsimp only
  rw [announced_bytes (by omega) (by omega), ← hbyte ufl (by omega)]
  constructor
  · rintro ⟨u, proto, n, hun, hsame⟩
    have hn := unfraglen_length hun
    rw [List.length_set] at hn
    have hrem := removed_length (q := q) hlen
    rcases hsame with rfl | hsame
    · by_contra hne
      have hset : (k.bytes.set q (k.bytes.getD ufl 0)).getD q 0 = k.bytes.getD ufl 0 := by
        rw [List.getD_eq_getElem?_getD, List.getElem?_set_self (by omega), Option.getD_some]
      have hkeep := unfraglen_keeps (by rw [List.length_set]; omega) (by rw [hset]; exact hne) hun
      rw [hset, hbyte q (by omega), hat] at hkeep
      exact hne hkeep.symm
    · exact absurd hsame (not_agree (by omega) (by omega))
  · intro hFH
    have hsame : k.bytes.set q (k.bytes.getD ufl 0) = k.bytes := by
      rw [set_eq_self (by omega), hFH, hbyte q (by omega), hat]
    have hbytes : headers k.bytes (k.bytes.getD 6 0) 6 IP6HDR = some (FH, q, ufl) := by
      rw [hbyte 6 (by omega)]
      exact headers_append hchain
    have hnext : (k.bytes ++ k.after).getD ufl 0 = FH := by
      rw [List.getD_eq_getElem?_getD, List.getElem?_append_left (by omega), ← List.getD_eq_getElem?_getD, hFH]
    rw [hsame]
    refine ⟨_, _, _, unfraglen_eq hbytes, .inl ?_⟩
    rw [if_pos rfl, set_eq_self (by omega), hnext, hbyte q (by omega), hat]

/-- A block at offset 0 comes first, and with the last of the data it completes the packet. -/
theorem packet_first {v : Version} {b : Arrival} (hwhole : v.whole b = false) (hne : queue ≠ [])
    (hfoff : v.foff b.bytes = 0) (hmore : v.more b.bytes = false) :
    ∃ rest, v.packet queue b = some (v.pieces (v.tofrag b) rest) := by
  have hbefore : queue.takeWhile (·.foff < (v.tofrag b).foff) = [] := by
    have : (v.tofrag b).foff = 0 := hfoff
    rw [this]
    cases queue with
    | nil => rfl
    | cons c l => rw [List.takeWhile_cons_of_neg (by simp)]
  have hcomplete : ∀ l, v.complete 0 (v.tofrag b :: l) = true := fun l => by
    have h0 : (v.tofrag b).foff = 0 := hfoff
    have h1 : v.more (v.tofrag b).bytes = false := hmore
    rw [Version.complete, if_neg (by rw [h0]; exact fun h => h rfl), if_pos h1]
  refine ⟨v.cover ((v.tofrag b).foff + (v.tofrag b).flen) (queue.dropWhile (·.foff < (v.tofrag b).foff)), ?_⟩
  rw [Version.packet, if_neg (by rw [hwhole]; decide), if_neg hne, Version.enqueue, hbefore]
  simp only [List.getLast?_nil]
  rw [if_pos (hcomplete _)]

/-- One with reserved bits waits for a queue; then it is taken out. -/
theorem reserved_iff (hchain : headers k.bp (k.bp.getD 6 0) 6 IP6HDR = some (FH, q, ufl))
    (hfh : ufl + IP6FHDR ≤ k.bp.length) (hatomic : Atomic k.bytes ufl) (hplain : ¬ k.Plain ufl) :
    Intact k.bytes q ufl (procxtns k queue true) ↔ queue ≠ [] ∧ Quiet k.after (removed k.bytes q ufl) := by
  have h8 : IP6FHDR = 8 := rfl
  have h40' : IP6HDR = 40 := rfl
  obtain ⟨h40, -, -⟩ := headers_le hchain
  have hq := headers_lt (by decide) hchain
  have hlen : ufl + IP6FHDR ≤ k.bytes.length := by
    rw [Packet.bytes, List.length_append]
    omega
  have hrem := removed_length (q := q) hlen
  have hwhole : (Version.v6 ufl h40).whole (announced k q ufl).pullup = false := by
    rw [whole_announced h40 hq hfh]
    exact decide_eq_false hplain
  have hbytes : (announced k q ufl).pullup.bytes = k.bytes.set q (k.bytes.getD ufl 0) :=
    announced_bytes (by omega) (by omega)
  rw [procxtns_fragment hchain h40]
  by_cases hne : queue = []
  · have hnone : (Version.v6 ufl h40).packet queue (announced k q ufl).pullup = none := by
      rw [Version.packet, if_neg (by rw [hwhole]; decide), if_pos hne]
    rw [hnone]
    change Intact _ _ _ (some (_, none)) ↔ _
    constructor
    · rintro ⟨_, _, _, h, -⟩
      cases h
    · exact fun h => absurd hne h.1
  · have hfoff : (Version.v6 ufl h40).foff (announced k q ufl).pullup.bytes = 0 := by
      rw [hbytes, Version.foff, ← hatomic.1]
      exact congrArg (· &&& 0xfff8) (nhgets_congr (List.getElem?_set_ne (by omega)) (List.getElem?_set_ne (by omega)))
    have hmore : (Version.v6 ufl h40).more (announced k q ufl).pullup.bytes = false := by
      rw [hbytes, Version.more]
      rw [getD_set_ne (by omega), hatomic.2]
      rfl
    obtain ⟨rest, hpacket⟩ := packet_first hwhole hne hfoff hmore
    have hfirst : (announced k q ufl).pullup.bytes.take ufl ++
        (announced k q ufl).pullup.bytes.drop (ufl + IP6FHDR) = removed k.bytes q ufl := by
      rw [hbytes, removed, List.drop_set_of_lt (by omega)]
    rw [hpacket, Version.pieces, intact_again]
    dsimp only
    change (∃ u proto n, unfraglen k.after (hnputs ((announced k q ufl).pullup.bytes.take ufl ++
        (announced k q ufl).pullup.bytes.drop (ufl + IP6FHDR)) 4 _) false = some (u, proto, n) ∧ _) ↔ _
    rw [hfirst]
    generalize hz : ((Version.v6 ufl h40).firstlen ((Version.v6 ufl h40).tofrag (announced k q ufl).pullup) -
      (Version.v6 ufl h40).less + (rest.map Frag.flen).sum : ℤ) = z
    have hsecond := @second_iff k.after (hnputs (removed k.bytes q ufl) 4 z) (removed k.bytes q ufl)
      (hnputs_length _ _ _) (by omega) fun j h4 h5 => hnputs_getElem? z h4 h5
    rw [← hsecond]
    constructor
    · rintro ⟨u, proto, n, hun, hsame⟩
      have hn := unfraglen_length hun
      rw [hnputs_length] at hn
      rcases hsame with rfl | hsame
      · omega
      · exact ⟨hne, u, proto, n, hun, hsame⟩
    · rintro ⟨-, u, proto, n, hun, hsame⟩
      exact ⟨u, proto, n, hun, .inr hsame⟩

end Local

/-- A forwarded packet is unchanged unless it announces a fragment header, which then announces something else. A
packet with a fragment header of offset 0 and no more fragments is returned with headers that match its bytes if the
header announces another fragment header; with reserved bits, if it meets a queue and no other fragment header is
announced behind it. -/
theorem procxtns_iff (k : Packet) (queue : List Frag) (proto : UInt8) (q ufl : ℕ) (hlen : IP6HDR ≤ k.bp.length)
    (hchain : headers k.bp (k.bp.getD 6 0) 6 IP6HDR = some (proto, q, ufl)) :
    (((procxtns k queue false).bind (·.2)).map contents = some k.bytes ↔
      (proto = FH → (k.bp ++ k.behind).getD ufl 0 = FH)) ∧
    (proto = FH → ufl + IP6FHDR ≤ k.bp.length → Atomic k.bytes ufl →
      (Intact k.bytes q ufl (procxtns k queue true) ↔
        if k.Plain ufl then k.bp.getD ufl 0 = FH else queue ≠ [] ∧ Quiet k.after (removed k.bytes q ufl))) := by
  refine ⟨forward_iff hlen hchain, ?_⟩
  rintro rfl hfh hatomic
  split
  · next hplain => exact plain_iff hchain hfh hplain
  · next hplain => exact reserved_iff hchain hfh hatomic hplain

/-- A datagram of eight bytes with a fragment header that is not needed. -/
def atomic : Packet where
  bp := [0x60, 0, 0, 0, 0, 16, 44, 9] ++ List.replicate 32 1 ++ [17, 0, 0, 0, 0, 0, 0, 7] ++ List.replicate 8 3
  behind := []
  next := []
  room := 64
  front := false
  freed := []
  after := []

theorem headers_atomic : headers atomic.bp (atomic.bp.getD 6 0) 6 IP6HDR = some (FH, 6, IP6HDR) := by
  have h6 : atomic.bp.getD 6 0 = FH := rfl
  rw [h6, headers, if_neg (by decide)]

theorem atomic_changed : ((procxtns atomic [] false).bind (·.2)).map contents ≠ some atomic.bytes ∧
    ¬ Intact atomic.bytes 6 IP6HDR (procxtns atomic [] true) := by
  rw [ne_eq, forward_iff (by decide) headers_atomic, plain_iff headers_atomic (by decide) (by decide)]
  exact ⟨fun h => absurd (h rfl) (by decide), by decide⟩

theorem procxtns_iff_atomic :
    (((procxtns atomic [] false).bind (·.2)).map contents = some atomic.bytes ↔
      (FH = FH → (atomic.bp ++ atomic.behind).getD IP6HDR 0 = FH)) ∧
    (Intact atomic.bytes 6 IP6HDR (procxtns atomic [] true) ↔
      if atomic.Plain IP6HDR then atomic.bp.getD IP6HDR 0 = FH
      else ([] : List Frag) ≠ [] ∧ Quiet atomic.after (removed atomic.bytes 6 IP6HDR)) :=
  have h := procxtns_iff atomic [] FH 6 IP6HDR (by decide) headers_atomic
  ⟨h.1, h.2 rfl (by decide) (by unfold Atomic; decide)⟩

end Petele.Ip.Fragment
