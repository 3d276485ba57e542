import Petele.Ip.Fragment

namespace Petele.Ip

open Fragment (hdrlen ipcsum)

/-! What a complete packet is made of, block by block. -/

/-- A block of a packet: the bytes received from `rp` on, and `wp - rp`. -/
structure Piece where
  bytes : List UInt8
  wp : ℕ

namespace Version

variable (v : Version)

/-- The queue with a new block; a block inside one that is held is dropped. -/
def enqueue (q : List Frag) (bp : Frag) : Option (List Frag) :=
  let before := q.takeWhile (·.foff < bp.foff)
  let behind := v.cover (bp.foff + bp.flen) (q.dropWhile (·.foff < bp.foff))
  match before.getLast? with
  | none => some (bp :: behind)
  | some prev =>
    let ovlap : ℤ := prev.foff + prev.flen - bp.foff
    if ovlap > 0 then
      if ovlap ≥ bp.flen then none
      else some (before.dropLast ++ { prev with flen := ushort (prev.flen - ovlap) } :: bp :: behind)
    else some (before ++ bp :: behind)

/-- `len` of the first block. -/
def firstlen (first : Frag) : ℕ := nhgets first.bytes v.lengthat + v.less - v.skipped

/-- `bl->wp = bl->rp + len`, then `bl->wp = bl->rp + fragsize` for the others. -/
def pieces (first : Frag) (l : List Frag) : List Piece :=
  ⟨hnputs (first.bytes.take v.moved ++ first.bytes.drop (v.moved + v.skipped)) v.lengthat
    (v.firstlen first - v.less + (l.map Frag.flen).sum : ℤ), v.firstlen first⟩ ::
    l.map fun c => ⟨c.bytes.drop (v.moved + v.skipped), c.flen⟩

/-- The blocks of the packet that a fragment completes. -/
def packet (q : List Frag) (b : Arrival) : Option (List Piece) :=
  if v.whole b then some [⟨b.bytes, b.bytes.length⟩]
  else if q = [] then none
  else match v.enqueue q (v.tofrag b) with
    | some (first :: l) => if v.complete 0 (first :: l) then some (v.pieces first l) else none
    | _ => none

end Version

/-- `blocklen`. -/
def blocklen (l : List Piece) : ℕ := (l.map Piece.wp).sum

def contents (l : List Piece) : List UInt8 := l.flatMap fun o => o.bytes.take o.wp

/-- No `wp` is beyond what was received, and the length field is the length. -/
structure Exact (v : Version) (l : List Piece) : Prop where
  within : ∀ o ∈ l, o.wp ≤ o.bytes.length
  length : nhgets (contents l) v.lengthat + v.less = blocklen l

/-- What a header claims to be the length of its packet. -/
def claimed (v : Version) (p : List UInt8) : ℕ := nhgets p v.lengthat + v.less

/-- What must be true of a fragment: it is no shorter than it claims to be, and no longer if it is the whole packet, its
header is within the claim, and the sum of the lengths of a packet completed has a value in the field. -/
structure Honest (v : Version) (q : List Frag) (b : Arrival) : Prop where
  sound : b.Sound
  header : v.moved + v.skipped ≤ claimed v b.bytes
  present : claimed v b.bytes ≤ b.bytes.length
  whole : v.whole b = true → claimed v b.bytes = b.bytes.length
  total : ∀ first l, v.enqueue q (v.tofrag b) = some (first :: l) → v.complete 0 (first :: l) = true →
    v.firstlen first + (l.map Frag.flen).sum < 2 ^ 16 + v.less

/-- The queues that such fragments lead to; at any time one may be freed. -/
inductive Received (v : Version) : List Frag → Prop
  | start : Received v []
  | fragment {q b} : Received v q → Honest v q b → Received v (v.reassemble q b).1
  | expire {q} : Received v q → Received v []

section Lengths

variable {v : Version} {q l : List Frag} {b : Arrival} {bp c first : Frag}

/-- The two functions put the new block into the queue and look whether the packet is complete. -/
theorem reassemble_eq (hwhole : v.whole b = false) (hq : q ≠ []) :
    v.reassemble q b = match v.enqueue q (v.tofrag b) with
      | none => (q, none)
      | some q => v.finish q := by
  rw [Version.reassemble, if_neg (by rw [hwhole]; decide), if_neg hq, Version.enqueue]
  simp only
  cases (q.takeWhile (·.foff < (v.tofrag b).foff)).getLast? with
  | none => rfl
  | some prev =>
    simp only
    split
    · split <;> rfl
    · rfl

theorem firstlen_eq (v : Version) (first : Frag) :
    (v.firstlen first : ℤ) = nhgets first.bytes v.lengthat - v.skipped + v.less := by
  have : v.skipped ≤ v.less := by
    cases v with
    | v4 => exact Nat.le_refl 0
    | v6 uflen h => exact (show IP6FHDR ≤ IP6HDR by decide)
  rw [Version.firstlen]
  omega

theorem nhgets_moved (p : List UInt8) {i k n : ℕ} (h : i + 1 < k) :
    nhgets (p.take k ++ p.drop (k + n)) i = nhgets p i := by
  by_cases hk : k ≤ p.length
  · exact nhgets_take _ _ h hk
  · rw [List.take_of_length_le (by omega), List.drop_eq_nil_of_le (by omega), List.append_nil]

theorem take_hnputs (p : List UInt8) (i n : ℕ) (z : ℤ) : (hnputs p i z).take n = hnputs (p.take n) i z := by
  rw [hnputs, List.take_set, List.take_set, hnputs]

theorem contents_pieces (v : Version) (first : Frag) (l : List Frag) :
    contents (v.pieces first l) = v.gather first l := by
  have hlen := firstlen_eq v first
  rw [contents, Version.pieces, List.flatMap_cons, List.flatMap_map, Version.gather]
  simp only
  rw [nhgets_moved _ (lengthat_lt v), take_hnputs, ← hlen, Int.toNat_natCast, hlen, add_sub_cancel_right]

/-- The blocks have the bytes of the packet that is returned. -/
theorem reassemble_packet (v : Version) (q : List Frag) (b : Arrival) :
    (v.reassemble q b).2 = (v.packet q b).map contents := by
  cases hwhole : v.whole b with
  | true =>
    rw [reassemble_whole hwhole, Version.packet, if_pos hwhole]
    simp [contents]
  | false =>
    by_cases hq : q = []
    · rw [hq, reassemble_first hwhole, Version.packet, if_neg (by rw [hwhole]; decide), if_pos rfl]
      rfl
    · rw [reassemble_eq hwhole hq, Version.packet, if_neg (by rw [hwhole]; decide), if_neg hq]
      match v.enqueue q (v.tofrag b) with
      | none => rfl
      | some [] => rfl
      | some (first :: l) =>
        simp only [Version.finish]
        split
        · rw [Option.map_some, contents_pieces]
        · rfl

/-- The blocks of a queue have the bytes that they count on. -/
structure Backed (v : Version) (q : List Frag) : Prop where
  data : ∀ c ∈ q, v.moved + v.skipped + c.flen ≤ c.bytes.length
  first : ∀ c ∈ q.head?, v.moved + v.skipped ≤ claimed v c.bytes ∧ claimed v c.bytes ≤ c.bytes.length

theorem tofrag_backed (h : Honest v q b) :
    v.moved + v.skipped + (v.tofrag b).flen = claimed v b.bytes ∧ (v.tofrag b).bytes = b.bytes := by
  have hheader := h.header
  have hroom := h.sound.1
  have hlt : nhgets b.bytes v.lengthat < 2 ^ 16 := by
    have := (b.bytes.getD v.lengthat 0).toNat_lt
    have := (b.bytes.getD (v.lengthat + 1) 0).toNat_lt
    rw [nhgets]
    omega
  have hmoved : v.less ≤ v.moved + v.skipped := by
    cases v with
    | v4 => exact Nat.zero_le _
    | v6 uflen huf => exact huf.trans (Nat.le_add_right _ _)
  rw [claimed] at hheader ⊢
  refine ⟨?_, rfl⟩
  rw [Version.tofrag, if_neg (by omega), ushort]
  dsimp only
  omega

theorem cover_backed (fend : ℕ) {q : List Frag} (h : ∀ c ∈ q, v.moved + v.skipped + c.flen ≤ c.bytes.length) :
    ∀ c ∈ v.cover fend q, v.moved + v.skipped + c.flen ≤ c.bytes.length := by
  induction q with
  | nil => exact h
  | cons c l ih =>
    have hc := h c List.mem_cons_self
    have hl := fun x hx => h x (List.mem_cons_of_mem c hx)
    rw [Version.cover]
    split
    · exact h
    · split
      · intro x hx
        rcases List.mem_cons.mp hx with rfl | hx
        · simp only [Version.trimfront, List.length_append, List.length_take, List.length_drop]
          omega
        · exact hl x hx
      · exact ih hl

theorem cut_backed {k : ℤ} (hk : 0 ≤ k) (hc : v.moved + v.skipped + c.flen ≤ c.bytes.length) (hle : k ≤ c.flen) :
    v.moved + v.skipped + ushort k ≤ c.bytes.length := by
  have : ushort k ≤ k := by
    rw [ushort]
    omega
  omega

theorem enqueue_backed (h : Backed v q) (hbp : v.moved + v.skipped + bp.flen ≤ bp.bytes.length)
    (hfirst : v.moved + v.skipped ≤ claimed v bp.bytes ∧ claimed v bp.bytes ≤ bp.bytes.length)
    {q' : List Frag} (hq' : v.enqueue q bp = some q') : Backed v q' := by
  rw [Version.enqueue] at hq'
  generalize hbefore : q.takeWhile (·.foff < bp.foff) = before at hq'
  have hparts : before ++ q.dropWhile (·.foff < bp.foff) = q := by
    rw [← hbefore]
    exact List.takeWhile_append_dropWhile
  have hbehind := cover_backed (bp.foff + bp.flen) fun c hc =>
    h.data c ((List.dropWhile_sublist fun c => decide (c.foff < bp.foff)).subset hc)
  generalize v.cover (bp.foff + bp.flen) (q.dropWhile (·.foff < bp.foff)) = behind at hq' hbehind
  have htail : ∀ c ∈ bp :: behind, v.moved + v.skipped + c.flen ≤ c.bytes.length := by
    intro c hc
    rcases List.mem_cons.mp hc with rfl | hc
    · exact hbp
    · exact hbehind c hc
  rcases List.eq_nil_or_concat before with rfl | ⟨init, prev, rfl⟩
  · obtain rfl := Option.some.inj hq'
    exact ⟨htail, fun c hc => by obtain rfl := Option.some.inj hc; exact hfirst⟩
  · have hinit : ∀ c ∈ init, v.moved + v.skipped + c.flen ≤ c.bytes.length := fun c hc =>
      h.data c (by rw [← hparts]; simp [hc])
    have hprev := h.data prev (by rw [← hparts]; simp)
    have hhead : ∀ x, x.bytes = prev.bytes → ∀ c ∈ (init ++ x :: bp :: behind).head?,
        v.moved + v.skipped ≤ claimed v c.bytes ∧ claimed v c.bytes ≤ c.bytes.length := by
      intro x hx c hc
      cases init with
      | nil =>
        obtain rfl := Option.some.inj hc
        rw [hx]
        exact h.first prev (by rw [← hparts]; rfl)
      | cons y init =>
        obtain rfl := Option.some.inj hc
        exact h.first y (by rw [← hparts]; rfl)
    simp only [List.concat_eq_append, List.getLast?_concat, List.dropLast_concat] at hq'
    split at hq'
    · next hovlap =>
      split at hq'
      · cases hq'
      · obtain rfl := Option.some.inj hq'
        refine ⟨fun c hc => ?_, hhead _ rfl⟩
        rcases List.mem_append.mp hc with hc | hc
        · exact hinit c hc
        · rcases List.mem_cons.mp hc with rfl | hc
          · have hfoff : (prev.foff : ℤ) < bp.foff := by
              have hmem : prev ∈ q.takeWhile (·.foff < bp.foff) := by rw [hbefore]; simp
              have := List.mem_takeWhile_imp hmem
              simpa using this
            exact cut_backed (k := prev.flen - (prev.foff + prev.flen - bp.foff)) (c := prev) (by omega) hprev (by omega)
          · exact htail c hc
    · obtain rfl := Option.some.inj hq'
      rw [List.append_assoc]
      refine ⟨fun c hc => ?_, hhead prev rfl⟩
      rcases List.mem_append.mp hc with hc | hc
      · exact hinit c hc
      · rcases List.mem_cons.mp hc with rfl | hc
        · exact hprev
        · exact htail c hc

theorem backed_nil : Backed v [] := ⟨fun _ hc => absurd hc List.not_mem_nil, fun _ hc => nomatch hc⟩

theorem Honest.tofrag (h : Honest v q b) :
    v.moved + v.skipped + (v.tofrag b).flen ≤ (v.tofrag b).bytes.length ∧
      v.moved + v.skipped ≤ claimed v (v.tofrag b).bytes ∧ claimed v (v.tofrag b).bytes ≤ (v.tofrag b).bytes.length := by
  obtain ⟨hflen, hbytes⟩ := tofrag_backed h
  rw [hbytes, hflen]
  exact ⟨h.present, h.header, h.present⟩

theorem reassemble_backed (hq : Backed v q) (h : Honest v q b) : Backed v (v.reassemble q b).1 := by
  cases hwhole : v.whole b with
  | true =>
    rw [reassemble_whole hwhole]
    exact backed_nil
  | false =>
    by_cases hne : q = []
    · rw [hne, reassemble_first hwhole]
      refine ⟨fun c hc => ?_, fun c hc => ?_⟩
      · obtain rfl := List.mem_singleton.mp hc
        exact h.tofrag.1
      · obtain rfl := Option.some.inj hc
        exact h.tofrag.2
    · rw [reassemble_eq hwhole hne]
      cases henq : v.enqueue q (v.tofrag b) with
      | none => exact hq
      | some q' =>
        have := enqueue_backed hq h.tofrag.1 h.tofrag.2 henq
        cases q' with
        | nil => exact this
        | cons first l =>
          simp only [Version.finish]
          split
          · exact backed_nil
          · exact this

theorem Received.backed (h : Received v q) : Backed v q := by
  induction h with
  | start => exact backed_nil
  | fragment _ hb ih => exact reassemble_backed ih hb
  | expire _ _ => exact backed_nil

/-- The lengths of a packet completed, from the bytes that its blocks have. -/
theorem pieces_exact (h : Backed v (first :: l)) (htotal : v.firstlen first + (l.map Frag.flen).sum < 2 ^ 16 + v.less) :
    Exact v (v.pieces first l) := by
  obtain ⟨hheader, hpresent⟩ := h.first first rfl
  have hdata := h.data first List.mem_cons_self
  have hlength : (first.bytes.take v.moved ++ first.bytes.drop (v.moved + v.skipped)).length =
      first.bytes.length - v.skipped := by
    rw [List.length_append, List.length_take, List.length_drop]
    omega
  have hfirst : v.firstlen first = claimed v first.bytes - v.skipped := rfl
  have hfield := lengthat_lt v
  refine ⟨fun o ho => ?_, ?_⟩
  · rw [Version.pieces] at ho
    rcases List.mem_cons.mp ho with rfl | ho
    · dsimp only
      rw [hnputs_length, hlength]
      omega
    · obtain ⟨c, hc, rfl⟩ := List.mem_map.mp ho
      have := h.data c (List.mem_cons_of_mem _ hc)
      dsimp only
      rw [List.length_drop]
      omega
  · rw [contents, Version.pieces, List.flatMap_cons]
    dsimp only
    rw [nhgets_take _ _ (by omega) (by rw [hnputs_length, hlength]; omega), Fragment.nhgets_hnputs_self _ (by rw [hlength]; omega),
      blocklen, List.map_cons, List.map_map, List.sum_cons, ushort]
    have hsum : (Piece.wp ∘ fun c : Frag => (⟨c.bytes.drop (v.moved + v.skipped), c.flen⟩ : Piece)) = Frag.flen := rfl
    have hless : v.less ≤ v.moved := by
      cases v with
      | v4 => exact Nat.zero_le _
      | v6 uflen huf => exact huf
    rw [hsum]
    dsimp only
    omega

/-- In a run of such fragments, of any number and in any order, every packet returned is exact. -/
theorem received_exact (v : Version) (q : List Frag) (b : Arrival) (l : List Piece) (hq : Received v q)
    (hb : Honest v q b) (hl : v.packet q b = some l) :
    (v.reassemble q b).2 = some (contents l) ∧ Exact v l := by
  refine ⟨by rw [reassemble_packet, hl, Option.map_some], ?_⟩
  rw [Version.packet] at hl
  split at hl
  · next hwhole =>
    obtain rfl := Option.some.inj hl
    have hlen := hb.whole hwhole
    rw [claimed] at hlen
    refine ⟨fun o ho => ?_, ?_⟩
    · obtain rfl := List.mem_singleton.mp ho
      exact Nat.le_refl _
    · simp only [contents, List.flatMap_cons, List.flatMap_nil, List.append_nil, List.take_length, blocklen,
        List.map_cons, List.map_nil, List.sum_cons, List.sum_nil, Nat.add_zero]
      exact hlen
  · split at hl
    · cases hl
    · split at hl
      · next first l' henq =>
        split at hl
        · next hcomplete =>
          obtain rfl := Option.some.inj hl
          exact pieces_exact (enqueue_backed hq.backed hb.tofrag.1 hb.tofrag.2 henq) (hb.total first l' henq hcomplete)
        · cases hl
      · cases hl

end Lengths

/-! The packets of version 4 come from `ipiput4`. -/

/-- The second fragment claims 200 bytes and has 28. -/
theorem hostile_not_exact : ∃ l,
    Version.v4.packet (Version.v4.reassemble [] (fragment 28 0x20 0 (datagram.take 8))).1
      (fragment 200 0 1 (datagram.take 8)) = some l ∧ ¬ Exact .v4 l := by
  refine ⟨_, rfl, fun h => ?_⟩
  exact absurd (h.within _ (List.mem_cons_of_mem _ List.mem_cons_self)) (by decide)

theorem honest_first : Honest .v4 [] (fragment 28 0x20 0 (datagram.take 8)) where
  sound := by decide
  header := by decide
  present := by decide
  whole := by decide
  total := fun first l h _ => by
    obtain ⟨rfl, rfl⟩ : _ = first ∧ _ = l := List.cons.inj (Option.some.inj h)
    decide

theorem honest_second : Honest .v4 (Version.v4.reassemble [] (fragment 28 0x20 0 (datagram.take 8))).1
    (fragment 36 0 1 (datagram.drop 8)) where
  sound := by decide
  header := by decide
  present := by decide
  whole := by decide
  total := fun first l h _ => by
    obtain ⟨rfl, rfl⟩ : _ = first ∧ _ = l := List.cons.inj (Option.some.inj h)
    decide

theorem received_exact_two : ∃ q l, Version.v4.packet q (fragment 36 0 1 (datagram.drop 8)) = some l ∧
    (Version.v4.reassemble q (fragment 36 0 1 (datagram.drop 8))).2 = some (contents l) ∧ Exact .v4 l :=
  ⟨_, _, rfl, received_exact .v4 _ _ _ (.fragment .start honest_first) honest_second rfl⟩

end Petele.Ip
