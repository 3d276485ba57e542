import Petele.Ip.Reassemble

namespace Petele.Ip.Fragment

def IP_MAX : ℕ := 64 * 1024

def IP_DF : ℕ := 0x4000

def IP_MF : ℕ := 0x2000

def IP_VER4 : UInt8 := 0x40

def IP_HLEN4 : UInt8 := 5

def IP_VER6 : UInt8 := 0x60

/-- The interface that the route leads to; `free` if it can be locked, `bound` if it has a medium. -/
structure Ifc where
  maxtu : ℤ
  hsize : ℤ
  free : Bool
  bound : Bool
  reassemble : Bool

/-- The arguments of `ipoput4` and `ipoput6`, with what they find: the route's interface, `maxfragsize`
of the conversation (0 without one), the next identifier. `bp` is the first block, `next` are those behind. -/
structure Output where
  route : Option Ifc
  bp : List UInt8
  next : List (List UInt8)
  gating : Bool
  ttl : UInt8
  tos : UInt8
  maxfragsize : ℤ
  id : ℕ

/-- What is given to `bwrite`; an assertion can fail instead. -/
inductive Written
  | nothing
  | panic
  | packet (p : List UInt8)
  | fragments (l : List (List UInt8))

def Written.frags : Written → List (List UInt8)
  | fragments l => l
  | _ => []

/-- `while(len > 0)`, two bytes a turn. -/
def csumloop : ℕ → List UInt8 → ℕ → ℕ
  | 0, _, sum => sum
  | k + 1, addr, sum => csumloop k (addr.drop 2) (sum + ((addr.getD 0 0).toNat <<< 8 ||| (addr.getD 1 0).toNat))

def ipcsum (addr : List UInt8) : ℕ :=
  let sum := csumloop ((addr.getD 0 0 &&& 0xf).toNat * 2) addr 0
  let sum := (sum &&& 0xffff) + sum >>> 16
  let sum := (sum &&& 0xffff) + sum >>> 16
  ushort (sum ^^^ 0xffff : ℕ)

/-- The bytes in front of `offset` are left out. -/
def skip : ℕ → List (List UInt8) → List (List UInt8)
  | _, [] => []
  | offset, xp :: l => if offset ≠ 0 ∧ xp.length ≤ offset then skip (offset - xp.length) l else xp.drop offset :: l

/-- `while(chunk)`, with what is left of the chain; without a block left it is given up. -/
def copyup : ℕ → List (List UInt8) → Option (List UInt8 × List (List UInt8))
  | 0, xp => some ([], xp)
  | _ + 1, [] => none
  | chunk + 1, xp :: l =>
    if chunk + 1 < xp.length then some (xp.take (chunk + 1), xp.drop (chunk + 1) :: l)
    else (copyup (chunk + 1 - xp.length) l).map fun r => (xp ++ r.1, r.2)

/-- The loop over the fragments, each as its `fragoff` and `seglen` and whether it is the last one, and its data. -/
def segments (seglen : ℕ) (hseg : 8 ≤ seglen) (fragoff dlen : ℕ) (xp : List (List UInt8)) :
    List (ℕ × ℕ × Bool × List UInt8) :=
  if fragoff < dlen then
    let last : Bool := dlen ≤ fragoff + seglen
    let size := if last then dlen - fragoff else seglen
    match copyup size xp with
    | none => []
    | some (data, xp) => (fragoff, size, last, data) :: segments seglen hseg (fragoff + size) dlen xp
  else []
termination_by dlen - fragoff
decreasing_by split <;> omega

section V4

/-- A fragment; `junk` is what lies behind it in its block. -/
def fragment4 (eh junk : List UInt8) (lid : ℕ) (s : ℕ × ℕ × Bool × List UInt8) : List UInt8 :=
  let (fragoff, seglen, last, data) := s
  let feh := eh.take IP4HDR
  let feh := hnputs feh 6 (if last then fragoff >>> 3 else fragoff >>> 3 ||| IP_MF : ℕ)
  let feh := hnputs feh 2 (seglen + IP4HDR : ℕ)
  let feh := hnputs feh 4 lid
  let nb := ((feh ++ data).set 10 0).set 11 0
  hnputs nb 10 (ipcsum (nb ++ junk))

/-- `medialen`. -/
def medialen4 (o : Output) (ifc : Ifc) : ℤ :=
  if o.maxfragsize ≠ 0 ∧ o.maxfragsize < ifc.maxtu then o.maxfragsize - ifc.hsize else ifc.maxtu - ifc.hsize

/-- The header filled out. -/
def header4 (o : Output) : List UInt8 :=
  let eh := if o.gating then o.bp else o.bp.set 0 (IP_VER4 ||| IP_HLEN4)
  let eh := eh.set 8 o.ttl
  if o.gating then eh else eh.set 1 o.tos

def blocklen (o : Output) : ℕ := o.bp.length + o.next.flatten.length

/-- `len`, without a value where a gated packet is short. -/
def len4 (o : Output) : Option ℕ :=
  let len := blocklen o
  if o.gating then
    let chunk := nhgets o.bp 2
    if chunk > len then none else some (if chunk < len then chunk else len)
  else some len

def seglen4 (o : Output) (ifc : Ifc) : ℤ := (medialen4 o ifc - IP4HDR) / 8 * 8

def ipoput4 (junk : List UInt8) (o : Output) : Written × ℤ :=
  match len4 o with
  | none => (.nothing, 0)
  | some len =>
    if len ≥ IP_MAX then (.nothing, 0)
    else match o.route with
      | none => (.nothing, -1)
      | some ifc =>
        let eh := header4 o
        if !ifc.free then (.nothing, 0)
        else if !ifc.bound then (.nothing, 0)
        else if len ≤ medialen4 o ifc then
          let eh := if o.gating then eh else hnputs eh 4 o.id
          let eh := hnputs eh 2 len
          let eh := if o.gating then eh else (eh.set 6 0).set 7 0
          let eh := (eh.set 10 0).set 11 0
          if o.next ≠ [] then (.panic, 0) else (.packet (hnputs eh 10 (ipcsum eh)), 0)
        else if eh.getD 6 0 &&& 0x40 ≠ 0 then (.nothing, 0)
        else if h : seglen4 o ifc < 8 then (.nothing, 0)
        else
          let lid := if o.gating then nhgets eh 4 else o.id
          let fragoff := if o.gating then nhgets eh 6 <<< 3 else 0
          let dlen := len - IP4HDR + fragoff
          (.fragments ((segments (seglen4 o ifc).toNat (by omega) fragoff dlen (skip IP4HDR (eh :: o.next))).map
            (fragment4 eh junk lid)), 0)

end V4

section V6

def HBH : UInt8 := 0

def RH : UInt8 := 43

def FH : UInt8 := 44

/-- The loop of `unfraglen` from the header at `ufl` on, with the field that announces it at `q`; the results
are `*nexthdr`, `q` and `ufl`. It is not followed out of the block. -/
def headers (p : List UInt8) (nexthdr : UInt8) (q ufl : ℕ) : Option (UInt8 × ℕ × ℕ) :=
  if nexthdr = HBH ∨ nexthdr = RH then
    if ufl + 1 < p.length then headers p (p.getD ufl 0) ufl (ufl + ((p.getD (ufl + 1) 0).toNat + 1) * 8) else none
  else some (nexthdr, q, ufl)
termination_by p.length - ufl

/-- `unfraglen`, with the block as it leaves it; `behind` is what lies behind the data of the block. -/
def unfraglen (behind p : List UInt8) (setfh : Bool) : Option (ℕ × UInt8 × List UInt8) :=
  (headers p (p.getD 6 0) 6 IP6HDR).map fun (nexthdr, q, ufl) =>
    let p := if nexthdr = FH then p.set q ((p ++ behind).getD ufl 0) else p
    (ufl, nexthdr, if setfh then p.set q FH else p)

def hnputl (z : ℕ) : List UInt8 :=
  [UInt8.ofNat (z >>> 24), UInt8.ofNat (z >>> 16), UInt8.ofNat (z >>> 8), UInt8.ofNat z]

def fragment6 (eh : List UInt8) (uflen : ℕ) (nexthdr : UInt8) (lid : ℕ) (s : ℕ × ℕ × Bool × List UInt8) :
    List UInt8 :=
  let (fragoff, seglen, last, data) := s
  let eh := hnputs eh 4 (seglen + IP6FHDR : ℕ)
  let offsetRM := hnputs [0, 0] 0 fragoff
  let offsetRM := if last then offsetRM else offsetRM.set 1 (offsetRM.getD 1 0 ||| 1)
  eh.take uflen ++ (nexthdr :: 0 :: offsetRM ++ hnputl lid) ++ data

def medialen6 (ifc : Ifc) : ℤ := ifc.maxtu - ifc.hsize

def header6 (o : Output) : List UInt8 :=
  let eh := if o.gating then o.bp else o.bp.set 0 IP_VER6
  let eh := eh.set 7 o.ttl
  if o.gating then eh else (eh.set 0 (eh.getD 0 0 ||| o.tos >>> 4)).set 1 (o.tos <<< 4)

def len6 (o : Output) : Option ℕ :=
  let len := blocklen o
  if o.gating then
    let chunk := nhgets o.bp 4
    if chunk > len then none else some (if chunk + IP6HDR < len then chunk + IP6HDR else len)
  else some len

def seglen6 (ifc : Ifc) (uflen : ℕ) : ℤ := (medialen6 ifc - (uflen + IP6FHDR)) / 8 * 8

/-- `tentative` is what `iptentative` says of the source. -/
def ipoput6 (tentative : Bool) (behind : List UInt8) (o : Output) : Written × ℤ :=
  if tentative then (.nothing, 0)
  else match len6 o with
    | none => (.nothing, 0)
    | some len =>
      if len ≥ IP_MAX then (.nothing, 0)
      else match o.route with
        | none => (.nothing, -1)
        | some ifc =>
          let eh := header6 o
          if !ifc.free then (.nothing, 0)
          else if !ifc.bound then (.nothing, 0)
          else if len ≤ medialen6 ifc then (.packet (hnputs eh 4 (len - IP6HDR : ℤ) ++ o.next.flatten), 0)
          else if o.gating ∧ !ifc.reassemble then (.nothing, 0)
          else match unfraglen behind eh true with
            | none => (.nothing, 0)
            | some (uflen, nexthdr, eh) =>
              if uflen > medialen6 ifc then (.nothing, 0)
              else if h : seglen6 ifc uflen < 8 then (.nothing, 0)
              else
                (.fragments ((segments (seglen6 ifc uflen).toNat (by omega) 0 (len - uflen)
                  (skip uflen (eh :: o.next))).map (fragment6 eh uflen nexthdr o.id)), 0)

end V6

theorem skip_flatten (offset : ℕ) (xp : List (List UInt8)) : (skip offset xp).flatten = xp.flatten.drop offset := by
  induction xp generalizing offset with
  | nil => simp [skip]
  | cons b l ih =>
    rw [skip]
    split
    · next h => rw [ih, List.flatten_cons, List.drop_append, List.drop_eq_nil_of_le h.2, List.nil_append]
    · next h =>
      have : offset ≤ b.length := by omega
      rw [List.flatten_cons, List.flatten_cons, List.drop_append_of_le_length this]

theorem copyup_spec (chunk : ℕ) (xp : List (List UInt8)) (h : chunk ≤ xp.flatten.length) :
    ∃ rest, copyup chunk xp = some (xp.flatten.take chunk, rest) ∧ rest.flatten = xp.flatten.drop chunk := by
  induction xp generalizing chunk with
  | nil =>
    obtain rfl : chunk = 0 := by simpa using h
    exact ⟨[], rfl, rfl⟩
  | cons b l ih =>
    match chunk with
    | 0 => exact ⟨b :: l, rfl, rfl⟩
    | chunk + 1 =>
      rw [copyup, List.flatten_cons]
      split
      · next hlt =>
        refine ⟨b.drop (chunk + 1) :: l, ?_, ?_⟩
        · rw [List.take_append_of_le_length (by omega)]
        · rw [List.flatten_cons, List.drop_append_of_le_length (by omega)]
      · next hge =>
        rw [List.flatten_cons, List.length_append] at h
        obtain ⟨rest, hcopy, hrest⟩ := ih (chunk + 1 - b.length) (by omega)
        refine ⟨rest, ?_, ?_⟩
        · rw [hcopy, List.take_append, List.take_of_length_le (show b.length ≤ chunk + 1 by omega)]
          rfl
        · rw [hrest, List.drop_append, List.drop_eq_nil_of_le (show b.length ≤ chunk + 1 by omega), List.nil_append]

/-- The bytes that the `i`th fragment has of the `e - a` ones to be cut up. -/
def segment (seglen a e : ℕ) (d : List UInt8) (i : ℕ) : ℕ × ℕ × Bool × List UInt8 :=
  (a + i * seglen, min seglen (e - (a + i * seglen)), decide (e ≤ a + i * seglen + seglen),
    (d.drop (i * seglen)).take (min seglen (e - (a + i * seglen))))

theorem mem_segments {seglen : ℕ} {hseg : 8 ≤ seglen} {s : ℕ × ℕ × Bool × List UInt8} {a e : ℕ}
    {xp : List (List UInt8)} (h : e - a ≤ xp.flatten.length) :
    s ∈ segments seglen hseg a e xp ↔ ∃ i, a + i * seglen < e ∧ s = segment seglen a e xp.flatten i := by
  induction hk : e - a using Nat.strong_induction_on generalizing a xp with
  | _ k ih =>
    rw [segments]
    by_cases hlt : a < e
    · have hsize : (if decide (e ≤ a + seglen) then e - a else seglen) = min seglen (e - a) := by
        split <;> simp_all <;> omega
      rw [if_pos hlt]
      simp only [hsize]
      clear hsize
      obtain ⟨rest, hcopy, hrest⟩ := copyup_spec (min seglen (e - a)) xp (by omega)
      rw [hcopy]
      simp only [List.mem_cons]
      have hnext := @ih (e - (a + min seglen (e - a))) (by omega) (a + min seglen (e - a)) rest
        (by rw [hrest, List.length_drop]; omega) rfl
      rw [hnext]
      constructor
      · rintro (rfl | ⟨i, hi, rfl⟩)
        · exact ⟨0, by omega, by simp [segment]⟩
        · have hfull : min seglen (e - a) = seglen := by
            have := Nat.min_le_left seglen (e - a)
            omega
          refine ⟨i + 1, by rw [hfull] at hi; rw [Nat.succ_mul]; omega, ?_⟩
          rw [hfull] at hrest ⊢
          have hi' : a + seglen + i * seglen = a + (i + 1) * seglen := by rw [Nat.succ_mul]; omega
          rw [segment, segment, hi', hrest, List.drop_drop, Nat.succ_mul, Nat.add_comm seglen]
      · rintro ⟨i, hi, rfl⟩
        match i with
        | 0 => exact .inl (by simp [segment])
        | i + 1 =>
          right
          have hfull : min seglen (e - a) = seglen := by
            rw [Nat.succ_mul] at hi
            omega
          rw [hfull] at hrest ⊢
          have hi' : a + seglen + i * seglen = a + (i + 1) * seglen := by rw [Nat.succ_mul]; omega
          refine ⟨i, by omega, ?_⟩
          rw [segment, segment, hi', hrest, List.drop_drop, Nat.succ_mul, Nat.add_comm seglen]
    · rw [if_neg hlt]
      constructor
      · exact fun h => absurd h List.not_mem_nil
      · rintro ⟨i, hi, -⟩
        omega

section Fields

variable {p q : List UInt8} {i j : ℕ}

theorem hnputs_getElem? (z : ℤ) (h : j ≠ i) (h' : j ≠ i + 1) : (hnputs p i z)[j]? = p[j]? := by
  rw [hnputs, List.getElem?_set_ne (by omega), List.getElem?_set_ne (by omega)]

theorem nhgets_congr (h : p[i]? = q[i]?) (h' : p[i + 1]? = q[i + 1]?) : nhgets p i = nhgets q i := by
  simp only [nhgets, List.getD_eq_getElem?_getD, h, h']

theorem nhgets_hnputs_self (z : ℤ) (h : i + 1 < p.length) : nhgets (hnputs p i z) i = ushort z := by
  have := nhgets_hnputs p [] z h
  rwa [List.append_nil] at this

theorem hnputs_append (z : ℤ) (h : i + 1 < p.length) : hnputs p i z ++ q = hnputs (p ++ q) i z := by
  rw [hnputs, hnputs, List.set_append_left _ _ (by omega),
    List.set_append_left _ _ (by rw [List.length_set]; exact h)]

theorem ushort_of_lt {n : ℕ} (h : n < 2 ^ 16) : ushort (n : ℤ) = n := by
  rw [ushort]
  omega

end Fields

section V4

/-- The length that a header announces for itself. -/
def hdrlen (p : List UInt8) : ℕ := (p.getD 0 0 &&& 0xf).toNat * 4

def offset4 (p : List UInt8) : ℕ := nhgets p 6 % 2 ^ 13 * 8

/-- `f` is a fragment of the datagram in the first `len` bytes of `p`, whose data starts at `origin` of the
one that was sent first. Its header is that of `p` except for the length, the identifier, the offset and the
checksum. -/
structure Wellformed4 (p : List UInt8) (len origin : ℕ) (f : List UInt8) : Prop where
  length : nhgets f 2 = f.length
  complete : hdrlen f ≤ f.length
  header : ∀ j < hdrlen f, j ∉ [2, 3, 4, 5, 6, 7, 10, 11] → f[j]? = p[j]?
  offset : origin ≤ offset4 f
  data : f.drop (hdrlen f) =
    (((p.take len).drop (hdrlen p)).drop (offset4 f - origin)).take (f.length - hdrlen f)

variable {eh junk data : List UInt8} {lid fragoff n : ℕ} {last : Bool}

/-- The header as the bytes it has in the fragment. -/
theorem fragment4_eq (heh : IP4HDR ≤ eh.length) :
    ∃ c, fragment4 eh junk lid (fragoff, n, last, data) =
      hnputs (((hnputs (hnputs (hnputs (eh.take IP4HDR ++ data) 6
        (if last then fragoff >>> 3 else fragoff >>> 3 ||| IP_MF : ℕ)) 2 (n + IP4HDR : ℕ)) 4 lid).set 10 0).set 11 0)
        10 c := by
  have h20 : (eh.take IP4HDR).length = 20 := by rw [List.length_take, Nat.min_eq_left heh, IP4HDR]
  have hnb : ∀ a b c : ℤ, hnputs (hnputs (hnputs (eh.take IP4HDR) 6 a) 2 b) 4 c ++ data =
      hnputs (hnputs (hnputs (eh.take IP4HDR ++ data) 6 a) 2 b) 4 c := fun a b c => by
    rw [hnputs_append _ (by simp only [hnputs_length, h20]; omega),
      hnputs_append _ (by simp only [hnputs_length, h20]; omega), hnputs_append _ (by rw [h20]; omega)]
  exact ⟨_, by simp only [fragment4, hnb]; rfl⟩

theorem fragment4_length (heh : IP4HDR ≤ eh.length) :
    (fragment4 eh junk lid (fragoff, n, last, data)).length = IP4HDR + data.length := by
  obtain ⟨c, hc⟩ : ∃ c, fragment4 eh junk lid (fragoff, n, last, data) = _ := fragment4_eq heh
  rw [hc]
  simp only [hnputs_length, List.length_set, List.length_append, List.length_take, Nat.min_eq_left heh]

theorem fragment4_getElem? (heh : IP4HDR ≤ eh.length) {j : ℕ} (hj : j < IP4HDR) (hne : j ∉ [2, 3, 4, 5, 6, 7, 10, 11]) :
    (fragment4 eh junk lid (fragoff, n, last, data))[j]? = eh[j]? := by
  obtain ⟨c, hc⟩ : ∃ c, fragment4 eh junk lid (fragoff, n, last, data) = _ := fragment4_eq heh
  simp only [List.mem_cons, List.not_mem_nil, or_false, not_or] at hne
  rw [hc, hnputs_getElem? _ (by omega) (by omega), List.getElem?_set_ne (by omega), List.getElem?_set_ne (by omega),
    hnputs_getElem? _ (by omega) (by omega), hnputs_getElem? _ (by omega) (by omega),
    hnputs_getElem? _ (by omega) (by omega),
    List.getElem?_append_left (by rw [List.length_take, Nat.min_eq_left heh]; exact hj), List.getElem?_take_of_lt hj]

theorem fragment4_drop (heh : IP4HDR ≤ eh.length) :
    (fragment4 eh junk lid (fragoff, n, last, data)).drop IP4HDR = data := by
  obtain ⟨c, hc⟩ : ∃ c, fragment4 eh junk lid (fragoff, n, last, data) = _ := fragment4_eq heh
  have h20 : IP4HDR = 20 := rfl
  rw [hc, hnputs_drop _ (by omega), List.drop_set_of_lt (by omega), List.drop_set_of_lt (by omega),
    hnputs_drop _ (by omega), hnputs_drop _ (by omega), hnputs_drop _ (by omega),
    List.drop_left' (by rw [List.length_take, Nat.min_eq_left heh])]

theorem fragment4_fields (heh : IP4HDR ≤ eh.length) :
    nhgets (fragment4 eh junk lid (fragoff, n, last, data)) 2 = ushort (n + IP4HDR : ℕ) ∧
      nhgets (fragment4 eh junk lid (fragoff, n, last, data)) 6 =
        ushort (if last then fragoff >>> 3 else fragoff >>> 3 ||| IP_MF : ℕ) := by
  obtain ⟨c, hc⟩ : ∃ c, fragment4 eh junk lid (fragoff, n, last, data) = _ := fragment4_eq heh
  have hbase : (eh.take IP4HDR ++ data).length = 20 + data.length := by
    rw [List.length_append, List.length_take, Nat.min_eq_left heh, IP4HDR]
  rw [hc]
  constructor
  · rw [← nhgets_hnputs_self (p := hnputs (eh.take IP4HDR ++ data) 6
      (if last then fragoff >>> 3 else fragoff >>> 3 ||| IP_MF : ℕ)) (i := 2) (n + IP4HDR : ℕ)
      (by rw [hnputs_length]; omega)]
    refine nhgets_congr ?_ ?_ <;>
    rw [hnputs_getElem? _ (by omega) (by omega), List.getElem?_set_ne (by omega), List.getElem?_set_ne (by omega),
      hnputs_getElem? _ (by omega) (by omega)]
  · rw [← nhgets_hnputs_self (p := eh.take IP4HDR ++ data) (i := 6)
      (if last then fragoff >>> 3 else fragoff >>> 3 ||| IP_MF : ℕ) (by omega)]
    refine nhgets_congr ?_ ?_ <;>
    rw [hnputs_getElem? _ (by omega) (by omega), List.getElem?_set_ne (by omega), List.getElem?_set_ne (by omega),
      hnputs_getElem? _ (by omega) (by omega), hnputs_getElem? _ (by omega) (by omega)]

theorem or_mod (m : ℕ) : (m ||| IP_MF) % 2 ^ 13 = m % 2 ^ 13 := by
  rw [Nat.or_mod_two_pow, IP_MF, show 0x2000 % 2 ^ 13 = 0 by rfl, Nat.or_zero]

theorem fragment4_offset (heh : IP4HDR ≤ eh.length) :
    offset4 (fragment4 eh junk lid (fragoff, n, last, data)) = fragoff / 8 % 2 ^ 13 * 8 := by
  have hmod : ∀ m : ℕ, ushort (m : ℤ) % 2 ^ 13 = m % 2 ^ 13 := fun m => by
    rw [ushort]
    omega
  rw [offset4, (fragment4_fields heh).2, hmod, Nat.shiftRight_eq_div_pow]
  split
  · rfl
  · rw [or_mod]

/-- Where the fragment `i` of `seglen` bytes each is cut out of the datagram in the first `len` bytes of `p`: there
is room for the options behind the `IP4HDR` bytes, the bytes there are those of the options, and the offset
has a value. -/
structure Cut4 (p : List UInt8) (len origin seglen i : ℕ) : Prop where
  room : hdrlen p - IP4HDR ≤ min seglen (len - IP4HDR - i * seglen)
  options : ∀ k < hdrlen p - IP4HDR, p[IP4HDR + i * seglen + k]? = p[IP4HDR + k]?
  offset : origin + i * seglen < 2 ^ 16

theorem segment_eq {a D S i : ℕ} {d : List UInt8} :
    segment S a (a + D) d i =
      (a + i * S, min S (D - i * S), decide (D ≤ i * S + S), (d.drop (i * S)).take (min S (D - i * S))) := by
  have hsub : a + D - (a + i * S) = D - i * S := by omega
  have hlast : decide (a + D ≤ a + i * S + S) = decide (D ≤ i * S + S) := decide_eq_decide.mpr (by omega)
  rw [segment, hsub, hlast]

theorem wellformed4_iff {eh rest : List UInt8} {len a S i : ℕ} (heh : IP4HDR ≤ eh.length)
    (hhl : IP4HDR ≤ hdrlen (eh ++ rest)) (hlen : len ≤ (eh ++ rest).length) (hmax : len < 2 ^ 16) (ha : a % 8 = 0)
    (hS : S % 8 = 0) (hi : i * S < len - IP4HDR) :
    Wellformed4 (eh ++ rest) len (a % 2 ^ 16)
        (fragment4 eh junk lid (segment S a (a + (len - IP4HDR)) ((eh ++ rest).drop IP4HDR) i)) ↔
      Cut4 (eh ++ rest) len (a % 2 ^ 16) S i := by
  rw [segment_eq, List.drop_drop]
  have h20 : IP4HDR = 20 := rfl
  have hiS : i * S % 8 = 0 := by rw [Nat.mul_mod, hS, Nat.mul_zero, Nat.zero_mod]
  generalize hdata : ((eh ++ rest).drop (IP4HDR + i * S)).take (min S (len - IP4HDR - i * S)) = piece
  generalize hn : min S (len - IP4HDR - i * S) = n at hdata ⊢
  have hpiece : piece.length = n := by
    rw [← hdata, List.length_take, List.length_drop]
    omega
  have hoff : offset4 (fragment4 eh junk lid (a + i * S, n, decide (len - IP4HDR ≤ i * S + S), piece)) =
      (a + i * S) % 2 ^ 16 := by
    rw [fragment4_offset heh]
    omega
  have hflen : (fragment4 eh junk lid (a + i * S, n, decide (len - IP4HDR ≤ i * S + S), piece)).length =
      IP4HDR + piece.length := fragment4_length heh
  have hfdrop : (fragment4 eh junk lid (a + i * S, n, decide (len - IP4HDR ≤ i * S + S), piece)).drop IP4HDR = piece :=
    fragment4_drop heh
  have hfield : nhgets (fragment4 eh junk lid (a + i * S, n, decide (len - IP4HDR ≤ i * S + S), piece)) 2 =
      ushort (n + IP4HDR : ℕ) := (fragment4_fields heh).1
  have hsame : ∀ j < IP4HDR, j ∉ [2, 3, 4, 5, 6, 7, 10, 11] →
      (fragment4 eh junk lid (a + i * S, n, decide (len - IP4HDR ≤ i * S + S), piece))[j]? = (eh ++ rest)[j]? :=
    fun j hj hne => by rw [fragment4_getElem? heh hj hne, List.getElem?_append_left (by omega)]
  generalize fragment4 eh junk lid (a + i * S, n, decide (len - IP4HDR ≤ i * S + S), piece) = f at *
  generalize eh ++ rest = p at *
  have hhdr : hdrlen f = hdrlen p := by
    rw [hdrlen, hdrlen, List.getD_eq_getElem?_getD, List.getD_eq_getElem?_getD, hsame 0 (by omega) (by decide)]
  have hbytes : ∀ k < n, f[IP4HDR + k]? = p[IP4HDR + i * S + k]? := fun k hk => by
    rw [← List.getElem?_drop, hfdrop, ← hdata, List.getElem?_take_of_lt hk, List.getElem?_drop]
  constructor
  · intro h
    have hcomplete := h.complete
    have hoffset := h.offset
    rw [hhdr] at hcomplete
    refine ⟨by omega, fun k hk => ?_, by omega⟩
    rw [← hbytes k (by omega)]
    exact h.header _ (by omega) (by simp only [List.mem_cons, List.not_mem_nil, or_false]; omega)
  · intro h
    have hroom := h.room
    have hoffset := h.offset
    refine ⟨?_, by omega, fun j hj hne => ?_, by omega, ?_⟩
    · rw [hfield, ushort_of_lt (by omega)]
      omega
    · by_cases hj20 : j < IP4HDR
      · exact hsame j hj20 hne
      · obtain ⟨k, rfl⟩ := Nat.exists_eq_add_of_le (Nat.le_of_not_lt hj20)
        rw [hbytes k (by omega), h.options k (by omega)]
    · have hsub : offset4 f - a % 2 ^ 16 = i * S := by omega
      have hsplit : hdrlen f = IP4HDR + (hdrlen p - IP4HDR) := by omega
      rw [hsub, hhdr, ← hhdr, hsplit, ← List.drop_drop, hfdrop, ← hdata, List.drop_take, List.drop_drop,
        List.drop_drop, List.drop_take, List.take_take]
      congr 1
      · omega
      · congr 1
        omega


/-- A packet that is sent in fragments. -/
structure Splits4 (o : Output) (len : ℕ) (ifc : Ifc) : Prop where
  measured : len4 o = some len
  max : len < IP_MAX
  route : o.route = some ifc
  free : ifc.free = true
  bound : ifc.bound = true
  long : medialen4 o ifc < len
  df : (header4 o).getD 6 0 &&& 0x40 = 0
  seglen : 8 ≤ seglen4 o ifc

/-- The offset of the datagram itself. -/
def origin4 (o : Output) : ℕ := if o.gating then offset4 (header4 o) else 0

theorem Splits4.frags {o : Output} {len : ℕ} {ifc : Ifc} (h : Splits4 o len ifc) :
    (ipoput4 junk o).1.frags = (segments (seglen4 o ifc).toNat (by have := h.seglen; omega)
      (if o.gating then nhgets (header4 o) 6 <<< 3 else 0)
      (len - IP4HDR + if o.gating then nhgets (header4 o) 6 <<< 3 else 0)
      (skip IP4HDR (header4 o :: o.next))).map
        (fragment4 (header4 o) junk (if o.gating then nhgets (header4 o) 4 else o.id)) := by
  have hmax := h.max
  have hlong := h.long
  have hseg := h.seglen
  rw [ipoput4, h.measured]
  simp only
  rw [if_neg (by omega), h.route]
  simp only [h.free, h.bound, h.df, Bool.not_true, Bool.false_eq_true, if_false, ne_eq, not_true_eq_false]
  rw [if_neg (by omega), dif_neg (by omega)]
  rfl

/-- Without the conditions there are no fragments. -/
theorem frags4_nil {o : Output} (h : ∀ len ifc, ¬ Splits4 o len ifc) : (ipoput4 junk o).1.frags = [] := by
  rw [ipoput4]
  split
  · rfl
  · next len hlen =>
    split
    · rfl
    · next hmax =>
      split
      · rfl
      · next ifc hroute =>
        simp only
        split
        · rfl
        · next hfree =>
          split
          · rfl
          · next hbound =>
            split
            · split <;> rfl
            · next hlong =>
              split
              · rfl
              · next hdf =>
                split
                · rfl
                · next hseg =>
                  exact absurd ⟨hlen, by omega, hroute, by simpa using hfree, by simpa using hbound, by omega,
                    by simpa using hdf, by omega⟩ (h len ifc)

theorem header4_length (o : Output) : (header4 o).length = o.bp.length := by
  simp only [header4]
  split <;> simp only [List.length_set]

theorem len4_le {o : Output} {len : ℕ} (h : len4 o = some len) : len ≤ (header4 o ++ o.next.flatten).length := by
  have hblock : (header4 o ++ o.next.flatten).length = blocklen o := by
    rw [List.length_append, header4_length, blocklen]
  rw [hblock]
  simp only [len4] at h
  split at h
  · split at h
    · cases h
    · rw [Option.some_inj] at h
      split at h <;> omega
  · rw [Option.some_inj] at h
    omega

/-- The header of a packet with its length in words; only a gated one has it from elsewhere. -/
theorem hdrlen_header4 {o : Output} (hbp : IP4HDR ≤ o.bp.length) (hhl : o.gating = true → IP4HDR ≤ hdrlen o.bp)
    (rest : List UInt8) : IP4HDR ≤ hdrlen (header4 o ++ rest) := by
  have h20 : IP4HDR = 20 := rfl
  obtain ⟨x, p, hp⟩ : ∃ x p, o.bp = x :: p := by
    match hp : o.bp with
    | [] => rw [hp, List.length_nil] at hbp; omega
    | x :: p => exact ⟨x, p, rfl⟩
  cases hg : o.gating
  · have : (header4 o ++ rest).getD 0 0 = 0x45 := by
      simp [header4, hg, hp, IP_VER4, IP_HLEN4]
      rfl
    rw [hdrlen, this]
    decide
  · have : (header4 o ++ rest).getD 0 0 = o.bp.getD 0 0 := by
      simp [header4, hg, hp]
    rw [hdrlen, this]
    exact hhl hg

theorem ipoput4_wellformed_iff {o : Output} (hbp : IP4HDR ≤ o.bp.length)
    (hhl : o.gating = true → IP4HDR ≤ hdrlen o.bp) :
    (∀ f ∈ (ipoput4 junk o).1.frags,
        Wellformed4 (header4 o ++ o.next.flatten) ((len4 o).getD 0) (origin4 o) f) ↔
      ∀ len ifc, Splits4 o len ifc → ∀ i, i * (seglen4 o ifc).toNat < len - IP4HDR →
        Cut4 (header4 o ++ o.next.flatten) len (origin4 o) (seglen4 o ifc).toNat i := by
  have hone : ∀ len ifc (hsplit : Splits4 o len ifc), ∀ i, i * (seglen4 o ifc).toNat < len - IP4HDR →
      ∀ a, a = (if o.gating then nhgets (header4 o) 6 <<< 3 else 0) →
      (Wellformed4 (header4 o ++ o.next.flatten) len (origin4 o)
        (fragment4 (header4 o) junk (if o.gating then nhgets (header4 o) 4 else o.id)
          (segment (seglen4 o ifc).toNat a (a + (len - IP4HDR)) ((header4 o ++ o.next.flatten).drop IP4HDR) i)) ↔
        Cut4 (header4 o ++ o.next.flatten) len (origin4 o) (seglen4 o ifc).toNat i) := fun len ifc hsplit i hi a ha => by
    have horigin : origin4 o = a % 2 ^ 16 := by
      rw [ha, origin4, offset4, Nat.shiftLeft_eq]
      split <;> omega
    have hmod : a % 8 = 0 := by
      rw [ha, Nat.shiftLeft_eq]
      split <;> omega
    have hmax := hsplit.max
    have hseg := hsplit.seglen
    rw [horigin]
    refine wellformed4_iff (by rw [header4_length]; exact hbp) (hdrlen_header4 hbp hhl _) (len4_le hsplit.measured)
      (by rw [IP_MAX] at hmax; omega) hmod ?_ hi
    rw [seglen4] at hseg ⊢
    omega
  constructor
  · intro h len ifc hsplit i hi
    refine (hone len ifc hsplit i hi _ rfl).mp ?_
    have hlen := len4_le hsplit.measured
    have := h (fragment4 (header4 o) junk (if o.gating then nhgets (header4 o) 4 else o.id)
      (segment (seglen4 o ifc).toNat (if o.gating then nhgets (header4 o) 6 <<< 3 else 0)
        ((if o.gating then nhgets (header4 o) 6 <<< 3 else 0) + (len - IP4HDR))
        ((header4 o ++ o.next.flatten).drop IP4HDR) i))
    rw [hsplit.measured, Option.getD_some] at this
    refine this ?_
    rw [hsplit.frags]
    refine List.mem_map_of_mem ?_
    rw [Nat.add_comm (len - IP4HDR), mem_segments (by rw [skip_flatten, List.flatten_cons, List.length_drop]; omega), skip_flatten]
    exact ⟨i, by omega, rfl⟩
  · intro h f hf
    by_cases hex : ∃ len ifc, Splits4 o len ifc
    · obtain ⟨len, ifc, hsplit⟩ := hex
      have hlen := len4_le hsplit.measured
      rw [hsplit.frags, List.mem_map] at hf
      obtain ⟨s, hs, rfl⟩ := hf
      rw [Nat.add_comm (len - IP4HDR), mem_segments (by rw [skip_flatten, List.flatten_cons, List.length_drop]; omega), skip_flatten] at hs
      obtain ⟨i, hi, rfl⟩ := hs
      rw [hsplit.measured, Option.getD_some]
      exact (hone len ifc hsplit i (by omega) _ rfl).mpr (h len ifc hsplit i (by omega))
    · rw [frags4_nil fun len ifc hsplit => hex ⟨len, ifc, hsplit⟩] at hf
      exact absurd hf List.not_mem_nil

end V4

section V6

/-- `f` is a fragment of the packet in the first `len` bytes of `p`, whose unfragmentable part has `uflen` bytes. -/
structure Wellformed6 (p : List UInt8) (len uflen : ℕ) (f : List UInt8) : Prop where
  length : nhgets f 4 + IP6HDR = f.length
  parts : ∃ q u, headers f (f.getD 6 0) 6 IP6HDR = some (FH, q, u) ∧ u + IP6FHDR ≤ f.length ∧
    f.drop (u + IP6FHDR) =
      (((p.take len).drop uflen).drop (nhgets f (u + 2) &&& 0xfff8)).take (f.length - (u + IP6FHDR))

variable {p : List UInt8}

theorem headers_le {nexthdr nexthdr' : UInt8} {q q' ufl ufl' : ℕ}
    (h : headers p nexthdr q ufl = some (nexthdr', q', ufl')) :
    ufl ≤ ufl' ∧ (ufl' = ufl ↔ nexthdr ≠ HBH ∧ nexthdr ≠ RH) ∧ (ufl' = ufl → nexthdr' = nexthdr ∧ q' = q) := by
  induction nexthdr, q, ufl using headers.induct p with
  | case1 nexthdr q ufl hx hlt ih =>
    rw [headers, if_pos hx, if_pos hlt] at h
    obtain ⟨hle, -, -⟩ := ih h
    refine ⟨by omega, ⟨fun _ => by omega, fun hne => ?_⟩, fun _ => by omega⟩
    obtain rfl | rfl := hx
    · exact absurd rfl hne.1
    · exact absurd rfl hne.2
  | case2 nexthdr q ufl hx hge =>
    rw [headers, if_pos hx, if_neg hge] at h
    cases h
  | case3 nexthdr q ufl hx =>
    rw [headers, if_neg hx] at h
    cases h
    exact ⟨Nat.le_refl _, ⟨fun _ => not_or.mp hx, fun _ => rfl⟩, fun _ => ⟨rfl, rfl⟩⟩

/-- The field that announces the last header is in front of it. -/
theorem headers_lt {nexthdr nexthdr' : UInt8} {q q' ufl ufl' : ℕ} (hq : q < ufl)
    (h : headers p nexthdr q ufl = some (nexthdr', q', ufl')) : q' < ufl' := by
  induction nexthdr, q, ufl using headers.induct p with
  | case1 nexthdr q ufl hx hlt ih =>
    rw [headers, if_pos hx, if_pos hlt] at h
    exact ih (by omega) h
  | case2 nexthdr q ufl hx hge =>
    rw [headers, if_pos hx, if_neg hge] at h
    cases h
  | case3 nexthdr q ufl hx =>
    rw [headers, if_neg hx] at h
    cases h
    exact hq

variable {eh data : List UInt8} {nexthdr : UInt8} {lid fragoff n uflen : ℕ} {last : Bool}

theorem fragment6_length (huf : uflen ≤ eh.length) :
    (fragment6 eh uflen nexthdr lid (fragoff, n, last, data)).length = uflen + IP6FHDR + data.length := by
  have hRM : (if last then hnputs [0, 0] 0 fragoff else
      (hnputs [0, 0] 0 fragoff).set 1 ((hnputs [0, 0] 0 fragoff).getD 1 0 ||| 1)).length = 2 := by
    split
    · rw [hnputs_length]; rfl
    · rw [List.length_set, hnputs_length]; rfl
  simp only [fragment6, List.length_append, List.length_take, hnputs_length, Nat.min_eq_left huf, List.length_cons,
    hRM, hnputl, List.length_nil, IP6FHDR]

theorem fragment6_drop (huf : uflen ≤ eh.length) :
    (fragment6 eh uflen nexthdr lid (fragoff, n, last, data)).drop (uflen + IP6FHDR) = data := by
  have h : (fragment6 eh uflen nexthdr lid (fragoff, n, last, [])).length = _ := fragment6_length huf
  simp only [fragment6, List.append_nil, List.length_nil, Nat.add_zero] at h ⊢
  exact List.drop_left' h

theorem fragment6_ploadlen (h40 : IP6HDR ≤ uflen) (huf : uflen ≤ eh.length) :
    nhgets (fragment6 eh uflen nexthdr lid (fragoff, n, last, data)) 4 = ushort (n + IP6FHDR : ℕ) := by
  have h40' : IP6HDR = 40 := rfl
  simp only [fragment6, List.append_assoc]
  rw [nhgets_take _ _ (by omega) (by rw [hnputs_length]; exact huf), nhgets_hnputs_self _ (by omega)]

theorem and_mask {x : ℕ} (h : x < 2 ^ 16) : x &&& 0xfff8 = x / 8 * 8 := by
  have hmask : 0xfff8 = (2 ^ 13 - 1) <<< 3 := rfl
  have hx : x / 8 * 8 = x >>> 3 <<< 3 := by rw [Nat.shiftLeft_eq, Nat.shiftRight_eq_div_pow]
  refine Nat.eq_of_testBit_eq fun i => ?_
  rw [Nat.testBit_and, hmask, hx, Nat.testBit_shiftLeft, Nat.testBit_shiftLeft, Nat.testBit_two_pow_sub_one,
    Nat.testBit_shiftRight]
  by_cases hi : 3 ≤ i
  · rw [show 3 + (i - 3) = i by omega]
    by_cases h16 : i < 16
    · simp [hi, show i - 3 < 13 by omega]
    · have : x.testBit i = false := Nat.testBit_lt_two_pow (h.trans_le (Nat.pow_le_pow_right (by omega) (by omega)))
      simp [this]
  · simp [hi]

/-- The bit for more fragments is none of the offset. -/
theorem fragment6_offset (huf : uflen ≤ eh.length) (hlt : fragoff < 2 ^ 16) (h8 : fragoff % 8 = 0) :
    nhgets (fragment6 eh uflen nexthdr lid (fragoff, n, last, data)) (uflen + 2) &&& 0xfff8 = fragoff := by
  have hat : ∀ k, (fragment6 eh uflen nexthdr lid (fragoff, n, last, data)).getD (uflen + k) 0 =
      ((nexthdr :: 0 :: (if last then hnputs [0, 0] 0 fragoff else
        (hnputs [0, 0] 0 fragoff).set 1 ((hnputs [0, 0] 0 fragoff).getD 1 0 ||| 1)) ++ hnputl lid) ++ data).getD k 0 :=
    fun k => by
      have hu : ((hnputs eh 4 (n + IP6FHDR : ℕ)).take uflen).length = uflen := by
        rw [List.length_take, hnputs_length, Nat.min_eq_left huf]
      simp only [fragment6, List.append_assoc, List.getD_eq_getElem?_getD]
      rw [List.getElem?_append_right (by omega), hu, Nat.add_sub_cancel_left]
  have hfo : ushort (fragoff : ℤ) = fragoff := ushort_of_lt hlt
  have hhigh : (fragment6 eh uflen nexthdr lid (fragoff, n, last, data)).getD (uflen + 2) 0 =
      UInt8.ofNat (fragoff / 2 ^ 8) := by
    rw [hat, hnputs, hfo]
    cases last <;> rfl
  have hlow : ((fragment6 eh uflen nexthdr lid (fragoff, n, last, data)).getD (uflen + 2 + 1) 0).toNat / 2 ^ 3 =
      fragoff % 2 ^ 8 / 2 ^ 3 := by
    have hbyte : (UInt8.ofNat (fragoff % 2 ^ 8)).toNat = fragoff % 2 ^ 8 :=
      UInt8.toNat_ofNat_of_lt' (by unfold UInt8.size; omega)
    rw [Nat.add_assoc, hat, hnputs, hfo]
    cases last
    · change (UInt8.ofNat (fragoff % 2 ^ 8) ||| 1).toNat / 2 ^ 3 = _
      rw [UInt8.toNat_or, Nat.or_div_two_pow, hbyte]
      exact Nat.or_zero _
    · change (UInt8.ofNat (fragoff % 2 ^ 8)).toNat / 2 ^ 3 = _
      rw [hbyte]
  rw [and_mask, nhgets, hhigh, UInt8.toNat_ofNat_of_lt' (by unfold UInt8.size; omega)]
  · omega
  · rw [nhgets]
    have := (((fragment6 eh uflen nexthdr lid (fragoff, n, last, data)).getD (uflen + 2) 0)).toNat_lt
    have := (((fragment6 eh uflen nexthdr lid (fragoff, n, last, data)).getD (uflen + 2 + 1) 0)).toNat_lt
    omega

/-- What `unfraglen` finds in the header filled out. -/
def chain6 (o : Output) : Option (UInt8 × ℕ × ℕ) := headers (header6 o) ((header6 o).getD 6 0) 6 IP6HDR

/-- A packet that is sent in fragments, behind `uflen` bytes. -/
structure Splits6 (tentative : Bool) (o : Output) (len : ℕ) (ifc : Ifc) (uflen : ℕ) : Prop where
  source : tentative = false
  measured : len6 o = some len
  max : len < IP_MAX
  route : o.route = some ifc
  free : ifc.free = true
  bound : ifc.bound = true
  long : medialen6 ifc < len
  allowed : o.gating = true → ifc.reassemble = true
  chain : (chain6 o).map (·.2.2) = some uflen
  fits : uflen ≤ medialen6 ifc
  seglen : 8 ≤ seglen6 ifc uflen

variable {tentative : Bool} {behind : List UInt8}

theorem unfraglen_set {eh : List UInt8} {q ufl : ℕ}
    (h : headers eh (eh.getD 6 0) 6 IP6HDR = some (nexthdr, q, ufl)) :
    ∃ eh', unfraglen behind eh true = some (ufl, nexthdr, eh') ∧ eh'.length = eh.length ∧ eh'.drop ufl = eh.drop ufl ∧
      (q < eh.length → eh'.getD q 0 = FH) := by
  have hq := headers_lt (by decide) h
  rw [unfraglen, h]
  refine ⟨_, rfl, ?_, ?_, fun hlen => ?_⟩
  · simp only [if_true, List.length_set]
    split <;> simp only [List.length_set]
  · simp only [if_true]
    rw [List.drop_set_of_lt hq]
    split
    · rw [List.drop_set_of_lt hq]
    · rfl
  · simp only [if_true]
    rw [List.getD_eq_getElem?_getD, List.getElem?_set_self]
    · rfl
    · split
      · rw [List.length_set]; exact hlen
      · exact hlen

theorem Splits6.frags {o : Output} {len : ℕ} {ifc : Ifc} (h : Splits6 tentative o len ifc uflen) {eh' : List UInt8}
    (heh : unfraglen behind (header6 o) true = some (uflen, nexthdr, eh')) :
    (ipoput6 tentative behind o).1.frags = (segments (seglen6 ifc uflen).toNat (by have := h.seglen; omega) 0
      (len - uflen) (skip uflen (eh' :: o.next))).map (fragment6 eh' uflen nexthdr o.id) := by
  have hmax := h.max
  have hlong := h.long
  have hseg := h.seglen
  have hfits := h.fits
  have hallowed : ¬ (o.gating = true ∧ (!ifc.reassemble) = true) := fun hc => by
    rw [h.allowed hc.1] at hc
    exact absurd hc.2 (by decide)
  obtain rfl := h.source
  rw [ipoput6, h.measured]
  simp only [Bool.false_eq_true, if_false]
  rw [if_neg (by omega), h.route]
  simp only [h.free, h.bound, Bool.not_true, Bool.false_eq_true, if_false]
  rw [if_neg (by omega), if_neg hallowed, heh]
  simp only
  rw [if_neg (by omega), dif_neg (by omega)]
  rfl

theorem frags6_nil {o : Output} (h : ∀ len ifc uflen, ¬ Splits6 tentative o len ifc uflen) :
    (ipoput6 tentative behind o).1.frags = [] := by
  rw [ipoput6]
  split
  · rfl
  · next hsource =>
    split
    · rfl
    · next len hlen =>
      split
      · rfl
      · next hmax =>
        split
        · rfl
        · next ifc hroute =>
          simp only
          split
          · rfl
          · next hfree =>
            split
            · rfl
            · next hbound =>
              split
              · rfl
              · next hlong =>
                split
                · rfl
                · next hallowed =>
                  split
                  · rfl
                  · next uflen nexthdr eh' hchain =>
                    split
                    · rfl
                    · next hfits =>
                      split
                      · rfl
                      · next hseg =>
                        have hch : (chain6 o).map (·.2.2) = some uflen := by
                          rw [unfraglen] at hchain
                          obtain ⟨⟨a, b, c⟩, hr, hc⟩ := Option.map_eq_some_iff.mp hchain
                          rw [chain6, hr]
                          cases hc
                          rfl
                        exact absurd ⟨by simpa using hsource, hlen, by omega, hroute, by simpa using hfree,
                          by simpa using hbound, by omega, fun hg => by simpa [hg] using hallowed, hch, by omega,
                          by omega⟩ (h len ifc uflen)

theorem header6_length (o : Output) : (header6 o).length = o.bp.length := by
  simp only [header6]
  split <;> simp only [List.length_set]

theorem len6_le {o : Output} {len : ℕ} (h : len6 o = some len) : len ≤ (header6 o ++ o.next.flatten).length := by
  have hblock : (header6 o ++ o.next.flatten).length = blocklen o := by
    rw [List.length_append, header6_length, blocklen]
  rw [hblock]
  simp only [len6] at h
  split at h
  · split at h
    · cases h
    · rw [Option.some_inj] at h
      split at h <;> omega
  · rw [Option.some_inj] at h
    omega

/-- The length of the unfragmentable part. -/
def uflen6 (o : Output) : ℕ := ((chain6 o).map (·.2.2)).getD 0

/-- A fragment behind nothing but the fixed header. -/
theorem wellformed6 {p eh piece : List UInt8} {len a n : ℕ} (heh : IP6HDR ≤ eh.length) (hnext : eh.getD 6 0 = FH)
    (hn : piece.length = n) (hlt : a + n < 2 ^ 16 - IP6FHDR) (ha : a % 8 = 0)
    (hpiece : piece = ((p.take len).drop (IP6HDR + a)).take n) :
    Wellformed6 p len IP6HDR (fragment6 eh IP6HDR nexthdr lid (a, n, last, piece)) where
  length := by
    rw [fragment6_ploadlen (Nat.le_refl _) heh, fragment6_length heh, hn,
      ushort_of_lt (by simp only [IP6FHDR] at hlt ⊢; omega)]
    omega
  parts := by
    have hfirst : (fragment6 eh IP6HDR nexthdr lid (a, n, last, piece)).getD 6 0 = FH := by
      have h40 : IP6HDR = 40 := rfl
      simp only [fragment6, List.append_assoc, List.getD_eq_getElem?_getD]
      rw [List.getElem?_append_left (by rw [List.length_take, hnputs_length]; omega),
        List.getElem?_take_of_lt (by omega), hnputs_getElem? _ (by omega) (by omega), ← List.getD_eq_getElem?_getD,
        hnext]
    refine ⟨6, IP6HDR, ?_, ?_, ?_⟩
    · rw [hfirst, headers, if_neg (by decide)]
    · rw [fragment6_length heh]
      omega
    · rw [fragment6_drop heh, fragment6_offset heh (by omega) ha, fragment6_length heh, List.drop_drop, hn,
        Nat.add_sub_cancel_left]
      exact hpiece

theorem ipoput6_wellformed_iff {o : Output} (hbp : IP6HDR ≤ o.bp.length)
    (hchain : ∃ r, chain6 o = some r ∧ r.2.2 ≤ o.bp.length) :
    (∀ f ∈ (ipoput6 tentative behind o).1.frags,
        Wellformed6 (header6 o ++ o.next.flatten) ((len6 o).getD 0) (uflen6 o) f) ↔
      ∀ len ifc uflen, Splits6 tentative o len ifc uflen →
        (header6 o).getD 6 0 ≠ HBH ∧ (header6 o).getD 6 0 ≠ RH := by
  obtain ⟨⟨nexthdr, q, uflen⟩, hr, hle⟩ := hchain
  rw [← header6_length] at hle hbp
  simp only at hle
  have huf : uflen6 o = uflen := by rw [uflen6, hr]; rfl
  obtain ⟨h40, hfixed, hsame⟩ := headers_le hr
  obtain ⟨eh', hunfrag, hlen', hdrop', hFH⟩ := @unfraglen_set _ behind _ _ _ hr
  have hflat : (eh' ++ o.next.flatten).drop uflen = (header6 o ++ o.next.flatten).drop uflen := by
    rw [List.drop_append_of_le_length (by omega), List.drop_append_of_le_length hle, hdrop']
  have hmem : ∀ {len ifc}, (hsplit : Splits6 tentative o len ifc uflen) → ∀ f,
      f ∈ (ipoput6 tentative behind o).1.frags ↔ ∃ i, i * (seglen6 ifc uflen).toNat < len - uflen ∧
        f = fragment6 eh' uflen nexthdr o.id (segment (seglen6 ifc uflen).toNat 0 (0 + (len - uflen))
          ((header6 o ++ o.next.flatten).drop uflen) i) := fun {len ifc} hsplit f => by
    have := len6_le hsplit.measured
    have hskip : (skip uflen (eh' :: o.next)).flatten = (header6 o ++ o.next.flatten).drop uflen := by
      rw [skip_flatten, List.flatten_cons, hflat]
    rw [hsplit.frags hunfrag, List.mem_map]
    constructor
    · rintro ⟨s, hs, rfl⟩
      rw [mem_segments (by rw [hskip, List.length_drop]; omega), hskip] at hs
      obtain ⟨i, hi, rfl⟩ := hs
      exact ⟨i, by omega, by rw [Nat.zero_add (len - uflen)]⟩
    · rintro ⟨i, hi, rfl⟩
      refine ⟨_, ?_, rfl⟩
      rw [mem_segments (by rw [hskip, List.length_drop]; omega), hskip]
      exact ⟨i, by omega, by rw [Nat.zero_add (len - uflen)]⟩
  have huflen : ∀ {len ifc u}, Splits6 tentative o len ifc u → u = uflen := fun h => by
    have := h.chain
    rw [hr] at this
    exact (Option.some_inj.mp this).symm
  constructor
  · intro h len ifc u hsplit
    obtain rfl := huflen hsplit
    rw [← hfixed]
    have hlong := hsplit.long
    have hfits := hsplit.fits
    have hmax := hsplit.max
    rw [IP_MAX] at hmax
    have hok := (h _ ((hmem hsplit _).mpr ⟨0, by omega, rfl⟩)).length
    have hmeas := len6_le hsplit.measured
    rw [segment_eq, fragment6_ploadlen h40 (by omega), fragment6_length (by omega), List.length_take, List.length_drop,
      List.length_drop, ushort_of_lt (by rw [IP6FHDR]; simp only [IP6HDR] at h40; omega)] at hok
    simp only [IP6FHDR, Nat.zero_mul, Nat.sub_zero] at hok
    omega
  · intro h f hf
    by_cases hex : ∃ len ifc u, Splits6 tentative o len ifc u
    · obtain ⟨len, ifc, u, hsplit⟩ := hex
      obtain rfl := huflen hsplit
      have hu := hfixed.mpr (h len ifc u hsplit)
      obtain ⟨-, hq⟩ := hsame hu
      subst hu hq
      obtain ⟨i, hi, rfl⟩ := (hmem hsplit f).mp hf
      have hmax := hsplit.max
      have hseg := hsplit.seglen
      have hmeas := len6_le hsplit.measured
      rw [IP_MAX] at hmax
      have hS : (seglen6 ifc IP6HDR).toNat % 8 = 0 := by
        rw [seglen6] at hseg ⊢
        omega
      generalize (seglen6 ifc IP6HDR).toNat = S at hi hS ⊢
      have hiS : i * S % 8 = 0 := by rw [Nat.mul_mod, hS, Nat.mul_zero, Nat.zero_mod]
      have hhdr : IP6HDR = 40 := rfl
      have hfh : IP6FHDR = 8 := rfl
      rw [hsplit.measured, Option.getD_some, huf, segment_eq, Nat.zero_add, List.drop_drop]
      refine wellformed6 (by omega) (hFH (by omega)) ?_ (by omega) hiS ?_
      · rw [List.length_take, List.length_drop]
        omega
      · rw [List.drop_take, List.take_take]
        congr 1
        omega
    · rw [frags6_nil fun len ifc u hsplit => hex ⟨len, ifc, u, hsplit⟩] at hf
      exact absurd hf List.not_mem_nil

end V6

/-- What `ipoput4` and `ipoput6` cut up are well-formed packets as long as the headers have nothing behind the
fixed part; with options, if by accident the data has the bytes of the options where it is cut. -/
theorem fragments_wellformed_iff (junk behind : List UInt8) (tentative : Bool) {o o' : Output}
    (hbp : IP4HDR ≤ o.bp.length) (hhl : o.gating = true → IP4HDR ≤ hdrlen o.bp) (hbp' : IP6HDR ≤ o'.bp.length)
    (hchain : ∃ r, chain6 o' = some r ∧ r.2.2 ≤ o'.bp.length) :
    ((∀ f ∈ (ipoput4 junk o).1.frags, Wellformed4 (header4 o ++ o.next.flatten) ((len4 o).getD 0) (origin4 o) f) ↔
      ∀ len ifc, Splits4 o len ifc → ∀ i, i * (seglen4 o ifc).toNat < len - IP4HDR →
        Cut4 (header4 o ++ o.next.flatten) len (origin4 o) (seglen4 o ifc).toNat i) ∧
    ((∀ f ∈ (ipoput6 tentative behind o').1.frags,
        Wellformed6 (header6 o' ++ o'.next.flatten) ((len6 o').getD 0) (uflen6 o') f) ↔
      ∀ len ifc uflen, Splits6 tentative o' len ifc uflen →
        (header6 o').getD 6 0 ≠ HBH ∧ (header6 o').getD 6 0 ≠ RH) :=
  ⟨ipoput4_wellformed_iff hbp hhl, ipoput6_wellformed_iff hbp' hchain⟩

/-- A gated packet with four bytes of options, for an interface with room for 44 bytes. -/
def optioned : Output where
  route := some ⟨44, 0, true, true, false⟩
  bp := [0x46, 0, 0, 64, 0, 1, 0, 0, 9, 17, 0, 0, 1, 1, 1, 1, 2, 2, 2, 2, 7, 4, 5, 0] ++ List.replicate 40 3
  next := []
  gating := true
  ttl := 8
  tos := 0
  maxfragsize := 0
  id := 1

/-- A packet with a hop-by-hop header, for an interface with room for 80 bytes. -/
def hopbyhop : Output where
  route := some ⟨80, 0, true, true, false⟩
  bp := [0x60, 0, 0, 0, 0, 48, 0, 9] ++ List.replicate 32 1 ++ [17, 0, 1, 4, 0, 0, 0, 0] ++ List.replicate 40 3
  next := []
  gating := false
  ttl := 8
  tos := 0
  maxfragsize := 0
  id := 1

theorem chain6_hopbyhop : chain6 hopbyhop = some (17, 40, 48) := by
  have h0 : (header6 hopbyhop).getD 6 0 = 0 := rfl
  have h1 : (header6 hopbyhop).getD IP6HDR 0 = 17 := rfl
  have h2 : (header6 hopbyhop).getD (IP6HDR + 1) 0 = 0 := rfl
  rw [chain6, h0, headers, if_pos (by decide), if_pos (by decide), h1, h2, headers, if_neg (by decide)]
  rfl

theorem fragments_not_wellformed :
    (¬ ∀ f ∈ (ipoput4 [] optioned).1.frags,
      Wellformed4 (header4 optioned ++ optioned.next.flatten) ((len4 optioned).getD 0) (origin4 optioned) f) ∧
    ¬ ∀ f ∈ (ipoput6 false [] hopbyhop).1.frags,
      Wellformed6 (header6 hopbyhop ++ hopbyhop.next.flatten) ((len6 hopbyhop).getD 0) (uflen6 hopbyhop) f := by
  rw [ipoput4_wellformed_iff (by decide) (by decide), ipoput6_wellformed_iff (by decide) ⟨_, chain6_hopbyhop, by decide⟩]
  constructor
  · intro h
    have hsplit : Splits4 optioned 64 ⟨44, 0, true, true, false⟩ :=
      ⟨by decide, by decide, rfl, rfl, rfl, by decide, by decide, by decide⟩
    exact absurd ((h 64 _ hsplit 1 (by decide)).options 0 (by decide)) (by decide)
  · intro h
    have hsplit : Splits6 false hopbyhop 88 ⟨80, 0, true, true, false⟩ 48 :=
      ⟨rfl, by decide, by decide, rfl, rfl, rfl, by decide, by decide, by rw [chain6_hopbyhop]; rfl, by decide, by decide⟩
    exact absurd (h 88 _ 48 hsplit).1 (by decide)

theorem fragments_wellformed_iff_hopbyhop :
    ((∀ f ∈ (ipoput4 [] optioned).1.frags,
        Wellformed4 (header4 optioned ++ optioned.next.flatten) ((len4 optioned).getD 0) (origin4 optioned) f) ↔
      ∀ len ifc, Splits4 optioned len ifc → ∀ i, i * (seglen4 optioned ifc).toNat < len - IP4HDR →
        Cut4 (header4 optioned ++ optioned.next.flatten) len (origin4 optioned) (seglen4 optioned ifc).toNat i) ∧
    ((∀ f ∈ (ipoput6 false [] hopbyhop).1.frags,
        Wellformed6 (header6 hopbyhop ++ hopbyhop.next.flatten) ((len6 hopbyhop).getD 0) (uflen6 hopbyhop) f) ↔
      ∀ len ifc uflen, Splits6 false hopbyhop len ifc uflen →
        (header6 hopbyhop).getD 6 0 ≠ HBH ∧ (header6 hopbyhop).getD 6 0 ≠ RH) :=
  fragments_wellformed_iff [] [] false (by decide) (by decide) (by decide) ⟨_, chain6_hopbyhop, by decide⟩

end Petele.Ip.Fragment
