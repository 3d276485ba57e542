import Petele.Devmnt.Queue
import Petele.NineP.Stat

namespace Petele.Devmnt

open Lib Lib.LittleEndian Qio Qio.Buffer NineP

/-- The request with its reply cleared. -/
def Mntrpc.cleared (r : Mntrpc) : Mntrpc := { r with reply := { r.reply with type := 0, tag := 0 } }

namespace Mnt

variable (mnt : Mnt)

/-- The length that the next message says it has. -/
def size : ℕ := (GBIT32 mnt.stream).toNat

def type : UInt8 := mnt.stream.getD BIT32SZ 0

/-- The bytes in the queue when the header, and then `len` bytes, have been asked for. -/
def gathered (len : ℤ) : ℕ :=
  arrived (max 7 len) (flat mnt.q.bfirst).length (mnt.channel.map fun b => (flat b).length)

end Mnt

section Header

variable {p s : List UInt8}

/-- The first bytes say the same in whatever they are followed by. -/
theorem prefix_getD (h : p <+: s) {i : ℕ} (hi : i < p.length) : p.getD i 0 = s.getD i 0 := by
  obtain ⟨r, rfl⟩ := h
  rw [List.getD_append _ _ _ _ hi]

theorem prefix_GBIT32 (h : p <+: s) (hp : 4 ≤ p.length) : GBIT32 p = GBIT32 s := by
  simp only [GBIT32]
  rw [prefix_getD h (by omega), prefix_getD h (by omega), prefix_getD h (by omega), prefix_getD h (by omega)]

end Header

/-- The header is in the first block of the queue. -/
structure Pulled (mnt : Mnt) (nb : Buffer) (q : Listq) (channel : List (List Buffer)) : Prop where
  first : ∃ l, q.bfirst = nb :: l
  counted : Counted mnt.msize q
  small : ∀ b ∈ channel, (flat b).length ≤ mnt.msize
  suffix : channel <:+ mnt.channel
  stream : flat q.bfirst ++ arriving channel = mnt.stream
  header : 7 ≤ nb.BLEN
  gathered : ∀ len, mnt.gathered len = arrived len (flat q.bfirst).length (channel.map fun b => (flat b).length)

section Cases

variable {g : ℕ → Grant} {mnt : Mnt} {r : Mntrpc} {nb : Buffer} {q : Listq} {channel : List (List Buffer)}

theorem bfirst_ne_nil (h : 0 < (flat q.bfirst).length) : q.bfirst ≠ [] := fun hnil => by
  rw [hnil, flat_nil] at h
  exact absurd h (by decide)

/-- Without a whole header there is no message. -/
theorem mntrpcread_short (h : mnt.Ok) (hshort : mnt.stream.length < 7) :
    ∃ mnt', mntrpcread g mnt r = some (-1, r.cleared, mnt') ∧ mnt'.Ok := by
  have hsize := h.size
  obtain ⟨ok, q', channel', hread, hq', hsuff, htrue, -⟩ :=
    doread_spec hsize.2 (show ((7 : ℕ) : ℤ) ≤ mnt.msize by omega) h.counted h.channel
  cases ok with
  | true =>
    obtain ⟨hlen, hstream, -⟩ := htrue rfl
    have := congrArg List.length hstream
    rw [List.length_append] at this
    rw [Mnt.stream] at hshort
    omega
  | false =>
    rw [mntrpcread, show BIT32SZ + BIT8SZ + BIT16SZ = 7 from rfl, hread]
    exact ⟨_, rfl, hsize, hq', fun b hb => h.channel b (hsuff.subset hb)⟩

theorem first_bind {α : Type} {x : Option Listq} {l : List Buffer} (hx : x = some q) (hq : q.bfirst = nb :: l)
    (f : Listq → Buffer → Option α) :
    (do
      let q ← x
      let nb ← q.bfirst.head?
      f q nb) = f q nb := by
  simp only [hx, Option.bind_eq_bind, Option.bind_some, hq, List.head?_cons]

/-- With a whole header the message is looked at. -/
theorem mntrpcread_header (h : mnt.Ok) (h7 : 7 ≤ mnt.stream.length) :
    ∃ nb q channel, mntrpcread g mnt r = message g mnt r.cleared nb q channel ∧ Pulled mnt nb q channel := by
  have hsize := h.size
  have hheader : BIT32SZ + BIT8SZ + BIT16SZ = 7 := rfl
  obtain ⟨ok, q', channel', hread, hq', hsuff, htrue, hfalse⟩ :=
    doread_spec hsize.2 (show ((BIT32SZ + BIT8SZ + BIT16SZ : ℕ) : ℤ) ≤ mnt.msize by omega) h.counted h.channel
  cases ok with
  | false =>
    have := hfalse rfl
    rw [Mnt.stream] at h7
    omega
  | true =>
    obtain ⟨hlen, hstream, harr⟩ := htrue rfl
    obtain ⟨b, l, hpull, hflat, hlong⟩ := pullupqueue_enough (q := q') (g := g 0) (n := BIT32SZ + BIT8SZ + BIT16SZ)
      (by omega) (bfirst_ne_nil (by omega)) (by omega)
    refine ⟨b, { q' with bfirst := b :: l }, channel', ?_, ⟨l, rfl⟩, ⟨?_, ?_⟩, fun b hb => h.channel b (hsuff.subset hb),
      hsuff, ?_, by omega, fun len => ?_⟩
    · rw [mntrpcread, hread]
      exact first_bind hpull rfl fun q nb => message g mnt _ nb q channel'
    · dsimp only
      rw [hflat, hq'.dlen]
    · dsimp only
      rw [hflat]
      exact hq'.small
    · dsimp only
      rw [hflat, hstream, Mnt.stream]
    · dsimp only
      rw [hflat, ← harr, hheader, Nat.cast_ofNat, Mnt.gathered]

namespace Pulled

theorem prefix_stream (h : Pulled mnt nb q channel) : nb.data <+: mnt.stream := by
  obtain ⟨l, hl⟩ := h.first
  rw [← h.stream, hl, flat_cons, List.append_assoc]
  exact List.prefix_append _ _

theorem size (h : Pulled mnt nb q channel) : (GBIT32 nb.data).toNat = mnt.size := by
  have hb : nb.data.length = nb.BLEN := rfl
  have := h.header
  rw [Mnt.size, prefix_GBIT32 h.prefix_stream (by omega)]

theorem type (h : Pulled mnt nb q channel) : nb.data.getD BIT32SZ 0 = mnt.type := by
  have hb : nb.data.length = nb.BLEN := rfl
  have := h.header
  rw [Mnt.type, prefix_getD h.prefix_stream (by rw [hb, BIT32SZ]; omega)]

/-- A message that is too large is not read. -/
theorem message_large (h : Pulled mnt nb q channel) (hsize : 256 ≤ mnt.msize ∧ mnt.msize ≤ 1024 * 1024)
    (hlarge : (mnt.msize : ℤ) < int mnt.size) :
    ∃ mnt', message g mnt r nb q channel = some (-1, r, mnt') ∧ mnt'.Ok := by
  rw [message, h.size]
  rw [if_pos hlarge, qlen, h.counted.dlen]
  obtain ⟨q', hq', hflat, hc⟩ := qdiscard_spec (flat q.bfirst).length hsize.2 h.counted
  rw [hq']
  exact ⟨_, rfl, hsize, hc, h.small⟩

/-- Nor is one of which the channel does not return all. -/
theorem message_eof (h : Pulled mnt nb q channel) (hsize : 256 ≤ mnt.msize ∧ mnt.msize ≤ 1024 * 1024)
    (hsmall : int mnt.size ≤ mnt.msize) (heof : (mnt.stream.length : ℤ) < int mnt.size) :
    ∃ mnt', message g mnt r nb q channel = some (-1, r, mnt') ∧ mnt'.Ok := by
  obtain ⟨ok, q', channel', hread, hq', hsuff, htrue, -⟩ := doread_spec hsize.2 hsmall h.counted h.small
  rw [message, h.size]
  rw [if_neg (not_lt.mpr hsmall), hread]
  cases ok with
  | true =>
    obtain ⟨hlen, hstream, -⟩ := htrue rfl
    rw [h.stream] at hstream
    have := congrArg List.length hstream
    rw [List.length_append] at this
    omega
  | false => exact ⟨_, rfl, hsize, hq', fun b hb => h.small b (hsuff.subset hb)⟩

/-- The whole message is in the queue. -/
theorem message_whole (h : Pulled mnt nb q channel) (hsize : 256 ≤ mnt.msize ∧ mnt.msize ≤ 1024 * 1024)
    (hsmall : int mnt.size ≤ mnt.msize) (hwhole : int mnt.size ≤ mnt.stream.length) :
    ∃ q' channel', message g mnt r nb q channel = unpack g mnt r mnt.type mnt.size q' channel' ∧ Counted mnt.msize q' ∧
      channel' <:+ mnt.channel ∧ flat q'.bfirst ++ arriving channel' = mnt.stream ∧ int mnt.size ≤ (flat q'.bfirst).length ∧
      7 ≤ (flat q'.bfirst).length ∧ (flat q'.bfirst).length = mnt.gathered (int mnt.size) := by
  obtain ⟨ok, q', channel', hread, hq', hsuff, htrue, hfalse⟩ := doread_spec hsize.2 hsmall h.counted h.small
  rw [message, h.size, h.type]
  rw [if_neg (not_lt.mpr hsmall), hread]
  cases ok with
  | false =>
    have := hfalse rfl
    rw [h.stream] at this
    omega
  | true =>
    obtain ⟨hlen, hstream, harr⟩ := htrue rfl
    have hg : (flat q'.bfirst).length = mnt.gathered (int mnt.size) := by
      have hall := harr (int mnt.size)
      rw [max_self, arrived_enough hlen] at hall
      rw [h.gathered, hall]
    refine ⟨q', channel', rfl, hq', hsuff.trans h.suffix, hstream.trans h.stream, hlen, ?_, hg⟩
    obtain ⟨l, hl⟩ := h.first
    have hb : nb.data.length = nb.BLEN := rfl
    have hle := arrived_ge (int mnt.size) (flat q.bfirst).length (channel.map fun b => (flat b).length)
    have h7 := h.header
    rw [hg, h.gathered]
    rw [hl, flat_cons, List.length_append] at hle ⊢
    omega

end Pulled

end Cases

section Unpack

variable {size : ℕ} {q : Listq} {l : List Buffer} {nb : Buffer} {t : UInt8} {n : ℕ}

/-- The bytes of the header of a message of `n` bytes: everything but the data. -/
def header (t : UInt8) (n : ℕ) : ℕ := if t = MsgType.Rread.code then 11 else n

theorem handed_absent (h : (flat (nb :: l)).length < n) : handed nb l t n = none := by
  have hb : nb.data.length = nb.BLEN := rfl
  have hlong := h
  rw [flat_cons, List.length_append] at hlong
  rw [handed, if_neg (by omega), if_neg fun hread => absurd hread.2.2 (by omega)]

/-- `convM2S` is given the header as it is, and as many bytes as the message has. -/
theorem handed_spec (hn : n ≤ (flat (nb :: l)).length) (hhead : header t n ≤ nb.BLEN) :
    ∃ ap, handed nb l t n = some ap ∧ ap.length = n ∧
      ap.take (header t n) = ((flat (nb :: l)).take n).take (header t n) := by
  have hb : nb.data.length = nb.BLEN := rfl
  rw [handed]
  by_cases hin : n ≤ nb.BLEN
  · rw [if_pos hin, flat_cons, List.take_append_of_le_length (by omega)]
    exact ⟨_, rfl, by rw [List.length_take]; omega, rfl⟩
  · by_cases ht : t = MsgType.Rread.code
    · rw [header, if_pos ht] at hhead ⊢
      rw [if_neg hin, if_pos ⟨ht, hhead, hn⟩]
      refine ⟨_, rfl, by rw [List.length_append, List.length_replicate]; omega, ?_⟩
      rw [List.take_append_of_le_length (by omega), List.take_take, min_eq_left (by omega), flat_cons,
        List.take_append_of_le_length (by omega)]
    · rw [header, if_neg ht] at hhead
      exact absurd hhead hin

theorem int_of_nonneg (hsize : size < 2 ^ 32) (h : 0 ≤ int size) : int size = size := by
  have hint : int size = wrap size := rfl
  by_cases hsmall : size < 2 ^ 31
  · exact int_eq hsmall
  · rw [hint, wrap_past (by omega) (by omega)] at h
    omega

theorem le_of_int_neg (hsize : size < 2 ^ 32) (h : int size < 0) : 2 ^ 31 ≤ size := by
  by_contra hsmall
  rw [int_eq (by omega)] at h
  omega

variable {g : ℕ → Grant} {mnt : Mnt} {r : Mntrpc} {channel : List (List Buffer)}

/-- Nothing is done to a message when there is no first block. -/
theorem first_none {α : Type} {x : Option Listq} (hx : x = some q) (hq : q.bfirst = [])
    (f : Listq → Buffer → Option α) :
    (do
      let q ← x
      let nb ← q.bfirst.head?
      f q nb) = none := by
  simp only [hx, Option.bind_eq_bind, Option.bind_some, hq, List.head?_nil, Option.bind_none]

/-- Nor when the first block does not have what `convM2S` is to be given. -/
theorem first_absent {α : Type} {x : Option Listq} (hx : x = some q) (hq : q.bfirst = nb :: l)
    (hn : (flat q.bfirst).length < n) (f : Listq → List UInt8 → Option α) :
    (do
      let q ← x
      let nb ← q.bfirst.head?
      let ap ← handed nb q.bfirst.tail t n
      f q ap) = none := by
  have habsent : handed nb l t n = none := handed_absent (hq ▸ hn)
  simp only [hx, Option.bind_eq_bind, Option.bind_some, hq, List.head?_cons, List.tail_cons, habsent, Option.bind_none]

theorem pullupqueue_there {g : Grant} {n : ℤ} (hq : q.bfirst = nb :: l) (hn : n ≤ nb.BLEN) : pullupqueue g q n = some q := by
  rw [pullupqueue, hq]
  simp only [List.head?_cons, Option.bind_eq_bind, Option.bind_some, if_pos hn, Option.pure_def]

/-- Of an `Rread` that ends in front of its data there must be eleven bytes all the same. -/
theorem unpack_few (hne : q.bfirst ≠ []) (hfew : (flat q.bfirst).length < 11) :
    unpack g mnt r MsgType.Rread.code size q channel = none := by
  have hheader : BIT32SZ + BIT8SZ + BIT16SZ + BIT32SZ = 11 := rfl
  rw [unpack, if_pos rfl]
  exact first_none (pullupqueue_few (by omega) hne (by omega)) rfl _

/-- A length that is negative as an `int` is taken for as many bytes as it says. -/
theorem unpack_negative (hlow : size < 2 ^ 32) (hneg : int size < 0) (hne : q.bfirst ≠ [])
    (hsmall : (flat q.bfirst).length < 2 ^ 31) : unpack g mnt r t size q channel = none := by
  have hheader : BIT32SZ + BIT8SZ + BIT16SZ + BIT32SZ = 11 := rfl
  have hlarge := le_of_int_neg hlow hneg
  by_cases ht : t = MsgType.Rread.code
  · by_cases hfew : (flat q.bfirst).length < 11
    · rw [ht]
      exact unpack_few hne hfew
    · obtain ⟨b', l', hpull, hflat, -⟩ := pullupqueue_enough (q := q) (g := g 1)
        (n := BIT32SZ + BIT8SZ + BIT16SZ + BIT32SZ) (by omega) hne (by omega)
      rw [unpack, if_pos ht]
      exact first_absent hpull rfl (by rw [hflat]; omega) _
  · obtain ⟨b, l, hl⟩ := List.exists_cons_of_ne_nil hne
    rw [unpack, if_neg ht]
    exact first_absent (pullupqueue_there hl (by omega)) hl (by omega) _

theorem u8_enc (v : UInt8) : u8.enc v = [v] := by
  simp only [u8, Format.word, leBytes, UInt8.ofNat_toNat]

theorem payload_enc (bs : List UInt8) : payload.enc bs = leBytes 4 bs.length ++ bs := rfl

/-- A message that `convM2S` takes is as long as its header. -/
theorem header_le {ap : List UInt8} {f reply : Fcall Str ℕ} {p len : ℕ} {buf : List UInt8}
    (h : convM2S ap f = .ok (len, reply) p buf) :
    7 ≤ ap.length ∧ header (ap.getD BIT32SZ 0) ap.length ≤ ap.length := by
  obtain ⟨buf', -, hquit⟩ | ⟨t, b, size, rest, g', buf', -, -, hap, -, -, htype, -⟩ := convM2S_cases ap f
  · rw [hquit] at h
    cases h
  have hlen := congrArg List.length hap
  simp only [List.length_append, u32_length, u8_length, u16_length] at hlen
  refine ⟨by omega, ?_⟩
  rw [header]
  split
  · next hread =>
    have hcode : ap.getD BIT32SZ 0 = g'.type := by
      rw [hap, List.getD_append_right _ _ _ _ (by rw [u32_length, BIT32SZ]), u32_length, BIT32SZ,
        List.getD_append _ _ _ _ (by rw [u8_length]; exact Nat.one_pos)]
      rw [u8_enc, List.getD_cons_zero]
    obtain rfl : t = .Rread := by
      rw [← hcode, hread, MsgType.ofCode_code, Option.some_inj] at htype
      exact htype.symm
    have hcount : 4 ≤ (payload.enc b).length := by
      rw [payload_enc, List.length_append, leBytes_length]
      exact Nat.le_add_right _ _
    have hbody : ((bodyF .Rread).enc b).length = (payload.enc b).length := rfl
    omega
  · exact le_rfl

theorem first_given {α : Type} {x : Option Listq} {ap : List UInt8} (hx : x = some q) (hq : q.bfirst = nb :: l)
    (hap : handed nb l t n = some ap) (f : Listq → List UInt8 → Option α) :
    (do
      let q ← x
      let nb ← q.bfirst.head?
      let ap ← handed nb q.bfirst.tail t n
      f q ap) = f q ap := by
  simp only [hx, Option.bind_eq_bind, Option.bind_some, hq, List.head?_cons, List.tail_cons, hap]

/-- What becomes of a message of which everything is in the queue. -/
structure Unpacked (mnt : Mnt) (r : Mntrpc) (t : UInt8) (q : Listq) (channel : List (List Buffer)) (size : ℕ)
    (ap : List UInt8) (ret : ℤ) (r' : Mntrpc) (mnt' : Mnt) : Prop where
  ap_length : ap.length = size
  ap_take : ap.take (header t size) = ((flat q.bfirst).take size).take (header t size)
  refused : (∃ buf, convM2S ap r.reply = .quit buf) → ret = -1 ∧ r' = r
  taken : ∀ p, (∃ n buf, convM2S ap r.reply = .ok p n buf) →
    ret = 0 ∧ r'.reply = p.2 ∧ flat r'.b = ((flat q.bfirst).take size).drop (header t size)
  msize : mnt'.msize = mnt.msize
  rest : flat mnt'.q.bfirst = (flat q.bfirst).drop size
  counted : Counted mnt.msize mnt'.q
  channel : mnt'.channel = channel

theorem unpack_whole (g : ℕ → Grant) (r : Mntrpc) (channel : List (List Buffer)) (hmsize : mnt.msize ≤ 1024 * 1024)
    (hq : Counted mnt.msize q) (hint : int size = size) (hne : q.bfirst ≠ []) (hsmall : size ≤ mnt.msize)
    (hn : size ≤ (flat q.bfirst).length)
    (hhead : header t size ≤ (flat q.bfirst).length) (htype : (flat q.bfirst).getD BIT32SZ 0 = t) :
    ∃ ap ret r' mnt', unpack g mnt r t size q channel = some (ret, r', mnt') ∧ (ret = 0 ∨ ret = -1) ∧
      Unpacked mnt r t q channel size ap ret r' mnt' := by
  have hlen : (if t = MsgType.Rread.code then ((BIT32SZ + BIT8SZ + BIT16SZ + BIT32SZ : ℕ) : ℤ) else int size) =
      (header t size : ℕ) := by
    rw [header, hint]
    split <;> rfl
  have hheader : header t size ≤ 1024 * 1024 := by
    rw [header]
    split <;> omega
  obtain ⟨b, l, hpull, hflat, hlong⟩ := pullupqueue_enough (q := q) (g := g 1) hheader hne hhead
  obtain ⟨ap, hap, haplen, haptake⟩ := handed_spec (l := l) (t := t) (hflat ▸ hn) hlong
  have hq' : Counted mnt.msize { q with bfirst := b :: l } := ⟨by rw [hflat, hq.dlen], by rw [hflat]; exact hq.small⟩
  rw [hflat] at haptake
  obtain ⟨buf, -, hquit⟩ | ⟨-, -, sz, -, reply, buf, hok, -⟩ := convM2S_cases ap r.reply
  · obtain ⟨q', hdiscard, hrest, hc⟩ := qdiscard_spec size hmsize hq'
    refine ⟨ap, -1, r, ⟨mnt.msize, q', channel⟩, ?_, .inr rfl, haplen, haptake, fun _ => ⟨rfl, rfl⟩, ?_, rfl, ?_, hc, rfl⟩
    · rw [unpack, hlen]
      refine Eq.trans (first_given hpull rfl hap _) ?_
      dsimp only
      rw [hquit, hint]
      dsimp only
      rw [hdiscard]
      rfl
    · rintro p ⟨n, buf', h⟩
      rw [hquit] at h
      cases h
    · rw [hrest, hflat]
  · obtain ⟨h7, hle⟩ := header_le hok
    rw [haplen] at h7 hle
    have hlow : BIT32SZ < header t size := by
      rw [header, BIT32SZ]
      split <;> omega
    have hcode : ap.getD BIT32SZ 0 = t := by
      have hlong : BIT32SZ < (ap.take (header t size)).length := by
        rw [List.length_take, haplen, BIT32SZ] at *
        omega
      have hthere : ((flat q.bfirst).take size).take (header t size) <+: flat q.bfirst :=
        (List.take_prefix _ _).trans (List.take_prefix _ _)
      rw [← prefix_getD (List.take_prefix _ _) hlong]
      rw [haptake] at hlong ⊢
      exact (prefix_getD hthere hlong).trans htype
    have hsplit : flat (b :: l) = (flat q.bfirst).take size ++ (flat q.bfirst).drop size := by
      rw [hflat, List.take_append_drop]
    rw [hcode] at hle
    obtain ⟨bs, q', hhang, hbs, hrest, hc⟩ := hang_spec (g := g 2) hmsize hq' hsplit
      (by rw [List.length_take, min_eq_left hn]) (by omega) hle fun b' hb' => by
        cases hb'
        exact hlong
    refine ⟨ap, 0, ⟨reply, bs⟩, ⟨mnt.msize, q', channel⟩, ?_, .inl rfl, haplen, haptake, ?_, ?_, rfl, hrest, hc, rfl⟩
    · rw [unpack, hlen]
      refine Eq.trans (first_given hpull rfl hap _) ?_
      dsimp only
      rw [hok, hint]
      dsimp only
      rw [hhang]
      rfl
    · rintro ⟨buf', h⟩
      rw [hok] at h
      cases h
    · rintro p ⟨n, buf', h⟩
      rw [hok] at h
      cases h
      exact ⟨rfl, rfl, hbs⟩

end Unpack

end Petele.Devmnt
