import Petele.Devmnt.Hostile

namespace Petele.Devmnt

open Lib Lib.LittleEndian Qio Qio.Buffer NineP

/-- A well-formed R-message; their types are the odd ones. -/
structure Message where
  type : MsgType
  tag : UInt16
  body : Body type
  odd : type.code.toNat % 2 = 1
  ok : (bodyF type).ok body

namespace Message

variable (m : Message)

/-- The length that the message is sent with. -/
def size : ℕ := 7 + ((bodyF m.type).enc m.body).length

def bytes : List UInt8 :=
  u32.enc (UInt32.ofNat m.size) ++ (u8.enc m.type.code ++ (u16.enc m.tag ++ (bodyF m.type).enc m.body))

/-- The data of an `Rread`; the other messages have none. -/
def data : List UInt8 :=
  match m.type, m.body with
  | .Rread, b => b
  | _, _ => []

@[simp] theorem bytes_length : m.bytes.length = m.size := by
  simp only [bytes, size, List.length_append, u32_length, u8_length, u16_length]
  omega

variable {m}

theorem size_toNat (h : m.size < 2 ^ 32) : (UInt32.ofNat m.size).toNat = m.size := UInt32.toNat_ofNat_of_lt' h

/-- `convM2S` takes the message. -/
theorem convM2S_bytes (h : m.size < 2 ^ 32) (f : Fcall Str ℕ) :
    ∃ reply buf, convM2S m.bytes f = .ok (m.size, reply) m.size buf := by
  obtain ⟨reply, buf, hok, -⟩ := convM2S_complete m.ok m.tag [] f (MsgType.ofCode_code m.type) (size_toNat h)
  rw [List.append_nil, size_toNat h] at hok
  exact ⟨reply, buf, hok⟩

/-- Of an `Rread` with `data` everything but the data is read. -/
theorem getBody_rread (f : Fcall Str ℕ) (pre data : List UInt8) (count : UInt32) (h : count.toNat = data.length) :
    (getBody f .Rread).run pre.length (pre ++ (u32.enc count ++ data)) =
      .ok { f with count := count, data := pre.length + 4 } (pre.length + 4 + data.length)
        (pre ++ (u32.enc count ++ data)) := by
  have hroom : (Cursor.room BIT32SZ).run pre.length (pre ++ (u32.enc count ++ data)) =
      .ok () pre.length (pre ++ (u32.enc count ++ data)) := by
    rw [Cursor.run_room, if_pos]
    rw [List.length_append, u32_length, BIT32SZ]
    exact Nat.le_add_right _ _
  have hcount : gbit32.run pre.length (pre ++ (u32.enc count ++ data)) =
      .ok count (pre.length + 4) (pre ++ (u32.enc count ++ data)) :=
    Gets.run_word_leBytes (fun _ h => GBIT32_eq h) pre data count.toNat_lt UInt32.ofNat_toNat
  have hdata : (Cursor.room count.toNat).run (pre.length + 4) (pre ++ (u32.enc count ++ data)) =
      .ok () (pre.length + 4) (pre ++ (u32.enc count ++ data)) := by
    have hrun := Cursor.run_room (pre ++ u32.enc count) data count.toNat
    rwa [if_pos h.le, List.length_append, u32_length, List.append_assoc] at hrun
  simp only [getBody, gdata]
  rw [Cursor.bind_ok _ hroom, Cursor.bind_ok _ hcount, Cursor.bind_assoc, Cursor.bind_ok _ hdata, h]
  rfl

/-- The reply to an `Rread` does not depend on the data. -/
theorem convM2S_rread (tag : UInt16) (data : List UInt8) (f : Fcall Str ℕ) (h : 11 + data.length < 2 ^ 32) :
    ∃ buf, convM2S (u32.enc (UInt32.ofNat (11 + data.length)) ++ (u8.enc MsgType.Rread.code ++ (u16.enc tag ++
        (u32.enc (UInt32.ofNat data.length) ++ data)))) f =
      .ok (11 + data.length,
          { f with type := MsgType.Rread.code, tag := tag, count := UInt32.ofNat data.length, data := 11 })
        (11 + data.length) buf := by
  have hsize : (UInt32.ofNat (11 + data.length)).toNat = 11 + data.length := UInt32.toNat_ofNat_of_lt' h
  have hlow : data.length < 2 ^ 32 := by omega
  have hcount : (UInt32.ofNat data.length).toNat = data.length := UInt32.toNat_ofNat_of_lt' hlow
  let pre := u32.enc (UInt32.ofNat (11 + data.length)) ++ (u8.enc MsgType.Rread.code ++ u16.enc tag)
  let todo := u32.enc (UInt32.ofNat data.length) ++ data
  have hpre : pre.length = 7 := by
    simp only [pre, List.length_append, u32_length, u8_length, u16_length]
  have hall : u32.enc (UInt32.ofNat (11 + data.length)) ++ (u8.enc MsgType.Rread.code ++ (u16.enc tag ++ todo)) =
      pre ++ todo := by
    simp only [pre, List.append_assoc]
  have hbody := getBody_rread { f with type := MsgType.Rread.code, tag := tag } pre data _ hcount
  have hroom : (Cursor.room 0).run (7 + 4 + data.length) (pre ++ todo) = .ok () (7 + 4 + data.length) (pre ++ todo) := by
    have hrun := Cursor.run_room (pre ++ todo) [] 0
    rw [if_pos (Nat.zero_le _), List.append_nil] at hrun
    rwa [show (pre ++ todo).length = 7 + 4 + data.length by
      rw [List.length_append, hpre, List.length_append, u32_length]
      omega] at hrun
  rw [hpre] at hbody
  rw [convM2S_run, hsize, if_neg (by omega), MsgType.ofCode_code, hall]
  dsimp only
  rw [Cursor.bind_ok _ hbody, Cursor.bind_ok _ hroom, Cursor.bind_ok _ (Cursor.run_here _ _), if_pos rfl]
  exact ⟨pre ++ todo, rfl⟩

theorem size_rread (tag : UInt16) (data : List UInt8) (odd ok) : size ⟨.Rread, tag, data, odd, ok⟩ = 11 + data.length := by
  have hbody : (bodyF .Rread).enc data = leBytes 4 data.length ++ data := rfl
  rw [size, hbody, List.length_append, leBytes_length]
  omega

/-- Such an `Rread` is a message. -/
theorem bytes_rread (tag : UInt16) (data : List UInt8) (odd ok) (h : 11 + data.length < 2 ^ 32) :
    bytes ⟨.Rread, tag, data, odd, ok⟩ = u32.enc (UInt32.ofNat (11 + data.length)) ++ (u8.enc MsgType.Rread.code ++
      (u16.enc tag ++ (u32.enc (UInt32.ofNat data.length) ++ data))) := by
  have hlow : data.length < 2 ^ 32 := by omega
  have hcount : (UInt32.ofNat data.length).toNat = data.length := UInt32.toNat_ofNat_of_lt' hlow
  have hbody : (bodyF .Rread).enc data = u32.enc (UInt32.ofNat data.length) ++ data := by
    rw [show u32.enc (UInt32.ofNat data.length) = leBytes 4 (UInt32.ofNat data.length).toNat from rfl, hcount]
    rfl
  rw [bytes, size_rread, hbody]

theorem code_ne (hother : m.type ≠ .Rread) : m.type.code ≠ MsgType.Rread.code := fun hcode => by
  have hsame := congrArg MsgType.ofCode hcode
  rw [MsgType.ofCode_code, MsgType.ofCode_code, Option.some_inj] at hsame
  exact hother hsame

/-- Only the header of a message decides what `convM2S` makes of it. -/
theorem convM2S_header (hsize : m.size < 2 ^ 32) {ap : List UInt8} (hlen : ap.length = m.size)
    (hhead : ap.take (header m.type.code m.size) = m.bytes.take (header m.type.code m.size)) (f : Fcall Str ℕ) :
    ∃ reply buf buf', convM2S m.bytes f = .ok (m.size, reply) m.size buf ∧
      convM2S ap f = .ok (m.size, reply) m.size buf' := by
  by_cases hread : m.type = .Rread
  · obtain ⟨t, tag, data, odd, ok⟩ := m
    subst hread
    rw [size_rread] at hsize hlen ⊢
    rw [header, if_pos rfl, bytes_rread tag data odd ok hsize] at hhead
    let pre := u32.enc (UInt32.ofNat (11 + data.length)) ++ (u8.enc MsgType.Rread.code ++
      (u16.enc tag ++ u32.enc (UInt32.ofNat data.length)))
    have hpre : pre.length = 11 := by
      simp only [pre, List.length_append, u32_length, u8_length, u16_length]
    have hdrop : (ap.drop 11).length = data.length := by
      rw [List.length_drop]
      omega
    have hap : ap = u32.enc (UInt32.ofNat (11 + (ap.drop 11).length)) ++ (u8.enc MsgType.Rread.code ++
        (u16.enc tag ++ (u32.enc (UInt32.ofNat (ap.drop 11).length) ++ ap.drop 11))) := by
      have hsplit : ap.take 11 = pre := by
        have hleft : (pre ++ data).take 11 = pre := List.take_left' hpre
        rw [hhead, ← hleft]
        simp only [pre, List.append_assoc]
      rw [hdrop]
      calc ap = ap.take 11 ++ ap.drop 11 := (List.take_append_drop 11 ap).symm
        _ = pre ++ ap.drop 11 := by rw [hsplit]
        _ = _ := by simp only [pre, List.append_assoc]
    obtain ⟨buf, hok⟩ := convM2S_rread tag data f hsize
    obtain ⟨buf', hok'⟩ := convM2S_rread tag (ap.drop 11) f (by omega)
    rw [← hap, hdrop] at hok'
    rw [bytes_rread tag data odd ok hsize]
    exact ⟨_, buf, buf', hok, hok'⟩
  · rw [header, if_neg (code_ne hread), List.take_of_length_le hlen.le, List.take_of_length_le (bytes_length m).le] at hhead
    obtain ⟨reply, buf, hok⟩ := convM2S_bytes hsize f
    exact ⟨reply, buf, buf, hok, hhead ▸ hok⟩

theorem data_other (hother : m.type ≠ .Rread) : m.data = [] := by
  obtain ⟨t, tag, b, odd, ok⟩ := m
  cases t with
  | Rread => exact absurd rfl hother
  | _ => rfl

theorem header_le_size (m : Message) : header m.type.code m.size ≤ m.size := by
  by_cases hread : m.type = .Rread
  · obtain ⟨t, tag, b, odd, ok⟩ := m
    subst hread
    rw [size_rread, header, if_pos rfl]
    exact Nat.le_add_right _ _
  · rw [header, if_neg (code_ne hread)]

/-- The bytes behind the header are the data. -/
theorem bytes_drop (h : m.size < 2 ^ 32) : m.bytes.drop (header m.type.code m.size) = m.data := by
  by_cases hread : m.type = .Rread
  · obtain ⟨t, tag, b, odd, ok⟩ := m
    subst hread
    rw [size_rread] at h
    rw [header, if_pos rfl, bytes_rread tag b odd ok h]
    simp only [← List.append_assoc]
    rw [List.drop_left' (by simp only [List.length_append, u32_length, u8_length, u16_length])]
    rfl
  · rw [header, if_neg (code_ne hread), data_other hread, ← bytes_length, List.drop_length]

/-- The first bytes of a stream are the length and the type of the message that it begins with. -/
theorem stream_size {mnt : Mnt} {rest : List UInt8} (h : m.size < 2 ^ 32) (hstream : mnt.stream = m.bytes ++ rest) :
    mnt.size = m.size ∧ mnt.type = m.type.code := by
  rw [bytes, List.append_assoc, List.append_assoc] at hstream
  constructor
  · have hfront : u32.enc (UInt32.ofNat m.size) <+: mnt.stream := by
      rw [hstream]
      exact List.prefix_append _ _
    have hread : GBIT32 (u32.enc (UInt32.ofNat m.size)) = UInt32.ofNat m.size := by
      rw [GBIT32_eq (u32_length _)]
      change UInt32.ofNat (leVal (leBytes 4 (UInt32.ofNat m.size).toNat)) = _
      have hlow : (UInt32.ofNat m.size).toNat < 256 ^ 4 := UInt32.toNat_lt _
      rw [leVal_leBytes, Nat.mod_eq_of_lt hlow, UInt32.ofNat_toNat]
    rw [Mnt.size, ← prefix_GBIT32 hfront (u32_length _).ge, hread, size_toNat h]
  · rw [Mnt.type, hstream, List.getD_append_right _ _ _ _ (by rw [u32_length, BIT32SZ]), u32_length, BIT32SZ,
      u8_enc]
    rfl

end Message

section Framing

variable {g : ℕ → Grant} {mnt : Mnt} {r : Mntrpc} {m : Message} {rest : List UInt8}

/-- What a call is to make of a message. -/
structure Message.Received (m : Message) (r : Mntrpc) (ret : ℤ × Mntrpc) : Prop where
  returned : ret.1 = 0
  reply : ∃ buf, convM2S m.bytes r.cleared.reply = .ok (m.bytes.length, ret.2.reply) m.bytes.length buf
  data : flat ret.2.b = m.data

/-- One message is received. -/
theorem mntrpcread_message (h : mnt.Ok) (hstream : mnt.stream = m.bytes ++ rest) (hsmall : m.bytes.length ≤ mnt.msize) :
    ∃ ret r' mnt', mntrpcread g mnt r = some (ret, r', mnt') ∧ m.Received r (ret, r') ∧ mnt'.Ok ∧
      mnt'.msize = mnt.msize ∧ mnt'.stream = rest ∧ mnt'.channel <:+ mnt.channel := by
  have hmsize := h.size
  rw [Message.bytes_length] at hsmall
  have hlow : m.size < 2 ^ 32 := by omega
  have h7 : 7 ≤ m.size := Nat.le_add_right _ _
  have hlong : mnt.stream.length = m.size + rest.length := by
    rw [hstream, List.length_append, Message.bytes_length]
  obtain ⟨hsize, htype⟩ := Message.stream_size hlow hstream
  have hint : int mnt.size = mnt.size := int_eq (by omega)
  obtain ⟨nb, q, channel, hread, hpulled⟩ := mntrpcread_header (g := g) (r := r) h (by omega)
  obtain ⟨q', channel', hunpack, hq', hsuff, hall, hlen, -, -⟩ :=
    hpulled.message_whole (g := g) (r := r.cleared) hmsize (by omega) (by omega)
  have hhead : header mnt.type mnt.size ≤ mnt.size := by
    rw [hsize, htype]
    exact m.header_le_size
  have hfront : flat q'.bfirst <+: mnt.stream := by
    rw [← hall]
    exact List.prefix_append _ _
  have hthere : (flat q'.bfirst).getD BIT32SZ 0 = mnt.type := prefix_getD hfront (by rw [BIT32SZ]; omega)
  obtain ⟨ap, ret, r', mnt', hret, -, hdone⟩ := unpack_whole g r.cleared channel' hmsize.2 hq' hint
    (bfirst_ne_nil (by omega)) (by omega) (by omega) (by omega) hthere
  -- The message is in front of the queue.
  have hmessage : (flat q'.bfirst).take mnt.size = m.bytes := by
    have htake := congrArg (List.take m.size) (hall.trans hstream)
    rw [List.take_append_of_le_length (by omega), List.take_left' m.bytes_length] at htake
    rw [hsize, htake]
  have hrest : (flat q'.bfirst).drop mnt.size ++ arriving channel' = rest := by
    have hdrop := congrArg (List.drop m.size) (hall.trans hstream)
    rw [List.drop_append_of_le_length (by omega), List.drop_left' m.bytes_length] at hdrop
    rw [hsize, hdrop]
  have htake := hdone.ap_take
  rw [hmessage, hsize, htype] at htake
  obtain ⟨reply, buf, buf', hm, hap⟩ := Message.convM2S_header hlow (hdone.ap_length.trans hsize) htake r.cleared.reply
  obtain ⟨hzero, hreply, hdata⟩ := hdone.taken (m.size, reply) ⟨_, _, hap⟩
  rw [hmessage, hsize, htype, Message.bytes_drop hlow] at hdata
  refine ⟨ret, r', mnt', by rw [hread, hunpack, hret], ⟨hzero, ⟨buf, ?_⟩, hdata⟩, ⟨?_, ?_, ?_⟩, hdone.msize, ?_, ?_⟩
  · rw [hm, Message.bytes_length, hreply]
  · rw [hdone.msize]
    exact hmsize
  · rw [hdone.msize]
    exact hdone.counted
  · rw [hdone.msize, hdone.channel]
    exact fun b hb => h.channel b (hsuff.subset hb)
  · rw [Mnt.stream, hdone.rest, hdone.channel, hrest]
  · rw [hdone.channel]
    exact hsuff

theorem arriving_eq {channel : List (List Buffer)} (h : ∀ b ∈ channel, flat b ≠ []) :
    arriving channel = channel.flatMap Buffer.flat := by
  induction channel with
  | nil => rfl
  | cons b channel ih =>
    rw [arriving, if_neg (h b List.mem_cons_self), ih fun b hb => h b (List.mem_cons_of_mem _ hb), List.flatMap_cons]

/-- However the channel cuts the messages, they are received one by one and in order, and what is behind them stays in the
queue and in the channel. -/
theorem mntrpcreads_messages (h : mnt.Ok) (hchannel : ∀ b ∈ mnt.channel, flat b ≠ []) (ms : List Message)
    (hstream : flat mnt.q.bfirst ++ mnt.channel.flatMap Buffer.flat = ms.flatMap Message.bytes ++ rest)
    (hsmall : ∀ m ∈ ms, m.bytes.length ≤ mnt.msize) (rs : List ((ℕ → Grant) × Mntrpc)) (hrs : rs.length = ms.length) :
    ∃ rets mnt', mntrpcreads mnt rs = some (rets, mnt') ∧ rets.length = ms.length ∧
      (∀ (i : ℕ) (m : Message) (call : (ℕ → Grant) × Mntrpc) (ret : ℤ × Mntrpc),
        ms[i]? = some m → rs[i]? = some call → rets[i]? = some ret → m.Received call.2 ret) ∧
      flat mnt'.q.bfirst ++ mnt'.channel.flatMap Buffer.flat = rest ∧ mnt'.channel <:+ mnt.channel ∧ mnt'.Ok := by
  induction ms generalizing mnt rs with
  | nil =>
    obtain rfl : rs = [] := List.eq_nil_of_length_eq_zero hrs
    exact ⟨[], mnt, rfl, rfl, fun i m call ret hm => (by cases hm), hstream, List.suffix_rfl, h⟩
  | cons m ms ih =>
    obtain ⟨⟨g, r⟩, rs, rfl⟩ := List.exists_cons_of_length_eq_add_one hrs
    have hfirst : mnt.stream = m.bytes ++ (ms.flatMap Message.bytes ++ rest) := by
      rw [Mnt.stream, arriving_eq hchannel, hstream, List.flatMap_cons, List.append_assoc]
    obtain ⟨ret, r', mnt₁, hread, hm, hok, hmsize, hrest, hsuff⟩ :=
      mntrpcread_message (g := g) (r := r) h hfirst (hsmall m List.mem_cons_self)
    have hchannel₁ : ∀ b ∈ mnt₁.channel, flat b ≠ [] := fun b hb => hchannel b (hsuff.subset hb)
    rw [Mnt.stream, arriving_eq hchannel₁] at hrest
    obtain ⟨rets, mnt', hreads, hlen, hms, hrest', hsuff', hok'⟩ := ih hok hchannel₁ hrest
      (fun m hm => by rw [hmsize]; exact hsmall m (List.mem_cons_of_mem _ hm)) rs (Nat.succ.inj hrs)
    refine ⟨(ret, r') :: rets, mnt', ?_, by rw [List.length_cons, hlen, List.length_cons], ?_, hrest',
      hsuff'.trans hsuff, hok'⟩
    · simp only [mntrpcreads, hread, hreads, Option.bind_eq_bind, Option.bind_some, Option.pure_def]
    · rintro (_ | i) m' call ret' hm' hcall hret'
      · cases hm'
        cases hcall
        cases hret'
        exact hm
      · exact hms i m' call ret' hm' hcall hret'

/-- A mount whose server sends the packets one by one. -/
def cutting (packets : List (List UInt8)) (h : ∀ bs ∈ packets, bs.length ≤ 8192) : Mnt :=
  ⟨8192, ⟨[], 0, 0⟩, packets.attach.map fun bs => [packet bs.1 (h bs.1 bs.2)]⟩

theorem cutting_ok (packets : List (List UInt8)) (h : ∀ bs ∈ packets, bs.length ≤ 8192) : (cutting packets h).Ok where
  size := ⟨Nat.le_add_left 256 7936, Nat.le_add_left 8192 1040384⟩
  counted := ⟨rfl, Nat.zero_le _⟩
  channel b hb := by
    obtain ⟨bs, -, rfl⟩ := List.mem_map.mp hb
    rw [flat_cons, flat_nil, List.append_nil]
    exact h bs.1 bs.2

/-- The data of an `Rread`. -/
def letters : Message := ⟨.Rread, 1, [65, 66], rfl, ⟨⟨by decide, by decide⟩, rfl⟩⟩

/-- An `Rread` that is cut in the middle of its header and of its data, with a byte of the next message behind it. -/
theorem mntrpcreads_letters :
    ∃ rets mnt', mntrpcreads (cutting [[13, 0], [0, 0, 117, 1, 0, 2, 0], [0, 0, 65], [66, 7]] (by decide))
        [(fun _ => ungranting, blank)] = some (rets, mnt') ∧ rets.length = 1 ∧
      (∀ ret, rets[0]? = some ret → letters.Received blank ret) ∧
      flat mnt'.q.bfirst ++ mnt'.channel.flatMap Buffer.flat = [7] := by
  have hok := cutting_ok [[13, 0], [0, 0, 117, 1, 0, 2, 0], [0, 0, 65], [66, 7]] (by decide)
  have hstream : ([] : List UInt8) ++ ([[13, 0], [0, 0, 117, 1, 0, 2, 0], [0, 0, 65], [66, 7]] : List (List UInt8)).flatten =
      [letters].flatMap Message.bytes ++ [7] := by decide
  obtain ⟨rets, mnt', hreads, hlen, hms, hrest, -⟩ :=
    mntrpcreads_messages hok (by decide) [letters] hstream (by decide) [(fun _ => ungranting, blank)] rfl
  exact ⟨rets, mnt', hreads, hlen, fun ret hret => hms 0 _ _ ret rfl rfl hret, hrest⟩

end Framing

end Petele.Devmnt
