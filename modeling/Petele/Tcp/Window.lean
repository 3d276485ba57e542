import Petele.Tcp.Seq

namespace Petele.Tcp.Window

open Lib

def QMAX : ℕ := 64 * 1024 - 1

def Maxqscale : ℕ := 4

/-- The states of a conversation from `Established` on. -/
inductive State where
  | Established | Finwait1 | Finwait2 | CloseWait | Closing | LastAck | TimeWait | Closed
deriving DecidableEq

/-- What is read of a segment's header. -/
structure Seg where
  seq : ℕ
  urg : ℕ
  SYN : Bool
  FIN : Bool
  RST : Bool
  ACK : Bool
  URG : Bool
deriving DecidableEq

structure Rcv where
  nxt : ℕ
  wnd : ℕ
  wsnt : ℕ
  wptr : ℕ
  urg : ℕ
  ackptr : ℕ
  blocked : Bool
  scale : ℕ

/-- A segment that waits for those before it. Its blocks have `length` bytes. -/
structure Reseq where
  seg : Seg
  length : ℕ

/-- What a conversation receives by. Only statements read `pos`: so many sequence numbers were received since
the peer's SYN. -/
structure Conv where
  state : State
  rcv : Rcv
  sndscale : ℕ
  irs : ℤ
  mss : ℕ
  window : ℕ
  FORCE : Bool
  reseq : List Reseq
  nreseq : ℤ
  reseqlen : ℤ
  /-- The bytes in the read queue. -/
  rq : ℕ
  pos : ℤ

/-- A segment that was sent: its fields `ack` and `win`, and of the time it was sent `wptr` and `pos`. -/
structure Sent where
  ack : ℕ
  win : ℕ
  wptr : ℕ
  pos : ℤ

def seqwithin (x low high : ℕ) : Bool := if low ≤ high then low ≤ x && x ≤ high else low ≤ x || x ≤ high

def tcprcvwin (s : Conv) : Conv :=
  let w := wrap (s.window - s.rq)
  let w := if w < 0 then 0 else w
  let w := if seqlt (ulong (s.rcv.nxt + w)) s.rcv.wptr then wrap (s.rcv.wptr - s.rcv.nxt) else w
  let small := w >>> (s.rcv.scale % 32) = 0 ∨ s.window > 4 * s.mss ∧ w < s.mss / 4
  { s with rcv := { s.rcv with
      blocked := if ulong w ≠ s.rcv.wnd ∧ small then true else s.rcv.blocked
      wnd := ulong w
      wptr := ulong (s.rcv.nxt + w) } }

def inwindow (r : Rcv) (seq : ℕ) : Bool := seqwithin seq r.nxt (ulong (r.nxt + r.wnd - 1))

/-- Whether some part of a segment is in the window. -/
def accept (r : Rcv) (seg : Seg) (len : ℕ) : Bool :=
  inwindow r seg.seq || len ≠ 0 && (inwindow r (ulong (seg.seq + len - 1)) ||
    seqwithin r.nxt seg.seq (ulong (seg.seq + len - 1)))

def trimsyn (seg : Seg) : Seg :=
  if seg.SYN then
    if seg.urg > 1 then { seg with SYN := false, seq := ulong (seg.seq + 1), urg := seg.urg - 1 }
    else { seg with SYN := false, seq := ulong (seg.seq + 1), URG := false }
  else seg

/-- What was received before goes, which are `dupcnt` numbers. -/
def trimdup (dupcnt : ℤ) (seg : Seg) (length : ℕ) : Seg × ℕ :=
  if dupcnt > 0 then
    let seg' := trimsyn seg
    let dupcnt := if seg.SYN then dupcnt - 1 else dupcnt
    if dupcnt > 0 then
      (if seg'.urg > dupcnt then { seg' with seq := ulong (seg'.seq + dupcnt), urg := (seg'.urg - dupcnt).toNat }
        else { seg' with seq := ulong (seg'.seq + dupcnt), URG := false, urg := 0 },
        ((length - dupcnt) % 2 ^ 16).toNat)
    else (seg', length)
  else (seg, length)

def trimexcess (r : Rcv) (seg : Seg) (length : ℕ) : Seg × ℕ :=
  let excess := wrap (seg.seq + length - (r.nxt + r.wnd))
  if excess > 0 then ({ seg with FIN := false }, ((length - excess) % 2 ^ 16).toNat) else (seg, length)

/-- The part of a segment that is in the window, if any is. -/
def tcptrim (r : Rcv) (seg : Seg) (length : ℕ) : Option (Seg × ℕ) :=
  let len := (length + seg.SYN.toNat + seg.FIN.toNat) % 2 ^ 16
  if r.wnd = 0 then if len = 0 ∧ seg.seq = r.nxt then some (seg, length) else none
  else if accept r seg len then
    let (seg, length) := trimdup (wrap (r.nxt - seg.seq)) seg length
    some (trimexcess r seg length)
  else none

def dumpreseq (s : Conv) : Conv := { s with reseq := [], nreseq := 0, reseqlen := 0 }

def localclose (s : Conv) : Conv := { dumpreseq s with state := .Closed }

def insertreseq (rp : Reseq) : List Reseq → List Reseq
  | [] => [rp]
  | rr :: rs => if seqlt rp.seg.seq rr.seg.seq then rp :: rr :: rs else rr :: insertreseq rp rs

/-- The segment is lost, if there is no memory for it. -/
def addreseq (memory : Bool) (seg : Seg) (length : ℕ) (s : Conv) : Conv :=
  if memory then
    let s := { s with
      reseq := insertreseq ⟨seg, length⟩ s.reseq
      nreseq := s.nreseq + 1
      reseqlen := s.reseqlen + length }
    if s.reseqlen > s.window then dumpreseq s
    else if s.nreseq > s.window / s.mss then dumpreseq s
    else s
  else s

/-- The header of a segment that acknowledges, from what `tcprcvwin` has left. -/
def sent (s : Conv) : Sent := ⟨s.rcv.nxt, s.rcv.wnd >>> s.sndscale % 2 ^ 16, s.rcv.wptr, s.pos⟩

/-- What a turn of the loop in `tcpoutput` depends on besides: the bytes that the application has read since,
whether the sending side has a segment to go, whether there is memory for a header and whether there is a
route. -/
structure Turn where
  read : ℕ
  more : Bool
  hbp : Bool
  route : Bool

/-- An acknowledgement is forced when a window has opened up. -/
def opened (s : Conv) : Conv :=
  if s.rcv.blocked ∧ s.rcv.wnd > 0 then { s with rcv := { s.rcv with blocked := false }, FORCE := true } else s

def acksent (s : Conv) : Conv :=
  { s with FORCE := false, rcv := { s.rcv with ackptr := s.rcv.nxt, wsnt := s.rcv.wptr } }

/-- A turn of the loop in `tcpoutput`, which goes on after a segment was sent. -/
def turn (t : Turn) (s : Conv) : Conv × Option Sent :=
  if s.state = .Closed ∨ s.state = .Finwait2 then (s, none)
  else
    let s := opened (tcprcvwin { s with rq := s.rq - t.read })
    if ¬ s.FORCE ∧ ¬ t.more then (s, none)
    else if t.hbp then (if t.route then acksent s else localclose (acksent s), some (sent s))
    else ({ s with FORCE := false }, none)

def outloop : List Turn → Conv → Conv × List Sent
  | [], s => (s, [])
  | t :: ts, s =>
    match turn t s with
    | (s, none) => (s, [])
    | (s, some a) => ((outloop ts s).1, a :: (outloop ts s).2)

def tcpoutput (ts : List Turn) (s : Conv) : Conv × List Sent :=
  let s := { s with FORCE := s.FORCE || decide (ulong (s.rcv.nxt - s.rcv.ackptr) ≥ 2 * s.mss) }
  if s.FORCE then outloop ts s
  else
    let s := tcprcvwin s
    outloop ts { s with FORCE := wrap (s.rcv.wptr - s.rcv.wsnt) ≥ 2 * s.mss }

def tcpsendka (s : Conv) : Conv × Sent :=
  let s := tcprcvwin { s with rcv := { s.rcv with ackptr := s.rcv.nxt } }
  (s, sent s)

/-- So many sequence numbers are received. -/
def advance (n : ℕ) (s : Conv) : Conv :=
  { s with rcv := { s.rcv with nxt := ulong (s.rcv.nxt + n) }, pos := s.pos + n }

/-- Where a call of `tcpiput` stands: it is over, it has a segment before it, or `tcpoutput` comes next. -/
inductive Next where
  | done
  | segment (seg : Seg) (length : ℕ)
  | output

/-- The next segment that is in order, of those in the resequencing queue. -/
def nextreseq : List Reseq → Conv → Conv × Next
  | [], s => ({ s with reseq := [] }, .output)
  | r :: rs, s =>
    if seqge s.rcv.nxt r.seg.seq then
      let s := tcprcvwin { s with reseq := rs, nreseq := s.nreseq - 1, reseqlen := s.reseqlen - r.length }
      match tcptrim s.rcv r.seg r.length with
      | some (seg, length) => ({ s with FORCE := true }, .segment seg length)
      | none => nextreseq rs s
    else ({ s with reseq := r :: rs }, .output)

/-- The first part of `tcpiput`, up to its loop. `emptied` says that all is acknowledged that was to be sent, and
`hog` that the peer has forgotten the connection. -/
def tcpiput (emptied hog memory : Bool) (seg : Seg) (length : ℕ) (s : Conv) : Conv × Next :=
  if s.state = .Closed then (s, .done)
  else
    let s := tcprcvwin (if hog ∧ ¬ seg.RST then localclose s else s)
    match tcptrim s.rcv seg length with
    | none =>
      let s := if emptied ∧ s.state = .Closing then { s with state := .TimeWait } else s
      if seg.RST then (s, .done) else ({ s with FORCE := true }, .output)
    | some (seg, length) =>
      if length ≠ 0 ∧ s.state = .Closed then (s, .done)
      else if seg.seq ≠ s.rcv.nxt ∧ (length ≠ 0 ∨ seg.SYN ∨ seg.FIN) then
        ({ addreseq memory seg length s with FORCE := true }, .output)
      else (if s.nreseq > 0 then { s with FORCE := true } else s, .segment seg length)

/-- The state after an acknowledgement, and whether the loop goes on. -/
def acked (emptied : Bool) (s : Conv) : Conv × Bool :=
  match s.state with
  | .Finwait1 => (if emptied then { s with state := .Finwait2 } else s, true)
  | .Closing => (if emptied then { s with state := .TimeWait } else s, true)
  | .LastAck => if emptied then (localclose s, false) else ({ s with FORCE := true }, true)
  | .TimeWait => ({ s with FORCE := true }, true)
  | _ => (s, true)

/-- The urgent data are taken out of the segment, which leaves so many bytes of it. -/
def urgent (seg : Seg) (length : ℕ) (s : Conv) : Conv × ℕ :=
  if seg.URG ∧ seg.urg ≠ 0 then
    if seqgt (ulong (seg.urg + seg.seq)) s.rcv.urg then
      ({ s with rcv := { s.rcv with urg := ulong (seg.urg + seg.seq) } }, length - seg.urg)
    else (s, length)
  else if seqgt s.rcv.nxt s.rcv.urg then ({ s with rcv := { s.rcv with urg := s.rcv.nxt } }, length)
  else (s, length)

def fin (emptied : Bool) (s : Conv) : Conv :=
  let s := { s with FORCE := true }
  match s.state with
  | .Established => { advance 1 s with state := .CloseWait }
  | .Finwait1 => { advance 1 s with state := if emptied then .TimeWait else .Closing }
  | .Finwait2 => { advance 1 s with state := .TimeWait }
  | _ => s

/-- A turn of the loop in `tcpiput`. -/
def inloop (emptied : Bool) (seg : Seg) (length : ℕ) (s : Conv) : Conv × Next :=
  if seg.RST then (localclose s, .done)
  else if ¬ seg.ACK then (s, .done)
  else
    let (s, goon) := acked emptied s
    if ¬ goon then (s, .done)
    else
      let (s, bytes) := urgent seg length s
      if length ≠ 0 ∧ s.state = .Finwait2 then (s, .done)
      else
        let s := if length ≠ 0 ∧ (s.state = .Established ∨ s.state = .Finwait1) then
            advance length { s with rq := s.rq + bytes }
          else s
        let s := if seg.FIN then fin emptied s else s
        nextreseq s.reseq s

structure Sys where
  conv : Conv
  next : Next
  sent : List Sent

/-- A call of `tcpoutput` out of `update` leaves the segment where it is. -/
def Next.after : Next → Next
  | .segment seg length => .segment seg length
  | _ => .done

/-- The application reads at any time. The lock of the conversation is free when no call of `tcpiput` is under way,
and for a while after some turns of `tcpoutput`, which then goes on. -/
inductive Step : Sys → Sys → Prop
  | read (n : ℕ) (c x l) : Step ⟨c, x, l⟩ ⟨{ c with rq := c.rq - n }, x, l⟩
  | state (st : State) (c x l) : Step ⟨c, x, l⟩ ⟨{ c with state := st }, x, l⟩
  | rcvwin (c x l) : Step ⟨c, x, l⟩ ⟨tcprcvwin c, x, l⟩
  | output {ts : List Turn} (hts : ts.length ≤ 100) (c x l) :
      Step ⟨c, x, l⟩ ⟨(tcpoutput ts c).1, x.after, l ++ (tcpoutput ts c).2⟩
  | resume {ts : List Turn} (hts : ts.length ≤ 100) (c l) :
      Step ⟨c, .done, l⟩ ⟨(outloop ts c).1, .done, l ++ (outloop ts c).2⟩
  | sendka (c l) : Step ⟨c, .done, l⟩ ⟨(tcpsendka c).1, .done, l ++ [(tcpsendka c).2]⟩
  | input {seg : Seg} {length : ℕ} (emptied hog memory : Bool) (hseq : seg.seq < 2 ^ 32) (hlen : length + 20 < 2 ^ 16)
      (c l) : Step ⟨c, .done, l⟩
        ⟨(tcpiput emptied hog memory seg length c).1, (tcpiput emptied hog memory seg length c).2, l⟩
  | loop (emptied : Bool) (seg length c l) : Step ⟨c, .segment seg length, l⟩
      ⟨(inloop emptied seg length c).1, (inloop emptied seg length c).2, l⟩

/-- How far the right edge of the window is ahead of what was received. -/
def room (s : Conv) : ℤ := wrap (s.rcv.wptr - s.rcv.nxt)

/-- The position of the right edge, counted like `pos`. -/
def edge (s : Conv) : ℤ := s.pos + room s

/-- An established conversation. -/
structure Start (s : Sys) : Prop where
  state : s.conv.state = .Established
  next : s.next = .done
  sent : s.sent = []
  reseq : s.conv.reseq = []
  window : ∃ qscale ≤ Maxqscale, s.conv.window = QMAX <<< qscale
  nxt : s.conv.rcv.nxt = ulong (s.conv.irs + 1 + s.conv.pos)
  wptr : s.conv.rcv.wptr < 2 ^ 32
  low : 0 ≤ room s.conv
  high : room s.conv ≤ s.conv.window
  rq : s.conv.rq < 2 ^ 30

/-- Runs with fewer than 2^30 bytes queued. -/
inductive Runs (s : Sys) : Sys → Prop
  | refl : Runs s s
  | step {t u : Sys} (h : Runs s t) (hstep : Step t u) (hrq : u.conv.rq < 2 ^ 30) : Runs s u

section Numbers

variable {x low high : ℕ} {r : Rcv} {seg seg' : Seg} {length length' : ℕ} {d e : ℤ}

theorem seqwithin_iff (hx : x < 2 ^ 32) (hlow : low < 2 ^ 32) (hhigh : high < 2 ^ 32) :
    seqwithin x low high ↔ ((x : ℤ) - low) % 2 ^ 32 ≤ ((high : ℤ) - low) % 2 ^ 32 := by
  rw [seqwithin]
  split
  · rw [Bool.and_eq_true, decide_eq_true_iff, decide_eq_true_iff]
    omega
  · rw [Bool.or_eq_true, decide_eq_true_iff, decide_eq_true_iff]
    omega

/-- A segment that begins `d` behind what was received, with a window of `e` numbers. -/
structure At (r : Rcv) (seg : Seg) (d e : ℤ) : Prop where
  nxt : r.nxt < 2 ^ 32
  seq : seg.seq = ulong (r.nxt + d)
  wnd : (r.wnd : ℤ) = e
  high : e ≤ 2 ^ 20
  near : -2 ^ 31 ≤ d ∧ d < 2 ^ 31

theorem At.accept_iff (h : At r seg d e) (hpos : 0 < e) {len : ℕ} (hlen : len < 2 ^ 16) :
    accept r seg len ↔ 0 ≤ d ∧ d < e ∨ d < 0 ∧ 0 < d + len := by
  obtain ⟨hnxt, hseq, hwnd, hhigh, hnear⟩ := h
  have hs := ulong_eq (r.nxt + d)
  rw [← hseq] at hs
  have hin : ∀ z : ℤ, inwindow r (ulong z) ↔ (z - r.nxt) % 2 ^ 32 < e := fun z => by
    rw [inwindow, seqwithin_iff (ulong_lt _) hnxt (ulong_lt _), ulong_eq, ulong_eq]
    omega
  have hself : ulong seg.seq = seg.seq := by
    have hlt : seg.seq < 2 ^ 32 := hseq ▸ ulong_lt _
    have := ulong_eq seg.seq
    omega
  have hfirst := hin seg.seq
  rw [hself] at hfirst
  rw [accept, Bool.or_eq_true, Bool.and_eq_true, Bool.or_eq_true, hfirst, hin,
    seqwithin_iff hnxt (hseq ▸ ulong_lt _) (ulong_lt _), ulong_eq, decide_eq_true_iff]
  omega

/-- What was received before is cut off, and the segment then begins with what is expected next. -/
theorem At.trimdup_neg (length : ℕ) (h : At r seg d e) (hneg : d < 0) (hfit : -d ≤ length + seg.SYN.toNat) (hlen : length < 2 ^ 16) :
    (trimdup (-d) seg length).1.seq = r.nxt ∧ ((trimdup (-d) seg length).2 : ℤ) = length + seg.SYN.toNat + d := by
  obtain ⟨hnxt, hseq, -, -, hnear⟩ := h
  have hs := ulong_eq (r.nxt + d)
  rw [← hseq] at hs
  have hback : ∀ k : ℤ, (seg.seq + k) % 2 ^ 32 = r.nxt → ulong (seg.seq + k) = r.nxt := fun k hk => by
    have := ulong_eq (seg.seq + k)
    omega
  have hlt : seg.seq < 2 ^ 32 := hseq ▸ ulong_lt _
  rw [trimdup, if_pos (by omega)]
  have hnext : (trimsyn seg).seq = ulong (seg.seq + seg.SYN.toNat) := by
    rw [trimsyn]
    cases seg.SYN with
    | false =>
      rw [if_neg Bool.false_ne_true, Bool.toNat_false, Int.natCast_zero, Int.add_zero, ulong_eq_self hlt]
    | true =>
      rw [if_pos rfl]
      split <;> rfl
  have hone := ulong_eq (seg.seq + seg.SYN.toNat)
  have hdup : (if seg.SYN then -d - 1 else -d) = -d - seg.SYN.toNat := by
    cases seg.SYN <;> simp
  dsimp only
  rw [hdup]
  split
  · have hrest : ulong ((trimsyn seg).seq + (-d - seg.SYN.toNat)) = r.nxt := by
      have := ulong_eq ((trimsyn seg).seq + (-d - seg.SYN.toNat))
      omega
    refine ⟨?_, by dsimp only; omega⟩
    split <;> exact hrest
  · exact ⟨hnext.trans (hback seg.SYN.toNat (by omega)), by dsimp only; omega⟩

theorem At.trimexcess_length (length : ℕ) (h : At r seg d e) (hd : 0 ≤ d) (hde : d ≤ e) (hlen : length < 2 ^ 16) :
    (trimexcess r seg length).1.seq = seg.seq ∧ (trimexcess r seg length).2 ≤ length ∧
      ((trimexcess r seg length).2 : ℤ) ≤ e - d := by
  obtain ⟨hnxt, hseq, hwnd, hhigh, hnear⟩ := h
  have hs := ulong_eq (r.nxt + d)
  rw [← hseq] at hs
  have hexcess : wrap (seg.seq + length - (r.nxt + r.wnd)) = d + length - e := by
    rw [wrap_eq]
    omega
  rw [trimexcess, hexcess]
  split
  · exact ⟨rfl, by dsimp only; omega, by dsimp only; omega⟩
  · exact ⟨rfl, le_rfl, by dsimp only; omega⟩

/-- What is kept of a segment fits into the window. -/
theorem At.tcptrim_fits (h : At r seg d e) (hpos : 0 ≤ e) (hlen : length + 20 < 2 ^ 16)
    (ht : tcptrim r seg length = some (seg', length')) :
    seg'.seq < 2 ^ 32 ∧ length' + 20 < 2 ^ 16 ∧ (length' : ℤ) ≤ e := by
  have hlt : seg.seq < 2 ^ 32 := h.seq ▸ ulong_lt _
  have hbits : seg.SYN.toNat ≤ 1 ∧ seg.FIN.toNat ≤ 1 := ⟨Bool.toNat_le _, Bool.toNat_le _⟩
  have hwnd := h.wnd
  rw [tcptrim] at ht
  dsimp only at ht
  split_ifs at ht with hzero hempty haccept
  · obtain ⟨rfl, rfl⟩ := Prod.mk.inj (Option.some.inj ht)
    exact ⟨hlt, hlen, by omega⟩
  · rw [h.accept_iff (by omega) (Nat.mod_lt _ (by decide)), Nat.mod_eq_of_lt (by omega)] at haccept
    have hs := ulong_eq (r.nxt + d)
    rw [← h.seq] at hs
    have hnear := h.near
    have hnxt := h.nxt
    have hdup : wrap (r.nxt - seg.seq) = -d := by
      rw [wrap_eq]
      omega
    rw [hdup] at ht
    rcases haccept with ⟨hd, hde⟩ | ⟨hd, hfit⟩
    · rw [trimdup, if_neg (by omega)] at ht
      obtain ⟨hseq, hle, hfits⟩ := At.trimexcess_length length h hd (by omega) (by omega)
      rw [Option.some.inj ht] at hseq hle hfits
      exact ⟨by rw [hseq]; exact hlt, by omega, by omega⟩
    · push_cast at hfit
      obtain ⟨hseq, hlength⟩ := At.trimdup_neg length h hd (by omega) (by omega)
      have hat : At r (trimdup (-d) seg length).1 0 e :=
        ⟨hnxt, by rw [hseq, Int.add_zero, ulong_eq_self hnxt], hwnd, h.high, by decide⟩
      obtain ⟨hseq', hle, hfits⟩ := At.trimexcess_length (trimdup (-d) seg length).2 hat le_rfl hpos (by omega)
      rw [Option.some.inj ht] at hseq' hle hfits
      dsimp only at hseq' hle hfits
      exact ⟨by omega, by omega, by omega⟩

/-- A segment inside the window is kept whole. -/
theorem At.tcptrim_whole (h : At r seg d e) (hd : 0 ≤ d) (hfit : d + length ≤ e) (hlen : length + 20 < 2 ^ 16)
    (hin : d < e ∨ d = 0 ∧ length = 0 ∧ seg.SYN = false ∧ seg.FIN = false) :
    tcptrim r seg length = some (seg, length) := by
  have hbits : seg.SYN.toNat ≤ 1 ∧ seg.FIN.toNat ≤ 1 := ⟨Bool.toNat_le _, Bool.toNat_le _⟩
  have hwnd := h.wnd
  have hs := ulong_eq (r.nxt + d)
  rw [← h.seq] at hs
  have hnxt := h.nxt
  have hhigh := h.high
  have hnear := h.near
  rw [tcptrim]
  dsimp only
  by_cases hzero : r.wnd = 0
  · obtain ⟨rfl, rfl, hsyn, hfin⟩ := hin.resolve_left (by omega)
    rw [if_pos hzero, if_pos ⟨by rw [hsyn, hfin]; rfl, by omega⟩]
  · have hdup : wrap (r.nxt - seg.seq) = -d := by
      rw [wrap_eq]
      omega
    have hexcess : wrap (seg.seq + length - (r.nxt + r.wnd)) = d + length - e := by
      rw [wrap_eq]
      omega
    rw [if_neg hzero, if_pos ((h.accept_iff (by omega) (Nat.mod_lt _ (by decide))).mpr (.inl ⟨hd, by omega⟩)), hdup,
      trimdup, if_neg (by omega)]
    dsimp only
    rw [trimexcess, hexcess, if_neg (by omega)]

end Numbers

section Steps

variable {s s' t : Conv} {low : ℤ} {n m : ℕ}

/-- The right edge is in reach, and `low` numbers ahead at least. -/
structure Ok (low : ℤ) (s : Conv) : Prop where
  nxt : s.rcv.nxt = ulong (s.irs + 1 + s.pos)
  wptr : s.rcv.wptr < 2 ^ 32
  low : low ≤ room s
  high : room s ≤ s.window
  window : s.window ≤ 2 ^ 20
  rq : s.rq < 2 ^ 30
  reseq : ∀ r ∈ s.reseq, r.seg.seq < 2 ^ 32 ∧ r.length + 20 < 2 ^ 16

/-- The right edge does not move left, and at most `n` numbers are received. -/
structure Goes (n : ℕ) (s s' : Conv) : Prop where
  irs : s'.irs = s.irs
  window : s'.window = s.window
  sndscale : s'.sndscale = s.sndscale
  le : s.pos ≤ s'.pos
  near : s'.pos ≤ s.pos + n
  edge : edge s ≤ edge s'

/-- A segment told no more than the window, as far as it reached then and reaches now. -/
structure Told (s : Conv) (a : Sent) : Prop where
  seqle : seqle (ulong (a.ack + (a.win <<< s.sndscale : ℕ))) a.wptr
  edge : a.pos + (a.win <<< s.sndscale : ℕ) ≤ edge s

theorem Goes.refl (s : Conv) : Goes 0 s s := ⟨rfl, rfl, rfl, Int.le_refl _, by omega, Int.le_refl _⟩

theorem Goes.trans (h : Goes n s s') (h' : Goes m s' t) : Goes (n + m) s t := by
  obtain ⟨hirs, hwindow, hscale, hle, hnear, hedge⟩ := h
  obtain ⟨hirs', hwindow', hscale', hle', hnear', hedge'⟩ := h'
  exact ⟨hirs'.trans hirs, hwindow'.trans hwindow, hscale'.trans hscale, hle.trans hle', by omega, hedge.trans hedge'⟩

theorem Goes.mono (h : Goes n s s') (hnm : n ≤ m) : Goes m s s' :=
  ⟨h.irs, h.window, h.sndscale, h.le, by have := h.near; omega, h.edge⟩

theorem Told.goes {a : Sent} (h : Told s a) (hg : Goes n s s') : Told s' a :=
  ⟨by rw [hg.sndscale]; exact h.seqle, by rw [hg.sndscale]; exact h.edge.trans hg.edge⟩

theorem Ok.nxt_lt (h : Ok low s) : s.rcv.nxt < 2 ^ 32 := h.nxt ▸ ulong_lt _

theorem Ok.mono (h : Ok low s) {low' : ℤ} (hle : low' ≤ low) : Ok low' s := { h with low := hle.trans h.low }

theorem wptr_eq (hwptr : s.rcv.wptr < 2 ^ 32) :
    s.rcv.wptr = ulong (s.rcv.nxt + room s) := by
  have h := ulong_eq (s.rcv.nxt + room s)
  rw [room, wrap_eq] at h ⊢
  omega

/-- Nothing of what matters here is changed. -/
structure Same (s s' : Conv) : Prop where
  nxt : s'.rcv.nxt = s.rcv.nxt
  wptr : s'.rcv.wptr = s.rcv.wptr
  wnd : s'.rcv.wnd = s.rcv.wnd
  irs : s'.irs = s.irs
  pos : s'.pos = s.pos
  window : s'.window = s.window
  sndscale : s'.sndscale = s.sndscale
  rq : s'.rq ≤ s.rq
  reseq : ∀ r ∈ s'.reseq, r ∈ s.reseq

theorem Same.room (h : Same s s') : room s' = room s := by
  rw [Window.room, Window.room, h.nxt, h.wptr]

theorem Same.ok (h : Same s s') (hs : Ok low s) : Ok low s' :=
  ⟨by rw [h.nxt, h.irs, h.pos]; exact hs.nxt, by rw [h.wptr]; exact hs.wptr, by rw [h.room]; exact hs.low,
    by rw [h.room, h.window]; exact hs.high, by rw [h.window]; exact hs.window, Nat.lt_of_le_of_lt h.rq hs.rq,
    fun r hr => hs.reseq r (h.reseq r hr)⟩

theorem Same.goes (h : Same s s') : Goes 0 s s' :=
  ⟨h.irs, h.window, h.sndscale, Int.le_of_eq h.pos.symm, by have := h.pos; omega,
    by rw [edge, edge, h.room, h.pos]⟩

theorem Same.localclose (s : Conv) : Same s (localclose s) := ⟨rfl, rfl, rfl, rfl, rfl, rfl, rfl, Nat.le_refl _, nofun⟩

theorem Same.force (s : Conv) (b : Bool) : Same s { s with FORCE := b } :=
  ⟨rfl, rfl, rfl, rfl, rfl, rfl, rfl, Nat.le_refl _, fun _ hr => hr⟩

theorem Same.state (s : Conv) (st : State) : Same s { s with state := st } :=
  ⟨rfl, rfl, rfl, rfl, rfl, rfl, rfl, Nat.le_refl _, fun _ hr => hr⟩

theorem Same.read (s : Conv) (n : ℕ) : Same s { s with rq := s.rq - n } :=
  ⟨rfl, rfl, rfl, rfl, rfl, rfl, rfl, Nat.sub_le _ _, fun _ hr => hr⟩

theorem Same.refl (s : Conv) : Same s s := Same.force s s.FORCE

theorem Same.trans (h : Same s s') (h' : Same s' t) : Same s t :=
  ⟨h'.nxt.trans h.nxt, h'.wptr.trans h.wptr, h'.wnd.trans h.wnd, h'.irs.trans h.irs, h'.pos.trans h.pos,
    h'.window.trans h.window, h'.sndscale.trans h.sndscale, h'.rq.trans h.rq, fun r hr => h.reseq r (h'.reseq r hr)⟩

/-- The window is what the queue has room for, but no less than it was. -/
theorem tcprcvwin_spec (h : Ok low s) (hlow : -1 ≤ low) :
    Ok (max low 0) (tcprcvwin s) ∧ Goes 0 s (tcprcvwin s) ∧ ((tcprcvwin s).rcv.wnd : ℤ) = room (tcprcvwin s) := by
  have hroom := h.low
  have hhigh := h.high
  have hwindow := h.window
  have hrq := h.rq
  have hnxt := h.nxt_lt
  have hw : wrap (s.window - s.rq) = s.window - s.rq := wrap_of_range (by omega) (by omega)
  -- how far the right edge is from where the queue ends
  have hedge : ∀ w : ℤ, 0 ≤ w → w ≤ 2 ^ 20 → seqlt (ulong (s.rcv.nxt + w)) s.rcv.wptr = decide (w < room s) := by
    intro w hpos hle
    conv_lhs => rw [seqlt, wptr_eq h.wptr]
    rw [wrap_ulong _ _ (by omega) (by omega)]
    exact decide_eq_decide.mpr (by omega)
  have hclamp : (if (s.window : ℤ) - s.rq < 0 then 0 else (s.window : ℤ) - s.rq) = max 0 ((s.window : ℤ) - s.rq) := by
    split <;> omega
  have hback : (if seqlt (ulong (s.rcv.nxt + max 0 ((s.window : ℤ) - s.rq))) s.rcv.wptr then
      wrap (s.rcv.wptr - s.rcv.nxt) else max 0 ((s.window : ℤ) - s.rq)) = max (room s) (max 0 ((s.window : ℤ) - s.rq)) := by
    rw [hedge _ (by omega) (by omega), ← room]
    by_cases hlt : max 0 ((s.window : ℤ) - s.rq) < room s
    · rw [decide_eq_true hlt, if_pos rfl]
      omega
    · rw [decide_eq_false hlt, if_neg Bool.false_ne_true]
      omega
  obtain ⟨w, b, hmax, heq⟩ : ∃ w : ℤ, ∃ b, w = max (room s) (max 0 ((s.window : ℤ) - s.rq)) ∧
      tcprcvwin s = { s with rcv := { s.rcv with blocked := b, wnd := ulong w, wptr := ulong (s.rcv.nxt + w) } } := by
    refine ⟨_, (tcprcvwin s).rcv.blocked, rfl, ?_⟩
    simp only [tcprcvwin, hw, hclamp, hback]
  have hroom' : room (tcprcvwin s) = w := by
    have hself : (ulong s.rcv.nxt : ℕ) = s.rcv.nxt := ulong_eq_self hnxt
    have hdiff := wrap_ulong (s.rcv.nxt + w) s.rcv.nxt (by omega) (by omega)
    rw [hself] at hdiff
    rw [heq, room]
    dsimp only
    omega
  have hwnd : ((tcprcvwin s).rcv.wnd : ℤ) = w := by
    rw [heq]
    exact ulong_of_range (by omega) (by omega)
  have hsame : (tcprcvwin s).pos = s.pos := by rw [heq]
  refine ⟨⟨?_, ?_, by omega, ?_, ?_, ?_, ?_⟩, ⟨?_, ?_, ?_, by omega, by omega, ?_⟩, hwnd.trans hroom'.symm⟩
  · rw [heq]
    exact h.nxt
  · rw [heq]
    exact ulong_lt _
  · rw [hroom', heq]
    dsimp only
    omega
  · rw [heq]
    exact hwindow
  · rw [heq]
    exact hrq
  · rw [heq]
    exact h.reseq
  · rw [heq]
  · rw [heq]
  · rw [heq]
  · rw [edge, edge, hroom', hsame]
    omega

theorem win_le (v k : ℕ) : (v >>> k % 2 ^ 16) <<< k ≤ v := by
  rw [Nat.shiftLeft_eq, Nat.shiftRight_eq_div_pow]
  exact (Nat.mul_le_mul_right _ (Nat.mod_le _ _)).trans (Nat.div_mul_le_self v _)

theorem Ok.told (h : Ok low s) (hwnd : (s.rcv.wnd : ℤ) = room s) : Told s (sent s) := by
  have hle := win_le s.rcv.wnd s.sndscale
  have hhigh := h.high
  have hwindow := h.window
  refine ⟨?_, ?_⟩
  · conv_lhs => rw [seqle, sent, wptr_eq h.wptr]
    dsimp only
    generalize (s.rcv.wnd >>> s.sndscale % 2 ^ 16) <<< s.sndscale = v at hle ⊢
    rw [wrap_ulong _ _ (by omega) (by omega)]
    exact decide_eq_true (by omega)
  · rw [edge, sent]
    dsimp only
    generalize (s.rcv.wnd >>> s.sndscale % 2 ^ 16) <<< s.sndscale = v at hle ⊢
    omega

theorem Same.opened (s : Conv) : Same s (opened s) := by
  rw [Window.opened]
  split
  · exact ⟨rfl, rfl, rfl, rfl, rfl, rfl, rfl, Nat.le_refl _, fun _ hr => hr⟩
  · exact .refl s

theorem Same.acksent (s : Conv) : Same s (acksent s) :=
  ⟨rfl, rfl, rfl, rfl, rfl, rfl, rfl, Nat.le_refl _, fun _ hr => hr⟩

/-- What a turn leaves, and the segment it sent. -/
theorem turn_spec (x : Turn) (h : Ok low s) (hlow : -1 ≤ low) :
    Ok low (turn x s).1 ∧ Goes 0 s (turn x s).1 ∧ ∀ a ∈ (turn x s).2, Told (turn x s).1 a := by
  rw [turn]
  by_cases hstate : s.state = .Closed ∨ s.state = .Finwait2
  · rw [if_pos hstate]
    exact ⟨h, .refl s, nofun⟩
  · have hread := Same.read s x.read
    obtain ⟨hok, hgoes, hwnd⟩ := tcprcvwin_spec (hread.ok h) hlow
    have hopened := Same.opened (tcprcvwin { s with rq := s.rq - x.read })
    have hok' := hopened.ok hok
    have hgoes' := (hread.goes.trans hgoes).trans hopened.goes
    have hwnd' := (congrArg Int.ofNat hopened.wnd).trans (hwnd.trans hopened.room.symm)
    rw [if_neg hstate]
    dsimp only
    generalize opened (tcprcvwin { s with rq := s.rq - x.read }) = s₁ at hok' hgoes' hwnd' ⊢
    have hlast := hok'.mono (Int.le_max_left _ _)
    by_cases hstop : ¬ s₁.FORCE ∧ ¬ x.more
    · rw [if_pos hstop]
      exact ⟨hlast, hgoes', nofun⟩
    · rw [if_neg hstop]
      cases x.hbp with
      | false =>
        rw [if_neg Bool.false_ne_true]
        exact ⟨(Same.force s₁ false).ok hlast, hgoes'.trans (Same.force s₁ false).goes, nofun⟩
      | true =>
        have hsame : Same s₁ (if x.route then acksent s₁ else localclose (acksent s₁)) := by
          split
          · exact .acksent s₁
          · exact (Same.acksent s₁).trans (.localclose _)
        have htold := hok'.told hwnd'
        rw [if_pos rfl]
        refine ⟨hsame.ok hlast, hgoes'.trans hsame.goes, fun a ha => ?_⟩
        rw [← Option.some.inj ha]
        exact htold.goes hsame.goes

theorem outloop_spec (ts : List Turn) (h : Ok low s) (hlow : -1 ≤ low) :
    Ok low (outloop ts s).1 ∧ Goes 0 s (outloop ts s).1 ∧ ∀ a ∈ (outloop ts s).2, Told (outloop ts s).1 a := by
  induction ts generalizing s with
  | nil => exact ⟨h, .refl s, nofun⟩
  | cons x ts ih =>
    obtain ⟨hok, hgoes, htold⟩ := turn_spec x h hlow
    rw [outloop]
    cases hturn : turn x s with | mk s₁ o =>
    rw [hturn] at hok hgoes htold
    cases o with
    | none => exact ⟨hok, hgoes, nofun⟩
    | some a =>
      obtain ⟨hok', hgoes', htold'⟩ := ih hok
      refine ⟨hok', hgoes.trans hgoes', fun b hb => ?_⟩
      rcases List.mem_cons.mp hb with rfl | hb
      · exact (htold b rfl).goes hgoes'
      · exact htold' b hb

theorem tcpoutput_spec (ts : List Turn) (h : Ok low s) (hlow : -1 ≤ low) :
    Ok low (tcpoutput ts s).1 ∧ Goes 0 s (tcpoutput ts s).1 ∧ ∀ a ∈ (tcpoutput ts s).2, Told (tcpoutput ts s).1 a := by
  have hforce := Same.force s (s.FORCE || decide (ulong (s.rcv.nxt - s.rcv.ackptr) ≥ 2 * s.mss))
  have hok := hforce.ok h
  rw [tcpoutput]
  dsimp only
  split
  · obtain ⟨hok', hgoes', htold⟩ := outloop_spec ts hok hlow
    exact ⟨hok', hforce.goes.trans hgoes', htold⟩
  · obtain ⟨hwin, hgoes, -⟩ := tcprcvwin_spec hok hlow
    generalize tcprcvwin { s with FORCE := s.FORCE || decide (ulong (s.rcv.nxt - s.rcv.ackptr) ≥ 2 * s.mss) } = s₁
      at hwin hgoes ⊢
    have hforce' := Same.force s₁ (decide (wrap (s₁.rcv.wptr - s₁.rcv.wsnt) ≥ 2 * s₁.mss))
    obtain ⟨hok', hgoes', htold⟩ := outloop_spec ts ((hforce'.ok hwin).mono (Int.le_max_left _ _)) hlow
    exact ⟨hok', ((hforce.goes.trans hgoes).trans hforce'.goes).trans hgoes', htold⟩

theorem tcpsendka_spec (h : Ok low s) (hlow : -1 ≤ low) :
    Ok low (tcpsendka s).1 ∧ Goes 0 s (tcpsendka s).1 ∧ Told (tcpsendka s).1 (tcpsendka s).2 := by
  have hack : Same s { s with rcv := { s.rcv with ackptr := s.rcv.nxt } } :=
    ⟨rfl, rfl, rfl, rfl, rfl, rfl, rfl, Nat.le_refl _, fun _ hr => hr⟩
  obtain ⟨hok, hgoes, hwnd⟩ := tcprcvwin_spec (hack.ok h) hlow
  exact ⟨hok.mono (Int.le_max_left _ _), hack.goes.trans hgoes, hok.told hwnd⟩

theorem Ok.at (h : Ok low s) (hwnd : (s.rcv.wnd : ℤ) = room s) {seg : Seg} (hseq : seg.seq < 2 ^ 32) :
    At s.rcv seg (wrap (seg.seq - s.rcv.nxt)) (room s) := by
  have hnxt := h.nxt_lt
  refine ⟨hnxt, ?_, hwnd, ?_, ?_⟩
  · have hs := ulong_eq (s.rcv.nxt + wrap (seg.seq - s.rcv.nxt))
    rw [wrap_eq] at hs ⊢
    omega
  · have := h.high
    have := h.window
    omega
  · rw [wrap_eq]
    omega

/-- So much of the window a call of `tcpiput` needs that stands there. -/
def Next.need : Next → ℤ
  | .segment _ length => length
  | _ => -1

theorem nextreseq_rq (l : List Reseq) (s : Conv) : (nextreseq l s).1.rq = s.rq := by
  induction l generalizing s with
  | nil => rfl
  | cons r l ih =>
    rw [nextreseq]
    split
    · dsimp only
      split
      · rfl
      · exact ih _
    · rfl

theorem Ok.requeue (h : Ok low s) {l : List Reseq} (hl : ∀ r ∈ l, r.seg.seq < 2 ^ 32 ∧ r.length + 20 < 2 ^ 16) (n k : ℤ) :
    Ok low { s with reseq := l, nreseq := n, reseqlen := k } :=
  ⟨h.nxt, h.wptr, h.low, h.high, h.window, h.rq, hl⟩

theorem Goes.requeue (s : Conv) (l : List Reseq) (n k : ℤ) :
    Goes 0 s { s with reseq := l, nreseq := n, reseqlen := k } :=
  ⟨rfl, rfl, rfl, Int.le_refl _, by dsimp only; omega, Int.le_refl _⟩

theorem nextreseq_spec (l : List Reseq) (h : Ok low s) (hlow : -1 ≤ low)
    (hl : ∀ r ∈ l, r.seg.seq < 2 ^ 32 ∧ r.length + 20 < 2 ^ 16) :
    Ok (nextreseq l s).2.need (nextreseq l s).1 ∧ Goes 0 s (nextreseq l s).1 := by
  induction l generalizing s low with
  | nil => exact ⟨(h.mono hlow).requeue (fun _ hr => absurd hr List.not_mem_nil) _ _, .requeue s _ _ _⟩
  | cons r l ih =>
    rw [List.forall_mem_cons] at hl
    rw [nextreseq]
    split
    · dsimp only
      obtain ⟨hok, hgoes, hwnd⟩ := tcprcvwin_spec (h.requeue hl.2 (s.nreseq - 1) (s.reseqlen - r.length)) hlow
      have hgoes' := (Goes.requeue s l (s.nreseq - 1) (s.reseqlen - r.length)).trans hgoes
      generalize tcprcvwin { s with reseq := l, nreseq := s.nreseq - 1, reseqlen := s.reseqlen - r.length } = s₁
        at hok hgoes' hwnd ⊢
      split
      · next seg length htrim =>
        have hfits := (hok.at hwnd hl.1.1).tcptrim_fits ((Int.le_max_right _ _).trans hok.low) hl.1.2 htrim
        have hforce := Same.force s₁ true
        exact ⟨{ hforce.ok hok with low := hfits.2.2 }, hgoes'.trans hforce.goes⟩
      · obtain ⟨hok', hgoes''⟩ := ih hok (hlow.trans (Int.le_max_left _ _)) hl.2
        exact ⟨hok', hgoes'.trans hgoes''⟩
    · exact ⟨(h.mono hlow).requeue (List.forall_mem_cons.mpr hl) _ _, .requeue s _ _ _⟩

theorem mem_insertreseq {rp r : Reseq} {l : List Reseq} (h : r ∈ insertreseq rp l) : r = rp ∨ r ∈ l := by
  induction l with
  | nil => exact .inl (List.mem_singleton.mp h)
  | cons rr l ih =>
    rw [insertreseq] at h
    split at h
    · exact (List.mem_cons.mp h).imp_right id
    · rcases List.mem_cons.mp h with rfl | h
      · exact .inr List.mem_cons_self
      · exact (ih h).imp_right (List.mem_cons_of_mem rr)

theorem addreseq_spec (memory : Bool) {seg : Seg} {length : ℕ} (h : Ok low s) (hseq : seg.seq < 2 ^ 32)
    (hlen : length + 20 < 2 ^ 16) :
    Ok low (addreseq memory seg length s) ∧ Goes 0 s (addreseq memory seg length s) := by
  have hl : ∀ r ∈ insertreseq ⟨seg, length⟩ s.reseq, r.seg.seq < 2 ^ 32 ∧ r.length + 20 < 2 ^ 16 := fun r hr => by
    rcases mem_insertreseq hr with rfl | hr
    · exact ⟨hseq, hlen⟩
    · exact h.reseq r hr
  rw [addreseq]
  split
  · dsimp only
    split
    · exact ⟨h.requeue (fun _ hr => absurd hr List.not_mem_nil) 0 0, .requeue s [] 0 0⟩
    · split
      · exact ⟨h.requeue (fun _ hr => absurd hr List.not_mem_nil) 0 0, .requeue s [] 0 0⟩
      · exact ⟨h.requeue hl _ _, .requeue s _ _ _⟩
  · exact ⟨h, .refl s⟩

theorem tcpiput_spec (emptied hog memory : Bool) {seg : Seg} {length : ℕ} (h : Ok (-1) s) (hseq : seg.seq < 2 ^ 32)
    (hlen : length + 20 < 2 ^ 16) :
    Ok (tcpiput emptied hog memory seg length s).2.need (tcpiput emptied hog memory seg length s).1 ∧
      Goes 0 s (tcpiput emptied hog memory seg length s).1 := by
  rw [tcpiput]
  split
  · exact ⟨h, .refl s⟩
  · have hhog : Same s (if hog ∧ ¬ seg.RST then localclose s else s) := by
      split
      · exact .localclose s
      · exact .refl s
    obtain ⟨hok, hgoes, hwnd⟩ := tcprcvwin_spec (hhog.ok h) (Int.le_refl _)
    have hgoes' := hhog.goes.trans hgoes
    dsimp only
    generalize tcprcvwin (if hog ∧ ¬ seg.RST then localclose s else s) = s₁ at hok hgoes' hwnd ⊢
    have hlast := hok.mono (Int.le_max_left _ _)
    split
    · have hstate : Same s₁ (if emptied ∧ s₁.state = .Closing then { s₁ with state := .TimeWait } else s₁) := by
        split
        · exact .state s₁ _
        · exact .refl s₁
      split
      · exact ⟨hstate.ok hlast, hgoes'.trans hstate.goes⟩
      · have hforce := hstate.trans (.force _ true)
        exact ⟨hforce.ok hlast, hgoes'.trans hforce.goes⟩
    · next seg' length' htrim =>
      obtain ⟨hseq', hlen', hfits⟩ := (hok.at hwnd hseq).tcptrim_fits ((Int.le_max_right _ _).trans hok.low) hlen htrim
      split
      · exact ⟨hlast, hgoes'⟩
      · split
        · obtain ⟨hadd, hgoes''⟩ := addreseq_spec memory hlast hseq' hlen'
          have hforce := Same.force (addreseq memory seg' length' s₁) true
          exact ⟨hforce.ok hadd, (hgoes'.trans hgoes'').trans hforce.goes⟩
        · have hforce : Same s₁ (if s₁.nreseq > 0 then { s₁ with FORCE := true } else s₁) := by
            split
            · exact .force s₁ true
            · exact .refl s₁
          exact ⟨{ hforce.ok hok with low := by rw [hforce.room]; exact hfits }, hgoes'.trans hforce.goes⟩

theorem Same.acked (emptied : Bool) (s : Conv) : Same s (acked emptied s).1 := by
  rw [Window.acked]
  split
  · dsimp only
    split
    · exact .state s _
    · exact .refl s
  · dsimp only
    split
    · exact .state s _
    · exact .refl s
  · split
    · exact .localclose s
    · exact .force s true
  · exact .force s true
  · exact .refl s

theorem Same.urgent (seg : Seg) (length : ℕ) (s : Conv) : Same s (urgent seg length s).1 := by
  rw [Window.urgent]
  split
  · split
    · exact ⟨rfl, rfl, rfl, rfl, rfl, rfl, rfl, Nat.le_refl _, fun _ hr => hr⟩
    · exact .refl s
  · split
    · exact ⟨rfl, rfl, rfl, rfl, rfl, rfl, rfl, Nat.le_refl _, fun _ hr => hr⟩
    · exact .refl s

/-- What is received moves up to the right edge, and one number past it at most. -/
theorem advance_spec (h : Ok low s) (hn : (n : ℤ) ≤ low + 1) : Ok (low - n) (advance n s) ∧ Goes n s (advance n s) := by
  have hlow := h.low
  have hhigh := h.high
  have hwindow := h.window
  have hnext : (advance n s).rcv.nxt = ulong (s.irs + 1 + (s.pos + n)) := by
    have hnxt := h.nxt
    have h1 := ulong_eq (s.irs + 1 + s.pos)
    have h2 := ulong_eq (s.rcv.nxt + n)
    have h3 := ulong_eq (s.irs + 1 + (s.pos + n))
    rw [advance]
    dsimp only
    omega
  have hroom : room (advance n s) = room s - n := by
    have hdiff := wrap_ulong (s.rcv.nxt + room s) (s.rcv.nxt + n) (by omega) (by omega)
    rw [← wptr_eq h.wptr] at hdiff
    rw [room, advance]
    dsimp only
    omega
  refine ⟨⟨hnext, h.wptr, by omega, ?_, h.window, h.rq, h.reseq⟩, ⟨rfl, rfl, rfl, ?_, ?_, ?_⟩⟩
  · rw [hroom]
    exact (Int.sub_le_self _ (Int.natCast_nonneg n)).trans hhigh
  · exact Int.le_add_of_nonneg_right (Int.natCast_nonneg n)
  · exact Int.le_refl _
  · rw [edge, edge, hroom, advance]
    dsimp only
    omega

theorem fin_spec (emptied : Bool) (h : Ok low s) (hlow : 0 ≤ low) : Ok (-1) (fin emptied s) ∧ Goes 1 s (fin emptied s) := by
  have hforce := Same.force s true
  obtain ⟨hok, hgoes⟩ := advance_spec (n := 1) (hforce.ok h) (by omega)
  have hok' := hok.mono (show -1 ≤ low - (1 : ℕ) by omega)
  have hgoes' := hforce.goes.trans hgoes
  rw [fin]
  dsimp only
  split
  · exact ⟨(Same.state _ _).ok hok', hgoes'.trans (Same.state _ _).goes⟩
  · exact ⟨(Same.state _ _).ok hok', hgoes'.trans (Same.state _ _).goes⟩
  · exact ⟨(Same.state _ _).ok hok', hgoes'.trans (Same.state _ _).goes⟩
  · exact ⟨(hforce.ok h).mono (by omega), hforce.goes.mono (Nat.zero_le _)⟩

theorem nextreseq_self (h : Ok low s) (hlow : -1 ≤ low) :
    Ok (nextreseq s.reseq s).2.need (nextreseq s.reseq s).1 ∧ Goes 0 s (nextreseq s.reseq s).1 :=
  nextreseq_spec s.reseq h hlow h.reseq

/-- One turn receives as much as fits into the window, and a FIN. -/
theorem inloop_spec (emptied : Bool) (seg : Seg) {length : ℕ} (h : Ok length s)
    (hrq : (inloop emptied seg length s).1.rq < 2 ^ 30) :
    Ok (inloop emptied seg length s).2.need (inloop emptied seg length s).1 ∧
      Goes (2 ^ 20 + 1) s (inloop emptied seg length s).1 := by
  have hlast := h.mono (show (-1 : ℤ) ≤ length by omega)
  have hmany : Goes (2 ^ 20 + 1) s s := (Goes.refl s).mono (Nat.zero_le _)
  have hroom : length ≤ 2 ^ 20 := by
    have := h.low
    have := h.high
    have := h.window
    omega
  rw [inloop] at hrq ⊢
  split at hrq
  · next hrst =>
    rw [if_pos hrst]
    exact ⟨(Same.localclose s).ok hlast, (Same.localclose s).goes.mono (Nat.zero_le _)⟩
  · next hrst =>
    rw [if_neg hrst]
    split at hrq
    · next hack =>
      rw [if_pos hack]
      exact ⟨hlast, hmany⟩
    · next hack =>
      rw [if_neg hack]
      have hacked := Same.acked emptied s
      dsimp only at hrq ⊢
      split at hrq
      · next hgo =>
        rw [if_pos hgo]
        exact ⟨hacked.ok hlast, hacked.goes.mono (Nat.zero_le _)⟩
      · next hgo =>
        rw [if_neg hgo]
        have hurgent := hacked.trans (Same.urgent seg length (acked emptied s).1)
        generalize urgent seg length (acked emptied s).1 = su at hrq hurgent ⊢
        obtain ⟨s₁, bytes⟩ := su
        dsimp only at hrq hurgent ⊢
        have hok := hurgent.ok h
        split at hrq
        · next hreset =>
          rw [if_pos hreset]
          exact ⟨hok.mono (by change -1 ≤ _; omega), hurgent.goes.mono (Nat.zero_le _)⟩
        · next hreset =>
          rw [if_neg hreset]
          rw [nextreseq_rq] at hrq
          -- the data, and then the FIN
          obtain ⟨s₂, heq, hdata⟩ : ∃ s₂, s₂ = (if length ≠ 0 ∧ (s₁.state = .Established ∨ s₁.state = .Finwait1) then
              advance length { s₁ with rq := s₁.rq + bytes } else s₁) ∧
                (s₂.rq < 2 ^ 30 → Ok 0 s₂ ∧ Goes (2 ^ 20) s s₂) := by
            refine ⟨_, rfl, fun hrq => ?_⟩
            by_cases hdata : length ≠ 0 ∧ (s₁.state = .Established ∨ s₁.state = .Finwait1)
            · rw [if_pos hdata] at hrq ⊢
              have hqueued : Ok length { s₁ with rq := s₁.rq + bytes } :=
                ⟨hok.nxt, hok.wptr, hok.low, hok.high, hok.window, hrq, hok.reseq⟩
              have hgoes : Goes 0 s { s₁ with rq := s₁.rq + bytes } :=
                ⟨hurgent.goes.irs, hurgent.goes.window, hurgent.goes.sndscale, hurgent.goes.le, hurgent.goes.near,
                  hurgent.goes.edge⟩
              obtain ⟨hok', hgoes'⟩ := advance_spec (n := length) hqueued (by omega)
              exact ⟨hok'.mono (by omega), (hgoes.trans hgoes').mono (by omega)⟩
            · rw [if_neg hdata]
              exact ⟨hok.mono (by omega), hurgent.goes.mono (Nat.zero_le _)⟩
          rw [← heq] at hrq ⊢
          split at hrq
          · next hfin =>
            rw [if_pos hfin]
            have hrq' : s₂.rq < 2 ^ 30 := by
              have hfinrq : (fin emptied s₂).rq = s₂.rq := by
                rw [fin]
                dsimp only
                split <;> rfl
              omega
            obtain ⟨hok₂, hgoes₂⟩ := hdata hrq'
            obtain ⟨hok₃, hgoes₃⟩ := fin_spec emptied hok₂ (Int.le_refl _)
            obtain ⟨hok₄, hgoes₄⟩ := nextreseq_self hok₃ (Int.le_refl _)
            exact ⟨hok₄, (hgoes₂.trans hgoes₃).trans hgoes₄⟩
          · next hfin =>
            rw [if_neg hfin]
            obtain ⟨hok₂, hgoes₂⟩ := hdata hrq
            obtain ⟨hok₄, hgoes₄⟩ := nextreseq_self hok₂ (by omega)
            exact ⟨hok₄, (hgoes₂.trans hgoes₄).mono (by omega)⟩

end Steps

section Runs

variable {s t u : Sys}

/-- The state of a run. -/
structure Inv (s : Sys) : Prop where
  ok : Ok s.next.need s.conv
  told : ∀ a ∈ s.sent, Told s.conv a

theorem Next.need_ge (x : Next) : -1 ≤ x.need := by
  cases x with
  | segment seg length => exact Int.le_trans (by decide) (Int.natCast_nonneg length)
  | done => exact Int.le_refl _
  | output => exact Int.le_refl _

theorem Next.need_after (x : Next) : x.after.need ≤ x.need := by
  cases x <;> exact Int.le_refl _

theorem Start.inv (h : Start s) : Inv s := by
  obtain ⟨q, hq, hwindow⟩ := h.window
  refine ⟨⟨h.nxt, h.wptr, ?_, h.high, ?_, h.rq, ?_⟩, ?_⟩
  · rw [h.next]
    exact Int.le_trans (by decide) h.low
  · rw [hwindow, Nat.shiftLeft_eq]
    exact (Nat.mul_le_mul_left QMAX (Nat.pow_le_pow_right (by decide) hq)).trans (by decide)
  · rw [h.reseq]
    exact fun _ hr => absurd hr List.not_mem_nil
  · rw [h.sent]
    exact fun _ ha => absurd ha List.not_mem_nil

theorem Inv.step (h : Inv s) (hstep : Step s t) (hrq : t.conv.rq < 2 ^ 30) :
    Inv t ∧ Goes (2 ^ 20 + 1) s.conv t.conv := by
  obtain ⟨hok, htold⟩ := h
  have hsent : ∀ {n} {c c' : Conv} {l l' : List Sent}, Goes n c c' → (∀ a ∈ l, Told c a) → (∀ a ∈ l', Told c' a) →
      ∀ a ∈ l ++ l', Told c' a := fun hg hl hl' a ha =>
    (List.mem_append.mp ha).elim (fun ha => (hl a ha).goes hg) (hl' a)
  cases hstep with
  | read n c x l =>
    have hsame := Same.read c n
    exact ⟨⟨hsame.ok hok, fun a ha => (htold a ha).goes hsame.goes⟩, hsame.goes.mono (Nat.zero_le _)⟩
  | state st c x l =>
    have hsame := Same.state c st
    exact ⟨⟨hsame.ok hok, fun a ha => (htold a ha).goes hsame.goes⟩, hsame.goes.mono (Nat.zero_le _)⟩
  | rcvwin c x l =>
    obtain ⟨hok', hgoes, -⟩ := tcprcvwin_spec hok x.need_ge
    exact ⟨⟨hok'.mono (Int.le_max_left _ _), fun a ha => (htold a ha).goes hgoes⟩, hgoes.mono (Nat.zero_le _)⟩
  | @output ts hts c x l =>
    obtain ⟨hok', hgoes, htold'⟩ := tcpoutput_spec ts hok x.need_ge
    exact ⟨⟨hok'.mono x.need_after, hsent hgoes htold htold'⟩, hgoes.mono (Nat.zero_le _)⟩
  | @resume ts hts c l =>
    obtain ⟨hok', hgoes, htold'⟩ := outloop_spec ts hok (Next.need_ge _)
    exact ⟨⟨hok', hsent hgoes htold htold'⟩, hgoes.mono (Nat.zero_le _)⟩
  | sendka c l =>
    obtain ⟨hok', hgoes, htold'⟩ := tcpsendka_spec hok (Next.need_ge _)
    refine ⟨⟨hok', hsent hgoes htold fun a ha => ?_⟩, hgoes.mono (Nat.zero_le _)⟩
    rwa [List.mem_singleton.mp ha]
  | input emptied hog memory hseq hlen c l =>
    obtain ⟨hok', hgoes⟩ := tcpiput_spec emptied hog memory hok hseq hlen
    exact ⟨⟨hok', fun a ha => (htold a ha).goes hgoes⟩, hgoes.mono (Nat.zero_le _)⟩
  | loop emptied seg length c l =>
    obtain ⟨hok', hgoes⟩ := inloop_spec emptied seg hok hrq
    exact ⟨⟨hok', fun a ha => (htold a ha).goes hgoes⟩, hgoes⟩

theorem Inv.runs (h : Inv s) (hrun : Runs s t) : Inv t ∧ edge s.conv ≤ edge t.conv := by
  induction hrun with
  | refl => exact ⟨h, Int.le_refl _⟩
  | step _ hstep hrq ih =>
    obtain ⟨hinv, hgoes⟩ := ih.1.step hstep hrq
    exact ⟨hinv, ih.2.trans hgoes.edge⟩

theorem Ok.wptr_pos {s : Conv} {low : ℤ} (h : Ok low s) : s.rcv.wptr = ulong (s.irs + 1 + edge s) := by
  have h1 := ulong_eq (s.rcv.nxt + room s)
  have h2 := ulong_eq (s.irs + 1 + s.pos)
  have h3 := ulong_eq (s.irs + 1 + edge s)
  have hwptr := wptr_eq h.wptr
  rw [← h.nxt] at h2
  rw [edge] at h3 ⊢
  omega

/-- The segment has its bytes at `p` and behind in the window that `a` told, and none before what is expected. -/
structure Inside (s : Conv) (a : Sent) (seg : Seg) (length : ℕ) (p : ℤ) : Prop where
  seq : seg.seq = ulong (s.irs + 1 + p)
  short : length + 20 < 2 ^ 16
  left : a.pos ≤ p
  next : s.pos ≤ p
  right : p + length ≤ a.pos + (a.win <<< s.sndscale : ℕ)
  begins : p < a.pos + (a.win <<< s.sndscale : ℕ) ∨ p = s.pos ∧ length = 0 ∧ seg.SYN = false ∧ seg.FIN = false

/-- The right edge never moves left, no segment tells of more than it, and a segment inside a window told at any
time before is kept as it is. -/
theorem window_never_shrinks (s t : Sys) (hs : Start s) (hrun : Runs s t) :
    (∀ u, Runs t u → edge t.conv ≤ edge u.conv) ∧
    (∀ u, Step t u → u.conv.rq < 2 ^ 30 → seqge u.conv.rcv.wptr t.conv.rcv.wptr) ∧
    (∀ a ∈ t.sent, seqle (ulong (a.ack + (a.win <<< t.conv.sndscale : ℕ))) a.wptr ∧
      a.pos + (a.win <<< t.conv.sndscale : ℕ) ≤ edge t.conv) ∧
    ∀ a ∈ t.sent, ∀ seg length p, Inside t.conv a seg length p →
      tcptrim (tcprcvwin t.conv).rcv seg length = some (seg, length) := by
  have hinv := (hs.inv.runs hrun).1
  refine ⟨fun u hu => (hinv.runs hu).2, fun u hstep hrq => ?_,
    fun a ha => ⟨(hinv.told a ha).seqle, (hinv.told a ha).edge⟩, fun a ha seg length p hin => ?_⟩
  · obtain ⟨hinv', hgoes⟩ := hinv.step hstep hrq
    obtain ⟨hirs, -, -, -, hnear, hedge⟩ := hgoes
    have hlow := (Next.need_ge t.next).trans hinv.ok.low
    have hhigh := hinv'.ok.high
    have hwindow := hinv'.ok.window
    rw [edge, edge] at hedge
    rw [seqge, hinv'.ok.wptr_pos, hinv.ok.wptr_pos, hirs, wrap_ulong _ _ (by rw [edge, edge]; omega) (by rw [edge, edge]; omega)]
    exact decide_eq_true (by rw [edge, edge]; omega)
  · obtain ⟨hok, hgoes, hwnd⟩ := tcprcvwin_spec hinv.ok (Next.need_ge _)
    have htold := (hinv.told a ha).edge.trans hgoes.edge
    have hhigh := hok.high
    have hwindow := hok.window
    have hle := hgoes.le
    have hnear := hgoes.near
    obtain ⟨hseq, hlen, -, hnext, hright, hbegins⟩ := hin
    rw [edge] at htold
    have hpos : (tcprcvwin t.conv).pos = t.conv.pos := by omega
    have hd : wrap (seg.seq - (tcprcvwin t.conv).rcv.nxt) = p - t.conv.pos := by
      rw [hseq, hok.nxt, hgoes.irs, hpos, wrap_ulong _ _ (by omega) (by omega)]
      omega
    have hat := hok.at hwnd (hseq ▸ ulong_lt _)
    rw [hd] at hat
    refine hat.tcptrim_whole (by omega) (by omega) hlen ?_
    rcases hbegins with hlt | ⟨rfl, hbegins⟩
    · left
      omega
    · exact .inr ⟨by omega, hbegins⟩

/-- A conversation with an empty queue, before its first acknowledgement. -/
def fresh : Conv where
  state := .Established
  rcv := ⟨1, 0, 0, 1, 1, 1, false, 0⟩
  sndscale := 0
  irs := 0
  mss := 1460
  window := QMAX
  FORCE := true
  reseq := []
  nreseq := 0
  reseqlen := 0
  rq := 0
  pos := 0

def acknowledge : List Turn := [⟨0, false, true, true⟩]

/-- The acknowledgement tells of the whole queue, and keeps to it. -/
theorem window_never_shrinks_fresh : (tcpoutput acknowledge fresh).2 ≠ [] ∧ ∀ a ∈ (tcpoutput acknowledge fresh).2, ∀ seg length p,
    Inside (tcpoutput acknowledge fresh).1 a seg length p →
      tcptrim (tcprcvwin (tcpoutput acknowledge fresh).1).rcv seg length = some (seg, length) := by
  have hstart : Start ⟨fresh, .done, []⟩ :=
    ⟨rfl, rfl, rfl, rfl, ⟨0, by decide, rfl⟩, by decide, by decide, by decide, by decide, by decide⟩
  have hstep : Step ⟨fresh, .done, []⟩ ⟨(tcpoutput acknowledge fresh).1, .done, [] ++ (tcpoutput acknowledge fresh).2⟩ :=
    .output (show acknowledge.length ≤ 100 by decide) fresh .done []
  exact ⟨by decide +kernel, (window_never_shrinks _ _ hstart (.step .refl hstep (by decide +kernel))).2.2.2⟩

end Runs

end Petele.Tcp.Window
