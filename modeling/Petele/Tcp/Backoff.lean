import Mathlib.Tactic.Positivity
import Petele.Tcp.Seq

namespace Petele.Tcp

open Lib

def MSPTICK : ℤ := 50

def MAXBACKMS : ℤ := 9 * 60 * 1000

def LOGAGAIN : ℕ := 3

def LOGDGAIN : ℕ := 2

inductive State where
  | Closed | Listen | SynSent | SynReceived | Established | Finwait1 | Finwait2 | CloseWait | Closing
  | LastAck | TimeWait
deriving DecidableEq

inductive Timerstate where
  | OFF | ON | DONE
deriving DecidableEq

structure Tcptimer where
  state : Timerstate
  start : ℤ
  count : ℤ

structure Snd where
  una : ℕ
  nxt : ℕ
  ptr : ℕ
  wnd : ℕ
  urg : ℕ
  wl2 : ℕ
  dupacks : ℕ
  partialack : ℕ
  recovery : Bool
  rto : Bool
  rxt : ℕ

/-- The part of a control block that sends and is timed. -/
structure Tcpctl where
  state : State
  snd : Snd
  cwind : ℕ
  abcbytes : ℕ
  ssthresh : ℕ
  mss : ℕ
  /-- A `uchar`. -/
  backoff : ℕ
  backedoff : ℤ
  force : Bool
  retran : Bool
  synack : Bool
  timer : Tcptimer
  rttTimer : Tcptimer
  acktimer : Tcptimer
  katimer : Tcptimer
  rttseq : ℕ
  srtt : ℤ
  mdev : ℤ
  sndsyntime : ℕ
  time : ℕ
  timeuna : ℕ
  flgcnt : ℤ

structure Seg where
  ack : ℕ
  wnd : ℕ
  update : Bool

def tcpgo (t : Tcptimer) : Tcptimer :=
  if t.start = 0 then t else { t with count := t.start, state := .ON }

def tcphalt (t : Tcptimer) : Tcptimer := { t with state := .OFF }

/-- The machine takes the shift modulo the width of an `int`. -/
def backoff (n : ℕ) : ℤ := wrap (2 ^ (n % 32))

def tcpsettimer (tcb : Tcpctl) : Tcpctl :=
  let x := (wrap (backoff tcb.backoff *
    wrap (wrap (tcb.mdev + tcb.srtt >>> LOGAGAIN) + MSPTICK))).tdiv MSPTICK
  let x := if x < 300 / MSPTICK then 300 / MSPTICK else if x > 64000 / MSPTICK then 64000 / MSPTICK else x
  { tcb with timer := { tcb.timer with start := x } }

def localclose (tcb : Tcpctl) : Tcpctl :=
  { tcb with
    timer := tcphalt tcb.timer
    rttTimer := tcphalt tcb.rttTimer
    acktimer := tcphalt tcb.acktimer
    katimer := tcphalt tcb.katimer
    state := .Closed }

def tcpcongestion (tcb : Tcpctl) : Tcpctl :=
  let inflight := min (ulong (tcb.snd.nxt - tcb.snd.una)) tcb.cwind
  { tcb with ssthresh := max (inflight / 2) (2 * tcb.mss) }

def tcpabcincr (tcb : Tcpctl) (acked : ℕ) : Tcpctl :=
  let tcb := { tcb with abcbytes := ulong (tcb.abcbytes + acked) }
  if tcb.cwind < tcb.ssthresh then
    let limit := if tcb.snd.rto then tcb.mss else 2 * tcb.mss
    { tcb with cwind := ulong (tcb.cwind + min tcb.abcbytes limit), abcbytes := 0 }
  else
    let tcb := { tcb with snd := { tcb.snd with rto := false } }
    if tcb.abcbytes ≥ tcb.cwind then
      { tcb with abcbytes := tcb.abcbytes - tcb.cwind, cwind := ulong (tcb.cwind + tcb.mss) }
    else tcb

/-- What the round trip and the backoff are kept in. -/
structure SameTiming (t u : Tcpctl) : Prop where
  backoff : u.backoff = t.backoff
  backedoff : u.backedoff = t.backedoff
  srtt : u.srtt = t.srtt
  mdev : u.mdev = t.mdev
  start : u.timer.start = t.timer.start

/-- `tcpoutput`, or another routine that leaves the timing alone. -/
structure Output where
  run : Tcpctl → Tcpctl
  same : ∀ tcb, SameTiming tcb (run tcb)

section Calls

variable (tcpoutput : Output)

def tcprxmit (tcb : Tcpctl) : Tcpctl :=
  let out := tcpoutput.run { tcb with
    retran := true, force := true, snd := { tcb.snd with ptr := tcb.snd.una }, cwind := tcb.mss }
  { out with cwind := tcb.cwind, snd := { out.snd with ptr := tcb.snd.ptr } }

/-- The label `recovery` in `update`. -/
def recovery (seg : Seg) (tcb : Tcpctl) : Tcpctl :=
  if tcb.snd.recovery then { tcb with cwind := ulong (tcb.cwind + tcb.mss) }
  else if seqle tcb.snd.rxt seg.ack then
    let tcb := tcpcongestion { tcb with
      abcbytes := 0
      snd := { tcb.snd with recovery := true, partialack := 0, rxt := tcb.snd.nxt } }
    tcprxmit tcpoutput { tcb with cwind := ulong (tcb.ssthresh + 3 * tcb.mss) }
  else tcb

/-- Updates of a window of zero and three equal acknowledgements lead to a fast retransmit. -/
def fastrxmit (seg : Seg) (tcb : Tcpctl) : Tcpctl :=
  let inflate (tcb : Tcpctl) : Tcpctl :=
    if tcb.snd.recovery then { tcb with cwind := ulong (tcb.cwind + tcb.mss) } else tcb
  if tcb.snd.wnd = 0 ∧ seg.wnd > 0 ∧ seqlt seg.ack tcb.snd.ptr then
    recovery tcpoutput seg { tcb with snd := { tcb.snd with wnd := seg.wnd } }
  else if seg.ack = tcb.snd.una ∧ tcb.snd.una ≠ tcb.snd.nxt then
    let tcb := { tcb with snd := { tcb.snd with dupacks := ulong (tcb.snd.dupacks + 1) } }
    if tcb.snd.dupacks = 3 then recovery tcpoutput seg tcb else inflate tcb
  else inflate tcb

def updatewindow (seg : Seg) (tcb : Tcpctl) : Tcpctl :=
  if seqgt seg.ack tcb.snd.wl2 ∨ tcb.snd.wl2 = seg.ack ∧ seg.wnd > tcb.snd.wnd then
    { tcb with snd := { tcb.snd with
      dupacks := if tcb.snd.wl2 ≠ seg.ack then 0 else tcb.snd.dupacks
      wnd := seg.wnd
      wl2 := seg.ack } }
  else tcb

/-- The congestion window after `acked` bytes. -/
def congestion (seg : Seg) (acked : ℕ) (tcb : Tcpctl) : Tcpctl :=
  if tcb.snd.recovery then
    if seqge seg.ack tcb.snd.rxt then
      let cwind := ulong (ulong (tcb.snd.nxt - tcb.snd.una) + tcb.mss)
      { tcb with snd := { tcb.snd with dupacks := 0, recovery := false }, cwind := min cwind tcb.ssthresh }
    else
      let cwind := if tcb.cwind > acked then tcb.cwind - acked else tcb.mss
      { tcb with
        cwind := if acked ≥ tcb.mss then ulong (cwind + tcb.mss) else cwind
        snd := { tcb.snd with partialack := ulong (tcb.snd.partialack + 1) } }
  else tcpabcincr tcb acked

/-- The timers are adjusted to the round trip time. -/
def roundtrip (seg : Seg) (tcb : Tcpctl) : Tcpctl :=
  if tcb.rttTimer.state = .ON ∧ seqge seg.ack tcb.rttseq then
    let tcb := { tcb with rttTimer := tcphalt tcb.rttTimer }
    if tcb.retran then tcb
    else
      let rtt := wrap (tcb.rttTimer.start - tcb.rttTimer.count)
      let rtt := wrap ((if rtt = 0 then 1 else rtt) * MSPTICK)
      let tcb := { tcb with backoff := 0, backedoff := 0 }
      if tcb.srtt = 0 then
        tcpsettimer { tcb with srtt := wrap (rtt * 2 ^ LOGAGAIN), mdev := wrap (rtt * 2 ^ LOGDGAIN) }
      else
        let delta := wrap (rtt - tcb.srtt >>> LOGAGAIN)
        let srtt := wrap (tcb.srtt + delta)
        let delta := wrap (wrap |delta| - tcb.mdev >>> LOGDGAIN)
        let mdev := wrap (tcb.mdev + delta)
        tcpsettimer { tcb with srtt := if srtt ≤ 0 then 1 else srtt, mdev := if mdev ≤ 0 then 1 else mdev }
  else tcb

/-- The label `done` in `update`. The queue has discarded so many bytes. -/
def done (discarded now : ℕ) (seg : Seg) (acked : ℕ) (tcb : Tcpctl) : Tcpctl :=
  let tcb := { tcb with
    flgcnt := if discarded < acked then wrap (tcb.flgcnt - 1) else tcb.flgcnt
    snd := { tcb.snd with una := seg.ack } }
  let tcb := if tcb.snd.recovery then tcprxmit tcpoutput tcb else tcb
  let tcb := { tcb with
    snd := { tcb.snd with urg := if seqgt seg.ack tcb.snd.urg then seg.ack else tcb.snd.urg } }
  let tcb :=
    if tcb.snd.una ≠ tcb.snd.nxt then
      if ¬ tcb.snd.recovery ∨ tcb.snd.partialack = 1 then
        { tcb with time := now, timeuna := tcb.snd.una, timer := tcpgo tcb.timer }
      else tcb
    else { tcb with timer := tcphalt tcb.timer }
  { tcb with
    snd := { tcb.snd with ptr := if seqlt tcb.snd.ptr tcb.snd.una then tcb.snd.una else tcb.snd.ptr }
    retran := tcb.snd.recovery && tcb.retran
    backoff := 0
    backedoff := 0 }

/-- An acknowledgement. -/
def update (discarded now : ℕ) (seg : Seg) (tcb : Tcpctl) : Tcpctl :=
  if seg.update then tcb
  else
    let tcb := updatewindow seg (fastrxmit tcpoutput seg tcb)
    if ¬ seqgt seg.ack tcb.snd.una then
      if tcb.retran ∧ tcb.snd.wnd = 0 then { tcb with backedoff := MAXBACKMS / 4 } else tcb
    else
      let acked := ulong (seg.ack - tcb.snd.una)
      if ¬ tcb.synack then
        done tcpoutput discarded now seg (acked - 1) { tcb with synack := true, flgcnt := wrap (tcb.flgcnt - 1) }
      else done tcpoutput discarded now seg acked (roundtrip seg (congestion seg acked tcb))

/-- The retransmission timer has run out. -/
def tcptimeout (tcb : Tcpctl) : Tcpctl :=
  if tcb.state = .TimeWait then localclose tcb
  else if tcb.state = .Closed then tcb
  else
    let maxback := if tcb.state = .SynSent then MAXBACKMS / 2 else MAXBACKMS
    let tcb := { tcb with
      backoff := (tcb.backoff + 1) % 2 ^ 8
      backedoff := wrap (tcb.backedoff + wrap (tcb.timer.start * MSPTICK)) }
    if tcb.backedoff ≥ maxback then localclose tcb
    else
      let tcb := tcpsettimer tcb
      let tcb := tcprxmit tcpoutput (if ¬ tcb.snd.rto then tcpcongestion tcb else tcb)
      { tcb with
        snd := { tcb.snd with
          ptr := tcb.snd.una
          rto := true
          dupacks := if tcb.snd.recovery then 0 else tcb.snd.dupacks
          recovery := false
          rxt := if tcb.snd.recovery then tcb.snd.nxt else tcb.snd.rxt }
        cwind := tcb.mss
        abcbytes := 0 }

/-- The time between a SYN and its acknowledgement is the first round trip. -/
def tcpsynackrtt (now : ℕ) (tcb : Tcpctl) : Tcpctl :=
  let delta := wrap (now - tcb.sndsyntime)
  { tcb with
    srtt := wrap (delta * 2 ^ LOGAGAIN)
    mdev := wrap (delta * 2 ^ LOGDGAIN)
    rttTimer := tcphalt tcb.rttTimer }

end Calls

section Settimer

/-- The estimate in milliseconds that the backoff multiplies. -/
def estimate (tcb : Tcpctl) : ℤ := tcb.mdev + tcb.srtt >>> LOGAGAIN + MSPTICK

/-- The bounded timeout in ticks. -/
def timeout (n : ℕ) (ms : ℤ) : ℤ := min 1280 (max 6 (2 ^ n * ms / 50))

/-- The product fits an `int`, or it comes round to no less than the upper bound. -/
def Fits (n : ℕ) (ms : ℤ) : Prop := 2 ^ n * ms < 2 ^ 31 ∨ 64000 ≤ wrap (backoff n * ms)

structure Ranged (tcb : Tcpctl) : Prop where
  srtt : 0 ≤ tcb.srtt ∧ tcb.srtt < 2 ^ 20
  mdev : 0 ≤ tcb.mdev ∧ tcb.mdev < 2 ^ 20

variable {tcb : Tcpctl} {n m : ℕ} {ms : ℤ}

theorem Ranged.estimate (h : Ranged tcb) : 50 ≤ estimate tcb ∧ estimate tcb < 2 ^ 21 := by
  obtain ⟨⟨hs, hs'⟩, hm, hm'⟩ := h
  rw [Tcp.estimate, Int.shiftRight_eq_div_pow, LOGAGAIN, MSPTICK]
  omega

theorem pow_lt_of_fits (hms : 50 ≤ ms) (h : 2 ^ n * ms < 2 ^ 31) : n < 31 := by
  by_contra hn
  have hpow : (2 : ℤ) ^ 31 ≤ 2 ^ n := pow_le_pow_right₀ (by decide) (by omega)
  have hmul : (2 : ℤ) ^ n * 1 ≤ 2 ^ n * ms := Int.mul_le_mul_of_nonneg_left (by omega) (by positivity)
  omega

theorem backoff_of_lt (hn : n < 31) : backoff n = 2 ^ n := by
  have hle : (2 : ℤ) ^ n ≤ 2 ^ 30 := pow_le_pow_right₀ (by decide) (by omega)
  have hpos : (0 : ℤ) < 2 ^ n := by positivity
  rw [backoff, Nat.mod_eq_of_lt (by omega), wrap_of_range (by omega) (by omega)]

/-- The shift and the sum of one call, out of the clamps. -/
theorem tcpsettimer_start (h : Ranged tcb) :
    (tcpsettimer tcb).timer.start =
      min 1280 (max 6 ((wrap (backoff tcb.backoff * estimate tcb)).tdiv 50)) := by
  obtain ⟨hlow, hhigh⟩ := h.estimate
  obtain ⟨⟨hs, hs'⟩, hm, hm'⟩ := h
  have hsum : wrap (wrap (tcb.mdev + tcb.srtt >>> LOGAGAIN) + MSPTICK) = estimate tcb := by
    rw [wrap_wrap_add]
    exact wrap_of_range (show -2 ^ 31 ≤ estimate tcb by omega) (show estimate tcb < 2 ^ 31 by omega)
  rw [tcpsettimer, hsum]
  dsimp only
  rw [show MSPTICK = 50 from rfl, show (300 : ℤ) / 50 = 6 from rfl, show (64000 : ℤ) / 50 = 1280 from rfl]
  generalize (wrap (backoff tcb.backoff * estimate tcb)).tdiv 50 = x
  split_ifs <;> omega

/-- One call sets the timer to the bounded timeout exactly if the product fits, or is lucky. -/
theorem tcpsettimer_iff (h : Ranged tcb) :
    (tcpsettimer tcb).timer.start = timeout tcb.backoff (estimate tcb) ↔ Fits tcb.backoff (estimate tcb) := by
  obtain ⟨hlow, hhigh⟩ := h.estimate
  rw [tcpsettimer_start h, timeout, Fits]
  generalize estimate tcb = ms at *
  generalize tcb.backoff = n at *
  by_cases hfit : 2 ^ n * ms < 2 ^ 31
  · have hn := pow_lt_of_fits hlow hfit
    have hpos : 0 ≤ 2 ^ n * ms := by positivity
    rw [backoff_of_lt hn, wrap_of_range (by omega) hfit, Int.tdiv_eq_ediv_of_nonneg hpos]
    exact iff_of_true rfl (.inl hfit)
  · have hlarge : 1280 ≤ 2 ^ n * ms / 50 := by omega
    rw [or_iff_right hfit, max_eq_right (by omega : (6 : ℤ) ≤ 2 ^ n * ms / 50), min_eq_left hlarge]
    generalize wrap (backoff n * ms) = y
    rcases Int.le_total 0 y with hy | hy
    · rw [Int.tdiv_eq_ediv_of_nonneg hy]
      omega
    · have hq : 0 ≤ y.tdiv (-50) := Int.tdiv_nonneg_of_nonpos_of_nonpos hy (by decide)
      rw [Int.tdiv_neg] at hq
      omega

/-- A longer backoff is no shorter timeout. -/
theorem timeout_mono (hms : 0 ≤ ms) (h : n ≤ m) : timeout n ms ≤ timeout m ms := by
  have hpow : (2 : ℤ) ^ n * ms ≤ 2 ^ m * ms :=
    Int.mul_le_mul_of_nonneg_right (pow_le_pow_right₀ (by decide) h) hms
  have hdiv : 2 ^ n * ms / 50 ≤ 2 ^ m * ms / 50 := Int.ediv_le_ediv (by decide) hpow
  rw [timeout, timeout]
  omega

/-- No counter that fits is 31. -/
theorem not_fits_31 (hms : 50 ≤ ms) (hhigh : ms < 2 ^ 21) : ¬ Fits 31 ms := by
  rintro (h | h)
  · omega
  · have hback : backoff 31 = -2 ^ 31 := rfl
    rw [hback, wrap, Int.bmod_def] at h
    split at h
    all_goals omega

end Settimer

section Steps

variable {tcb u v : Tcpctl} {out : Output}

theorem SameTiming.refl (tcb : Tcpctl) : SameTiming tcb tcb := ⟨rfl, rfl, rfl, rfl, rfl⟩

theorem SameTiming.trans (h : SameTiming tcb u) (h' : SameTiming u v) : SameTiming tcb v :=
  ⟨h'.backoff.trans h.backoff, h'.backedoff.trans h.backedoff, h'.srtt.trans h.srtt, h'.mdev.trans h.mdev,
    h'.start.trans h.start⟩

theorem SameTiming.after (h' : SameTiming u v) (h : SameTiming tcb u) : SameTiming tcb v := h.trans h'

theorem SameTiming.estimate (h : SameTiming tcb u) : estimate u = estimate tcb := by
  rw [Tcp.estimate, Tcp.estimate, h.mdev, h.srtt]

theorem SameTiming.ranged (h : SameTiming tcb u) (hr : Ranged tcb) : Ranged u :=
  ⟨h.srtt ▸ hr.srtt, h.mdev ▸ hr.mdev⟩

theorem tcprxmit_same (out : Output) (tcb : Tcpctl) : SameTiming tcb (tcprxmit out tcb) := by
  have h := out.same { tcb with
    retran := true, force := true, snd := { tcb.snd with ptr := tcb.snd.una }, cwind := tcb.mss }
  exact ⟨h.backoff, h.backedoff, h.srtt, h.mdev, h.start⟩

theorem recovery_same (out : Output) (seg : Seg) (tcb : Tcpctl) : SameTiming tcb (recovery out seg tcb) := by
  rw [recovery]
  dsimp only
  split_ifs
  · exact ⟨rfl, rfl, rfl, rfl, rfl⟩
  · exact (tcprxmit_same out _).after ⟨rfl, rfl, rfl, rfl, rfl⟩
  · exact .refl tcb

theorem fastrxmit_same (out : Output) (seg : Seg) (tcb : Tcpctl) : SameTiming tcb (fastrxmit out seg tcb) := by
  rw [fastrxmit]
  dsimp only
  split_ifs
  · exact (recovery_same out seg _).after ⟨rfl, rfl, rfl, rfl, rfl⟩
  · exact (recovery_same out seg _).after ⟨rfl, rfl, rfl, rfl, rfl⟩
  all_goals exact ⟨rfl, rfl, rfl, rfl, rfl⟩

theorem updatewindow_same (seg : Seg) (tcb : Tcpctl) : SameTiming tcb (updatewindow seg tcb) := by
  rw [updatewindow]
  split_ifs <;> exact ⟨rfl, rfl, rfl, rfl, rfl⟩

/-- The acknowledgement moves `snd.una`. -/
def Acks (out : Output) (seg : Seg) (tcb : Tcpctl) : Prop :=
  seg.update = false ∧ seqgt seg.ack (updatewindow seg (fastrxmit out seg tcb)).snd.una = true

/-- Only an acknowledgement that moves `snd.una` touches more than `backedoff`, and it resets the counter. -/
theorem update_cases (out : Output) (discarded now : ℕ) (seg : Seg) (tcb : Tcpctl) :
    Acks out seg tcb ∧ (update out discarded now seg tcb).backoff = 0 ∨
      ¬ Acks out seg tcb ∧ ∃ ms, SameTiming { tcb with backedoff := ms } (update out discarded now seg tcb) := by
  have hsame := (fastrxmit_same out seg tcb).trans (updatewindow_same seg _)
  by_cases hupdate : seg.update = true
  · right
    refine ⟨fun h => absurd (hupdate.symm.trans h.1) Bool.noConfusion, tcb.backedoff, ?_⟩
    rw [update, if_pos hupdate]
    exact .refl tcb
  · rw [update, if_neg hupdate]
    rw [Bool.not_eq_true] at hupdate
    dsimp only
    generalize hw : updatewindow seg (fastrxmit out seg tcb) = w at *
    by_cases hacks : seqgt seg.ack w.snd.una = true
    · left
      refine ⟨⟨hupdate, by rw [hw]; exact hacks⟩, ?_⟩
      rw [if_neg (not_not.mpr hacks)]
      split_ifs <;> rfl
    · right
      refine ⟨fun h => hacks (hw ▸ h.2), ?_⟩
      rw [if_pos hacks]
      split_ifs
      · exact ⟨MAXBACKMS / 4, hsame.backoff, rfl, hsame.srtt, hsame.mdev, hsame.start⟩
      · exact ⟨tcb.backedoff, hsame⟩

/-- The timeouts after which the connection goes on. -/
def Retransmits (tcb : Tcpctl) : Prop :=
  (tcb.state ≠ .TimeWait ∧ tcb.state ≠ .Closed) ∧
    wrap (tcb.backedoff + wrap (tcb.timer.start * MSPTICK)) <
      if tcb.state = .SynSent then MAXBACKMS / 2 else MAXBACKMS

/-- One timeout: the counter goes up, and the timer is set if the connection goes on. -/
theorem tcptimeout_timing (out : Output) (tcb : Tcpctl) :
    (tcptimeout out tcb).srtt = tcb.srtt ∧ (tcptimeout out tcb).mdev = tcb.mdev ∧
      (Retransmits tcb → (tcptimeout out tcb).timer.start =
        (tcpsettimer { tcb with backoff := (tcb.backoff + 1) % 2 ^ 8 }).timer.start) ∧
      (¬ Retransmits tcb → (tcptimeout out tcb).timer.start = tcb.timer.start) ∧
      (tcptimeout out tcb).backoff =
        if tcb.state = .TimeWait ∨ tcb.state = .Closed then tcb.backoff else (tcb.backoff + 1) % 2 ^ 8 := by
  rw [tcptimeout]
  by_cases hwait : tcb.state = .TimeWait
  · rw [if_pos hwait, if_pos (.inl hwait)]
    exact ⟨rfl, rfl, fun h => absurd hwait h.1.1, fun _ => rfl, rfl⟩
  · rw [if_neg hwait]
    by_cases hclosed : tcb.state = .Closed
    · rw [if_pos hclosed, if_pos (.inr hclosed)]
      exact ⟨rfl, rfl, fun h => absurd hclosed h.1.2, fun _ => rfl, rfl⟩
    · rw [if_neg hclosed, if_neg (not_or.mpr ⟨hwait, hclosed⟩)]
      dsimp only
      by_cases hmax : wrap (tcb.backedoff + wrap (tcb.timer.start * MSPTICK)) <
          if tcb.state = .SynSent then MAXBACKMS / 2 else MAXBACKMS
      · rw [if_neg (not_le.mpr hmax)]
        set w := tcpsettimer { tcb with
          backoff := (tcb.backoff + 1) % 2 ^ 8
          backedoff := wrap (tcb.backedoff + wrap (tcb.timer.start * MSPTICK)) } with hw
        have hcong : SameTiming w (if ¬ w.snd.rto = true then tcpcongestion w else w) := by
          split_ifs <;> exact ⟨rfl, rfl, rfl, rfl, rfl⟩
        have h := hcong.trans (tcprxmit_same out _)
        exact ⟨h.srtt, h.mdev, fun _ => h.start, fun hno => absurd ⟨⟨hwait, hclosed⟩, hmax⟩ hno, h.backoff⟩
      · rw [if_pos (not_lt.mp hmax)]
        exact ⟨rfl, rfl, fun h => absurd h.2 hmax, fun _ => rfl, rfl⟩

end Steps

/-- What happens to a connection. The rest of the kernel leaves the timing alone. -/
inductive Act where
  | timeout (out : Output)
  | update (out : Output) (discarded now : ℕ) (seg : Seg)
  | synackrtt (now : ℕ)
  | other (out : Output)

def Act.run : Act → Tcpctl → Tcpctl
  | .timeout out, tcb => tcptimeout out tcb
  | .update out discarded now seg, tcb => Tcp.update out discarded now seg tcb
  | .synackrtt now, tcb => tcpsynackrtt now tcb
  | .other out, tcb => out.run tcb

/-- The timing that `inittcpctl` gives to a block. -/
structure Inited (tcb : Tcpctl) : Prop where
  backoff : tcb.backoff = 0
  backedoff : tcb.backedoff = 0
  srtt : tcb.srtt = 500 * 2 ^ LOGAGAIN
  mdev : tcb.mdev = 0
  start : tcb.timer.start = 500 / MSPTICK

/-- The blocks of the runs with estimates in range whose steps all meet the condition `C`. -/
inductive Reach (C : Tcpctl → Act → Prop) : Tcpctl → Prop
  | init {tcb : Tcpctl} (h : Inited tcb) : Reach C tcb
  | step {tcb : Tcpctl} {a : Act} (h : Reach C tcb) (hc : C tcb a) (hr : Ranged (a.run tcb)) : Reach C (a.run tcb)

/-- A timeout does not count further than the product fits, nor does a new estimate make it too large. -/
def Meets (tcb : Tcpctl) : Act → Prop
  | .timeout _ =>
    tcb.state = .TimeWait ∨ tcb.state = .Closed ∨ Fits ((tcb.backoff + 1) % 2 ^ 8) (estimate tcb)
  | .synackrtt now => Fits tcb.backoff (estimate (tcpsynackrtt now tcb))
  | _ => True

/-- Steps without an acknowledgement of anything new. -/
def Stalls (tcb : Tcpctl) : Act → Prop
  | .update out _ _ seg => ¬ Acks out seg tcb
  | .synackrtt _ => False
  | _ => True

/-- What a run without progress comes to. -/
inductive Stalled (tcb : Tcpctl) : Tcpctl → Prop
  | refl : Stalled tcb tcb
  | step {u : Tcpctl} {a : Act} (h : Stalled tcb u) (hc : Meets u a) (hs : Stalls u a) : Stalled tcb (a.run u)

section Runs

variable {tcb u : Tcpctl}

/-- The counter is below the sign bit, and the product fits. -/
structure Sound (tcb : Tcpctl) : Prop where
  ranged : Ranged tcb
  fits : Fits tcb.backoff (estimate tcb)
  backoff : tcb.backoff ≤ 30

theorem fits_zero (h : Ranged tcb) : Fits 0 (estimate tcb) := by
  obtain ⟨hlow, hhigh⟩ := h.estimate
  refine .inl ?_
  rw [pow_zero, one_mul]
  omega

theorem Inited.sound (h : Inited tcb) : Sound tcb := by
  have hr : Ranged tcb := ⟨by rw [h.srtt]; decide, by rw [h.mdev]; decide⟩
  exact ⟨hr, h.backoff ▸ fits_zero hr, h.backoff ▸ Nat.zero_le _⟩

theorem Sound.same (h : Sound tcb) (hsame : SameTiming tcb u) : Sound u :=
  ⟨hsame.ranged h.ranged, by rw [hsame.backoff, hsame.estimate]; exact h.fits, hsame.backoff ▸ h.backoff⟩

theorem estimate_tcptimeout (out : Output) (tcb : Tcpctl) : estimate (tcptimeout out tcb) = estimate tcb := by
  obtain ⟨hs, hm, -⟩ := tcptimeout_timing out tcb
  rw [estimate, estimate, hs, hm]

/-- The counter does not pass 30, since with 31 no product fits. -/
theorem Sound.timeout (h : Sound tcb) (out : Output) (hc : Meets tcb (.timeout out)) :
    Sound (tcptimeout out tcb) := by
  obtain ⟨hs, hm, -, -, hb⟩ := tcptimeout_timing out tcb
  have hr : Ranged (tcptimeout out tcb) := ⟨hs ▸ h.ranged.srtt, hm ▸ h.ranged.mdev⟩
  by_cases hover : tcb.state = .TimeWait ∨ tcb.state = .Closed
  · rw [if_pos hover] at hb
    exact ⟨hr, by rw [hb, estimate_tcptimeout]; exact h.fits, hb ▸ h.backoff⟩
  · have hfits := (or_assoc.mpr hc).resolve_left hover
    obtain ⟨hlow, hhigh⟩ := h.ranged.estimate
    have hle := h.backoff
    rw [if_neg hover] at hb
    refine ⟨hr, by rw [hb, estimate_tcptimeout]; exact hfits, ?_⟩
    by_contra hmore
    have h31 : (tcb.backoff + 1) % 2 ^ 8 = 31 := by omega
    rw [h31] at hfits
    exact not_fits_31 hlow hhigh hfits

theorem Sound.step (h : Sound tcb) {a : Act} (hc : Meets tcb a) (hr : Ranged (a.run tcb)) : Sound (a.run tcb) := by
  cases a with
  | timeout out => exact h.timeout out hc
  | update out discarded now seg =>
    rcases update_cases out discarded now seg tcb with ⟨-, hzero⟩ | ⟨-, ms, hsame⟩
    · refine ⟨hr, ?_, ?_⟩
      · show Fits (Tcp.update out discarded now seg tcb).backoff _
        rw [hzero]
        exact fits_zero hr
      · show (Tcp.update out discarded now seg tcb).backoff ≤ 30
        omega
    · exact @Sound.same { tcb with backedoff := ms } _ ⟨⟨h.ranged.srtt, h.ranged.mdev⟩, h.fits, h.backoff⟩ hsame
  | synackrtt now => exact ⟨hr, hc, h.backoff⟩
  | other out => exact h.same (out.same tcb)

theorem Reach.sound (h : Reach Meets tcb) : Sound tcb := by
  induction h with
  | init h => exact h.sound
  | step _ hc hr ih => exact ih.step hc hr

/-- Without progress the estimate stays, the counter does not go back and the timer is not shortened. -/
theorem Stalled.longer (h : Stalled tcb u) (hsound : Sound tcb)
    (hset : tcb.timer.start = timeout tcb.backoff (estimate tcb)) :
    Sound u ∧ estimate u = estimate tcb ∧ tcb.backoff ≤ u.backoff ∧ tcb.timer.start ≤ u.timer.start := by
  induction h with
  | refl => exact ⟨hsound, rfl, le_rfl, le_rfl⟩
  | @step u a _ hc hs ih =>
    obtain ⟨hu, hest, hback, hstart⟩ := ih
    cases a with
    | timeout out =>
      obtain ⟨-, -, hfire, hquiet, hb⟩ := tcptimeout_timing out u
      have hnext := hu.timeout out hc
      have hle := hu.backoff
      have hmore : u.backoff ≤ (tcptimeout out u).backoff := by
        rw [hb]
        split_ifs <;> omega
      refine ⟨hnext, (estimate_tcptimeout out u).trans hest, hback.trans hmore, ?_⟩
      by_cases hret : Retransmits u
      · have hmod : (u.backoff + 1) % 2 ^ 8 = u.backoff + 1 := Nat.mod_eq_of_lt (by omega)
        have hfits : Fits (u.backoff + 1) (estimate u) := by
          rcases hc with hwait | hclosed | hfits
          · exact absurd hwait hret.1.1
          · exact absurd hclosed hret.1.2
          · rwa [hmod] at hfits
        have hcall := (@tcpsettimer_iff { u with backoff := u.backoff + 1 } ⟨hu.ranged.srtt, hu.ranged.mdev⟩).mpr hfits
        show _ ≤ (tcptimeout out u).timer.start
        rw [hfire hret, hmod, hcall, hset, ← hest]
        exact timeout_mono (by have := hu.ranged.estimate; omega) (by show _ ≤ u.backoff + 1; omega)
      · show _ ≤ (tcptimeout out u).timer.start
        rw [hquiet hret]
        exact hstart
    | update out discarded now seg =>
      rcases update_cases out discarded now seg u with ⟨hacks, -⟩ | ⟨-, ms, hsame⟩
      · exact absurd hacks hs
      · refine ⟨@Sound.same { u with backedoff := ms } _ ⟨⟨hu.ranged.srtt, hu.ranged.mdev⟩, hu.fits, hu.backoff⟩
          hsame, hsame.estimate.trans hest, ?_, ?_⟩
        · exact hback.trans_eq hsame.backoff.symm
        · exact hstart.trans_eq hsame.start.symm
    | synackrtt now => exact hs.elim
    | other out =>
      have hsame := out.same u
      exact ⟨hu.same hsame, hsame.estimate.trans hest, hback.trans_eq hsame.backoff.symm,
        hstart.trans_eq hsame.start.symm⟩

end Runs

/-- In a run whose products fit the timer is always set to the bounded timeout, and a timeout that sets it
is followed by none that shortens it before something new is acknowledged. -/
theorem timer_backs_off {tcb : Tcpctl} (h : Reach Meets tcb) :
    (tcpsettimer tcb).timer.start = timeout tcb.backoff (estimate tcb) ∧
      ∀ out : Output, Retransmits tcb → Meets tcb (.timeout out) →
        (tcptimeout out tcb).timer.start = timeout (tcptimeout out tcb).backoff (estimate (tcptimeout out tcb)) ∧
          ∀ u, Stalled (tcptimeout out tcb) u → (tcptimeout out tcb).timer.start ≤ u.timer.start := by
  have hsound := h.sound
  refine ⟨(tcpsettimer_iff hsound.ranged).mpr hsound.fits, fun out hret hc => ?_⟩
  obtain ⟨hs, hm, hfire, -, hb⟩ := tcptimeout_timing out tcb
  have hnext := hsound.timeout out hc
  have hset : (tcptimeout out tcb).timer.start =
      timeout (tcptimeout out tcb).backoff (estimate (tcptimeout out tcb)) := by
    have hfits := hnext.fits
    rw [if_neg (not_or.mpr hret.1)] at hb
    rw [estimate_tcptimeout, hb] at hfits ⊢
    rw [hfire hret]
    exact (@tcpsettimer_iff { tcb with backoff := (tcb.backoff + 1) % 2 ^ 8 }
      ⟨hsound.ranged.srtt, hsound.ranged.mdev⟩).mpr hfits
  exact ⟨hset, fun u hu => (hu.longer hnext hset).2.2.2⟩

def still : Output := ⟨id, .refl⟩

/-- A connection that sends into a closed window, for the first time. -/
def probing : Tcpctl where
  state := .Established
  snd := ⟨1, 2, 2, 0, 0, 1, 0, 0, false, false, 0⟩
  cwind := 1460
  abcbytes := 0
  ssthresh := 65536
  mss := 1460
  backoff := 0
  backedoff := 0
  force := false
  retran := false
  synack := true
  timer := ⟨.ON, 10, 10⟩
  rttTimer := ⟨.OFF, 2 ^ 20, 0⟩
  acktimer := ⟨.OFF, 1, 0⟩
  katimer := ⟨.ON, 2400, 2400⟩
  rttseq := 0
  srtt := 4000
  mdev := 0
  sndsyntime := 0
  time := 0
  timeuna := 0
  flgcnt := 0

theorem probing_inited : Inited probing := ⟨rfl, rfl, rfl, rfl, rfl⟩

theorem timer_backs_off_probing :
    Reach Meets probing ∧
      (tcpsettimer probing).timer.start = timeout probing.backoff (estimate probing) ∧
      ∀ out : Output, Retransmits probing → Meets probing (.timeout out) →
        (tcptimeout out probing).timer.start =
            timeout (tcptimeout out probing).backoff (estimate (tcptimeout out probing)) ∧
          ∀ u, Stalled (tcptimeout out probing) u → (tcptimeout out probing).timer.start ≤ u.timer.start :=
  ⟨.init probing_inited, timer_backs_off (.init probing_inited)⟩

/-- So many probes time out, and each is answered with a window of zero. -/
def probed : ℕ → Tcpctl
  | 0 => probing
  | n + 1 => update still 0 0 ⟨1, 0, false⟩ (tcptimeout still (probed n))

/-- After 22 probes the product comes round: the timer is set to 6 ticks and not to 1280. -/
theorem timer_comes_round :
    Reach (fun _ _ => True) (probed 22) ∧
      timeout (probed 22).backoff (estimate (probed 22)) = 1280 ∧ (tcpsettimer (probed 22)).timer.start = 6 := by
  have hall : ∀ n < 23, ((probed n).srtt = 4000 ∧ (probed n).mdev = 0) ∧
      (tcptimeout still (probed n)).srtt = 4000 ∧ (tcptimeout still (probed n)).mdev = 0 := by
    decide
  have hreach : ∀ n < 23, Reach (fun _ _ => True) (probed n) := by
    intro n
    induction n with
    | zero => exact fun _ => .init probing_inited
    | succ n ih =>
      intro hn
      obtain ⟨-, hs, hm⟩ := hall n (by omega)
      obtain ⟨⟨hs', hm'⟩, -⟩ := hall (n + 1) hn
      have hnext : probed (n + 1) = update still 0 0 ⟨1, 0, false⟩ (tcptimeout still (probed n)) := rfl
      rw [hnext] at hs' hm'
      have htimeout := (ih (by omega)).step (a := .timeout still) trivial
        ⟨by rw [Act.run, hs]; decide, by rw [Act.run, hm]; decide⟩
      exact htimeout.step (a := .update still 0 0 ⟨1, 0, false⟩) trivial
        ⟨by rw [Act.run, Act.run, hs']; decide, by rw [Act.run, Act.run, hm']; decide⟩
  exact ⟨hreach 22 (by decide), by decide +kernel, by decide +kernel⟩

end Petele.Tcp
