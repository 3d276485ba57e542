import Petele.Qio.Invariant

namespace Petele.Qio

open Lib

variable {n : ℕ} {s s' t : St n} {c : List (Cell n)} {h : List (Fin n × Block n)} {p : List UInt8}
  {as : List (Act n)} {evs : List Event}

/-- The steps a process makes in `qwrite`, with nobody else about: the blocks it writes and the turns
of its flow control. -/
def Act.Solo : Act n → Prop
  | .qwblock _ _ | .flow => True
  | _ => False

/-- The bytes on the queue have grown by `p`. -/
def Grown (s t : St n) (p : List UInt8) : Prop :=
  ∃ l l', Chain Block.next s.sys.mem s.sys.q.bfirst l ∧ Chain Block.next t.sys.mem t.sys.q.bfirst l' ∧
    flat l' = flat l ++ p

/-- An open queue whose writers wait for room. -/
structure Waits (s : St n) : Prop where
  noblock : s.sys.q.noblock = false
  closed : s.sys.q.closed = false

/-- A `qwrite` that has queued the first `k` bytes of `p`: it is about to write a block, or waits for
room behind one, or has returned. -/
inductive Progress (s : St n) (p : List UInt8) (k : ℕ) : Prop where
  | ready (hlock : s.wlock = .free) (hwrites : s.writes = [⟨p, k⟩]) (hk : k = 0 ∨ s.sys.q.msg = false)
  | flow (hlock : s.wlock = .flow (some ⟨p, k⟩)) (hwrites : s.writes = [])
      (hk : s.sys.q.msg = true → k = min p.length Maxatomic)
  | done (hlock : s.wlock = .free) (hwrites : s.writes = [])
      (hk : k = if s.sys.q.msg then min p.length Maxatomic else p.length)

/-- What a `qwrite` keeps that began with the blocks `c` on the queue. -/
structure Writes (mode : Bool × Bool × Bool × Bool × Bool) (c : List (Cell n)) (p : List UInt8)
    (s : St n) (h : List (Fin n × Block n)) : Prop where
  mode : s.sys.q.mode = mode
  waits : Waits s
  grown : ∃ c' k, Inv s c' h ∧ k ≤ p.length ∧ Progress s p k ∧
    stream c' = stream c ++ if s.sys.q.bypass then [] else p.take k

section Steps

variable (hinv : Inv s c h)

theorem chunk_length (w : Writing) : w.chunk.length = min (w.p.length - w.sofar) Maxatomic := by
  rw [Writing.chunk, List.length_take, List.length_drop, Nat.min_comm]

/-- The bytes written so far and the next block. -/
theorem take_next (w : Writing) : w.p.take w.next.sofar = w.p.take w.sofar ++ w.chunk := by
  rw [Writing.next, List.take_add, Writing.chunk, List.length_take, List.length_drop]
  congr 1
  rw [List.take_eq_take_iff, List.length_drop]
  omega

/-- Behind a block `qwrite` goes on or returns. -/
theorem progress_resume {w : Writing} (hp : w.p = p) (hk : w.sofar ≤ p.length)
    (hmsg : s.sys.q.msg = true → w.sofar = min p.length Maxatomic) (hlock : s.wlock = .free)
    (hwrites : s.writes = w.resume s.sys.q) : Progress s p w.sofar := by
  obtain ⟨p', k⟩ := w
  subst hp
  rw [Writing.resume] at hwrites
  split at hwrites
  · rename_i hmore
    exact .ready hlock hwrites (.inr (by simpa using hmore.2))
  · rename_i hend
    refine .done hlock hwrites ?_
    dsimp only at *
    cases hm : s.sys.q.msg with
    | true => rw [hmsg hm]; rfl
    | false =>
      rw [hm] at hend
      rw [if_neg (by decide)]
      by_contra hne
      exact hend ⟨by omega, by decide⟩

include hinv

/-- The next block of a `qwrite` on such a queue. -/
theorem qwblock_appends (hwaits : Waits s) {i : ℕ} {r : Room n} {ev : Event}
    (hallowed : Allowed s (.qwblock i r)) (hstep : step s (.qwblock i r) = some (ev, s')) :
    ∃ w c', s.writes[i]? = some w ∧ Inv s' c' h ∧ s'.sys.q.mode = s.sys.q.mode ∧
      stream c' = stream c ++ (if s.sys.q.bypass then [] else w.chunk) ∧
      if s.sys.q.bypass then s'.wlock = .free ∧ s'.writes = w.next.resume s'.sys.q ++ s.writes.eraseIdx i
      else s'.wlock = .flow (some w.next) ∧ s'.writes = s.writes.eraseIdx i := by
  obtain ⟨hfree, w, hw, hfits⟩ := hallowed
  obtain ⟨b, -, -, hdata, halloc, hx, hmoves⟩ := hinv.has.alloc hfits
  have hxh := hinv.fresh hfits.1
  have he : ∀ y ∈ [r.addr], y ∉ addrs h := fun y hy => by rwa [List.mem_singleton.mp hy]
  have hself : Function.update s.sys.mem r.addr (some b) r.addr = some b := Function.update_self _ _ _
  obtain ⟨wr, sys, c', hwrite, hmoves', hcells, hqueued⟩ := qbwrite_spec hmoves.has hself hx
  have hboth : Moves [r.addr] s.sys c sys c' := hmoves.toMoves.trans hmoves'.toMoves fun y hy => .inr hy
  obtain rfl := hqueued hwaits.closed hwaits.noblock
  rw [step_of_qwblock hfree hw halloc] at hstep
  simp only [bwrite, hself, hwrite, Option.bind_eq_bind, Option.bind_some, Option.pure_def] at hstep
  refine ⟨w, ?_⟩
  by_cases hbypass : s.sys.q.bypass = true
  · rw [if_pos hbypass] at hstep
    cases hstep
    refine ⟨c, hw, hinv.moves hmoves.toMoves he rfl, rfl, ?_, ?_⟩
    · rw [if_pos hbypass, List.append_nil]
    · rw [if_pos hbypass]
      exact ⟨hfree, rfl⟩
  · rw [if_neg hbypass] at hstep
    cases hstep
    refine ⟨c', hw, hinv.moves hboth he rfl, hboth.mode, ?_, ?_⟩
    · rw [if_neg hbypass, stream, stream, List.flatMap_def, List.flatMap_def, hcells, List.flatten_append]
      simp [hdata]
    · rw [if_neg hbypass]
      exact ⟨rfl, rfl⟩

end Steps

section Runs

variable {mode : Bool × Bool × Bool × Bool × Bool} {ev : Event} {a : Act n}

theorem Waits.of_mode (hw : Waits s) (hmode : s'.sys.q.mode = s.sys.q.mode) : Waits s' := by
  simp only [Queue.mode, Prod.mk.injEq] at hmode
  exact ⟨hmode.2.2.1.trans hw.noblock, hmode.2.2.2.2.trans hw.closed⟩

theorem msg_of_mode (hmode : s'.sys.q.mode = s.sys.q.mode) : s'.sys.q.msg = s.sys.q.msg :=
  congrArg Prod.fst hmode

theorem bypass_of_mode (hmode : s'.sys.q.mode = s.sys.q.mode) : s'.sys.q.bypass = s.sys.q.bypass :=
  congrArg (·.2.2.2.1) hmode

/-- The first block of a message is all of it there is on the queue. -/
theorem next_sofar {k : ℕ} (hk : k ≤ p.length) :
    (Writing.next ⟨p, k⟩).sofar ≤ p.length ∧ (k = 0 → (Writing.next ⟨p, k⟩).sofar = min p.length Maxatomic) := by
  rw [Writing.next, chunk_length]
  dsimp only
  omega

theorem Writes.qwblock (hw : Writes mode c p s h) {i : ℕ} {r : Room n}
    (hallowed : Allowed s (.qwblock i r)) (hstep : step s (.qwblock i r) = some (ev, s')) :
    Writes mode c p s' h := by
  obtain ⟨c₀, k, hinv, hk, hprogress, hstream⟩ := hw.grown
  obtain ⟨w, c₁, hget, hinv₁, hmode, happend, hlocks⟩ := qwblock_appends hinv hw.waits hallowed hstep
  have hfree := hallowed.1
  cases hprogress with
  | flow hlock hwrites hk =>
    rw [hfree] at hlock
    cases hlock
  | done hlock hwrites hk =>
    rw [hwrites] at hget
    cases hget
  | ready hlock hwrites hstart =>
    rw [hwrites] at hget hlocks
    obtain rfl : i = 0 := by
      by_contra hne
      rw [List.getElem?_eq_none (by rw [List.length_singleton]; omega)] at hget
      cases hget
    obtain rfl : (⟨p, k⟩ : Writing) = w := Option.some.inj hget
    obtain ⟨hk', hfirst⟩ := next_sofar hk
    have hmsg : s'.sys.q.msg = true → (Writing.next ⟨p, k⟩).sofar = min p.length Maxatomic := by
      intro hm
      rw [msg_of_mode hmode] at hm
      exact hfirst (hstart.resolve_right (by simp [hm]))
    refine ⟨hmode.trans hw.mode, hw.waits.of_mode hmode, c₁, (Writing.next ⟨p, k⟩).sofar, hinv₁, hk', ?_, ?_⟩
    · by_cases hbypass : s.sys.q.bypass = true
      · rw [if_pos hbypass] at hlocks
        exact progress_resume rfl hk' hmsg hlocks.1 (by rw [hlocks.2]; exact List.append_nil _)
      · rw [if_neg hbypass] at hlocks
        exact .flow hlocks.1 hlocks.2 hmsg
    · rw [happend, hstream, bypass_of_mode hmode, List.append_assoc]
      split
      · rfl
      · rw [take_next ⟨p, k⟩]

theorem Writes.flow (hw : Writes mode c p s h) (hallowed : Allowed s .flow)
    (hstep : step s .flow = some (ev, s')) : Writes mode c p s' h := by
  obtain ⟨w, hlock⟩ := hallowed
  obtain ⟨c₀, k, hinv, hk, hprogress, hstream⟩ := hw.grown
  cases hprogress with
  | ready hfree hwrites hstart =>
    rw [hfree] at hlock
    cases hlock
  | done hfree hwrites hend =>
    rw [hfree] at hlock
    cases hlock
  | flow hflow hwrites hmsg =>
    obtain rfl : some ⟨p, k⟩ = w := by
      rw [hflow] at hlock
      exact Wlock.flow.inj hlock
    simp only [step, hlock] at hstep
    split at hstep
    · cases hstep
      have hsame : Inv (St.resume { s with wlock := .free } (some ⟨p, k⟩)) c₀ h := ⟨hinv.has, hinv.held⟩
      refine ⟨hw.mode, hw.waits.of_mode rfl, c₀, k, hsame, hk, ?_, hstream⟩
      refine progress_resume (w := ⟨p, k⟩) rfl hk hmsg rfl ?_
      rw [St.resume, hwrites]
      exact List.append_nil _
    · cases hstep
      refine ⟨hw.mode, hw.waits.of_mode rfl, c₀, k, ⟨?_, hinv.held.chain, hinv.held.apart⟩, hk,
        .flow rfl hwrites hmsg, hstream⟩
      exact hinv.has.congr (fun _ _ => rfl) rfl rfl rfl rfl

/-- The steps of the process alone keep to its `qwrite`. -/
theorem Writes.run (hw : Writes mode c p s h) (hrun : Runs s as evs t) (hsolo : ∀ a ∈ as, a.Solo) :
    Writes mode c p t h := by
  induction hrun with
  | nil s => exact hw
  | @cons s s' t a ev as evs hallowed hstep hrest ih =>
    refine ih ?_ fun b hb => hsolo b (List.mem_cons_of_mem _ hb)
    have ha := hsolo a List.mem_cons_self
    cases a with
    | qwblock i r => exact hw.qwblock hallowed hstep
    | flow => exact hw.flow hallowed hstep
    | _ => exact ha.elim

/-- When `qwrite` has returned, the queue has the bytes of `p`, or the first `Maxatomic` of a message,
or none of those that went to a bypass. -/
theorem qwrite_queues (hinv : Inv s c h) (hwaits : Waits s) (hlock : s.wlock = .free)
    (hwrites : s.writes = []) (hrun : Runs s (.qwrite p :: as) evs t) (hsolo : ∀ a ∈ as, a.Solo)
    (hdone : t.wlock = .free ∧ t.writes = []) :
    ∃ l l', Chain Block.next s.sys.mem s.sys.q.bfirst l ∧
      Chain Block.next t.sys.mem t.sys.q.bfirst l' ∧
      flat l' = flat l ++ if s.sys.q.bypass then [] else
        p.take (if s.sys.q.msg then min p.length Maxatomic else p.length) := by
  cases hrun with
  | cons hallowed hstep hrest =>
    simp only [step] at hstep
    cases hstep
    have hstart : Writes s.sys.q.mode c p { s with writes := ⟨p, 0⟩ :: s.writes } h := by
      refine ⟨rfl, hwaits.of_mode rfl, c, 0, ⟨hinv.has, hinv.held⟩, Nat.zero_le _, ?_, ?_⟩
      · exact .ready hlock (by rw [hwrites]) (.inl rfl)
      · split <;> simp
    have hend := hstart.run hrest hsolo
    obtain ⟨c', k, hinv', -, hprogress, hstream⟩ := hend.grown
    have hk : k = if s.sys.q.msg then min p.length Maxatomic else p.length := by
      rw [← msg_of_mode hend.mode]
      cases hprogress with
      | ready hlock' hwrites' _ =>
        rw [hdone.2] at hwrites'
        cases hwrites'
      | flow hlock' _ _ =>
        rw [hdone.1] at hlock'
        cases hlock'
      | done _ _ hk => exact hk
    obtain ⟨l, hl, rfl⟩ := hinv.has.chain
    obtain ⟨l', hl', rfl⟩ := hinv'.has.chain
    refine ⟨l, l', hl, hl', ?_⟩
    rw [bypass_of_mode hend.mode, hk] at hstream
    rw [flat_eq_stream, flat_eq_stream]
    exact hstream

/-- A call of `qwrite` that returns has queued all its bytes exactly if the queue is one of bytes or the
write is no longer than `Maxatomic`; where the blocks go to a bypass, only if there are none. -/
theorem qwrite_honest (hinv : Inv s c h) (hwaits : Waits s) (hlock : s.wlock = .free)
    (hwrites : s.writes = []) (hrun : Runs s (.qwrite p :: as) evs t) (hsolo : ∀ a ∈ as, a.Solo)
    (hdone : t.wlock = .free ∧ t.writes = []) :
    Grown s t p ↔ if s.sys.q.bypass then p = [] else s.sys.q.msg = false ∨ p.length ≤ Maxatomic := by
  obtain ⟨l, l', hl, hl', hflat⟩ := qwrite_queues hinv hwaits hlock hwrites hrun hsolo hdone
  have hgrown : Grown s t p ↔ flat l' = flat l ++ p := by
    constructor
    · rintro ⟨k, k', hk, hk', heq⟩
      rwa [hl.unique hk, hl'.unique hk']
    · exact fun heq => ⟨l, l', hl, hl', heq⟩
  rw [hgrown, hflat, List.append_cancel_left_eq]
  cases s.sys.q.bypass with
  | true => exact eq_comm
  | false =>
    simp only [Bool.false_eq_true, if_false]
    rw [List.take_eq_self_iff]
    cases s.sys.q.msg with
    | true => simp
    | false => simp

/-- Two bytes on an empty queue. -/
theorem qwrite_honest_two :
    ∃ evs t, Runs ⟨⟨fun _ : Fin 1 => none, qopen 1024 true false false⟩, .free, .free, [], []⟩
        [.qwrite [1, 2], .qwblock 0 ⟨0, 64⟩, .flow] evs t ∧
      (Grown ⟨⟨fun _ : Fin 1 => none, qopen 1024 true false false⟩, .free, .free, [], []⟩ t [1, 2] ↔
        if false = true then ([1, 2] : List UInt8) = [] else true = false ∨ 2 ≤ Maxatomic) := by
  have hrun : Runs (n := 1) ⟨⟨fun _ => none, qopen 1024 true false false⟩, .free, .free, [], []⟩
      [.qwrite [1, 2], .qwblock 0 ⟨0, 64⟩, .flow] _ _ :=
    .cons trivial rfl (.cons ⟨rfl, ⟨[1, 2], 0⟩, rfl, rfl, by decide, by decide⟩ rfl
      (.cons ⟨some ⟨[1, 2], 2⟩, rfl⟩ rfl (.nil _)))
  refine ⟨_, _, hrun, ?_⟩
  exact qwrite_honest (Opened.qopen _ 1024 true false false).inv ⟨rfl, rfl⟩ rfl rfl hrun
    (by simp [Act.Solo]) ⟨rfl, rfl⟩

/-- Its bytes do not matter, only its length. -/
theorem cut_of_length {p : List UInt8} (hp : p.length = 65537) :
    ∃ evs t, Runs ⟨⟨fun _ : Fin 1 => none, qopen (2 ^ 20) true false false⟩, .free, .free, [], []⟩
        [.qwrite p, .qwblock 0 ⟨0, 65536⟩, .flow] evs t ∧ t.wlock = .free ∧ t.writes = [] ∧
      ¬ Grown ⟨⟨fun _ : Fin 1 => none, qopen (2 ^ 20) true false false⟩, .free, .free, [], []⟩ t p := by
  have hchunk : (Writing.chunk ⟨p, 0⟩).length = 65536 := by
    rw [chunk_length, hp]
    rfl
  have hfits : Room.Fits (fun _ : Fin 1 => none) (Writing.chunk ⟨p, 0⟩).length ⟨0, 65536⟩ := by
    rw [hchunk]
    exact ⟨rfl, by decide, by decide⟩
  obtain ⟨b, hnext, halloc, hdata, heq⟩ := alloc_eq hfits
  have hblock : ∃ ev q m, step ⟨⟨fun _ : Fin 1 => none, qopen (2 ^ 20) true false false⟩, .free, .free,
      [⟨p, 0⟩], []⟩ (.qwblock 0 ⟨0, 65536⟩) =
        some (ev, ⟨⟨m, q⟩, .free, .flow (some (Writing.next ⟨p, 0⟩)), [], []⟩) ∧
      q.len = 65536 ∧ q.limit = 2 ^ 20 ∧ q.msg = true ∧ q.noblock = false := by
    simp only [step, List.getElem?_cons_zero, heq, bwrite, qbwrite, attach, qopen, Function.update_self,
      Option.bind_eq_bind, Option.bind_some, Option.pure_def, Bool.false_eq_true, if_false, and_false]
    refine ⟨_, _, _, rfl, ?_, rfl, rfl, rfl⟩
    dsimp only
    rw [BALLOC, halloc]
    decide
  obtain ⟨ev, q, m, hstep, hlen, hlimit, hmsg, hnoblock⟩ := hblock
  have hflow : step ⟨⟨m, q⟩, .free, .flow (some (Writing.next ⟨p, 0⟩)), [], []⟩ .flow =
      some (.none, ⟨⟨m, q⟩, .free, .free, [], []⟩) := by
    simp only [step]
    rw [if_pos (.inr (by rw [qnotfull, hlen, hlimit]; exact decide_eq_true (.inl (by decide))))]
    simp [St.resume, Writing.resume, hmsg]
  have hrun : Runs ⟨⟨fun _ : Fin 1 => none, qopen (2 ^ 20) true false false⟩, .free, .free, [], []⟩
      [.qwrite p, .qwblock 0 ⟨0, 65536⟩, .flow] [.none, ev, .none] ⟨⟨m, q⟩, .free, .free, [], []⟩ :=
    .cons trivial rfl (.cons ⟨rfl, ⟨p, 0⟩, rfl, hfits⟩ hstep (.cons ⟨_, rfl⟩ hflow (.nil _)))
  refine ⟨_, _, hrun, rfl, rfl, ?_⟩
  rintro ⟨l, l', hl, hl', hgrown⟩
  obtain ⟨k, k', hk, hk', hflat⟩ := qwrite_queues (Opened.qopen _ (2 ^ 20) true false false).inv
    ⟨rfl, rfl⟩ rfl rfl hrun (by simp [Act.Solo]) ⟨rfl, rfl⟩
  rw [hk.unique hl, hk'.unique hl', hgrown] at hflat
  have hcut := List.append_cancel_left hflat
  have hlength := congrArg List.length hcut
  rw [if_neg (by decide), if_pos (by decide), List.length_take, hp] at hlength
  exact absurd hlength (by decide)

/-- One byte more than `Maxatomic`. -/
def long : List UInt8 := List.replicate 65537 0

/-- A message of this length comes back as written, and its last byte is not on the queue. -/
theorem long_message_cut :
    ∃ evs t, Runs ⟨⟨fun _ : Fin 1 => none, qopen (2 ^ 20) true false false⟩, .free, .free, [], []⟩
        [.qwrite long, .qwblock 0 ⟨0, 65536⟩, .flow] evs t ∧ t.wlock = .free ∧ t.writes = [] ∧
      ¬ Grown ⟨⟨fun _ : Fin 1 => none, qopen (2 ^ 20) true false false⟩, .free, .free, [], []⟩ t long :=
  cut_of_length List.length_replicate


end Runs

end Petele.Qio
