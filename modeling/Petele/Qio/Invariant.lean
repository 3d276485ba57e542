import Petele.Qio.Readers

namespace Petele.Qio

open Lib

variable {n : ℕ} {s s' : St n} {c : List (Cell n)} {h : List (Fin n × Block n)}

/-- The queue holds the blocks `c` and its reader the blocks `h`. -/
structure Inv (s : St n) (c : List (Cell n)) (h : List (Fin n × Block n)) : Prop where
  has : Has s.sys.mem s.sys.q c
  held : Holds s.sys c s.rlock.held h

theorem Inv.mine (hinv : Inv s c h) (y : Fin n) : Mine s y ↔ y ∈ places c ∨ y ∈ addrs h := by
  obtain ⟨l, hl, hcells⟩ := hinv.has.chain
  rw [← hcells, places_cells]
  constructor
  · rintro ⟨l', hl' | hl', hy⟩
    · rw [hl.unique hl']
      exact Or.inl hy
    · rw [hinv.held.chain.unique hl']
      exact Or.inr hy
  · rintro (hy | hy)
    · exact ⟨l, Or.inl hl, hy⟩
    · exact ⟨h, Or.inr hinv.held.chain, hy⟩

/-- A section that touches nothing of the reader's. -/
theorem Inv.moves (hinv : Inv s c h) {e : List (Fin n)} {c' : List (Cell n)}
    (hmoves : Moves e s.sys c s'.sys c') (he : ∀ y ∈ e, y ∉ addrs h)
    (hlock : s'.rlock.held = s.rlock.held) : Inv s' c' h := by
  refine ⟨hmoves.has, ?_, ?_⟩
  · rw [hlock]
    refine Seg.frame hinv.held.chain fun y hy => ?_
    exact hmoves.frame y (hinv.held.apart y hy) fun hmem => he y hmem hy
  · intro y hy hc
    rcases hmoves.sub y hc with hold | hnew
    · exact hinv.held.apart y hy hold
    · exact he y hnew hy

/-- An address that is free is none of the reader's. -/
theorem Inv.fresh (hinv : Inv s c h) {y : Fin n} (hy : s.sys.mem y = none) : y ∉ addrs h := by
  intro hmem
  obtain ⟨z, hz, rfl⟩ := List.mem_map.mp hmem
  rw [Seg.lookup hinv.held.chain hz] at hy
  cases hy

/-- The bytes on their way: those the reader has copied, those it holds, those on the queue. -/
def content (s : St n) (c : List (Cell n)) (h : List (Fin n × Block n)) : List UInt8 :=
  s.rlock.got ++ stream (cells h) ++ stream c

/-- A byte stream queue in ordinary use. -/
structure Streaming (s : St n) : Prop where
  msg : s.sys.q.msg = false
  noblock : s.sys.q.noblock = false
  bypass : s.sys.q.bypass = false
  closed : s.sys.q.closed = false

/-- What a reader holds it will return, but for the rest of one block. -/
def Snug (s : St n) (h : List (Fin n × Block n)) : Prop :=
  match s.rlock with
  | .copy _ _ len => h.length = 1 ∨ lens (cells h) ≤ len
  | .back _ _ _ => h.length ≤ 1
  | _ => True

/-- A reader that holds no blocks. -/
def Rlock.Idle (lock : Rlock n) : Prop := lock = .free ∨ ∃ r, lock = .wait r

theorem Rlock.Idle.holds {lock : Rlock n} (h : lock.Idle) : lock.held = none ∧ lock.got = [] := by
  rcases h with rfl | ⟨r, rfl⟩ <;> exact ⟨rfl, rfl⟩

/-- The calls that write and read a stream. -/
def Act.Plain : Act n → Prop
  | .qpass _ | .qpassnolim _ | .qproduce _ _ | .rlock _ | .section1 _ | .rintr | .bl2mem | .section2
  | .qbwrite _ | .qwrite _ | .qwblock _ _ | .flow | .wintr | .other _ => True
  | _ => False

/-- The bytes queued can be counted with an `int` where `qread` does so. -/
def Countable (s : St n) (a : Act n) : Prop :=
  ∀ r len, a = .section1 r → s.rlock = .wait (.qread len) → s.sys.q.coalesce = true →
    ∀ l, Chain Block.next s.sys.mem s.sys.q.bfirst l → lens (cells l) < 2 ^ 31

/-- A step from the blocks `c` and `h` comes out with such blocks again and, on a stream, changes
the bytes on their way as its event says. -/
def Good (s : St n) (c : List (Cell n)) (h : List (Fin n × Block n)) (a : Act n)
    (r : Option (Event × St n)) : Prop :=
  ∃ ev s' c' h', r = some (ev, s') ∧ Inv s' c' h' ∧
    (a.Plain → Countable s a → Streaming s → Snug s h →
      Streaming s' ∧ Snug s' h' ∧
        ev.returned ++ content s' c' h' = content s c h ++ ev.accepted)

theorem Streaming.of_mode (hs : Streaming s) (hmode : s'.sys.q.mode = s.sys.q.mode) :
    Streaming s' := by
  simp only [Queue.mode, Prod.mk.injEq] at hmode
  obtain ⟨hmsg, -, hblock, hbypass, hclosed⟩ := hmode
  exact ⟨hmsg.trans hs.msg, hblock.trans hs.noblock, hbypass.trans hs.bypass,
    hclosed.trans hs.closed⟩

/-- A section that leaves the reader alone. -/
theorem Good.moves (hinv : Inv s c h) {a : Act n} {e : List (Fin n)} {c' : List (Cell n)}
    {ev : Event} (hmoves : Moves e s.sys c s'.sys c') (he : ∀ y ∈ e, y ∉ addrs h)
    (hlock : s'.rlock = s.rlock) (hret : ev.returned = [])
    (hacc : a.Plain → Streaming s → stream c' = stream c ++ ev.accepted) :
    Good s c h a (some (ev, s')) := by
  refine ⟨ev, s', c', h, rfl, hinv.moves hmoves he (by rw [hlock]), ?_⟩
  intro hplain _ hs hsnug
  refine ⟨hs.of_mode hmoves.mode, ?_, ?_⟩
  · rwa [Snug, hlock]
  · rw [content, content, hlock, hret, hacc hplain hs, List.nil_append, List.append_assoc,
      List.append_assoc, List.append_assoc]

theorem Inv.same (hinv : Inv s c h) (hmem : s'.sys.mem = s.sys.mem)
    (hq : s'.sys.q.bfirst = s.sys.q.bfirst ∧ s'.sys.q.blast = s.sys.q.blast ∧
      s'.sys.q.len = s.sys.q.len ∧ s'.sys.q.dlen = s.sys.q.dlen)
    (hheld : s'.rlock.held = s.rlock.held) : Inv s' c h := by
  obtain ⟨hfirst, hlast, hlen, hdlen⟩ := hq
  refine ⟨hinv.has.congr (fun y _ => by rw [hmem]) hfirst hlast hlen hdlen, ?_⟩
  rw [hheld]
  exact ⟨by rw [hmem]; exact hinv.held.chain, hinv.held.apart⟩

/-- A step of no effect on the blocks. -/
theorem Good.same (hinv : Inv s c h) {a : Act n} (hmem : s'.sys.mem = s.sys.mem)
    (hq : s'.sys.q.bfirst = s.sys.q.bfirst ∧ s'.sys.q.blast = s.sys.q.blast ∧
      s'.sys.q.len = s.sys.q.len ∧ s'.sys.q.dlen = s.sys.q.dlen)
    (hmode : a.Plain → s'.sys.q.mode = s.sys.q.mode)
    (hheld : s'.rlock.held = s.rlock.held) (hgot : s'.rlock.got = s.rlock.got)
    (hsnug : Snug s h → Snug s' h) : Good s c h a (some (.none, s')) := by
  refine ⟨.none, s', c, h, rfl, hinv.same hmem hq hheld, ?_⟩
  intro hplain _ hs hs'
  refine ⟨hs.of_mode (hmode hplain), hsnug hs', ?_⟩
  simp only [content, hgot, Event.returned, Event.accepted, List.nil_append, List.append_nil]

section Calls

/-! What a call comes to, by what its section gives. -/

variable {sys : Sys n}

attribute [local simp] step

theorem step_of_qget {r : Option (Fin n)} (h : qget s.sys = some (r, sys)) :
    step s .qget = some (.none, { s with sys := sys }) := by
  simp only [step, h, Option.bind_eq_bind, Option.bind_some, Option.pure_def]

theorem step_of_qdiscard {len r : ℤ} (h : qdiscard s.sys len = some (r, sys)) :
    step s (.qdiscard len) = some (.none, { s with sys := sys }) := by
  simp only [step, h, Option.bind_eq_bind, Option.bind_some, Option.pure_def]

theorem step_of_qconsume {len : ℕ} {r : Option (List UInt8)} (h : qconsume s.sys len = some (r, sys)) :
    step s (.qconsume len) = some (.none, { s with sys := sys }) := by
  simp only [step, h, Option.bind_eq_bind, Option.bind_some, Option.pure_def]

theorem step_of_qproduce {p : List UInt8} {r : Option (Room n)} {v : ℤ} (h : qproduce s.sys p r = some (v, sys)) :
    step s (.qproduce p r) = some (if s.sys.q.limit ≤ s.sys.q.len ∨ r.isNone then .none else .accept p,
      { s with sys := sys }) := by
  simp only [step, h, Option.bind_eq_bind, Option.bind_some, Option.pure_def]

theorem step_of_section1 {r : Reader} (h : s.rlock = .wait r) (room : Option (Room n)) :
    step s (.section1 room) = section1 s r room := by
  simp only [step, h]

theorem step_of_bl2mem {first : Fin n} {cnt : ℤ} {len : ℕ} {got : List UInt8} {rest : Option (Fin n)} {m : Mem n}
    (hcopy : s.rlock = .copy first cnt len) (h : bl2mem n s.sys.mem (some first) len = some (got, rest, m)) :
    step s .bl2mem = some (.none, { s with sys := { s.sys with mem := m }, rlock := .back rest got cnt }) := by
  simp only [step, hcopy, h, Option.bind_eq_bind, Option.bind_some, Option.pure_def]

theorem step_of_section2 {rest : Option (Fin n)} {got : List UInt8} {cnt r : ℤ} (hback : s.rlock = .back rest got cnt)
    (h : qreadend s.sys rest cnt = some (r, sys)) :
    step s .section2 = some (.deliver got, { s with sys := sys, rlock := .free }) := by
  simp only [step, hback, h, Option.bind_eq_bind, Option.bind_some, Option.pure_def]

theorem step_of_qbwrite (h : s.wlock = .free) (x : Fin n) : step s (.qbwrite x) = bwrite s x none := by
  simp only [step, h]

theorem step_of_qwblock {i : ℕ} {w : Writing} {r : Room n} {m : Mem n} (hfree : s.wlock = .free)
    (hw : s.writes[i]? = some w) (h : alloc s.sys.mem r w.chunk = some m) :
    step s (.qwblock i r) = bwrite { s with
      sys := ⟨m, s.sys.q⟩
      writes := s.writes.eraseIdx i } r.addr (some w.next) := by
  simp only [step, hfree, hw, h, Option.bind_eq_bind, Option.bind_some]

end Calls

section Steps

variable (hinv : Inv s c h)

include hinv

theorem step_qget : Good s c h .qget (step s .qget) := by
  obtain ⟨r, sys, hget, hmoves, -⟩ := qget_spec hinv.has
  rw [step_of_qget hget]
  exact Good.moves hinv hmoves.toMoves nofun rfl rfl nofun

theorem step_qdiscard (len : ℤ) : Good s c h (.qdiscard len) (step s (.qdiscard len)) := by
  obtain ⟨r, sys, c', hdiscard, hmoves⟩ := qdiscard_spec hinv.has len
  rw [step_of_qdiscard hdiscard]
  exact Good.moves hinv hmoves.toMoves nofun rfl rfl nofun

theorem step_qconsume (len : ℕ) : Good s c h (.qconsume len) (step s (.qconsume len)) := by
  obtain ⟨r, sys, c', e, hconsume, hmoves, -⟩ := qconsume_spec hinv.has len
  rw [step_of_qconsume hconsume]
  exact Good.moves hinv hmoves.toMoves nofun rfl rfl nofun

/-- `qpass` and `qpassnolim`, for blocks of the caller's own. -/
theorem pass_good {a : Act n} {x : Fin n} {k : List (Fin n × Block n)} {full : Bool}
    {f : Sys n → Fin n → Option (ℤ × Sys n)} {r : ℤ} {sys : Sys n}
    (hk : Chain Block.next s.sys.mem (some x) k) (hown : ∀ y ∈ addrs k, ¬ Mine s y)
    (hf : f s.sys x = some (r, sys))
    (hmoves : Moves (addrs k) s.sys c sys
      (if full ∨ s.sys.q.closed then c else c ++ cells k)) :
    Good s c h a (pass s x f full) := by
  have hpass : pass s x f full = some (if full ∨ s.sys.q.closed then .none else .accept (flat k),
      { s with sys := sys }) := by
    simp only [pass, blocks_eq hk, hf, Option.bind_eq_bind, Option.bind_some, Option.pure_def]
  rw [hpass]
  refine Good.moves hinv hmoves ?_ rfl (by split <;> rfl) fun _ _ => ?_
  · intro y hy hmem
    exact hown y hy ((hinv.mine y).mpr (Or.inr hmem))
  · split
    · simp [Event.accepted]
    · rw [stream_append, Event.accepted, flat_eq_stream]

omit hinv in
theorem Inv.own (hinv : Inv s c h) {k : List (Fin n × Block n)}
    (hown : ∀ y ∈ addrs k, ¬ Mine s y) : ∀ y ∈ addrs k, y ∉ places c :=
  fun y hy hmem => hown y hy ((hinv.mine y).mpr (Or.inl hmem))

theorem step_qpass (x : Fin n) (hallowed : Allowed s (.qpass x)) :
    Good s c h (.qpass x) (step s (.qpass x)) := by
  obtain ⟨k, hk, hown⟩ := hallowed
  obtain ⟨r, sys, hf, hmoves⟩ := qpass_spec hinv.has hk (hinv.own hown)
  exact pass_good hinv hk hown hf (by simpa using hmoves.toMoves)

theorem step_qpassnolim (x : Fin n) (hallowed : Allowed s (.qpassnolim x)) :
    Good s c h (.qpassnolim x) (step s (.qpassnolim x)) := by
  obtain ⟨k, hk, hown⟩ := hallowed
  obtain ⟨r, sys, hf, hmoves⟩ := qpassnolim_spec hinv.has hk (hinv.own hown)
  exact pass_good hinv hk hown hf (by simpa using hmoves.toMoves)

theorem step_qproduce (p : List UInt8) (r : Option (Room n))
    (hallowed : Allowed s (.qproduce p r)) :
    Good s c h (.qproduce p r) (step s (.qproduce p r)) := by
  obtain ⟨v, sys, c', hproduce, hmoves, hfresh, hdata⟩ := qproduce_spec hinv.has p r hallowed
  rw [step_of_qproduce hproduce]
  refine Good.moves hinv hmoves.toMoves (fun y hy => hinv.fresh (hfresh y hy)) rfl (by split <;> rfl)
    fun _ _ => ?_
  rw [stream, stream, List.flatMap_def, List.flatMap_def, hdata, List.flatten_append]
  split <;> simp [Event.accepted]

theorem step_rlock (r : Reader) (hallowed : Allowed s (.rlock r)) :
    Good s c h (.rlock r) (step s (.rlock r)) := by
  have hfree : s.rlock = .free := hallowed
  simp only [step, hfree]
  exact Good.same hinv rfl ⟨rfl, rfl, rfl, rfl⟩ (fun _ => rfl) (by rw [hfree]; rfl)
    (by rw [hfree]; rfl) fun _ => trivial

theorem step_rintr (hallowed : Allowed s .rintr) : Good s c h .rintr (step s .rintr) := by
  obtain ⟨r, hwait⟩ := hallowed
  simp only [step, hwait]
  exact Good.same hinv rfl ⟨rfl, rfl, rfl, rfl⟩ (fun _ => rfl) (by rw [hwait]; rfl)
    (by rw [hwait]; rfl) fun _ => trivial

omit hinv in
theorem Inv.waiting (hinv : Inv s c h) {r : Reader} (hwait : s.rlock = .wait r) : h = [] := by
  have hchain := hinv.held.chain
  rw [hwait] at hchain
  have hempty : Chain Block.next s.sys.mem none [] := rfl
  exact hchain.unique hempty

/-- A step of a reader that holds no blocks before it nor after it. -/
theorem Good.idle {a : Act n} {e : List (Fin n)} {c' : List (Cell n)} {sys : Sys n} {ev : Event}
    {lock : Rlock n} (hold : s.rlock.Idle) (hnew : lock.Idle) (hmoves : Moves e s.sys c sys c')
    (he : ∀ y ∈ e, y ∉ addrs h)
    (hlaw : Streaming s → ev.returned ++ stream c' = stream c ++ ev.accepted) :
    Good s c h a (some (ev, { s with sys := sys, rlock := lock })) := by
  obtain ⟨hheld, hgot⟩ := hold.holds
  obtain ⟨hheld', hgot'⟩ := hnew.holds
  have hnil : h = [] := by
    have hchain := hinv.held.chain
    rw [hheld] at hchain
    have hempty : Chain Block.next s.sys.mem none [] := rfl
    exact hchain.unique hempty
  subst hnil
  refine ⟨ev, _, c', [], rfl, hinv.moves hmoves he (hheld'.trans hheld.symm), ?_⟩
  intro _ _ hs _
  refine ⟨hs.of_mode hmoves.mode, ?_, ?_⟩
  · rcases hnew with rfl | ⟨r, rfl⟩ <;> trivial
  · have hlaw := hlaw hs
    rw [content, content, hgot, hgot']
    exact hlaw

theorem section1_qread {room : Option (Room n)} {len : ℕ} (hwait : s.rlock = .wait (.qread len)) :
    Good s c h (.section1 room) (section1 s (.qread len) room) := by
  have hnil := hinv.waiting hwait
  subst hnil
  obtain ⟨t, sys, c', htake, htakes⟩ := qtake_spec len (n + 1) hinv.has (by
    have := hinv.has.length_le
    omega)
  cases t with
  | blocks first cnt =>
    obtain ⟨l, hmoves, hl, hstream, hcount⟩ := htakes
    have hsection : section1 s (.qread len) room =
        some (.none, { s with sys := sys, rlock := .copy first cnt len }) := by
      simp only [section1, htake, Option.bind_eq_bind, Option.bind_some, Option.pure_def]
    rw [hsection]
    refine ⟨.none, _, c', l, rfl, ⟨hmoves.has, hl⟩, ?_⟩
    intro _ hcountable hs _
    refine ⟨hs.of_mode hmoves.mode, ?_, ?_⟩
    · apply hcount
      cases hcoalesce : s.sys.q.coalesce with
      | false => exact Or.inl rfl
      | true =>
        obtain ⟨l₀, hl₀, hcells⟩ := hinv.has.chain
        rw [← hcells]
        exact Or.inr (hcountable room len rfl hwait hcoalesce l₀ hl₀)
    · simp only [content, hwait, Rlock.got, Event.returned, Event.accepted, cells_nil, stream_nil,
        List.nil_append, List.append_nil, hstream]
  | wait w =>
    obtain ⟨hw, hmoves, hstream⟩ := htakes
    have hsame : ∀ lock : Rlock n, lock.Idle →
        Good s c [] (.section1 room) (some (.none, { s with sys := sys, rlock := lock })) :=
      fun lock hlock => Good.idle hinv (Or.inr ⟨_, hwait⟩) hlock hmoves.toMoves nofun fun _ => by
        rw [hstream]
        exact (List.append_nil _).symm
    cases w with
    | ready => exact absurd rfl hw
    | sleep =>
      have hsection : section1 s (.qread len) room =
          some (.none, { s with sys := sys, rlock := .wait (.qread len) }) := by
        simp only [section1, htake, Option.bind_eq_bind, Option.bind_some, Option.pure_def, ← hwait]
      rw [hsection]
      exact hsame _ (Or.inr ⟨_, rfl⟩)
    | eof =>
      simp only [section1, htake, Option.bind_eq_bind, Option.bind_some, Option.pure_def]
      exact hsame _ (Or.inl rfl)
    | error =>
      simp only [section1, htake, Option.bind_eq_bind, Option.bind_some, Option.pure_def]
      exact hsame _ (Or.inl rfl)

theorem section1_qbread {room : Option (Room n)} {len : ℕ} (hwait : s.rlock = .wait (.qbread len))
    (hallowed : Allowed s (.section1 room)) :
    Good s c h (.section1 room) (section1 s (.qbread len) room) := by
  rcases qwait_cases s.sys.q with
    ⟨x, hfirst, hready⟩ | ⟨w, q', hw, hnot, -, hfirst, hlast, hlen, hdlen, hmode⟩
  · obtain ⟨b, cs, hmem, -, -⟩ := hinv.has.pop hfirst
    obtain ⟨sys, c', b', hread, hmoves, hfresh, -, hmem', hbytes⟩ :=
      qbread_spec hinv.has hfirst hmem len room fun hstream hlong =>
        hallowed.2 len x b hwait hfirst hmem (by simp [hstream]) hlong
    have hsection : section1 s (.qbread len) room =
        some (.deliver b'.data, { s with sys := sys, rlock := .free }) := by
      simp only [section1, hready, hread, hmem', Option.bind_eq_bind, Option.bind_some,
        Option.pure_def]
    rw [hsection]
    refine Good.idle hinv (Or.inr ⟨_, hwait⟩) (Or.inl rfl) hmoves.toMoves
      (fun y hy => hinv.fresh (hfresh y hy)) fun hs => ?_
    exact (hbytes hs.msg).trans (List.append_nil _).symm
  · have hmoves := (Moves.refl hinv.has []).flags hfirst hlast hlen hdlen hmode
    have hsame : ∀ lock : Rlock n, lock.Idle → Good s c h (.section1 room)
        (some (.none, { s with sys := { s.sys with q := q' }, rlock := lock })) :=
      fun lock hlock => Good.idle hinv (Or.inr ⟨_, hwait⟩) hlock hmoves nofun fun _ =>
        (List.append_nil _).symm
    cases w with
    | ready => exact absurd rfl hw
    | sleep =>
      have hsection : section1 s (.qbread len) room = some (.none,
          { s with sys := { s.sys with q := q' }, rlock := .wait (.qbread len) }) := by
        simp only [section1, hnot, ← hwait]
      rw [hsection]
      exact hsame _ (Or.inr ⟨_, rfl⟩)
    | eof =>
      simp only [section1, hnot]
      exact hsame _ (Or.inl rfl)
    | error =>
      simp only [section1, hnot]
      exact hsame _ (Or.inl rfl)

theorem step_section1 (room : Option (Room n)) (hallowed : Allowed s (.section1 room)) :
    Good s c h (.section1 room) (step s (.section1 room)) := by
  obtain ⟨r, hwait⟩ := hallowed.1
  rw [step_of_section1 hwait]
  cases r with
  | qread len => exact section1_qread hinv hwait
  | qbread len => exact section1_qbread hinv hwait hallowed

theorem step_bl2mem (hallowed : Allowed s .bl2mem) : Good s c h .bl2mem (step s .bl2mem) := by
  obtain ⟨first, cnt, len, hcopy⟩ := hallowed
  have hchain : Chain Block.next s.sys.mem (some first) h := by
    have := hinv.held.chain
    rwa [hcopy] at this
  have hlength := hchain.length_le
  rw [Fintype.card_fin] at hlength
  obtain ⟨got, rest, m, l, hbl, hl, hframe, hsub, -, hbytes, hshorter, hfit⟩ :=
    bl2mem_spec n hchain len hlength
  rw [step_of_bl2mem hcopy hbl]
  refine ⟨.none, _, c, l, rfl, ⟨?_, hl, ?_⟩, ?_⟩
  · refine hinv.has.congr (fun y hy => hframe y fun hmem => ?_) rfl rfl rfl rfl
    exact hinv.held.apart y hmem hy
  · exact fun y hy => hinv.held.apart y (hsub y hy)
  · intro _ _ hs hsnug
    refine ⟨⟨hs.msg, hs.noblock, hs.bypass, hs.closed⟩, ?_, ?_⟩
    · simp only [Snug, hcopy] at hsnug ⊢
      rcases hsnug with hone | hall
      · omega
      · rw [hfit hall]
        exact Nat.zero_le _
    · simp only [content, hcopy, Rlock.got, Event.returned, Event.accepted, List.nil_append,
        List.append_nil, hbytes]

theorem step_section2 (hallowed : Allowed s .section2) :
    Good s c h .section2 (step s .section2) := by
  obtain ⟨rest, got, cnt, hback⟩ := hallowed
  have hheld : Holds s.sys c rest h := by
    have := hinv.held
    rwa [hback] at this
  obtain ⟨r, sys, c', hend, hmoves, hbytes⟩ := qreadend_spec hinv.has hheld cnt
  rw [step_of_section2 hback hend]
  refine ⟨.deliver got, _, c', [], rfl, ⟨hmoves.has, rfl, nofun⟩, ?_⟩
  intro _ _ hs hsnug
  refine ⟨hs.of_mode hmoves.mode, trivial, ?_⟩
  simp only [Snug, hback] at hsnug
  simp only [content, hback, Rlock.got, Event.returned, Event.accepted, List.nil_append,
    List.append_nil, cells_nil, stream_nil, hbytes hs.msg hsnug, List.append_assoc]

/-- `qbwrite` up to its flow control, for a block that is nobody else's. -/
theorem bwrite_good {a : Act n} {x : Fin n} {b : Block n} (hb : s.sys.mem x = some b)
    (hx : x ∉ places c) (hxh : x ∉ addrs h) (w : Option Writing) :
    Good s c h a (bwrite s x w) := by
  obtain ⟨wr, sys, c', hwrite, hmoves, hdata, hqueued⟩ := qbwrite_spec hinv.has hb hx
  have he : ∀ y ∈ [x], y ∉ addrs h := by
    intro y hy
    rwa [List.mem_singleton.mp hy]
  have hstream : stream c' = stream c ++ if wr = .queued then b.data else [] := by
    rw [stream, stream, List.flatMap_def, List.flatMap_def, hdata, List.flatten_append]
    split <;> simp
  simp only [bwrite, hb, hwrite, Option.bind_eq_bind, Option.bind_some, Option.pure_def]
  split
  · rename_i hbypass
    exact Good.moves hinv (Moves.refl hinv.has []) (by intros; contradiction) rfl rfl fun _ hs => by
      simp [hs.bypass] at hbypass
  · cases wr with
    | queued =>
      exact Good.moves hinv hmoves.toMoves he rfl rfl fun _ _ => hstream
    | dropped =>
      exact Good.moves hinv hmoves.toMoves he rfl rfl fun _ hs => by cases hqueued hs.closed hs.noblock
    | error =>
      exact Good.moves hinv hmoves.toMoves he rfl rfl fun _ hs => by cases hqueued hs.closed hs.noblock

theorem step_qbwrite (x : Fin n) (hallowed : Allowed s (.qbwrite x)) :
    Good s c h (.qbwrite x) (step s (.qbwrite x)) := by
  obtain ⟨hfree, ⟨b, hb⟩, hown⟩ := hallowed
  rw [hinv.mine, not_or] at hown
  rw [step_of_qbwrite hfree]
  exact bwrite_good hinv hb hown.1 hown.2 none

theorem step_qwblock (i : ℕ) (r : Room n) (hallowed : Allowed s (.qwblock i r)) :
    Good s c h (.qwblock i r) (step s (.qwblock i r)) := by
  obtain ⟨hfree, w, hw, hfits⟩ := hallowed
  obtain ⟨b, -, -, -, halloc, hx, hmoves⟩ := hinv.has.alloc hfits
  have hxh := hinv.fresh hfits.1
  have hinv₁ : Inv { s with
      sys := ⟨Function.update s.sys.mem r.addr (some b), s.sys.q⟩
      writes := s.writes.eraseIdx i } c h :=
    hinv.moves hmoves.toMoves (fun y hy => by rwa [List.mem_singleton.mp hy]) rfl
  rw [step_of_qwblock hfree hw halloc]
  obtain ⟨ev, s', c', h', hgood, hinv', hlaw⟩ :=
    bwrite_good (a := .qwblock i r) hinv₁ (Function.update_self r.addr (some b) s.sys.mem) hx hxh
      (some w.next)
  refine ⟨ev, s', c', h', hgood, hinv', ?_⟩
  intro hplain _ hs hsnug
  exact hlaw hplain (fun _ _ heq => nomatch heq) ⟨hs.msg, hs.noblock, hs.bypass, hs.closed⟩ hsnug

theorem step_flow (hallowed : Allowed s .flow) : Good s c h .flow (step s .flow) := by
  obtain ⟨w, hflow⟩ := hallowed
  simp only [step, hflow]
  split
  all_goals exact Good.same hinv rfl ⟨rfl, rfl, rfl, rfl⟩ (fun _ => rfl) rfl rfl id

theorem step_wintr (hallowed : Allowed s .wintr) : Good s c h .wintr (step s .wintr) := by
  obtain ⟨w, hflow⟩ := hallowed
  simp only [step, hflow]
  exact Good.same hinv rfl ⟨rfl, rfl, rfl, rfl⟩ (fun _ => rfl) rfl rfl id

theorem step_qiwblock (i : ℕ) (r : Option (Room n)) (hallowed : Allowed s (.qiwblock i r)) :
    Good s c h (.qiwblock i r) (step s (.qiwblock i r)) := by
  obtain ⟨w, hw, hfits⟩ := hallowed
  cases r with
  | none =>
    simp only [step, hw]
    exact Good.same hinv rfl ⟨rfl, rfl, rfl, rfl⟩ nofun rfl rfl id
  | some r =>
    obtain ⟨b, hnext, -, -, halloc, hx, hmoves⟩ := hinv.has.alloc (hfits r rfl)
    obtain ⟨more, sys, c', hwrite, hmoves'⟩ := qiwrite_spec hmoves.has
      (Function.update_self r.addr (some b) s.sys.mem) hnext hx
    have he : ∀ y ∈ [r.addr], y ∉ addrs h := by
      intro y hy
      rw [List.mem_singleton.mp hy]
      exact hinv.fresh (hfits r rfl).1
    simp only [step, hw, halloc, hwrite, Option.bind_eq_bind, Option.bind_some, Option.pure_def]
    refine Good.moves hinv (hmoves.toMoves.trans hmoves'.toMoves fun y hy => Or.inr hy) he rfl ?_ nofun
    split <;> rfl

omit hinv in
/-- The whole list is freed. -/
theorem Inv.clear (hinv : Inv s c h) {q : Queue n} (hfirst : q.bfirst = none) (hlen : q.len = 0)
    (hdlen : q.dlen = 0) :
    ∃ m, freeblist s.sys.mem s.sys.q.bfirst = some m ∧ Inv { s with sys := ⟨m, q⟩ } [] h ∧
      ∀ y ∈ places c, m y = none := by
  obtain ⟨l, hl, hcells⟩ := hinv.has.chain
  obtain ⟨m, hfree, hframe, hfreed⟩ := freeblist_eq hl
  refine ⟨m, hfree, ⟨Has.nil hfirst hlen hdlen, ?_, fun _ _ => nofun⟩, ?_⟩
  · refine Seg.frame hinv.held.chain fun y hy => hframe y fun hmem => ?_
    apply hinv.held.apart y hy
    rwa [← hcells, places_cells]
  · intro y hy
    rw [← hcells, places_cells] at hy
    exact hfreed y hy

theorem step_qflush : Good s c h .qflush (step s .qflush) := by
  obtain ⟨m, hfree, hinv', -⟩ := @Inv.clear n s c h hinv
    { s.sys.q with bfirst := none, len := 0, dlen := 0 } rfl rfl rfl
  simp only [step, qflush, hfree, Option.bind_eq_bind, Option.bind_some, Option.pure_def]
  exact ⟨_, _, _, _, rfl, hinv', nofun⟩

theorem step_qclose : Good s c h .qclose (step s .qclose) := by
  simp only [step, qclose, Option.bind_eq_bind, Option.pure_def]
  obtain ⟨m, hfree, hinv', -⟩ := @Inv.clear n s c h hinv { s.sys.q with
    closed := true
    flow := false
    starve := false
    err := Ehungup
    bfirst := none
    len := 0
    dlen := 0
    noblock := false } rfl rfl rfl
  rw [hfree]
  exact ⟨_, _, _, _, rfl, hinv', nofun⟩

theorem step_other (m : Mem n) (hallowed : Allowed s (.other m)) :
    Good s c h (.other m) (step s (.other m)) := by
  have hmine : ∀ y, Mine s y → m y = s.sys.mem y := hallowed
  refine ⟨_, _, c, h, rfl, ⟨?_, ?_, hinv.held.apart⟩, ?_⟩
  · refine hinv.has.congr (fun y hy => ?_) rfl rfl rfl rfl
    exact hmine y ((hinv.mine y).mpr (Or.inl hy))
  · refine Seg.frame hinv.held.chain fun y hy => ?_
    exact hmine y ((hinv.mine y).mpr (Or.inr hy))
  · intro _ _ hs hsnug
    exact ⟨⟨hs.msg, hs.noblock, hs.bypass, hs.closed⟩, hsnug, (List.append_nil _).symm⟩

/-- What every step does that its caller may make: it does not fail, and it keeps the blocks in
order. -/
theorem step_good (a : Act n) (hallowed : Allowed s a) : Good s c h a (step s a) := by
  cases a with
  | qget => exact step_qget hinv
  | qdiscard len => exact step_qdiscard hinv len
  | qconsume len => exact step_qconsume hinv len
  | qpass x => exact step_qpass hinv x hallowed
  | qpassnolim x => exact step_qpassnolim hinv x hallowed
  | qproduce p r => exact step_qproduce hinv p r hallowed
  | rlock r => exact step_rlock hinv r hallowed
  | section1 r => exact step_section1 hinv r hallowed
  | rintr => exact step_rintr hinv hallowed
  | bl2mem => exact step_bl2mem hinv hallowed
  | section2 => exact step_section2 hinv hallowed
  | qbwrite x => exact step_qbwrite hinv x hallowed
  | qwrite p => exact Good.same hinv rfl ⟨rfl, rfl, rfl, rfl⟩ (fun _ => rfl) rfl rfl id
  | qwblock i r => exact step_qwblock hinv i r hallowed
  | flow => exact step_flow hinv hallowed
  | wintr => exact step_wintr hinv hallowed
  | qiwrite p => exact Good.same hinv rfl ⟨rfl, rfl, rfl, rfl⟩ nofun rfl rfl id
  | qiwblock i r => exact step_qiwblock hinv i r hallowed
  | qflush => exact step_qflush hinv
  | qclose => exact step_qclose hinv
  | qhangup msg => exact Good.same hinv rfl ⟨rfl, rfl, rfl, rfl⟩ nofun rfl rfl id
  | qreopen => exact Good.same hinv rfl ⟨rfl, rfl, rfl, rfl⟩ nofun rfl rfl id
  | other m => exact step_other hinv m hallowed

end Steps

theorem Opened.inv (hs : Opened s) : Inv s [] [] := by
  cases hs with
  | qopen m limit msg coalesce kick => exact ⟨Has.nil rfl rfl rfl, rfl, nofun⟩
  | qbypass m => exact ⟨Has.nil rfl rfl rfl, rfl, nofun⟩

theorem Runs.inv {as : List (Act n)} {evs : List Event} (hrun : Runs s as evs s')
    (hinv : Inv s c h) : ∃ c' h', Inv s' c' h' := by
  induction hrun generalizing c h with
  | nil s => exact ⟨c, h, hinv⟩
  | cons hallowed hstep _ ih =>
    obtain ⟨ev, s₁, c₁, h₁, heq, hinv₁, -⟩ := step_good hinv _ hallowed
    rw [hstep] at heq
    cases heq
    exact ih hinv₁

end Petele.Qio
