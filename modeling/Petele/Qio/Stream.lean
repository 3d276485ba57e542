import Petele.Qio.Invariant

namespace Petele.Qio

open Lib

variable {n : ℕ} {s t : St n} {as : List (Act n)} {evs : List Event}

/-- Between any two sections the counters of a queue are the sums over its list, computed in `int`
as `blockalloclen` and `blocklen` do, `blast` is the last block of a list that is not empty, and
whatever its callers may do next meets no block that is not there. -/
theorem queue_accounting (hopen : Opened s) (hrun : Runs s as evs t) :
    ∃ l, Chain Block.next t.sys.mem t.sys.q.bfirst l ∧
      t.sys.q.len = blockalloclen l ∧
      ((l.map fun x => BALLOC x.2).sum < 2 ^ 31 →
        t.sys.q.len = (l.map fun x => BALLOC x.2).sum) ∧
      t.sys.q.dlen = blocklen l ∧
      ((l.map fun x => BLEN x.2).sum < 2 ^ 31 → t.sys.q.dlen = (l.map fun x => BLEN x.2).sum) ∧
      (∀ x, t.sys.q.bfirst = some x → ∃ z, l.getLast? = some z ∧ t.sys.q.blast = some z.1) ∧
      ∀ a, Allowed t a → (step t a).isSome := by
  obtain ⟨c, h, hinv⟩ := hrun.inv hopen.inv
  obtain ⟨l, hl, rfl⟩ := hinv.has.chain
  have hallocs : allocs (cells l) = (l.map fun x => BALLOC x.2).sum := by
    rw [allocs, cells, List.map_map]
    rfl
  have hlens : lens (cells l) = (l.map fun x => BLEN x.2).sum := by
    rw [lens, cells, List.map_map]
    rfl
  refine ⟨l, hl, ?_, ?_, ?_, ?_, ?_, ?_⟩
  · rw [hinv.has.len, blockalloclen_eq]
  · intro hlt
    rw [hinv.has.len, hallocs]
    exact wrap_of_range (by omega) (by omega)
  · rw [hinv.has.dlen, blocklen_eq]
  · intro hlt
    rw [hinv.has.dlen, hlens]
    exact wrap_of_range (by omega) (by omega)
  · intro x hx
    cases hlast : l.getLast? with
    | none =>
      rw [List.getLast?_eq_none_iff.mp hlast, hx] at hl
      cases hl
    | some z =>
      refine ⟨z, rfl, hinv.has.last (cell z) ?_⟩
      rw [cells, List.getLast?_map, hlast]
      rfl
  · intro a hallowed
    obtain ⟨ev, s', c', h', hstep, -⟩ := step_good hinv a hallowed
    rw [hstep]
    rfl

/-- A block of two bytes is queued. -/
theorem queue_accounting_produce :
    ∃ t, Runs ⟨⟨fun _ : Fin 1 => none, qopen 1024 false false false⟩, .free, .free, [], []⟩
        [.qproduce [1, 2] (some ⟨0, 64⟩)] [.accept [1, 2]] t ∧
      ∃ l, Chain Block.next t.sys.mem t.sys.q.bfirst l ∧
        t.sys.q.len = blockalloclen l ∧
        ((l.map fun x => BALLOC x.2).sum < 2 ^ 31 →
          t.sys.q.len = (l.map fun x => BALLOC x.2).sum) ∧
        t.sys.q.dlen = blocklen l ∧
        ((l.map fun x => BLEN x.2).sum < 2 ^ 31 → t.sys.q.dlen = (l.map fun x => BLEN x.2).sum) ∧
        (∀ x, t.sys.q.bfirst = some x → ∃ z, l.getLast? = some z ∧ t.sys.q.blast = some z.1) ∧
        ∀ a, Allowed t a → (step t a).isSome := by
  have hallowed : Allowed ⟨⟨fun _ : Fin 1 => none, qopen 1024 false false false⟩, .free, .free, [], []⟩
      (.qproduce [1, 2] (some ⟨0, 64⟩)) := by
    intro r hr
    cases hr
    exact ⟨rfl, by decide, by decide⟩
  exact ⟨_, .cons hallowed rfl (.nil _),
    queue_accounting (Opened.qopen _ 1024 false false false) (.cons hallowed rfl (.nil _))⟩

/-- A property of the steps of a run. -/
def Along (P : St n → Act n → Prop) : St n → List (Act n) → Prop
  | _, [] => True
  | s, a :: as => P s a ∧ ∀ ev s', step s a = some (ev, s') → Along P s' as

/-- The bytes returned, then those a reader holds, then those queued are the bytes accepted. -/
def Lossless (evs : List Event) (t : St n) : Prop :=
  ∃ l h, Chain Block.next t.sys.mem t.sys.q.bfirst l ∧ Chain Block.next t.sys.mem t.rlock.held h ∧
    evs.flatMap Event.returned ++ (t.rlock.got ++ flat h) ++ flat l = evs.flatMap Event.accepted

theorem Runs.content {c : List (Cell n)} {h : List (Fin n × Block n)} (hrun : Runs s as evs t)
    (hinv : Inv s c h) (hs : Streaming s) (hsnug : Snug s h) (hplain : ∀ a ∈ as, a.Plain)
    (hcount : Along Countable s as) :
    ∃ c' h', Inv t c' h' ∧
      evs.flatMap Event.returned ++ content t c' h' =
        content s c h ++ evs.flatMap Event.accepted := by
  induction hrun generalizing c h with
  | nil s => exact ⟨c, h, hinv, by simp⟩
  | @cons s s' t a ev as evs hallowed hstep hrest ih =>
    obtain ⟨hcount₁, hcount⟩ := hcount
    obtain ⟨ev', s₁, c₁, h₁, heq, hinv₁, hlaw⟩ := step_good hinv a hallowed
    rw [hstep] at heq
    cases heq
    obtain ⟨hs₁, hsnug₁, hlaw⟩ := hlaw (hplain a List.mem_cons_self) hcount₁ hs hsnug
    obtain ⟨c', h', hinv', hbytes⟩ := ih hinv₁ hs₁ hsnug₁
      (fun b hb => hplain b (List.mem_cons_of_mem _ hb)) (hcount ev s' hstep)
    refine ⟨c', h', hinv', ?_⟩
    rw [List.flatMap_cons, List.flatMap_cons, List.append_assoc, hbytes, ← List.append_assoc, hlaw,
      List.append_assoc]

/-- A byte stream loses, repeats and reorders nothing, whatever the sizes of reads and writes and
however the sections interleave, as long as a coalescing `qread` never finds `2 ^ 31` bytes or more
queued. -/
theorem stream_lossless {m : Mem n} {limit : ℤ} {coalesce kick : Bool}
    (hrun : Runs ⟨⟨m, qopen limit false coalesce kick⟩, .free, .free, [], []⟩ as evs t)
    (hplain : ∀ a ∈ as, a.Plain)
    (hcount : Along Countable ⟨⟨m, qopen limit false coalesce kick⟩, .free, .free, [], []⟩ as) :
    Lossless evs t := by
  have hinv := (Opened.qopen m limit false coalesce kick).inv
  obtain ⟨c, h, hinv', hbytes⟩ := hrun.content hinv ⟨rfl, rfl, rfl, rfl⟩ trivial hplain hcount
  obtain ⟨l, hl, rfl⟩ := hinv'.has.chain
  refine ⟨l, h, hl, hinv'.held.chain, ?_⟩
  rw [flat_eq_stream, flat_eq_stream, List.append_assoc]
  exact hbytes

/-- A block of two bytes is queued. -/
theorem stream_lossless_produce :
    ∃ t, Runs ⟨⟨fun _ : Fin 1 => none, qopen 1024 false true false⟩, .free, .free, [], []⟩
        [.qproduce [1, 2] (some ⟨0, 64⟩)] [.accept [1, 2]] t ∧ Lossless [.accept [1, 2]] t := by
  have hallowed : Allowed ⟨⟨fun _ : Fin 1 => none, qopen 1024 false true false⟩, .free, .free, [], []⟩
      (.qproduce [1, 2] (some ⟨0, 64⟩)) := by
    intro r hr
    cases hr
    exact ⟨rfl, by decide, by decide⟩
  refine ⟨_, .cons hallowed rfl (.nil _), stream_lossless (.cons hallowed rfl (.nil _)) ?_ ?_⟩
  · intro a ha
    rw [List.mem_singleton.mp ha]
    trivial
  · exact ⟨nofun, fun _ _ _ => trivial⟩

section Overflow

variable {m : Mem 3} {a b c : Block 3}

/-- A list of two blocks with half of what an `int` can count, and of one more with a single
byte. -/
structure Halves (m : Mem 3) (a b c : Block 3) : Prop where
  mem₀ : m 0 = some a
  mem₁ : m 1 = some b
  mem₂ : m 2 = some c
  next₀ : a.next = some 1
  next₁ : b.next = some 2
  next₂ : c.next = none
  len₀ : BLEN a = 2 ^ 30
  len₁ : BLEN b = 2 ^ 30
  len₂ : BLEN c = 1

theorem Halves.chain (h : Halves m a b c) :
    Chain Block.next m (some 0) [(0, a), (1, b), (2, c)] :=
  ⟨rfl, h.mem₀, h.next₀, h.mem₁, h.next₁, h.mem₂, h.next₂⟩

theorem Halves.queued (h : Halves m a b c) :
    ∃ q, step ⟨⟨m, qopen 0 false true false⟩, .free, .free, [], []⟩ (.qpassnolim 0) =
        some (.accept (flat [(0, a), (1, b), (2, c)]), ⟨⟨m, q⟩, .free, .free, [], []⟩) ∧
      q.bfirst = some 0 ∧ q.coalesce = true ∧ q.msg = false := by
  simp only [step, pass, blocks_eq h.chain, qpassnolim, addbuffer, attach, qopen,
    Option.bind_eq_bind, Option.bind_some, Option.pure_def]
  refine ⟨_, rfl, ?_, ?_, ?_⟩
  all_goals split <;> rfl

/-- The count of `qread` wraps at the second block, so that it takes the third one too. -/
theorem Halves.taken (h : Halves m a b c) {q : Queue 3} (hfirst : q.bfirst = some 0)
    (hcoalesce : q.coalesce = true) :
    ∃ cnt s, qtake (2 ^ 31 - 1) 4 ⟨m, q⟩ = some (.blocks 0 cnt, s) ∧
      s.mem 0 = some ((a.link none).link (some 1)) ∧ s.mem 1 = some ((b.link none).link (some 2)) ∧
      s.q.bfirst = none ∧ s.q.msg = q.msg := by
  have hlong : ¬ BLEN a = 0 := by
    rw [h.len₀]
    decide
  have hwait : qwait q = (.ready, q) := by
    rw [qwait, if_pos (by rw [hfirst]; rfl)]
  have hremove : qremove ⟨m, q⟩ = some (some 0, ⟨Function.update m 0 (some (a.link none)), { q with
      bfirst := a.next
      len := wrap (q.len - BALLOC a)
      dlen := wrap (q.dlen - BLEN a) }⟩) := by
    simp only [qremove, hfirst, h.mem₀, Option.bind_eq_bind, Option.bind_some, Option.pure_def]
  obtain ⟨s₁, hg₁, hfirst₁, hmode₁, hx₁, hlast₁, hframe₁⟩ := @gather_take 3
    ⟨Function.update m 0 (some (a.link none)), { q with
      bfirst := a.next
      len := wrap (q.len - BALLOC a)
      dlen := wrap (q.dlen - BLEN a) }⟩
    (2 ^ 31 - 1) 3 (BLEN a) 1 0 b (a.link none) h.next₀ h.mem₁
    (Function.update_self (0 : Fin 3) (some (a.link none)) m)
    (by decide) (by rw [h.len₀, h.len₁]; decide)
  have hmem₂ : s₁.mem 2 = some c := (hframe₁ 2 (by decide) (by decide)).trans h.mem₂
  obtain ⟨s₂, hg₂, hfirst₂, hmode₂, -, hlast₂, hframe₂⟩ := @gather_take 3 s₁
    (2 ^ 31 - 1) 2 (wrap (BLEN a + BLEN b)) 2 1 c (b.link none) (hfirst₁.trans h.next₁) hmem₂ hx₁
    (by decide) (by rw [h.len₀, h.len₁, h.len₂]; decide)
  rw [hg₂, gather_empty (hfirst₂.trans h.next₂)] at hg₁
  generalize wrap (wrap _ + BLEN c) = cnt at hg₁
  refine ⟨cnt, s₂, ?_, ?_, hlast₂, hfirst₂.trans h.next₂, ?_⟩
  · rw [qtake, hwait]
    simp only [hfirst, h.mem₀, hremove, Option.bind_eq_bind, Option.bind_some, Option.pure_def]
    rw [if_pos hcoalesce, if_neg hlong, hg₁]
    rfl
  · exact (hframe₂ 0 (by decide) (by decide)).trans hlast₁
  · exact congrArg Prod.fst (hmode₂.trans hmode₁)

theorem Halves.copied (ha : BLEN a = 2 ^ 30) (hnext : a.next = some 1) (hb : BLEN b = 2 ^ 30)
    (h0 : m 0 = some a) (h1 : m 1 = some b) :
    ∃ got m', bl2mem 3 m (some 0) (2 ^ 31 - 1) = some (got, some 1, m') ∧
      got.length = 2 ^ 31 - 1 ∧ m' 1 = some (b.advance (2 ^ 30 - 1)) := by
  have h1' : Function.update m 0 none 1 = some b := h1
  refine ⟨a.data ++ b.data.take (2 ^ 30 - 1),
    Function.update (Function.update m 0 none) 1 (some (b.advance (2 ^ 30 - 1))),
    ?_, ?_, Function.update_self _ _ _⟩
  · have hfirst : ¬ 2 ^ 31 - 1 < BLEN a := by
      rw [ha]
      decide
    have hsecond : 2 ^ 31 - 1 - BLEN a = 2 ^ 30 - 1 := by
      rw [ha]
      decide
    have hlong : 2 ^ 30 - 1 < BLEN b := by
      rw [hb]
      decide
    rw [bl2mem]
    simp only [h0, if_neg hfirst, freeb_eq h0, hsecond, hnext, Option.bind_eq_bind,
      Option.bind_some, Option.pure_def]
    rw [bl2mem]
    simp only [h1', if_pos hlong, Option.bind_eq_bind, Option.bind_some, Option.pure_def]
  · rw [BLEN] at ha hb
    rw [List.length_append, List.length_take, ha, hb]
    rfl

theorem Halves.loses (h : Halves m a b c) :
    ∃ evs t, Runs ⟨⟨m, qopen 0 false true false⟩, .free, .free, [], []⟩
        [.qpassnolim 0, .rlock (.qread (2 ^ 31 - 1)), .section1 none, .bl2mem, .section2] evs t ∧
      ¬ Lossless evs t := by
  obtain ⟨q₁, hqueued, hfirst₁, hcoalesce, hmsg⟩ := h.queued
  obtain ⟨cnt, s₃, htaken, h0, h1, hfirst₃, hmsg₃⟩ := h.taken hfirst₁ hcoalesce
  obtain ⟨got, m₄, hcopied, hgot, h1'⟩ := @Halves.copied s₃.mem ((a.link none).link (some 1))
    ((b.link none).link (some 2)) h.len₀ rfl h.len₁ h0 h1
  have hback : ∃ r s, qreadend ⟨m₄, s₃.q⟩ (some 1) cnt = some (r, s) ∧ s.q.bfirst = some 1 ∧
      s.mem 1 = some ((((b.link none).link (some 2)).advance (2 ^ 30 - 1)).link none) := by
    simp only [qreadend, h1', hmsg₃, hmsg, qputback, hfirst₃, Option.bind_eq_bind, Option.bind_some,
      Option.pure_def, Bool.false_eq_true, if_false]
    exact ⟨_, _, rfl, unflow_bfirst _, Function.update_self (1 : Fin 3) _ m₄⟩
  obtain ⟨r, s₅, hend, hfirst₅, h1''⟩ := hback
  have hallowed : Allowed ⟨⟨m, qopen 0 false true false⟩, .free, .free, [], []⟩ (.qpassnolim 0) := by
    refine ⟨_, h.chain, fun y _ hmine => ?_⟩
    rw [(Opened.qopen m 0 false true false).inv.mine] at hmine
    exact hmine.elim (by intros; contradiction) (by intros; contradiction)
  have hsection₁ : step ⟨⟨m, q₁⟩, .wait (.qread (2 ^ 31 - 1)), .free, [], []⟩ (.section1 none) =
      some (.none, ⟨s₃, .copy 0 cnt (2 ^ 31 - 1), .free, [], []⟩) := by
    rw [step_of_section1 rfl]
    simp only [section1, htaken, Option.bind_eq_bind, Option.bind_some, Option.pure_def]
  have hcopy : step ⟨s₃, .copy 0 cnt (2 ^ 31 - 1), .free, [], []⟩ .bl2mem =
      some (.none, ⟨⟨m₄, s₃.q⟩, .back (some 1) got cnt, .free, [], []⟩) := step_of_bl2mem rfl hcopied
  have hsection₂ : step ⟨⟨m₄, s₃.q⟩, .back (some 1) got cnt, .free, [], []⟩ .section2 =
      some (.deliver got, ⟨s₅, .free, .free, [], []⟩) := step_of_section2 rfl hend
  refine ⟨[.accept (flat [(0, a), (1, b), (2, c)]), .none, .none, .none, .deliver got], _,
    .cons hallowed hqueued (.cons rfl rfl (.cons ⟨⟨_, rfl⟩, (by simp)⟩ hsection₁
      (.cons ⟨0, cnt, _, rfl⟩ hcopy (.cons ⟨_, _, _, rfl⟩ hsection₂ (.nil _))))), ?_⟩
  intro hlossless
  obtain ⟨l, held, hl, hheld, hbytes⟩ := hlossless
  have hone : l = [(1, (((b.link none).link (some 2)).advance (2 ^ 30 - 1)).link none)] := by
    refine hl.unique ?_
    rw [hfirst₅]
    exact ⟨rfl, h1'', rfl⟩
  have hnone : held = [] := hheld.unique (show Chain Block.next s₅.mem none [] from rfl)
  -- Of the bytes accepted one is neither returned nor queued.
  have hcount := congrArg List.length hbytes
  have ha := h.len₀
  have hb := h.len₁
  have hc := h.len₂
  simp only [BLEN] at ha hb hc
  simp only [hone, hnone, flat, List.flatMap_cons, List.flatMap_nil, Event.returned, Event.accepted,
    Rlock.got, Block.advance, Block.link, List.length_append, List.length_drop, List.length_nil,
    hgot, ha, hb, hc] at hcount
  omega

/-- Blocks of `2 ^ 30`, `2 ^ 30` and one byte. -/
def halves : Mem 3
  | 0 => some ⟨some 1, 2 ^ 30, List.replicate (2 ^ 30) 0, Nat.le_of_eq List.length_replicate,
    by decide⟩
  | 1 => some ⟨some 2, 2 ^ 30, List.replicate (2 ^ 30) 0, Nat.le_of_eq List.length_replicate,
    by decide⟩
  | 2 => some ⟨none, 1, [1], Nat.le_refl 1, by decide⟩

/-- They are queued together and read with room for `2 ^ 31 - 1`. The byte of the last one is
lost. -/
theorem coalescing_read_loses :
    ∃ evs t, Runs ⟨⟨halves, qopen 0 false true false⟩, .free, .free, [], []⟩
        [.qpassnolim 0, .rlock (.qread (2 ^ 31 - 1)), .section1 none, .bl2mem, .section2] evs t ∧
      ¬ Lossless evs t :=
  Halves.loses ⟨rfl, rfl, rfl, rfl, rfl, rfl, List.length_replicate, List.length_replicate, rfl⟩

end Overflow
end Petele.Qio
