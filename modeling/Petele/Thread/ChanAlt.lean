import Petele.Thread.ChanStep

set_option linter.unusedSectionVars false

namespace Petele.Thread

open Lib

variable {K C V : Type} [DecidableEq K] [DecidableEq C] {zero : V}
variable {st st' : St K C V} {k b : K} {c : C}

section Alone

variable {a : Alt C V} {i j : ℕ}

theorem Entered.tagged (h : Entered st c k i) (hu : Untouched st st' k) (htag : st.tag k ≠ none) : Entered st' c k i := by
  obtain ⟨a, ha, hc, hop, -⟩ := h.entry
  have halts : st'.alts k = st.alts k := congrArg View.alts hu.view
  have htag' : st'.tag k = st.tag k := congrArg View.tag hu.view
  exact ⟨hu.waits.mpr h.waits, a, by rw [halts]; exact ha, hc, hop, fun ht => absurd (htag'.symm.trans ht) htag⟩

/-- Where a value can go into the buffer or out of it and nobody waits for it, all in the queue have been committed to. -/
theorem Inv.all_tagged {op : Op} (h : Inv zero st) (hnone : (st.chan c).qentry.any (waits st op.other) = false)
    (hroom : op = .CHANSND ∧ (st.chan c).n < (st.chan c).s ∨ op = .CHANRCV ∧ 0 < (st.chan c).n) (hmem : some (b, j) ∈ (st.chan c).qentry) :
    st.tag b ≠ none := by
  intro htag
  obtain ⟨ab, hab, -, hop, hcount⟩ := ((h.chan c).entry b j hmem).entry
  obtain ⟨hempty, hfull⟩ := hcount htag
  have hnot : ab.op ≠ op.other := by
    intro hsame
    have hw : waits st op.other (some (b, j)) = true := waits_iff.mpr ⟨⟨ab, hab, hsame⟩, htag⟩
    rw [List.any_eq_false] at hnone
    exact hnone _ hmem hw
  rcases hroom with ⟨rfl, hlt⟩ | ⟨rfl, hpos⟩
  · cases hopb : ab.op with
    | CHANNOP => exact hop hopb
    | CHANSND => exact absurd (hfull hopb) (Nat.ne_of_lt hlt)
    | CHANRCV => exact hnot hopb
  · cases hopb : ab.op with
    | CHANNOP => exact hop hopb
    | CHANRCV => exact absurd (hempty hopb) (Nat.ne_of_gt hpos)
    | CHANSND => exact hnot hopb

theorem mine_single {l : List (Event K C V)} {op : Op} {x : V} (hl : mine k l = []) : mine k (l ++ [⟨k, op, c, x⟩]) = [⟨k, op, c, x⟩] := by
  rw [mine_append, hl]
  simp [mine]

theorem mine_single_other {q : K} {l : List (Event K C V)} {op : Op} {x : V} (hq : q ≠ k) : mine q (l ++ [⟨k, op, c, x⟩]) = mine q l := by
  rw [mine_append]
  simp [mine, hq.symm]

theorem moved_single (l : List (Event K C V)) (k : K) (c c' : C) (op op' : Op) (x : V) :
    moved op' c' (l ++ [⟨k, op, c, x⟩]) = moved op' c' l ++ if op = op' ∧ c = c' then [x] else [] := by
  rw [moved_append]
  congr 1
  by_cases h : op = op' ∧ c = c'
  · simp [moved, h]
  · simp [moved, h]

/-- The state after a value has gone into the buffer or out of it. -/
theorem Inv.buffer {op : Op} {x : V} (h : Inv zero st) (hk : Idle st k) (o : Only st st' k (.done (some i)))
    (hnone : (st.chan c).qentry.any (waits st op.other) = false)
    (hroom : op = .CHANSND ∧ (st.chan c).n < (st.chan c).s ∨ op = .CHANRCV ∧ 0 < (st.chan c).n)
    (hlog : st'.log = st.log ++ [⟨k, op, c, x⟩]) (hother : ∀ c', c' ≠ c → st'.chan c' = st.chan c')
    (hsize : (st'.chan c).n ≤ (st'.chan c).s) (hq : (st'.chan c).qentry = (st.chan c).qentry)
    (horder : moved .CHANRCV c st'.log ++ buffered (st'.chan c) = moved .CHANSND c st'.log)
    (hself : st'.parties k = st.parties k ∧ st'.wakers k = st.wakers k) (habort : st'.aborted = st.aborted)
    (hgot : (view st' k).Got zero k c i) : Inv zero st' := by
  have hparties : st'.parties k = [] := hself.1.trans hk.free.parties
  have hwakers : st'.wakers k = [] := hself.2.trans hk.free.wakers
  apply h.only o
  · intro c'
    rcases eq_or_ne c' c with rfl | hc
    · refine ⟨hsize, horder, by rw [hq]; exact (h.chan c').once, fun q l hql => ?_⟩
      rw [hq] at hql
      have hent := (h.chan c').entry q l hql
      exact hent.tagged (o.untouched (hk.ne hent.waits)) (h.all_tagged hnone hroom hql)
    · apply o.frame h hk.not_waits ⟨_, hother c' hc⟩
      intro op'
      rw [hlog, moved_single, if_neg fun heq => hc heq.2.symm, List.append_nil]
  · apply Good.of_done o.phase_self
    refine ⟨fun p nx => ?_, ?_, ?_, .inl ⟨c, hgot⟩⟩
    · simp only [view, o.meets]
      exact hk.free.solo p nx
    · simp only [view, hparties, hwakers]
    · simp [view, hparties]
  · exact habort.trans h.aborted

theorem Inv.altexecalone (h : Inv zero st) (hk : Idle st k) (ha : (st.alts k)[i]? = some a) (hc : a.c = some c)
    (hcan : canexec st a.op c = true) (hnone : (st.chan c).qentry.any (waits st a.op.other) = false) :
    Inv zero (altexecalone zero st k i a c) := by
  have hroom : a.op = .CHANSND ∧ (st.chan c).n < (st.chan c).s ∨ a.op = .CHANRCV ∧ 0 < (st.chan c).n := by
    rw [canexec, hnone, Bool.false_or] at hcan
    simpa using hcan
  have horder := (h.chan c).order
  have hsize := (h.chan c).size
  obtain ⟨g, hg, hfix⟩ := (h.call k).given_entry hk.not_done ha
  rw [Thread.altexecalone]
  rcases hroom with ⟨hop, hlt⟩ | ⟨hop, hpos⟩
  · have hbuf : altexecbuffered (st.chan c) .CHANSND false =
        some (((st.chan c).f + (st.chan c).n) % (st.chan c).s, { st.chan c with n := (st.chan c).n + 1 }) := by
      simp [altexecbuffered, hlt]
    simp only [hop, hbuf, reduceCtorEq, if_false]
    rw [hop] at hnone
    have hsent := buffered_send hlt (a.v.getD zero)
    apply h.buffer hk _ hnone (.inl ⟨rfl, hlt⟩)
    · rfl
    · exact fun c' hc' => Function.update_of_ne hc' _ _
    · simp only [Function.update_self]
      omega
    · simp only [Function.update_self]
    · simp only [Function.update_self]
      rw [moved_single, moved_single, if_neg (by simp), if_pos ⟨rfl, rfl⟩, List.append_nil, hsent, ← List.append_assoc, horder]
    · exact ⟨rfl, rfl⟩
    · rfl
    · exact View.got_send (.same hk.free.same i) hg ha hfix hc hop (mine_single hk.free.events)
    · exact ⟨rfl, fun y hy => ⟨rfl, rfl, rfl, mine_single_other hy, rfl, rfl⟩, hk.not_meet, (by simp)⟩
  · have hbuf : altexecbuffered (st.chan c) .CHANRCV false =
        some ((st.chan c).f % (st.chan c).s, { st.chan c with n := (st.chan c).n - 1, f := (st.chan c).f + 1 }) := by
      simp [altexecbuffered, hpos]
    simp only [hop, hbuf, if_true]
    rw [hop] at hnone
    have hgot := buffered_receive hpos
    apply h.buffer hk _ hnone (.inr ⟨rfl, hpos⟩)
    · rfl
    · exact fun c' hc' => Function.update_of_ne hc' _ _
    · simp only [Function.update_self]
      omega
    · simp only [Function.update_self]
    · simp only [Function.update_self]
      rw [moved_single, moved_single, if_pos ⟨rfl, rfl⟩, if_neg (by simp), List.append_nil, ← horder, hgot, List.append_assoc]
      rfl
    · exact ⟨rfl, rfl⟩
    · rfl
    · apply View.got_receive (some ((st.chan c).v ((st.chan c).f % (st.chan c).s))) _ hg _ hfix hc hop
      · exact mine_single hk.free.events
      · simp only [view, Function.update_self]
        exact .setv hk.free.same i _
      · simp only [view, Function.update_self]
        exact getElem?_setv ha _
    · exact ⟨rfl, fun y hy => ⟨rfl, rfl, Function.update_of_ne hy _ _, mine_single_other hy, rfl, rfl⟩, hk.not_meet, (by simp)⟩

theorem Inv.altexec (h : Inv zero st) (hk : Idle st k) (ha : (st.alts k)[i]? = some a) (hc : a.c = some c) (hop : a.op ≠ .CHANNOP)
    (hcan : canexec st a.op c = true) (hs : altexec zero st k i a c j = some st')
    (hlast : ∀ b l, (st.chan c).qentry[j]?.join = some (b, l) → waits st a.op.other (some (b, l)) = true → Last (st.alts b) c l) :
    Inv zero st' := by
  unfold Thread.altexec at hs
  simp only at hs
  split at hs
  · obtain ⟨⟨b, l⟩, hb, hs⟩ := Option.bind_eq_some_iff.mp hs
    split at hs
    · rename_i hw
      cases hs
      have hmem : some (b, l) ∈ (st.chan c).qentry := List.mem_of_getElem? (Option.join_eq_some_iff.mp hb)
      exact h.altexecwaiter hk ha hc hop hmem hw (hlast b l hb hw)
    · exact nomatch hs
  · rename_i hnone
    cases hs
    exact h.altexecalone hk ha hc hcan (Bool.eq_false_iff.mpr hnone)

end Alone

section Block

variable {a : Alt C V} {alts : List (Alt C V)} {i : ℕ}

theorem Inv.setalts (h : Inv zero st) (hk : st.phase k = .ready) (alts : List (Alt C V)) :
    Inv zero { st with alts := Function.update st.alts k alts, given := Function.update st.given k alts } := by
  have hidle := h.ready hk
  have hphase : st.phase = Function.update st.phase k .ready := by
    rw [← hk, Function.update_eq_self]
  have o : Only st { st with alts := Function.update st.alts k alts, given := Function.update st.given k alts } k .ready :=
    ⟨hphase, fun y hy => ⟨rfl, Function.update_of_ne hy _ _, Function.update_of_ne hy _ _, rfl, rfl, rfl⟩, hidle.not_meet, nofun⟩
  apply h.only o
  · exact fun c => o.frame h hidle.not_waits ⟨_, rfl⟩ fun _ => rfl
  · refine ⟨?_, fun _ => ?_⟩
    · rw [o.phase_self]
      refine ⟨hidle.free.events, hidle.free.parties, hidle.free.wakers, hidle.free.solo, ?_⟩
      simp only [view, Function.update_self]
    · simp only [Function.update_self]
  · exact h.aborted

/-- What an entry that cannot proceed tells about its channel. -/
theorem Inv.counts (h : Inv zero st) (hable : able st a = false) (ho : opened st.chan a = true) (hc : a.c = some c) :
    a.op ≠ .CHANNOP ∧ (a.op = .CHANRCV → (st.chan c).n = 0) ∧ (a.op = .CHANSND → (st.chan c).n = (st.chan c).s) := by
  have hsize := (h.chan c).size
  simp only [opened, hc, Bool.and_eq_true, decide_eq_true_eq] at ho
  have hcan : canexec st a.op c = false := by
    simp only [able, hc, Bool.and_eq_false_iff] at hable
    rcases hable with hop | hopen | hcan
    · exact absurd ho.1 (by simpa using hop)
    · exact absurd (ho.2.symm.trans hopen) (by decide)
    · exact hcan
  rw [canexec, Bool.or_eq_false_iff] at hcan
  have hroom := hcan.2
  refine ⟨ho.1, fun hop => ?_, fun hop => ?_⟩
  · simp [hop] at hroom
    exact hroom
  · simp [hop] at hroom
    omega

theorem Inv.waiting {chan : C → Channel K V} (h : Inv zero st) (hk : Idle st k)
    (hable : (st.alts k).any (able st) = false) (he : Enqueued k 0 (st.alts k) st.chan chan) :
    Inv zero { st with chan := chan, tag := Function.update st.tag k none, phase := Function.update st.phase k .wait } := by
  have o : Only st { st with chan := chan, tag := Function.update st.tag k none, phase := Function.update st.phase k .wait } k .wait :=
    ⟨rfl, fun y hy => ⟨Function.update_of_ne hy _ _, rfl, rfl, rfl, rfl, rfl⟩, hk.not_meet, nofun⟩
  apply h.only o
  · intro c
    have hn : (chan c).n = (st.chan c).n := by rw [he.same c]
    have hs : (chan c).s = (st.chan c).s := by rw [he.same c]
    have hbuf : buffered (chan c) = buffered (st.chan c) := by rw [he.same c]; rfl
    refine ⟨?_, ?_, ?_, fun q l hql => ?_⟩
    · rw [hn, hs]
      exact (h.chan c).size
    · rw [hbuf]
      exact (h.chan c).order
    · exact he.once (fun c => (h.chan c).once) (fun c j _ => h.not_entered hk.not_waits c j) c
    · rcases he.mem c (q, l) hql with hold | ⟨j, a, ha, ho, hc, heq⟩
      · have hent := (h.chan c).entry q l hold
        have hkeeps : Keeps zero st _ q := (o.untouched (hk.ne hent.waits)).keeps hent.waits
        exact hent.frame hkeeps hn hs
      · obtain ⟨rfl, rfl⟩ := Prod.mk.inj heq
        rw [List.any_eq_false] at hable
        obtain ⟨hop, hcount⟩ := h.counts (Bool.eq_false_iff.mpr (hable a (List.mem_of_getElem? ha))) ho hc
        refine ⟨.inl o.phase_self, a, by rw [Nat.zero_add]; exact ha, hc, hop, fun _ => ?_⟩
        rw [hn, hs]
        exact hcount
  · refine ⟨?_, fun _ => (h.call k).kept hk.not_done⟩
    rw [o.phase_self]
    apply Pending.free
    · simp only [view, Function.update_self]
    · refine ⟨hk.free.events, hk.free.parties, hk.free.wakers, fun p nx => ?_, hk.free.same⟩
      simp only [view, o.meets]
      exact hk.free.solo p nx
  · exact h.aborted

/-- A call returns without an event. -/
theorem Inv.returns {r : Option ℕ} {alts : List (Alt C V)} (h : Inv zero st) (hk : Idle st k)
    (hsame : alts.map Alt.v = (st.alts k).map Alt.v)
    (herr : ∀ i a, r = some i → alts[i]? = some a → a.err = true) :
    Inv zero { st with alts := Function.update st.alts k alts, phase := Function.update st.phase k (.done r) } := by
  have o : Only st { st with alts := Function.update st.alts k alts, phase := Function.update st.phase k (.done r) } k (.done r) :=
    ⟨rfl, fun y hy => ⟨rfl, rfl, Function.update_of_ne hy _ _, rfl, rfl, rfl⟩, hk.not_meet, nofun⟩
  have hsolo : ∀ p nx, ¬ Meets { st with alts := Function.update st.alts k alts, phase := Function.update st.phase k (.done r) } k p nx := by
    intro p nx
    rw [o.meets]
    exact hk.free.solo p nx
  have hparties : st.parties k = [] := hk.free.parties
  have hwakers : st.wakers k = [] := hk.free.wakers
  apply h.only o
  · exact fun c => o.frame h hk.not_waits ⟨_, rfl⟩ fun _ => rfl
  · apply Good.of_done o.phase_self
    cases r with
    | none =>
      refine ⟨hk.free.events, hparties, hwakers, hsolo, ?_⟩
      simp only [view, Function.update_self]
      exact hsame.trans hk.free.same
    | some i =>
      refine ⟨hsolo, hparties.trans hwakers.symm, by simp [view, hparties], .inr ⟨hk.free.events, fun a ha => ?_⟩⟩
      simp only [view, Function.update_self] at ha
      exact herr i a rfl ha
  · exact h.aborted

theorem Inv.returns_same {r : Option ℕ} (h : Inv zero st) (hk : Idle st k)
    (herr : ∀ i a, r = some i → (st.alts k)[i]? = some a → a.err = true) :
    Inv zero { st with phase := Function.update st.phase k (.done r) } := by
  have hst := h.returns hk rfl herr
  rw [Function.update_eq_self] at hst
  exact hst

theorem Inv.block (h : Inv zero st) (hk : Idle st k) (hable : (st.alts k).any (able st) = false) :
    Inv zero (block st k (st.alts k)) := by
  rw [Thread.block]
  split
  · exact h.waiting hk hable (enqueues_spec k 0 (st.alts k) st.chan)
  · split
    · rename_i i _
      apply h.returns hk
      · apply List.ext_getElem?
        intro j
        rw [List.getElem?_map, List.getElem?_modify, List.getElem?_map, Option.map_eq_map, Option.map_map]
        congr 1
        funext a
        simp only [Function.comp_apply]
        split <;> rfl
      · intro j a hj ha
        obtain rfl := Option.some.inj hj
        rw [List.getElem?_modify, Option.map_eq_map] at ha
        obtain ⟨a', -, rfl⟩ := Option.map_eq_some_iff.mp ha
        rw [if_pos rfl]
    · split
      · exact h.returns_same hk (by intros; contradiction)
      · exact h.waiting hk hable ⟨fun _ => rfl, fun _ _ hx => .inl hx, fun honce _ => honce⟩

theorem Inv.alt {nb : Bool} {j : ℕ} (h : Inv zero st) (hk : st.phase k = .ready)
    (hlast : LastMet st (.alt k alts nb i j)) (hs : alt zero st k alts nb i j = some st') : Inv zero st' := by
  have h₁ := h.setalts hk alts
  have hk₁ := h₁.ready hk
  have hlast₁ : ∀ a c, alts[i]? = some a → a.c = some c → ∀ b l, (st.chan c).qentry[j]?.join = some (b, l) →
      waits { st with alts := Function.update st.alts k alts, given := Function.update st.given k alts } a.op.other (some (b, l)) = true →
      Last (Function.update st.alts k alts b) c l := by
    intro a c ha hc b l hb hw
    have hbk : b ≠ k := by
      rintro rfl
      exact (h.ready hk).not_waits ((h.chan c).entry b l (List.mem_of_getElem? (Option.join_eq_some_iff.mp hb))).waits
    simp only [waits, Function.update_of_ne hbk] at hw ⊢
    exact hlast a c b l ha hc hb hw
  unfold Thread.alt at hs
  generalize hst : ({ st with alts := Function.update st.alts k alts, given := Function.update st.given k alts } : St K C V) = st₁ at hs h₁ hk₁ hlast₁
  have halts : st₁.alts k = alts := by
    rw [← hst]
    exact Function.update_self ..
  simp only at hs
  split at hs
  · cases hs
    exact h₁.returns_same hk₁ (by intros; contradiction)
  · split at hs
    · obtain ⟨a, ha, hs⟩ := Option.bind_eq_some_iff.mp hs
      split at hs
      · rename_i hable
        obtain ⟨c, hc, hs⟩ := Option.bind_eq_some_iff.mp hs
        simp only [able, hc, Bool.and_eq_true, decide_eq_true_eq] at hable
        have hfar := hlast₁ a c ha hc
        rw [← halts] at ha
        exact h₁.altexec hk₁ ha hc hable.1 hable.2.2 hs (by rw [← hst] at hfar ⊢; exact hfar)
      · cases hs
    · rename_i hable
      split at hs
      · cases hs
        apply h₁.returns_same hk₁
        intro l a hl ha
        obtain rfl := Option.some.inj hl
        rw [halts, List.getElem?_eq_none le_rfl] at ha
        cases ha
      · cases hs
        rw [← halts] at hable ⊢
        exact h₁.block hk₁ (Bool.eq_false_iff.mpr hable)

end Block

section Wake

variable {a : Alt C V} {i : ℕ} {r : Res}

/-- The last place is one with the property, and no place with it is behind. -/
theorem lastidx_spec {α : Type} {p : α → Bool} {l : List α} {i : ℕ} {a : α} (ha : l[i]? = some a) (hp : p a = true) :
    ∃ m b, lastidx p l = some m ∧ l[m]? = some b ∧ p b = true ∧ i ≤ m := by
  have hmem : (a, i) ∈ l.zipIdx.filter fun x => p x.1 := by
    rw [List.mem_filter, List.mk_mem_zipIdx_iff_getElem?]
    exact ⟨ha, hp⟩
  have hne := List.ne_nil_of_mem hmem
  have hlast := List.getLast_mem hne
  rw [List.mem_filter, List.mem_zipIdx_iff_getElem?] at hlast
  refine ⟨_, _, ?_, hlast.1, hlast.2, ?_⟩
  · rw [lastidx, List.getLast?_eq_some_getLast hne, Option.map_some]
  · have hsorted : (l.zipIdx.filter fun x => p x.1).Pairwise fun x y => x.2 < y.2 := by
      apply List.Pairwise.filter
      rw [← List.pairwise_map, List.zipIdx_map_snd]
      exact List.pairwise_lt_range'
    rw [← List.dropLast_append_getLast hne] at hmem hsorted
    rw [List.pairwise_append] at hsorted
    rcases List.mem_append.mp hmem with hfront | hend
    · exact (hsorted.2.2 _ hfront _ (List.mem_singleton_self _)).le
    · exact le_of_eq (congrArg Prod.snd (List.mem_singleton.mp hend))

theorem lastidx_eq_none {α : Type} {p : α → Bool} {l : List α} (hp : ∀ a ∈ l, p a = false) : lastidx p l = none := by
  have hnil : (l.zipIdx.filter fun x => p x.1) = [] := by
    rw [List.filter_eq_nil_iff]
    rintro ⟨a, i⟩ hx
    rw [List.mk_mem_zipIdx_iff_getElem?] at hx
    rw [hp a (List.mem_of_getElem? hx)]
    exact Bool.false_ne_true
  rw [lastidx, hnil]
  rfl

/-- A call takes its entries out of the queues and returns. -/
theorem Inv.leave {ret : Option ℕ} {aborted : Bool} (h : Inv zero st) (hk : st.phase k = .woken r) (alts : List (Alt C V))
    (hst : st' = { st with
      alts := Function.update st.alts k alts
      chan := dequeues k 0 (st.alts k) st.chan
      phase := Function.update st.phase k (.done ret)
      aborted := aborted })
    (habort : aborted = false)
    (hcall : Meets st' k = Meets st k → CallOk zero k (view st' k) (.done ret)) : Inv zero st' := by
  have hd := dequeues_spec k 0 (st.alts k) st.chan
  have o : Only st st' k (.done ret) := by
    rw [hst]
    exact ⟨rfl, fun y hy => ⟨rfl, rfl, Function.update_of_ne hy _ _, rfl, rfl, rfl⟩, fun b nx hm => (nomatch hk.symm.trans hm), nofun⟩
  have hchan : st'.chan = dequeues k 0 (st.alts k) st.chan := by rw [hst]
  have hlog : st'.log = st.log := by rw [hst]
  apply h.only o
  · intro c
    have hn : (st'.chan c).n = (st.chan c).n := by rw [hchan, hd.same c]
    have hs : (st'.chan c).s = (st.chan c).s := by rw [hchan, hd.same c]
    have hbuf : buffered (st'.chan c) = buffered (st.chan c) := by rw [hchan, hd.same c]; rfl
    have hle : ∀ x, times x (st'.chan c).qentry ≤ times x (st.chan c).qentry := by
      rw [hchan]
      exact hd.le c
    refine ⟨?_, ?_, fun x => le_trans (hle x) ((h.chan c).once x), fun q l hql => ?_⟩
    · rw [hn, hs]
      exact (h.chan c).size
    · rw [hbuf, hlog]
      exact (h.chan c).order
    · have hold : some (q, l) ∈ (st.chan c).qentry := times_pos.mp (lt_of_lt_of_le (times_pos.mpr hql) (hle _))
      have hent := (h.chan c).entry q l hold
      rcases eq_or_ne q k with rfl | hqk
      · -- its entries are out
        obtain ⟨a, ha, hc, hop, -⟩ := hent.entry
        have hgone := hd.gone c l a ha hop hc ((h.chan c).once _)
        rw [Nat.zero_add, ← hchan, times_eq_zero] at hgone
        exact absurd hql hgone
      · have hkeeps : Keeps zero st st' q := (o.untouched hqk).keeps hent.waits
        exact hent.frame hkeeps hn hs
  · exact Good.of_done o.phase_self (hcall o.meets)
  · rw [hst]
    exact habort

/-- A call that waits is interrupted, or waits again. -/
theorem Inv.rewait {P : Phase K C} (h : Inv zero st) (hk : st.phase k = .wait ∨ st.phase k = .woken .intr)
    (hP : P = .wait ∨ P = .woken .intr) : Inv zero { st with phase := Function.update st.phase k P } := by
  have hold : ∀ b nx, st.phase k ≠ .meet b nx := by
    intro b nx hm
    rcases hk with hk | hk <;> exact nomatch hk.symm.trans hm
  have hnew : ∀ b nx, P ≠ .meet b nx := by
    intro b nx hm
    rcases hP with hP | hP <;> exact nomatch hP.symm.trans hm
  have o : Only st { st with phase := Function.update st.phase k P } k P := ⟨rfl, fun y hy => ⟨rfl, rfl, rfl, rfl, rfl, rfl⟩, hold, hnew⟩
  have hwaits : Waits st k := by
    rcases hk with hk | hk
    · exact .inl hk
    · exact .inr ⟨_, hk⟩
  have hwaits' : Waits { st with phase := Function.update st.phase k P } k := by
    rcases hP with hP | hP
    · exact .inl (o.phase_self.trans hP)
    · exact .inr ⟨_, o.phase_self.trans hP⟩
  have hkeeps : ∀ c q l, some (q, l) ∈ (st.chan c).qentry → Keeps zero st { st with phase := Function.update st.phase k P } q := by
    intro c q l hql
    rcases eq_or_ne q k with rfl | hqk
    · exact ⟨hwaits', rfl, id⟩
    · exact (o.untouched hqk).keeps ((h.chan c).entry q l hql).waits
  apply h.only o
  · exact fun c => (h.chan c).frame ⟨_, rfl⟩ (fun _ => rfl) (hkeeps c)
  · refine ⟨?_, fun _ => (h.call k).kept hwaits.not_done⟩
    have hview : view { st with phase := Function.update st.phase k P } k = view st k := by
      simp only [view, o.meets]
    rw [hview, o.phase_self]
    rcases hP with rfl | rfl <;> exact h.pending hk
  · exact h.aborted

theorem selected_iff : selected (some c) a = true ↔ a.op ≠ .CHANNOP ∧ a.c = some c := by
  simp [selected]

theorem Last.lastidx_eq {l : List (Alt C V)} (h : Last l c i) (ha : l[i]? = some a) (hop : a.op ≠ .CHANNOP) (hc : a.c = some c) :
    lastidx (selected (some c)) l = some i := by
  obtain ⟨m, b, hm, hb, hsel, hle⟩ := lastidx_spec ha (selected_iff.mpr ⟨hop, hc⟩)
  obtain ⟨hopb, hcb⟩ := selected_iff.mp hsel
  rcases Nat.lt_or_eq_of_le hle with hlt | rfl
  · exact absurd hcb (h m b hlt hb hopb)
  · exact hm

theorem told_v (c : Option C) (e : Bool) (a : Alt C V) : (told c e a).v = a.v := by
  rw [told]
  split <;> rfl

theorem map_told (c : Option C) (e : Bool) (l : List (Alt C V)) : (l.map (told c e)).map Alt.v = l.map Alt.v := by
  rw [List.map_map]
  exact List.map_congr_left fun a _ => told_v c e a

theorem getElem?_told {l : List (Alt C V)} (ha : l[i]? = some a) (hsel : selected (some c) a = true) (e : Bool) :
    (l.map (told (some c) e))[i]? = some { a with err := e } := by
  rw [List.getElem?_map, ha, Option.map_some, told, if_pos hsel]

theorem Others.told {given : List (Alt C V)} {l : List (Alt C V)} (h : Others l given i) (c : Option C) (e : Bool) :
    Others (l.map (told c e)) given i := by
  intro j hj
  rw [← List.getElem?_map, map_told, List.getElem?_map]
  exact h j hj

theorem Inv.wake_met (h : Inv zero st) (hk : st.phase k = .woken .met) : Inv zero (wake st k .met) := by
  have hwaits : Waits st k := .inr ⟨_, hk⟩
  have hcall := (h.call k).call
  rw [hk] at hcall
  obtain ⟨c, ⟨htag, ⟨p, hparties, hwakers⟩, hsolo⟩, i, ⟨hothers, g, a, hg, ha, -, hheld⟩, hlast⟩ := hcall
  obtain ⟨g', hg', hfix⟩ := (h.call k).given_entry hwaits.not_done ha
  obtain rfl : g = g' := Option.some.inj (hg.symm.trans hg')
  have hop : a.op ≠ .CHANNOP := by
    rw [Alt.fixed_op hfix]
    exact hheld.op
  have hc : a.c = some c := (Alt.fixed_c hfix).trans hheld.chan
  have htag' : st.tag k = some c := htag
  have hidx : lastidx (selected (some c)) (st.alts k) = some i := hlast.lastidx_eq ha hop hc
  rw [Thread.wake, if_neg fun hc => by cases hc.1]
  simp only [reduceCtorEq, if_false, htag', hidx]
  apply h.leave hk _ rfl
  · rw [h.aborted]
    rfl
  · intro hmeets
    refine ⟨fun q nx => ?_, hparties.trans hwakers.symm, ?_, .inl ⟨c, ?_, g, { a with err := false }, hg, ?_, (by intros; contradiction), hheld.chan, hheld.op, hheld.event⟩⟩
    · simp only [view, hmeets]
      exact hsolo q nx
    · exact le_of_eq (congrArg List.length hparties)
    · simp only [view, Function.update_self]
      exact hothers.told _ _
    · simp only [view, Function.update_self]
      exact getElem?_told ha (selected_iff.mpr ⟨hop, hc⟩) false

theorem Inv.wake_closed (h : Inv zero st) (hk : st.phase k = .woken .closed) : Inv zero (wake st k .closed) := by
  have hcall := (h.call k).call
  rw [hk] at hcall
  obtain ⟨c, ⟨htag, ⟨p, hparties, hwakers⟩, hsolo⟩, i, hevents, a, ha, hc, hop⟩ := hcall
  obtain ⟨m, b, hm, hb, hsel, -⟩ := lastidx_spec ha (selected_iff.mpr ⟨hop, hc⟩)
  change (st.alts k)[m]? = some b at hb
  have htag' : st.tag k = some c := htag
  have hidx : lastidx (selected (some c)) (st.alts k) = some m := hm
  rw [Thread.wake, if_neg fun hc => nomatch hc.1]
  simp only [reduceCtorEq, if_false, htag', hidx]
  apply h.leave hk _ rfl
  · rw [h.aborted]
    rfl
  · intro hmeets
    refine ⟨fun q nx => ?_, hparties.trans hwakers.symm, ?_, .inr ⟨hevents, fun a' ha' => ?_⟩⟩
    · simp only [view, hmeets]
      exact hsolo q nx
    · exact le_of_eq (congrArg List.length hparties)
    · simp only [view, Function.update_self, decide_true] at ha'
      rw [getElem?_told hb hsel true] at ha'
      rw [← Option.some.inj ha']

theorem Inv.wake (h : Inv zero st) (hk : st.phase k = .woken r) : Inv zero (wake st k r) := by
  cases r with
  | met => exact h.wake_met hk
  | closed => exact h.wake_closed hk
  | intr =>
    rw [Thread.wake]
    split
    · exact h.rewait (.inr hk) (.inl rfl)
    · rename_i hgo
      have htag : st.tag k = none := by
        by_contra hne
        exact hgo ⟨rfl, hne⟩
      have hfree := h.free (.inr ⟨_, hk⟩) htag
      have hidx : lastidx (selected none) (st.alts k) = none := by
        apply lastidx_eq_none
        intro a _
        simp [selected]
      simp only [if_true, hidx]
      apply h.leave hk _ rfl
      · rw [h.aborted]
        rfl
      · intro hmeets
        refine ⟨hfree.events, hfree.parties, hfree.wakers, fun p nx => ?_, ?_⟩
        · simp only [view, hmeets]
          exact hfree.solo p nx
        · simp only [view, Function.update_self]
          rw [map_told]
          exact hfree.same

end Wake

end Petele.Thread
