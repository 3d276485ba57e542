import Petele.Thread.ChanMeet

set_option linter.unusedSectionVars false

namespace Petele.Thread

open Lib

variable {K C V : Type} [DecidableEq K] [DecidableEq C] {zero : V}
variable {st st' : St K C V} {k b : K} {c : C}

section Runs

theorem Inv.step {a : Act K C V} (h : Inv zero st) (ha : LastMet st a) (hs : step zero st a = some st') : Inv zero st' := by
  unfold Thread.step at hs
  cases a with
  | alt k alts nb i j =>
    simp only at hs
    split at hs
    · rename_i hk
      exact h.alt hk ha hs
    · cases hs
  | wake k =>
    simp only at hs
    split at hs
    · rename_i hk
      cases hs
      exact h.wake hk
    · cases hs
  | chanclose k c =>
    simp only at hs
    split at hs
    · rename_i hk
      cases hs
      exact h.chanclose (h.ready hk)
    · cases hs
  | closeloop k =>
    simp only at hs
    split at hs
    · rename_i hk
      cases hs
      exact h.closeloop (h.closing hk)
    · cases hs
  | meeting k₁ k₂ => exact h.meeting hs
  | interrupt k => exact h.interrupt hs

theorem Start.inv (h : Start st) : Inv zero st := by
  refine ⟨fun c => ?_, fun k => ?_, h.aborted⟩
  · obtain ⟨hn, hclosed, hq⟩ := h.chan c
    refine ⟨by rw [hn]; exact Nat.zero_le _, ?_, fun x => ?_, fun k i hki => ?_⟩
    · rw [h.log, buffered_empty hn]
      rfl
    · rw [hq]
      exact Nat.zero_le _
    · rw [hq] at hki
      cases hki
  · refine ⟨?_, fun _ => by rw [h.given]⟩
    rw [h.phase]
    refine ⟨by simp only [view, h.log]; rfl, h.parties k, h.wakers k, fun p nx hm => ?_, by simp only [view, h.given]⟩
    cases (h.phase p).symm.trans hm

/-- A call leaves the others where they are and their arrays as they were given. -/
structure Beside (st st' : St K C V) (k : K) : Prop where
  given : st'.given = st.given
  phase : ∀ x, x ≠ k → st'.phase x = st.phase x

theorem Beside.waits {q : K} (h : Beside st st' k) (hk : Waits st' k → Waits st k) (hw : Waits st' q) :
    Waits st q ∧ st'.given q = st.given q := by
  refine ⟨?_, by rw [h.given]⟩
  rcases eq_or_ne q k with rfl | hq
  · exact hk hw
  · rw [Waits, h.phase q hq] at hw
    exact hw

theorem altexecwaiter_beside (a : Alt C V) (i j : ℕ) : Beside st (altexecwaiter zero st k i a c b j) k := by
  rw [altexecwaiter]
  split
  · split
    · exact ⟨rfl, fun _ _ => rfl⟩
    · split
      · exact ⟨rfl, fun _ _ => rfl⟩
      · exact ⟨rfl, fun x hx => Function.update_of_ne hx _ _⟩
  · split <;> exact ⟨rfl, fun x hx => Function.update_of_ne hx _ _⟩

theorem altexecalone_beside (a : Alt C V) (i : ℕ) : Beside st (altexecalone zero st k i a c) k := by
  rw [altexecalone]
  split
  · exact ⟨rfl, fun _ _ => rfl⟩
  · split <;> exact ⟨rfl, fun x hx => Function.update_of_ne hx _ _⟩

theorem altexec_beside {a : Alt C V} {i j : ℕ} (hs : altexec zero st k i a c j = some st') : Beside st st' k := by
  unfold altexec at hs
  simp only at hs
  split at hs
  · obtain ⟨b, -, hs⟩ := Option.bind_eq_some_iff.mp hs
    split at hs
    · cases hs
      exact altexecwaiter_beside a i b.2
    · exact nomatch hs
  · cases hs
    exact altexecalone_beside a i

theorem block_beside (alts : List (Alt C V)) : Beside st (block st k alts) k := by
  rw [block]
  split
  · exact ⟨rfl, fun x hx => Function.update_of_ne hx _ _⟩
  · split
    · exact ⟨rfl, fun x hx => Function.update_of_ne hx _ _⟩
    · split <;> exact ⟨rfl, fun x hx => Function.update_of_ne hx _ _⟩

theorem alt_beside {alts : List (Alt C V)} {nb : Bool} {i j : ℕ} (hs : alt zero st k alts nb i j = some st') :
    st'.given = Function.update st.given k alts ∧ ∀ x, x ≠ k → st'.phase x = st.phase x := by
  have hof : ∀ {st₁ : St K C V}, Beside { st with alts := Function.update st.alts k alts, given := Function.update st.given k alts } st₁ k →
      st₁.given = Function.update st.given k alts ∧ ∀ x, x ≠ k → st₁.phase x = st.phase x :=
    fun h => ⟨h.given, h.phase⟩
  unfold alt at hs
  simp only at hs
  split at hs
  · cases hs
    exact ⟨rfl, fun x hx => Function.update_of_ne hx _ _⟩
  · split at hs
    · obtain ⟨a, -, hs⟩ := Option.bind_eq_some_iff.mp hs
      split at hs
      · obtain ⟨c, -, hs⟩ := Option.bind_eq_some_iff.mp hs
        exact hof (altexec_beside hs)
      · exact nomatch hs
    · split at hs
      · cases hs
        exact ⟨rfl, fun x hx => Function.update_of_ne hx _ _⟩
      · cases hs
        exact hof (block_beside alts)

theorem wake_beside (st : St K C V) (k : K) (r : Res) : Beside st (wake st k r) k := by
  rw [wake]
  split <;> exact ⟨rfl, fun x hx => Function.update_of_ne hx _ _⟩

theorem closeloop_beside (st : St K C V) (k : K) (c : C) (i : ℕ) :
    Beside st (closeloop st k c i) k ∧ (Waits (closeloop st k c i) k → Waits st k) := by
  rw [closeloop]
  simp only
  split
  · split
    · refine ⟨⟨rfl, fun x hx => Function.update_of_ne hx _ _⟩, ?_⟩
      rintro (hw | ⟨r, hw⟩) <;> simp only [Function.update_self] at hw <;> cases hw
    · exact ⟨⟨rfl, fun _ _ => rfl⟩, id⟩
  · refine ⟨⟨rfl, fun x hx => Function.update_of_ne hx _ _⟩, ?_⟩
    rintro (hw | ⟨r, hw⟩) <;> simp only [Function.update_self] at hw <;> cases hw

theorem chanclose_beside (st : St K C V) (k : K) (c : C) :
    Beside st (chanclose st k c) k ∧ (Waits (chanclose st k c) k → Waits st k) := by
  rw [chanclose]
  split
  · refine ⟨⟨rfl, fun x hx => Function.update_of_ne hx _ _⟩, ?_⟩
    rintro (hw | ⟨r, hw⟩) <;> simp only [Function.update_self] at hw <;> cases hw
  · obtain ⟨hb, hw⟩ := closeloop_beside { st with chan := Function.update st.chan c { st.chan c with closed := 1 } } k c 0
    exact ⟨⟨hb.given, hb.phase⟩, hw⟩

theorem after_waits {p : Phase K C} {r : Res} (h : p.after r = .wait ∨ ∃ s, p.after r = .woken s) : p = .wait ∨ ∃ s, p = .woken s := by
  cases p with
  | meet b nx => cases nx <;> rcases h with h | ⟨s, h⟩ <;> exact nomatch h
  | wait => exact .inl rfl
  | _ => exact h

theorem meeting_waits {k₁ k₂ : K} (hs : meeting st k₁ k₂ = some st') (hw : Waits st' k) : Waits st k ∧ st'.given k = st.given k := by
  unfold meeting at hs
  simp only at hs
  split at hs
  · cases hs
    refine ⟨?_, rfl⟩
    simp only [Waits, Function.update_apply] at hw
    rw [Waits]
    split at hw
    · rename_i hk
      rw [hk]
      exact after_waits hw
    · split at hw
      · rename_i hk
        rw [hk]
        exact after_waits hw
      · exact hw
  · cases hs

theorem interrupt_waits {q : K} (hs : interrupt st q = some st') (hw : Waits st' k) : Waits st k ∧ st'.given k = st.given k := by
  unfold interrupt at hs
  split at hs
  · rename_i hq
    cases hs
    have hb : Beside st { st with phase := Function.update st.phase q (.woken .intr) } q :=
      ⟨rfl, fun x hx => Function.update_of_ne hx _ _⟩
    exact hb.waits (fun _ => .inl hq) hw
  · cases hs
    exact ⟨hw, rfl⟩
  · exact nomatch hs

/-- A call that waits has waited before the step, or the step is its call of `alt`. -/
theorem step_given {a : Act K C V} (hs : step zero st a = some st') (hw : Waits st' k) :
    Waits st k ∧ st'.given k = st.given k ∨ ∃ alts nb i j, a = .alt k alts nb i j ∧ st'.given k = alts := by
  unfold step at hs
  cases a with
  | alt q alts nb i j =>
    simp only at hs
    split at hs
    · obtain ⟨hgiven, hphase⟩ := alt_beside hs
      rcases eq_or_ne k q with rfl | hk
      · exact .inr ⟨alts, nb, i, j, rfl, by rw [hgiven, Function.update_self]⟩
      · rw [Waits, hphase k hk] at hw
        exact .inl ⟨hw, by rw [hgiven, Function.update_of_ne hk]⟩
    · cases hs
  | wake q =>
    simp only at hs
    split at hs
    · rename_i r hq
      cases hs
      exact .inl ((wake_beside st q r).waits (fun _ => .inr ⟨r, hq⟩) hw)
    · cases hs
  | chanclose q c =>
    simp only at hs
    split at hs
    · cases hs
      obtain ⟨hb, hq⟩ := chanclose_beside st q c
      exact .inl (hb.waits hq hw)
    · cases hs
  | closeloop q =>
    simp only at hs
    split at hs
    · cases hs
      obtain ⟨hb, hq⟩ := closeloop_beside st q _ _
      exact .inl (hb.waits hq hw)
    · cases hs
  | meeting k₁ k₂ => exact .inl (meeting_waits hs hw)
  | interrupt q => exact .inl (interrupt_waits hs hw)

theorem Reachable.distinct (h : Reachable zero st) (k : K) (hw : Waits st k) : Distinct (st.given k) := by
  induction h with
  | start h => rcases hw with hw | ⟨r, hw⟩ <;> exact nomatch (h.phase k).symm.trans hw
  | step _ ha hs ih =>
    rcases step_given hs hw with ⟨hold, hgiven⟩ | ⟨alts, nb, i, j, rfl, hgiven⟩
    · rw [hgiven]
      exact ih hold
    · rw [hgiven]
      exact ha

/-- Where no array has a channel twice, each entry is the last one for its channel. -/
theorem Inv.lastMet (h : Inv zero st) (hd : ∀ k, Waits st k → Distinct (st.given k)) (a : Act K C V) : LastMet st a := by
  cases a with
  | alt k alts nb i j =>
    intro a c b l _ _ hb _
    have hent := (h.chan c).entry b l (List.mem_of_getElem? (Option.join_eq_some_iff.mp hb))
    obtain ⟨ab, hab, hc, hop, -⟩ := hent.entry
    have halts : Distinct (st.alts b) := (hd b hent.waits).of_shape ((h.call b).kept hent.waits.not_done)
    exact halts.last hab hop hc
  | _ => exact True.intro

theorem Reachable.inv (h : Reachable zero st) : Inv zero st := by
  induction h with
  | start h => exact h.inv
  | step h _ hs ih => exact ih.step (ih.lastMet h.distinct _) hs

theorem Inv.success {i : ℕ} {g a : Alt C V} (h : Inv zero st) (hk : st.phase k = .done (some i)) (hg : (st.given k)[i]? = some g)
    (ha : (st.alts k)[i]? = some a) (herr : a.err = false) : ∃ c, Held zero k g a c (mine k st.log) := by
  have hcall := (h.call k).call
  rw [hk] at hcall
  obtain ⟨-, -, -, ⟨c, -, g', a', hg', ha', -, hheld⟩ | ⟨-, hclosed⟩⟩ := hcall
  · obtain rfl : g = g' := Option.some.inj (hg.symm.trans hg')
    obtain rfl : a = a' := Option.some.inj (ha.symm.trans ha')
    exact ⟨c, hheld⟩
  · exact absurd ((hclosed a ha).symm.trans herr) (by decide)

theorem Inv.failure {r : Option ℕ} (h : Inv zero st) (hk : st.phase k = .done r)
    (hr : ∀ i g a, r = some i → (st.given k)[i]? = some g → (st.alts k)[i]? = some a → a.err = true ∧ g.err = false) : mine k st.log = [] := by
  have hcall := (h.call k).call
  rw [hk] at hcall
  cases r with
  | none => exact hcall.events
  | some i =>
    obtain ⟨-, -, -, ⟨c, -, g, a, hg, ha, herr, -⟩ | ⟨hnil, -⟩⟩ := hcall
    · obtain ⟨hae, hge⟩ := hr i g a rfl hg ha
      exact absurd ((herr hae).symm.trans hge) (by decide)
    · exact hnil

theorem Inv.runop {op : Op} {v : Option V} {n : Int} (h : Inv zero st) (hg : st.given k = [⟨op, some c, v, false⟩])
    (hret : runret st k = some n) :
    (n = 1 ∧ ∃ x, mine k st.log = [⟨k, op, c, x⟩] ∧ (op = .CHANSND → x = v.getD zero) ∧
      (op = .CHANRCV → (st.alts k)[0]?.map Alt.v = some (v.map fun _ => x))) ∨ n ≤ 0 ∧ mine k st.log = [] := by
  unfold runret at hret
  split at hret
  · rename_i hk
    cases hret
    exact .inr ⟨by decide, h.failure hk nofun⟩
  · rename_i hk
    cases hret
    refine .inr ⟨le_rfl, h.failure hk fun i g a hi hgi => ?_⟩
    obtain rfl := Option.some.inj hi
    rw [hg] at hgi
    exact nomatch hgi
  · rename_i hk
    obtain ⟨a, ha, hn⟩ := Option.map_eq_some_iff.mp hret
    cases herr : a.err with
    | true =>
      rw [herr, if_pos rfl] at hn
      refine .inr ⟨by omega, h.failure hk fun i g a' hi hgi hai => ?_⟩
      obtain rfl := Option.some.inj hi
      rw [hg] at hgi
      cases hgi
      obtain rfl : a = a' := Option.some.inj (ha.symm.trans hai)
      exact ⟨herr, rfl⟩
    | false =>
      rw [herr] at hn
      obtain ⟨c', hc, -, x, hev, hsnd, hrcv⟩ := h.success hk (by rw [hg]; rfl) ha herr
      cases hc
      refine .inl ⟨hn.symm, x, hev, hsnd, fun hop => ?_⟩
      rw [ha, Option.map_some, hrcv hop]
  · exact nomatch hret

/-- A call has at most one event. -/
theorem Inv.mine_le (h : Inv zero st) : (mine k st.log).length ≤ 1 := by
  have hgot : ∀ c i, (view st k).Got zero k c i → (mine k st.log).length ≤ 1 := by
    rintro c i ⟨-, g, a, -, -, -, hheld⟩
    obtain ⟨x, hx, -⟩ := hheld.event
    exact le_of_eq (congrArg List.length hx)
  have hnil : (view st k).events = [] → (mine k st.log).length ≤ 1 := fun hx => le_of_eq_of_le (congrArg List.length hx) (Nat.zero_le 1)
  have hpend : Pending zero k (view st k) → (mine k st.log).length ≤ 1 := by
    intro hp
    cases hp with
    | free _ hfree => exact hnil hfree.events
    | taken c i _ _ _ _ _ _ got => exact hgot c i got
    | shut c i _ _ _ _ _ _ lost => exact hnil lost.1
  have hcall := (h.call k).call
  cases hk : st.phase k with
  | wait => exact hpend (h.pending (.inl hk))
  | woken r =>
    rw [hk] at hcall
    cases r with
    | intr => exact hpend hcall
    | met =>
      obtain ⟨c, -, i, got, -⟩ := hcall
      exact hgot c i got
    | closed =>
      obtain ⟨c, -, i, lost⟩ := hcall
      exact hnil lost.1
  | meet b nx =>
    rw [hk] at hcall
    cases nx with
    | ret i =>
      obtain ⟨-, -, -, c, got⟩ := hcall
      exact hgot c i got
    | close c i => exact hnil (View.Free.events hcall)
  | done r =>
    rw [hk] at hcall
    cases r with
    | none => exact hnil (View.Free.events hcall)
    | some i =>
      obtain ⟨-, -, -, ⟨c, got⟩ | ⟨hn, -⟩⟩ := hcall
      · exact hgot c i got
      · exact hnil hn
  | _ =>
    rw [hk] at hcall
    exact hnil (View.Free.events hcall)

theorem Inv.once (h : Inv zero st) {e : Event K C V} (he : e ∈ st.log) : mine e.call st.log = [e] := by
  have hmem : e ∈ mine e.call st.log := by
    rw [mine, List.mem_filter]
    exact ⟨he, decide_eq_true rfl⟩
  obtain ⟨x, hx⟩ := List.length_eq_one_iff.mp (le_antisymm h.mine_le (List.length_pos_of_mem hmem))
  rw [hx, List.mem_singleton] at hmem
  rw [hx, hmem]

theorem Inv.tagged (h : Inv zero st) (hk : st.phase k = .wait ∨ st.phase k = .woken .intr) (htag : st.tag k ≠ none) :
    ∃ p nx, st.parties k = [p] ∧ st.wakers k = [] ∧ ∀ q nx', st.phase q = .meet k nx' ↔ q = p ∧ nx' = nx := by
  cases h.pending hk with
  | free hnone => exact absurd hnone htag
  | taken c i p n _ hone hpar hwak => exact ⟨p, _, hpar, hwak, hone⟩
  | shut c i p n _ hone hpar hwak => exact ⟨p, _, hpar, hwak, hone⟩

/-- A call and the one that has committed to it can meet. -/
theorem meeting_isSome {p : K} {nx : Next C} (hk : st.phase k = .wait) (hp : st.phase p = .meet k nx) : (meeting st k p).isSome := by
  have hne : k ≠ p := by
    rintro rfl
    exact nomatch hk.symm.trans hp
  simp [meeting, hk, hp, Phase.rendezvous, hne]

theorem wake_phase {r : Res} (hr : r ≠ .intr ∨ st.tag k = none) :
    (wake st k r).phase k = .done (lastidx (selected (if r = .intr then none else st.tag k)) (st.alts k)) := by
  have hgo : ¬ (r = .intr ∧ st.tag k ≠ none) := by
    rintro ⟨hi, htag⟩
    rcases hr with hr | hr
    · exact hr hi
    · exact htag hr
  rw [wake, if_neg hgo]
  simp only [Function.update_self]

theorem Inv.woken {r : Res} (h : Inv zero st) (hk : st.phase k = .woken r) (hr : r ≠ .intr) :
    ∃ p i, st.parties k = [p] ∧ st.wakers k = [p] ∧ (Thread.wake st k r).phase k = .done (some i) := by
  have hwaits : Waits st k := .inr ⟨r, hk⟩
  have hentry : ∃ (c : C) (p : K) (i : ℕ) (a : Alt C V), st.tag k = some c ∧ st.parties k = [p] ∧ st.wakers k = [p] ∧
      (st.alts k)[i]? = some a ∧ a.op ≠ .CHANNOP ∧ a.c = some c := by
    have hcall := (h.call k).call
    rw [hk] at hcall
    cases r with
    | intr => exact absurd rfl hr
    | met =>
      obtain ⟨c, ⟨htag, ⟨p, hpar, hwak⟩, -⟩, i, ⟨-, g, a, hg, ha, -, hheld⟩, -⟩ := hcall
      obtain ⟨g', hg', hfix⟩ := (h.call k).given_entry hwaits.not_done ha
      obtain rfl : g = g' := Option.some.inj (hg.symm.trans hg')
      exact ⟨c, p, i, a, htag, hpar, hwak, ha, by rw [Alt.fixed_op hfix]; exact hheld.op, (Alt.fixed_c hfix).trans hheld.chan⟩
    | closed =>
      obtain ⟨c, ⟨htag, ⟨p, hpar, hwak⟩, -⟩, i, -, a, ha, hc, hop⟩ := hcall
      exact ⟨c, p, i, a, htag, hpar, hwak, ha, hop, hc⟩
  obtain ⟨c, p, i, a, htag, hpar, hwak, ha, hop, hc⟩ := hentry
  obtain ⟨m, b, hm, -⟩ := lastidx_spec ha (selected_iff.mpr ⟨hop, hc⟩)
  refine ⟨p, m, hpar, hwak, ?_⟩
  rw [wake_phase (.inl hr)]
  simp only [if_neg hr, htag]
  rw [hm]

theorem wake_intr (htag : st.tag k = none) : (wake st k .intr).phase k = .done none := by
  rw [wake_phase (.inr htag), lastidx_eq_none]
  intro a _
  simp [selected]

theorem wake_again (htag : st.tag k ≠ none) : (wake st k .intr).phase k = .wait := by
  rw [wake, if_pos ⟨rfl, htag⟩]
  simp only [Function.update_self]

/-- What holds in every state of every run. -/
structure Exact (zero : V) (st : St K C V) : Prop where
  order : ∀ c, moved .CHANRCV c st.log ++ buffered (st.chan c) = moved .CHANSND c st.log
  size : ∀ c, (st.chan c).n ≤ (st.chan c).s
  receiver : ∀ c k i a, some (k, i) ∈ (st.chan c).qentry → st.tag k = none → (st.alts k)[i]? = some a → a.op = .CHANRCV →
    (st.chan c).n = 0
  sender : ∀ c k i a, some (k, i) ∈ (st.chan c).qentry → st.tag k = none → (st.alts k)[i]? = some a → a.op = .CHANSND →
    (st.chan c).n = (st.chan c).s
  aborted : st.aborted = false
  /-- A call that returns an entry without an error has committed once, with the value in the array. -/
  success : ∀ k i g a, st.phase k = .done (some i) → (st.given k)[i]? = some g → (st.alts k)[i]? = some a → a.err = false →
    ∃ c, Held zero k g a c (mine k st.log)
  /-- A call that returns nothing, no entry or an error has not. -/
  failure : ∀ k r, st.phase k = .done r →
    (∀ i g a, r = some i → (st.given k)[i]? = some g → (st.alts k)[i]? = some a → a.err = true ∧ g.err = false) → mine k st.log = []
  runop : ∀ k op c v n, st.given k = [⟨op, some c, v, false⟩] → runret st k = some n →
    (n = 1 ∧ ∃ x, mine k st.log = [⟨k, op, c, x⟩] ∧ (op = .CHANSND → x = v.getD zero) ∧
      (op = .CHANRCV → (st.alts k)[0]?.map Alt.v = some (v.map fun _ => x))) ∨ n ≤ 0 ∧ mine k st.log = []
  once : ∀ e ∈ st.log, mine e.call st.log = [e]
  /-- Nobody has committed to a call that waits without a tag. -/
  untagged : ∀ k, Waits st k → st.tag k = none → st.parties k = [] ∧ st.wakers k = [] ∧ ∀ p nx, st.phase p ≠ .meet k nx
  /-- One call has committed to one that waits with a tag, and can meet it. -/
  tagged : ∀ k, st.phase k = .wait → st.tag k ≠ none →
    ∃ p, st.parties k = [p] ∧ st.wakers k = [] ∧ (∀ q, (∃ nx, st.phase q = .meet k nx) ↔ q = p) ∧ (meeting st k p).isSome
  /-- A call that has been met returns an entry. -/
  woken : ∀ k r, st.phase k = .woken r → r ≠ .intr →
    ∃ p i, st.parties k = [p] ∧ st.wakers k = [p] ∧ (wake st k r).phase k = .done (some i)
  /-- One that has been interrupted returns -1 or waits for the call that has committed to it. -/
  interrupted : ∀ k, st.phase k = .woken .intr →
    st.tag k = none ∧ st.parties k = [] ∧ st.wakers k = [] ∧ (wake st k .intr).phase k = .done none ∨
      (∃ p nx, st.parties k = [p] ∧ st.wakers k = [] ∧ st.phase p = .meet k nx) ∧ (wake st k .intr).phase k = .wait

theorem channels_exact (h : Reachable zero st) : Exact zero st where
  order c := (h.inv.chan c).order
  size c := (h.inv.chan c).size
  receiver c k i a hmem htag ha hop := by
    obtain ⟨a', ha', -, -, hcount⟩ := ((h.inv.chan c).entry k i hmem).entry
    obtain rfl : a = a' := Option.some.inj (ha.symm.trans ha')
    exact (hcount htag).1 hop
  sender c k i a hmem htag ha hop := by
    obtain ⟨a', ha', -, -, hcount⟩ := ((h.inv.chan c).entry k i hmem).entry
    obtain rfl : a = a' := Option.some.inj (ha.symm.trans ha')
    exact (hcount htag).2 hop
  aborted := h.inv.aborted
  success k i g a hk hg ha herr := h.inv.success hk hg ha herr
  failure k r hk hr := h.inv.failure hk hr
  runop k op c v n hg hret := h.inv.runop hg hret
  once e he := h.inv.once he
  untagged k hw htag := by
    have hfree := h.inv.free hw htag
    exact ⟨hfree.parties, hfree.wakers, hfree.solo⟩
  tagged k hk htag := by
    obtain ⟨p, nx, hpar, hwak, hone⟩ := h.inv.tagged (.inl hk) htag
    refine ⟨p, hpar, hwak, fun q => ⟨?_, ?_⟩, meeting_isSome hk ((hone p nx).mpr ⟨rfl, rfl⟩)⟩
    · rintro ⟨nx', hq⟩
      exact ((hone q nx').mp hq).1
    · rintro rfl
      exact ⟨nx, (hone q nx).mpr ⟨rfl, rfl⟩⟩
  woken k r hk hr := h.inv.woken hk hr
  interrupted k hk := by
    by_cases htag : st.tag k = none
    · have hfree := h.inv.free (.inr ⟨_, hk⟩) htag
      exact .inl ⟨htag, hfree.parties, hfree.wakers, wake_intr htag⟩
    · obtain ⟨p, nx, hpar, hwak, hone⟩ := h.inv.tagged (.inr hk) htag
      exact .inr ⟨⟨p, nx, hpar, hwak, (hone p nx).mpr ⟨rfl, rfl⟩⟩, wake_again htag⟩

/-- A channel without a buffer, and no call. -/
def unbuffered : St Bool Unit Bool :=
  ⟨fun _ => ⟨0, 0, 0, 0, fun _ => false, []⟩, fun _ => .ready, fun _ => none, fun _ => [], false, [], fun _ => [], fun _ => [], fun _ => []⟩

theorem channels_exact_meet : ∃ st : St Bool Unit Bool, Reachable false st ∧ moved .CHANRCV () st.log = [true] ∧ Exact false st := by
  have hrun : ((step false unbuffered (send false (some ()) (some true) 0 0)).bind fun st =>
      step false st (recv true (some ()) (some false) 0 0)).map (fun st => moved .CHANRCV () st.log) = some [true] := by
    decide
  obtain ⟨st, hst, hmoved⟩ := Option.map_eq_some_iff.mp hrun
  obtain ⟨st₁, h₁, h₂⟩ := Option.bind_eq_some_iff.mp hst
  have hone : ∀ a : Alt Unit Bool, Distinct [a] := by
    intro a i j x y hx hy _ _ _ _
    have hi := (List.getElem?_eq_some_iff.mp hx).1
    have hj := (List.getElem?_eq_some_iff.mp hy).1
    simp only [List.length_singleton] at hi hj
    omega
  have hstart : Start unbuffered := ⟨fun _ => ⟨rfl, rfl, rfl⟩, fun _ => rfl, rfl, rfl, fun _ => rfl, fun _ => rfl, fun _ => rfl⟩
  have hsend : Allowed (send false (some ()) (some true) 0 0 : Act Bool Unit Bool) := hone _
  have hrecv : Allowed (recv true (some ()) (some false) 0 0 : Act Bool Unit Bool) := hone _
  have hreach : Reachable false st := ((Reachable.start hstart).step hsend h₁).step hrecv h₂
  exact ⟨st, hreach, hmoved, channels_exact hreach⟩

end Runs

end Petele.Thread
