import Petele.Thread.ChanAlt

set_option linter.unusedSectionVars false

namespace Petele.Thread

open Lib

variable {K C V : Type} [DecidableEq K] [DecidableEq C] {zero : V}
variable {st st' : St K C V} {k b : K} {c : C}

section Close

variable {i j : ℕ}

/-- A channel is marked as closed. -/
theorem update_closed (chan : C → Channel K V) (c : C) (cl : ℕ) (c' : C) :
    ∃ cl', Function.update chan c { chan c with closed := cl } c' = { chan c' with closed := cl' } := by
  rcases eq_or_ne c' c with rfl | hc
  · exact ⟨cl, Function.update_self ..⟩
  · exact ⟨_, Function.update_of_ne hc _ _⟩

theorem Inv.ends {chan : C → Channel K V} {ok : Bool} (h : Inv zero st) (hk : Idle st k)
    (hchan : ∀ c, ∃ cl, chan c = { st.chan c with closed := cl }) :
    Inv zero { st with chan := chan, phase := Function.update st.phase k (.ended ok) } := by
  have o : Only st { st with chan := chan, phase := Function.update st.phase k (.ended ok) } k (.ended ok) :=
    ⟨rfl, fun y hy => ⟨rfl, rfl, rfl, rfl, rfl, rfl⟩, hk.not_meet, nofun⟩
  apply h.only o
  · exact fun c => o.frame h hk.not_waits (hchan c) fun _ => rfl
  · refine ⟨?_, fun _ => (h.call k).kept hk.not_done⟩
    rw [o.phase_self]
    refine ⟨hk.free.events, hk.free.parties, hk.free.wakers, fun p nx => ?_, hk.free.same⟩
    simp only [view, o.meets]
    exact hk.free.solo p nx
  · exact h.aborted

theorem Inv.mark (h : Inv zero st) (cl : ℕ) : Inv zero { st with chan := Function.update st.chan c { st.chan c with closed := cl } } := by
  have hkeeps : ∀ c' q l, some (q, l) ∈ (st.chan c').qentry →
      Keeps zero st { st with chan := Function.update st.chan c { st.chan c with closed := cl } } q :=
    fun c' q l hql => ⟨((h.chan c').entry q l hql).waits, rfl, id⟩
  exact ⟨fun c' => (h.chan c').frame (update_closed st.chan c cl c') (fun _ => rfl) (hkeeps c'),
    fun x => (h.call x).frame ⟨rfl, rfl⟩, h.aborted⟩

theorem Inv.closeloop (h : Inv zero st) (hk : Idle st k) : Inv zero (closeloop st k c i) := by
  rw [Thread.closeloop]
  simp only
  split
  · rename_i j hj
    have hclose : closable st c (st.chan c).qentry[j]?.join = true := by
      have hfound := List.find?_some hj
      simp only [Bool.and_eq_true] at hfound
      exact hfound.2
    split
    · rename_i b l hb
      rw [hb] at hclose
      have hmem : some (b, l) ∈ (st.chan c).qentry := List.mem_of_getElem? (Option.join_eq_some_iff.mp hb)
      have htag : st.tag b = none := by
        simp only [closable, Bool.and_eq_true, decide_eq_true_eq] at hclose
        exact hclose.1
      have hent := (h.chan c).entry b l hmem
      have hfree := h.free hent.waits htag
      obtain ⟨a, ha, hc, hop, -⟩ := hent.entry
      have e : Engaged zero st { st with
          tag := Function.update st.tag b (some c)
          parties := Function.update st.parties b (st.parties b ++ [k])
          phase := Function.update st.phase k (.meet b (.close c (j + 1))) } k b c (.close c (j + 1)) :=
        ⟨rfl, rfl, rfl, rfl, rfl, fun _ => rfl, fun _ _ _ => ⟨rfl, rfl⟩, rfl⟩
      obtain ⟨hsolo, hparties, hwakers⟩ := e.alone hk (hk.ne hent.waits)
      apply h.engage hk hent.waits htag e
      · exact fun c' => (h.chan c').frame ⟨_, rfl⟩ (fun _ => rfl) fun q l hql => e.keeps hk ((h.chan c').entry q l hql).waits
      · exact ⟨hk.free.events, hparties, hwakers, hsolo, hk.free.same⟩
      · apply Pending.shut c l k (j + 1)
        · simp only [view, Function.update_self]
        · exact e.meets hfree
        · have hnil : st.parties b = [] := hfree.parties
          simp only [view, Function.update_self, hnil, List.nil_append]
        · exact hfree.wakers
        · exact ⟨hfree.events, a, ha, hc, hop⟩
    · exact h
  · exact h.ends hk (update_closed st.chan c 2)

theorem Inv.chanclose (h : Inv zero st) (hk : Idle st k) : Inv zero (chanclose st k c) := by
  rw [Thread.chanclose]
  split
  · exact h.ends hk fun c => ⟨_, rfl⟩
  · exact (h.mark 1).closeloop ⟨hk.phase, hk.free⟩

end Close

section Meeting

variable {p : K} {nx : Next C}

theorem CallOk.solo {w : View K C V} {P : Phase K C} (h : CallOk zero k w P) (hw : P ≠ .wait) (hi : P ≠ .woken .intr) :
    ∀ p nx, ¬ w.meets p nx := by
  cases P with
  | wait => exact absurd rfl hw
  | woken r =>
    cases r with
    | intr => exact absurd rfl hi
    | met =>
      obtain ⟨c, hmet, -⟩ := h
      exact hmet.solo
    | closed =>
      obtain ⟨c, hmet, -⟩ := h
      exact hmet.solo
  | meet b nx =>
    cases nx with
    | ret i => exact h.1
    | close c i => exact View.Free.solo h
  | done r =>
    cases r with
    | none => exact View.Free.solo h
    | some i => exact h.1
  | ready => exact View.Free.solo h
  | closing c i => exact View.Free.solo h
  | ended ok => exact View.Free.solo h

/-- A call that another meets waits. -/
theorem Inv.met_waits (h : Inv zero st) (hp : st.phase p = .meet k nx) : st.phase k = .wait ∨ st.phase k = .woken .intr := by
  by_contra hc
  rw [not_or] at hc
  exact (h.call k).call.solo hc.1 hc.2 p nx hp

/-- At most one call is in the rendezvous with another. -/
theorem Inv.meet_unique {q : K} {nx' : Next C} (h : Inv zero st) (hp : st.phase p = .meet k nx) (hq : st.phase q = .meet k nx') : p = q := by
  cases h.pending (h.met_waits hp) with
  | free _ hfree => exact absurd hp (hfree.solo p nx)
  | taken c i x n _ hone => exact ((hone p nx).mp hp).1.trans ((hone q nx').mp hq).1.symm
  | shut c i x n _ hone => exact ((hone p nx).mp hp).1.trans ((hone q nx').mp hq).1.symm

/-- The state after a party has met a call that waits. -/
structure Joined (st st' : St K C V) (k p : K) (nx : Next C) : Prop where
  phase : st'.phase = Function.update (Function.update st.phase k (.woken (Phase.meet k nx : Phase K C).offer)) p
    ((Phase.meet k nx).after .met)
  wakers : st'.wakers = Function.update st.wakers k (st.wakers k ++ [p])
  rest : st'.chan = st.chan ∧ st'.tag = st.tag ∧ st'.alts = st.alts ∧ st'.aborted = st.aborted ∧ st'.log = st.log ∧
    st'.given = st.given ∧ st'.parties = st.parties

theorem after_ne_meet (k x : K) (nx nx' : Next C) (r : Res) : (Phase.meet k nx).after r ≠ .meet x nx' := by
  cases nx <;> exact nofun

theorem Joined.phase_waiter (j : Joined st st' k p nx) (hne : k ≠ p) : st'.phase k = .woken (Phase.meet k nx : Phase K C).offer := by
  rw [j.phase, Function.update_of_ne hne, Function.update_self]

theorem Joined.phase_party (j : Joined st st' k p nx) : st'.phase p = (Phase.meet k nx).after .met := by
  rw [j.phase, Function.update_self]

theorem Joined.phase_other {x : K} (j : Joined st st' k p nx) (hxk : x ≠ k) (hxp : x ≠ p) : st'.phase x = st.phase x := by
  rw [j.phase, Function.update_of_ne hxp, Function.update_of_ne hxk]

theorem Joined.meets {x : K} (j : Joined st st' k p nx) (hw : st.phase k = .wait) (hp : st.phase p = .meet k nx) (q : K) (nx' : Next C) :
    Meets st' x q nx' ↔ Meets st x q nx' ∧ q ≠ p := by
  have hkp : k ≠ p := by
    rintro rfl
    cases hw.symm.trans hp
  rw [Meets, Meets]
  rcases eq_or_ne q p with rfl | hqp
  · rw [j.phase_party]
    exact ⟨fun hm => absurd hm (after_ne_meet _ _ _ _ _), fun hm => absurd rfl hm.2⟩
  · rcases eq_or_ne q k with rfl | hqk
    · rw [j.phase_waiter hkp, hw]
      exact ⟨(by intros; contradiction), fun hm => by cases hm.1⟩
    · rw [j.phase_other hqk hqp]
      exact ⟨fun hm => ⟨hm, hqp⟩, fun hm => hm.1⟩

theorem Joined.good_waiter (h : Inv zero st) (j : Joined st st' k p nx) (hw : st.phase k = .wait) (hp : st.phase p = .meet k nx) :
    Good zero st' k := by
  obtain ⟨hchan, htag, halts, habort, hlog, hgiven, hparties⟩ := j.rest
  have hkp : k ≠ p := by
    rintro rfl
    exact nomatch hw.symm.trans hp
  have hsolo : ∀ q nx', ¬ Meets st' k q nx' := by
    intro q nx' hm
    rw [j.meets hw hp] at hm
    exact hm.2 (h.meet_unique hm.1 hp)
  refine ⟨?_, fun _ => ?_⟩
  · have hview : view st' k = ⟨st.tag k, st.given k, st.alts k, mine k st.log, st.parties k, st.wakers k ++ [p], Meets st' k⟩ := by
      simp only [view, htag, hgiven, halts, hlog, hparties, j.wakers, Function.update_self]
    rw [hview, j.phase_waiter hkp]
    cases h.pending (.inl hw) with
    | free _ hfree => exact absurd hp (hfree.solo p nx)
    | taken c i x n htag hone hpar hwak hgot hlast =>
      obtain ⟨rfl, rfl⟩ := (hone p nx).mp hp
      have hnil : st.wakers k = [] := hwak
      rw [hnil]
      exact ⟨c, ⟨htag, ⟨p, hpar, rfl⟩, hsolo⟩, i, hgot, hlast⟩
    | shut c i x n htag hone hpar hwak hlost =>
      obtain ⟨rfl, rfl⟩ := (hone p nx).mp hp
      have hnil : st.wakers k = [] := hwak
      rw [hnil]
      exact ⟨c, ⟨htag, ⟨p, hpar, rfl⟩, hsolo⟩, i, hlost⟩
  · rw [halts, hgiven]
    exact (h.call k).kept (Waits.not_done (.inl hw))

theorem Joined.good_party (h : Inv zero st) (j : Joined st st' k p nx) (hw : st.phase k = .wait) (hp : st.phase p = .meet k nx) :
    Good zero st' p := by
  obtain ⟨hchan, htag, halts, habort, hlog, hgiven, hparties⟩ := j.rest
  have hpk : p ≠ k := by
    rintro rfl
    cases hw.symm.trans hp
  have hcall := (h.call p).call
  have hview : view st' p = ⟨st.tag p, st.given p, st.alts p, mine p st.log, st.parties p, st.wakers p, Meets st' p⟩ := by
    simp only [view, htag, hgiven, halts, hlog, hparties, j.wakers, Function.update_of_ne hpk]
  have hsolo : ∀ q nx', ¬ Meets st' p q nx' := by
    intro q nx' hm
    rw [j.meets hw hp] at hm
    apply (h.call p).call.solo _ _ q nx' hm.1
    · rw [hp]
      rintro ⟨⟩
    · rw [hp]
      rintro ⟨⟩
  rw [hp] at hcall
  cases nx with
  | ret i =>
    obtain ⟨-, hpar, hwak, hgot⟩ := hcall
    apply Good.of_done j.phase_party
    rw [hview]
    exact ⟨hsolo, hpar.trans hwak.symm, le_of_eq_of_le (congrArg List.length hpar) (Nat.zero_le 1), .inl hgot⟩
  | close c i =>
    have hphase : st'.phase p = .closing c i := j.phase_party
    refine ⟨?_, fun _ => ?_⟩
    · rw [hview, hphase]
      exact ⟨hcall.events, hcall.parties, hcall.wakers, hsolo, hcall.same⟩
    · rw [halts, hgiven]
      apply (h.call p).kept
      intro r hr
      cases hp.symm.trans hr

theorem Joined.untouched {x : K} (j : Joined st st' k p nx) (hw : st.phase k = .wait) (hp : st.phase p = .meet k nx) (hxk : x ≠ k) (hxp : x ≠ p) :
    Untouched st st' x := by
  obtain ⟨hchan, htag, halts, habort, hlog, hgiven, hparties⟩ := j.rest
  have hmeets : Meets st' x = Meets st x := by
    funext q nx'
    rw [eq_iff_iff, j.meets hw hp]
    refine ⟨fun hm => hm.1, fun hm => ⟨hm, ?_⟩⟩
    rintro rfl
    have heq := hp.symm.trans hm
    injection heq with hkx
    exact hxk hkx.symm
  refine ⟨?_, j.phase_other hxk hxp⟩
  simp only [view, htag, hgiven, halts, hlog, hparties, j.wakers, Function.update_of_ne hxk, hmeets]

theorem Inv.join (h : Inv zero st) (j : Joined st st' k p nx) (hw : st.phase k = .wait) (hp : st.phase p = .meet k nx) : Inv zero st' := by
  obtain ⟨hchan, htag, halts, habort, hlog, hgiven, hparties⟩ := j.rest
  have hkp : k ≠ p := by
    rintro rfl
    exact nomatch hw.symm.trans hp
  have hkeeps : ∀ c q l, some (q, l) ∈ (st.chan c).qentry → Keeps zero st st' q := by
    intro c q l hql
    have hwq := ((h.chan c).entry q l hql).waits
    rcases eq_or_ne q k with rfl | hqk
    · exact ⟨.inr ⟨_, j.phase_waiter hkp⟩, by rw [halts], by rw [htag]; exact id⟩
    · have hqp : q ≠ p := by
        rintro rfl
        rcases hwq with hwq | ⟨r, hwq⟩ <;> exact nomatch hp.symm.trans hwq
      exact (j.untouched hw hp hqk hqp).keeps hwq
  refine ⟨fun c => ?_, fun x => ?_, habort.trans h.aborted⟩
  · exact (h.chan c).frame ⟨_, by rw [hchan]⟩ (fun op => by rw [hlog]) (hkeeps c)
  · rcases eq_or_ne x k with rfl | hxk
    · exact j.good_waiter h hw hp
    · rcases eq_or_ne x p with rfl | hxp
      · exact j.good_party h hw hp
      · exact (h.call x).frame (j.untouched hw hp hxk hxp)

theorem Inv.meeting {k₁ k₂ : K} (h : Inv zero st) (hs : meeting st k₁ k₂ = some st') : Inv zero st' := by
  unfold Thread.meeting at hs
  simp only at hs
  split at hs
  · rename_i hm
    obtain ⟨hne, hsome, heq⟩ := hm
    cases hs
    cases hp₁ : st.phase k₁ with
    | wait =>
      cases hp₂ : st.phase k₂ with
      | wait =>
        rw [hp₁, hp₂] at heq
        exact absurd (Option.some.inj heq) hne
      | meet b nx =>
        rw [hp₁, hp₂] at heq
        obtain rfl : k₁ = b := Option.some.inj heq
        refine h.join ⟨rfl, ?_, rfl, rfl, rfl, rfl, rfl, rfl, rfl⟩ hp₁ hp₂
        simp only [Phase.wakers, List.append_nil]
        rw [Function.update_eq_iff]
        simp [hne.symm]
      | _ =>
        rw [hp₁, hp₂] at heq
        exact nomatch heq
    | meet b nx =>
      cases hp₂ : st.phase k₂ with
      | wait =>
        rw [hp₁, hp₂] at heq
        obtain rfl : b = k₂ := Option.some.inj heq
        refine h.join ⟨Function.update_comm hne _ _ _, ?_, rfl, rfl, rfl, rfl, rfl, rfl, rfl⟩ hp₂ hp₁
        simp only [Phase.wakers, List.append_nil, Function.update_eq_self]
      | meet b' nx' =>
        -- the two would both have committed to the same call
        rw [hp₁, hp₂] at heq
        obtain rfl : b = b' := Option.some.inj heq
        exact absurd (h.meet_unique hp₁ hp₂) hne
      | _ =>
        rw [hp₁, hp₂] at heq
        exact nomatch heq
    | _ =>
      rw [hp₁] at hsome
      exact nomatch hsome
  · exact nomatch hs

theorem Inv.interrupt (h : Inv zero st) (hs : interrupt st k = some st') : Inv zero st' := by
  unfold Thread.interrupt at hs
  split at hs
  · rename_i hk
    cases hs
    exact h.rewait (.inl hk) (.inr rfl)
  · cases hs
    exact h
  · cases hs

end Meeting

end Petele.Thread
