import Petele.Regexp.Bounds
import Petele.Regexp.Runs

/-! Where the matches lie that a matcher finds without a look at their first characters. -/

namespace Petele.Regexp

variable {s s' ip sp ms : ℕ} {se sep : List Resub}

section Matches

/-- The matches start and end at a place or before. -/
def Before (s : ℕ) (se : List Resub) : Prop := ∀ sub ∈ se, sub.sp ≤ s ∧ sub.ep ≤ s

theorem Before.mono (h : Before s se) (hle : s ≤ s') : Before s' se :=
  fun sub hsub => ⟨(h sub hsub).1.trans hle, (h sub hsub).2.trans hle⟩

theorem before_replicate (n : ℕ) : Before s (List.replicate n .nil) := by
  intro sub hsub
  rw [List.eq_of_mem_replicate hsub]
  exact ⟨Nat.zero_le s, Nat.zero_le s⟩

theorem Before.first (h : Before s se) : (first se).sp ≤ s ∧ (first se).ep ≤ s := by
  cases se with
  | nil => exact ⟨Nat.zero_le s, Nat.zero_le s⟩
  | cons sub se => exact h sub List.mem_cons_self

theorem Before.modify (h : Before s se) (i : ℕ) {f : Resub → Resub} (hf : ∀ sub, sub.sp ≤ s ∧ sub.ep ≤ s → (f sub).sp ≤ s ∧ (f sub).ep ≤ s) :
    Before s (se.modify i f) := by
  induction se generalizing i with
  | nil =>
    rw [List.modify_nil]
    exact h
  | cons sub se ih =>
    obtain ⟨hsub, hse⟩ := List.forall_mem_cons.mp h
    cases i with
    | zero => exact List.forall_mem_cons.mpr ⟨hf sub hsub, hse⟩
    | succ i => exact List.forall_mem_cons.mpr ⟨hsub, ih hse i⟩

theorem Before.copy (h : Before s se) (hsep : Before s sep) : Before s (copy ms se sep) := by
  rw [Regexp.copy]
  split
  · exact hsep
  · intro sub hsub
    rcases List.mem_or_eq_of_mem_set hsub with hsub | rfl
    · exact h sub hsub
    · exact hsep.first

theorem Before.restart (h : Before s se) (hle : sp ≤ s) : Before s (restart ms se sp) := by
  rw [Regexp.restart]
  refine Before.modify ?_ 0 fun sub hsub => ⟨hle, hsub.2⟩
  split
  · exact before_replicate NSUBEXP
  · exact h

theorem before_renewmatch {mp : Option (List Resub)} (h : ∀ l, mp = some l → Before s l) (hse : Before s se) :
    ∀ l, renewmatch mp ms se = some l → Before s l := by
  cases mp with
  | none => exact fun _ hl => nomatch hl
  | some l =>
    intro l' hl
    rw [renewmatch, Option.map_some] at hl
    obtain rfl := Option.some.inj hl
    split
    · intro sub hsub
      obtain ⟨i, -, rfl⟩ := List.mem_map.mp hsub
      split
      · rw [List.getD_eq_getElem?_getD]
        cases hi : se[i]? with
        | none => exact ⟨Nat.zero_le s, Nat.zero_le s⟩
        | some sub => exact hse sub (List.mem_of_getElem? hi)
      · exact ⟨Nat.zero_le s, Nat.zero_le s⟩
    · exact h l rfl

/-- The threads' matches do. -/
def AllBefore (s : ℕ) (l : List Relist) : Prop := ∀ t ∈ l, Before s t.se

theorem AllBefore.renew {l : List Relist} (h : AllBefore s l) {old : List Resub → List Resub} (hold : ∀ se, Before s se → Before s (old se))
    (hnew : Before s sep) : AllBefore s (renew ip old sep l).1 := by
  induction l with
  | nil =>
    intro t ht
    rw [List.mem_singleton.mp ht]
    exact hnew
  | cons p l ih =>
    obtain ⟨hp, hl⟩ := List.forall_mem_cons.mp h
    rw [Regexp.renew]
    split
    · exact List.forall_mem_cons.mpr ⟨hold p.se hp, hl⟩
    · exact List.forall_mem_cons.mpr ⟨hp, ih hl⟩

theorem AllBefore.renewthread {l : List Relist} (h : AllBefore s l) (hsep : Before s sep) : AllBefore s (renewthread ms ip sep l).1 := by
  refine h.renew (fun se hse => ?_) ((before_replicate NSUBEXP).copy hsep)
  split
  · exact hse.copy hsep
  · exact hse

theorem AllBefore.renewemptythread {l : List Relist} (h : AllBefore s l) (hle : sp ≤ s) : AllBefore s (renewemptythread ms ip sp l).1 := by
  refine h.renew (fun se hse => ?_) ((before_replicate NSUBEXP).restart hle)
  split
  · exact hse.restart hle
  · exact hse

end Matches

namespace Machine

variable {m : Machine} {r left right : ℕ} {c : Lists} {inst : Reinst} {st : State} {mp : Option (List Resub)}

section Threads

/-- All matches so far. -/
structure Past (s : ℕ) (c : Lists) : Prop where
  cur : AllBefore s c.cur
  nl : AllBefore s c.nl
  mp : ∀ l, c.mp = some l → Before s l

theorem Past.modify (h : Past s c) (i : ℕ) {f : Resub → Resub} (hf : ∀ sub, sub.sp ≤ s ∧ sub.ep ≤ s → (f sub).sp ≤ s ∧ (f sub).ep ≤ s) :
    Past s (c.modify i f) := by
  refine ⟨?_, h.nl, h.mp⟩
  have hcur := h.cur
  rw [Lists.modify]
  cases hc : c.cur with
  | nil => exact fun _ ht => absurd ht List.not_mem_nil
  | cons t rest =>
    rw [hc] at hcur
    obtain ⟨ht, hrest⟩ := List.forall_mem_cons.mp hcur
    exact List.forall_mem_cons.mpr ⟨ht.modify i hf, hrest⟩

theorem Past.accept (h : Past s c) : Past s (m.accept s c) := by
  have hmod : Past s (c.modify 0 fun sub => { sub with ep := s }) := h.modify 0 fun sub hsub => ⟨hsub.1, le_rfl⟩
  refine ⟨hmod.cur, hmod.nl, before_renewmatch hmod.mp ?_⟩
  cases hc : (c.modify 0 fun sub => { sub with ep := s }).cur with
  | nil => exact fun _ ht => absurd ht List.not_mem_nil
  | cons t rest => exact hmod.cur t (by rw [hc]; exact List.mem_cons_self)

theorem addnext_past (next : Option ℕ) (h : Past s c) : Post (Past s) (fun _ => True) (m.addnext next c) := by
  rw [addnext]
  split
  · rename_i t rest hc
    have ht : Before s t.se := h.cur t (by rw [hc]; exact List.mem_cons_self)
    split
    rename_i nl added hnl
    split
    · exact True.intro
    · split
      · exact True.intro
      · refine ⟨h.cur, ?_, h.mp⟩
        split at hnl
        · rename_i ip
          have hfst : (renewthread m.ms ip t.se c.nl).1 = nl := congrArg Prod.fst hnl
          exact hfst ▸ h.nl.renewthread ht
        · have hfst : c.nl = nl := congrArg Prod.fst hnl
          exact hfst ▸ h.nl
  · exact True.intro

theorem addright_past (h : Past s c) : Post (Past s) (fun _ => True) (m.addright left right c) := by
  rw [addright]
  split
  · rename_i t rest hc
    have ht : Before s t.se := h.cur t (by rw [hc]; exact List.mem_cons_self)
    split
    rename_i cur added hcur
    split
    · exact True.intro
    · split
      · exact True.intro
      · refine ⟨?_, h.nl, h.mp⟩
        have hfst : (renewthread m.ms right t.se c.cur).1 = cur := congrArg Prod.fst hcur
        exact hfst ▸ h.cur.renewthread ht
  · exact True.intro

theorem visit_past (h : Past s c) : Post (fun bc => Past s bc.2) (fun _ => True) (m.visit s r left inst c) := by
  rw [visit]
  split
  · exact h.modify _ fun sub hsub => ⟨le_rfl, hsub.2⟩
  · exact h.modify _ fun sub hsub => ⟨hsub.1, le_rfl⟩
  · exact h
  · exact h
  · apply Post.map
    exact addright_past h
  · exact h.accept
  · split
    · apply Post.map
      exact addnext_past inst.next h
    · exact h

theorem threads_past (h : Past s c) : Post (Past s) (fun _ => True) (m.threads s r left c) := by
  refine threads_post (P := fun _ => Past s) (fun _ _ _ => True.intro) (fun _ _ h _ => h) (fun left c t h _ => ?_) left c h
  refine (chain_post (P := fun _ _ => Past s) (Q := Past s) (E := fun _ => True) (fun _ _ _ => True.intro) (fun _ _ _ _ _ => True.intro) (fun fuel i c inst h _ => ?_)
    _ _ _ h).mono (fun c' hc' => ?_) fun _ _ => True.intro
  · refine (visit_past h).mono (fun bc hbc => ?_) fun _ _ => True.intro
    split
    · exact ⟨fun _ => True.intro, fun _ _ => hbc⟩
    · exact hbc
  · exact ⟨fun t ht => hc'.cur t (List.mem_of_mem_tail ht), hc'.nl, hc'.mp⟩

theorem execute_past (htl : AllBefore st.s st.tl) (hmp : ∀ l, st.mp = some l → Before st.s l) :
    Post (Past st.s) (fun _ => True) (m.execute st) := by
  have hadd : Post (AllBefore st.s) (fun _ => True) (m.addstart st) := by
    rw [addstart]
    split
    · split
      rename_i tl added hl
      split
      · exact True.intro
      · have hfst : (renewemptythread m.ms m.progp.startinst st.s st.tl).1 = tl := congrArg Prod.fst hl
        exact hfst ▸ htl.renewemptythread le_rfl
    · exact htl
  rw [execute]
  split
  · exact True.intro
  · rename_i tl he
    rw [he] at hadd
    exact threads_past ⟨hadd, fun _ ht => absurd ht List.not_mem_nil, hmp⟩

end Threads

section Range

/-- The end of the range is ahead, and all matches are behind. -/
structure Ahead (m : Machine) (st : State) : Prop where
  walk : m.text.Walk st.s m.eol
  tl : AllBefore st.s st.tl
  mp : ∀ l, st.mp = some l → Before st.s l

theorem step_ahead (h : m.Ok) (htype : m.starttype = .none) (ha : m.Ahead st) :
    (∀ st', m.step st = .inr st' → m.Ahead st') ∧ ∀ l, m.step st = .inl (.ret 1 (some l)) → Before m.eol l := by
  have hjump : m.jump st = some st.s := by
    rw [jump, htype]
    split <;> rfl
  have hpost := execute_past (m := m) ha.tl ha.mp
  rw [step, hjump]
  simp only [turn]
  cases hx : m.execute st with
  | error e =>
    cases e with
    | nlfull mp => exact ⟨by rintro _ ⟨⟩, fun l he => absurd (Out.ret.inj (Sum.inl.inj he)).1 (by decide)⟩
    | tlfull mp => exact ⟨by rintro _ ⟨⟩, fun l he => absurd (Out.ret.inj (Sum.inl.inj he)).1 (by decide)⟩
    | overrun => exact ⟨by rintro _ ⟨⟩, by rintro _ ⟨⟩⟩
    | wild => exact ⟨by rintro _ ⟨⟩, by rintro _ ⟨⟩⟩
  | ok c =>
    rw [hx] at hpost
    have hc : Past st.s c := hpost
    simp only
    rw [advance]
    simp only
    split
    · refine ⟨(by intros; contradiction), fun l he => ?_⟩
      have hmp : c.mp = some l := (Out.ret.inj (Sum.inl.inj he)).2
      exact (hc.mp l hmp).mono (h.text.walk_le ha.walk)
    · rename_i hgo
      rw [not_or] at hgo
      refine ⟨fun st' he => ?_, (by intros; contradiction)⟩
      obtain rfl := Sum.inr.inj he
      rcases Relation.ReflTransGen.cases_head ha.walk with heol | ⟨s', hn, hw⟩
      · exact absurd heol hgo.1
      · have hlt := (h.text.next hn).1.le
        obtain rfl := hn.2.2
        exact ⟨hw, fun t ht => (hc.nl t ht).mono hlt, fun l hl => (hc.mp l hl).mono hlt⟩

/-- No match lies behind the end of the range. -/
theorem run_range (h : m.Ok) (htype : m.starttype = .none) (hw : m.text.Walk m.starts m.eol) {l : List Resub}
    (hrun : m.run mp = .ret 1 (some l)) : Before m.eol l := by
  obtain ⟨st, hr, hs⟩ := (run_eq_iff h mp).mp hrun
  have ha : m.Ahead st := by
    clear hs
    induction hr with
    | refl =>
      refine ⟨hw, fun _ ht => absurd ht List.not_mem_nil, fun l hl => ?_⟩
      obtain ⟨_, -, rfl⟩ := Option.map_eq_some_iff.mp hl
      exact before_replicate m.ms
    | tail _ hs' ih => exact (step_ahead h htype ih).1 _ hs'
  exact (step_ahead h htype ha).2 l hs

end Range

end Machine

end Petele.Regexp
