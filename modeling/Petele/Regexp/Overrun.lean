import Petele.Regexp.Bounds
import Petele.Regexp.Runs

/-! When a matcher stores a thread or a terminator behind the array of a list. -/

namespace Petele.Regexp

namespace Machine

variable {m : Machine} {st st' : State}

/-- With the first instruction the list has come to its end, which nothing looks at, and the threads add two more. -/
def Crowded (m : Machine) (st : State) : Prop :=
  ∃ p tl mp, m.jump st = some p ∧ m.addstart { st with s := p } = .ok tl ∧ tl.length + 2 = m.size ∧
    m.threads p (m.text.rune p).1 (m.size + 2) ⟨tl, [], st.found, st.mp⟩ = .error (.tlfull mp)

theorem addstart_ok (h : st.tl.length + 3 ≤ m.size) :
    ∃ tl, m.addstart st = .ok tl ∧ (tl.length = st.tl.length ∨ tl.length = st.tl.length + 1) := by
  rw [addstart]
  split
  · rcases renewemptythread_cases m.ms m.progp.startinst st.s st.tl with ⟨-, l', hl, hinsts⟩ | ⟨-, l', hl, hinsts⟩
    · have hlen := congrArg List.length hinsts
      rw [List.length_map, List.length_map] at hlen
      rw [hl]
      simp only
      rw [if_neg (by omega)]
      exact ⟨l', rfl, .inl hlen⟩
    · have hlen := congrArg List.length hinsts
      rw [List.length_append, List.length_map, List.length_map, List.length_singleton] at hlen
      rw [hl]
      simp only
      rw [if_neg (by omega)]
      exact ⟨l', rfl, .inr hlen⟩
  · exact ⟨st.tl, rfl, .inl rfl⟩

theorem step_of_error {p : ℕ} {e : Stop} (hp : m.jump st = some p) (he : m.execute { st with s := p } = .error e) :
    m.step st = .inl .overrun ↔ e = .overrun := by
  rw [step, hp]
  simp only [turn, he]
  cases e <;> simp

theorem step_of_ok {p : ℕ} {c : Lists} (hp : m.jump st = some p) (hc : m.execute { st with s := p } = .ok c) :
    m.step st = m.advance p c := by
  rw [step, hp]
  simp only [turn, hc]

theorem advance_ne_overrun (p : ℕ) (c : Lists) : m.advance p c ≠ .inl .overrun := by
  rw [advance]
  simp only
  split
  · rintro ⟨⟩
  · rintro ⟨⟩

theorem advance_tl {p : ℕ} {c : Lists} (h : m.advance p c = .inr st) : st.tl = c.nl := by
  rw [advance] at h
  simp only at h
  split at h
  · cases h
  · cases h
    rfl

/-- A turn from a list that is not at its end. -/
theorem step_room (h : st.tl.length + 3 ≤ m.size) :
    (m.step st = .inl .overrun ↔ m.Crowded st) ∧ ∀ st', m.step st = .inr st' → st'.tl.length + 3 ≤ m.size := by
  cases hp : m.jump st with
  | none =>
    have hs : m.step st = .inl (.ret (if st.found then 1 else 0) st.mp) := by rw [step, hp]
    rw [hs]
    refine ⟨iff_of_false (by simp) ?_, (by simp)⟩
    rintro ⟨p, tl, mp, hq, -⟩
    cases hp.symm.trans hq
  | some p =>
    obtain ⟨tl, htl, hlen⟩ : ∃ tl, m.addstart { st with s := p } = .ok tl ∧ (tl.length = st.tl.length ∨ tl.length = st.tl.length + 1) :=
      addstart_ok h
    have hexec : m.execute { st with s := p } = m.threads p (m.text.rune p).1 m.size ⟨tl, [], st.found, st.mp⟩ := by
      rw [execute, htl]
    have hcrowded : m.Crowded st ↔ tl.length + 2 = m.size ∧
        ∃ mp, m.threads p (m.text.rune p).1 (m.size + 2) ⟨tl, [], st.found, st.mp⟩ = .error (.tlfull mp) := by
      constructor
      · rintro ⟨q, tl', mp, hq, htl', hsize, hfull⟩
        obtain rfl := Option.some.inj (hp.symm.trans hq)
        obtain rfl := Except.ok.inj (htl.symm.trans htl')
        exact ⟨hsize, mp, hfull⟩
      · rintro ⟨hsize, mp, hfull⟩
        exact ⟨p, tl, mp, hp, htl, hsize, hfull⟩
    have hpost : (m.execute { st with s := p } = .error .overrun ↔ m.Crowded st) ∧
        Post (fun c => c.nl.length + 3 ≤ m.size) (fun _ => True) (m.execute { st with s := p }) := by
      rw [hexec, hcrowded]
      have hinsts : (⟨tl, [], st.found, st.mp⟩ : Lists).insts.length = tl.length := Lists.insts_length _
      rcases Nat.lt_or_ge (tl.length + 2) m.size with hroom | hfull
      · have hfits : Post (fun c => c.nl.length + 3 ≤ m.size) (· ≠ .overrun)
            (m.threads p (m.text.rune p).1 m.size ⟨tl, [], st.found, st.mp⟩) :=
          threads_fits ⟨by omega, by simp only [List.length_nil]; omega⟩
        refine ⟨iff_of_false (fun he => ?_) fun hc => by omega, hfits.mono (fun _ hc => hc) fun _ _ => True.intro⟩
        rw [he] at hfits
        exact hfits rfl
      · have htwin : Twin (fun c => c.nl.length + 3 ≤ m.size) (m.threads p (m.text.rune p).1 m.size ⟨tl, [], st.found, st.mp⟩)
            (m.threads p (m.text.rune p).1 (m.size + 2) ⟨tl, [], st.found, st.mp⟩) :=
          threads_twin ⟨.inl (by omega), by simp only [List.length_nil]; omega⟩
        exact ⟨htwin.iff.trans (iff_and_self.mpr fun _ => by omega), htwin.post⟩
    cases hx : m.execute { st with s := p } with
    | error e =>
      rw [hx] at hpost
      rw [step_of_error hp hx, ← hpost.1]
      refine ⟨Except.error.injEq e .overrun ▸ Iff.rfl, fun st' hs => ?_⟩
      obtain ⟨q, c, hq, hc, -⟩ := step_eq_inr hs
      obtain rfl := Option.some.inj (hp.symm.trans hq)
      cases hx.symm.trans hc
    | ok c =>
      rw [hx] at hpost
      rw [step_of_ok hp hx, ← hpost.1]
      refine ⟨iff_of_false (advance_ne_overrun p c) (by simp), fun st' hs => ?_⟩
      rw [advance_tl hs]
      exact hpost.2

theorem Reaches.room (hr : m.Reaches st st') (h : st.tl.length + 3 ≤ m.size) : st'.tl.length + 3 ≤ m.size := by
  induction hr with
  | refl => exact h
  | tail _ hs ih => exact (step_room ih).2 _ hs

/-- A run comes to no list that is crowded. -/
def Spacious (m : Machine) (mp : Option (List Resub)) : Prop := ∀ st, m.Reaches (m.init mp) st → ¬ m.Crowded st

theorem run_ne_overrun (h : m.Ok) (hsize : 3 ≤ m.size) (mp : Option (List Resub)) : m.run mp ≠ .overrun ↔ m.Spacious mp := by
  rw [Ne, run_eq_iff h, Spacious]
  push Not
  exact forall_congr' fun st => forall_congr' fun hr => not_congr (step_room (hr.room hsize)).1

theorem search_ne_overrun (h : m.Ok) (hsize : 3 ≤ m.size) {big : ℕ} (hbig : 3 ≤ big) (malloc : Bool) (mp : Option (List Resub)) :
    m.search big malloc mp ≠ .overrun ↔ m.Spacious mp ∧
      ∀ mp', m.run mp = .ret (-1) mp' → malloc = true → ({ m with size := big } : Machine).Spacious mp' := by
  rw [← run_ne_overrun h hsize, search]
  split
  · rename_i mp' hrun
    rw [hrun]
    refine (and_iff_right nofun).symm.trans (and_congr_right fun _ => ?_)
    cases malloc with
    | false => exact iff_of_true nofun fun _ _ => nofun
    | true =>
      rw [if_pos rfl, run_ne_overrun (h.resize big) hbig]
      constructor
      · intro hs mp'' he _
        cases he
        exact hs
      · intro hs
        exact hs mp' rfl rfl
  · rename_i hother
    exact (and_iff_left fun mp' he => absurd he (hother mp')).symm

end Machine

section Matchers

open Machine

variable (progp : Reprog) (ms : ℕ) (mp : Option (List Resub))

/-- The matchers store nothing behind their lists just where these are never crowded. -/
theorem lists_bounded :
    (∀ (t : Chars) (malloc : Bool), Within ms mp t.text → (regexec progp ms mp t malloc ≠ .overrun ↔
      (regexec1 progp ms mp t).Spacious mp ∧ ∀ mp', (regexec1 progp ms mp t).run mp = .ret (-1) mp' → malloc = true →
        ({ regexec1 progp ms mp t with size := BIGLISTSIZE } : Machine).Spacious mp')) ∧
    ∀ t : Runes, Within ms mp t.text → (rregexec progp ms mp t ≠ .overrun ↔
      (rregexec1 progp ms mp t).Spacious mp ∧ ∀ mp', (rregexec1 progp ms mp t).run mp = .ret (-1) mp' →
        ({ rregexec1 progp ms mp t with size := 5 * LISTSIZE } : Machine).Spacious mp') := by
  constructor
  · intro t malloc h
    exact search_ne_overrun (regexec1_ok progp ms mp t h) (show 3 ≤ LISTSIZE by decide) (by decide) malloc mp
  · intro t h
    refine (search_ne_overrun (rregexec1_ok progp ms mp t h) (show 3 ≤ LISTSIZE by decide) (by decide) true mp).trans (and_congr_right fun _ => ?_)
    exact forall_congr' fun mp' => forall_congr' fun _ => forall_prop_of_true rfl

/-- `"yxx"` -/
def yxx : Chars := ⟨1, [121, 120, 120], Nat.one_pos, by decide⟩

theorem yxx_within : Within 0 none yxx.text := ⟨le_rfl, by decide⟩

theorem lists_bounded_yxx : regexec ⟨0, [⟨.END, none⟩]⟩ 0 none yxx true ≠ .overrun ∧
    (regexec1 ⟨0, [⟨.END, none⟩]⟩ 0 none yxx).Spacious none := by
  have hrun : regexec ⟨0, [⟨.END, none⟩]⟩ 0 none yxx true ≠ .overrun := by decide
  exact ⟨hrun, (((lists_bounded ⟨0, [⟨.END, none⟩]⟩ 0 none).1 yxx true yxx_within).mp hrun).1⟩

/-- `"....|x..|x.."` at `"yxx"` -/
theorem lists_overrun : ¬ ∀ (s : List UInt8) (progp : Reprog), regcomp s = .ok progp → ∀ (ms : ℕ) (mp : Option (List Resub)) (t : Chars)
    (malloc : Bool), Within ms mp t.text → regexec progp ms mp t malloc ≠ .overrun := by
  intro h
  refine h [46, 46, 46, 46, 124, 120, 46, 46, 124, 120, 46, 46] _ rfl 0 none yxx true yxx_within ?_
  decide

end Matchers

end Petele.Regexp
