import Petele.Regexp.Range

/-! What a matcher misses when it looks for the first character of a match. -/

namespace Petele.Regexp

namespace Machine

variable {m : Machine} {st st' : State} {check : Bool} {s p r left : ℕ} {found cs : Bool} {mp : Option (List Resub)}

section Finish

/-- The rest of a run. -/
def finish (m : Machine) (st : State) : Out := m.loop (m.text.stop + 1 - st.s) st

/-- What is left after a turn. -/
def rest (m : Machine) : Out ⊕ State → Out
  | .inl out => out
  | .inr st => m.finish st

theorem finish_eq (h : m.Ok) (hi : m.Inside st.s) : m.finish st = m.rest (m.step st) := by
  have hle := hi.stop
  rw [finish, show m.text.stop + 1 - st.s = m.text.stop - st.s + 1 by omega, loop]
  cases hs : m.step st with
  | inl out => rfl
  | inr st' =>
    obtain ⟨hlt, hi'⟩ := step_inside h hi hs
    have hle' := hi'.stop
    exact (loop_eq_iff h _ hi' (by omega)).mpr ((loop_eq_iff h _ hi' (by omega)).mp rfl)

theorem run_eq_finish (m : Machine) (mp : Option (List Resub)) : m.run mp = m.finish (m.init mp) := rfl

end Finish

section Plain

/-- `j.starttype` is 0. -/
def plain (m : Machine) (check : Bool) : Machine := { m with starttype := .none, check := check }

theorem Ok.plain (h : m.Ok) : (m.plain check).Ok := ⟨h.text, h.low, h.bol, h.stop⟩

theorem Inside.plain (hi : m.Inside s) : (m.plain check).Inside s := ⟨hi.bol, hi.stop⟩

attribute [local simp] threads chain advance turn execute step

theorem chain_plain (fuel i : ℕ) (c : Lists) : (m.plain check).chain s r left fuel i c = m.chain s r left fuel i c := by
  induction fuel generalizing i c with
  | zero => rfl
  | succ fuel ih =>
    rw [chain, chain, show (m.plain check).progp = m.progp from rfl]
    split
    · rfl
    · rename_i inst _
      rw [show (m.plain check).visit s r left inst c = m.visit s r left inst c from rfl]
      split
      · rfl
      · rfl
      · split
        · rfl
        · exact ih _ _

theorem threads_plain (c : Lists) : (m.plain check).threads s r left c = m.threads s r left c := by
  induction left generalizing c with
  | zero => rfl
  | succ left ih =>
    rw [threads, threads]
    split
    · rfl
    · rename_i t rest _
      rw [chain_plain, show (m.plain check).progp = m.progp from rfl]
      split
      · rfl
      · exact ih _

theorem execute_plain (st : State) : (m.plain check).execute st = m.execute st := by
  rw [execute, execute, show (m.plain check).addstart st = m.addstart st from rfl]
  split
  · rfl
  · exact threads_plain _

theorem step_plain (st : State) : (m.plain check).step st = (m.plain check).turn st := by
  rw [step, show (m.plain check).jump st = some st.s by rw [jump]; split <;> rfl]

/-- The same state but for `checkstart`. -/
theorem finish_checkstart (h : m.Ok) (hi : m.Inside st.s) :
    (m.plain check).finish { st with checkstart := cs } = (m.plain check).finish st := by
  have hs : (m.plain check).step { st with checkstart := cs } = (m.plain check).step st := by
    rw [step_plain, step_plain]
    rfl
  have hcs : (m.plain check).Inside { st with checkstart := cs }.s := hi.plain
  rw [finish_eq h.plain hcs, hs, ← finish_eq h.plain hi.plain]

end Plain

section Still

/-- The first instruction is what the check looks for. -/
def Headed (m : Machine) : Prop :=
  ∃ next, (m.starttype = .RUNE → m.progp.firstinst[m.progp.startinst]? = some ⟨.RUNE m.startchar, next⟩) ∧
    (m.starttype = .BOL → m.progp.firstinst[m.progp.startinst]? = some ⟨.BOL, next⟩)

/-- No match starts at a place. -/
def Quiet (m : Machine) (s : ℕ) : Prop :=
  match m.starttype with
  | .none => False
  | .RUNE => (m.text.rune s).1 ≠ m.startchar
  | .BOL => s ≠ m.text.bol ∧ m.text.nlbefore s = false

/-- With no threads there are none after the character, either. -/
def Still (m : Machine) (s : ℕ) (found : Bool) : Prop := m.always = false ∧ found = true ∨ m.Quiet s

/-- The first thread by itself, which is done after one instruction. -/
theorem execute_start (hadd : m.always = true ∨ found = false) (hsize : 2 ≤ m.size) {inst : Reinst}
    (hinst : m.progp.firstinst[m.progp.startinst]? = some inst) {c : Lists} (hc : c.cur.tail = [])
    (hv : m.visit s (m.text.rune s).1 m.size inst ⟨[⟨m.progp.startinst, restart m.ms zeros s⟩], [], found, mp⟩ = .ok (false, c)) :
    m.execute ⟨s, found, [], mp, cs⟩ = .ok { c with cur := [] } := by
  obtain ⟨n, hn⟩ : ∃ n, m.size = n + 1 + 1 := ⟨m.size - 2, by omega⟩
  have hadds : m.addstart ⟨s, found, [], mp, cs⟩ = .ok [⟨m.progp.startinst, restart m.ms zeros s⟩] := by
    rw [addstart, if_pos hadd]
    exact if_neg (Nat.not_le.mpr hsize)
  have hlen : m.progp.firstinst.length = m.progp.firstinst.length - 1 + 1 := by
    have hlt := (List.getElem?_eq_some_iff.mp hinst).1
    omega
  have hchain : m.chain s (m.text.rune s).1 (n + 1 + 1) m.progp.firstinst.length m.progp.startinst
      ⟨[⟨m.progp.startinst, restart m.ms zeros s⟩], [], found, mp⟩ = .ok c := by
    rw [hlen, chain, hinst]
    simp only
    rw [← hn, hv]
  rw [execute, hadds]
  simp only
  rw [hn, threads]
  simp only
  rw [hchain]
  simp only
  rw [threads, hc]

theorem execute_still (hh : m.Headed) (hsize : 2 ≤ m.size) (hs : m.Still s found) :
    m.execute ⟨s, found, [], mp, cs⟩ = .ok ⟨[], [], found, mp⟩ := by
  by_cases hadd : m.always = true ∨ found = false
  · obtain ⟨next, hrune, hbol⟩ := hh
    have hq : m.Quiet s := by
      rcases hs with ⟨ha, hf⟩ | hq
      · rw [ha, hf] at hadd
        exact absurd hadd (by decide)
      · exact hq
    rw [Quiet] at hq
    split at hq
    · exact hq.elim
    · rename_i htype
      refine execute_start hadd hsize (hrune htype) (c := ⟨[⟨m.progp.startinst, restart m.ms zeros s⟩], [], found, mp⟩) rfl ?_
      have htakes : takes (m.text.rune s).1 (.RUNE m.startchar) = false := decide_eq_false (Ne.symm hq)
      simp only [visit]
      rw [htakes]
      rfl
    · rename_i htype
      refine execute_start hadd hsize (hbol htype) (c := ⟨[⟨m.progp.startinst, restart m.ms zeros s⟩], [], found, mp⟩) rfl ?_
      have hno : decide (s = m.text.bol ∨ m.text.nlbefore s = true) = false := by
        rw [decide_eq_false_iff_not, not_or, hq.2]
        exact ⟨hq.1, (by simp)⟩
      simp only [visit]
      rw [hno]
  · have hadds : m.addstart ⟨s, found, [], mp, cs⟩ = .ok [] := by
      rw [addstart, if_neg hadd]
    obtain ⟨n, hn⟩ : ∃ n, m.size = n + 1 := ⟨m.size - 1, by omega⟩
    rw [execute, hadds]
    simp only
    rw [hn, threads]

/-- The character is read, and nothing else happens. -/
theorem finish_still (h : m.Ok) (hh : m.Headed) (hsize : 2 ≤ m.size) (hi : m.Inside s) (hs : m.Still s found) :
    (m.plain check).finish ⟨s, found, [], mp, cs⟩ = if s = m.eol ∨ (m.text.rune s).1 = 0 then .ret (if found then 1 else 0) mp
      else (m.plain check).finish ⟨s + (m.text.rune s).2, found, [], mp, cs⟩ := by
  have hi' : (m.plain check).Inside (State.s ⟨s, found, [], mp, cs⟩) := hi.plain
  rw [finish_eq h.plain hi', step_plain, turn, execute_plain, execute_still hh hsize hs]
  simp only
  rw [advance]
  simp only [show (m.plain check).eol = m.eol from rfl, show (m.plain check).text = m.text from rfl]
  split
  · rfl
  · rename_i hgo
    rw [not_or] at hgo
    have hlt : s < m.text.stop := hi.stop.lt_of_ne fun he => hgo.2 (he ▸ h.text.zero)
    have hn := h.text.next ⟨hi.bol, hlt, rfl⟩
    have hin : m.Inside (State.s ⟨s + (m.text.rune s).2, found, [], mp, cs⟩) := ⟨hn.2.1, hn.2.2⟩
    exact finish_checkstart h hin

/-- Nothing happens on the way from one place to another. -/
theorem finish_walk (h : m.Ok) (hh : m.Headed) (hsize : 2 ≤ m.size) (hw : m.text.Walk s p) (hb : m.text.bol ≤ s)
    (hs : ∀ q, m.text.Walk s q → q < p → m.Still q found ∧ q ≠ m.eol) :
    (m.plain check).finish ⟨s, found, [], mp, cs⟩ = (m.plain check).finish ⟨p, found, [], mp, cs⟩ := by
  induction hw using Relation.ReflTransGen.head_induction_on with
  | refl => rfl
  | head hn hw ih =>
    rename_i a a'
    obtain ⟨hlt, hb', hle'⟩ := h.text.next hn
    obtain ⟨hstill, heol⟩ := hs a .refl (hlt.trans_le (h.text.walk_le hw))
    rw [finish_still h hh hsize ⟨hb, hn.2.1.le⟩ hstill, if_neg (not_or.mpr ⟨heol, h.text.char a hb hn.2.1⟩), ← hn.2.2]
    exact ih hb' fun q hq => hs q (.head hn hq)

/-- Nothing happens up to the end. -/
theorem finish_quiet (h : m.Ok) (hh : m.Headed) (hsize : 2 ≤ m.size) (hi : m.Inside s)
    (hs : ∀ q, m.text.Walk s q → m.Still q found) :
    (m.plain check).finish ⟨s, found, [], mp, cs⟩ = .ret (if found then 1 else 0) mp := by
  induction hn : m.text.stop - s using Nat.strong_induction_on generalizing s with
  | _ n ih =>
    rw [finish_still h hh hsize hi (hs s .refl)]
    split
    · rfl
    · rename_i hgo
      rw [not_or] at hgo
      have hlt : s < m.text.stop := hi.stop.lt_of_ne fun he => hgo.2 (he ▸ h.text.zero)
      have hnext : m.text.Next s (s + (m.text.rune s).2) := ⟨hi.bol, hlt, rfl⟩
      obtain ⟨hgt, hb', hle'⟩ := h.text.next hnext
      exact ih _ (by omega) ⟨hb', hle'⟩ (fun q hq => hs q (.head hnext hq)) rfl

/-- The last character of a range is looked at, but nothing follows. -/
theorem finish_last (h : m.Ok) (hh : m.Headed) (hsize : 4 ≤ m.size) (htype : m.starttype = .RUNE) (hi : m.Inside m.eol) :
    (m.plain check).finish ⟨m.eol, found, [], mp, cs⟩ = .ret (if found then 1 else 0) mp := by
  by_cases hs : m.Still m.eol found
  · rw [finish_still h hh (by omega) hi hs, if_pos (.inl rfl)]
  · rw [Still, not_or, Quiet, htype] at hs
    obtain ⟨hadd, hr⟩ := hs
    obtain ⟨next, hrune, -⟩ := hh
    have hadd' : m.always = true ∨ found = false := by
      cases ha : m.always <;> cases hf : found <;> simp_all
    obtain ⟨nl, hnl⟩ : ∃ nl, m.addnext next ⟨[⟨m.progp.startinst, restart m.ms zeros m.eol⟩], [], found, mp⟩ =
        .ok ⟨[⟨m.progp.startinst, restart m.ms zeros m.eol⟩], nl, found, mp⟩ := by
      have h₁ : ¬ m.size ≤ ([] : List Relist).length + 1 := by
        rw [List.length_nil]
        omega
      have h₂ : ¬ ([] : List Relist).length + 3 = m.size := by
        rw [List.length_nil]
        omega
      cases next with
      | none => exact ⟨[], by simp only [addnext, true_and]; rw [if_neg h₁, if_neg h₂]⟩
      | some ip => exact ⟨_, by simp only [addnext, renewthread, renew, true_and]; rw [if_neg h₁, if_neg h₂]⟩
    have hexec : m.execute ⟨m.eol, found, [], mp, cs⟩ = .ok ⟨[], nl, found, mp⟩ := by
      refine execute_start hadd' (by omega) (hrune htype) (c := ⟨[⟨m.progp.startinst, restart m.ms zeros m.eol⟩], nl, found, mp⟩) rfl ?_
      have htakes : takes (m.text.rune m.eol).1 (.RUNE m.startchar) = true := decide_eq_true (not_not.mp hr).symm
      simp only [visit]
      rw [htakes, if_pos rfl, hnl]
      rfl
    have hi' : (m.plain check).Inside (State.s ⟨m.eol, found, [], mp, cs⟩) := hi.plain
    rw [finish_eq h.plain hi', step_plain, turn, execute_plain, hexec]
    simp only
    rw [advance]
    simp only
    rw [if_pos (.inl rfl)]
    rfl

end Still

section Jumps

/-- The check goes by a place where a match may start, or by the end of the range. -/
def Skips (m : Machine) (st : State) : Prop :=
  st.checkstart = true ∧ (m.always = true ∨ st.found = false) ∧
    match m.starttype with
    | .none => False
    | .RUNE => ∃ p, m.text.find st.s m.startchar = some p ∧ st.s < m.eol ∧ m.eol < p
    | .BOL => st.s ≠ m.text.bol ∧
        (m.text.nlbefore st.s = true ∨ ∃ p, m.text.find st.s '\n'.toNat = some p ∧ st.s < m.eol ∧ m.eol ≤ p)

/-- Without the check the run comes to the place that it goes on at, or to no other match. -/
def Follows (m : Machine) (check : Bool) (st : State) : Option ℕ → Prop
  | some p => (m.plain check).finish st = (m.plain check).finish { st with s := p }
  | none => (m.plain check).finish st = .ret (if st.found then 1 else 0) st.mp

theorem follows_done (h : m.Ok) (hh : m.Headed) (hsize : 2 ≤ m.size) (hi : m.Inside s) (ha : m.always = false) (hf : found = true) {j : Option ℕ}
    (hj : ∀ p, j = some p → m.Inside p) : m.Follows check ⟨s, found, [], mp, cs⟩ j := by
  cases j with
  | none => exact finish_quiet h hh hsize hi fun q _ => .inl ⟨ha, hf⟩
  | some p =>
    exact (finish_quiet h hh hsize hi fun q _ => .inl ⟨ha, hf⟩).trans
      (finish_quiet h hh hsize (hj p rfl) fun q _ => .inl ⟨ha, hf⟩).symm

theorem follows_rune (h : m.Ok) (hh : m.Headed) (hsize : 4 ≤ m.size) (hi : m.Inside s) (htype : m.starttype = .RUNE)
    (hskip : ∀ p, m.text.find s m.startchar = some p → s < m.eol → p ≤ m.eol) :
    m.Follows check ⟨s, found, [], mp, cs⟩ ((m.text.find s m.startchar).bind fun p => if s = m.eol then none else some p) := by
  have hquiet : ∀ q, (m.text.rune q).1 ≠ m.startchar → m.Still q found := by
    intro q hq
    right
    rw [Quiet, htype]
    exact hq
  cases hf : m.text.find s m.startchar with
  | none => exact finish_quiet h hh (by omega) hi fun q hq => hquiet q (h.text.find_none h.low hi.bol hi.stop hf hq)
  | some p =>
    rw [Option.bind_some]
    split
    · rename_i heol
      rw [heol] at hi ⊢
      exact finish_last h hh hsize htype hi
    · rename_i heol
      obtain ⟨hw, hnone⟩ := h.text.find_walk h.low hi.bol hi.stop hf
      refine finish_walk h hh (by omega) hw hi.bol fun q hq hlt => ⟨hquiet q (hnone q hq hlt), ?_⟩
      rintro rfl
      have hle := h.text.walk_le hq
      have hge := hskip p hf (by omega)
      omega

/-- The place after one that is not a line's end is not a line's start. -/
theorem quiet_bol (h : m.Ok) (htype : m.starttype = .BOL) (hb : m.text.bol ≤ s) (hne : s ≠ m.text.bol) (hnl : m.text.nlbefore s = false)
    (hw : m.text.Walk s p) (hs : ∀ q, m.text.Walk s q → q < p → (m.text.rune q).1 ≠ '\n'.toNat) : m.Quiet p := by
  rw [Quiet, htype]
  rcases Relation.ReflTransGen.cases_tail hw with rfl | ⟨q, hq, hn⟩
  · exact ⟨hne, hnl⟩
  · have hle := h.text.walk_le hq
    have hlt := (h.text.next hn).1
    refine ⟨by omega, ?_⟩
    rw [← Bool.not_eq_true, hn.2.2, h.text.newline q hn.1 hn.2.1]
    exact hs q hq hlt

theorem follows_bol (h : m.Ok) (hh : m.Headed) (hsize : 2 ≤ m.size) (hi : m.Inside s) (htype : m.starttype = .BOL) (hne : s ≠ m.text.bol)
    (hnl : m.text.nlbefore s = false) (hskip : ∀ p, m.text.find s '\n'.toNat = some p → s < m.eol → p < m.eol) :
    m.Follows check ⟨s, found, [], mp, cs⟩ ((m.text.find s '\n'.toNat).bind fun p => if s = m.eol then none else some (p + 1)) := by
  have hlow : '\n'.toNat < Runeself := by decide
  cases hf : m.text.find s '\n'.toNat with
  | none =>
    exact finish_quiet h hh hsize hi fun q hq => .inr (quiet_bol h htype hi.bol hne hnl hq fun q' hq' _ =>
      h.text.find_none hlow hi.bol hi.stop hf hq')
  | some p =>
    rw [Option.bind_some]
    obtain ⟨hw, hnone⟩ := h.text.find_walk hlow hi.bol hi.stop hf
    split
    · rename_i heol
      refine (finish_still h hh hsize hi (.inr (quiet_bol h htype hi.bol hne hnl .refl fun q hq hlt => ?_))).trans (if_pos (.inl heol))
      exact absurd (h.text.walk_le hq) (by omega)
    · rename_i heol
      obtain ⟨hle, hstop, hr⟩ := h.text.find_range hlow hi.bol hi.stop hf
      have hb : m.text.bol ≤ p := hi.bol.trans hle
      have hlt : p < m.text.stop := by
        refine hstop.lt_of_ne fun he => ?_
        rw [he, h.text.zero] at hr
        exact absurd hr (by decide)
      have hnext : m.text.Next p (p + 1) := ⟨hb, hlt, by rw [h.text.ascii p hb hlt (by rw [hr]; exact hlow)]⟩
      refine finish_walk h hh hsize (hw.tail hnext) hi.bol fun q hq hlt' => ⟨.inr ?_, ?_⟩
      · exact quiet_bol h htype hi.bol hne hnl hq fun q' hq' hlt'' => hnone q' hq' (by omega)
      · rintro rfl
        have hle' := h.text.walk_le hq
        have hge := hskip p hf (by omega)
        omega

theorem follows_jump (h : m.Ok) (hh : m.Headed) (hsize : 4 ≤ m.size) (hi : m.Inside st.s) (hempty : st.checkstart = true → st.tl = [])
    (hskip : ¬ m.Skips st) : m.Follows check st (m.jump st) := by
  cases hcs : st.checkstart with
  | false =>
    rw [jump, hcs]
    rfl
  | true =>
    obtain ⟨s, found, tl, mp, cs⟩ := st
    obtain rfl : tl = [] := hempty hcs
    obtain rfl : cs = true := hcs
    by_cases hadd : m.always = true ∨ found = false
    · simp only [Skips, true_and, hadd] at hskip
      rw [jump, if_pos rfl]
      cases htype : m.starttype with
      | none => rfl
      | RUNE =>
        rw [htype] at hskip
        refine follows_rune h hh hsize hi htype fun p hp hlt => ?_
        by_contra hgt
        exact hskip ⟨p, hp, hlt, by omega⟩
      | BOL =>
        rw [htype] at hskip
        simp only at hskip ⊢
        by_cases hne : s = m.text.bol
        · rw [if_pos hne]
          rfl
        · rw [if_neg hne]
          rw [not_and, not_or, Bool.not_eq_true] at hskip
          obtain ⟨hnl, hno⟩ := hskip hne
          refine follows_bol h hh (by omega) hi htype hne hnl fun p hp hlt => ?_
          by_contra hge
          exact hno ⟨p, hp, hlt, by omega⟩
    · rw [not_or, Bool.not_eq_true, Bool.not_eq_false] at hadd
      exact follows_done h hh (by omega) hi hadd.1 hadd.2 fun p hp => (jump_inside h hi hp).2

/-- A turn leaves the same, but that only the check looks at `checkstart`. -/
theorem turn_same
    (hrest : ∀ st' cs', m.turn st = .inr st' → m.finish st' = (m.plain check).finish { st' with checkstart := cs' }) :
    m.rest (m.turn st) = (m.plain check).rest ((m.plain check).turn { st with checkstart := cs }) := by
  have hexec : (m.plain check).execute { st with checkstart := cs } = m.execute st := execute_plain _
  rw [turn, turn, hexec]
  cases hx : m.execute st with
  | error e => cases e <;> rfl
  | ok c =>
    have hturn : m.turn st = m.advance st.s c := by rw [turn, hx]
    rw [hturn] at hrest
    simp only
    rw [advance, advance] at *
    simp only [show (m.plain check).eol = m.eol from rfl, show (m.plain check).text = m.text from rfl] at *
    split
    · rfl
    · rename_i hgo
      exact hrest _ _ (if_neg hgo)

theorem turn_empty (ht : m.turn st = .inr st') : st'.checkstart = true → st'.tl = [] := by
  rw [turn] at ht
  split at ht
  · exact nomatch ht
  · exact nomatch ht
  · exact nomatch ht
  · exact nomatch ht
  · rw [advance] at ht
    simp only at ht
    split at ht
    · exact nomatch ht
    · cases ht
      intro hcs
      exact (of_decide_eq_true hcs).2

/-- Where it goes by nothing, the check changes nothing. -/
theorem finish_same (h : m.Ok) (hh : m.Headed) (hsize : 4 ≤ m.size) (hi : m.Inside st.s) (hempty : st.checkstart = true → st.tl = [])
    (hskip : ∀ st', m.Reaches st st' → ¬ m.Skips st') : m.finish st = (m.plain check).finish { st with checkstart := cs } := by
  induction hn : m.text.stop - st.s using Nat.strong_induction_on generalizing st cs with
  | _ n ih =>
    have hjump : m.Follows check st (m.jump st) := follows_jump h hh hsize hi hempty (hskip st .refl)
    rw [finish_checkstart h hi, finish_eq h hi, step]
    cases hp : m.jump st with
    | none =>
      rw [hp] at hjump
      exact hjump.symm
    | some p =>
      rw [hp] at hjump
      obtain ⟨hle, hip⟩ := jump_inside h hi hp
      have hip' : (m.plain check).Inside (State.s { st with s := p }) := hip.plain
      rw [hjump, finish_eq h.plain hip', step_plain]
      refine turn_same fun st' cs' ht => ?_
      have hs : m.step st = .inr st' := by
        rw [step, hp]
        exact ht
      obtain ⟨hlt, hi'⟩ := step_inside h hi hs
      have hle' := hi'.stop
      exact ih _ (by omega) hi' (turn_empty ht) (fun st'' hr => hskip st'' (.head hs hr)) rfl

theorem run_same (h : m.Ok) (hh : m.Headed) (hsize : 4 ≤ m.size) {mp : Option (List Resub)}
    (hskip : ∀ st, m.Reaches (m.init mp) st → ¬ m.Skips st) : m.run mp = (m.plain check).run mp :=
  finish_same h hh hsize (init_inside h mp) (fun _ => rfl) hskip

/-- In a run the check goes by nothing. -/
def Passes (m : Machine) (mp : Option (List Resub)) : Prop := ∀ st, m.Reaches (m.init mp) st → ¬ m.Skips st

theorem search_same (h : m.Ok) (hh : m.Headed) (hsize : 4 ≤ m.size) {big : ℕ} (hbig : 4 ≤ big) {malloc : Bool} (hfirst : m.Passes mp)
    (hsecond : malloc = true → ∀ mp', m.run mp = .ret (-1) mp' → ({ m with size := big } : Machine).Passes mp') :
    m.search big malloc mp = (m.plain check).search big malloc mp := by
  rw [search, search, ← run_same h hh hsize hfirst]
  split
  · rename_i mp' hrun
    split
    · rename_i hm
      exact run_same (h.resize big) hh hbig (hsecond hm mp' hrun)
    · rfl
  · rfl

theorem search_range (h : m.Ok) (htype : m.starttype = .none) (hw : m.text.Walk m.starts m.eol) {big : ℕ} {malloc : Bool} {l : List Resub}
    (hs : m.search big malloc mp = .ret 1 (some l)) : Before m.eol l := by
  rw [search] at hs
  split at hs
  · split at hs
    · exact run_range (m := { m with size := big }) (h.resize big) htype hw hs
    · exact absurd (Out.ret.inj hs).1 (by decide)
  · exact run_range h htype hw hs

end Jumps

end Machine

section Matchers

open Machine

variable (progp : Reprog) (ms : ℕ) (mp : Option (List Resub))

theorem shortcut_head : ∃ next,
    ((shortcut progp).1 = .RUNE → progp.firstinst[progp.startinst]? = some ⟨.RUNE (shortcut progp).2, next⟩) ∧
    ((shortcut progp).1 = .BOL → progp.firstinst[progp.startinst]? = some ⟨.BOL, next⟩) := by
  rw [shortcut]
  cases hi : progp.firstinst[progp.startinst]? with
  | none => exact ⟨none, (by intros; contradiction), (by intros; contradiction)⟩
  | some inst =>
    obtain ⟨type, next⟩ := inst
    refine ⟨next, ?_⟩
    rw [Option.map_some]
    split
    · rename_i r hr
      obtain rfl : type = .RUNE r := Option.some.inj hr
      split
      · exact ⟨fun _ => rfl, (by intros; contradiction)⟩
      · exact ⟨(by intros; contradiction), (by intros; contradiction)⟩
    · rename_i hb
      obtain rfl : type = .BOL := Option.some.inj hb
      exact ⟨(by intros; contradiction), fun _ => rfl⟩
    · exact ⟨(by intros; contradiction), (by intros; contradiction)⟩

/-- The start and the end that the user gives are at characters of the string, and the end is not before the start. -/
structure Given (t : Text) : Prop where
  starts : t.Walk t.bol (startof ms mp t.bol)
  eol : endof ms mp ≠ 0 → t.Walk t.bol (endof ms mp) ∧ startof ms mp t.bol ≤ endof ms mp

variable {ms mp}

theorem Given.within {t : Text} (h : t.Lawful) (hle : t.bol ≤ t.stop) (hg : Given ms mp t) : Within ms mp t :=
  ⟨h.walk_le hg.starts, h.walk_stop hle hg.starts⟩

theorem Given.range {t : Text} (h : t.Lawful) (hg : Given ms mp t) (heol : endof ms mp ≠ 0) :
    t.Walk (startof ms mp t.bol) (endof ms mp) :=
  h.walk_total hg.starts (hg.eol heol).1 (hg.eol heol).2

/-- Where it goes by nothing, the check for the first character changes nothing, and no match goes on behind the given end. -/
theorem starttype_same :
    (∀ (t : Chars) (malloc : Bool), Given ms mp t.text → (regexec1 progp ms mp t).Passes mp →
      (malloc = true → ∀ mp', (regexec1 progp ms mp t).run mp = .ret (-1) mp' →
        ({ regexec1 progp ms mp t with size := BIGLISTSIZE } : Machine).Passes mp') →
      regexec progp ms mp t malloc = ((regexec1 progp ms mp t).plain false).search BIGLISTSIZE malloc mp ∧
        (endof ms mp ≠ 0 → ∀ l, regexec progp ms mp t malloc = .ret 1 (some l) → Before (endof ms mp) l)) ∧
    ∀ t : Runes, Given ms mp t.text → (rregexec1 progp ms mp t).Passes mp →
      (∀ mp', (rregexec1 progp ms mp t).run mp = .ret (-1) mp' →
        ({ rregexec1 progp ms mp t with size := 5 * LISTSIZE } : Machine).Passes mp') →
      rregexec progp ms mp t = ((rregexec1 progp ms mp t).plain (rregexec1 progp ms mp t).check).search (5 * LISTSIZE) true mp ∧
        (endof ms mp ≠ 0 → ∀ l, rregexec progp ms mp t = .ret 1 (some l) → Before (endof ms mp) l) := by
  constructor
  · intro t malloc hg hfirst hsecond
    have hok : (regexec1 progp ms mp t).Ok := regexec1_ok progp ms mp t (hg.within t.lawful (Nat.le_add_right _ _))
    have hsame : regexec progp ms mp t malloc = ((regexec1 progp ms mp t).plain false).search BIGLISTSIZE malloc mp :=
      search_same hok (shortcut_head progp) (show 4 ≤ LISTSIZE by decide) (by decide) hfirst hsecond
    refine ⟨hsame, fun heol l hl => ?_⟩
    rw [hsame] at hl
    exact search_range (m := (regexec1 progp ms mp t).plain false) hok.plain rfl (hg.range t.lawful heol) hl
  · intro t hg hfirst hsecond
    have hok : (rregexec1 progp ms mp t).Ok := rregexec1_ok progp ms mp t (hg.within t.lawful (Nat.le_add_right _ _))
    have hsame : rregexec progp ms mp t =
        ((rregexec1 progp ms mp t).plain (rregexec1 progp ms mp t).check).search (5 * LISTSIZE) true mp :=
      search_same hok (shortcut_head progp) (show 4 ≤ LISTSIZE by decide) (by decide) hfirst fun _ => hsecond
    refine ⟨hsame, fun heol l hl => ?_⟩
    rw [hsame] at hl
    exact search_range (m := (rregexec1 progp ms mp t).plain _) hok.plain rfl (hg.range t.lawful heol) hl

section Ab

/-- `"b"` -/
def b : Reprog := ⟨0, [⟨.RUNE 98, some 1⟩, ⟨.END, none⟩]⟩

/-- `"ab"` -/
def ab : Chars := ⟨1, [97, 98], Nat.one_pos, by decide⟩

theorem ab_given : Given 1 (some [⟨1, 3⟩]) ab.text :=
  ⟨.refl, fun _ => ⟨.tail (.tail .refl ⟨by decide, by decide, rfl⟩) ⟨by decide, by decide, rfl⟩, by decide⟩⟩

theorem ab_passes (size : ℕ) (mp : Option (List Resub)) :
    ({ regexec1 b 1 (some [⟨1, 3⟩]) ab with size := size } : Machine).Passes mp := by
  intro st hr hskip
  have hok : (regexec1 b 1 (some [⟨1, 3⟩]) ab).Ok := regexec1_ok _ _ _ ab (ab_given.within ab.lawful (by decide))
  have hi := hr.inside (hok.resize size) (init_inside (hok.resize size) mp)
  obtain ⟨-, -, p, hf, -, hlt⟩ := hskip
  exact absurd (ab.lawful.find_range hok.low hi.bol hi.stop hf).2.1 (Nat.not_le.mpr hlt)

theorem starttype_same_ab : regexec b 1 (some [⟨1, 3⟩]) ab true = .ret 1 (some [⟨2, 3⟩]) ∧ Before 3 [⟨2, 3⟩] := by
  have hrun : regexec b 1 (some [⟨1, 3⟩]) ab true = .ret 1 (some [⟨2, 3⟩]) := by decide
  exact ⟨hrun, ((starttype_same b).1 ab true ab_given (ab_passes LISTSIZE _) fun _ mp' _ => ab_passes BIGLISTSIZE mp').2 (by decide) _ hrun⟩

/-- `"^b"` at a line after an empty one -/
theorem starttype_differs : ¬ ∀ (s : List UInt8) (progp : Reprog), regcomp s = .ok progp → ∀ (ms : ℕ) (mp : Option (List Resub)) (t : Chars)
    (malloc : Bool), Given ms mp t.text →
      regexec progp ms mp t malloc = ((regexec1 progp ms mp t).plain false).search BIGLISTSIZE malloc mp := by
  intro h
  have hsame := h [94, 98] _ rfl 0 none ⟨1, [10, 98], by decide, by decide⟩ true ⟨.refl, fun hne => absurd rfl hne⟩
  revert hsame
  decide

end Ab

end Matchers

end Petele.Regexp
