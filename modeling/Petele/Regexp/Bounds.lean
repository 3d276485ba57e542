import Petele.Regexp.Texts
import Mathlib.Logic.Relation

/-! Whether the lists of threads stay in their arrays. -/

namespace Petele.Regexp

section Lists

variable {ip : ℕ} {old : List Resub → List Resub} {new : List Resub} {l : List Relist}

theorem renew_old (h : ip ∈ l.map Relist.inst) :
    (renew ip old new l).1.map Relist.inst = l.map Relist.inst ∧ (renew ip old new l).2 = false := by
  induction l with
  | nil => exact absurd h List.not_mem_nil
  | cons p l ih =>
    rw [renew]
    by_cases hp : p.inst = ip
    · rw [if_pos hp]
      exact ⟨rfl, rfl⟩
    · rw [if_neg hp]
      rw [List.map_cons, List.mem_cons, or_iff_right (Ne.symm hp)] at h
      simp only [List.map_cons]
      rw [(ih h).1]
      exact ⟨rfl, (ih h).2⟩

theorem renew_new (h : ip ∉ l.map Relist.inst) :
    (renew ip old new l).1.map Relist.inst = l.map Relist.inst ++ [ip] ∧ (renew ip old new l).2 = true := by
  induction l with
  | nil => exact ⟨rfl, rfl⟩
  | cons p l ih =>
    rw [List.map_cons, List.mem_cons, not_or] at h
    rw [renew, if_neg (Ne.symm h.1)]
    simp only [List.map_cons]
    rw [(ih h.2).1]
    exact ⟨rfl, (ih h.2).2⟩

theorem renewthread_cases (ms ip : ℕ) (sep : List Resub) (l : List Relist) :
    (ip ∈ l.map Relist.inst ∧ ∃ l', renewthread ms ip sep l = (l', false) ∧ l'.map Relist.inst = l.map Relist.inst) ∨
      ip ∉ l.map Relist.inst ∧ ∃ l', renewthread ms ip sep l = (l', true) ∧ l'.map Relist.inst = l.map Relist.inst ++ [ip] := by
  by_cases h : ip ∈ l.map Relist.inst
  · exact .inl ⟨h, _, Prod.ext rfl (renew_old h).2, (renew_old h).1⟩
  · exact .inr ⟨h, _, Prod.ext rfl (renew_new h).2, (renew_new h).1⟩

theorem renewemptythread_cases (ms ip sp : ℕ) (l : List Relist) :
    (ip ∈ l.map Relist.inst ∧ ∃ l', renewemptythread ms ip sp l = (l', false) ∧ l'.map Relist.inst = l.map Relist.inst) ∨
      ip ∉ l.map Relist.inst ∧ ∃ l', renewemptythread ms ip sp l = (l', true) ∧ l'.map Relist.inst = l.map Relist.inst ++ [ip] := by
  by_cases h : ip ∈ l.map Relist.inst
  · exact .inl ⟨h, _, Prod.ext rfl (renew_old h).2, (renew_old h).1⟩
  · exact .inr ⟨h, _, Prod.ext rfl (renew_new h).2, (renew_new h).1⟩

end Lists

section Posts

/-- What holds of a result, or of why there is none. -/
def Post {α : Type} (P : α → Prop) (E : Stop → Prop) : Except Stop α → Prop
  | .ok a => P a
  | .error e => E e

theorem Post.mono {α : Type} {P Q : α → Prop} {E F : Stop → Prop} {x : Except Stop α} (h : Post P E x) (hP : ∀ a, P a → Q a)
    (hE : ∀ e, E e → F e) : Post Q F x := by
  cases x with
  | ok a => exact hP a h
  | error e => exact hE e h

theorem Post.map {α β : Type} {P : β → Prop} {E : Stop → Prop} {f : α → β} {x : Except Stop α} (h : Post (fun a => P (f a)) E x) :
    Post P E (x.map f) := by
  cases x with
  | ok a => exact h
  | error e => exact h

end Posts

def Lists.insts (c : Lists) : List ℕ := c.cur.map Relist.inst

theorem Lists.insts_ne_nil {c : Lists} : c.insts ≠ [] ↔ c.cur ≠ [] := not_congr List.map_eq_nil_iff

theorem Lists.insts_length (c : Lists) : c.insts.length = c.cur.length := List.length_map _

@[simp] theorem Lists.modify_insts (c : Lists) (i : ℕ) (f : Resub → Resub) : (c.modify i f).insts = c.insts := by
  cases hc : c.cur <;> simp [Lists.modify, Lists.insts, hc]

@[simp] theorem Lists.modify_nl (c : Lists) (i : ℕ) (f : Resub → Resub) : (c.modify i f).nl = c.nl := rfl

namespace Machine

variable {m : Machine} {s r left right : ℕ} {c : Lists} {inst : Reinst}

@[simp] theorem accept_insts (c : Lists) : (m.accept s c).insts = c.insts := c.modify_insts 0 _

@[simp] theorem accept_nl (c : Lists) : (m.accept s c).nl = c.nl := rfl

/-- What `addright` does, whatever room there is. -/
theorem addright_cases (m : Machine) (right : ℕ) (hc : c.insts ≠ []) :
    (right ∈ c.insts ∧ ∃ c' : Lists, c'.insts = c.insts ∧ c'.nl = c.nl ∧ ∀ left, m.addright left right c = .ok c') ∨
      right ∉ c.insts ∧ ∃ c' : Lists, c'.insts = c.insts ++ [right] ∧ c'.nl = c.nl ∧ ∀ left, m.addright left right c =
        if left ≤ c.insts.length + 1 then .error .overrun
        else if c.insts.length + 3 = left then .error (.tlfull c.mp)
        else .ok c' := by
  obtain ⟨t, rest, hcur⟩ := List.exists_cons_of_ne_nil (Lists.insts_ne_nil.mp hc)
  have hadd : ∀ left, m.addright left right c =
      let r := renewthread m.ms right t.se c.cur
      if r.2 ∧ left ≤ r.1.length then .error .overrun
      else if r.2 ∧ r.1.length + 2 = left then .error (.tlfull c.mp)
      else .ok { c with cur := r.1 } := by
    intro left
    rw [addright, hcur]
  rcases renewthread_cases m.ms right t.se c.cur with ⟨hin, l', hl, hinsts⟩ | ⟨hin, l', hl, hinsts⟩
  · refine .inl ⟨hin, { c with cur := l' }, hinsts, rfl, fun left => ?_⟩
    rw [hadd, hl]
    simp only [Bool.false_eq_true, false_and, if_false]
  · have hlen : l'.length = c.insts.length + 1 := by
      rw [← List.length_map Relist.inst, hinsts, List.length_append]
      rfl
    refine .inr ⟨hin, { c with cur := l' }, hinsts, rfl, fun left => ?_⟩
    rw [hadd, hl]
    simp only [true_and, hlen]

/-- What `addnext` does: nothing new, or an entry more. -/
theorem addnext_cases (m : Machine) (next : Option ℕ) (hc : c.insts ≠ []) :
    (∃ c' : Lists, c'.insts = c.insts ∧ c'.nl.map Relist.inst = c.nl.map Relist.inst ∧ m.addnext next c = .ok c') ∨
      ∃ c' : Lists, c'.insts = c.insts ∧ (next = none ∧ c'.nl.map Relist.inst = c.nl.map Relist.inst ∨
        ∃ ip, next = some ip ∧ ip ∉ c.nl.map Relist.inst ∧ c'.nl.map Relist.inst = c.nl.map Relist.inst ++ [ip]) ∧
        m.addnext next c =
          if m.size ≤ c.nl.length + 1 then .error .overrun
          else if c.nl.length + 3 = m.size then .error (.nlfull c.mp)
          else .ok c' := by
  obtain ⟨t, rest, hcur⟩ := List.exists_cons_of_ne_nil (Lists.insts_ne_nil.mp hc)
  cases next with
  | none =>
    refine .inr ⟨c, rfl, .inl ⟨rfl, rfl⟩, ?_⟩
    simp only [addnext, hcur, true_and]
    rw [← hcur]
  | some ip =>
    have hadd : m.addnext (some ip) c =
        let r := renewthread m.ms ip t.se c.nl
        if r.2 ∧ m.size ≤ c.nl.length + 1 then .error .overrun
        else if r.2 ∧ c.nl.length + 3 = m.size then .error (.nlfull c.mp)
        else .ok { c with nl := r.1 } := by
      simp only [addnext, hcur]
    rcases renewthread_cases m.ms ip t.se c.nl with ⟨hin, l', hl, hinsts⟩ | ⟨hin, l', hl, hinsts⟩
    · refine .inl ⟨{ c with nl := l' }, rfl, hinsts, ?_⟩
      rw [hadd, hl]
      simp only [Bool.false_eq_true, false_and, if_false]
    · refine .inr ⟨{ c with nl := l' }, rfl, .inr ⟨ip, rfl, hin, hinsts⟩, ?_⟩
      rw [hadd, hl]
      simp only [true_and]

/-- The lists have room up to their ends. -/
structure Fits (m : Machine) (left : ℕ) (c : Lists) : Prop where
  cur : c.insts.length + 3 ≤ left
  nl : c.nl.length + 3 ≤ m.size

theorem addnext_fits (next : Option ℕ) (hc : c.insts ≠ []) (h : c.nl.length + 3 ≤ m.size) :
    Post (fun c' => c'.insts = c.insts ∧ c'.nl.length + 3 ≤ m.size) (· ≠ .overrun) (m.addnext next c) := by
  rcases m.addnext_cases next hc with ⟨c', hinsts, hnl, he⟩ | ⟨c', hinsts, hnl, he⟩
  · rw [he]
    refine ⟨hinsts, ?_⟩
    rwa [← List.length_map Relist.inst, hnl, List.length_map]
  · have hlen : c'.nl.length ≤ c.nl.length + 1 := by
      rw [← List.length_map Relist.inst]
      rcases hnl with ⟨-, hnl⟩ | ⟨ip, -, -, hnl⟩ <;> simp [hnl]
    rw [he, if_neg (by omega)]
    split
    · exact nofun
    · refine ⟨hinsts, ?_⟩
      omega

theorem visit_fits (h : Fits m left c) (hc : c.insts ≠ []) :
    Post (fun bc => Fits m left bc.2 ∧ bc.2.insts ≠ []) (· ≠ .overrun) (m.visit s r left inst c) := by
  have hsame : ∀ (b : Bool) (c' : Lists), c'.insts = c.insts → c'.nl = c.nl →
      Post (fun bc : Bool × Lists => Fits m left bc.2 ∧ bc.2.insts ≠ []) (· ≠ .overrun) (.ok (b, c')) := by
    intro b c' hinsts hnl
    exact ⟨⟨by rw [hinsts]; exact h.cur, by rw [hnl]; exact h.nl⟩, by rw [hinsts]; exact hc⟩
  rw [visit]
  split
  · exact hsame _ _ (c.modify_insts _ _) rfl
  · exact hsame _ _ (c.modify_insts _ _) rfl
  · exact hsame _ _ rfl rfl
  · exact hsame _ _ rfl rfl
  · rename_i right _
    apply Post.map
    rcases m.addright_cases right hc with ⟨-, c', hinsts, hnl, he⟩ | ⟨-, c', hinsts, hnl, he⟩
    · rw [he left]
      exact hsame true c' hinsts hnl
    · have hcur := h.cur
      rw [he left, if_neg (by omega)]
      split
      · exact nofun
      · refine ⟨⟨?_, by rw [hnl]; exact h.nl⟩, by rw [hinsts]; exact List.append_ne_nil_of_right_ne_nil _ (List.cons_ne_nil _ _)⟩
        rw [hinsts, List.length_append, List.length_singleton]
        omega
  · exact hsame _ _ (accept_insts c) rfl
  · split
    · apply Post.map
      refine (addnext_fits inst.next hc h.nl).mono (fun c' hc' => ?_) fun _ he => he
      exact ⟨⟨by rw [hc'.1]; exact h.cur, hc'.2⟩, by rw [hc'.1]; exact hc⟩
    · exact hsame _ _ rfl rfl

section Rules

variable {P : ℕ → ℕ → Lists → Prop} {Q : Lists → Prop} {E : Stop → Prop}

/-- The rule for a thread: what holds before each instruction, with the turns left. -/
theorem chain_post (hend : ∀ i c, P 0 i c → E .wild)
    (hnone : ∀ fuel i c, P (fuel + 1) i c → m.progp.firstinst[i]? = none → E .wild)
    (hvisit : ∀ fuel i c inst, P (fuel + 1) i c → m.progp.firstinst[i]? = some inst →
      Post (fun bc => if bc.1 then (inst.next = none → E .wild) ∧ ∀ j, inst.next = some j → P fuel j bc.2 else Q bc.2) E
        (m.visit s r left inst c))
    (fuel i : ℕ) (c : Lists) (h : P fuel i c) : Post Q E (m.chain s r left fuel i c) := by
  induction fuel generalizing i c with
  | zero => exact hend i c h
  | succ fuel ih =>
    rw [chain]
    split
    · rename_i hi
      exact hnone fuel i c h hi
    · rename_i inst hi
      have hv := hvisit fuel i c inst h hi
      split
      · rename_i e he
        rw [he] at hv
        exact hv
      · rename_i c' he
        rw [he] at hv
        exact hv
      · rename_i c' he
        rw [he] at hv
        split
        · rename_i hnext
          exact hv.1 hnext
        · rename_i j hnext
          exact ih j c' (hv.2 j hnext)

/-- The rule for a list: what holds before each thread, with the room left. -/
theorem threads_post {P : ℕ → Lists → Prop} (hover : ∀ c, P 0 c → c.cur ≠ [] → E .overrun) (hdone : ∀ left c, P left c → c.cur = [] → Q c)
    (hchain : ∀ left c t, P (left + 1) c → c.cur.head? = some t →
      Post (fun c' => P left { c' with cur := c'.cur.tail }) E (m.chain s r (left + 1) m.progp.firstinst.length t.inst c))
    (left : ℕ) (c : Lists) (h : P left c) : Post Q E (m.threads s r left c) := by
  induction left generalizing c with
  | zero =>
    rw [threads]
    split
    · rename_i hc
      exact hdone 0 c h hc
    · rename_i hc
      exact hover c h hc
  | succ left ih =>
    rw [threads]
    split
    · rename_i hc
      exact hdone _ c h hc
    · rename_i t rest hc
      have ht := hchain left c t h (by rw [hc]; rfl)
      split
      · rename_i e he
        rw [he] at ht
        exact ht
      · rename_i c' he
        rw [he] at ht
        exact ih _ ht

end Rules

theorem Lists.tail_insts (c : Lists) : ({ c with cur := c.cur.tail } : Lists).insts = c.insts.tail := List.map_tail

theorem threads_fits (h : Fits m left c) : Post (fun c' => c'.nl.length + 3 ≤ m.size) (· ≠ .overrun) (m.threads s r left c) := by
  refine threads_post (P := Fits m) (fun c h => ?_) (fun _ _ h _ => h.nl) (fun left c t h ht => ?_) left c h
  · exact absurd h.cur (by omega)
  · have hne : c.insts ≠ [] := by
      rw [Lists.insts_ne_nil]
      intro hnil
      rw [hnil] at ht
      exact nomatch ht
    refine (chain_post (P := fun _ _ c => Fits m (left + 1) c ∧ c.insts ≠ []) (Q := fun c => Fits m (left + 1) c ∧ c.insts ≠ [])
      (fun _ _ _ => nofun) (fun _ _ _ _ _ => nofun) (fun fuel i c inst hc hi => ?_) _ _ _ ⟨h, hne⟩).mono (fun c' hc' => ?_) fun _ he => he
    · refine (visit_fits hc.1 hc.2).mono (fun bc hbc => ?_) fun _ he => he
      split
      · exact ⟨nofun, fun _ _ => hbc⟩
      · exact hbc
    · have hcur := hc'.1.cur
      have hpos := List.length_pos_iff.mpr hc'.2
      refine ⟨?_, hc'.1.nl⟩
      rw [Lists.tail_insts, List.length_tail]
      omega

section Twins

/-- Two results that are the same, but that the first has come behind its array where the second has come to its end. -/
inductive Twin {α : Type} (P : α → Prop) : Except Stop α → Except Stop α → Prop
  | ok (a : α) (h : P a) : Twin P (.ok a) (.ok a)
  | stop (e : Stop) (hover : e ≠ .overrun) (hfull : ∀ mp, e ≠ .tlfull mp) : Twin P (.error e) (.error e)
  | behind (mp : Option (List Resub)) : Twin P (.error .overrun) (.error (.tlfull mp))

theorem Twin.iff {α : Type} {P : α → Prop} {x y : Except Stop α} (h : Twin P x y) :
    x = .error .overrun ↔ ∃ mp, y = .error (.tlfull mp) := by
  cases h with
  | ok a _ => exact ⟨nofun, nofun⟩
  | stop e hover hfull =>
    refine ⟨fun he => absurd (Except.error.inj he) hover, ?_⟩
    rintro ⟨mp, he⟩
    exact absurd (Except.error.inj he) (hfull mp)
  | behind mp => exact ⟨fun _ => ⟨mp, rfl⟩, fun _ => rfl⟩

theorem Twin.post {α : Type} {P : α → Prop} {x y : Except Stop α} (h : Twin P x y) : Post P (fun _ => True) x := by
  cases h with
  | ok a h => exact h
  | stop e _ _ => exact True.intro
  | behind mp => exact True.intro

theorem Twin.map {α β : Type} {P : β → Prop} {f : α → β} {x y : Except Stop α} (h : Twin (fun a => P (f a)) x y) :
    Twin P (x.map f) (y.map f) := by
  cases h with
  | ok a h => exact .ok (f a) h
  | stop e hover hfull => exact .stop e hover hfull
  | behind mp => exact .behind mp

/-- This list has come to its end or one entry behind, and nothing has noticed it. -/
structure Tight (m : Machine) (left : ℕ) (c : Lists) : Prop where
  cur : c.insts.length + 2 = left ∨ c.insts.length + 1 = left
  nl : c.nl.length + 3 ≤ m.size

theorem visit_twin (h : Tight m left c) (hc : c.insts ≠ []) :
    Twin (fun bc => Tight m left bc.2 ∧ bc.2.insts ≠ []) (m.visit s r left inst c) (m.visit s r (left + 2) inst c) := by
  have hsame : ∀ (b : Bool) (c' : Lists), c'.insts = c.insts → c'.nl = c.nl →
      Twin (fun bc : Bool × Lists => Tight m left bc.2 ∧ bc.2.insts ≠ []) (.ok (b, c')) (.ok (b, c')) := by
    intro b c' hinsts hnl
    exact .ok _ ⟨⟨by rw [hinsts]; exact h.cur, by rw [hnl]; exact h.nl⟩, by rw [hinsts]; exact hc⟩
  have hcur := h.cur
  rw [visit, visit]
  split
  · exact hsame _ _ (c.modify_insts _ _) rfl
  · exact hsame _ _ (c.modify_insts _ _) rfl
  · exact hsame _ _ rfl rfl
  · exact hsame _ _ rfl rfl
  · rename_i right _
    apply Twin.map
    rcases m.addright_cases right hc with ⟨-, c', hinsts, hnl, he⟩ | ⟨-, c', hinsts, hnl, he⟩
    · rw [he left, he (left + 2)]
      exact .ok c' ⟨⟨by rw [hinsts]; exact h.cur, by rw [hnl]; exact h.nl⟩, by rw [hinsts]; exact hc⟩
    · rw [he left, he (left + 2)]
      rcases hcur with hfirst | hsecond
      · -- the first thread behind the end
        rw [if_neg (by omega), if_neg (by omega), if_neg (by omega), if_neg (by omega)]
        refine .ok c' ⟨⟨.inr ?_, by rw [hnl]; exact h.nl⟩, ?_⟩
        · rw [hinsts, List.length_append, List.length_singleton]
          omega
        · rw [hinsts]
          exact List.append_ne_nil_of_right_ne_nil _ (List.cons_ne_nil _ _)
      · rw [if_pos (by omega), if_neg (by omega), if_pos (by omega)]
        exact .behind c.mp
  · exact hsame _ _ (accept_insts c) rfl
  · split
    · apply Twin.map
      have hnext := addnext_fits (m := m) inst.next hc h.nl
      rcases m.addnext_cases inst.next hc with ⟨c', hinsts, hnl, he⟩ | ⟨c', hinsts, hnl, he⟩
      · rw [he] at hnext ⊢
        exact .ok c' ⟨⟨by rw [hinsts]; exact h.cur, hnext.2⟩, by rw [hinsts]; exact hc⟩
      · have hfits := h.nl
        rw [he, if_neg (by omega)] at hnext ⊢
        split
        · exact .stop (.nlfull c.mp) nofun nofun
        · rename_i hroom
          rw [if_neg hroom] at hnext
          exact .ok c' ⟨⟨by rw [hinsts]; exact h.cur, hnext.2⟩, by rw [hinsts]; exact hc⟩
    · exact hsame _ _ rfl rfl

theorem chain_twin (fuel i : ℕ) (h : Tight m left c) (hc : c.insts ≠ []) :
    Twin (fun c => Tight m left c ∧ c.insts ≠ []) (m.chain s r left fuel i c) (m.chain s r (left + 2) fuel i c) := by
  induction fuel generalizing i c with
  | zero => exact .stop .wild nofun nofun
  | succ fuel ih =>
    rw [chain, chain]
    split
    · exact .stop .wild nofun nofun
    · rename_i inst _
      have hv : Twin (fun bc => Tight m left bc.2 ∧ bc.2.insts ≠ []) (m.visit s r left inst c) (m.visit s r (left + 2) inst c) :=
        visit_twin h hc
      generalize m.visit s r left inst c = x at hv
      generalize m.visit s r (left + 2) inst c = y at hv
      cases hv with
      | stop e hover hfull => exact .stop e hover hfull
      | behind mp => exact .behind mp
      | ok bc hbc =>
        obtain ⟨b, c'⟩ := bc
        cases b with
        | false => exact .ok c' hbc
        | true =>
          simp only
          split
          · exact .stop .wild nofun nofun
          · exact ih _ hbc.1 hbc.2

theorem threads_twin (h : Tight m left c) :
    Twin (fun c => c.nl.length + 3 ≤ m.size) (m.threads s r left c) (m.threads s r (left + 2) c) := by
  induction left generalizing c with
  | zero =>
    have hcur := h.cur
    omega
  | succ left ih =>
    rw [threads, show left + 1 + 2 = left + 2 + 1 by omega, threads]
    split
    · exact .ok c h.nl
    · rename_i t rest hcur
      have hne : c.insts ≠ [] := by
        rw [Lists.insts_ne_nil, hcur]
        exact List.cons_ne_nil _ _
      have hv := chain_twin (s := s) (r := r) m.progp.firstinst.length t.inst h hne
      rw [show left + 1 + 2 = left + 2 + 1 by omega] at hv
      generalize m.chain s r (left + 1) m.progp.firstinst.length t.inst c = x at hv
      generalize m.chain s r (left + 2 + 1) m.progp.firstinst.length t.inst c = y at hv
      cases hv with
      | stop e hover hfull => exact .stop e hover hfull
      | behind mp => exact .behind mp
      | ok c' hc' =>
        apply ih
        have hcur := hc'.1.cur
        have hpos := List.length_pos_iff.mpr hc'.2
        refine ⟨?_, hc'.1.nl⟩
        rw [Lists.tail_insts, List.length_tail]
        omega

end Twins

end Machine

end Petele.Regexp
