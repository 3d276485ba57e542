import Petele.Thread.ChanRun

set_option linter.unusedSectionVars false

/-! What the entry that `alt` returns tells about the communication. -/

namespace Petele.Thread

variable {K C V : Type} [DecidableEq K] [DecidableEq C] {zero : V}
variable {st : St K C V} {k : K}

/-- A call has committed to one entry, which was `g` and is `a` now, and to no other. -/
structure Named (zero : V) (st : St K C V) (k : K) (i : ℕ) (g a : Alt C V) : Prop where
  held : ∃ c, Held zero k g a c (mine k st.log)
  others : Others (st.alts k) (st.given k) i

theorem Reached.inv (h : Reached zero LastMet st) : Inv zero st := by
  induction h with
  | start h => exact h.inv
  | step _ ha hs ih => exact ih.step ha hs

/-- Arrays that have no channel twice are never read wrong. -/
theorem Reachable.reached (h : Reachable zero st) : Reached zero LastMet st := by
  induction h with
  | start h => exact .start h
  | step h _ hs ih => exact ih.step (h.inv.lastMet h.distinct _) hs

/-- Where a waiter that is met is always the last entry of its array for the channel, `alt` returns the entry that
has communicated. -/
theorem alt_names (h : Reached zero LastMet st) {i : ℕ} {g a : Alt C V} (hk : st.phase k = .done (some i))
    (hg : (st.given k)[i]? = some g) (ha : (st.alts k)[i]? = some a) (herr : a.err = false) : Named zero st k i g a := by
  refine ⟨h.inv.success hk hg ha herr, ?_⟩
  have hcall := (h.inv.call k).call
  rw [hk] at hcall
  obtain ⟨-, -, -, ⟨c, hothers, -⟩ | ⟨-, hclosed⟩⟩ := hcall
  · exact hothers
  · exact absurd ((hclosed a ha).symm.trans herr) (by decide)

/-- Where a call is when it has returned an entry. -/
def result (st : St K C V) (k : K) : Option ℕ :=
  match st.phase k with
  | .done r => r
  | _ => none

theorem result_eq_some {i : ℕ} (h : result st k = some i) : st.phase k = .done (some i) := by
  unfold result at h
  split at h
  · rename_i r hr
    rw [hr, h]
  · exact nomatch h

/-- A call of `alt`, the sender that it meets, and its return. -/
def meetsender (alts : List (Alt Unit Bool)) (j : ℕ) : List (Act Bool Unit Bool) :=
  [.alt false alts false 0 0, send true (some ()) (some true) 0 j, .meeting false true, .wake false]

def runs (acts : List (Act Bool Unit Bool)) (st : St Bool Unit Bool) : Option (St Bool Unit Bool) :=
  acts.foldlM (step false) st

theorem start_unbuffered : Start unbuffered := ⟨fun _ => ⟨rfl, rfl, rfl⟩, fun _ => rfl, rfl, rfl, fun _ => rfl, fun _ => rfl, fun _ => rfl⟩

theorem distinct_one (a : Alt Unit Bool) : Distinct [a] := by
  intro i j x y hx hy _ _ _ _
  have hi := (List.getElem?_eq_some_iff.mp hx).1
  have hj := (List.getElem?_eq_some_iff.mp hy).1
  simp only [List.length_singleton] at hi hj
  omega

theorem Reached.runs {p : Act Bool Unit Bool → Prop} {st st' : St Bool Unit Bool} {acts : List (Act Bool Unit Bool)}
    (h : Reached false (fun _ a => p a) st) (hall : ∀ a ∈ acts, p a) (hs : runs acts st = some st') : Reached false (fun _ a => p a) st' := by
  induction acts generalizing st with
  | nil =>
    cases hs
    exact h
  | cons a acts ih =>
    obtain ⟨st₁, h₁, hrest⟩ := Option.bind_eq_some_iff.mp hs
    exact ih (h.step (hall a List.mem_cons_self) h₁) (fun b hb => hall b (List.mem_cons_of_mem a hb)) hrest

theorem Reached.reachable (h : Reached zero (fun _ a => Allowed a) st) : Reachable zero st := by
  induction h with
  | start h => exact .start h
  | step _ ha hs ih => exact ih.step ha hs

theorem alt_names_one : ∃ st : St Bool Unit Bool, st.phase false = .done (some 0) ∧
    Named false st false 0 ⟨.CHANRCV, some (), some false, false⟩ ⟨.CHANRCV, some (), some true, false⟩ := by
  have hrun : (runs (meetsender [⟨.CHANRCV, some (), some false, false⟩] 0) unbuffered).map (fun st =>
      (result st false, (st.given false)[0]?.map fun a => (a.op, a.c, a.v, a.err), (st.alts false)[0]?.map fun a => (a.op, a.c, a.v, a.err))) =
      some (some 0, some (.CHANRCV, some (), some false, false), some (.CHANRCV, some (), some true, false)) := rfl
  obtain ⟨st, hst, heq⟩ := Option.map_eq_some_iff.mp hrun
  simp only [Prod.mk.injEq] at heq
  obtain ⟨hres, hgiven, halts⟩ := heq
  obtain ⟨⟨op, c, v, err⟩, hg, heqg⟩ := Option.map_eq_some_iff.mp hgiven
  obtain ⟨⟨op', c', v', err'⟩, ha, heqa⟩ := Option.map_eq_some_iff.mp halts
  cases heqg
  cases heqa
  have hall : ∀ a ∈ meetsender [⟨.CHANRCV, some (), some false, false⟩] 0, Allowed a := by
    rw [meetsender]
    simp only [List.forall_mem_cons, List.not_mem_nil, false_imp_iff, implies_true, and_true]
    exact ⟨distinct_one _, distinct_one _, True.intro, True.intro⟩
  have hreach := (Reached.start start_unbuffered).runs hall hst
  exact ⟨st, result_eq_some hres, alt_names hreach.reachable.reached (result_eq_some hres) hg ha rfl⟩

/-- A call that waits to receive and to send at one channel, and has received, returns the entry for sending. -/
theorem alt_misnames : ¬ ∀ st : St Bool Unit Bool, Reached false (fun _ _ => True) st → ∀ (k : Bool) (i : ℕ) (g a : Alt Unit Bool),
    st.phase k = .done (some i) → (st.given k)[i]? = some g → (st.alts k)[i]? = some a → a.err = false → Named false st k i g a := by
  intro h
  have hrun : (runs (meetsender [⟨.CHANRCV, some (), some false, false⟩, ⟨.CHANSND, some (), some true, false⟩] 0) unbuffered).map (fun st =>
      (result st false, (st.given false)[1]?.map Alt.op, (st.alts false)[1]?.map Alt.err, (mine false st.log).map Event.op)) =
      some (some 1, some .CHANSND, some false, [.CHANRCV]) := rfl
  obtain ⟨st, hst, heq⟩ := Option.map_eq_some_iff.mp hrun
  simp only [Prod.mk.injEq] at heq
  obtain ⟨hres, hgiven, halts, hlog⟩ := heq
  obtain ⟨g, hg, hop⟩ := Option.map_eq_some_iff.mp hgiven
  obtain ⟨a, ha, herr⟩ := Option.map_eq_some_iff.mp halts
  have hreach : Reached false (fun _ _ => True) st := (Reached.start start_unbuffered).runs (fun _ _ => True.intro) hst
  obtain ⟨⟨c, hheld⟩, -⟩ := h st hreach false 1 g a (result_eq_some hres) hg ha herr
  obtain ⟨x, hev, -⟩ := hheld.event
  rw [hev, List.map_singleton, hop] at hlog
  exact nomatch hlog

end Petele.Thread
