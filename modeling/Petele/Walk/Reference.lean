import Petele.Walk.Walk

namespace Petele.Walk

section Reference

variable (cleanname : List Char → List Char) (pg : Pgrp) (lookup : Chan → Name → Option Qid) (nomount : Bool)

/-- A name looked up in a channel. -/
def child (c : Chan) (name : Name) : Option Chan := (lookup c name).map fun q => ⟨c.dc, c.devno, q⟩

/-- What is mounted on a channel. -/
def mounted (c : Chan) : Option Mhead := if nomount then none else findmount pg c.dc c.devno c.qid

/-- The members of a mount point in their order, and the path, behind the mount point. -/
def cross (p : Pos) : List Chan × Path :=
  match mounted pg nomount p.c with
  | none => ([p.c], p.path)
  | some mh => (mh.first :: mh.next, p.path.setlast mh.mfrom)

/-- One name of the walk. -/
def refstep (p : Pos) (name : Name) : Option Pos :=
  if isdotdot name then (child lookup p.c name).map fun c => undomount c (addelem cleanname p.path name none)
  else ((cross pg nomount p).1.findSome? (child lookup · name)).map fun c => ⟨c, addelem cleanname (cross pg nomount p).2 name none⟩

def refwalk (p : Pos) (names : List Name) : Option Pos := names.foldlM (refstep cleanname pg lookup nomount) p

end Reference

section Devices

/-- The qids of the names that can be looked up one after another. -/
def qids (lookup : Chan → Name → Option Qid) : Chan → List Name → List Qid
  | _, [] => []
  | c, n :: l => match lookup c n with
    | none => []
    | some q => q :: qids lookup ⟨c.dc, c.devno, q⟩ l

/-- A walk of several names is one lookup after another in the same tree, and only a directory can be walked. -/
structure Iterates (lookup : Chan → Name → Option Qid) (ewalk : Chan → List Name → Option Walkqid) : Prop where
  fails : ∀ c n l, lookup c n = none → ewalk c (n :: l) = none
  walks : ∀ c n l q, lookup c n = some q → ∃ wq, ewalk c (n :: l) = some wq ∧ wq.qid = qids lookup c (n :: l) ∧
    wq.clone = if wq.qid.length = l.length + 1 then wq.qid.getLast?.map fun q => ⟨c.dc, c.devno, q⟩ else none
  dir : ∀ c n q, lookup c n = some q → c.qid.isdir = true

/-- What is mounted on a channel is a directory if the channel is one, and only then: `cmount` mounts nothing else. -/
def Alike (pg : Pgrp) (c : Chan) : Prop :=
  ∀ mh, findmount pg c.dc c.devno c.qid = some mh → ∀ m ∈ mh.first :: mh.next, m.qid.isdir = c.qid.isdir

structure Fine (pg : Pgrp) (p : Pos) : Prop where
  chan : Alike pg p.c
  path : ∀ c, some c ∈ p.path.mtpt → Alike pg c

structure Consistent (pg : Pgrp) (lookup : Chan → Name → Option Qid) : Prop where
  mounts : ∀ h mh c, mh ∈ pg h → mh.mfrom = some c → Alike pg c
  found : ∀ c n q, lookup c n = some q → Alike pg ⟨c.dc, c.devno, q⟩

end Devices

variable {cleanname : List Char → List Char} {pg : Pgrp} {lookup : Chan → Name → Option Qid} {ewalk : Chan → List Name → Option Walkqid}
variable {nomount : Bool}

section Batches

theorem setlast_addelem {name : Name} (p : Path) (hdot : name ≠ ['.']) (hdd : isdotdot name = false) (mfrom : Option Chan) :
    (addelem cleanname p name none).setlast mfrom = addelem cleanname p name mfrom := by
  simp [addelem, hdot, hdd, Path.setlast]

theorem addelems_cons (s : Name) (l : List Name) (p : Path) :
    addelems cleanname none (s :: l) p = addelems cleanname none l (addelem cleanname p s none) := by
  cases l with
  | nil => rfl
  | cons t l => rfl

theorem setlast_addelems {l : List Name} (p : Path) (hl : l ≠ []) (hdot : ∀ n ∈ l, n ≠ ['.']) (hdd : ∀ n ∈ l, isdotdot n = false)
    (mfrom : Option Chan) : (addelems cleanname none l p).setlast mfrom = addelems cleanname mfrom l p := by
  induction l generalizing p with
  | nil => exact absurd rfl hl
  | cons s l ih =>
    cases l with
    | nil => exact setlast_addelem p (hdot s (by simp)) (hdd s (by simp)) mfrom
    | cons t l =>
      have hrest : addelems cleanname mfrom (s :: t :: l) p = addelems cleanname mfrom (t :: l) (addelem cleanname p s none) := rfl
      rw [addelems_cons, hrest]
      apply ih _ (by simp)
      · exact fun n hn => hdot n (List.mem_cons_of_mem _ hn)
      · exact fun n hn => hdd n (List.mem_cons_of_mem _ hn)

theorem mem_setlast {p : Path} {mfrom : Option Chan} {c : Chan} (h : some c ∈ (p.setlast mfrom).mtpt) : some c ∈ p.mtpt ∨ mfrom = some c := by
  rw [Path.setlast] at h
  split at h
  · exact .inl h
  · rcases List.mem_append.mp h with h | h
    · exact .inl (List.dropLast_subset _ h)
    · exact .inr (List.mem_singleton.mp h).symm

theorem mem_addelem {p : Path} {s : Name} {c : Chan} (h : some c ∈ (addelem cleanname p s none).mtpt) : some c ∈ p.mtpt := by
  rw [addelem] at h
  split at h
  · exact h
  · simp only at h
    split at h
    · simp only at h
      split at h
      · exact List.dropLast_subset _ h
      · exact h
    · rcases List.mem_append.mp h with h | h
      · exact h
      · exact nomatch List.mem_singleton.mp h

theorem mem_addelems {l : List Name} {p : Path} {c : Chan} (h : some c ∈ (addelems cleanname none l p).mtpt) : some c ∈ p.mtpt := by
  induction l generalizing p with
  | nil => exact h
  | cons s l ih =>
    rw [addelems_cons] at h
    exact mem_addelem (ih h)

/-- Where the loop stops on its way. -/
def stops (pg : Pgrp) (nomount : Bool) (dc devno i : ℕ) (l : List Qid) : Option (ℕ × Mhead) :=
  if nomount then none else alongway pg dc devno i l

theorem stops_nil (dc devno i : ℕ) : stops pg nomount dc devno i [] = none := by
  cases nomount <;> rfl

theorem stops_cons_some {dc devno i : ℕ} {q : Qid} {l : List Qid} {mh : Mhead} (h : mounted pg nomount ⟨dc, devno, q⟩ = some mh) :
    stops pg nomount dc devno i (q :: l) = some (i, mh) := by
  cases nomount with
  | true => exact nomatch h
  | false =>
    have hf : findmount pg dc devno q = some mh := h
    simp [stops, alongway, hf]

theorem stops_cons_none {dc devno i : ℕ} {q : Qid} {l : List Qid} (h : mounted pg nomount ⟨dc, devno, q⟩ = none) :
    stops pg nomount dc devno i (q :: l) = stops pg nomount dc devno (i + 1) l := by
  cases nomount with
  | true => rfl
  | false =>
    have hf : findmount pg dc devno q = none := h
    simp [stops, alongway, hf]

theorem refwalk_cons (p : Pos) (n : Name) (l : List Name) :
    refwalk cleanname pg lookup nomount p (n :: l) = (refstep cleanname pg lookup nomount p n).bind (refwalk cleanname pg lookup nomount · l) :=
  rfl

/-- A name in a channel that nothing is mounted on. -/
theorem refstep_free {c : Chan} {path : Path} {n : Name} (hdd : isdotdot n = false) (hm : mounted pg nomount c = none) :
    refstep cleanname pg lookup nomount ⟨c, path⟩ n =
      (lookup c n).map fun q => ⟨⟨c.dc, c.devno, q⟩, addelem cleanname path n none⟩ := by
  simp only [refstep, hdd, Bool.false_eq_true, if_false, cross, hm, List.findSome?_cons, List.findSome?_nil, child]
  cases lookup c n <;> rfl

variable (cleanname pg lookup nomount) in
/-- What the names of a batch do one at a time, by where the batch stops. -/
theorem refwalk_batch (rest : List Name) {l : List Name} (hdd : ∀ n ∈ l, isdotdot n = false) (c : Chan) (path : Path) (i : ℕ) :
    match stops pg nomount c.dc c.devno i ((c.qid :: qids lookup c l).take l.length) with
    | some (k, mh) => ∃ j q, k = i + j ∧ j < l.length ∧ q ∈ c.qid :: qids lookup c l ∧ mounted pg nomount ⟨c.dc, c.devno, q⟩ = some mh ∧
        refwalk cleanname pg lookup nomount ⟨c, path⟩ (l ++ rest) =
          refwalk cleanname pg lookup nomount ⟨⟨c.dc, c.devno, q⟩, addelems cleanname none (l.take j) path⟩ (l.drop j ++ rest)
    | none =>
      if (qids lookup c l).length = l.length then
        ∃ q, (c.qid :: qids lookup c l).getLast? = some q ∧
          refwalk cleanname pg lookup nomount ⟨c, path⟩ (l ++ rest) =
            refwalk cleanname pg lookup nomount ⟨⟨c.dc, c.devno, q⟩, addelems cleanname none l path⟩ rest
      else refwalk cleanname pg lookup nomount ⟨c, path⟩ (l ++ rest) = none := by
  induction l generalizing c path i with
  | nil =>
    rw [List.length_nil, List.take_zero, stops_nil]
    exact ⟨c.qid, rfl, rfl⟩
  | cons n l ih =>
    rw [List.length_cons, List.take_succ_cons]
    cases hm : mounted pg nomount c with
    | some mh =>
      rw [stops_cons_some hm]
      exact ⟨0, c.qid, rfl, Nat.succ_pos _, List.mem_cons_self, hm, rfl⟩
    | none =>
      have hstep : refstep cleanname pg lookup nomount ⟨c, path⟩ n = _ := refstep_free (hdd n (by simp)) hm
      rw [stops_cons_none hm, List.cons_append, refwalk_cons, hstep]
      cases hn : lookup c n with
      | none =>
        simp only [qids, hn, List.take_nil]
        rw [stops_nil]
        simp
      | some q =>
        have hih := ih (fun x hx => hdd x (List.mem_cons_of_mem _ hx)) ⟨c.dc, c.devno, q⟩ (addelem cleanname path n none) (i + 1)
        simp only [qids, hn, Option.map_some, Option.bind_some, List.length_cons, Nat.add_right_cancel_iff]
        dsimp only at hih
        generalize stops pg nomount c.dc c.devno (i + 1) (List.take l.length (q :: qids lookup ⟨c.dc, c.devno, q⟩ l)) = r at hih ⊢
        cases r with
        | some x =>
          obtain ⟨j, q', hk, hj, hq, hmh, href⟩ := hih
          refine ⟨j + 1, q', by omega, Nat.succ_lt_succ hj, List.mem_cons_of_mem _ hq, hmh, ?_⟩
          rw [List.take_succ_cons, List.drop_succ_cons, addelems_cons]
          exact href
        | none =>
          simp only at hih ⊢
          split at hih
          · rename_i hlen
            obtain ⟨q', hlast, href⟩ := hih
            rw [if_pos hlen]
            refine ⟨q', ?_, ?_⟩
            · rw [List.getLast?_cons_cons]
              exact hlast
            · rw [addelems_cons]
              exact href
          · rename_i hlen
            rw [if_neg hlen]
            exact hih

theorem found_qids (hcons : Consistent pg lookup) {c : Chan} {l : List Name} {q : Qid} (h : q ∈ qids lookup c l) :
    Alike pg ⟨c.dc, c.devno, q⟩ := by
  induction l generalizing c with
  | nil => exact nomatch h
  | cons n l ih =>
    rw [qids] at h
    cases hn : lookup c n with
    | none =>
      rw [hn] at h
      exact nomatch h
    | some q' =>
      rw [hn] at h
      rcases List.mem_cons.mp h with rfl | h
      · exact hcons.found c n q hn
      · have hih := ih h
        exact hih

end Batches

end Petele.Walk
