import Petele.Walk.Reference

namespace Petele.Walk

variable {cleanname : List Char → List Char} {pg : Pgrp} {lookup : Chan → Name → Option Qid} {ewalk : Chan → List Name → Option Walkqid}
variable {nomount : Bool}

section Tries

theorem ntry_dotdot {name : Name} (names : List Name) (h : isdotdot name = true) : ntry (name :: names) = (1, true) := by
  simp [ntry, MAXWELEM, List.findIdx?_cons, h]

theorem ntry_ordinary {name : Name} (names : List Name) (h : isdotdot name = false) :
    ∃ m, ntry (name :: names) = (m + 1, false) ∧ m ≤ names.length ∧ ∀ n ∈ names.take m, isdotdot n = false := by
  have hcons : (name :: names).take MAXWELEM = name :: names.take 15 := rfl
  simp only [ntry, hcons, List.findIdx?_cons, h, Bool.false_eq_true, if_false]
  cases hf : (names.take 15).findIdx? isdotdot with
  | none =>
    refine ⟨(names.take 15).length, rfl, ?_, fun n hn => ?_⟩
    · rw [List.length_take]
      exact Nat.min_le_right ..
    · rw [List.findIdx?_eq_none_iff] at hf
      rw [List.length_take, ← List.take_take, List.take_length] at hn
      exact hf n hn
  | some i =>
    obtain ⟨hi, -, hbefore⟩ := List.findIdx?_eq_some_iff_getElem.mp hf
    refine ⟨i, rfl, ?_, fun n hn => ?_⟩
    · rw [List.length_take] at hi
      omega
    · obtain ⟨j, hj, rfl⟩ := List.mem_iff_getElem.mp hn
      rw [List.length_take] at hj hi
      have hlt : j < i := by omega
      have hb := hbefore j hlt
      simpa using hb

/-- The first member in which the first name is found. -/
theorem unionwalk_spec (hit : Iterates lookup ewalk) (n : Name) (l : List Name) (members : List Chan) :
    members.findSome? (child lookup · n) = none ∧ unionwalk ewalk (n :: l) members = none ∨
      ∃ m q wq, lookup m n = some q ∧ members.findSome? (child lookup · n) = some ⟨m.dc, m.devno, q⟩ ∧ unionwalk ewalk (n :: l) members = some (wq, m) ∧
        wq.qid = q :: qids lookup ⟨m.dc, m.devno, q⟩ l ∧
        wq.clone = if (qids lookup ⟨m.dc, m.devno, q⟩ l).length = l.length then
          wq.qid.getLast?.map fun q => ⟨m.dc, m.devno, q⟩ else none := by
  induction members with
  | nil => exact .inl ⟨rfl, rfl⟩
  | cons m members ih =>
    cases hq : lookup m n with
    | none =>
      have hchild : child lookup m n = none := by
        rw [child, hq]
        rfl
      rw [List.findSome?_cons, hchild, unionwalk, hit.fails m n l hq]
      exact ih
    | some q =>
      obtain ⟨wq, hwalk, hqid, hclone⟩ := hit.walks m n l q hq
      have hchild : child lookup m n = some ⟨m.dc, m.devno, q⟩ := by
        rw [child, hq]
        rfl
      simp only [qids, hq] at hqid
      refine .inr ⟨m, q, wq, hq, ?_, ?_, hqid, ?_⟩
      · rw [List.findSome?_cons, hchild]
      · rw [unionwalk, hwalk]
      · rw [hclone]
        simp only [hqid, List.length_cons, Nat.add_right_cancel_iff]

end Tries

section Simulation

/-- The loop is in front of the mount point, or behind it with an ordinary name next. -/
inductive Sim (pg : Pgrp) (nomount : Bool) (p : Pos) (names : List Name) : Chan → Path → Option Mhead → Bool → Prop
  | front : Sim pg nomount p names p.c p.path none false
  | behind (mh : Mhead) (n : Name) (l : List Name) (hm : mounted pg nomount p.c = some mh) (hnames : names = n :: l)
      (hdd : isdotdot n = false) : Sim pg nomount p names mh.first (p.path.setlast mh.mfrom) (some mh) true

variable {p : Pos} {names : List Name} {c : Chan} {path : Path} {mh : Option Mhead} {didmount : Bool}

theorem Sim.isdir (hfine : Fine pg p) (sim : Sim pg nomount p names c path mh didmount) : c.qid.isdir = p.c.qid.isdir := by
  cases sim with
  | front => rfl
  | behind mh n l hm =>
    cases nomount with
    | true => exact nomatch hm
    | false => exact hfine.chan mh hm mh.first (by simp)

/-- The loop gets behind the mount point where the walk of one name does. -/
theorem Sim.cross (sim : Sim pg nomount p names c path mh didmount) :
    let m := if !false && !nomount && !didmount then domount pg c mh path else (c, mh, path)
    (m.1 :: if nomount then [] else (m.2.1.map Mhead.next).getD [], m.2.2) = cross pg nomount p := by
  cases sim with
  | front =>
    cases nomount with
    | true => rfl
    | false =>
      simp only [Walk.cross, mounted, domount, Bool.not_false, Bool.and_self, if_true, Bool.false_eq_true, if_false]
      cases findmount pg p.c.dc p.c.devno p.c.qid <;> rfl
  | behind mh n l hm =>
    cases nomount with
    | true => exact nomatch hm
    | false => simp [Walk.cross, hm]

/-- Nothing is found in a file. -/
theorem refstep_file (hit : Iterates lookup ewalk) (hfine : Fine pg p) (hfile : p.c.qid.isdir = false) (n : Name) :
    refstep cleanname pg lookup nomount p n = none := by
  have hnone : ∀ c : Chan, c.qid.isdir = false → child lookup c n = none := by
    intro c hc
    rw [child]
    cases hq : lookup c n with
    | none => rfl
    | some q => exact absurd (hc.symm.trans (hit.dir c n q hq)) (by decide)
  rw [refstep]
  split
  · rw [hnone p.c hfile]
    rfl
  · have hmembers : ∀ m ∈ (Walk.cross pg nomount p).1, m.qid.isdir = false := by
      intro m hm
      rw [Walk.cross] at hm
      cases hmt : mounted pg nomount p.c with
      | none =>
        rw [hmt, List.mem_singleton] at hm
        rw [hm]
        exact hfile
      | some mh =>
        rw [hmt] at hm
        cases nomount with
        | true => cases hmt
        | false => exact (hfine.chan mh hmt m hm).trans hfile
    rw [List.findSome?_eq_none_iff.mpr fun m hm => hnone m (hmembers m hm)]
    rfl

theorem undomount_fine {c : Chan} {path : Path} (hc : Alike pg c) (hpath : ∀ m, some m ∈ path.mtpt → Alike pg m) : Fine pg (undomount c path) := by
  rw [undomount]
  split
  · rename_i nc hlast
    refine ⟨hpath nc (List.mem_of_getLast? hlast), fun m hm => ?_⟩
    rcases mem_setlast hm with hm | hm
    · exact hpath m hm
    · exact nomatch hm
  · exact ⟨hc, hpath⟩

/-- The path behind a mount point. -/
theorem cross_fine (hcons : Consistent pg lookup) (hfine : Fine pg p) (m : Chan) (hm : some m ∈ (Walk.cross pg nomount p).2.mtpt) : Alike pg m := by
  rw [Walk.cross] at hm
  split at hm
  · exact hfine.path m hm
  · rename_i mh hmh
    rcases mem_setlast hm with hm | hm
    · exact hfine.path m hm
    · cases nomount with
      | true => cases hmh
      | false =>
        have hf : findmount pg p.c.dc p.c.devno p.c.qid = some mh := hmh
        exact hcons.mounts _ mh m (List.mem_of_find?_eq_some hf) hm

/-- The loop gives what the walk of one name after another gives. -/
def Agrees (r : Option Pos) (w : Option (Except (ℕ × Err) Pos)) : Prop :=
  match r with
  | some p => w = some (.ok p)
  | none => ∃ e, w = some (.error e)

variable {fuel nhave : ℕ} {name : Name}

/-- What the rest of the loop does. -/
def Rest (cleanname : List Char → List Char) (pg : Pgrp) (lookup : Chan → Name → Option Qid) (ewalk : Chan → List Name → Option Walkqid)
    (nomount : Bool) (fuel : ℕ) : Prop :=
  ∀ (names : List Name) (p : Pos) (c : Chan) (path : Path) (mh : Option Mhead) (didmount : Bool) (nhave : ℕ), names.length ≤ fuel →
    (∀ n ∈ names, n ≠ ['.']) → Fine pg p → Sim pg nomount p names c path mh didmount →
    Agrees (refwalk cleanname pg lookup nomount p names) (walkloop cleanname pg ewalk nomount fuel c path mh didmount nhave names)

theorem walkloop_dotdot (hit : Iterates lookup ewalk) (hcons : Consistent pg lookup) (hfine : Fine pg p) (ih : Rest cleanname pg lookup ewalk nomount fuel)
    (hfuel : (name :: names).length ≤ fuel + 1) (hdot : ∀ n ∈ name :: names, n ≠ ['.']) (hdir : p.c.qid.isdir = true)
    (hdd : isdotdot name = true) :
    Agrees (refwalk cleanname pg lookup nomount p (name :: names))
      (walkloop cleanname pg ewalk nomount (fuel + 1) p.c p.path none false nhave (name :: names)) := by
  have hname : name = ['.', '.'] := by simpa [isdotdot] using hdd
  have hmembers : (if nomount then [] else ((none : Option Mhead).map Mhead.next).getD []) = [] := by
    cases nomount <;> rfl
  rw [walkloop, refwalk_cons, refstep, if_pos hdd]
  simp only [hdir, Bool.not_true, Bool.false_eq_true, if_false, ntry_dotdot names hdd, Bool.false_and, hmembers, if_true,
    List.take_succ_cons, List.take_zero, List.drop_succ_cons, List.drop_zero]
  rcases unionwalk_spec hit name [] [p.c] with ⟨hchild, hwalk⟩ | ⟨m, q, wq, hq, hchild, hwalk, hqid, hclone⟩
  · simp only [List.findSome?_cons, List.findSome?_nil] at hchild
    have hnone : child lookup p.c name = none := by
      cases hc : child lookup p.c name with
      | none => rfl
      | some c => simp [hc] at hchild
    rw [hnone, hwalk]
    exact ⟨_, rfl⟩
  · have hsome : child lookup p.c name = some ⟨m.dc, m.devno, q⟩ := by
      simp only [List.findSome?_cons, List.findSome?_nil] at hchild
      cases hc : child lookup p.c name with
      | none => simp [hc] at hchild
      | some c =>
        rw [hc] at hchild
        exact hchild
    simp only [hqid, qids, List.length_nil, if_true, List.getLast?_singleton, Option.map_some] at hclone
    rw [hsome, hwalk]
    simp only [hqid, qids, hclone, Option.map_some, Option.bind_some]
    rw [hname]
    apply ih
    · exact Nat.le_of_succ_le_succ hfuel
    · exact fun n hn => hdot n (List.mem_cons_of_mem _ hn)
    · exact undomount_fine (hcons.found m name q hq) fun c hc => hfine.path c (mem_addelem hc)
    · exact Sim.front

theorem walkloop_ordinary (hit : Iterates lookup ewalk) (hcons : Consistent pg lookup) (hfine : Fine pg p) (ih : Rest cleanname pg lookup ewalk nomount fuel)
    (hfuel : (name :: names).length ≤ fuel + 1) (hdot : ∀ n ∈ name :: names, n ≠ ['.']) (hdir : c.qid.isdir = true)
    (hdd : isdotdot name = false) (sim : Sim pg nomount p (name :: names) c path mh didmount) :
    Agrees (refwalk cleanname pg lookup nomount p (name :: names))
      (walkloop cleanname pg ewalk nomount (fuel + 1) c path mh didmount nhave (name :: names)) := by
  obtain ⟨m, htry, hm, hbatch⟩ := ntry_ordinary names hdd
  have hcross := sim.cross
  rw [walkloop, refwalk_cons, refstep]
  simp only [hdir, Bool.not_true, Bool.false_eq_true, if_false, htry, hdd] at hcross ⊢
  generalize (if (!false && !nomount && !didmount) = true then domount pg c mh path else (c, mh, path)) = x at hcross ⊢
  rw [← hcross]
  have htake : (name :: names).take (m + 1) = name :: names.take m := List.take_succ_cons
  have hlen : (names.take m).length = m := by
    rw [List.length_take]
    omega
  rw [htake]
  rcases unionwalk_spec hit name (names.take m) (x.1 :: if nomount then [] else (x.2.1.map Mhead.next).getD []) with
    ⟨hchild, hwalk⟩ | ⟨f, q, wq, hq, hchild, hwalk, hqid, hclone⟩
  · rw [hchild, hwalk]
    exact ⟨_, rfl⟩
  · rw [hchild, hwalk]
    simp only [Option.map_some, Option.bind_some, Nat.add_sub_cancel]
    have hfound : ∀ q' ∈ wq.qid, Alike pg ⟨f.dc, f.devno, q'⟩ := by
      intro q' hq'
      rw [hqid] at hq'
      rcases List.mem_cons.mp hq' with rfl | hq'
      · exact hcons.found f name q' hq
      · have halike := found_qids hcons hq'
        exact halike
    have hpaths : ∀ l c, some c ∈ (addelems cleanname none l (addelem cleanname x.2.2 name none)).mtpt → Alike pg c := by
      intro l c hc
      apply cross_fine hcons hfine c
      rw [← hcross]
      exact mem_addelem (mem_addelems hc)
    have hdots : ∀ j, ∀ n ∈ name :: names.take j, n ≠ ['.'] := by
      intro j n hn
      exact hdot n (List.cons_subset_cons _ (List.take_subset ..) hn)
    have hrun := refwalk_batch cleanname pg lookup nomount (names.drop m) hbatch ⟨f.dc, f.devno, q⟩ (addelem cleanname x.2.2 name none) 0
    rw [hlen, List.take_append_drop] at hrun
    dsimp only at hrun
    rw [← hqid] at hrun
    rw [show (if nomount then none else alongway pg f.dc f.devno 0 (wq.qid.take m)) = stops pg nomount f.dc f.devno 0 (wq.qid.take m) from rfl]
    generalize stops pg nomount f.dc f.devno 0 (wq.qid.take m) = r at hrun ⊢
    cases r with
    | some y =>
      obtain ⟨k, nmh⟩ := y
      obtain ⟨j, q', hk, hj, hq', hmt, href⟩ := hrun
      obtain rfl : k = j := hk.trans (Nat.zero_add j)
      have hdrop : (names.take m).drop k ++ names.drop m = names.drop k := by
        rw [← List.drop_append_of_le_length (by omega), List.take_append_drop]
      have hkn : k < names.length := by omega
      have hcons : names.drop k = names[k] :: names.drop (k + 1) := List.drop_eq_getElem_cons hkn
      have hord : isdotdot names[k] = false := hbatch _ (List.mem_take_iff_getElem.mpr ⟨k, by omega, rfl⟩)
      have hpath : (addelems cleanname none ((names.take m).take k) (addelem cleanname x.2.2 name none)).setlast nmh.mfrom =
          addelems cleanname nmh.mfrom ((name :: names).take (k + 1)) x.2.2 := by
        rw [← addelems_cons, List.take_take, Nat.min_eq_left (by omega), List.take_succ_cons]
        apply setlast_addelems
        · exact List.cons_ne_nil _ _
        · exact hdots k
        · intro n hn
          rcases List.mem_cons.mp hn with rfl | hn
          · exact hdd
          · exact hbatch n ((List.take_subset_take_left names (by omega)) hn)
      rw [href, hdrop]
      simp only [← hpath, List.drop_succ_cons]
      apply ih
      · rw [List.length_drop]
        simp only [List.length_cons] at hfuel
        omega
      · exact fun n hn => hdot n (List.mem_cons_of_mem _ (List.mem_of_mem_drop hn))
      · exact ⟨hfound q' hq', hpaths _⟩
      · exact Sim.behind nmh names[k] (names.drop (k + 1)) hmt hcons hord
    | none =>
      rw [hlen] at hclone
      simp only at hrun ⊢
      split at hrun
      · rename_i hall
        obtain ⟨q', hlast, href⟩ := hrun
        rw [if_pos hall, hlast, Option.map_some] at hclone
        have hwlen : wq.qid.length = m + 1 := by
          rw [hqid, List.length_cons, hall]
        rw [href, hclone]
        simp only [hwlen, htake, addelems_cons, List.drop_succ_cons]
        apply ih
        · rw [List.length_drop]
          simp only [List.length_cons] at hfuel
          omega
        · exact fun n hn => hdot n (List.mem_cons_of_mem _ (List.mem_of_mem_drop hn))
        · exact ⟨hfound q' (List.mem_of_getLast? hlast), hpaths _⟩
        · exact Sim.front
      · rename_i hall
        rw [if_neg hall] at hclone
        rw [hrun, hclone]
        simp only
        split <;> exact ⟨_, rfl⟩

theorem walkloop_sim (hit : Iterates lookup ewalk) (hcons : Consistent pg lookup) (fuel : ℕ) : Rest cleanname pg lookup ewalk nomount fuel := by
  induction fuel with
  | zero =>
    intro names p c path mh didmount nhave hfuel hdot hfine sim
    cases names with
    | cons n l => exact absurd hfuel (by simp)
    | nil =>
      cases sim with
      | front => exact rfl
      | behind _ _ _ _ hnames => exact nomatch hnames
  | succ fuel ih =>
    intro names p c path mh didmount nhave hfuel hdot hfine sim
    cases names with
    | nil =>
      cases sim with
      | front => exact rfl
      | behind _ _ _ _ hnames => exact nomatch hnames
    | cons name names =>
      cases hdir : c.qid.isdir with
      | false =>
        rw [walkloop, refwalk_cons, refstep_file hit hfine ((sim.isdir hfine).symm.trans hdir)]
        simp only [hdir]
        exact ⟨_, rfl⟩
      | true =>
        cases hdd : isdotdot name with
        | true =>
          cases sim with
          | front => exact walkloop_dotdot hit hcons hfine ih hfuel hdot hdir hdd
          | behind _ _ _ _ hnames hord =>
            cases hnames
            exact absurd (hdd.symm.trans hord) (by decide)
        | false => exact walkloop_ordinary hit hcons hfine ih hfuel hdot hdir hdd sim

end Simulation

section Names

theorem skipslash_head {l r : List Char} {x : Char} (h : skipslash l = x :: r) :
    x ≠ '/' ∧ (x = '.' → r ≠ [] ∧ r.head? ≠ some '/') := by
  fun_induction skipslash l with
  | case1 l ih => exact ih h
  | case2 => cases h
  | case3 l ih => exact ih h
  | case4 l hslash hdot hdots =>
    subst h
    refine ⟨fun hx => hslash r (by rw [hx]), fun hx => ⟨fun hr => hdot (by rw [hx, hr]), fun hr => ?_⟩⟩
    obtain ⟨r', rfl⟩ := List.head?_eq_some_iff.mp hr
    exact hdots r' (by rw [hx])

/-- Callers do not give `walk` an empty name or a dot. -/
theorem parsename_proper (name : List Char) : ∀ n ∈ parsename name, n ≠ [] ∧ '/' ∉ n ∧ n ≠ ['.'] := by
  fun_induction parsename name with
  | case1 => simp
  | case2 name x l h ih =>
    obtain ⟨hslash, hdot⟩ := skipslash_head h
    intro n hn
    rcases List.mem_cons.mp hn with rfl | hn
    · refine ⟨?_, fun hmem => by simpa using List.all_eq_true.mp List.all_takeWhile _ hmem, ?_⟩
      all_goals rw [List.takeWhile_cons_of_pos (by simpa using hslash)]
      · exact List.cons_ne_nil _ _
      · intro heq
        obtain ⟨rfl, hl⟩ := List.cons.inj heq
        obtain ⟨hne, hhead⟩ := hdot rfl
        obtain ⟨y, l', rfl⟩ := List.exists_cons_of_ne_nil hne
        rw [List.takeWhile_cons_of_pos (by simpa using hhead)] at hl
        cases hl
    · split at hn
      · cases hn
      · rename_i y rest hr
        exact ih y rest hr n hn

theorem parsename_append {e rest : List Char} (hne : e ≠ []) (hslash : '/' ∉ e) (hdot : e ≠ ['.']) :
    parsename (e ++ '/' :: rest) = e :: parsename rest := by
  obtain ⟨x, l, rfl⟩ := List.exists_cons_of_ne_nil hne
  have hskip : skipslash (x :: l ++ '/' :: rest) = x :: l ++ '/' :: rest := by
    generalize hs : x :: l ++ '/' :: rest = s
    fun_cases skipslash s with
    | case1 => simp_all
    | case2 => simp_all
    | case3 => cases l <;> simp_all
    | case4 => rfl
  have hall : ∀ y ∈ x :: l, decide (y ≠ '/') = true := fun y hy => decide_eq_true (ne_of_mem_of_not_mem hy hslash)
  have htake : (x :: l ++ '/' :: rest).takeWhile (· ≠ '/') = x :: l :=
    (List.takeWhile_append_of_pos hall).trans (List.append_nil _)
  have hdrop : (x :: l ++ '/' :: rest).dropWhile (· ≠ '/') = '/' :: rest := List.dropWhile_append_of_pos hall
  rw [parsename]
  split
  · rename_i h
    cases hskip.symm.trans h
  · rename_i y m h
    rw [← h.symm.trans hskip] at htake hdrop
    rw [htake]
    split
    · rename_i h'
      cases hdrop.symm.trans h'
    · rename_i h'
      rw [(List.cons.inj (hdrop.symm.trans h')).2]

/-- The lists that `parsename` gives are those of proper names. -/
theorem parsename_iff (names : List Name) :
    (∃ name, parsename name = names) ↔ ∀ n ∈ names, n ≠ [] ∧ '/' ∉ n ∧ n ≠ ['.'] := by
  constructor
  · rintro ⟨name, rfl⟩
    exact parsename_proper name
  · intro h
    refine ⟨names.flatMap (· ++ ['/']), ?_⟩
    induction names with
    | nil => simp [parsename, skipslash]
    | cons n names ih =>
      obtain ⟨hne, hslash, hdot⟩ := h n List.mem_cons_self
      rw [List.flatMap_cons, List.append_assoc, List.singleton_append, parsename_append hne hslash hdot,
        ih fun m hm => h m (List.mem_cons_of_mem _ hm)]

end Names

section Main

theorem walk_batched (hit : Iterates lookup ewalk) (hcons : Consistent pg lookup) (cp : Pos) (hfine : Fine pg cp) (names : List Name)
    (hdot : ∀ n ∈ names, n ≠ ['.']) :
    ∃ r, walk cleanname pg ewalk cp names nomount = some r ∧
      match refwalk cleanname pg lookup nomount cp names with
      | some p => r.ret = 0 ∧ r.cp = p
      | none => r.ret = -1 ∧ r.cp = cp := by
  have hsim : Agrees (refwalk cleanname pg lookup nomount cp names) _ :=
    walkloop_sim hit hcons names.length names cp cp.c cp.path none false 0 (Nat.le_refl _) hdot hfine Sim.front
  rw [walk]
  cases href : refwalk cleanname pg lookup nomount cp names with
  | some p =>
    rw [href, Agrees] at hsim
    rw [hsim]
    exact ⟨_, rfl, rfl, rfl⟩
  | none =>
    rw [href, Agrees] at hsim
    obtain ⟨e, he⟩ := hsim
    rw [he]
    exact ⟨_, rfl, rfl, rfl⟩

/-- A device whose walks are lookups one after another. -/
def iterated (lookup : Chan → Name → Option Qid) (c : Chan) (names : List Name) : Option Walkqid :=
  match qids lookup c names with
  | [] => none
  | l => some ⟨l, if l.length = names.length then l.getLast?.map fun q => ⟨c.dc, c.devno, q⟩ else none⟩

theorem iterated_iterates (hdir : ∀ c n q, lookup c n = some q → c.qid.isdir = true) : Iterates lookup (iterated lookup) := by
  refine ⟨fun c n l h => ?_, fun c n l q h => ?_, hdir⟩
  · simp [iterated, qids, h]
  · refine ⟨⟨qids lookup c (n :: l), if (qids lookup c (n :: l)).length = l.length + 1 then
      (qids lookup c (n :: l)).getLast?.map fun q => ⟨c.dc, c.devno, q⟩ else none⟩, ?_, rfl, rfl⟩
    simp [iterated, qids, h]

/-- A directory, and another device that is mounted on the `a` in it. -/
def mountedtree (c : Chan) (n : Name) : Option Qid :=
  if c.qid.isdir = false then none
  else if c.dc = 0 then (if n = ['a'] then some ⟨1, 0, QTDIR⟩ else none)
  else if n = ['b'] then some ⟨2, 0, QTDIR⟩
  else if isdotdot n then some ⟨0, 0, QTDIR⟩
  else none

def mountedtable : Pgrp := fun h => if h = 1 then [⟨some ⟨0, 0, ⟨1, 0, QTDIR⟩⟩, ⟨1, 0, ⟨0, 0, QTDIR⟩⟩, []⟩] else []

theorem walk_batched_mount :
    ∃ r, walk id mountedtable (iterated mountedtree) ⟨⟨0, 0, ⟨0, 0, QTDIR⟩⟩, ⟨['/'], [none]⟩⟩ [['a'], ['b'], ['.', '.'], ['b']] false = some r ∧
      r.ret = 0 ∧ r.cp.c = ⟨1, 0, ⟨2, 0, QTDIR⟩⟩ := by
  have hdir : ∀ c n q, mountedtree c n = some q → c.qid.isdir = true := by
    intro c n q h
    by_contra hc
    rw [mountedtree, if_pos (Bool.eq_false_iff.mpr hc)] at h
    exact nomatch h
  have hqid : ∀ path, (⟨path, 0, QTDIR⟩ : Qid).isdir = true := by
    intro path
    simp [Qid.isdir, QTDIR]
  have hall : ∀ c : Chan, c.qid.isdir = true → Alike mountedtable c := by
    intro c hc mh hmh m hm
    have hmem := List.mem_of_find?_eq_some hmh
    rw [MOUNTH, mountedtable] at hmem
    split at hmem
    · rw [List.mem_singleton.mp hmem] at hm
      rw [List.mem_singleton.mp hm, hc]
      rfl
    · exact nomatch hmem
  have hcons : Consistent mountedtable mountedtree := by
    refine ⟨fun h mh c hmh hc => ?_, fun c n q h => hall _ ?_⟩
    · rw [mountedtable] at hmh
      split at hmh
      · rw [List.mem_singleton.mp hmh] at hc
        cases hc
        exact hall _ rfl
      · exact nomatch hmh
    · rw [mountedtree] at h
      split at h
      · exact nomatch h
      · split at h <;> split at h
        · cases h
          exact hqid 1
        · exact nomatch h
        · cases h
          exact hqid 2
        · split at h
          · cases h
            exact hqid 0
          · exact nomatch h
  have hfine : Fine mountedtable ⟨⟨0, 0, ⟨0, 0, QTDIR⟩⟩, ⟨['/'], [none]⟩⟩ := ⟨hall _ rfl, fun c hc => nomatch List.mem_singleton.mp hc⟩
  obtain ⟨r, hr, h⟩ := walk_batched (iterated_iterates hdir) hcons _ hfine [['a'], ['b'], ['.', '.'], ['b']] (by decide)
  exact ⟨r, hr, h.1, h.2 ▸ rfl⟩

end Main

end Petele.Walk
