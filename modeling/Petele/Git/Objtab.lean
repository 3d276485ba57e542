import Petele.Git.Objset
import Petele.Git.Delta
import Mathlib.Data.Finset.Card
import Mathlib.Data.List.Dedup

namespace Petele.Git

open Lib Probe

/-- Why `osadd` does not return: a walk over the table that does not end, or `sysfatal` in
`eamalloc`. -/
inductive Stop
  | probes
  | alloc
  deriving DecidableEq

/-- `struct Objset` with the objects themselves in the slots. -/
structure Objtab (α : Type) where
  obj : List (Option α)
  nobj : ℕ

namespace Objtab

variable {α : Type}

def sz (s : Objtab α) : ℕ := s.obj.length

/-- `sizeof(Object*)`. -/
def sizeofptr : ℕ := 8

def osinit : Objtab α := ⟨List.replicate 16 none, 0⟩

/-- The objects in the order of the table. -/
def list (s : Objtab α) : List α := s.obj.filterMap id

variable (hash : α → Hash)

/-- The loops of `osadd` and `osfind` over the slots. -/
def slot (s : Objtab α) (h : Hash) : Except Stop ℕ :=
  match probe (fun o => hash o == h) s.obj s.sz (getbe32 h.h % s.sz) with
  | none => .error .probes
  | some k => .ok k

/-- The end of `osadd` where the table doubles. -/
def grow (add : Objtab α → α → Except Stop (Objtab α)) (s : Objtab α) : Except Stop (Objtab α) :=
  match eamalloc (2 * s.sz) sizeofptr with
  | none => .error .alloc
  | some _ => s.obj.foldlM (fun t o => match o with
    | none => .ok t
    | some o => add t o) ⟨List.replicate (2 * s.sz) none, 0⟩

/-- `osadd`; the first argument bounds the calls it makes to itself. -/
def osaddn : ℕ → Objtab α → α → Except Stop (Objtab α)
  | 0, _, _ => .error .probes
  | depth + 1, s, o => do
    let k ← slot hash s (hash o)
    match s.obj[k]? with
    | some none =>
      let s : Objtab α := ⟨s.obj.set k (some o), s.nobj + 1⟩
      if s.sz < 2 * s.nobj then grow (osaddn depth) s else .ok s
    | _ => .ok ⟨s.obj.set k (some o), s.nobj⟩

def osadd (s : Objtab α) (o : α) : Except Stop (Objtab α) := osaddn hash 2 s o

def osfind (s : Objtab α) (h : Hash) : Except Stop (Option α) := do
  let k ← slot hash s h
  return s.obj.getD k none

/-- The set of hashes that a table of objects is. -/
def erase (s : Objtab α) : Objset := ⟨s.obj.map (Option.map hash), s.nobj⟩

section

variable {hash} {s : Objtab α} {o x : α} {h : Hash}

@[simp] theorem mem_list : o ∈ s.list ↔ some o ∈ s.obj := by
  simp [list]

@[simp] theorem erase_sz : (s.erase hash).sz = s.sz := by
  rw [Objset.sz, erase, List.length_map, sz]

@[simp] theorem erase_nobj : (s.erase hash).nobj = s.nobj := rfl

theorem mem_erase : h ∈ s.erase hash ↔ ∃ o ∈ s.list, hash o = h := by
  simp [Objset.mem_def, erase]

theorem probe_map (t : List (Option α)) (fuel i : ℕ) :
    probe (· == h) (t.map (Option.map hash)) fuel i = probe (fun o => hash o == h) t fuel i := by
  induction fuel generalizing i with
  | zero => rfl
  | succ fuel ih =>
    rw [probe, probe, List.getElem?_map, List.length_map]
    cases t[i]? with
    | none => rfl
    | some y =>
      cases y with
      | none => rfl
      | some a => simp only [Option.map_some, ih]

/-- Objects are found by their hashes, so a walk over them is one over the hashes. -/
theorem slot_ok {k : ℕ} : slot hash s h = .ok k ↔ osslot (s.erase hash) h = .ok k := by
  have hmap : probe (· == h) (s.erase hash).obj (s.erase hash).sz (getbe32 h.h % (s.erase hash).sz) =
      probe (fun o => hash o == h) s.obj s.sz (getbe32 h.h % s.sz) := by
    rw [erase_sz]
    exact probe_map s.obj s.sz _
  rw [slot, osslot, hmap]
  cases probe (fun o => hash o == h) s.obj s.sz (getbe32 h.h % s.sz) with
  | none => simp
  | some j => simp

/-- The slot a walk ends at: that of the one object with the hash, or an empty one. -/
theorem slot_cases (hok : (s.erase hash).Ok) (h : Hash) :
    (∃ k a, slot hash s h = .ok k ∧ s.obj[k]? = some (some a) ∧ hash a = h) ∨
    ((∀ a ∈ s.list, hash a ≠ h) ∧ ∃ k, slot hash s h = .ok k ∧ s.obj[k]? = some none) := by
  rcases osslot_cases hok h with ⟨-, k, hslot, hk⟩ | ⟨hnot, k, hslot, hk⟩
  · rw [erase, List.getElem?_map, Option.map_eq_some_iff] at hk
    obtain ⟨y, hy, hhash⟩ := hk
    obtain ⟨a, rfl, ha⟩ := Option.map_eq_some_iff.mp hhash
    exact .inl ⟨k, a, slot_ok.mpr hslot, hy, ha⟩
  · rw [erase, List.getElem?_map, Option.map_eq_some_iff] at hk
    obtain ⟨y, hy, hhash⟩ := hk
    rw [Option.map_eq_none_iff] at hhash
    subst hhash
    refine .inr ⟨fun a ha heq => hnot (mem_erase.mpr ⟨a, ha, heq⟩), k, slot_ok.mpr hslot, hy⟩

/-- Two slots do not hold the same hash. -/
theorem slot_unique (hok : (s.erase hash).Ok) {j k : ℕ} {a : α} (hslot : slot hash s h = .ok k)
    (hj : s.obj[j]? = some (some a)) (ha : hash a = h) : j = k := by
  have hfound := hok.found j h (by rw [erase, List.getElem?_map, hj, ← ha]; rfl)
  rw [slot_ok, osslot, hfound] at hslot
  exact Except.ok.inj hslot

theorem hashes_nodup (hok : (s.erase hash).Ok) : (s.list.map hash).Nodup := by
  have hlist : (s.erase hash).list = s.list.map hash := by
    rw [Objset.list, erase, list, List.filterMap_map, List.map_filterMap]
    rfl
  rw [← hlist]
  exact hok.list_nodup

theorem length_list : s.list.length = entries s.obj := by
  rw [list, entries, List.countP_eq_length_filter, List.length_filterMap_eq_countP,
    List.countP_eq_length_filter]
  rfl

theorem entries_erase : entries (s.erase hash).obj = entries s.obj := by
  rw [entries, erase, List.countP_map, entries]
  congr 1
  funext y
  cases y <;> rfl

/-- A new object takes an empty slot. -/
theorem mem_fill {k n : ℕ} (hk : s.obj[k]? = some none) :
    x ∈ (⟨s.obj.set k (some o), n⟩ : Objtab α).list ↔ x = o ∨ x ∈ s.list := by
  obtain ⟨hlt, -⟩ := List.getElem?_eq_some_iff.mp hk
  rw [mem_list, mem_list]
  constructor
  · exact fun hx => mem_set hx
  · rintro (rfl | hx)
    · exact List.mem_set hlt _
    · obtain ⟨j, hj⟩ := List.mem_iff_getElem?.mp hx
      have hne : k ≠ j := by
        rintro rfl
        rw [hk] at hj
        cases hj
      exact List.mem_of_getElem? (i := j) (by rw [List.getElem?_set_ne hne, hj])

/-- `osadd` adds `o` and drops what had its hash. -/
def Adds (hash : α → Hash) (s : Objtab α) (o : α) (s' : Objtab α) : Prop :=
  ∀ x, x ∈ s'.list ↔ x = o ∨ x ∈ s.list ∧ hash x ≠ hash o

theorem adds_new (hnot : ∀ a ∈ s.list, hash a ≠ hash o) {s' : Objtab α}
    (hmem : ∀ x, x ∈ s'.list ↔ x = o ∨ x ∈ s.list) : Adds hash s o s' := by
  intro x
  rw [hmem]
  exact or_congr_right ⟨fun hx => ⟨hx, hnot x hx⟩, And.left⟩

/-- The object with the hash of `o` is replaced in its slot. -/
theorem osaddn_replace (hok : (s.erase hash).Ok) (depth : ℕ) {k : ℕ} {a : α}
    (hslot : slot hash s (hash o) = .ok k) (hk : s.obj[k]? = some (some a)) (ha : hash a = hash o) :
    ∃ s', osaddn hash (depth + 1) s o = .ok s' ∧ s'.erase hash = s.erase hash ∧ Adds hash s o s' := by
  obtain ⟨hlt, hget⟩ := List.getElem?_eq_some_iff.mp hk
  refine ⟨⟨s.obj.set k (some o), s.nobj⟩, ?_, ?_, ?_⟩
  · rw [osaddn, hslot]
    simp only [bind, Except.bind, hk]
  · rw [erase, erase, List.map_set, Option.map_some, ← ha]
    congr 1
    apply List.ext_getElem?
    intro j
    rw [List.getElem?_set, List.length_map]
    split
    · rename_i hj
      subst hj
      rw [List.getElem?_map, hk]
      rfl
    · rfl
  · intro x
    rw [mem_list, mem_list]
    constructor
    · intro hx
      obtain ⟨j, hj⟩ := List.mem_iff_getElem?.mp hx
      by_cases hkj : k = j
      · subst hkj
        rw [List.getElem?_set_self hlt] at hj
        exact .inl (Option.some.inj (Option.some.inj hj)).symm
      · rw [List.getElem?_set_ne hkj] at hj
        refine .inr ⟨List.mem_of_getElem? hj, fun heq => hkj ?_⟩
        exact (slot_unique hok hslot hj heq).symm
    · rintro (rfl | ⟨hx, hne⟩)
      · exact List.mem_set hlt _
      · obtain ⟨j, hj⟩ := List.mem_iff_getElem?.mp hx
        have hkj : k ≠ j := by
          rintro rfl
          rw [hk] at hj
          cases hj
          exact hne ha
        exact List.mem_of_getElem? (i := j) (by rw [List.getElem?_set_ne hkj, hj])

/-- An empty slot is filled. -/
theorem fill_ok (hok : (s.erase hash).Ok) {k : ℕ} (hslot : slot hash s (hash o) = .ok k)
    (hk : s.obj[k]? = some none) (hroom : 2 * (s.nobj + 1) ≤ s.sz) :
    (Objtab.erase hash ⟨s.obj.set k (some o), s.nobj + 1⟩).Ok := by
  have hfill := hok.fill (slot_ok.mp hslot) (by rw [erase, List.getElem?_map, hk]; rfl)
    (by rw [erase_sz]; exact hroom)
  rwa [erase, List.map_set]

theorem fill_distinct (hok : (s.erase hash).Ok) (hnot : ∀ a ∈ s.list, hash a ≠ hash o) {k : ℕ}
    (hk : s.obj[k]? = some none) : (((s.obj.set k (some o)).filterMap id).map hash).Nodup := by
  obtain ⟨hlt, hget⟩ := List.getElem?_eq_some_iff.mp hk
  have hsplit : s.obj = s.obj.take k ++ none :: s.obj.drop (k + 1) := by
    rw [← hget, List.cons_getElem_drop_succ, List.take_append_drop]
  have hlist : s.list = (s.obj.take k).filterMap id ++ (s.obj.drop (k + 1)).filterMap id := by
    rw [list]
    nth_rewrite 1 [hsplit]
    rw [List.filterMap_append, List.filterMap_cons_none (by rfl)]
  have hset : (s.obj.set k (some o)).filterMap id =
      (s.obj.take k).filterMap id ++ o :: (s.obj.drop (k + 1)).filterMap id := by
    rw [List.set_eq_take_cons_drop _ hlt, List.filterMap_append, List.filterMap_cons_some (by rfl)]
  have hnodup := hashes_nodup hok
  rw [hlist, List.map_append] at hnodup
  rw [hset, List.map_append, List.map_cons, List.nodup_middle, List.nodup_cons]
  refine ⟨?_, hnodup⟩
  rw [← List.map_append, ← hlist]
  intro hmem
  obtain ⟨a, ha, heq⟩ := List.mem_map.mp hmem
  exact hnot a ha heq

/-- `osadd` on a table that need not grow. -/
theorem osaddn_small (hok : (s.erase hash).Ok) (depth : ℕ) (hroom : 2 * (s.nobj + 1) ≤ s.sz) (o : α) :
    ∃ s', osaddn hash (depth + 1) s o = .ok s' ∧ (s'.erase hash).Ok ∧ s'.sz = s.sz ∧
      s'.nobj ≤ s.nobj + 1 ∧ Adds hash s o s' := by
  rcases slot_cases hok (hash o) with ⟨k, a, hslot, hk, ha⟩ | ⟨hnot, k, hslot, hk⟩
  · obtain ⟨s', hadd, herase, hadds⟩ := osaddn_replace hok depth hslot hk ha
    have hsz : s'.sz = s.sz := by rw [← @erase_sz _ hash, herase, erase_sz]
    have hnobj : s'.nobj = s.nobj := congrArg Objset.nobj herase
    exact ⟨s', hadd, by rw [herase]; exact hok, hsz, by omega, hadds⟩
  · have hsz : sz ⟨s.obj.set k (some o), s.nobj + 1⟩ = s.sz := by
      rw [sz, List.length_set, sz]
    refine ⟨⟨s.obj.set k (some o), s.nobj + 1⟩, ?_, fill_ok hok hslot hk hroom, hsz, Nat.le_refl _,
      adds_new hnot fun x => mem_fill hk⟩
    rw [osaddn, hslot]
    simp only [bind, Except.bind, hk, hsz, if_neg (Nat.not_lt.mpr hroom)]

/-- The objects of an old table go into one with room for them. -/
theorem grow_fold (depth : ℕ) (l : List (Option α)) (t : Objtab α) (hok : (t.erase hash).Ok)
    (hroom : 2 * (t.nobj + entries l) ≤ t.sz) (hdistinct : ((l.filterMap id).map hash).Nodup)
    (hnew : ∀ x ∈ t.list, ∀ y, some y ∈ l → hash x ≠ hash y) :
    ∃ t', l.foldlM (fun t o => match o with
        | none => .ok t
        | some o => osaddn hash (depth + 1) t o) t = Except.ok t' ∧ (t'.erase hash).Ok ∧
      ∀ x, x ∈ t'.list ↔ some x ∈ l ∨ x ∈ t.list := by
  induction l generalizing t with
  | nil => exact ⟨t, rfl, hok, by simp⟩
  | cons y l ih =>
    cases y with
    | none =>
      obtain ⟨t', hfold, hok', hmem⟩ := ih t hok (by simpa [entries] using hroom)
        (by simpa using hdistinct) fun x hx y hy => hnew x hx y (List.mem_cons_of_mem _ hy)
      exact ⟨t', hfold, hok', fun x => by rw [hmem]; simp⟩
    | some y =>
      have hentries : entries (some y :: l) = entries l + 1 := by simp [entries]
      rw [hentries] at hroom
      rw [List.filterMap_cons_some (by rfl), List.map_cons, List.nodup_cons] at hdistinct
      obtain ⟨u, hadd, hoku, hszu, hnobj, hmemu⟩ := osaddn_small hok depth (by omega) y
      have hmemu' : ∀ x, x ∈ u.list ↔ x = y ∨ x ∈ t.list := by
        intro x
        rw [hmemu]
        exact or_congr_right (and_iff_left_of_imp fun hx => hnew x hx y List.mem_cons_self)
      have hnewu : ∀ x ∈ u.list, ∀ z, some z ∈ l → hash x ≠ hash z := by
        intro x hx z hz
        rcases (hmemu' x).mp hx with rfl | hx
        · intro heq
          apply hdistinct.1
          rw [heq]
          exact List.mem_map_of_mem (List.mem_filterMap.mpr ⟨some z, hz, rfl⟩)
        · exact hnew x hx z (List.mem_cons_of_mem _ hz)
      obtain ⟨t', hfold, hok', hmem⟩ := ih u hoku (by omega) hdistinct.2 hnewu
      refine ⟨t', ?_, hok', ?_⟩
      · rw [List.foldlM_cons]
        simp only [hadd, bind, Except.bind]
        exact hfold
      · intro x
        rw [hmem, hmemu', List.mem_cons, Option.some.injEq]
        tauto

/-- `osadd` keeps the table in order, unless the table would pass the bound of `eamalloc`. -/
theorem osadd_cases (hok : (s.erase hash).Ok) (o : α) :
    (∃ s', osadd hash s o = .ok s' ∧ (s'.erase hash).Ok ∧ Adds hash s o s') ∨
    (osadd hash s o = .error .alloc ∧ 2 ^ 25 < s.nobj + 1 ∧ ∀ a ∈ s.list, hash a ≠ hash o) := by
  by_cases hroom : 2 * (s.nobj + 1) ≤ s.sz
  · obtain ⟨s', hadd, hok', -, -, hadds⟩ := osaddn_small hok 1 hroom o
    exact .inl ⟨s', hadd, hok', hadds⟩
  · rcases slot_cases hok (hash o) with ⟨k, a, hslot, hk, ha⟩ | ⟨hnot, k, hslot, hk⟩
    · obtain ⟨s', hadd, herase, hadds⟩ := osaddn_replace hok 1 hslot hk ha
      exact .inl ⟨s', hadd, by rw [herase]; exact hok, hadds⟩
    · have hsz : sz ⟨s.obj.set k (some o), s.nobj + 1⟩ = s.sz := by
        rw [sz, List.length_set, sz]
      have hadd : osadd hash s o = grow (osaddn hash 1) ⟨s.obj.set k (some o), s.nobj + 1⟩ := by
        rw [osadd, osaddn, hslot]
        simp only [bind, Except.bind, hk, hsz, if_pos (Nat.not_le.mp hroom)]
      rw [hadd, grow, hsz, eamalloc]
      by_cases hbig : 2 ^ 30 ≤ 2 * s.sz * sizeofptr
      · rw [if_pos hbig]
        have hptr : sizeofptr = 8 := rfl
        rw [hptr] at hbig
        exact .inr ⟨rfl, by omega, hnot⟩
      · rw [if_neg hbig]
        -- The table with the new object in it is copied into one of double size.
        have hcount : entries s.obj = s.nobj := entries_erase.symm.trans hok.count
        have hbound : 2 * s.nobj ≤ s.sz := by simpa using hok.room
        have hpos : 2 ≤ s.sz := by simpa using hok.pos
        have hentries : entries (s.obj.set k (some o)) = s.nobj + 1 := by
          rw [entries_set hk, hcount]
        have hempty : (Objtab.erase hash ⟨List.replicate (2 * s.sz) none, 0⟩).Ok := by
          rw [erase, List.map_replicate]
          exact empty_ok (by omega)
        have hnew : sz ⟨List.replicate (2 * s.sz) (none : Option α), 0⟩ = 2 * s.sz :=
          List.length_replicate
        obtain ⟨t, hfold, hokt, hmem⟩ := grow_fold 0 (s.obj.set k (some o))
          ⟨List.replicate (2 * s.sz) none, 0⟩ hempty (by rw [hentries, hnew]; dsimp only; omega)
          (fill_distinct hok hnot hk) (by simp)
        refine .inl ⟨t, hfold, hokt, adds_new hnot fun x => ?_⟩
        have hfill := mem_fill (n := 0) (o := o) (x := x) hk
        rw [mem_list] at hfill
        rw [hmem, hfill]
        simp

/-- The objects added one after the other. -/
def osadds (hash : α → Hash) (l : List α) : Except Stop (Objtab α) := l.foldlM (osadd hash) osinit

/-- The last object of `l` with the hash. -/
def latest (hash : α → Hash) (l : List α) (h : Hash) : Option α :=
  l.reverse.find? fun o => hash o == h

theorem latest_concat (l : List α) (o : α) (h : Hash) :
    latest hash (l ++ [o]) h = if hash o = h then some o else latest hash l h := by
  rw [latest, List.reverse_append, List.reverse_singleton, List.singleton_append, List.find?_cons,
    latest]
  by_cases heq : hash o = h
  · rw [if_pos heq, beq_iff_eq.mpr heq]
  · rw [if_neg heq, beq_eq_false_iff_ne.mpr heq]

/-- The table holds, for each hash, the object added last. -/
structure Holds (hash : α → Hash) (s : Objtab α) (l : List α) : Prop where
  ok : (s.erase hash).Ok
  mem : ∀ x, x ∈ s.list ↔ latest hash l (hash x) = some x

theorem Holds.init : Holds hash (osinit : Objtab α) [] where
  ok := by
    rw [osinit, erase, List.map_replicate]
    exact empty_ok (by decide)
  mem := by simp [osinit, latest]

theorem Holds.add {l : List α} {s' : Objtab α} (h : Holds hash s l) (hok : (s'.erase hash).Ok)
    (hadds : Adds hash s o s') : Holds hash s' (l ++ [o]) where
  ok := hok
  mem := by
    intro x
    rw [hadds, h.mem, latest_concat]
    by_cases heq : hash o = hash x
    · rw [if_pos heq, Option.some.injEq]
      exact ⟨fun hx => hx.elim Eq.symm fun hx => absurd heq.symm hx.2, fun hx => .inl hx.symm⟩
    · rw [if_neg heq]
      refine ⟨fun hx => hx.elim (fun hxo => absurd (by rw [hxo]) heq) And.left, fun hx => .inr ⟨hx, ?_⟩⟩
      exact fun hxo => heq hxo.symm

theorem latest_eq_none {l : List α} : latest hash l h = none ↔ h ∉ l.map hash := by
  simp [latest]

theorem latest_hash {l : List α} (hx : latest hash l h = some x) : hash x = h := by
  have := List.find?_some hx
  simpa using this

theorem Holds.find {l : List α} (hs : Holds hash s l) (h : Hash) :
    osfind hash s h = .ok (latest hash l h) := by
  rcases slot_cases hs.ok h with ⟨k, a, hslot, hk, ha⟩ | ⟨hnot, k, hslot, hk⟩
  · have hmem := (hs.mem a).mp (mem_list.mpr (List.mem_of_getElem? hk))
    rw [ha] at hmem
    rw [osfind, hslot, hmem]
    simp only [bind, Except.bind, pure, Except.pure, List.getD_eq_getElem?_getD, hk, Option.getD_some]
  · have hnone : latest hash l h = none := by
      cases hl : latest hash l h with
      | none => rfl
      | some x =>
        have hx := latest_hash hl
        exact absurd hx (hnot x ((hs.mem x).mpr (by rw [hx]; exact hl)))
    rw [osfind, hslot, hnone]
    simp only [bind, Except.bind, pure, Except.pure, List.getD_eq_getElem?_getD, hk, Option.getD_some]

theorem Holds.count {l : List α} (hs : Holds hash s l) : s.nobj = (l.map hash).toFinset.card := by
  have hlen : (s.list.map hash).length = s.nobj := by
    rw [List.length_map, length_list, ← @entries_erase _ hash]
    exact hs.ok.count
  rw [← hlen, ← List.toFinset_card_of_nodup (hashes_nodup hs.ok)]
  congr 1
  ext h
  rw [List.mem_toFinset, List.mem_toFinset]
  constructor
  · intro hh
    obtain ⟨x, hx, rfl⟩ := List.mem_map.mp hh
    have hlast := (hs.mem x).mp hx
    by_contra hnot
    rw [latest_eq_none.mpr hnot] at hlast
    cases hlast
  · intro hh
    cases hl : latest hash l h with
    | none => exact absurd hh (latest_eq_none.mp hl)
    | some x =>
      have hx := latest_hash hl
      refine List.mem_map.mpr ⟨x, (hs.mem x).mpr ?_, hx⟩
      rw [hx]
      exact hl

/-- A free slot is left. -/
theorem Holds.free {l : List α} (hs : Holds hash s l) : none ∈ s.obj := by
  have hroom : 2 * s.nobj ≤ s.sz := by simpa using hs.ok.room
  have hpos : 2 ≤ s.sz := by simpa using hs.ok.pos
  have hcount : entries s.obj = s.nobj := entries_erase.symm.trans hs.ok.count
  obtain ⟨j, hj⟩ := exists_empty (t := s.obj) (by
    rw [hcount]
    unfold sz at hroom hpos
    omega)
  exact List.mem_of_getElem? hj

theorem osadds_cases (hash : α → Hash) (l : List α) :
    (∃ s, osadds hash l = .ok s ∧ Holds hash s l) ∨
    (osadds hash l = .error .alloc ∧ 2 ^ 25 < (l.map hash).toFinset.card) := by
  induction l using List.reverseRecOn with
  | nil => exact .inl ⟨osinit, rfl, Holds.init⟩
  | append_singleton l o ih =>
    have hfold : osadds hash (l ++ [o]) = (osadds hash l).bind fun s => osadd hash s o := by
      rw [osadds, List.foldlM_append, osadds]
      simp only [List.foldlM_cons, List.foldlM_nil, bind, Except.bind, pure, Except.pure]
      cases l.foldlM (osadd hash) osinit with
      | error e => rfl
      | ok s =>
        dsimp only
        cases osadd hash s o <;> rfl
    have hcard : (l.map hash).toFinset.card ≤ ((l ++ [o]).map hash).toFinset.card := by
      apply Finset.card_le_card
      intro h hh
      rw [List.mem_toFinset, List.map_append]
      exact List.mem_append_left _ (List.mem_toFinset.mp hh)
    rw [hfold]
    rcases ih with ⟨s, hs, hholds⟩ | ⟨hstop, hmany⟩
    · rw [hs]
      rcases osadd_cases hholds.ok o with ⟨s', hadd, hok, hadds⟩ | ⟨hstop, hmany, hnot⟩
      · exact .inl ⟨s', hadd, hholds.add hok hadds⟩
      · refine .inr ⟨hstop, ?_⟩
        have hnew : hash o ∉ (l.map hash).toFinset := by
          rw [List.mem_toFinset, ← latest_eq_none]
          cases hl : latest hash l (hash o) with
          | none => rfl
          | some x =>
            have hx := latest_hash hl
            exact absurd hx (hnot x ((hholds.mem x).mpr (by rw [hx]; exact hl)))
        have hinsert : ((l ++ [o]).map hash).toFinset = insert (hash o) (l.map hash).toFinset := by
          ext h
          simp only [List.map_append, List.map_cons, List.map_nil, List.mem_toFinset, List.mem_append,
            List.mem_singleton, Finset.mem_insert]
          tauto
        rw [hinsert, Finset.card_insert_of_notMem hnew, ← hholds.count]
        exact hmany
    · rw [hstop]
      exact .inr ⟨rfl, Nat.lt_of_lt_of_le hmany hcard⟩

/-- After any objects have been added, each hash finds the one added last, `nobj` is the number of
hashes, the table holds each of these objects in one slot and no others, and a slot is free. No walk
over the slots goes on for ever: `osadd` stops only in `eamalloc`, past `2 ^ 25` hashes. -/
theorem objset_map (hash : α → Hash) (l : List α) :
    (∃ s, osadds hash l = .ok s ∧ (∀ h, osfind hash s h = .ok (latest hash l h)) ∧
      s.nobj = (l.map hash).toFinset.card ∧ none ∈ s.obj ∧ (s.list.map hash).Nodup ∧
      ∀ x, x ∈ s.list ↔ latest hash l (hash x) = some x) ∨
    (osadds hash l = .error .alloc ∧ 2 ^ 25 < (l.map hash).toFinset.card) := by
  rcases osadds_cases hash l with ⟨s, hs, hholds⟩ | hstop
  · exact .inl ⟨s, hs, hholds.find, hholds.count, hholds.free, hashes_nodup hholds.ok, hholds.mem⟩
  · exact .inr hstop

end

end Objtab

end Petele.Git
