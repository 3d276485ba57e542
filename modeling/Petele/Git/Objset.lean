import Petele.Lib.Probe

namespace Petele.Git

open Lib Probe

/-- The name of an object. -/
structure Hash where
  h : List UInt8
  len : h.length = 20
  deriving DecidableEq

def Zhash : Hash := ⟨List.replicate 20 0, rfl⟩

/-- `GETBE32` at the start of the bytes. -/
def getbe32 (b : List UInt8) : ℕ :=
  (b.getD 0 0).toNat <<< 24 ||| (b.getD 1 0).toNat <<< 16 ||| (b.getD 2 0).toNat <<< 8 |||
    (b.getD 3 0).toNat

/-- Why an operation on the repository stops: a walk over a table that does not end, a search
that runs on, and the objects named in the messages of `paint`. -/
inductive Fail
  | probes
  | fuel
  | head (h : Hash)
  | tail (h : Hash)
  | notcommit (h : Hash)
  | missing (h : Hash)
  deriving DecidableEq

/-- A set of objects, each known by its hash. -/
structure Objset where
  obj : List (Option Hash)
  nobj : ℕ

def Objset.sz (s : Objset) : ℕ := s.obj.length

def osinit : Objset := ⟨List.replicate 16 none, 0⟩

def osslot (s : Objset) (h : Hash) : Except Fail ℕ :=
  match probe (· == h) s.obj s.sz (getbe32 h.h % s.sz) with
  | none => .error .probes
  | some k => .ok k

/-- The end of `osadd` where the table doubles. -/
def osgrow (add : Objset → Hash → Except Fail Objset) (s : Objset) : Except Fail Objset :=
  s.obj.foldlM (fun t o => match o with
    | none => .ok t
    | some h => add t h) ⟨List.replicate (2 * s.sz) none, 0⟩

/-- `osadd`; the first argument bounds the calls it makes to itself. -/
def osaddn : ℕ → Objset → Hash → Except Fail Objset
  | 0, _, _ => .error .probes
  | depth + 1, s, h => do
    let k ← osslot s h
    match s.obj[k]? with
    | some none =>
      let s : Objset := ⟨s.obj.set k (some h), s.nobj + 1⟩
      if s.sz < 2 * s.nobj then osgrow (osaddn depth) s else .ok s
    | _ => .ok ⟨s.obj.set k (some h), s.nobj⟩

def osadd (s : Objset) (h : Hash) : Except Fail Objset := osaddn 2 s h

def osfind (s : Objset) (h : Hash) : Except Fail (Option Hash) := do
  let k ← osslot s h
  return s.obj.getD k none

def oshas (s : Objset) (h : Hash) : Except Fail Bool := do
  let o ← osfind s h
  return o.isSome

/-- The objects of a set in the order of the table. -/
def Objset.list (s : Objset) : List Hash := s.obj.filterMap id

instance : Membership Hash Objset := ⟨fun s h => some h ∈ s.obj⟩

/-- Every object is found from its own slot, and there is room. -/
structure Objset.Ok (s : Objset) : Prop where
  found : ∀ k h, s.obj[k]? = some (some h) →
    probe (· == h) s.obj s.sz (getbe32 h.h % s.sz) = some k
  count : entries s.obj = s.nobj
  room : 2 * s.nobj ≤ s.sz
  pos : 2 ≤ s.sz

section

variable {s : Objset} {h x : Hash}

theorem Objset.mem_def : h ∈ s ↔ some h ∈ s.obj := Iff.rfl

theorem Objset.mem_list : h ∈ s.list ↔ h ∈ s := by
  simp [Objset.list, Objset.mem_def]

theorem empty_ok {n : ℕ} (hn : 2 ≤ n) : Objset.Ok ⟨List.replicate n none, 0⟩ := by
  have hsz : Objset.sz ⟨List.replicate n none, 0⟩ = n := List.length_replicate
  refine ⟨?_, entries_replicate n, Nat.zero_le _, by rw [hsz]; exact hn⟩
  intro k h hk
  have hmem := List.mem_of_getElem? hk
  simp at hmem

/-- The slot a walk ends at: the object's own, or an empty one if it is not there. -/
theorem osslot_cases (hok : s.Ok) (h : Hash) :
    (h ∈ s ∧ ∃ k, osslot s h = .ok k ∧ s.obj[k]? = some (some h)) ∨
    (¬ h ∈ s ∧ ∃ k, osslot s h = .ok k ∧ s.obj[k]? = some none) := by
  by_cases hmem : h ∈ s
  · obtain ⟨k, hk⟩ := List.mem_iff_getElem?.mp hmem
    refine .inl ⟨hmem, k, ?_, hk⟩
    rw [osslot, hok.found k h hk]
  · have hpos := hok.pos
    have hlt : getbe32 h.h % s.sz < s.obj.length := Nat.mod_lt _ (by omega)
    have hroom : entries s.obj < s.obj.length := by
      have hroom := hok.room
      rw [hok.count]
      unfold Objset.sz at hroom hpos
      omega
    obtain ⟨k, hk⟩ := probe_ends (· == h) hroom hlt
    have hslot : osslot s h = .ok k := by
      rw [osslot, show probe (· == h) s.obj s.sz (getbe32 h.h % s.sz) = some k from hk]
    rcases probe_slot hk with hempty | ⟨a, ha, hhit⟩
    · exact .inr ⟨hmem, k, hslot, hempty⟩
    · rw [beq_iff_eq] at hhit
      subst hhit
      exact absurd (List.mem_of_getElem? ha) hmem

theorem oshas_true (hok : s.Ok) (hmem : h ∈ s) : oshas s h = .ok true := by
  rcases osslot_cases hok h with ⟨-, k, hslot, hk⟩ | ⟨hnot, -⟩
  · rw [oshas, osfind, hslot]
    show Except.ok (s.obj.getD k none).isSome = _
    rw [List.getD_eq_getElem?_getD, hk]
    rfl
  · exact absurd hmem hnot

theorem oshas_false (hok : s.Ok) (hnot : ¬ h ∈ s) : oshas s h = .ok false := by
  rcases osslot_cases hok h with ⟨hmem, -⟩ | ⟨-, k, hslot, hk⟩
  · exact absurd hmem hnot
  · rw [oshas, osfind, hslot]
    show Except.ok (s.obj.getD k none).isSome = _
    rw [List.getD_eq_getElem?_getD, hk]
    rfl

theorem Objset.Ok.list_nodup (hok : s.Ok) : s.list.Nodup := by
  rw [Objset.list, List.Nodup, List.pairwise_filterMap, List.pairwise_iff_getElem]
  intro i j hi hj hij x hx y hy hxy
  have hslot : s.obj[i]? = some (some x) := by rw [List.getElem?_eq_getElem hi, ← hx, id]
  have hslot' : s.obj[j]? = some (some x) := by rw [List.getElem?_eq_getElem hj, hxy, ← hy, id]
  have hprobe := hok.found i x hslot
  rw [hok.found j x hslot'] at hprobe
  exact Nat.ne_of_lt hij (Option.some.inj hprobe).symm

/-- A new object in the slot where its walk ended. -/
theorem Objset.Ok.fill (hok : s.Ok) {k : ℕ} (hslot : osslot s h = .ok k)
    (hk : s.obj[k]? = some none) (hroom : 2 * (s.nobj + 1) ≤ s.sz) :
    Objset.Ok ⟨s.obj.set k (some h), s.nobj + 1⟩ := by
  have hprobe : probe (· == h) s.obj s.sz (getbe32 h.h % s.sz) = some k := by
    rw [osslot] at hslot
    split at hslot
    · cases hslot
    · rename_i k' hk'
      cases hslot
      exact hk'
  have hsz : Objset.sz ⟨s.obj.set k (some h), s.nobj + 1⟩ = s.sz := by
    rw [Objset.sz, List.length_set, Objset.sz]
  refine ⟨?_, ?_, by rw [hsz]; exact hroom, by rw [hsz]; exact hok.pos⟩
  · intro k' x hx
    rw [hsz]
    by_cases hkk : k = k'
    · subst hkk
      have hlt : k < s.obj.length := (List.getElem?_eq_some_iff.mp hk).1
      rw [List.getElem?_set_self hlt] at hx
      have hxh : h = x := Option.some.inj (Option.some.inj hx)
      subst hxh
      exact probe_filled hprobe hk (beq_self_eq_true h)
    · rw [List.getElem?_set_ne hkk] at hx
      exact probe_set (hok.found k' x hx) hx hk
  · dsimp only
    rw [entries_set hk, hok.count]

theorem mem_fill {k : ℕ} (hk : s.obj[k]? = some none) (n : ℕ) :
    x ∈ (⟨s.obj.set k (some h), n⟩ : Objset) ↔ x = h ∨ x ∈ s := by
  have hlt : k < s.obj.length := (List.getElem?_eq_some_iff.mp hk).1
  constructor
  · exact fun hx => mem_set hx
  · rintro (rfl | hx)
    · exact List.mem_set hlt _
    · obtain ⟨j, hj⟩ := List.mem_iff_getElem?.mp hx
      have hne : k ≠ j := by
        rintro rfl
        rw [hk] at hj
        cases hj
      exact List.mem_of_getElem? (i := j) (by rw [List.getElem?_set_ne hne, hj])

/-- `osadd` of an object that is there. -/
theorem osaddn_present (hok : s.Ok) (depth : ℕ) (hmem : h ∈ s) : osaddn (depth + 1) s h = .ok s := by
  rcases osslot_cases hok h with ⟨-, k, hslot, hk⟩ | ⟨hnot, -⟩
  · obtain ⟨hlt, hget⟩ := List.getElem?_eq_some_iff.mp hk
    have hset : s.obj.set k (some h) = s.obj := by rw [← hget, List.set_getElem_self]
    rw [osaddn, hslot]
    simp only [bind, Except.bind, hk, hset]
  · exact absurd hmem hnot

theorem mem_iff_of_mem (hmem : h ∈ s) (x : Hash) : x ∈ s ↔ x = h ∨ x ∈ s := by
  constructor
  · exact .inr
  · rintro (rfl | hx)
    · exact hmem
    · exact hx

/-- `osadd` on a table that need not grow. -/
theorem osaddn_small (hok : s.Ok) (depth : ℕ) (hroom : 2 * (s.nobj + 1) ≤ s.sz) :
    ∃ s', osaddn (depth + 1) s h = .ok s' ∧ s'.Ok ∧ s'.sz = s.sz ∧ s'.nobj ≤ s.nobj + 1 ∧
      ∀ x, x ∈ s' ↔ x = h ∨ x ∈ s := by
  rcases osslot_cases hok h with ⟨hmem, -⟩ | ⟨-, k, hslot, hk⟩
  · exact ⟨s, osaddn_present hok depth hmem, hok, rfl, Nat.le_succ _, mem_iff_of_mem hmem⟩
  · have hgrow : ¬ Objset.sz ⟨s.obj.set k (some h), s.nobj + 1⟩ < 2 * (s.nobj + 1) := by
      rw [Objset.sz, List.length_set]
      exact Nat.not_lt.mpr hroom
    refine ⟨⟨s.obj.set k (some h), s.nobj + 1⟩, ?_, hok.fill hslot hk hroom, ?_, Nat.le_refl _,
      fun x => mem_fill hk _⟩
    · rw [osaddn, hslot]
      simp only [bind, Except.bind, hk, if_neg hgrow]
    · rw [Objset.sz, List.length_set, Objset.sz]

/-- The objects of an old table go into one with room for them. -/
theorem osgrow_fold (depth : ℕ) (l : List (Option Hash)) (t : Objset) (hok : t.Ok)
    (hroom : 2 * (t.nobj + entries l) ≤ t.sz) :
    ∃ t', l.foldlM (fun t o => match o with
        | none => .ok t
        | some h => osaddn (depth + 1) t h) t = Except.ok t' ∧ t'.Ok ∧ t'.sz = t.sz ∧
      ∀ x, x ∈ t' ↔ some x ∈ l ∨ x ∈ t := by
  induction l generalizing t with
  | nil => exact ⟨t, rfl, hok, rfl, by simp⟩
  | cons o l ih =>
    cases o with
    | none =>
      obtain ⟨t', hfold, hok', hsz, hmem⟩ := ih t hok (by simpa [entries] using hroom)
      exact ⟨t', hfold, hok', hsz, fun x => by rw [hmem]; simp⟩
    | some y =>
      have hentries : entries (some y :: l) = entries l + 1 := by simp [entries]
      rw [hentries] at hroom
      obtain ⟨u, hadd, hoku, hszu, hnobj, hmemu⟩ := osaddn_small (h := y) hok depth (by omega)
      obtain ⟨t', hfold, hok', hsz, hmem⟩ := ih u hoku (by omega)
      refine ⟨t', ?_, hok', by omega, ?_⟩
      · rw [List.foldlM_cons]
        simp only [hadd, bind, Except.bind]
        exact hfold
      · intro x
        rw [hmem, hmemu, List.mem_cons, Option.some.injEq]
        tauto

theorem osadd_ok (hok : s.Ok) (h : Hash) :
    ∃ s', osadd s h = .ok s' ∧ s'.Ok ∧ ∀ x, x ∈ s' ↔ x = h ∨ x ∈ s := by
  by_cases hroom : 2 * (s.nobj + 1) ≤ s.sz
  · obtain ⟨s', hadd, hok', -, -, hmem⟩ := osaddn_small (h := h) hok 1 hroom
    exact ⟨s', hadd, hok', hmem⟩
  · rcases osslot_cases hok h with ⟨hmem, -⟩ | ⟨-, k, hslot, hk⟩
    · exact ⟨s, osaddn_present hok 1 hmem, hok, mem_iff_of_mem hmem⟩
    · -- The table with the new object in it is copied into one of double size.
      have hsz : Objset.sz ⟨s.obj.set k (some h), s.nobj + 1⟩ = s.sz := by
        rw [Objset.sz, List.length_set, Objset.sz]
      have hpos := hok.pos
      have hbound := hok.room
      have hentries : entries (s.obj.set k (some h)) = s.nobj + 1 := by
        rw [entries_set hk, hok.count]
      have hnew : Objset.sz ⟨List.replicate (2 * s.sz) none, 0⟩ = 2 * s.sz := List.length_replicate
      obtain ⟨t, hfold, hokt, -, hmem⟩ := osgrow_fold 0 (s.obj.set k (some h))
        ⟨List.replicate (2 * s.sz) none, 0⟩ (empty_ok (by omega)) (by rw [hentries, hnew]; dsimp only; omega)
      refine ⟨t, ?_, hokt, ?_⟩
      · rw [osadd, osaddn, hslot]
        simp only [bind, Except.bind, hk, hsz, if_pos (Nat.not_le.mp hroom)]
        rw [osgrow, hsz]
        exact hfold
      · intro x
        rw [hmem]
        have hempty : ¬ x ∈ (⟨List.replicate (2 * s.sz) none, 0⟩ : Objset) := by
          simp [Objset.mem_def]
        have hfill := mem_fill (x := x) (h := h) hk 0
        rw [Objset.mem_def] at hfill
        tauto

end

end Petele.Git
