import Petele.Vm.PageInv

set_option linter.unusedSectionVars false

namespace Petele.Vm

open Lib

variable {P I : Type} [DecidableEq P] [DecidableEq I] [Fintype P]

section Dup

variable {e : Env I} {m m' : Mem P I} {p : P} {held : I → ℤ}

/-- What `duppage` does to the pages: nothing, or the page leaves the cache, where a free page may
take its place. -/
inductive Dup (e : Env I) (m m' : Mem P I) (p : P) : Prop
  | kept (h : m' = m) (hwhy : m.ref p ≠ 1 ∨ ∀ i, m.image p = some i → e.notext i = true)
  | dropped (h : Uncached m m' p)
  | moved (np : P) (i : I) (hfree : m.ref np = 0) (hp : m.ref p = 1) (hi : m.image p = some i)
      (href : m'.ref = m.ref) (hdata : m'.data = Function.update m.data np (m.data p))
      (himage : m'.image = Function.update (Function.update m.image np (some i)) p none)
      (hnp : m'.daddr np = m.daddr p) (hdaddr : ∀ x, x ≠ p → x ≠ np → m'.daddr x = m.daddr x)

theorem Inv.recache (h : Inv e m held) {np : P} {i : I} (hfree : m.ref np = 0) (hne : np ≠ p) :
    ∃ m', recache e m p np i = some m' ∧ Inv e m' held ∧ m'.ref = m.ref ∧
      m'.data = Function.update m.data np (m.data p) ∧ m'.image = Function.update m.image np (some i) ∧
      m'.daddr np = m.daddr p ∧ ∀ x, x ≠ np → m'.daddr x = m.daddr x := by
  obtain ⟨hun, hinv⟩ := (h.totail hfree).uncache np
  rw [Vm.recache]
  set m₂ := uncachepage e (pagechaintail (pageunchain m np) np) np with hm₂
  have hsize : m₂.lg2size p = m₂.lg2size np := by
    rw [hinv.size, hinv.size]
  have hnil : m₂.image np = none := by
    rw [hun.image, Function.update_self]
  have hplain := hinv.plain (Function.update m₂.va np (m₂.va p)) m₂.color (Function.update m₂.data np (m₂.data p))
  obtain ⟨m', hm', hinv', href, hdata, himage, hdaddr⟩ := hplain.cache hnil (m₂.daddr p) i
  have hcopy : copypage { m₂ with
      va := Function.update m₂.va np (m₂.va p)
      daddr := Function.update m₂.daddr np (m₂.daddr p) } p np =
      some { m₂ with
        va := Function.update m₂.va np (m₂.va p)
        daddr := Function.update m₂.daddr np (m₂.daddr p)
        data := Function.update m₂.data np (m₂.data p) } := if_neg (not_not.mpr hsize)
  simp only [hcopy, Option.bind_some]
  refine ⟨m', hm', hinv', ?_, ?_, ?_, ?_, fun x hx => ?_⟩
  · rw [href]
    exact hun.sheds.ref
  · rw [hdata, hun.sheds.data]
    rfl
  · rw [himage, hun.image]
    simp only [Function.update_idem]
    rfl
  · rw [hdaddr]
    simp only [Function.update_self]
    exact hun.daddr p hne.symm
  · rw [hdaddr]
    simp only [Function.update_of_ne hx]
    exact hun.daddr x hx

theorem Inv.dup (h : Inv e m held) (p : P) : ∃ r, duppage e m p = some r ∧ Inv e r.1 held ∧ Dup e m r.1 p := by
  unfold duppage
  by_cases hone : m.ref p = 1
  swap
  · rw [if_pos hone]
    exact ⟨_, rfl, h, .kept rfl (Or.inl hone)⟩
  rw [if_neg (not_not.mpr hone)]
  obtain ⟨hun, hinv⟩ := h.uncache p
  cases hi : m.image p with
  | none => exact ⟨_, rfl, h, .kept rfl (Or.inr fun i hc => by rw [hi] at hc; cases hc)⟩
  | some i =>
    simp only
    split
    · rename_i hn
      refine ⟨_, rfl, h, .kept rfl (Or.inr fun j hj => ?_)⟩
      rw [hi] at hj
      obtain rfl := Option.some.inj hj
      exact hn
    rw [if_neg (not_not.mpr (h.size p))]
    split
    · exact ⟨_, rfl, hinv, .dropped hun⟩
    cases hnp : colored m (e.getpgcolor (m.va p)) with
    | none => exact ⟨_, rfl, hinv, .dropped hun⟩
    | some np =>
      have hfree : m.ref np = 0 := h.of_colored hnp
      have hne : np ≠ p := by
        rintro rfl
        omega
      obtain ⟨m', hm', hinv', href, hdata, himage, hdnp, hdaddr⟩ := h.recache (i := i) hfree hne
      obtain ⟨hun', hinv''⟩ := hinv'.uncache p
      simp only [hm', Option.map_some]
      refine ⟨_, rfl, hinv'', .moved np i hfree hone hi ?_ ?_ ?_ ?_ fun x hx hxn => ?_⟩
      · rw [hun'.sheds.ref, href]
      · rw [hun'.sheds.data, hdata]
      · rw [hun'.image, himage]
      · rw [hun'.daddr np hne, hdnp]
      · rw [hun'.daddr x hx, hdaddr x hxn]

end Dup

section Segments

variable {e : Env I} {m : Mem P I} {held : I → ℤ} {next : P → Option P} {list : Option P} {L : List P}

/-- The pages of a segment. -/
def Segment.pages (s : Segment P) : List P := s.map.flatMap fun pte => (pte.getD []).filterMap id

/-- What a loop adds to the list of pages to free. The other pages stay where they are. -/
structure Gathers (next : P → Option P) (L src left : List P) (next' : P → Option P) (list' : Option P) : Prop where
  links : ∃ L', Links next' list' (L' ++ L) ∧ (L' ++ left).Perm src ∧ ∀ x, x ∉ L' → next' x = next x

theorem freepages_spec (hL : Links next list L) (pages : BitVec 32) {pg : List (Option P)}
    (hnodup : (pg.filterMap id).Nodup) (hdis : ∀ x ∈ pg.filterMap id, x ∉ L) :
    Gathers next L (pg.filterMap id) ((freepages next list pages pg).2.2.2.filterMap id) (freepages next list pages pg).1
      (freepages next list pages pg).2.1 := by
  induction pg generalizing next list L pages with
  | nil => exact ⟨[], hL, .nil, fun x _ => rfl⟩
  | cons o rest ih =>
    cases o with
    | none =>
      rw [List.filterMap_cons_none rfl] at hnodup hdis ⊢
      rw [freepages]
      split
      · exact ⟨[], hL, .refl _, fun x _ => rfl⟩
      · exact ih hL (pages - 1) hnodup hdis
    | some p =>
      rw [List.filterMap_cons_some (f := id) (a := some p) (b := p) rfl] at hnodup hdis ⊢
      obtain ⟨hp, hrest⟩ := List.nodup_cons.mp hnodup
      have hpL : p ∉ L := hdis p List.mem_cons_self
      have hlinks : Links (Function.update next p list) (some p) (p :: L) := by
        refine ⟨rfl, ?_⟩
        rw [Function.update_self]
        exact hL.update hpL _
      rw [freepages]
      split
      · refine ⟨[p], hlinks, .refl _, fun x hx => Function.update_of_ne (fun heq => hx ?_) _ _⟩
        rw [heq]
        exact List.mem_singleton_self p
      · obtain ⟨L', hL', hperm, hframe⟩ := ih hlinks (pages - 1) hrest fun x hx hmem => by
          rcases List.mem_cons.mp hmem with rfl | hxL
          · exact hp hx
          · exact hdis x (List.mem_cons_of_mem _ hx) hxL
        refine ⟨L' ++ [p], ?_, ?_, fun x hx => ?_⟩
        · rw [List.append_assoc, List.singleton_append]
          exact hL'
        · rw [List.append_assoc, List.singleton_append]
          exact List.perm_middle.trans (hperm.cons p)
        · rw [List.mem_append, not_or, List.mem_singleton] at hx
          exact (hframe x hx.1).trans (Function.update_of_ne hx.2 _ _)

/-- The pages of a part of the map. -/
def mapped (map : List (Option (List (Option P)))) : List P := map.flatMap fun pte => (pte.getD []).filterMap id

theorem freemap_spec (hL : Links next list L) (pages : BitVec 32) (j : ℕ) {map : List (Option (List (Option P)))}
    (hnodup : (mapped map).Nodup) (hdis : ∀ x ∈ mapped map, x ∉ L) :
    Gathers next L (mapped map) (mapped (freemap next list pages j map).2.2) (freemap next list pages j map).1
      (freemap next list pages j map).2.1 := by
  induction map generalizing next list L pages j with
  | nil => exact ⟨[], hL, .nil, fun x _ => rfl⟩
  | cons pte rest ih =>
    have hcons : ∀ (o : Option (List (Option P))) l, mapped (o :: l) = (o.getD []).filterMap id ++ mapped l :=
      fun _ _ => List.flatMap_cons
    rw [hcons] at hnodup hdis
    obtain ⟨hfirst, hlater, happart⟩ := List.nodup_append.mp hnodup
    rw [freemap.eq_def]
    simp only
    split
    · exact ⟨[], hL, .refl _, fun x _ => rfl⟩
    cases pte with
    | none => exact ih hL _ 0 hlater hdis
    | some pg =>
      have hpart : (pg.take j).filterMap id ++ (pg.drop j).filterMap id = pg.filterMap id := by
        rw [← List.filterMap_append, List.take_append_drop]
      have hsub : ∀ x ∈ (pg.drop j).filterMap id, x ∈ pg.filterMap id := fun x hx => by
        rw [← hpart]
        exact List.mem_append_right _ hx
      obtain ⟨L', hL', hperm, hframe⟩ := freepages_spec hL pages
        (hfirst.sublist ((List.drop_sublist j pg).filterMap id)) fun x hx => hdis x (List.mem_append_left _ (hsub x hx))
      have hleft : ∀ l : List P, (L' ++ ((pg.take j ++ (freepages next list pages (pg.drop j)).2.2.2).filterMap id ++ l)).Perm
          (pg.filterMap id ++ l) := by
        intro l
        rw [List.filterMap_append, ← hpart, ← List.append_assoc, ← List.append_assoc]
        refine (List.Perm.append_right l ?_)
        rw [List.append_assoc]
        exact (List.perm_append_comm_assoc _ _ _).trans (hperm.append_left _)
      simp only
      split
      · exact ⟨L', hL', hleft (mapped rest), hframe⟩
      · obtain ⟨K, hK, hperm', hframe'⟩ := ih hL' (freepages next list pages (pg.drop j)).2.2.1 0 hlater
          fun x hx hmem => by
            rcases List.mem_append.mp hmem with hx' | hx'
            · exact happart x (hsub x (hperm.subset (List.mem_append_left _ hx'))) x hx rfl
            · exact hdis x (List.mem_append_right _ hx) hx'
        refine ⟨K ++ L', ?_, ?_, fun x hx => ?_⟩
        · rw [List.append_assoc]
          exact hK
        · rw [hcons, hcons, List.append_assoc]
          exact ((hleft _).append_left K).trans ((List.perm_append_comm_assoc _ _ _).trans (hperm'.append_left _))
        · rw [List.mem_append, not_or] at hx
          exact (hframe' x hx.1).trans (hframe x hx.2)

theorem putlist_spec (h : Inv e m held) (hL : Links m.next list L) (href : ∀ p ∈ L, 0 < m.ref p) {fuel : ℕ}
    (hfuel : L.length ≤ fuel) :
    ∃ m', putlist fuel m list = some m' ∧ Inv e m' held ∧ ∀ p, m'.ref p = m.ref p - L.count p := by
  induction L generalizing m list fuel with
  | nil =>
    have hnone : list = none := hL
    rw [hnone]
    exact ⟨m, by cases fuel <;> rfl, h, fun p => (Int.sub_zero _).symm⟩
  | cons p L ih =>
    have hp := (List.nodup_cons.mp (Links.nodup hL)).1
    obtain ⟨fuel, rfl⟩ : ∃ k, fuel = k + 1 := ⟨fuel - 1, by rw [List.length_cons] at hfuel; omega⟩
    obtain ⟨m', hm', hinv, href', -, -, -, hnext⟩ := h.put (href p List.mem_cons_self)
    have hother : ∀ x ∈ L, x ≠ p := by
      rintro x hx rfl
      exact hp hx
    rw [hL.1, putlist, hm', Option.bind_some]
    have hlinks : Links m'.next (m.next p) L := by
      apply hL.2.frame
      intro x hx
      apply hnext x (hother x hx)
      have hpos := href x (List.mem_cons_of_mem _ hx)
      omega
    have hpos : ∀ x ∈ L, 0 < m'.ref x := by
      intro x hx
      rw [href', Function.update_of_ne (hother x hx)]
      exact href x (List.mem_cons_of_mem _ hx)
    obtain ⟨m'', hm'', hinv'', href''⟩ := ih hinv hlinks hpos (Nat.le_of_succ_le_succ hfuel)
    refine ⟨m'', hm'', hinv'', fun x => ?_⟩
    rw [href'', href', List.count_cons]
    rcases eq_or_ne x p with rfl | hne
    · rw [Function.update_self, if_pos (beq_self_eq_true x)]
      omega
    · rw [Function.update_of_ne hne, if_neg (by simpa using hne.symm)]
      omega

theorem Inv.freeseg (h : Inv e m held) {s : Segment P} (hnodup : s.pages.Nodup) (href : ∀ p ∈ s.pages, 0 < m.ref p)
    (start top : ℕ) : ∃ r, mfreeseg m s start top = some r ∧ Inv e r.1 held ∧
      ∀ p, r.1.ref p + s.pages.count p = m.ref p + r.2.pages.count p ∧ r.2.pages.count p ≤ s.pages.count p := by
  unfold mfreeseg
  simp only
  have hpages : s.pages = mapped (s.map.take ((start - s.base) / s.ptemapmem)) ++
      mapped (s.map.drop ((start - s.base) / s.ptemapmem)) := by
    rw [Segment.pages, mapped, mapped, ← List.flatMap_append, List.take_append_drop]
  rw [hpages] at hnodup href
  have hnil : Links m.next none [] := rfl
  obtain ⟨L, hL, hperm, hframe⟩ := freemap_spec hnil
    (BitVec.ofNat 32 ((top - start) >>> s.lg2pgsize)) (((start - s.base) % s.ptemapmem) >>> s.lg2pgsize)
    (List.nodup_append.mp hnodup).2.1 (by simp)
  rw [List.append_nil] at hL
  have hpos : ∀ p ∈ L, 0 < m.ref p := fun p hp =>
    href p (List.mem_append_right _ (hperm.subset (List.mem_append_left _ hp)))
  obtain ⟨l, hl, hmem⟩ := h.listed
  obtain ⟨c, hc⟩ := h.chains
  have hinv : Inv e { m with next := (freemap m.next none (BitVec.ofNat 32 ((top - start) >>> s.lg2pgsize))
      (((start - s.base) % s.ptemapmem) >>> s.lg2pgsize) (s.map.drop ((start - s.base) / s.ptemapmem))).1 } held := by
    refine ⟨⟨l, ⟨⟨?_, hl.list.back⟩, hl.count⟩, hmem⟩, h.nonneg, ⟨c, hc.links, hc.mem⟩, h.counts, h.size⟩
    apply hl.list.front.frame
    intro x hx
    apply hframe x
    intro hxL
    have hx0 := (hmem x).mp hx
    have hxpos := hpos x hxL
    omega
  obtain ⟨m', hm', hinv', href'⟩ := putlist_spec hinv hL hpos (links_length_le hL)
  rw [hm']
  refine ⟨_, rfl, hinv', fun p => ?_⟩
  have hcount := hperm.count_eq p
  have hafter : Segment.pages { s with map := s.map.take ((start - s.base) / s.ptemapmem) ++
      (freemap m.next none (BitVec.ofNat 32 ((top - start) >>> s.lg2pgsize))
        (((start - s.base) % s.ptemapmem) >>> s.lg2pgsize) (s.map.drop ((start - s.base) / s.ptemapmem))).2.2 } =
      mapped (s.map.take ((start - s.base) / s.ptemapmem)) ++
        mapped (freemap m.next none (BitVec.ofNat 32 ((top - start) >>> s.lg2pgsize))
          (((start - s.base) % s.ptemapmem) >>> s.lg2pgsize) (s.map.drop ((start - s.base) / s.ptemapmem))).2.2 := by
    rw [Segment.pages, mapped, mapped, ← List.flatMap_append]
  simp only at hafter ⊢
  have hkept : m'.ref p = m.ref p - L.count p := href' p
  rw [hafter, hpages, hkept, List.count_append, List.count_append]
  rw [List.count_append] at hcount
  constructor <;> omega

end Segments

section Runs

/-- The pages, and the references that segments have to images. -/
structure Sys (P I : Type) where
  mem : Mem P I
  held : I → ℤ

inductive Act (P I : Type)
  | newpage (clear : Bool) (va : ℕ) (kp : Bool)
  | auxpage
  | putpage (p : P)
  | lookpage (i : I) (daddr : ℕ)
  | cachepage (p : P) (i : I) (daddr : ℕ)
  | uncachepage (p : P)
  | cachedel (i : I) (daddr : ℕ)
  | duppage (p : P)
  | pagereclaim (npages : ℤ)
  | mfreeseg (s : Segment P) (start top : ℕ)
  /-- A reference to a page is copied, as `ptecpy` does. -/
  | share (p : P)
  | incref (i : I)
  | putimage (i : I)

/-- With the page that is returned. The callers of `cachepage` set `daddr` before. -/
def step (e : Env I) (s : Sys P I) : Act P I → Option (Sys P I × Option P)
  | .newpage clear va kp => (newpage e s.mem clear va kp).map fun r => ({ s with mem := r.1 }, r.2)
  | .auxpage => (auxpage e s.mem).map fun r => ({ s with mem := r.1 }, r.2)
  | .putpage p => (putpage s.mem p).map fun m => ({ s with mem := m }, none)
  | .lookpage i daddr => some ({ s with mem := (lookpage s.mem i daddr).1 }, (lookpage s.mem i daddr).2)
  | .cachepage p i daddr =>
    (cachepage { s.mem with daddr := Function.update s.mem.daddr p daddr } p i).map fun m => ({ s with mem := m }, none)
  | .uncachepage p => some ({ s with mem := uncachepage e s.mem p }, none)
  | .cachedel i daddr => some ({ s with mem := cachedel e s.mem i daddr }, none)
  | .duppage p => (duppage e s.mem p).map fun r => ({ s with mem := r.1 }, none)
  | .pagereclaim npages => (pagereclaim e s.mem npages).map fun m => ({ s with mem := m }, none)
  | .mfreeseg seg start top => (mfreeseg s.mem seg start top).map fun r => ({ s with mem := r.1 }, none)
  | .share p => some ({ s with mem := { s.mem with ref := Function.update s.mem.ref p (s.mem.ref p + 1) } }, none)
  | .incref i =>
    some (⟨{ s.mem with iref := Function.update s.mem.iref i (s.mem.iref i + 1) },
      Function.update s.held i (s.held i + 1)⟩, none)
  | .putimage i => some (⟨putimage e s.mem i, Function.update s.held i (s.held i - 1)⟩, none)

/-- References are given up and copied by those that have them, a page is cached once, and a
segment has a page at one address only. -/
def Allowed (s : Sys P I) : Act P I → Prop
  | .putpage p | .share p => 0 < s.mem.ref p
  | .cachepage p _ _ => s.mem.image p = none
  | .mfreeseg seg _ _ => seg.pages.Nodup ∧ ∀ p ∈ seg.pages, 0 < s.mem.ref p
  | .putimage i => 0 < s.held i
  | _ => True

/-- All pages are free, as `banksavailpages` leaves them. -/
structure Start (s : Sys P I) : Prop where
  free : ∃ l, Free s.mem l ∧ ∀ p, p ∈ l
  ref : ∀ p, s.mem.ref p = 0
  image : ∀ p, s.mem.image p = none
  bucket : ∀ h, s.mem.bucket h = none
  iref : ∀ i, s.mem.iref i = s.held i
  size : ∀ p, s.mem.lg2size p = PGSHFT

inductive Reachable (e : Env I) : Sys P I → Prop
  | start {s : Sys P I} (h : Start s) : Reachable e s
  | step {s s' : Sys P I} {a : Act P I} {r : Option P} (h : Reachable e s) (ha : Allowed s a)
      (hs : step e s a = some (s', r)) : Reachable e s'

variable {e : Env I} {s s' : Sys P I}

theorem Start.inv (h : Start s) : Inv e s.mem s.held := by
  obtain ⟨l, hl, hall⟩ := h.free
  refine ⟨⟨l, hl, fun p => ?_⟩, fun p => ?_, ⟨fun _ => [], fun k => ?_, fun k p => ?_⟩, fun i => ?_, h.size⟩
  · rw [h.ref]
    exact ⟨fun _ => rfl, fun _ => hall p⟩
  · rw [h.ref]
  · rw [h.bucket]
    rfl
  · rw [h.image]
    simp
  · have hnone : cached s.mem i = 0 := by
      rw [cached, Finset.card_eq_zero, Finset.filter_eq_empty_iff]
      intro p _
      rw [h.image]
      exact Option.some_ne_none i ∘ Eq.symm
    rw [h.iref, hnone]
    simp

theorem Inv.incref {m : Mem P I} {held : I → ℤ} (h : Inv e m held) (i : I) :
    Inv e { m with iref := Function.update m.iref i (m.iref i + 1) } (Function.update held i (held i + 1)) := by
  obtain ⟨l, hl, hmem⟩ := h.listed
  obtain ⟨c, hc⟩ := h.chains
  refine ⟨⟨l, ⟨hl.list, hl.count⟩, hmem⟩, h.nonneg, ⟨c, hc.links, hc.mem⟩, fun j => ?_, h.size⟩
  obtain ⟨hexact, hle⟩ := h.counts j
  have hcached : cached { m with iref := Function.update m.iref i (m.iref i + 1) } j = cached m j := rfl
  rw [hcached]
  rcases eq_or_ne j i with rfl | hj
  · simp only [Function.update_self]
    refine ⟨fun hn => ?_, ?_⟩
    · rw [hexact hn]
      omega
    · omega
  · simp only [Function.update_of_ne hj]
    exact ⟨hexact, hle⟩

theorem Inv.decref {m : Mem P I} {held : I → ℤ} (h : Inv e m held) (i : I) :
    Inv e (putimage e m i) (Function.update held i (held i - 1)) := by
  obtain ⟨l, hl, hmem⟩ := h.listed
  obtain ⟨c, hc⟩ := h.chains
  refine ⟨⟨l, ?_, ?_⟩, ?_, ⟨c, ?_, ?_⟩, fun j => ?_, ?_⟩
  · rw [putimage_eq]
    exact ⟨hl.list, hl.count⟩
  · rw [putimage_eq]
    exact hmem
  · rw [putimage_eq]
    exact h.nonneg
  · rw [putimage_eq]
    exact hc.links
  · rw [putimage_eq]
    exact hc.mem
  · obtain ⟨hexact, hle⟩ := h.counts j
    have hcached : cached (putimage e m i) j = cached m j := by
      rw [putimage_eq]
      rfl
    rw [hcached, putimage_iref]
    rcases eq_or_ne j i with rfl | hj
    · rw [Function.update_self]
      refine ⟨fun hn => ?_, ?_⟩
      · rw [if_pos ⟨rfl, hn⟩, hexact hn]
        omega
      · split
        · omega
        · omega
    · rw [Function.update_of_ne hj, if_neg fun hc => hj hc.1]
      exact ⟨hexact, hle⟩
  · rw [putimage_eq]
    exact h.size

theorem step_inv (h : Inv e s.mem s.held) (a : Act P I) (ha : Allowed s a) :
    ∃ r, step e s a = some r ∧ Inv e r.1.mem r.1.held := by
  cases a with
  | newpage clear va kp =>
    obtain ⟨r, hr, hinv, -⟩ := h.new clear va kp
    exact ⟨_, by rw [step, hr]; rfl, hinv⟩
  | auxpage =>
    obtain ⟨r, hr, hinv, -⟩ := h.aux
    exact ⟨_, by rw [step, hr]; rfl, hinv⟩
  | putpage p =>
    obtain ⟨m', hm', hinv, -⟩ := h.put ha
    exact ⟨_, by rw [step, hm']; rfl, hinv⟩
  | lookpage i daddr =>
    refine ⟨_, rfl, ?_⟩
    rcases h.look i daddr with ⟨heq, -⟩ | ⟨f, -, -, -, hinv, -⟩
    · rw [heq]
      exact h
    · exact hinv
  | cachepage p i daddr =>
    obtain ⟨m', hm', hinv, -⟩ := h.cache ha daddr i
    exact ⟨_, by rw [step, hm']; rfl, hinv⟩
  | uncachepage p => exact ⟨_, rfl, (h.uncache p).2⟩
  | cachedel i daddr => exact ⟨_, rfl, (h.uncacheAt i daddr).2⟩
  | duppage p =>
    obtain ⟨r, hr, hinv, -⟩ := h.dup p
    exact ⟨_, by rw [step, hr]; rfl, hinv⟩
  | pagereclaim npages =>
    obtain ⟨m', hm', hinv, -⟩ := h.reclaim npages
    exact ⟨_, by rw [step, hm']; rfl, hinv⟩
  | mfreeseg seg start top =>
    obtain ⟨r, hr, hinv, -⟩ := h.freeseg ha.1 ha.2 start top
    exact ⟨_, by rw [step, hr]; rfl, hinv⟩
  | share p =>
    have hpos : 0 < s.mem.ref p := ha
    exact ⟨_, rfl, h.reref hpos (by omega)⟩
  | incref i => exact ⟨_, rfl, h.incref i⟩
  | putimage i => exact ⟨_, rfl, h.decref i⟩

theorem Reachable.inv (h : Reachable e s) : Inv e s.mem s.held := by
  induction h with
  | start hs => exact hs.inv
  | step _ ha hs ih =>
    obtain ⟨r, hr, hinv⟩ := step_inv ih _ ha
    rw [hs] at hr
    obtain rfl := Option.some.inj hr
    exact hinv

/-- The accounts of the pages. -/
structure Exact (e : Env I) (s : Sys P I) : Prop where
  free : ∃ l, Dlist s.mem.next s.mem.prev s.mem.head s.mem.tail l ∧ l.Nodup ∧ (∀ p, p ∈ l ↔ s.mem.ref p = 0) ∧
    s.mem.freecount = l.length
  hash : ∃ c : ℕ → List P, (∀ h, Links s.mem.hash (s.mem.bucket h) (c h) ∧ (c h).Nodup) ∧
    ∀ h p, p ∈ c h ↔ s.mem.image p ≠ none ∧ pghash (s.mem.daddr p) = h
  image : ∀ i, e.notext i = false → s.mem.iref i = s.held i + cached s.mem i
  /-- An image without text keeps the references of pages that have left the cache. -/
  notext : ∀ i, s.held i + cached s.mem i ≤ s.mem.iref i
  new : ∀ clear va kp s' p, step e s (.newpage clear va kp) = some (s', some p) →
    s.mem.ref p = 0 ∧ s'.mem.ref p = 1 ∧ s'.mem.image p = none
  calls : ∀ a, Allowed s a → ∃ r, step e s a = some r

theorem page_accounting (h : Reachable e s) : Exact e s := by
  have hinv := h.inv
  obtain ⟨l, hl, hmem⟩ := hinv.listed
  obtain ⟨c, hc⟩ := hinv.chains
  refine ⟨⟨l, hl.list, hl.list.nodup, hmem, hl.count⟩, ⟨c, fun k => ⟨hc.links k, (hc.links k).nodup⟩, hc.mem⟩,
    fun i => (hinv.counts i).1, fun i => (hinv.counts i).2, fun clear va kp s' p hs => ?_, fun a ha => ?_⟩
  · obtain ⟨r, hr, -, -, hnew⟩ := hinv.new clear va kp
    rw [step, hr] at hs
    obtain ⟨rfl, hp⟩ : { s with mem := r.1 } = s' ∧ r.2 = some p := by simpa using hs
    obtain ⟨hn, -⟩ := hnew p hp
    refine ⟨hn.free, ?_, ?_⟩
    · rw [hn.ref, Function.update_self]
    · rw [hn.image, Function.update_self]
  · obtain ⟨r, hr, -⟩ := step_inv hinv a ha
    exact ⟨r, hr⟩

/-- A machine with one page, and one image that has no text. -/
def onepage : Sys Unit Unit where
  mem :=
    { va := fun _ => 0, daddr := fun _ => 0, ref := fun _ => 0, color := fun _ => 0, lg2size := fun _ => PGSHFT
      image := fun _ => none, next := fun _ => none, prev := fun _ => none, hash := fun _ => none, data := fun _ => []
      head := some (), tail := some (), freecount := 1, bucket := fun _ => none, iref := fun _ => 0 }
  held := fun _ => 0

def scratch : Env Unit := ⟨0, fun _ => 0, fun _ => true⟩

theorem onepage_start : Start onepage where
  free := ⟨[()], ⟨⟨⟨rfl, rfl⟩, ⟨rfl, rfl⟩⟩, rfl⟩, fun _ => List.mem_singleton_self _⟩
  ref _ := rfl
  image _ := rfl
  bucket _ := rfl
  iref _ := rfl
  size _ := rfl

theorem page_accounting_onepage : Start onepage ∧ Exact scratch onepage :=
  ⟨onepage_start, page_accounting (.start onepage_start)⟩

/-- The page is cached and leaves the cache again, but its reference stays. -/
theorem notext_reference_kept : ∃ s : Sys Unit Unit, Reachable scratch s ∧
    s.mem.iref () ≠ s.held () + cached s.mem () := by
  have h₁ := Reachable.step (a := .auxpage) (.start onepage_start : Reachable scratch onepage) trivial rfl
  have h₂ := Reachable.step (a := .cachepage () () 4096) h₁ rfl rfl
  have h₃ := Reachable.step (a := .uncachepage ()) h₂ trivial rfl
  refine ⟨_, h₃, ?_⟩
  decide

end Runs

end Petele.Vm
