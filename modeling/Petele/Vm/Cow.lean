import Petele.Vm.FaultStep

set_option linter.unusedSectionVars false

namespace Petele.Vm

open Lib

variable {P I : Type} [DecidableEq P] [DecidableEq I] [Fintype P]
variable {w : World I} {m m' : Mem P I} {held : I → ℤ} {rest : P → ℕ} {s s' : Seg P I} {k : ℕ} {p : P}

section Lists

theorem share_spec {e : Env I} {l : List P} (h : Inv e m held) (hl : ∀ p ∈ l, 0 < m.ref p) :
    Inv e (share m l) held ∧ (∀ p, (share m l).ref p = m.ref p + l.count p) ∧ (share m l).data = m.data ∧
      (share m l).image = m.image ∧ (share m l).daddr = m.daddr := by
  induction l generalizing m with
  | nil => exact ⟨h, fun p => (Int.add_zero _).symm, rfl, rfl, rfl⟩
  | cons x l ih =>
    have hx := hl x List.mem_cons_self
    have hinv := h.reref hx (n := m.ref x + 1) (by omega)
    obtain ⟨hinv', href, hdata, himage, hdaddr⟩ := ih hinv fun p hp => by
      have hpos := hl p (List.mem_cons_of_mem _ hp)
      rcases eq_or_ne p x with rfl | hne
      · simp only [Function.update_self]
        omega
      · simpa only [Function.update_of_ne hne] using hpos
    refine ⟨hinv', fun p => ?_, hdata, himage, hdaddr⟩
    have hp := href p
    rw [List.count_cons]
    rcases eq_or_ne p x with rfl | hne
    · simp only [Function.update_self] at hp
      rw [share, List.foldl_cons, ← share, hp, if_pos (beq_self_eq_true p)]
      omega
    · simp only [Function.update_of_ne hne] at hp
      rw [share, List.foldl_cons, ← share, hp, if_neg (by simpa using hne.symm)]
      rfl

theorem putpages_spec {e : Env I} {l : List P} (h : Inv e m held) (hl : ∀ p, (l.count p : ℤ) ≤ m.ref p) :
    ∃ m', putpages m l = some m' ∧ Inv e m' held ∧ (∀ p, m'.ref p = m.ref p - l.count p) ∧ m'.data = m.data ∧
      m'.image = m.image ∧ m'.daddr = m.daddr := by
  induction l generalizing m with
  | nil => exact ⟨m, rfl, h, fun p => (Int.sub_zero _).symm, rfl, rfl, rfl⟩
  | cons x l ih =>
    have hx := hl x
    rw [List.count_cons_self] at hx
    obtain ⟨m₁, hm₁, hinv₁, href₁, hdata₁, himage₁, hdaddr₁, -⟩ := h.put (p := x) (by omega)
    obtain ⟨m₂, hm₂, hinv₂, href₂, hdata₂, himage₂, hdaddr₂⟩ := ih hinv₁ fun p => by
      have hp := hl p
      rw [List.count_cons] at hp
      rw [href₁]
      rcases eq_or_ne p x with rfl | hne
      · rw [Function.update_self]
        omega
      · rw [Function.update_of_ne hne]
        rw [if_neg (by simpa using hne.symm)] at hp
        omega
    refine ⟨m₂, by rw [putpages, hm₁]; exact hm₂, hinv₂, fun p => ?_, by rw [hdata₂, hdata₁], by rw [himage₂, himage₁],
      by rw [hdaddr₂, hdaddr₁]⟩
    rw [href₂, href₁, List.count_cons]
    rcases eq_or_ne p x with rfl | hne
    · rw [Function.update_self, if_pos (beq_self_eq_true p)]
      omega
    · rw [Function.update_of_ne hne, if_neg (by simpa using hne.symm)]
      omega

end Lists

section Copies

theorem PteOk.within_pages {t : Pte P} (h : PteOk t) : (t.pages.mapIdx fun j pg => if t.within j then pg else none) = t.pages := by
  apply List.ext_getElem?
  intro j
  rw [List.getElem?_mapIdx]
  cases hj : t.pages[j]? with
  | none => rfl
  | some o =>
    cases o with
    | none => simp
    | some p => simp [h.used j p hj]

theorem MapOk.used_eq {map : List (Option (Pte P))} (h : MapOk map) :
    (map.flatMap fun t => (t.map Pte.used).getD []) = (map.flatMap cell).filterMap id := by
  induction map with
  | nil => rfl
  | cons o map ih =>
    rw [List.flatMap_cons, List.flatMap_cons, List.filterMap_append, ih fun t ht => h t (List.mem_cons_of_mem _ ht)]
    congr 1
    cases o with
    | none =>
      symm
      apply List.filterMap_eq_nil_iff.mpr
      intro x hx
      exact (List.mem_replicate.mp hx).2
    | some t =>
      rw [Option.map_some, Option.getD_some, Pte.used, (h t List.mem_cons_self).within_pages]
      rfl

theorem le_lastof {c : ℕ → Bool} {n j : ℕ} (hj : j < n) (hc : c j = true) :
    j ≤ (List.range n).foldl (fun last j => if c j then j else last) 0 := by
  induction n with
  | zero => omega
  | succ n ih =>
    rw [List.range_succ, List.foldl_append, List.foldl_cons, List.foldl_nil]
    split
    · omega
    · rename_i hnot
      apply ih
      rcases Nat.lt_succ_iff_lt_or_eq.mp hj with hlt | rfl
      · exact hlt
      · exact absurd hc hnot

theorem le_lastused {t : Pte P} {j : ℕ} (hj : j < PTEPERTAB) (hw : t.within j = true) {p : P}
    (hp : t.pages[j]? = some (some p)) : j ≤ lastused t := by
  have hc : (t.within j && (t.pages[j]?.join).isSome) = true := by
    rw [hw, hp]
    rfl
  have hle := le_lastof (c := fun j => t.within j && (t.pages[j]?.join).isSome) hj hc
  have heq : (List.range PTEPERTAB).foldl
      (fun last j => if t.within j && (t.pages[j]?.join).isSome then j else last) 0 = lastused t := by
    unfold lastused
    rfl
  exact le_of_le_of_eq hle heq

theorem PteOk.ptecpy {t : Pte P} (h : PteOk t) : PteOk (ptecpy t) ∧ (ptecpy t).pages = t.pages := by
  have hpages : (Vm.ptecpy t).pages = t.pages := h.within_pages
  refine ⟨⟨by rw [hpages]; exact h.length, fun j p hj => ?_⟩, hpages⟩
  rw [hpages] at hj
  have hw := h.used j p hj
  have hlt : j < PTEPERTAB := by
    rw [← h.length]
    exact (List.getElem?_eq_some_iff.mp hj).1
  have hle := le_lastused hlt hw hj
  have hlast : (Vm.ptecpy t).last = lastused t := rfl
  simp only [Pte.within, Bool.and_eq_true, decide_eq_true_eq] at hw ⊢
  rw [hlast]
  exact ⟨hw.1, hle⟩

theorem copymap_eq {map : List (Option (Pte P))} {n : ℕ} (hn : map.length ≤ n) :
    copymap (List.replicate n none) map = some (map.map (Option.map ptecpy) ++ List.replicate (n - map.length) none) := by
  induction map generalizing n with
  | nil => simp [copymap]
  | cons o map ih =>
    obtain ⟨n, rfl⟩ : ∃ n', n = n' + 1 := ⟨n - 1, by rw [List.length_cons] at hn; omega⟩
    rw [List.replicate_succ, List.length_cons, Nat.add_sub_add_right, List.map_cons, List.cons_append]
    cases o with
    | none => rw [copymap, ih (Nat.le_of_succ_le_succ hn), Option.map_some, Option.map_none]
    | some t => rw [copymap, ih (Nat.le_of_succ_le_succ hn), Option.map_some, Option.map_some]

/-- The entries of a map that has got longer. -/
theorem flatMap_cell_replicate (n : ℕ) : (List.replicate n (none : Option (Pte P))).flatMap cell = List.replicate (n * PTEPERTAB) none := by
  induction n with
  | zero => simp
  | succ n ih =>
    rw [List.replicate_succ, List.flatMap_cons, ih, cell, ← List.replicate_add]
    congr 1
    rw [Nat.succ_mul, Nat.add_comm]

theorem MapOk.copy {map : List (Option (Pte P))} (h : MapOk map) (n : ℕ) :
    MapOk (map.map (Option.map ptecpy) ++ List.replicate n none) ∧
      (map.map (Option.map ptecpy) ++ List.replicate n none).flatMap cell =
        map.flatMap cell ++ List.replicate (n * PTEPERTAB) none := by
  constructor
  · intro t ht
    rcases List.mem_append.mp ht with hmem | hmem
    · obtain ⟨o, ho, heq⟩ := List.mem_map.mp hmem
      cases o with
      | none => cases heq
      | some t' =>
        obtain rfl := Option.some.inj heq
        exact (h t' ho).ptecpy.1
    · cases (List.mem_replicate.mp hmem).2
  · rw [List.flatMap_append, flatMap_cell_replicate]
    congr 1
    induction map with
    | nil => rfl
    | cons o map ih =>
      rw [List.map_cons, List.flatMap_cons, List.flatMap_cons, ih fun t ht => h t (List.mem_cons_of_mem _ ht)]
      congr 1
      cases o with
      | none => rfl
      | some t => exact (h t List.mem_cons_self).ptecpy.2

theorem MapOk.grow {map : List (Option (Pte P))} (h : MapOk map) (n : ℕ) : MapOk (map ++ List.replicate n none) ∧
    (map ++ List.replicate n none).flatMap cell = map.flatMap cell ++ List.replicate (n * PTEPERTAB) none := by
  constructor
  · intro t ht
    rcases List.mem_append.mp ht with hmem | hmem
    · exact h t hmem
    · cases (List.mem_replicate.mp hmem).2
  · rw [List.flatMap_append, flatMap_cell_replicate]

/-- Empty entries at the end make no difference. -/
theorem join_append_none {o : List (Option P)} (n k : ℕ) : (o ++ List.replicate n none)[k]?.join = o[k]?.join := by
  rw [List.getElem?_append]
  split
  · rfl
  · rename_i hk
    rw [List.getElem?_replicate, List.getElem?_eq_none (by omega)]
    split <;> rfl

theorem filterMap_append_none {o : List (Option P)} (n : ℕ) : (o ++ List.replicate n none).filterMap id = o.filterMap id := by
  rw [List.filterMap_append]
  have hnil : (List.replicate n (none : Option P)).filterMap id = [] := by
    apply List.filterMap_eq_nil_iff.mpr
    intro x hx
    exact (List.mem_replicate.mp hx).2
  rw [hnil, List.append_nil]

end Copies

section Forks

theorem ptes_eq {n : ℕ} (hn : n + PTEPERTAB ≤ 2 ^ 32) : ptes n = (n + 255) / 256 := by
  simp only [ptes, usize, PTEPERTAB] at *
  omega

theorem mapsize_eq (n : ℕ) : mapsize n = if ptes n > 16 then min (ptes n * 2) 65536 else 16 := rfl

theorem ptes_le_mapsize {n : ℕ} (hn : n ≤ SEGMAPSIZE * PTEPERTAB) : ptes n ≤ mapsize n := by
  simp only [SEGMAPSIZE, PTEPERTAB] at hn
  rw [mapsize_eq, ptes_eq (by simp only [PTEPERTAB]; omega)]
  split <;> omega

theorem mapsize_mono {a b : ℕ} (hab : a ≤ b) (hb : b ≤ SEGMAPSIZE * PTEPERTAB) : mapsize a ≤ mapsize b := by
  simp only [SEGMAPSIZE, PTEPERTAB] at hb
  rw [mapsize_eq, mapsize_eq, ptes_eq (by simp only [PTEPERTAB]; omega), ptes_eq (by simp only [PTEPERTAB]; omega)]
  split <;> split <;> omega

theorem usize_eq {n : ℕ} (hn : n < 2 ^ 32) : usize n = n := Nat.mod_eq_of_lt hn

theorem newseg_eq {type : SegType} {base top : ℕ} (hb : base % PGSZ = 0) (ht : top % PGSZ = 0)
    (hsize : (top - base) / PGSZ ≤ SEGMAPSIZE * PTEPERTAB) :
    (newseg type base top : Option (Seg P I)) = some
      { type := type, base := base, top := top, fstart := 0, flen := 0, image := none, ref := 1
        map := List.replicate (mapsize ((top - base) / PGSZ)) none, priv := fun _ => 0 } := by
  have husize : usize ((top - base) / PGSZ) = (top - base) / PGSZ := usize_eq (lt_of_le_of_lt hsize (by decide))
  rw [newseg, if_neg (by rw [hb, ht]; simp)]
  simp only [husize]
  rw [if_neg (Nat.not_lt.mpr hsize)]

theorem fresh_slots (n : ℕ) : MapOk (List.replicate n (none : Option (Pte P))) ∧
    ∀ k : ℕ, ((List.replicate n (none : Option (Pte P))).flatMap cell)[k]?.join = none := by
  constructor
  · intro t ht
    cases (List.mem_replicate.mp ht).2
  · intro k
    rw [flatMap_cell_replicate, List.getElem?_replicate]
    split <;> rfl

/-- A new segment refers to an image. -/
def refimage (m : Mem P I) : Option I → Mem P I
  | some i => { m with iref := Function.update m.iref i (m.iref i + 1) }
  | none => m

/-- The copy of a segment sees the same memory through the same pages. -/
theorem dupseg_spec (h : SegOk w m.data s) (htype : s.type ≠ .TEXT) :
    ∃ n, dupseg m s = some (share (refimage m s.image) s.pages, s, some n) ∧
      SegOk w m.data n ∧ n.pages = s.pages ∧ n.image = s.image ∧ n.priv = s.priv := by
  have hcopy := copymap_eq h.least
  obtain ⟨hmap, hslots⟩ := h.map.copy (mapsize ((s.top - s.base) / PGSZ) - s.map.length)
  have hlen : (s.map.map (Option.map ptecpy) ++
      List.replicate (mapsize ((s.top - s.base) / PGSZ) - s.map.length) none).length =
        mapsize ((s.top - s.base) / PGSZ) := by
    rw [List.length_append, List.length_map, List.length_replicate]
    have hle := h.least
    omega
  have hslot : ∀ n : Seg P I, n.map = s.map.map (Option.map ptecpy) ++
      List.replicate (mapsize ((s.top - s.base) / PGSZ) - s.map.length) none → ∀ k, n.slot k = s.slot k := by
    intro n hn k
    rw [← hn] at hmap hslots
    rw [hmap.slot_eq, h.map.slot_eq, Seg.slots, hslots, join_append_none]
    rfl
  have hpages : ∀ n : Seg P I, n.map = s.map.map (Option.map ptecpy) ++
      List.replicate (mapsize ((s.top - s.base) / PGSZ) - s.map.length) none → n.pages = s.pages := by
    intro n hn
    rw [← hn] at hslots
    rw [Seg.pages, Seg.slots, hslots, filterMap_append_none]
    rfl
  have hused : (s.map.flatMap fun t => (t.map Pte.used).getD []) = s.pages := h.map.used_eq
  have hroom : ptes ((s.top - s.base) / PGSZ) ≤ mapsize ((s.top - s.base) / PGSZ) := ptes_le_mapsize h.size
  have hk := h.kind
  have hbuild : ∀ n : Seg P I, n.type = s.type → n.base = s.base → n.top = s.top → n.ref = 1 → n.image = s.image →
      (s.image ≠ none → n.fstart = s.fstart ∧ n.flen = s.flen) → n.priv = s.priv →
      n.map = s.map.map (Option.map ptecpy) ++
        List.replicate (mapsize ((s.top - s.base) / PGSZ) - s.map.length) none → SegOk w m.data n := by
    intro n hty hb ht hr hi hf hp hm
    refine
      { base := by rw [hb]; exact h.base, order := by rw [hb, ht]; exact h.order, top := by rw [ht]; exact h.top
        ref := by rw [hr]; exact ⟨le_rfl, fun _ => rfl⟩, map := by rw [hm]; exact hmap
        size := by rw [hb, ht]; exact h.size, room := by rw [hb, ht, hm, hlen]; exact hroom
        least := by rw [hb, ht, hm, hlen], kind := ?_, view := fun k p hkp => ?_, empty := fun k hkn => ?_ }
    · rw [hty, hi, hb, ht]
      cases hs : s.type with
      | TEXT => exact absurd hs htype
      | DATA =>
        rw [hs] at hk
        obtain ⟨i, hl, hle⟩ := hk
        obtain ⟨hf₁, hf₂⟩ := hf (by rw [hl.image]; exact Option.some_ne_none i)
        rw [hf₁, hf₂]
        exact ⟨i, hl, hle⟩
      | BSS =>
        rw [hs] at hk
        exact hk
      | STACK =>
        rw [hs] at hk
        exact hk
    · rw [hslot n hm] at hkp
      rw [hp]
      exact h.view k p hkp
    · rw [hslot n hm] at hkn
      have he := h.empty k hkn
      rw [hi, hp]
      cases hs : s.image with
      | none =>
        rw [hs] at he
        exact he
      | some i =>
        rw [hs] at he
        obtain ⟨hf₁, hf₂⟩ := hf (by rw [hs]; exact Option.some_ne_none i)
        rw [hf₁, hf₂]
        exact he
  have hnew : newseg s.type s.base s.top = some (⟨s.type, s.base, s.top, 0, 0, none, 1,
      List.replicate (mapsize ((s.top - s.base) / PGSZ)) none, fun _ => 0⟩ : Seg P I) := newseg_eq h.base h.top h.size
  cases hty : s.type with
  | TEXT => exact absurd hty htype
  | DATA =>
    rw [hty] at hnew
    refine ⟨⟨.DATA, s.base, s.top, s.fstart, s.flen, s.image, 1, _, s.priv⟩, ?_,
      hbuild _ hty.symm rfl rfl rfl rfl (fun _ => ⟨rfl, rfl⟩) rfl rfl, hpages _ rfl, rfl, rfl⟩
    simp only [dupseg, hty, hnew, Option.bind_some, if_true, hcopy, Option.map_some, hused]
    cases s.image <;> rfl
  | BSS =>
    rw [hty] at hnew hk
    have hnone : s.image = none := hk
    simp only [dupseg, hty, hnew, Option.bind_some, reduceCtorEq, if_false, hcopy, Option.map_some, hused, hnone]
    exact ⟨_, rfl, hbuild _ hty.symm rfl rfl rfl hnone.symm (fun hc => absurd hnone hc) rfl rfl, hpages _ rfl, rfl, rfl⟩
  | STACK =>
    rw [hty] at hnew hk
    have hnone : s.image = none := hk
    simp only [dupseg, hty, hnew, Option.bind_some, reduceCtorEq, if_false, hcopy, Option.map_some, hused, hnone]
    exact ⟨_, rfl, hbuild _ hty.symm rfl rfl rfl hnone.symm (fun hc => absurd hnone hc) rfl rfl, hpages _ rfl, rfl, rfl⟩

/-- A segment grows by empty entries. -/
theorem ibrk_spec (h : SegOk w m.data s) (htype : s.type = .BSS) {addr : ℕ} (hgrow : s.top ≤ ROUNDUP addr PGSZ)
    (hsmall : (ROUNDUP addr PGSZ - s.base) / PGSZ + PTEPERTAB ≤ 2 ^ 32) :
    SegOk w m.data (ibrk s addr) ∧ (ibrk s addr).pages = s.pages ∧ (ibrk s addr).image = s.image ∧
      (ibrk s addr).priv = s.priv := by
  have husize : usize ((ROUNDUP addr PGSZ - s.base) / PGSZ) = (ROUNDUP addr PGSZ - s.base) / PGSZ :=
    usize_eq (lt_of_lt_of_le (Nat.lt_add_of_pos_right ptes_pos) hsmall)
  rw [ibrk]
  simp only [husize]
  split
  · exact ⟨h, rfl, rfl, rfl⟩
  · rename_i hfits
    have hsize : (ROUNDUP addr PGSZ - s.base) / PGSZ ≤ SEGMAPSIZE * PTEPERTAB := by
      rw [ptes_eq hsmall] at hfits
      simp only [SEGMAPSIZE, PTEPERTAB] at *
      omega
    have hle : (s.top - s.base) / PGSZ ≤ (ROUNDUP addr PGSZ - s.base) / PGSZ :=
      Nat.div_le_div_right (Nat.sub_le_sub_right hgrow _)
    obtain ⟨hmap, hslots⟩ := h.map.grow (ptes ((ROUNDUP addr PGSZ - s.base) / PGSZ) - s.map.length)
    have hslot : ∀ k, Seg.slot { s with
        top := ROUNDUP addr PGSZ
        map := s.map ++ List.replicate (ptes ((ROUNDUP addr PGSZ - s.base) / PGSZ) - s.map.length) none } k = s.slot k := by
      intro k
      rw [MapOk.slot_eq (s := { s with
        top := ROUNDUP addr PGSZ
        map := s.map ++ List.replicate (ptes ((ROUNDUP addr PGSZ - s.base) / PGSZ) - s.map.length) none }) hmap,
        h.map.slot_eq, Seg.slots, hslots, join_append_none]
      rfl
    have hlen : (s.map ++ List.replicate (ptes ((ROUNDUP addr PGSZ - s.base) / PGSZ) - s.map.length) none).length =
        max s.map.length (ptes ((ROUNDUP addr PGSZ - s.base) / PGSZ)) := by
      rw [List.length_append, List.length_replicate]
      omega
    have hk := h.kind
    rw [htype] at hk
    refine ⟨?_, ?_, rfl, rfl⟩
    · exact
        { base := h.base, order := le_trans h.order hgrow
          top := by
            simp only [ROUNDUP]
            exact Nat.mul_mod_left _ _
          ref := h.ref, map := hmap, size := hsize
          room := by
            simp only [hlen]
            exact le_max_right _ _
          least := by
            simp only [hlen]
            exact max_le (le_trans h.least (mapsize_mono hle hsize)) (ptes_le_mapsize hsize)
          kind := by
            simp only [htype]
            exact hk
          view := fun k p hp => h.view k p (by rw [← hslot]; exact hp)
          empty := fun k hp => h.empty k (by rw [← hslot]; exact hp) }
    · rw [Seg.pages, Seg.slots, hslots, filterMap_append_none]
      rfl

end Forks

end Petele.Vm
