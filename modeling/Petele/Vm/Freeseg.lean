import Petele.Vm.FaultInv

set_option linter.unusedSectionVars false

namespace Petele.Vm

open Lib

variable {P I : Type} [DecidableEq P] [DecidableEq I] [Fintype P]

section Entries

variable {next : P → Option P} {list : Option P} {map : List (Option (List (Option P)))} {n j : ℕ}

/-- The entries of a part of the map. -/
def entries (pte : Option (List (Option P))) : List (Option P) := pte.getD (List.replicate PTEPERTAB none)

/-- Each table of the map has all of its entries. -/
def Tables (map : List (Option (List (Option P)))) : Prop := ∀ pg, some pg ∈ map → pg.length = PTEPERTAB

theorem Tables.entries_length (h : Tables map) : ∀ o ∈ map, (entries o).length = PTEPERTAB := by
  intro o ho
  cases o with
  | none => exact List.length_replicate
  | some pg => exact h pg ho

/-- The range of `n` entries from `j` on ends in the middle of a missing table. -/
def Hole (j n : ℕ) (map : List (Option (List (Option P)))) : Prop :=
  n ≠ 0 ∧ (j + n) % PTEPERTAB ≠ 0 ∧ map[(j + n) / PTEPERTAB]? = some none

instance : Decidable (Hole j n map) := inferInstanceAs (Decidable (_ ∧ _ ∧ _))

/-- Where the loop over `n` entries from `j` on ends. -/
def reach (j n : ℕ) (map : List (Option (List (Option P)))) : ℕ := if Hole j n map then map.length * PTEPERTAB else j + n

theorem ofNat_sub_one {n : ℕ} (hn : 0 < n) : BitVec.ofNat 32 n - 1 = BitVec.ofNat 32 (n - 1) := by
  obtain ⟨n, rfl⟩ := Nat.exists_eq_add_of_lt hn
  bv_omega

theorem ofNat_eq_zero {n : ℕ} (hn : n < 2 ^ 32) : BitVec.ofNat 32 n = 0 ↔ n = 0 := by
  bv_omega

/-- An entry whose page is gone. -/
def blank (o : Option (Option P)) : Option (Option P) := o.map fun _ => none

theorem freepages_entries (next : P → Option P) (list : Option P) (hn : 0 < n) (hlt : n < 2 ^ 32) (cells : List (Option P)) :
    (freepages next list (BitVec.ofNat 32 n) cells).2.2.1 = BitVec.ofNat 32 (n - cells.length) ∧
      (freepages next list (BitVec.ofNat 32 n) cells).2.2.2.length = cells.length ∧
      ∀ i, (freepages next list (BitVec.ofNat 32 n) cells).2.2.2[i]? = if i < n then blank cells[i]? else cells[i]? := by
  induction cells generalizing next list n with
  | nil =>
    refine ⟨rfl, rfl, fun i => ?_⟩
    split <;> rfl
  | cons o rest ih =>
    rw [freepages.eq_def]
    simp only [ofNat_sub_one hn]
    by_cases hone : n = 1
    · subst hone
      rw [if_pos (by rfl)]
      refine ⟨by rw [List.length_cons, Nat.sub_eq_zero_of_le (Nat.le_add_left 1 _)]; rfl, rfl, fun i => ?_⟩
      cases i with
      | zero => rfl
      | succ i =>
        rw [List.getElem?_cons_succ, List.getElem?_cons_succ, if_neg (by omega : ¬i + 1 < 1)]
    · rw [if_neg (by rw [ofNat_eq_zero (by omega)]; omega)]
      have hrest := fun next list => ih next list (n := n - 1) (by omega) (by omega)
      refine ⟨?_, ?_, fun i => ?_⟩
      · rw [(hrest _ _).1, List.length_cons, Nat.sub_sub, Nat.add_comm 1]
      · rw [List.length_cons, (hrest _ _).2.1, List.length_cons]
      · cases i with
        | zero =>
          rw [if_pos hn]
          rfl
        | succ i =>
          rw [List.getElem?_cons_succ, List.getElem?_cons_succ, (hrest _ _).2.2]
          exact if_congr (by omega) rfl rfl

theorem Tables.tail {pte : Option (List (Option P))} (h : Tables (pte :: map)) : Tables map :=
  fun pg hpg => h pg (List.mem_cons_of_mem _ hpg)

theorem Tables.cons {pte : Option (List (Option P))} (h : Tables map) (hpte : (entries pte).length = PTEPERTAB) :
    Tables (pte :: map) := by
  intro pg hpg
  rcases List.mem_cons.mp hpg with rfl | hmem
  · exact hpte
  · exact h pg hmem

/-- An entry of the first part of a map, and one of the others. -/
theorem entries_first {pte : Option (List (Option P))} (hpte : (entries pte).length = PTEPERTAB) {i : ℕ} (hi : i < PTEPERTAB) :
    ((pte :: map).flatMap entries)[i]? = (entries pte)[i]? := by
  rw [List.flatMap_cons, List.getElem?_append_left (by omega)]

theorem entries_later {pte : Option (List (Option P))} (hpte : (entries pte).length = PTEPERTAB) {i : ℕ} (hi : PTEPERTAB ≤ i) :
    ((pte :: map).flatMap entries)[i]? = (map.flatMap entries)[i - PTEPERTAB]? := by
  rw [List.flatMap_cons, List.getElem?_append_right (by omega), hpte]

/-- The range goes on behind the first part of the map. -/
theorem reach_later {pte : Option (List (Option P))} (h : PTEPERTAB < j + n) (hj : j < PTEPERTAB) :
    reach j n (pte :: map) = PTEPERTAB + reach 0 (j + n - PTEPERTAB) map := by
  have hdiv : (j + n) / PTEPERTAB = (j + n - PTEPERTAB) / PTEPERTAB + 1 := by
    simp only [PTEPERTAB] at *
    omega
  have hmod : (j + n) % PTEPERTAB = (j + n - PTEPERTAB) % PTEPERTAB := by
    simp only [PTEPERTAB] at *
    omega
  have hhole : Hole j n (pte :: map) ↔ Hole 0 (j + n - PTEPERTAB) map := by
    rw [Hole, Hole, hdiv, hmod, Nat.zero_add, List.getElem?_cons_succ]
    exact and_congr_left' (by omega)
  simp only [reach, hhole, List.length_cons]
  split
  · rw [Nat.succ_mul, Nat.add_comm]
  · omega

/-- The range ends in or with the first part of the map. -/
theorem reach_first {pte : Option (List (Option P))} (h : j + n ≤ PTEPERTAB) :
    reach j n (pte :: map) = if n ≠ 0 ∧ j + n < PTEPERTAB ∧ pte = none then (map.length + 1) * PTEPERTAB else j + n := by
  have hhole : Hole j n (pte :: map) ↔ n ≠ 0 ∧ j + n < PTEPERTAB ∧ pte = none := by
    rw [Hole]
    rcases Nat.lt_or_eq_of_le h with hlt | heq
    · rw [Nat.mod_eq_of_lt hlt, Nat.div_eq_of_lt hlt, List.getElem?_cons_zero, Option.some.injEq]
      exact and_congr_right fun hn => ⟨fun hc => ⟨hlt, hc.2⟩, fun hc => ⟨by omega, hc.2⟩⟩
    · rw [heq, Nat.mod_self]
      simp
  simp only [reach, hhole, List.length_cons]

theorem not_hole_of_length (h : map.length * PTEPERTAB ≤ n) : ¬Hole j n map := by
  rintro ⟨-, -, hmap⟩
  have hlt := (List.getElem?_eq_some_iff.mp hmap).1
  simp only [PTEPERTAB] at *
  omega

/-- What the loop does to the entries. When the range ends in the middle of a missing table, `pages` has
wrapped around and the loop goes on to the end of the map. -/
theorem freemap_entries (next : P → Option P) (list : Option P) (hj : j < PTEPERTAB) (hn : n < 2 ^ 32)
    (hmap : Tables map) (hlen : map.length ≤ SEGMAPSIZE) :
    Tables (freemap next list (BitVec.ofNat 32 n) j map).2.2 ∧
      ∀ i, ((freemap next list (BitVec.ofNat 32 n) j map).2.2.flatMap entries)[i]? =
        if j ≤ i ∧ i < reach j n map then blank (map.flatMap entries)[i]? else (map.flatMap entries)[i]? := by
  induction map generalizing next list n j with
  | nil =>
    refine ⟨hmap, fun i => ?_⟩
    split <;> rfl
  | cons pte rest ih =>
    have hrest : rest.length ≤ SEGMAPSIZE := Nat.le_of_succ_le hlen
    have hpte := hmap.entries_length pte List.mem_cons_self
    have hsmall : rest.length * PTEPERTAB ≤ 2 ^ 32 - PTEPERTAB := by
      simp only [SEGMAPSIZE, PTEPERTAB] at *
      omega
    rw [freemap.eq_def]
    simp only
    by_cases h0 : n = 0
    · rw [if_pos ((ofNat_eq_zero hn).mpr h0), reach, if_neg fun hc => hc.1 h0, h0]
      refine ⟨hmap, fun i => ?_⟩
      rw [if_neg (by omega)]
    rw [if_neg (by rw [ofNat_eq_zero hn]; exact h0)]
    cases pte with
    | none =>
      simp only
      have hnone : ∀ i < PTEPERTAB, (entries (none : Option (List (Option P))))[i]? = some none := fun i hi => by
        rw [entries, Option.getD_none, List.getElem?_replicate, if_pos hi]
      by_cases hend : j + n < PTEPERTAB
      · -- `pages` wraps around
        have hwrap : BitVec.ofNat 32 n - BitVec.ofNat 32 (PTEPERTAB - j) = BitVec.ofNat 32 (2 ^ 32 - (PTEPERTAB - j - n)) := by
          simp only [PTEPERTAB] at *
          bv_omega
        have hbig : rest.length * PTEPERTAB ≤ 2 ^ 32 - (PTEPERTAB - j - n) := by omega
        obtain ⟨htab, hcells⟩ := ih next list (n := 2 ^ 32 - (PTEPERTAB - j - n)) (j := 0) (by decide) (by omega) hmap.tail hrest
        rw [hwrap, reach_first (by omega), if_pos ⟨h0, hend, rfl⟩]
        refine ⟨htab.cons hpte, fun i => ?_⟩
        rcases Nat.lt_or_ge i PTEPERTAB with hi | hi
        · rw [entries_first hpte hi, entries_first hpte hi, hnone i hi]
          split <;> rfl
        · rw [entries_later hpte hi, entries_later hpte hi, hcells, reach, if_neg (not_hole_of_length hbig), Nat.succ_mul]
          by_cases hin : i - PTEPERTAB < rest.length * PTEPERTAB
          · rw [if_pos (by omega), if_pos (by omega)]
          · have hout : (rest.flatMap entries)[i - PTEPERTAB]? = none := by
              rw [List.getElem?_eq_none]
              rw [length_flatMap_chunk hmap.tail.entries_length]
              omega
            rw [hout]
            split <;> split <;> rfl
      · have hleft : BitVec.ofNat 32 n - BitVec.ofNat 32 (PTEPERTAB - j) = BitVec.ofNat 32 (j + n - PTEPERTAB) := by
          simp only [PTEPERTAB] at *
          bv_omega
        obtain ⟨htab, hcells⟩ := ih next list (n := j + n - PTEPERTAB) (j := 0) (by decide) (by omega) hmap.tail hrest
        rw [hleft]
        refine ⟨htab.cons hpte, fun i => ?_⟩
        have hreach : reach j n (none :: rest) = PTEPERTAB + reach 0 (j + n - PTEPERTAB) rest := by
          rcases Nat.lt_or_eq_of_le (Nat.le_of_not_lt hend) with hlt | heq
          · exact reach_later hlt hj
          · rw [reach_first (by omega), if_neg (by omega), ← heq, Nat.sub_self, reach, if_neg fun hc => hc.1 rfl]
            rfl
        rw [hreach]
        rcases Nat.lt_or_ge i PTEPERTAB with hi | hi
        · rw [entries_first hpte hi, entries_first hpte hi, hnone i hi]
          split <;> rfl
        · rw [entries_later hpte hi, entries_later hpte hi, hcells]
          exact if_congr (by omega) rfl rfl
    | some pg =>
      simp only
      have hpg : pg.length = PTEPERTAB := hpte
      obtain ⟨hleft, hlen', hcells⟩ := freepages_entries next list (Nat.pos_of_ne_zero h0) hn (pg.drop j)
      rw [List.length_drop, hpg] at hleft hlen'
      have hpte' : ∀ i < PTEPERTAB, (entries (some (pg.take j ++
          (freepages next list (BitVec.ofNat 32 n) (pg.drop j)).2.2.2)))[i]? =
            if j ≤ i ∧ i < j + n then blank pg[i]? else pg[i]? := by
        intro i hi
        rw [entries, Option.getD_some]
        rcases Nat.lt_or_ge i j with hij | hij
        · rw [List.getElem?_append_left (by rw [List.length_take]; omega), List.getElem?_take, if_pos hij, if_neg (by omega)]
        · rw [List.getElem?_append_right (by rw [List.length_take]; omega), List.length_take, hcells, List.getElem?_drop,
            Nat.min_eq_left (by omega), Nat.add_sub_cancel' hij]
          exact if_congr (by omega) rfl rfl
      have hlength : (entries (some (pg.take j ++
          (freepages next list (BitVec.ofNat 32 n) (pg.drop j)).2.2.2))).length = PTEPERTAB := by
        rw [entries, Option.getD_some, List.length_append, hlen', List.length_take]
        omega
      have hold : entries (some pg) = pg := rfl
      rw [hleft]
      by_cases hend : j + n ≤ PTEPERTAB
      · rw [if_pos (by rw [Nat.sub_eq_zero_of_le (by omega)]; rfl), reach_first hend, if_neg (by simp)]
        refine ⟨hmap.tail.cons hlength, fun i => ?_⟩
        rcases Nat.lt_or_ge i PTEPERTAB with hi | hi
        · rw [entries_first hlength hi, entries_first hpte hi, hpte' i hi, hold]
        · rw [entries_later hlength hi, entries_later hpte hi, if_neg (by omega)]
      · rw [if_neg (by rw [ofNat_eq_zero (by omega)]; omega), reach_later (by omega) hj]
        obtain ⟨htab, hrest'⟩ := ih (freepages next list (BitVec.ofNat 32 n) (pg.drop j)).1
          (freepages next list (BitVec.ofNat 32 n) (pg.drop j)).2.1 (n := n - (PTEPERTAB - j)) (j := 0) (by decide) (by omega)
          hmap.tail hrest
        have heq : n - (PTEPERTAB - j) = j + n - PTEPERTAB := by omega
        rw [heq] at htab hrest' ⊢
        refine ⟨htab.cons hlength, fun i => ?_⟩
        rcases Nat.lt_or_ge i PTEPERTAB with hi | hi
        · rw [entries_first hlength hi, entries_first hpte hi, hpte' i hi, hold]
          exact if_congr (by omega) rfl rfl
        · rw [entries_later hlength hi, entries_later hpte hi, hrest']
          exact if_congr (by omega) rfl rfl

/-- No page is in two entries. -/
theorem entry_unique {l : List (Option P)} (h : (l.filterMap id).Nodup) {i k : ℕ} {p : P} (hi : l[i]? = some (some p))
    (hk : l[k]? = some (some p)) : i = k := by
  induction l generalizing i k with
  | nil => cases hi
  | cons o l ih =>
    have hmem : ∀ {n : ℕ}, l[n]? = some (some p) → p ∈ l.filterMap id :=
      fun hn => List.mem_filterMap.mpr ⟨some p, List.mem_of_getElem? hn, rfl⟩
    have hfirst : ∀ {n : ℕ}, o = some p → l[n]? = some (some p) → False := by
      rintro n rfl hn
      exact (List.nodup_cons.mp h).1 (hmem hn)
    cases i with
    | zero =>
      cases k with
      | zero => rfl
      | succ k => exact absurd (hfirst (Option.some.inj hi) hk) id
    | succ i =>
      cases k with
      | zero => exact absurd (hfirst (Option.some.inj hk) hi) id
      | succ k =>
        have hl : (l.filterMap id).Nodup := h.sublist ((List.sublist_cons_self o l).filterMap id)
        rw [ih hl hi hk]

end Entries

section Freeing

variable {e : Env I} {m m' : Mem P I} {held : I → ℤ} {s s' : Segment P} {start top addr : ℕ} {p : P}

/-- The page at an address. -/
def Segment.page (s : Segment P) (addr : ℕ) : Option P :=
  let soff := addr - s.base
  (s.map[soff / s.ptemapmem]?.join).bind fun pg => pg[(soff % s.ptemapmem) >>> s.lg2pgsize]?.join

/-- A segment that is aligned, no larger than segments may be, and has a page at one address only. -/
structure Segment.Ok (s : Segment P) : Prop where
  tables : Tables s.map
  small : s.map.length ≤ SEGMAPSIZE
  base : s.base % 2 ^ s.lg2pgsize = 0
  nodup : s.pages.Nodup

/-- The number of the entry for an address. -/
def Segment.entry (s : Segment P) (addr : ℕ) : ℕ := (addr - s.base) / 2 ^ s.lg2pgsize

theorem Segment.ptemapmem_eq (s : Segment P) : s.ptemapmem = 2 ^ s.lg2pgsize * PTEPERTAB := by
  rw [Segment.ptemapmem, Nat.shiftLeft_eq, Nat.mul_comm]

theorem Segment.entry_div (s : Segment P) (addr : ℕ) : (addr - s.base) / s.ptemapmem = s.entry addr / PTEPERTAB := by
  rw [s.ptemapmem_eq, Segment.entry, Nat.div_div_eq_div_mul]

theorem Segment.entry_mod (s : Segment P) (addr : ℕ) :
    ((addr - s.base) % s.ptemapmem) >>> s.lg2pgsize = s.entry addr % PTEPERTAB := by
  rw [s.ptemapmem_eq, Segment.entry, Nat.shiftRight_eq_div_pow, Nat.mod_mul_right_div_self]

theorem Segment.page_eq (h : Tables s.map) (addr : ℕ) : s.page addr = (s.map.flatMap entries)[s.entry addr]?.join := by
  rw [getElem?_flatMap ptes_pos h.entries_length, Segment.page]
  simp only [s.entry_div, s.entry_mod]
  cases hi : s.map[s.entry addr / PTEPERTAB]? with
  | none => rfl
  | some o =>
    cases o with
    | none =>
      rw [Option.bind_some, entries, Option.getD_none, List.getElem?_replicate, if_pos (Nat.mod_lt _ ptes_pos)]
      rfl
    | some pg => rfl

theorem Segment.pages_eq (s : Segment P) : s.pages = (s.map.flatMap entries).filterMap id := by
  rw [Segment.pages, List.filterMap_flatMap]
  congr 1
  funext o
  cases o with
  | none =>
    symm
    apply List.filterMap_eq_nil_iff.mpr
    intro x hx
    exact (List.mem_replicate.mp hx).2
  | some pg => rfl

/-- The range ends inside a table that is missing. -/
def Segment.Hole (s : Segment P) (start top : ℕ) : Prop :=
  start < top ∧ (top - s.base) % s.ptemapmem ≠ 0 ∧ s.map[(top - s.base) / s.ptemapmem]? = some none

instance : Decidable (s.Hole start top) := inferInstanceAs (Decidable (_ ∧ _ ∧ _))

/-- A page-aligned range of the map. -/
structure Segment.Range (s : Segment P) (start top : ℕ) : Prop where
  low : s.base ≤ start
  order : start ≤ top
  high : top ≤ s.base + s.map.length * s.ptemapmem
  start_aligned : start % 2 ^ s.lg2pgsize = 0
  top_aligned : top % 2 ^ s.lg2pgsize = 0

/-- The pages in `[start, top)` are taken out and put once each, and nothing else happens to the segment. -/
structure Freed (m m' : Mem P I) (s s' : Segment P) (start top : ℕ) : Prop where
  page : ∀ addr, s.base ≤ addr → s'.page addr = if start ≤ addr ∧ addr < top then none else s.page addr
  put : ∀ p, (∃ addr, start ≤ addr ∧ addr < top ∧ s.page addr = some p) → m'.ref p = m.ref p - 1
  kept : ∀ p, (¬∃ addr, start ≤ addr ∧ addr < top ∧ s.page addr = some p) → m'.ref p = m.ref p

/-- Addresses of a range and numbers of entries. -/
theorem entry_lt {b x y w : ℕ} (hw : 0 < w) (hb : b % w = 0) (hy : y % w = 0) (hby : b ≤ y) (hbx : b ≤ x) :
    (x - b) / w < (y - b) / w ↔ x < y := by
  obtain ⟨c, rfl⟩ := Nat.dvd_of_mod_eq_zero hb
  obtain ⟨d, rfl⟩ := Nat.dvd_of_mod_eq_zero hy
  have hcd : c ≤ d := Nat.le_of_mul_le_mul_left hby hw
  rw [← Nat.mul_sub, Nat.mul_div_cancel_left _ hw, Nat.div_lt_iff_lt_mul hw, Nat.sub_mul, Nat.mul_comm d w, Nat.mul_comm c w]
  omega

theorem Segment.Range.entries_lt (h : s.Range start top) : s.entry top ≤ s.map.length * PTEPERTAB := by
  have hpos : 0 < 2 ^ s.lg2pgsize := Nat.two_pow_pos _
  have hhigh := h.high
  rw [s.ptemapmem_eq, ← Nat.mul_assoc, Nat.mul_comm _ (2 ^ s.lg2pgsize), Nat.mul_assoc] at hhigh
  rw [Segment.entry]
  apply Nat.div_le_of_le_mul
  omega

theorem Segment.Range.pages_eq (h : s.Range start top) (hb : s.base % 2 ^ s.lg2pgsize = 0) :
    (top - start) >>> s.lg2pgsize = s.entry top - s.entry start ∧ s.entry start ≤ s.entry top ∧
      (s.entry start < s.entry top ↔ start < top) := by
  have hpos : 0 < 2 ^ s.lg2pgsize := Nat.two_pow_pos _
  have hlow := h.low
  have horder := h.order
  have hlt : s.entry start < s.entry top ↔ start < top := entry_lt hpos hb h.top_aligned (by omega) h.low
  have hle : s.entry start ≤ s.entry top := Nat.div_le_div_right (by omega)
  refine ⟨?_, hle, hlt⟩
  obtain ⟨a, ha⟩ : 2 ^ s.lg2pgsize ∣ start - s.base :=
    Nat.dvd_sub (Nat.dvd_of_mod_eq_zero h.start_aligned) (Nat.dvd_of_mod_eq_zero hb)
  have htop : top - start = (top - s.base) - 2 ^ s.lg2pgsize * a := by omega
  rw [Nat.shiftRight_eq_div_pow, htop, Segment.entry, Segment.entry, ha, Nat.mul_div_cancel_left _ hpos, Nat.sub_mul_div]

/-- The entries after `mfreeseg`. -/
theorem mfreeseg_entries (hs : s.Ok) (hr : s.Range start top) (hrun : mfreeseg m s start top = some (m', s')) :
    s'.base = s.base ∧ s'.lg2pgsize = s.lg2pgsize ∧ Tables s'.map ∧ ∀ i, (s'.map.flatMap entries)[i]? =
      if s.entry start ≤ i ∧ (i < s.entry top ∨ s.Hole start top) then blank (s.map.flatMap entries)[i]?
      else (s.map.flatMap entries)[i]? := by
  obtain ⟨hpages, hle, hlt⟩ := hr.pages_eq hs.base
  have hbound := hr.entries_lt
  have hsmall := hs.small
  rw [mfreeseg] at hrun
  simp only [hpages, s.entry_div, s.entry_mod] at hrun
  obtain ⟨m₁, -, heq⟩ := Option.map_eq_some_iff.mp hrun
  obtain ⟨rfl, rfl⟩ := Prod.mk.inj heq
  clear hrun heq
  -- the loop starts in the table `i₀`
  generalize hi₀ : s.entry start / PTEPERTAB = i₀
  have hstart : i₀ * PTEPERTAB + s.entry start % PTEPERTAB = s.entry start := by
    rw [← hi₀]
    exact Nat.div_add_mod' _ _
  have htables : Tables (s.map.drop i₀) := fun pg hpg => hs.tables pg (List.mem_of_mem_drop hpg)
  have htake : Tables (s.map.take i₀) := fun pg hpg => hs.tables pg (List.mem_of_mem_take hpg)
  obtain ⟨htab, hcells⟩ := freemap_entries m.next none (Nat.mod_lt (s.entry start) ptes_pos)
    (n := s.entry top - s.entry start) (by simp only [SEGMAPSIZE, PTEPERTAB] at *; omega) htables
    (le_trans (by rw [List.length_drop]; omega) hsmall)
  have hhole : Hole (s.entry start % PTEPERTAB) (s.entry top - s.entry start) (s.map.drop i₀) ↔ s.Hole start top := by
    have hend : i₀ * PTEPERTAB + (s.entry start % PTEPERTAB + (s.entry top - s.entry start)) = s.entry top := by omega
    have hmod : (top - s.base) % s.ptemapmem ≠ 0 ↔ s.entry top % PTEPERTAB ≠ 0 := by
      have hlow := hr.low
      have horder := hr.order
      obtain ⟨b, hb⟩ : 2 ^ s.lg2pgsize ∣ top - s.base :=
        Nat.dvd_sub (Nat.dvd_of_mod_eq_zero hr.top_aligned) (Nat.dvd_of_mod_eq_zero hs.base)
      have hpos : 0 < 2 ^ s.lg2pgsize := Nat.two_pow_pos _
      rw [Segment.entry, hb, s.ptemapmem_eq, Nat.mul_mod_mul_left, Nat.mul_div_cancel_left _ hpos, Nat.mul_ne_zero_iff]
      exact and_iff_right (Nat.pos_iff_ne_zero.mp hpos)
    have hq : i₀ + (s.entry start % PTEPERTAB + (s.entry top - s.entry start)) / PTEPERTAB = s.entry top / PTEPERTAB := by
      have hdiv := Nat.mul_add_div ptes_pos i₀ (s.entry start % PTEPERTAB + (s.entry top - s.entry start))
      rw [Nat.mul_comm, hend] at hdiv
      exact hdiv.symm
    have hr' : (s.entry start % PTEPERTAB + (s.entry top - s.entry start)) % PTEPERTAB = s.entry top % PTEPERTAB := by
      have hrest := Nat.mul_add_mod PTEPERTAB i₀ (s.entry start % PTEPERTAB + (s.entry top - s.entry start))
      rw [Nat.mul_comm, hend] at hrest
      exact hrest.symm
    rw [Hole, Segment.Hole, List.getElem?_drop, s.entry_div, ← hlt, hmod, hq, hr']
    exact and_congr_left' (by omega)
  have hparts : Tables (s.map.take i₀ ++
      (freemap m.next none (BitVec.ofNat 32 (s.entry top - s.entry start)) (s.entry start % PTEPERTAB) (s.map.drop i₀)).2.2) := by
    intro pg hpg
    rcases List.mem_append.mp hpg with hmem | hmem
    · exact htake pg hmem
    · exact htab pg hmem
  have hi : i₀ ≤ s.map.length := by
    rw [← hi₀]
    exact Nat.div_le_of_le_mul (by rw [Nat.mul_comm]; omega)
  have hlen : ((s.map.take i₀).flatMap entries).length = i₀ * PTEPERTAB := by
    rw [length_flatMap_chunk htake.entries_length, List.length_take, Nat.min_eq_left hi]
  have hold : s.map.flatMap entries = (s.map.take i₀).flatMap entries ++ (s.map.drop i₀).flatMap entries := by
    rw [← List.flatMap_append, List.take_append_drop]
  refine ⟨rfl, rfl, hparts, fun i => ?_⟩
  rw [List.flatMap_append, hold]
  rcases Nat.lt_or_ge i (i₀ * PTEPERTAB) with hlow | hhigh
  · rw [List.getElem?_append_left (by omega), List.getElem?_append_left (by omega), if_neg (by omega)]
  · rw [List.getElem?_append_right (by omega), List.getElem?_append_right (by omega), hlen, hcells]
    simp only [reach, hhole, List.length_drop]
    by_cases hh : s.Hole start top
    · simp only [hh, or_true, and_true, if_true]
      by_cases hin : i < s.map.length * PTEPERTAB
      · have hsub : (s.map.length - i₀) * PTEPERTAB = s.map.length * PTEPERTAB - i₀ * PTEPERTAB := Nat.sub_mul _ _ _
        exact if_congr (by rw [hsub]; omega) rfl rfl
      · have hout : ((s.map.drop i₀).flatMap entries)[i - i₀ * PTEPERTAB]? = none := by
          rw [List.getElem?_eq_none]
          rw [length_flatMap_chunk htables.entries_length, List.length_drop, Nat.sub_mul]
          omega
        rw [hout]
        split <;> split <;> rfl
    · simp only [hh, or_false, if_false]
      exact if_congr (by omega) rfl rfl

theorem blank_join (o : Option (Option P)) : (blank o).join = none := by
  cases o <;> rfl

/-- The pages after `mfreeseg`. -/
theorem mfreeseg_page (hs : s.Ok) (hr : s.Range start top) (hrun : mfreeseg m s start top = some (m', s'))
    (haddr : s.base ≤ addr) : s'.page addr =
      if start ≤ addr ∧ (addr < top ∨ s.Hole start top) then none else s.page addr := by
  obtain ⟨hbase, hlg, htab, hcells⟩ := mfreeseg_entries hs hr hrun
  have hentry : s'.entry addr = s.entry addr := by rw [Segment.entry, Segment.entry, hbase, hlg]
  have hpos : 0 < 2 ^ s.lg2pgsize := Nat.two_pow_pos _
  have hlow : s.entry addr < s.entry start ↔ addr < start := entry_lt hpos hs.base hr.start_aligned hr.low haddr
  have hhigh : s.entry addr < s.entry top ↔ addr < top :=
    entry_lt hpos hs.base hr.top_aligned (le_trans hr.low hr.order) haddr
  have hcond : (s.entry start ≤ s.entry addr ∧ (s.entry addr < s.entry top ∨ s.Hole start top)) ↔
      start ≤ addr ∧ (addr < top ∨ s.Hole start top) := by
    rw [hhigh, ← Nat.not_lt, hlow, Nat.not_lt]
  rw [Segment.page_eq htab, hentry, hcells, Segment.page_eq hs.tables]
  simp only [hcond]
  split
  · exact blank_join _
  · rfl

theorem Segment.page_mem (h : Tables s.map) (hp : s.page addr = some p) : p ∈ s.pages := by
  rw [Segment.page_eq h, Option.join_eq_some_iff] at hp
  rw [Segment.pages_eq]
  exact List.mem_filterMap.mpr ⟨some p, List.mem_of_getElem? hp, rfl⟩

theorem Segment.Ok.page_unique (hs : s.Ok) {addr' : ℕ} (hp : s.page addr = some p) (hp' : s.page addr' = some p) :
    s.entry addr = s.entry addr' := by
  rw [Segment.page_eq hs.tables, Option.join_eq_some_iff] at hp hp'
  have hnodup := hs.nodup
  rw [Segment.pages_eq] at hnodup
  exact entry_unique hnodup hp hp'

theorem Segment.mem_pages (h : Tables s.map) (hp : p ∈ s.pages) : ∃ addr, s.base ≤ addr ∧ s.page addr = some p := by
  rw [Segment.pages_eq] at hp
  obtain ⟨o, ho, heq⟩ := List.mem_filterMap.mp hp
  obtain ⟨i, hi, hget⟩ := List.getElem_of_mem ho
  refine ⟨s.base + i * 2 ^ s.lg2pgsize, Nat.le_add_right _ _, ?_⟩
  rw [Segment.page_eq h, Segment.entry, Nat.add_sub_cancel_left, Nat.mul_div_cancel _ (Nat.two_pow_pos _),
    List.getElem?_eq_getElem hi, hget]
  exact heq

/-- `mfreeseg` frees just the range unless that ends inside a missing table and there are pages behind it. -/
theorem mfreeseg_exact (h : Inv e m held) (hs : s.Ok) (href : ∀ p ∈ s.pages, 0 < m.ref p) (hr : s.Range start top) :
    (∃ m' s', mfreeseg m s start top = some (m', s') ∧ Freed m m' s s' start top) ↔
      (s.Hole start top → ∀ addr, top ≤ addr → s.page addr = none) := by
  obtain ⟨⟨m', s'⟩, hrun, -, hcount⟩ := h.freeseg hs.nodup href start top
  have hpage := fun addr (haddr : s.base ≤ addr) => mfreeseg_page hs hr hrun haddr
  have hlow := hr.low
  have horder := hr.order
  constructor
  · rintro ⟨m₁, s₁, hrun₁, hfreed⟩ hhole addr haddr
    obtain ⟨rfl, rfl⟩ := Prod.mk.inj (Option.some.inj (hrun.symm.trans hrun₁))
    have hkept := hfreed.page addr (by omega)
    rw [hpage addr (by omega), if_pos ⟨by omega, .inr hhole⟩, if_neg (by omega)] at hkept
    exact hkept.symm
  · intro hwell
    have hexact : ∀ addr, s.base ≤ addr → s'.page addr = if start ≤ addr ∧ addr < top then none else s.page addr := by
      intro addr haddr
      rw [hpage addr haddr]
      by_cases hhole : s.Hole start top
      · by_cases hbehind : top ≤ addr
        · rw [hwell hhole addr hbehind]
          split <;> split <;> rfl
        · exact if_congr (by simp only [hhole, or_true, and_true]; omega) rfl rfl
      · exact if_congr (by simp only [hhole, or_false]) rfl rfl
    obtain ⟨hbase, hlg, htab, -⟩ := mfreeseg_entries hs hr hrun
    refine ⟨m', s', hrun, hexact, ?_, ?_⟩
    · rintro p ⟨addr, hge, hlt, hp⟩
      have hgone : p ∉ s'.pages := by
        intro hmem
        obtain ⟨addr', haddr', hp'⟩ := Segment.mem_pages htab hmem
        rw [hbase] at haddr'
        have hold := hp'
        rw [hexact addr' haddr'] at hold
        split at hold
        · cases hold
        have hentry : s'.entry addr = s'.entry addr' := by
          have heq := hs.page_unique hp hold
          rwa [Segment.entry, Segment.entry, ← hbase, ← hlg] at heq
        have hnone := hexact addr (by omega)
        rw [if_pos ⟨hge, hlt⟩, Segment.page_eq htab, hentry, ← Segment.page_eq htab, hp'] at hnone
        cases hnone
      have hc := (hcount p).1
      simp only at hc
      rw [List.count_eq_zero_of_not_mem hgone, List.count_eq_one_of_mem hs.nodup (Segment.page_mem hs.tables hp)] at hc
      omega
    · intro p hnone
      have hc := hcount p
      simp only at hc
      by_cases hmem : p ∈ s.pages
      · obtain ⟨addr, haddr, hp⟩ := Segment.mem_pages hs.tables hmem
        have hstays : p ∈ s'.pages := by
          have hkeep : s'.page addr = some p := by
            rw [hexact addr haddr, if_neg fun hin => hnone ⟨addr, hin.1, hin.2, hp⟩]
            exact hp
          exact Segment.page_mem htab hkeep
        have hpos := List.count_pos_iff.mpr hstays
        rw [List.count_eq_one_of_mem hs.nodup hmem] at hc
        omega
      · rw [List.count_eq_zero_of_not_mem hmem] at hc
        omega

/-- A page that is in use, and no others. -/
def inuse : Mem (Fin 1) Unit :=
  { va := fun _ => 0, daddr := fun _ => 0, ref := fun _ => 1, color := fun _ => 0, lg2size := fun _ => PGSHFT
    image := fun _ => none, next := fun _ => none, prev := fun _ => none, hash := fun _ => none, data := fun _ => []
    head := none, tail := none, freecount := 0, bucket := fun _ => none, iref := fun _ => 0 }

theorem inuse_inv : Inv ⟨0, fun _ => 0, fun _ => false⟩ inuse (fun _ => 0) where
  listed := ⟨[], ⟨⟨rfl, rfl⟩, rfl⟩, fun _ => ⟨fun h => (nomatch h), fun h => absurd h Int.one_ne_zero⟩⟩
  nonneg _ := Int.one_nonneg
  chains := ⟨fun _ => [], fun _ => rfl, fun _ _ => ⟨fun h => (nomatch h), fun h => absurd rfl h.1⟩⟩
  counts _ := ⟨fun _ => rfl, le_rfl⟩
  size _ := rfl

/-- The table of the page. -/
def onetable : List (Option (Fin 1)) := some 0 :: List.replicate (PTEPERTAB - 1) none

theorem onetable_length : onetable.length = PTEPERTAB := by
  rw [onetable, List.length_cons, List.length_replicate]
  rfl

theorem onetable_pages : onetable.filterMap id = [0] := by
  have hrest : (List.replicate (PTEPERTAB - 1) (none : Option (Fin 1))).filterMap id = [] :=
    List.filterMap_eq_nil_iff.mpr fun x hx => (List.mem_replicate.mp hx).2
  rw [onetable, filterMap_some, hrest]

/-- A segment with the page in the first table. -/
def filled : Segment (Fin 1) := ⟨0, PGSHFT, [some onetable]⟩

/-- A segment with the page in the second table, and without a first. -/
def gapped : Segment (Fin 1) := ⟨0, PGSHFT, [none, some onetable]⟩

theorem filled_ok : filled.Ok where
  tables pg hpg := by
    obtain rfl := Option.some.inj (List.mem_singleton.mp hpg)
    exact onetable_length
  small := by decide
  base := rfl
  nodup := by
    rw [Segment.pages, filled, List.flatMap_singleton, Option.getD_some, onetable_pages]
    exact List.nodup_singleton _

theorem gapped_ok : gapped.Ok where
  tables pg hpg := by
    rcases List.mem_cons.mp hpg with h | h
    · cases h
    · obtain rfl := Option.some.inj (List.mem_singleton.mp h)
      exact onetable_length
  small := by decide
  base := rfl
  nodup := by
    rw [Segment.pages, gapped, List.flatMap_cons, List.flatMap_singleton, Option.getD_some, onetable_pages]
    exact List.nodup_singleton _

theorem mfreeseg_exact_filled :
    (∃ m' s', mfreeseg inuse filled 0 4096 = some (m', s') ∧ Freed inuse m' filled s' 0 4096) ↔
      (filled.Hole 0 4096 → ∀ addr, 4096 ≤ addr → filled.page addr = none) :=
  mfreeseg_exact inuse_inv filled_ok (fun _ _ => Int.one_pos) ⟨by decide, by decide, by decide, by decide, by decide⟩

/-- One page is to be freed, and the one a whole table behind it is gone. -/
theorem mfreeseg_too_far : ¬∃ m' s', mfreeseg inuse gapped 0 4096 = some (m', s') ∧ Freed inuse m' gapped s' 0 4096 := by
  rintro ⟨m', s', hrun, hfreed⟩
  have hrange : gapped.Range 0 4096 := ⟨by decide, by decide, by decide, by decide, by decide⟩
  have hhole : gapped.Hole 0 4096 := ⟨by decide, by decide, rfl⟩
  have hgone := mfreeseg_page gapped_ok hrange hrun (show gapped.base ≤ 1048576 by decide)
  rw [if_pos ⟨by decide, .inr hhole⟩, hfreed.page 1048576 (by decide), if_neg (by decide)] at hgone
  have hthere : gapped.page 1048576 = some 0 := rfl
  rw [hthere] at hgone
  cases hgone

end Freeing

end Petele.Vm
