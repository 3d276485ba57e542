import Petele.Lib.Chunk
import Petele.Vm.Fault

set_option linter.unusedSectionVars false

namespace Petele.Vm

open Lib

variable {P I : Type} [DecidableEq P] [DecidableEq I] [Fintype P]

section Slots

variable {s : Seg P I} {k : ℕ}

/-- The entries of a part of the map. -/
def cell : Option (Pte P) → List (Option P)
  | none => List.replicate PTEPERTAB none
  | some t => t.pages

def Seg.slots (s : Seg P I) : List (Option P) := s.map.flatMap cell

def Seg.pages (s : Seg P I) : List P := s.slots.filterMap id

structure PteOk (t : Pte P) : Prop where
  length : t.pages.length = PTEPERTAB
  used : ∀ j p, t.pages[j]? = some (some p) → t.within j = true

def MapOk (map : List (Option (Pte P))) : Prop := ∀ t, some t ∈ map → PteOk t

theorem ptes_pos : 0 < PTEPERTAB := by decide

theorem MapOk.cell_length {map : List (Option (Pte P))} (h : MapOk map) : ∀ o ∈ map, (cell o).length = PTEPERTAB := by
  intro o ho
  cases o with
  | none => exact List.length_replicate
  | some t => exact (h t ho).length

theorem MapOk.slot_eq (h : MapOk s.map) (k : ℕ) : s.slot k = s.slots[k]?.join := by
  rw [Seg.slots, getElem?_flatMap ptes_pos h.cell_length, Seg.slot]
  cases hi : s.map[k / PTEPERTAB]? with
  | none => rfl
  | some o =>
    cases o with
    | none =>
      rw [Option.bind_some, cell, List.getElem?_replicate, if_pos (Nat.mod_lt _ ptes_pos)]
      rfl
    | some t => rfl

theorem flatMap_set_same {α β : Type} {f : α → List β} {l : List α} {i : ℕ} {x y : α} (hi : l[i]? = some y)
    (hx : f x = f y) : (l.set i x).flatMap f = l.flatMap f := by
  induction l generalizing i with
  | nil => rfl
  | cons z l ih =>
    cases i with
    | zero =>
      obtain rfl : z = y := by simpa using hi
      rw [List.set_cons_zero, List.flatMap_cons, List.flatMap_cons, hx]
    | succ i => rw [List.set_cons_succ, List.flatMap_cons, List.flatMap_cons, ih (by simpa using hi)]

theorem pteOk_ptealloc : PteOk (ptealloc : Pte P) := by
  refine ⟨List.length_replicate, fun j p hj => ?_⟩
  rw [ptealloc, List.getElem?_replicate] at hj
  split at hj
  · cases Option.some.inj hj
  · cases hj

theorem PteOk.touch {t : Pte P} (h : PteOk t) (j : ℕ) : PteOk (touch t j) := by
  refine ⟨h.length, fun j' p hj' => ?_⟩
  have hw := h.used j' p hj'
  simp only [Pte.within, Bool.and_eq_true, decide_eq_true_eq] at hw ⊢
  simp only [Vm.touch]
  omega

theorem PteOk.set {t : Pte P} (h : PteOk t) {j : ℕ} (hj : t.within j = true) (pg : P) :
    PteOk { t with pages := t.pages.set j (some pg) } := by
  refine ⟨by rw [← h.length]; exact List.length_set, fun j' p hp => ?_⟩
  rcases eq_or_ne j j' with rfl | hne
  · exact hj
  · rw [List.getElem?_set_ne hne] at hp
    exact h.used j' p hp

theorem MapOk.set {map : List (Option (Pte P))} (h : MapOk map) (i : ℕ) {t : Pte P} (ht : PteOk t) :
    MapOk (map.set i (some t)) := by
  intro t' hmem
  rcases List.mem_or_eq_of_mem_set hmem with hold | heq
  · exact h t' hold
  · obtain rfl := Option.some.inj heq
    exact ht

/-- The part of the map that a fault makes or finds. -/
theorem MapOk.touch (h : MapOk s.map) {i j : ℕ} {o : Option (Pte P)} (ho : s.map[i]? = some o) :
    PteOk (touch (o.getD ptealloc) j) ∧ MapOk (s.map.set i (some (touch (o.getD ptealloc) j))) ∧
      (s.map.set i (some (touch (o.getD ptealloc) j))).flatMap cell = s.slots := by
  have hok : PteOk (Vm.touch (o.getD ptealloc) j) := by
    cases o with
    | none => exact pteOk_ptealloc.touch j
    | some t => exact (h t (List.mem_of_getElem? ho)).touch j
  refine ⟨hok, h.set i hok, flatMap_set_same ho ?_⟩
  cases o <;> rfl

theorem touch_within (t : Pte P) (j : ℕ) : (touch t j).within j = true := by
  simp [Pte.within, touch]

/-- A page is put into an entry. -/
theorem MapOk.put (h : MapOk s.map) {t : Pte P} (ht : s.map[k / PTEPERTAB]? = some (some t))
    (hw : t.within (k % PTEPERTAB) = true) (pg : P) :
    MapOk (s.set (k / PTEPERTAB) (k % PTEPERTAB) t pg).map ∧
      (s.set (k / PTEPERTAB) (k % PTEPERTAB) t pg).slots = s.slots.set k (some pg) := by
  have hok := (h t (List.mem_of_getElem? ht)).set hw pg
  refine ⟨h.set _ hok, ?_⟩
  have hset := flatMap_set (f := cell) (v := some pg) h.cell_length ht (Nat.mod_lt k ptes_pos)
    (x := some { t with pages := t.pages.set (k % PTEPERTAB) (some pg) }) rfl
  rw [Nat.div_add_mod'] at hset
  exact hset

theorem MapOk.slots_length (h : MapOk s.map) : s.slots.length = s.map.length * PTEPERTAB :=
  length_flatMap_chunk h.cell_length

end Slots

section Invariant

/-- A page with these bytes. -/
def page (f : ℕ → UInt8) : List UInt8 := (List.range PGSZ).map f

/-- What a file holds for a page that is cached from it: text is followed by zeroes. -/
def content (a : Aout) (daddr b : ℕ) : UInt8 :=
  if daddr + b < (if daddr < a.textlen then a.textlen else a.textlen + a.datalen) then a.byte (daddr + b) else 0

/-- The part of the file that a segment is loaded from. -/
structure Loaded (w : World I) (image : Option I) (fstart flen size : ℕ) (i : I) (start len : ℕ) : Prop where
  image : image = some i
  notext : w.env.notext i = false
  fstart : fstart = start
  flen : flen = len
  size : size = ROUNDUP len PGSZ

/-- What a segment is, with the contents of the pages. -/
structure SegOk (w : World I) (data : P → List UInt8) (s : Seg P I) : Prop where
  base : s.base % PGSZ = 0
  order : s.base ≤ s.top
  top : s.top % PGSZ = 0
  ref : 1 ≤ s.ref ∧ (s.type ≠ .TEXT → s.ref = 1)
  map : MapOk s.map
  size : (s.top - s.base) / PGSZ ≤ SEGMAPSIZE * PTEPERTAB
  room : ptes ((s.top - s.base) / PGSZ) ≤ s.map.length
  least : s.map.length ≤ mapsize ((s.top - s.base) / PGSZ)
  kind : match s.type with
    | .TEXT => ∃ i, Loaded w s.image s.fstart s.flen (s.top - s.base) i 0 (w.file i).textlen ∧ (w.file i).textlen ≤ 2 ^ 32
    | .DATA => ∃ i, Loaded w s.image s.fstart s.flen (s.top - s.base) i (w.file i).textlen (w.file i).datalen ∧
      (w.file i).textlen + (w.file i).datalen ≤ 2 ^ 32
    | _ => s.image = none
  view : ∀ k p, s.slot k = some p → data p = page fun b => s.priv (k * PGSZ + b)
  /-- An empty entry stands for zeroes or for a part of the file. -/
  empty : ∀ k, s.slot k = none → match s.image with
    | none => ∀ b, b < PGSZ → s.priv (k * PGSZ + b) = 0
    | some i => k * PGSZ < s.flen →
      (page fun b => s.priv (k * PGSZ + b)) = page (content (w.file i) (s.fstart + k * PGSZ))

/-- Cached pages hold what the file holds. -/
def CacheOk (w : World I) (m : Mem P I) : Prop :=
  ∀ p i, m.image p = some i → w.env.notext i = false ∧ m.data p = page (content (w.file i) (m.daddr p))

/-- A segment among others, which have `rest` references to pages. -/
structure Good (w : World I) (m : Mem P I) (held : I → ℤ) (rest : P → ℕ) (s : Seg P I) : Prop where
  inv : Inv w.env m held
  cache : CacheOk w m
  seg : SegOk w m.data s
  count : ∀ p, (rest p + s.pages.count p : ℤ) ≤ m.ref p

variable {w : World I} {m m' : Mem P I} {held : I → ℤ} {rest : P → ℕ} {s s' : Seg P I} {k : ℕ} {p : P}

theorem page_congr {f g : ℕ → UInt8} (h : ∀ b, b < PGSZ → f b = g b) : page f = page g := by
  apply List.map_congr_left
  intro b hb
  exact h b (List.mem_range.mp hb)

theorem CacheOk.sheds (h : CacheOk w m) (hs : Sheds m m') : CacheOk w m' := by
  intro p i hi
  rcases hs.cache p with ⟨himage, hdaddr⟩ | hnone
  · rw [himage] at hi
    rw [hs.data, hdaddr]
    exact h p i hi
  · rw [hnone] at hi
    cases hi

/-- Pages in use keep what they hold. -/
def Keeps (m m' : Mem P I) : Prop := ∀ p, 0 < m.ref p → m'.data p = m.data p

theorem SegOk.mem_slot (h : SegOk w m.data s) (hk : s.slot k = some p) : 0 < s.pages.count p := by
  rw [h.map.slot_eq, Option.join_eq_some_iff] at hk
  exact count_pos_of_getElem? hk

theorem Good.in_use (h : Good w m held rest s) (hk : s.slot k = some p) : 0 < m.ref p := by
  have hpos := h.seg.mem_slot hk
  have hle := h.count p
  omega

theorem SegOk.frame {data data' : P → List UInt8} (h : SegOk w data s)
    (hd : ∀ k p, s.slot k = some p → data' p = data p) : SegOk w data' s where
  base := h.base
  order := h.order
  top := h.top
  ref := h.ref
  map := h.map
  size := h.size
  room := h.room
  least := h.least
  kind := h.kind
  view k p hp := by
    rw [hd k p hp]
    exact h.view k p hp
  empty := h.empty

/-- The pages change, but not those of the segment. -/
theorem Good.move (h : Good w m held rest s) (hinv : Inv w.env m' held) (hcache : CacheOk w m') (hkeeps : Keeps m m')
    (href : ∀ p, (rest p + s.pages.count p : ℤ) ≤ m'.ref p) : Good w m' held rest s :=
  ⟨hinv, hcache, h.seg.frame fun _ _ hk => hkeeps _ (h.in_use hk), href⟩

theorem Good.sheds (h : Good w m held rest s) (hinv : Inv w.env m' held) (hs : Sheds m m') : Good w m' held rest s := by
  refine h.move hinv (h.cache.sheds hs) (fun p _ => by rw [hs.data]) ?_
  rw [hs.ref]
  exact h.count

theorem New.cache (h : New m m' p) (hc : CacheOk w m) (hd : ∀ x, x ≠ p → m'.data x = m.data x) : CacheOk w m' := by
  intro x i hi
  rw [h.image] at hi
  rcases eq_or_ne x p with rfl | hx
  · rw [Function.update_self] at hi
    cases hi
  · rw [Function.update_of_ne hx] at hi
    rw [hd x hx, h.daddr x hx]
    exact hc x i hi

theorem Dup.cache (h : Dup w.env m m' p) (hc : CacheOk w m) : CacheOk w m' := by
  cases h with
  | kept heq _ =>
    rw [heq]
    exact hc
  | dropped hun => exact hc.sheds hun.sheds
  | moved np i hfree hp hi href hdata himage hnp hdaddr =>
    have hne : np ≠ p := by
      rintro rfl
      omega
    intro x j hj
    rw [himage] at hj
    rcases eq_or_ne x p with rfl | hx
    · rw [Function.update_self] at hj
      cases hj
    · rw [Function.update_of_ne hx] at hj
      rcases eq_or_ne x np with rfl | hxn
      · rw [Function.update_self] at hj
        obtain rfl := Option.some.inj hj
        rw [hdata, Function.update_self, hnp]
        exact hc p i hi
      · rw [Function.update_of_ne hxn] at hj
        rw [hdata, Function.update_of_ne hxn, hdaddr x hx hxn]
        exact hc x j hj

theorem Dup.ref (h : Dup w.env m m' p) : m'.ref = m.ref := by
  cases h with
  | kept heq _ => rw [heq]
  | dropped hun => exact hun.sheds.ref
  | moved np i hfree hp hi href hdata himage hnp hdaddr => exact href

theorem Dup.keeps (h : Dup w.env m m' p) : Keeps m m' := by
  intro x hx
  cases h with
  | kept heq _ => rw [heq]
  | dropped hun => rw [hun.sheds.data]
  | moved np i hfree hp hi href hdata himage hnp hdaddr =>
    have hne : x ≠ np := by
      rintro rfl
      omega
    rw [hdata, Function.update_of_ne hne]

/-- A page with one reference that is cached leaves the cache. -/
theorem Dup.uncached (h : Dup w.env m m' p) (hc : CacheOk w m) (hp : m.ref p = 1) (hi : m.image p ≠ none) :
    m'.image p = none := by
  cases h with
  | kept heq hwhy =>
    obtain ⟨i, hi⟩ := Option.ne_none_iff_exists'.mp hi
    rcases hwhy with hne | hall
    · exact absurd hp hne
    · have hn := (hc p i hi).1
      rw [hall i hi] at hn
      cases hn
  | dropped hun => rw [hun.image, Function.update_self]
  | moved np i hfree hp hi href hdata himage hnp hdaddr => rw [himage, Function.update_self]

/-- What does not change in a segment when a fault is fixed. -/
structure Same (s s' : Seg P I) : Prop where
  type : s'.type = s.type
  base : s'.base = s.base
  top : s'.top = s.top
  image : s'.image = s.image
  fstart : s'.fstart = s.fstart
  flen : s'.flen = s.flen
  priv : s'.priv = s.priv

theorem SegOk.remap {data : P → List UInt8} (h : SegOk w data s) {map : List (Option (Pte P))} (hmap : MapOk map)
    (hlen : map.length = s.map.length) (hslots : map.flatMap cell = s.slots) : SegOk w data { s with map := map } := by
  have hslot : ∀ k, Seg.slot { s with map := map } k = s.slot k := by
    intro k
    rw [MapOk.slot_eq (s := { s with map := map }) hmap, h.map.slot_eq, ← hslots]
    rfl
  exact
    { base := h.base, order := h.order, top := h.top, ref := h.ref, map := hmap, size := h.size
      room := by rw [hlen]; exact h.room
      least := by rw [hlen]; exact h.least
      kind := h.kind
      view := fun k p hp => h.view k p (by rw [← hslot]; exact hp)
      empty := fun k hk => h.empty k (by rw [← hslot]; exact hk) }

theorem Seg.set_slot {t : Pte P} (h : MapOk s.map) (ht : s.map[k / PTEPERTAB]? = some (some t))
    (hw : t.within (k % PTEPERTAB) = true) (pg : P) (k' : ℕ) :
    (s.set (k / PTEPERTAB) (k % PTEPERTAB) t pg).slot k' = if k' = k then some pg else s.slot k' := by
  obtain ⟨hmap, hslots⟩ := h.put ht hw pg
  rw [hmap.slot_eq, hslots, h.slot_eq]
  split
  · rename_i heq
    have hlt : k < s.slots.length := by
      rw [h.slots_length]
      have hi := (List.getElem?_eq_some_iff.mp ht).1
      calc k = k / PTEPERTAB * PTEPERTAB + k % PTEPERTAB := (Nat.div_add_mod' k PTEPERTAB).symm
        _ < k / PTEPERTAB * PTEPERTAB + PTEPERTAB := Nat.add_lt_add_left (Nat.mod_lt _ ptes_pos) _
        _ = (k / PTEPERTAB + 1) * PTEPERTAB := by rw [Nat.succ_mul]
        _ ≤ s.map.length * PTEPERTAB := Nat.mul_le_mul_right _ hi
    rw [heq, List.getElem?_set_self hlt]
    rfl
  · rename_i hne
    rw [List.getElem?_set_ne (Ne.symm hne)]

theorem SegOk.put {data : P → List UInt8} (h : SegOk w data s) {t : Pte P} (ht : s.map[k / PTEPERTAB]? = some (some t))
    (hw : t.within (k % PTEPERTAB) = true) {pg : P} (hpg : data pg = page fun b => s.priv (k * PGSZ + b)) :
    SegOk w data (s.set (k / PTEPERTAB) (k % PTEPERTAB) t pg) := by
  have hslot := Seg.set_slot h.map ht hw pg
  have hlen : (s.set (k / PTEPERTAB) (k % PTEPERTAB) t pg).map.length = s.map.length := List.length_set
  exact
    { base := h.base, order := h.order, top := h.top, ref := h.ref, map := (h.map.put ht hw pg).1, size := h.size
      room := by rw [hlen]; exact h.room
      least := by rw [hlen]; exact h.least
      kind := h.kind
      view := fun k' p hp => by
        rw [hslot] at hp
        split at hp
        · rename_i heq
          obtain rfl := Option.some.inj hp
          rw [heq]
          exact hpg
        · exact h.view k' p hp
      empty := fun k' hk' => by
        rw [hslot] at hk'
        split at hk'
        · cases hk'
        · exact h.empty k' hk' }

/-- How often a page occurs in a segment after one has been put into an entry. -/
theorem SegOk.put_count {data : P → List UInt8} (h : SegOk w data s) {t : Pte P} (ht : s.map[k / PTEPERTAB]? = some (some t))
    (hw : t.within (k % PTEPERTAB) = true) (pg p : P) :
    (s.set (k / PTEPERTAB) (k % PTEPERTAB) t pg).pages.count p + (if s.slot k = some p then 1 else 0) =
      s.pages.count p + if pg = p then 1 else 0 := by
  obtain ⟨-, hslots⟩ := h.map.put ht hw pg
  have hi : s.slots[k]? = some (s.slot k) := by
    rw [Seg.slots, getElem?_flatMap ptes_pos h.map.cell_length, ht, Option.bind_some, Seg.slot, ht]
    have hj : k % PTEPERTAB < t.pages.length := by
      rw [(h.map t (List.mem_of_getElem? ht)).length]
      exact Nat.mod_lt _ ptes_pos
    rw [cell, Option.join_some, Option.bind_some, List.getElem?_eq_getElem hj]
    rfl
  rw [Seg.pages, hslots, Seg.pages]
  exact count_filterMap_set hi pg p

end Invariant

end Petele.Vm
