import Petele.Vm.Cow

set_option linter.unusedSectionVars false

namespace Petele.Vm

open Lib

variable {P I : Type} [DecidableEq P] [DecidableEq I] [Fintype P]

section System

/-- The pages and the segments of all processes. A segment that is not text belongs to one. -/
structure St (P I : Type) where
  mem : Mem P I
  segs : List (Seg P I)

inductive Op (I : Type)
  /-- The segments that `exec` makes. -/
  | text (i : I) (base : ℕ)
  | data (i : I) (base : ℕ)
  | zfod (type : SegType) (base top : ℕ)
  | fault (n addr : ℕ) (read kp ioerr : Bool)
  /-- A byte is written, after the fault. -/
  | store (n addr : ℕ) (b : UInt8) (kp ioerr : Bool)
  | dupseg (n : ℕ)
  | ibrk (n addr : ℕ)
  | putseg (n : ℕ)

variable (w : World I)

/-- A segment that is loaded from a part of a file. -/
def attach (s : St P I) (i : I) (type : SegType) (base start len : ℕ) : Option (St P I × Outcome) :=
  (newseg type base (base + ROUNDUP len PGSZ) : Option (Seg P I)).map fun x =>
    (⟨{ s.mem with iref := Function.update s.mem.iref i (s.mem.iref i + 1) }, s.segs ++ [{ x with
      image := some i
      fstart := start
      flen := len
      priv := fun off => if off < len then (w.file i).byte (start + off) else 0 }]⟩, .ok)

def write (m : Mem P I) (x : Seg P I) (addr : ℕ) (b : UInt8) : Option (Mem P I × Seg P I) :=
  (x.slot ((addr - x.base) / PGSZ)).map fun p =>
    ({ m with data := Function.update m.data p ((m.data p).set (addr % PGSZ) b) },
      { x with priv := Function.update x.priv (addr - x.base) b })

def stepOp (s : St P I) : Op I → Option (St P I × Outcome)
  | .text i base => attach w s i .TEXT base 0 (w.file i).textlen
  | .data i base => attach w s i .DATA base (w.file i).textlen (w.file i).datalen
  | .zfod type base top => (newseg type base top).map fun x => (⟨s.mem, s.segs ++ [x]⟩, .ok)
  | .fault n addr read kp ioerr =>
    s.segs[n]?.bind fun x => (fixfault w s.mem x addr read kp ioerr).map fun r => (⟨r.1, s.segs.set n r.2.1⟩, r.2.2)
  | .store n addr b kp ioerr =>
    s.segs[n]?.bind fun x => (fixfault w s.mem x addr false kp ioerr).bind fun r =>
      match r.2.2 with
      | .ok => (write r.1 r.2.1 addr b).map fun r => (⟨r.1, s.segs.set n r.2⟩, .ok)
      | out => some (⟨r.1, s.segs.set n r.2.1⟩, out)
  | .dupseg n =>
    s.segs[n]?.bind fun x => (dupseg s.mem x).map fun r => (⟨r.1, s.segs.set n r.2.1 ++ r.2.2.toList⟩, .ok)
  | .ibrk n addr => s.segs[n]?.map fun x => (⟨s.mem, s.segs.set n (ibrk x addr)⟩, .ok)
  | .putseg n =>
    s.segs[n]?.bind fun x => (putseg w s.mem x).map fun r =>
      match r.2 with
      | some x => (⟨r.1, s.segs.set n x⟩, .ok)
      | none => (⟨r.1, s.segs.eraseIdx n⟩, .ok)

/-- `exec` refuses a header with a length that is negative in 32 bits. An address of a fault is in its
segment, text is not written, and `ibrk` lets a segment grow. -/
def Permitted (s : St P I) : Op I → Prop
  | .text i base => base % PGSZ = 0 ∧ w.env.notext i = false ∧ (w.file i).textlen < 2 ^ 31
  | .data i base => base % PGSZ = 0 ∧ w.env.notext i = false ∧ (w.file i).textlen < 2 ^ 31 ∧ (w.file i).datalen < 2 ^ 31
  | .zfod type base top => (type = .BSS ∨ type = .STACK) ∧ base ≤ top ∧ top - base ≤ 2 ^ 33
  | .fault n addr read _ _ => ∀ x, s.segs[n]? = some x → x.base ≤ addr ∧ addr < x.top ∧ (x.type = .TEXT → read = true)
  | .store n addr _ _ _ => ∀ x, s.segs[n]? = some x → x.base ≤ addr ∧ addr < x.top ∧ x.type ≠ .TEXT
  | .ibrk n addr => ∀ x, s.segs[n]? = some x → x.type = .BSS ∧ x.top ≤ ROUNDUP addr PGSZ
  | _ => True

/-- A segment does not grow to more pages than a `usize` can count. -/
def Fits (s : St P I) : Op I → Prop
  | .ibrk n addr => ∀ x, s.segs[n]? = some x → (ROUNDUP addr PGSZ - x.base) / PGSZ + PTEPERTAB ≤ 2 ^ 32
  | _ => True

/-- All pages are free and there is no segment. -/
structure Boot (s : St P I) : Prop where
  pages : Start (⟨s.mem, fun _ => 0⟩ : Sys P I)
  segs : s.segs = []

inductive Runs (ok : St P I → Op I → Prop) : St P I → Prop
  | boot {s : St P I} (h : Boot s) : Runs ok s
  | step {s s' : St P I} {a : Op I} {o : Outcome} (h : Runs ok s) (ha : Permitted w s a) (hok : ok s a)
      (hs : stepOp w s a = some (s', o)) : Runs ok s'

end System

section Invariant

variable {w : World I} {s : St P I} {m' : Mem P I} {l₁ l₂ : List (Seg P I)} {x x' : Seg P I} {p : P}

/-- How many segments are loaded from an image. -/
def attached (l : List (Seg P I)) (i : I) : ℤ := l.countP fun x => x.image = some i

/-- How often segments refer to a page. -/
def refs (l : List (Seg P I)) (p : P) : ℕ := (l.flatMap Seg.pages).count p

structure Ok (w : World I) (s : St P I) : Prop where
  inv : Inv w.env s.mem (attached s.segs)
  cache : CacheOk w s.mem
  segs : ∀ x ∈ s.segs, SegOk w s.mem.data x
  count : ∀ p, (refs s.segs p : ℤ) ≤ s.mem.ref p

theorem refs_split (l₁ l₂ : List (Seg P I)) (x : Seg P I) (p : P) :
    refs (l₁ ++ x :: l₂) p = refs (l₁ ++ l₂) p + x.pages.count p := by
  simp only [refs, List.flatMap_append, List.flatMap_cons, List.count_append]
  omega

theorem attached_split (l₁ l₂ : List (Seg P I)) (x : Seg P I) (i : I) :
    attached (l₁ ++ x :: l₂) i = attached (l₁ ++ l₂) i + if x.image = some i then 1 else 0 := by
  simp only [attached, List.countP_append, List.countP_cons, decide_eq_true_eq]
  split <;> omega

theorem split_getElem? {l : List (Seg P I)} {n : ℕ} (hn : l[n]? = some x) :
    ∃ l₁ l₂, l = l₁ ++ x :: l₂ ∧ l₁.length = n ∧ (∀ y, l.set n y = l₁ ++ y :: l₂) ∧ l.eraseIdx n = l₁ ++ l₂ := by
  obtain ⟨hlt, hx⟩ := List.getElem?_eq_some_iff.mp hn
  have hl : l = l.take n ++ x :: l.drop (n + 1) := by
    rw [← hx, List.cons_getElem_drop_succ, List.take_append_drop]
  have hlen : (l.take n).length = n := by
    rw [List.length_take]
    omega
  refine ⟨l.take n, l.drop (n + 1), hl, hlen, fun y => ?_, List.eraseIdx_eq_take_drop_succ l n⟩
  rw [List.set_eq_take_append_cons_drop, if_pos hlt]

theorem Ok.good (h : Ok w s) (hs : s.segs = l₁ ++ x :: l₂) : Good w s.mem (attached s.segs) (refs (l₁ ++ l₂)) x := by
  refine ⟨h.inv, h.cache, h.segs x (by rw [hs]; simp), fun p => ?_⟩
  have hle := h.count p
  rw [hs, refs_split] at hle
  exact_mod_cast hle

theorem refs_pos {l : List (Seg P I)} (hx : x ∈ l) (hp : 0 < x.pages.count p) : 0 < refs l p := by
  rw [refs, List.count_pos_iff, List.mem_flatMap]
  exact ⟨x, hx, List.count_pos_iff.mp hp⟩

/-- One segment and the pages change, and the others do not notice. -/
theorem Ok.join (h : Ok w s) (hs : s.segs = l₁ ++ x :: l₂) (hgood : Good w m' (attached s.segs) (refs (l₁ ++ l₂)) x')
    (himage : x'.image = x.image) (hdata : ∀ p, 0 < refs (l₁ ++ l₂) p → m'.data p = s.mem.data p) :
    Ok w ⟨m', l₁ ++ x' :: l₂⟩ := by
  refine ⟨?_, hgood.cache, fun y hy => ?_, fun p => ?_⟩
  · have heq : attached (l₁ ++ x' :: l₂) = attached s.segs := by
      funext i
      rw [hs, attached_split, attached_split, himage]
    rw [heq]
    exact hgood.inv
  · have hcase : y = x' ∨ y ∈ l₁ ++ l₂ := by
      simp only [List.mem_append, List.mem_cons] at hy ⊢
      tauto
    rcases hcase with rfl | hy'
    · exact hgood.seg
    · have hold := h.segs y (by rw [hs]; simp only [List.mem_append, List.mem_cons] at hy' ⊢; tauto)
      exact hold.frame fun k p hk => hdata p (refs_pos hy' (hold.mem_slot hk))
  · have hle := hgood.count p
    rw [refs_split]
    exact_mod_cast hle

/-- A segment is added. -/
theorem Ok.add (h : Ok w s) (hinv : Inv w.env m' (attached (s.segs ++ [x]))) (hcache : CacheOk w m')
    (hseg : SegOk w m'.data x) (hdata : m'.data = s.mem.data) (hcount : ∀ p, (refs s.segs p + x.pages.count p : ℤ) ≤ m'.ref p) :
    Ok w ⟨m', s.segs ++ [x]⟩ := by
  refine ⟨hinv, hcache, fun y hy => ?_, fun p => ?_⟩
  · rcases List.mem_append.mp hy with hy' | hy'
    · have hold := h.segs y hy'
      rw [← hdata] at hold
      exact hold
    · rw [List.mem_singleton.mp hy']
      exact hseg
  · have hle := hcount p
    have hsplit := refs_split s.segs [] x p
    rw [List.append_nil] at hsplit
    rw [hsplit]
    exact_mod_cast hle

theorem Boot.ok (h : Boot s) : Ok w s := by
  have hinv : Inv w.env s.mem fun _ => 0 := h.pages.inv
  have hattached : attached s.segs = fun _ => 0 := by
    rw [h.segs]
    rfl
  refine ⟨by rw [hattached]; exact hinv, fun p i hi => ?_, fun x hx => ?_, fun p => ?_⟩
  · rw [h.pages.image p] at hi
    cases hi
  · rw [h.segs] at hx
    cases hx
  · rw [h.segs]
    exact hinv.nonneg p

end Invariant

section Steps

variable {w : World I} {s : St P I} {x : Seg P I} {n addr : ℕ} {p : P}

theorem Ok.fault (h : Ok w s) (hn : s.segs[n]? = some x) (hle : x.base ≤ addr) (hlt : addr < x.top) (read kp ioerr : Bool)
    (hread : x.type = .TEXT → read = true) :
    ∃ m' x' out, fixfault w s.mem x addr read kp ioerr = some (m', x', out) ∧ Ok w ⟨m', s.segs.set n x'⟩ ∧ Same x x' ∧
      (out = .ok → ∃ p, x'.slot ((addr - x.base) / PGSZ) = some p ∧ (read = false → m'.ref p = 1 ∧ m'.image p = none)) := by
  obtain ⟨l₁, l₂, hs, -, hset, -⟩ := split_getElem? hn
  obtain ⟨m', x', out, hfix, hfixed⟩ := fixfault_spec (h.good hs) hle hlt read kp ioerr hread
  refine ⟨m', x', out, hfix, ?_, hfixed.same, hfixed.ok⟩
  rw [hset]
  exact h.join hs hfixed.good hfixed.same.image hfixed.others

theorem set_page {f : ℕ → UInt8} {base off : ℕ} (hoff : off < PGSZ) (b : UInt8) :
    (page fun c => f (base + c)).set off b = page fun c => Function.update f (base + off) b (base + c) := by
  apply List.ext_getElem?
  intro c
  rw [List.getElem?_set, page, page, List.getElem?_map, List.getElem?_map, List.length_map, List.length_range]
  rcases eq_or_ne off c with rfl | hc
  · rw [if_pos rfl, if_pos hoff, List.getElem?_range hoff, Option.map_some, Function.update_self]
  · rw [if_neg hc]
    have hne : base + c ≠ base + off := by omega
    cases hr : (List.range PGSZ)[c]? with
    | none => rfl
    | some c' =>
      obtain rfl : c' = c := by
        have hlt := (List.getElem?_eq_some_iff.mp hr).2
        rw [List.getElem_range] at hlt
        exact hlt.symm
      rw [Option.map_some, Option.map_some, Function.update_of_ne hne]

/-- The bytes of the other pages do not change. -/
theorem page_update_ne {f : ℕ → UInt8} {k k' off : ℕ} (hk : k' ≠ k) (hoff : off < PGSZ) (b : UInt8) {c : ℕ} (hc : c < PGSZ) :
    Function.update f (k * PGSZ + off) b (k' * PGSZ + c) = f (k' * PGSZ + c) := by
  apply Function.update_of_ne
  intro heq
  apply hk
  calc k' = (k' * PGSZ + c) / PGSZ := by
        rw [Nat.add_comm, Nat.add_mul_div_right _ _ (by omega), Nat.div_eq_of_lt hc, Nat.zero_add]
    _ = (k * PGSZ + off) / PGSZ := by rw [heq]
    _ = k := by rw [Nat.add_comm, Nat.add_mul_div_right _ _ (by omega), Nat.div_eq_of_lt hoff, Nat.zero_add]

/-- A page with one reference is in one entry of one segment. -/
theorem Ok.alone (h : Ok w s) {l₁ l₂ : List (Seg P I)} (hs : s.segs = l₁ ++ x :: l₂) {k : ℕ} (hk : x.slot k = some p)
    (href : s.mem.ref p = 1) : refs (l₁ ++ l₂) p = 0 ∧ ∀ k', x.slot k' = some p → k' = k := by
  have hgood := h.good hs
  have hle := hgood.count p
  have hpos := hgood.seg.mem_slot hk
  refine ⟨by omega, fun k' hk' => ?_⟩
  by_contra hne
  rw [hgood.seg.map.slot_eq, Option.join_eq_some_iff] at hk hk'
  have htwo : 2 ≤ x.pages.count p := two_le_count hne hk' hk
  omega

/-- A byte is written to the segment's own page. -/
theorem SegOk.write {data : P → List UInt8} (h : SegOk w data x) {k off : ℕ} (hoff : off < PGSZ) (hk : x.slot k = some p)
    (honly : ∀ k', x.slot k' = some p → k' = k) (b : UInt8) :
    SegOk w (Function.update data p ((data p).set off b)) { x with priv := Function.update x.priv (k * PGSZ + off) b } where
  base := h.base
  order := h.order
  top := h.top
  ref := h.ref
  map := h.map
  size := h.size
  room := h.room
  least := h.least
  kind := h.kind
  view k' p' hk' := by
    have hslot : x.slot k' = some p' := hk'
    rcases eq_or_ne p' p with rfl | hp
    · obtain rfl := honly k' hslot
      rw [Function.update_self, h.view k' p' hslot]
      exact set_page hoff b
    · have hne : k' ≠ k := by
        rintro rfl
        exact hp (Option.some.inj (hslot.symm.trans hk))
      rw [Function.update_of_ne hp, h.view k' p' hslot]
      apply page_congr
      intro c hc
      exact (page_update_ne hne hoff b hc).symm
  empty k' hk' := by
    have hslot : x.slot k' = none := hk'
    have hne : k' ≠ k := by
      rintro rfl
      rw [hk] at hslot
      cases hslot
    have he := h.empty k' hslot
    simp only
    cases hi : x.image with
    | none =>
      rw [hi] at he
      intro c hc
      rw [page_update_ne hne hoff b hc]
      exact he c hc
    | some i =>
      rw [hi] at he
      intro hlt
      rw [← he hlt]
      apply page_congr
      intro c hc
      exact page_update_ne hne hoff b hc

theorem Ok.write (h : Ok w s) (hn : s.segs[n]? = some x) (hle : x.base ≤ addr) (b : UInt8)
    (hk : x.slot ((addr - x.base) / PGSZ) = some p) (href : s.mem.ref p = 1) (himage : s.mem.image p = none) :
    ∃ r, write s.mem x addr b = some r ∧ Ok w ⟨r.1, s.segs.set n r.2⟩ := by
  obtain ⟨l₁, l₂, hs, -, hset, -⟩ := split_getElem? hn
  obtain ⟨hrest, honly⟩ := h.alone hs hk href
  have hgood := h.good hs
  have hbase := hgood.seg.base
  have hoff : addr % PGSZ < PGSZ := Nat.mod_lt _ (by rw [PGSZ_eq]; omega)
  have haddr : addr - x.base = (addr - x.base) / PGSZ * PGSZ + addr % PGSZ := by
    rw [PGSZ_eq] at *
    omega
  refine ⟨_, by rw [Vm.write, hk, Option.map_some], ?_⟩
  rw [hset]
  have hseg := hgood.seg.write hoff hk honly b
  rw [← haddr] at hseg
  refine h.join hs ⟨hgood.inv.plain _ _ _, fun q i hi => ?_, hseg, hgood.count⟩ rfl fun q hq => ?_
  · have hq : q ≠ p := by
      rintro rfl
      have hnone : s.mem.image q = some i := hi
      rw [himage] at hnone
      cases hnone
    simp only [Function.update_of_ne hq]
    exact hgood.cache q i hi
  · apply Function.update_of_ne
    rintro rfl
    omega

theorem attached_add (l : List (Seg P I)) {i : I} (hx : x.image = some i) :
    attached (l ++ [x]) = Function.update (attached l) i (attached l i + 1) := by
  funext j
  have hsplit := attached_split l [] x j
  rw [List.append_nil] at hsplit
  rw [hsplit, hx]
  rcases eq_or_ne j i with rfl | hj
  · rw [Function.update_self, if_pos rfl]
  · rw [Function.update_of_ne hj, if_neg fun hc => hj (Option.some.inj hc).symm, Int.add_zero]

theorem attached_none (l₁ l₂ : List (Seg P I)) (hx : x.image = none) : attached (l₁ ++ x :: l₂) = attached (l₁ ++ l₂) := by
  funext j
  rw [attached_split, hx, if_neg (Option.some_ne_none j ∘ Eq.symm), Int.add_zero]

theorem Inv.attach {m : Mem P I} {l : List (Seg P I)} (h : Inv w.env m (attached l)) (x : Seg P I) :
    Inv w.env (refimage m x.image) (attached (l ++ [x])) := by
  cases hx : x.image with
  | none =>
    rw [attached_none l [] hx, List.append_nil]
    exact h
  | some i =>
    rw [attached_add l hx]
    exact h.incref i

theorem refimage_eq (m : Mem P I) (o : Option I) : refimage m o = { m with iref := (refimage m o).iref } := by
  cases o <;> rfl

theorem Ok.dupseg (h : Ok w s) (hn : s.segs[n]? = some x) :
    ∃ r, dupseg s.mem x = some r ∧ Ok w ⟨r.1, s.segs.set n r.2.1 ++ r.2.2.toList⟩ := by
  obtain ⟨l₁, l₂, hs, -, hset, -⟩ := split_getElem? hn
  have hgood := h.good hs
  by_cases htype : x.type = .TEXT
  · refine ⟨(s.mem, { x with ref := x.ref + 1 }, none), by simp only [Vm.dupseg, htype], ?_⟩
    have hseg : SegOk w s.mem.data { x with ref := x.ref + 1 } :=
      { hgood.seg with
        ref := ⟨by have hr := hgood.seg.ref.1; simp only; omega, fun hc => absurd htype hc⟩ }
    simp only [Option.toList_none, List.append_nil, hset]
    exact h.join hs ⟨hgood.inv, hgood.cache, hseg, hgood.count⟩ rfl fun _ _ => rfl
  · obtain ⟨y, hy, hseg, hpages, himage, -⟩ := dupseg_spec hgood.seg htype
    refine ⟨_, hy, ?_⟩
    have hself : s.segs.set n x = s.segs := by rw [hset, hs]
    simp only [Option.toList_some, hself]
    have hinv := h.inv.attach y
    rw [himage] at hinv
    have hpos : ∀ p ∈ x.pages, 0 < s.mem.ref p := by
      intro p hp
      have hle := hgood.count p
      have hc := List.count_pos_iff.mpr hp
      omega
    have href : (refimage s.mem x.image).ref = s.mem.ref := by rw [refimage_eq]
    have hdata : (refimage s.mem x.image).data = s.mem.data := by rw [refimage_eq]
    have himg : (refimage s.mem x.image).image = s.mem.image := by rw [refimage_eq]
    have hdaddr : (refimage s.mem x.image).daddr = s.mem.daddr := by rw [refimage_eq]
    obtain ⟨hinv', href', hdata', himg', hdaddr'⟩ := share_spec (l := x.pages) hinv fun p hp => by
      rw [href]
      exact hpos p hp
    rw [hdata] at hdata'
    refine h.add hinv' (fun p i hi => ?_) (by rw [hdata']; exact hseg) hdata' fun p => ?_
    · rw [himg', himg] at hi
      rw [hdata', hdaddr', hdaddr]
      exact h.cache p i hi
    · rw [href', href, hpages]
      exact Int.add_le_add_right (h.count p) _

/-- A segment no longer refers to an image. -/
def unrefimage (w : World I) (m : Mem P I) (o : Option I) : Mem P I :=
  match o with
  | some i => putimage w.env m i
  | none => m

theorem unrefimage_eq (m : Mem P I) (o : Option I) : unrefimage w m o = { m with iref := (unrefimage w m o).iref } := by
  cases o with
  | none => rfl
  | some i => exact putimage_eq

theorem Inv.detach {m : Mem P I} {l₁ l₂ : List (Seg P I)} (h : Inv w.env m (attached (l₁ ++ x :: l₂))) :
    Inv w.env (unrefimage w m x.image) (attached (l₁ ++ l₂)) := by
  cases hx : x.image with
  | none =>
    rw [attached_none l₁ l₂ hx] at h
    exact h
  | some i =>
    have heq : attached (l₁ ++ l₂) = Function.update (attached (l₁ ++ x :: l₂)) i (attached (l₁ ++ x :: l₂) i - 1) := by
      funext j
      rcases eq_or_ne j i with rfl | hj
      · rw [Function.update_self, attached_split, hx, if_pos rfl]
        omega
      · rw [Function.update_of_ne hj, attached_split, hx, if_neg fun hc => hj (Option.some.inj hc).symm, Int.add_zero]
    rw [heq]
    exact h.decref i

theorem Ok.putseg (h : Ok w s) (hn : s.segs[n]? = some x) :
    ∃ m' o, putseg w s.mem x = some (m', o) ∧ Ok w (match o with
      | some y => ⟨m', s.segs.set n y⟩
      | none => ⟨m', s.segs.eraseIdx n⟩) := by
  obtain ⟨l₁, l₂, hs, -, hset, hdel⟩ := split_getElem? hn
  have hgood := h.good hs
  rw [Vm.putseg]
  split
  · rename_i hmore
    refine ⟨s.mem, some { x with ref := x.ref - 1 }, rfl, ?_⟩
    have hr := hgood.seg.ref
    have hseg : SegOk w s.mem.data { x with ref := x.ref - 1 } :=
      { hgood.seg with
        ref := ⟨by simp only; omega, fun hc => by have h1 := hr.2 hc; omega⟩ }
    simp only [hset]
    exact h.join hs ⟨hgood.inv, hgood.cache, hseg, hgood.count⟩ rfl fun _ _ => rfl
  · have hinv := h.inv
    rw [hs] at hinv
    replace hinv := hinv.detach
    have href : (unrefimage w s.mem x.image).ref = s.mem.ref := by rw [unrefimage_eq]
    have hdata : (unrefimage w s.mem x.image).data = s.mem.data := by rw [unrefimage_eq]
    have himg : (unrefimage w s.mem x.image).image = s.mem.image := by rw [unrefimage_eq]
    have hdaddr : (unrefimage w s.mem x.image).daddr = s.mem.daddr := by rw [unrefimage_eq]
    have hused : (x.map.flatMap fun t => (t.map Pte.used).getD []) = x.pages := hgood.seg.map.used_eq
    obtain ⟨m', hput, hinv', href', hdata', himg', hdaddr'⟩ := putpages_spec (l := x.pages) hinv fun p => by
      rw [href]
      have hle := hgood.count p
      omega
    refine ⟨m', none, by simp only [hused]; exact congrArg (Option.map fun m => (m, none)) hput, ?_⟩
    rw [hdel]
    refine ⟨hinv', fun p i hi => ?_, fun y hy => ?_, fun p => ?_⟩
    · simp only at hi ⊢
      rw [himg', himg] at hi
      rw [hdata', hdata, hdaddr', hdaddr]
      exact h.cache p i hi
    · have hold := h.segs y (by rw [hs]; simp only [List.mem_append, List.mem_cons] at hy ⊢; tauto)
      simp only
      rw [hdata', hdata]
      exact hold
    · have hle := hgood.count p
      simp only
      rw [href', href]
      omega

theorem Ok.ibrk (h : Ok w s) (hn : s.segs[n]? = some x) (htype : x.type = .BSS) (hgrow : x.top ≤ ROUNDUP addr PGSZ)
    (hsmall : (ROUNDUP addr PGSZ - x.base) / PGSZ + PTEPERTAB ≤ 2 ^ 32) : Ok w ⟨s.mem, s.segs.set n (ibrk x addr)⟩ := by
  obtain ⟨l₁, l₂, hs, -, hset, -⟩ := split_getElem? hn
  have hgood := h.good hs
  obtain ⟨hseg, hpages, himage, -⟩ := ibrk_spec hgood.seg htype hgrow hsmall
  rw [hset]
  refine h.join hs ⟨hgood.inv, hgood.cache, hseg, ?_⟩ himage fun _ _ => rfl
  rw [hpages]
  exact hgood.count

theorem fresh_empty (hmap : x.map = List.replicate n none) : (∀ k, x.slot k = none) ∧ x.pages = [] := by
  obtain ⟨hok, hslots⟩ := fresh_slots (P := P) n
  rw [← hmap] at hok hslots
  refine ⟨fun k => by rw [hok.slot_eq]; exact hslots k, ?_⟩
  rw [Seg.pages, Seg.slots, hmap, flatMap_cell_replicate]
  apply List.filterMap_eq_nil_iff.mpr
  intro o ho
  exact (List.mem_replicate.mp ho).2

/-- A segment without pages is added. -/
theorem Ok.fresh (h : Ok w s) (hseg : SegOk w s.mem.data x) (hmap : x.map = List.replicate n none) :
    Ok w ⟨refimage s.mem x.image, s.segs ++ [x]⟩ := by
  have hdata : (refimage s.mem x.image).data = s.mem.data := by rw [refimage_eq]
  have href : (refimage s.mem x.image).ref = s.mem.ref := by rw [refimage_eq]
  refine h.add (h.inv.attach x) (fun p i hi => ?_) (by rw [hdata]; exact hseg) hdata fun p => ?_
  · rw [refimage_eq] at hi ⊢
    exact h.cache p i hi
  · rw [(fresh_empty hmap).2, href]
    exact h.count p

theorem roundup_mod (len : ℕ) : ROUNDUP len PGSZ % PGSZ = 0 := Nat.mul_mod_left _ _

theorem roundup_div {len : ℕ} (hlen : len ≤ 2 ^ 32) : ROUNDUP len PGSZ / PGSZ ≤ SEGMAPSIZE * PTEPERTAB := by
  rw [ROUNDUP, HOWMANY, PGSZ_eq]
  simp only [SEGMAPSIZE, PTEPERTAB]
  omega

/-- Text or data of a file. -/
theorem Ok.attach (h : Ok w s) {i : I} {type : SegType} {base start len : ℕ} (hb : base % PGSZ = 0) (hlen : len ≤ 2 ^ 32)
    (hnotext : w.env.notext i = false)
    (hkind : type = .TEXT ∧ start = 0 ∧ len = (w.file i).textlen ∨
      type = .DATA ∧ start = (w.file i).textlen ∧ len = (w.file i).datalen ∧ (w.file i).textlen + (w.file i).datalen ≤ 2 ^ 32) :
    ∃ r, attach w s i type base start len = some r ∧ Ok w r.1 := by
  have hsub : base + ROUNDUP len PGSZ - base = ROUNDUP len PGSZ := Nat.add_sub_cancel_left _ _
  have htop : (base + ROUNDUP len PGSZ) % PGSZ = 0 := by
    rw [Nat.add_mod, hb, roundup_mod, Nat.zero_add, Nat.zero_mod]
  have hsize := roundup_div hlen
  have hnew : newseg type base (base + ROUNDUP len PGSZ) = some (⟨type, base, base + ROUNDUP len PGSZ, 0, 0, none, 1,
      List.replicate (mapsize (ROUNDUP len PGSZ / PGSZ)) none, fun _ => 0⟩ : Seg P I) := by
    rw [newseg_eq hb htop (by rw [hsub]; exact hsize), hsub]
  refine ⟨_, by rw [Vm.attach, hnew, Option.map_some], ?_⟩
  refine h.fresh (x := ⟨type, base, base + ROUNDUP len PGSZ, start, len, some i, 1,
    List.replicate (mapsize (ROUNDUP len PGSZ / PGSZ)) none,
    fun off => if off < len then (w.file i).byte (start + off) else 0⟩) ?_ rfl
  have hslot := (fresh_empty (x := (⟨type, base, base + ROUNDUP len PGSZ, start, len, some i, 1,
    List.replicate (mapsize (ROUNDUP len PGSZ / PGSZ)) none,
    fun off => if off < len then (w.file i).byte (start + off) else 0⟩ : Seg P I)) rfl).1
  refine
    { base := hb, order := Nat.le_add_right _ _, top := htop, ref := ⟨le_rfl, fun _ => rfl⟩, map := (fresh_slots _).1
      size := by simp only [hsub]; exact hsize
      room := by
        simp only [hsub, List.length_replicate]
        exact ptes_le_mapsize hsize
      least := by simp only [hsub, List.length_replicate]; exact le_rfl
      kind := ?_
      view := fun k p hk => by rw [hslot] at hk; cases hk
      empty := fun k _ hk => ?_ }
  · rcases hkind with ⟨rfl, rfl, rfl⟩ | ⟨rfl, rfl, rfl, hfits⟩
    · exact ⟨i, ⟨rfl, hnotext, rfl, rfl, hsub⟩, hlen⟩
    · exact ⟨i, ⟨rfl, hnotext, rfl, rfl, hsub⟩, hfits⟩
  · apply page_congr
    intro b _
    simp only [content, Nat.add_assoc]
    rcases hkind with ⟨-, rfl, rfl⟩ | ⟨-, rfl, rfl, -⟩
    · simp only [Nat.zero_add, if_pos hk]
    · simp only [if_neg (Nat.not_lt.mpr (Nat.le_add_right (w.file i).textlen _)), Nat.add_lt_add_iff_left]

/-- Memory that is zero at first. -/
theorem Ok.zfod (h : Ok w s) {type : SegType} {base top : ℕ} (htype : type = .BSS ∨ type = .STACK) (hle : base ≤ top)
    (hsmall : top - base ≤ 2 ^ 33) {y : Seg P I} (hy : newseg type base top = some y) : Ok w ⟨s.mem, s.segs ++ [y]⟩ := by
  have haligned : base % PGSZ = 0 ∧ top % PGSZ = 0 := by
    by_contra hc
    rw [newseg, if_pos (by omega)] at hy
    cases hy
  have hsize : (top - base) / PGSZ ≤ SEGMAPSIZE * PTEPERTAB := by
    rw [PGSZ_eq]
    simp only [SEGMAPSIZE, PTEPERTAB]
    omega
  rw [newseg_eq haligned.1 haligned.2 hsize] at hy
  obtain rfl := Option.some.inj hy
  refine h.fresh (x := ⟨type, base, top, 0, 0, none, 1, _, fun _ => 0⟩) ?_ rfl
  refine
    { base := haligned.1, order := hle, top := haligned.2, ref := ⟨le_rfl, fun _ => rfl⟩, map := (fresh_slots _).1
      size := hsize
      room := by
        simp only [List.length_replicate]
        exact ptes_le_mapsize hsize
      least := by simp only [List.length_replicate]; exact le_rfl
      kind := ?_
      view := fun k p hk => by rw [(fresh_empty rfl).1] at hk; cases hk
      empty := fun k _ _ _ => rfl }
  rcases htype with rfl | rfl <;> rfl

/-- What one operation does. -/
theorem Ok.step (h : Ok w s) {a : Op I} (ha : Permitted w s a) (hfits : Fits s a) {s' : St P I} {out : Outcome}
    (hs : stepOp w s a = some (s', out)) : Ok w s' := by
  cases a with
  | text i base =>
    obtain ⟨hb, hnotext, hlen⟩ := ha
    obtain ⟨r, hr, hok⟩ := h.attach hb (by omega) hnotext (.inl ⟨rfl, rfl, rfl⟩)
    rw [stepOp, hr] at hs
    obtain rfl := Option.some.inj hs
    exact hok
  | data i base =>
    obtain ⟨hb, hnotext, htext, hlen⟩ := ha
    obtain ⟨r, hr, hok⟩ := h.attach hb (by omega) hnotext (.inr ⟨rfl, rfl, rfl, by omega⟩)
    rw [stepOp, hr] at hs
    obtain rfl := Option.some.inj hs
    exact hok
  | zfod type base top =>
    obtain ⟨htype, hle, hsmall⟩ := ha
    obtain ⟨y, hy, heq⟩ := Option.map_eq_some_iff.mp hs
    cases heq
    exact h.zfod htype hle hsmall hy
  | fault n addr read kp ioerr =>
    obtain ⟨x, hn, hx⟩ := Option.bind_eq_some_iff.mp hs
    obtain ⟨hle, hlt, hread⟩ := ha x hn
    obtain ⟨m', x', o, hfix, hok, -⟩ := h.fault hn hle hlt read kp ioerr hread
    rw [hfix] at hx
    cases hx
    exact hok
  | store n addr b kp ioerr =>
    obtain ⟨x, hn, hx⟩ := Option.bind_eq_some_iff.mp hs
    obtain ⟨hle, hlt, hwrite⟩ := ha x hn
    obtain ⟨m', x', o, hfix, hok, hsame, hslot⟩ := h.fault hn hle hlt false kp ioerr fun hc => absurd hc hwrite
    rw [hfix, Option.bind_some] at hx
    cases o with
    | ok =>
      obtain ⟨p, hp, hown⟩ := hslot rfl
      obtain ⟨href, himage⟩ := hown rfl
      have hn' : (s.segs.set n x')[n]? = some x' := List.getElem?_set_self (List.getElem?_eq_some_iff.mp hn).1
      rw [← hsame.base] at hle hp
      obtain ⟨r, hr, hok'⟩ := hok.write hn' hle b hp href himage
      simp only at hr hx hok'
      rw [hr] at hx
      cases hx
      rw [List.set_set] at hok'
      exact hok'
    | again =>
      cases hx
      exact hok
    | err =>
      cases hx
      exact hok
  | dupseg n =>
    obtain ⟨x, hn, hx⟩ := Option.bind_eq_some_iff.mp hs
    obtain ⟨r, hr, hok⟩ := h.dupseg hn
    rw [hr] at hx
    cases hx
    exact hok
  | ibrk n addr =>
    obtain ⟨x, hn, heq⟩ := Option.map_eq_some_iff.mp hs
    cases heq
    obtain ⟨htype, hgrow⟩ := ha x hn
    exact h.ibrk hn htype hgrow (hfits x hn)
  | putseg n =>
    obtain ⟨x, hn, hx⟩ := Option.bind_eq_some_iff.mp hs
    obtain ⟨m', o, hput, hok⟩ := h.putseg hn
    rw [hput, Option.map_some] at hx
    cases o with
    | none =>
      cases hx
      exact hok
    | some y =>
      cases hx
      exact hok

theorem Runs.ok (h : Runs w Fits s) : Ok w s := by
  induction h with
  | boot h => exact h.ok
  | step h ha hfits hs ih => exact ih.step ha hfits hs

end Steps

section Isolation

/-- What processes see of their segments is what memory of their own would hold, and what the cache
finds is what the file holds. -/
structure Isolated (w : World I) (s : St P I) : Prop where
  view : ∀ x ∈ s.segs, ∀ k p, x.slot k = some p → s.mem.data p = page fun b => x.priv (k * PGSZ + b)
  /-- A fault in a segment is fixed, where it may ask for another try or fail to read the file. After
  it the page is there. -/
  fault : ∀ n x, s.segs[n]? = some x → ∀ addr, x.base ≤ addr → addr < x.top → ∀ read, (x.type = .TEXT → read = true) →
    ∀ kp ioerr, ∃ s' out, stepOp w s (.fault n addr read kp ioerr) = some (s', out) ∧
      (out = .ok → ∃ x' p, s'.segs[n]? = some x' ∧ x'.slot ((addr - x.base) / PGSZ) = some p ∧ x'.priv = x.priv ∧
        s'.mem.data p = page fun b => x.priv ((addr - x.base) / PGSZ * PGSZ + b))
  cache : ∀ i daddr p, (lookpage s.mem i daddr).2 = some p → s.mem.data p = page (content (w.file i) daddr)

theorem Ok.found {w : World I} {s : St P I} (h : Ok w s) {i : I} {daddr : ℕ} {p : P} (hp : (lookpage s.mem i daddr).2 = some p) :
    s.mem.data p = page (content (w.file i) daddr) := by
  rcases h.inv.look i daddr with ⟨hnone, -⟩ | ⟨f, hf, himage, hdaddr, -⟩
  · rw [hnone] at hp
    cases hp
  · rw [hf] at hp
    obtain rfl := Option.some.inj hp
    rw [(h.cache f i himage).2, hdaddr]

theorem cow_isolates {w : World I} {s : St P I} (h : Runs w Fits s) : Isolated w s where
  view x hx k p hk := (h.ok.segs x hx).view k p hk
  fault n x hn addr hle hlt read hread kp ioerr := by
    obtain ⟨m', x', out, hfix, hok, hsame, hslot⟩ := h.ok.fault hn hle hlt read kp ioerr hread
    have hn' : (s.segs.set n x')[n]? = some x' := List.getElem?_set_self (List.getElem?_eq_some_iff.mp hn).1
    refine ⟨⟨m', s.segs.set n x'⟩, out, ?_, fun hout => ?_⟩
    · rw [stepOp, hn, Option.bind_some, hfix, Option.map_some]
    · obtain ⟨p, hp, -⟩ := hslot hout
      have hview := (hok.segs x' (List.mem_of_getElem? hn')).view _ p hp
      rw [hsame.priv] at hview
      exact ⟨x', p, hn', hp, hsame.priv, hview⟩
  cache i daddr p hp := h.ok.found hp

def small : World Unit := ⟨⟨0, fun _ => 0, fun _ => false⟩, 0, fun _ => ⟨32, 0, fun _ => 0⟩⟩

def idle : St Unit Unit := ⟨onepage.mem, []⟩

theorem idle_boot : Boot idle := ⟨onepage_start, rfl⟩

/-- A page of zeroes at 4 MiB. -/
def bss : Seg Unit Unit := ⟨.BSS, 2 ^ 22, 2 ^ 22 + 4096, 0, 0, none, 1, List.replicate 16 none, fun _ => 0⟩

theorem runs_bss {ok : St Unit Unit → Op Unit → Prop} (hok : ok idle (.zfod .BSS (2 ^ 22) (2 ^ 22 + 4096))) :
    Runs small ok ⟨onepage.mem, [bss]⟩ := by
  have hnew : newseg .BSS (2 ^ 22) (2 ^ 22 + 4096) = some bss := by
    rw [newseg_eq] <;> simp only [PGSZ_eq] <;> first | rfl | decide
  refine .step (a := .zfod .BSS (2 ^ 22) (2 ^ 22 + 4096)) (o := .ok) (.boot idle_boot) ⟨.inl rfl, by decide, by decide⟩ hok ?_
  rw [stepOp, hnew]
  rfl

theorem cow_isolates_bss : Runs small Fits ⟨onepage.mem, [bss]⟩ ∧ Isolated small ⟨onepage.mem, [bss]⟩ :=
  ⟨runs_bss trivial, cow_isolates (runs_bss trivial)⟩

/-- The segment grows by 16 TiB, but its map stays as it is. -/
theorem ibrk_wraps : ∃ s : St Unit Unit, Runs small (fun _ _ => True) s ∧ ¬ Isolated small s := by
  have hround : ROUNDUP (2 ^ 22 + 2 ^ 44) PGSZ = 2 ^ 22 + 2 ^ 44 := by
    rw [PGSZ_eq]
    decide +kernel
  have hgrown : ibrk bss (2 ^ 22 + 2 ^ 44) = { bss with top := 2 ^ 22 + 2 ^ 44 } := by
    have hnone : ptes (usize ((2 ^ 22 + 2 ^ 44 - bss.base) / PGSZ)) = 0 := by
      rw [PGSZ_eq]
      decide +kernel
    simp only [ibrk, hround, hnone]
    rw [if_neg (Nat.not_lt_zero _), Nat.zero_sub, List.replicate_zero, List.append_nil]
  refine ⟨⟨onepage.mem, [{ bss with top := 2 ^ 22 + 2 ^ 44 }]⟩, ?_, fun hc => ?_⟩
  · refine .step (a := .ibrk 0 (2 ^ 22 + 2 ^ 44)) (o := .ok) (runs_bss trivial) ?_ trivial ?_
    · intro x hx
      obtain rfl := Option.some.inj hx
      rw [hround]
      exact ⟨rfl, by decide⟩
    · rw [stepOp, List.getElem?_cons_zero, Option.map_some, hgrown]
      rfl
  · obtain ⟨s', out, hs, -⟩ := hc.fault 0 _ rfl (2 ^ 43) (by decide) (by decide) false (by rintro ⟨⟩) false false
    have hnone : fixfault small onepage.mem { bss with top := 2 ^ 22 + 2 ^ 44 } (2 ^ 43) false false false = none := by
      rw [fixfault, PTEMAPMEM, PGSZ_eq]
      rfl
    rw [stepOp, List.getElem?_cons_zero, Option.bind_some, hnone] at hs
    cases hs

end Isolation

end Petele.Vm
