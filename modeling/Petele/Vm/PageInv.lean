import Petele.Vm.Page

set_option linter.unusedSectionVars false

namespace Petele.Vm

open Lib

variable {P I : Type} [DecidableEq P] [DecidableEq I] [Fintype P]

section Scan

variable {next : P → Option P} {test : P → Bool} {fuel : ℕ} {l f l' : Option P} {x : P} {c : List P}

theorem scan_split (h : Links next f c) (hs : scan next test fuel l f = some (l', x)) :
    test x ∧ ∃ c₁ c₂, c = c₁ ++ x :: c₂ ∧ l' = c₁.getLast?.or l := by
  induction c generalizing fuel l f with
  | nil =>
    have hf : f = none := h
    rw [hf] at hs
    cases fuel <;> cases hs
  | cons y c ih =>
    rw [h.1] at hs
    cases fuel with
    | zero => cases hs
    | succ fuel =>
      rw [scan] at hs
      split at hs
      · rename_i htest
        cases hs
        exact ⟨htest, [], c, rfl, rfl⟩
      · obtain ⟨htest, c₁, c₂, hc, hl⟩ := ih h.2 hs
        refine ⟨htest, y :: c₁, c₂, by rw [hc]; rfl, ?_⟩
        rw [hl, List.getLast?_cons]
        cases c₁.getLast? <;> rfl

theorem scan_isSome (h : Links next f c) (hx : x ∈ c) (htest : test x) (hfuel : c.length ≤ fuel) :
    ∃ r, scan next test fuel l f = some r := by
  induction c generalizing fuel l f with
  | nil => cases hx
  | cons y c ih =>
    rw [h.1]
    cases fuel with
    | zero => cases hfuel
    | succ fuel =>
      rw [scan]
      split
      · exact ⟨_, rfl⟩
      · rename_i hy
        refine ih h.2 ?_ (Nat.le_of_succ_le_succ hfuel)
        rcases List.mem_cons.mp hx with rfl | hmem
        · exact absurd htest hy
        · exact hmem

theorem links_length_le (h : Links next f c) : c.length ≤ Fintype.card P := h.nodup.length_le_card

end Scan

section FreeList

variable {m : Mem P I} {p : P} {l l₁ l₂ : List P}

/-- The pages on the free list. -/
structure Free (m : Mem P I) (l : List P) : Prop where
  list : Dlist m.next m.prev m.head m.tail l
  count : m.freecount = l.length

theorem Free.unchain (h : Free m (l₁ ++ p :: l₂)) : Free (pageunchain m p) (l₁ ++ l₂) := by
  refine ⟨h.list.unlink, ?_⟩
  have hcount : (pageunchain m p).freecount = m.freecount - 1 := rfl
  rw [hcount, h.count, List.length_append, List.length_append, List.length_cons]
  omega

theorem Free.chaintail (h : Free m l) (hp : p ∉ l) : Free (pagechaintail m p) (l ++ [p]) := by
  refine ⟨h.list.pushBack hp, ?_⟩
  rw [pagechaintail, h.count, List.length_append, List.length_singleton]
  rfl

theorem Free.chainhead (h : Free m l) (hp : p ∉ l) : Free (pagechainhead m p) (p :: l) := by
  refine ⟨h.list.pushFront hp, ?_⟩
  rw [pagechainhead, h.count, List.length_cons]
  rfl

theorem colored_mem (h : Free m l) {color : ℕ} (hc : colored m color = some p) : p ∈ l := by
  rw [colored, Option.map_eq_some_iff] at hc
  obtain ⟨⟨l', x⟩, hs, rfl⟩ := hc
  obtain ⟨-, c₁, c₂, rfl, -⟩ := scan_split h.list.front hs
  exact List.mem_append_right _ List.mem_cons_self

end FreeList

section Cache

variable {e : Env I} {m : Mem P I} {p f : P} {i : I} {c : ℕ → List P} {held : I → ℤ}

/-- The chains of cached pages. -/
structure Chains (m : Mem P I) (c : ℕ → List P) : Prop where
  links : ∀ h, Links m.hash (m.bucket h) (c h)
  mem : ∀ h p, p ∈ c h ↔ m.image p ≠ none ∧ pghash (m.daddr p) = h

/-- How many pages cache a part of an image. -/
def cached (m : Mem P I) (i : I) : ℕ := (Finset.univ.filter fun p => m.image p = some i).card

/-- The reference counts of the images, where `held` are the references that segments have. Those
of an image without text are not given back. -/
def Counts (e : Env I) (m : Mem P I) (held : I → ℤ) : Prop :=
  ∀ i, (e.notext i = false → m.iref i = held i + cached m i) ∧ held i + cached m i ≤ m.iref i

theorem Chains.set_daddr (h : Chains m c) (hp : m.image p = none) (d : ℕ) :
    Chains { m with daddr := Function.update m.daddr p d } c := by
  refine ⟨h.links, fun k x => ?_⟩
  rw [h.mem]
  rcases eq_or_ne x p with rfl | hx
  · simp only [hp, ne_eq, not_true_eq_false, false_and]
  · simp only [Function.update_of_ne hx]

attribute [local simp] cached putimage scan

theorem cached_none (hp : m.image p = none) (i : I) :
    cached { m with image := Function.update m.image p (some i) } i = cached m i + 1 := by
  have hset : (Finset.univ.filter fun x => Function.update m.image p (some i) x = some i) =
      insert p (Finset.univ.filter fun x => m.image x = some i) := by
    ext x
    rcases eq_or_ne x p with rfl | hx
    · simp
    · simp [hx]
  rw [cached, hset, Finset.card_insert_of_notMem (by simp [hp])]
  rfl

theorem cached_some (hp : m.image p = some i) :
    cached { m with image := Function.update m.image p none } i + 1 = cached m i := by
  have hset : (Finset.univ.filter fun x => m.image x = some i) =
      insert p (Finset.univ.filter fun x => Function.update m.image p none x = some i) := by
    ext x
    rcases eq_or_ne x p with rfl | hx
    · simp [hp]
    · simp [hx]
  rw [cached, cached, hset, Finset.card_insert_of_notMem (by simp)]

theorem cached_other {j : I} {v : Option I} (hp : m.image p ≠ some j) (hv : v ≠ some j) :
    cached { m with image := Function.update m.image p v } j = cached m j := by
  rw [cached, cached]
  congr 1
  ext x
  rcases eq_or_ne x p with rfl | hx
  · simp [hp, hv]
  · simp [Function.update_of_ne hx]

theorem putimage_eq : putimage e m i = { m with iref := (putimage e m i).iref } := by
  rw [putimage]
  split <;> rfl

theorem putimage_iref (j : I) :
    (putimage e m i).iref j = if j = i ∧ e.notext i = false then m.iref j - 1 else m.iref j := by
  rw [putimage]
  cases hn : e.notext i with
  | true => simp
  | false =>
    rcases eq_or_ne j i with rfl | hj
    · simp
    · simp [hj]

/-- A cached page is taken off its chain. -/
theorem Chains.forget (h : Chains m c) (hf : m.image f = some i) {c₁ c₂ : List P}
    (hc : c (pghash (m.daddr f)) = c₁ ++ f :: c₂) :
    Chains (clear (putimage e (unhash m (pghash (m.daddr f)) (c₁.getLast?.or none) f) i) f)
      (Function.update c (pghash (m.daddr f)) (c₁ ++ c₂)) := by
  have hmem : ∀ k x, x ∈ c k → k = pghash (m.daddr x) := fun k x hx => ((h.mem k x).mp hx).2.symm
  have hlinks := h.links (pghash (m.daddr f))
  rw [hc] at hlinks
  have hnodup := hlinks.nodup
  rw [List.nodup_middle, List.nodup_cons] at hnodup
  rw [Option.or_none, putimage_eq]
  refine ⟨fun k => ?_, fun k x => ?_⟩
  · rcases eq_or_ne k (pghash (m.daddr f)) with rfl | hk
    · rw [Function.update_self]
      have hremoved := hlinks.remove
      simp only [clear, unhash]
      split
      · rename_i hnone
        rw [if_pos hnone] at hremoved
        rw [Function.update_self]
        exact hremoved
      · rename_i hsome
        rw [if_neg hsome] at hremoved
        exact hremoved
    · rw [Function.update_of_ne hk]
      have hbucket : (if c₁.getLast? = none then Function.update m.bucket (pghash (m.daddr f)) (m.hash f) else m.bucket) k =
          m.bucket k := by
        split
        · exact Function.update_of_ne hk _ _
        · rfl
      simp only [clear, unhash, hbucket]
      refine (h.links k).relinked fun z hz hzk => hk ?_
      have hzf : z ∈ c (pghash (m.daddr f)) := by
        rw [hc]
        exact List.mem_append_left _ (getLast?_mem hz)
      rw [hmem _ _ hzk, ← hmem _ _ hzf]
  · simp only [clear, unhash]
    rcases eq_or_ne x f with rfl | hx
    · simp only [Function.update_self, ne_eq, not_true_eq_false, false_and, iff_false]
      rcases eq_or_ne k (pghash (m.daddr x)) with rfl | hk
      · rw [Function.update_self]
        exact hnodup.1
      · rw [Function.update_of_ne hk]
        exact fun hxk => hk (hmem _ _ hxk)
    · simp only [Function.update_of_ne hx]
      rw [← h.mem]
      rcases eq_or_ne k (pghash (m.daddr f)) with rfl | hk
      · rw [Function.update_self, hc]
        simp [hx]
      · rw [Function.update_of_ne hk]

theorem Counts.forget (h : Counts e m held) (hf : m.image f = some i) (k : ℕ) (l : Option P) :
    Counts e (clear (putimage e (unhash m k l f) i) f) held := by
  have himage : ∀ j, cached (clear (putimage e (unhash m k l f) i) f) j =
      cached { m with image := Function.update m.image f none } j := by
    intro j
    rw [putimage_eq]
    rfl
  have hiref : ∀ j, (clear (putimage e (unhash m k l f) i) f).iref j =
      if j = i ∧ e.notext i = false then m.iref j - 1 else m.iref j := fun j => putimage_iref j
  intro j
  obtain ⟨hexact, hle⟩ := h j
  rw [himage, hiref]
  rcases eq_or_ne j i with rfl | hj
  · have hcount := cached_some hf
    refine ⟨fun hn => ?_, ?_⟩
    · have heq := hexact hn
      rw [if_pos ⟨rfl, hn⟩]
      omega
    · split
      · rename_i hn
        have heq := hexact hn.2
        omega
      · omega
  · rw [if_neg fun hc => hj hc.1, cached_other (by rw [hf]; exact fun heq => hj (Option.some.inj heq).symm) (by simp)]
    exact ⟨hexact, hle⟩

/-- What may change when pages leave the cache. -/
structure Uncached (m m' : Mem P I) (p : P) : Prop where
  same : m' = { m with hash := m'.hash, bucket := m'.bucket, iref := m'.iref, image := m'.image, daddr := m'.daddr }
  image : m'.image = Function.update m.image p none
  daddr : ∀ x, x ≠ p → m'.daddr x = m.daddr x

theorem uncached_clear (k : ℕ) (l : Option P) :
    Uncached m (clear (putimage e (unhash m k l f) i) f) f := by
  rw [putimage_eq]
  exact ⟨rfl, rfl, fun x hx => Function.update_of_ne hx _ _⟩

theorem Chains.split (h : Chains m c) (hf : m.image f ≠ none) :
    ∃ c₁ c₂, c (pghash (m.daddr f)) = c₁ ++ f :: c₂ :=
  List.append_of_mem ((h.mem _ f).mpr ⟨hf, rfl⟩)

theorem uncachepage_spec (h : Chains m c) (hcounts : Counts e m held) (p : P) :
    Uncached m (uncachepage e m p) p ∧ (∃ c', Chains (uncachepage e m p) c') ∧ Counts e (uncachepage e m p) held := by
  cases hi : m.image p with
  | none =>
    have heq : uncachepage e m p = m := by
      rw [uncachepage]
      simp only [hi]
    rw [heq]
    refine ⟨⟨rfl, ?_, fun _ _ => rfl⟩, ⟨c, h⟩, hcounts⟩
    rw [← hi, Function.update_eq_self]
  | some i =>
    have hlinks := h.links (pghash (m.daddr p))
    have hmem : p ∈ c (pghash (m.daddr p)) := (h.mem _ p).mpr ⟨by rw [hi]; exact Option.some_ne_none i, rfl⟩
    obtain ⟨⟨l, f⟩, hs⟩ : ∃ r, scan m.hash (· = p) (Fintype.card P) none (m.bucket (pghash (m.daddr p))) = some r :=
      scan_isSome hlinks hmem (decide_eq_true rfl) (links_length_le hlinks)
    obtain ⟨htest, c₁, c₂, hc, rfl⟩ := scan_split hlinks hs
    obtain rfl : f = p := by simpa using htest
    have heq : uncachepage e m f = clear (putimage e (unhash m (pghash (m.daddr f)) (c₁.getLast?.or none) f) i) f := by
      rw [uncachepage]
      simp only [hi, hs]
    rw [heq]
    exact ⟨uncached_clear _ _, ⟨_, h.forget hi hc⟩, hcounts.forget hi _ _⟩

theorem cachedel_spec (h : Chains m c) (hcounts : Counts e m held) (i : I) (d : ℕ) :
    cachedel e m i d = m ∨ ∃ f, Uncached m (cachedel e m i d) f ∧ (∃ c', Chains (cachedel e m i d) c') ∧
      Counts e (cachedel e m i d) held := by
  have hlinks := h.links (pghash d)
  cases hs : scan m.hash (caches m i d) (Fintype.card P) none (m.bucket (pghash d)) with
  | none =>
    left
    rw [cachedel]
    simp only [hs]
  | some r =>
    obtain ⟨l, f⟩ := r
    right
    obtain ⟨htest, c₁, c₂, hc, rfl⟩ := scan_split hlinks hs
    obtain ⟨hi, rfl⟩ : m.image f = some i ∧ m.daddr f = d := by simpa [caches] using htest
    have heq : cachedel e m i (m.daddr f) =
        clear (putimage e (unhash m (pghash (m.daddr f)) (c₁.getLast?.or none) f) i) f := by
      rw [cachedel]
      simp only [hs]
    rw [heq]
    exact ⟨f, uncached_clear _ _, ⟨_, h.forget hi hc⟩, hcounts.forget hi _ _⟩

theorem cachepage_spec (h : Chains m c) (hcounts : Counts e m held) (hp : m.image p = none) (i : I) :
    ∃ m', cachepage m p i = some m' ∧
      m' = { m with hash := m'.hash, bucket := m'.bucket, iref := m'.iref, image := Function.update m.image p (some i) } ∧
      (∃ c', Chains m' c') ∧ Counts e m' held := by
  have hfree : ∀ k, p ∉ c k := fun k hmem => ((h.mem k p).mp hmem).1 hp
  refine ⟨{ m with
    iref := Function.update m.iref i (m.iref i + 1)
    image := Function.update m.image p (some i)
    hash := Function.update m.hash p (m.bucket (pghash (m.daddr p)))
    bucket := Function.update m.bucket (pghash (m.daddr p)) (some p) }, by rw [cachepage]; simp only [hp], rfl, ⟨Function.update c (pghash (m.daddr p)) (p :: c (pghash (m.daddr p))), ?_, ?_⟩, ?_⟩
  · intro k
    rcases eq_or_ne k (pghash (m.daddr p)) with rfl | hk
    · rw [Function.update_self]
      refine ⟨Function.update_self _ _ _, ?_⟩
      simp only [Function.update_self]
      exact (h.links _).update (hfree _) _
    · rw [Function.update_of_ne hk]
      simp only [Function.update_of_ne hk]
      exact (h.links k).update (hfree k) _
  · intro k x
    rcases eq_or_ne x p with rfl | hx
    · simp only [Function.update_self, ne_eq, reduceCtorEq, not_false_eq_true, true_and]
      rcases eq_or_ne k (pghash (m.daddr x)) with rfl | hk
      · rw [Function.update_self]
        simp
      · rw [Function.update_of_ne hk]
        exact ⟨fun hmem => absurd hmem (hfree k), fun heq => absurd heq.symm hk⟩
    · simp only [Function.update_of_ne hx]
      rw [← h.mem]
      rcases eq_or_ne k (pghash (m.daddr p)) with rfl | hk
      · rw [Function.update_self, List.mem_cons]
        exact or_iff_right hx
      · rw [Function.update_of_ne hk]
  · intro j
    obtain ⟨hexact, hle⟩ := hcounts j
    rcases eq_or_ne j i with rfl | hj
    · have hcount : cached { m with
          iref := Function.update m.iref j (m.iref j + 1)
          image := Function.update m.image p (some j)
          hash := Function.update m.hash p (m.bucket (pghash (m.daddr p)))
          bucket := Function.update m.bucket (pghash (m.daddr p)) (some p) } j = cached m j + 1 := cached_none hp j
      rw [hcount]
      simp only [Function.update_self]
      refine ⟨fun hn => ?_, ?_⟩
      · have heq := hexact hn
        omega
      · omega
    · have hcount : cached { m with
          iref := Function.update m.iref i (m.iref i + 1)
          image := Function.update m.image p (some i)
          hash := Function.update m.hash p (m.bucket (pghash (m.daddr p)))
          bucket := Function.update m.bucket (pghash (m.daddr p)) (some p) } j = cached m j :=
        cached_other (by rw [hp]; exact Option.some_ne_none j ∘ Eq.symm) (fun heq => hj (Option.some.inj heq).symm)
      rw [hcount]
      simp only [Function.update_of_ne hj]
      exact ⟨hexact, hle⟩

end Cache

section Invariant

variable {e : Env I} {m m' : Mem P I} {p : P} {held : I → ℤ}

/-- The free list holds the pages without a reference. -/
def Listed (m : Mem P I) : Prop := ∃ l, Free m l ∧ ∀ p, p ∈ l ↔ m.ref p = 0

structure Inv (e : Env I) (m : Mem P I) (held : I → ℤ) : Prop where
  listed : Listed m
  nonneg : ∀ p, 0 ≤ m.ref p
  chains : ∃ c, Chains m c
  counts : Counts e m held
  size : ∀ p, m.lg2size p = PGSHFT

/-- Pages have left the cache and changed their places on the free list. -/
structure Sheds (m m' : Mem P I) : Prop where
  ref : m'.ref = m.ref
  data : m'.data = m.data
  lg2size : m'.lg2size = m.lg2size
  cache : ∀ x, m'.image x = m.image x ∧ m'.daddr x = m.daddr x ∨ m'.image x = none

theorem Sheds.refl (m : Mem P I) : Sheds m m := ⟨rfl, rfl, rfl, fun _ => Or.inl ⟨rfl, rfl⟩⟩

theorem Uncached.sheds (h : Uncached m m' p) : Sheds m m' := by
  refine ⟨by rw [h.same], by rw [h.same], by rw [h.same], fun x => ?_⟩
  rcases eq_or_ne x p with rfl | hx
  · right
    rw [h.image, Function.update_self]
  · left
    refine ⟨?_, h.daddr x hx⟩
    rw [h.image, Function.update_of_ne hx]

theorem Uncached.free {l : List P} (h : Uncached m m' p) (hl : Free m l) : Free m' l := by
  rw [h.same]
  exact ⟨hl.list, hl.count⟩

theorem Uncached.inv (h : Uncached m m' p) (hinv : Inv e m held) (hc : ∃ c, Chains m' c) (hcounts : Counts e m' held) :
    Inv e m' held := by
  obtain ⟨l, hl, hmem⟩ := hinv.listed
  refine ⟨⟨l, h.free hl, ?_⟩, ?_, hc, hcounts, ?_⟩
  · rw [h.sheds.ref]
    exact hmem
  · rw [h.sheds.ref]
    exact hinv.nonneg
  · rw [h.sheds.lg2size]
    exact hinv.size

theorem Inv.uncache (h : Inv e m held) (p : P) :
    Uncached m (uncachepage e m p) p ∧ Inv e (uncachepage e m p) held := by
  obtain ⟨c, hc⟩ := h.chains
  obtain ⟨hun, hc', hcounts⟩ := uncachepage_spec hc h.counts p
  exact ⟨hun, hun.inv h hc' hcounts⟩

theorem Inv.uncacheAt (h : Inv e m held) (i : I) (d : ℕ) : Sheds m (cachedel e m i d) ∧ Inv e (cachedel e m i d) held := by
  obtain ⟨c, hc⟩ := h.chains
  rcases cachedel_spec hc h.counts i d with heq | ⟨f, hun, hc', hcounts⟩
  · rw [heq]
    exact ⟨Sheds.refl m, h⟩
  · exact ⟨hun.sheds, hun.inv h hc' hcounts⟩

theorem Inv.cache (h : Inv e m held) (hp : m.image p = none) (d : ℕ) (i : I) :
    ∃ m', cachepage { m with daddr := Function.update m.daddr p d } p i = some m' ∧ Inv e m' held ∧
      m'.ref = m.ref ∧ m'.data = m.data ∧ m'.image = Function.update m.image p (some i) ∧
      m'.daddr = Function.update m.daddr p d := by
  obtain ⟨c, hc⟩ := h.chains
  obtain ⟨m', hm', hsame, hc', hcounts⟩ := cachepage_spec (hc.set_daddr hp d) h.counts hp i
  refine ⟨m', hm', ⟨?_, ?_, hc', hcounts, ?_⟩, by rw [hsame], by rw [hsame], by rw [hsame], by rw [hsame]⟩
  · obtain ⟨l, hl, hmem⟩ := h.listed
    rw [hsame]
    exact ⟨l, ⟨hl.list, hl.count⟩, hmem⟩
  · rw [hsame]
    exact h.nonneg
  · rw [hsame]
    exact h.size

/-- A free page is taken off the list. -/
theorem Listed.unchain (h : Listed m) (hp : m.ref p = 0) :
    ∃ l, Free (pageunchain m p) l ∧ ∀ x, x ∈ l ↔ m.ref x = 0 ∧ x ≠ p := by
  obtain ⟨l, hl, hmem⟩ := h
  obtain ⟨l₁, l₂, rfl⟩ := List.append_of_mem ((hmem p).mpr hp)
  refine ⟨l₁ ++ l₂, hl.unchain, fun x => ?_⟩
  have hnodup := hl.list.nodup
  rw [List.nodup_middle, List.nodup_cons] at hnodup
  rw [← hmem]
  constructor
  · intro hx
    refine ⟨?_, ?_⟩
    · rcases List.mem_append.mp hx with hx₁ | hx₂
      · exact List.mem_append_left _ hx₁
      · exact List.mem_append_right _ (List.mem_cons_of_mem _ hx₂)
    · rintro rfl
      exact hnodup.1 hx
  · rintro ⟨hx, hne⟩
    simpa [hne] using hx

/-- A free page moves to one of the ends of the list. -/
theorem Listed.rechain (h : Listed m) (hp : m.ref p = 0) :
    Listed (pagechaintail (pageunchain m p) p) ∧ Listed (pagechainhead (pageunchain m p) p) := by
  obtain ⟨l, hl, hmem⟩ := h.unchain hp
  have hnot : p ∉ l := fun hx => ((hmem p).mp hx).2 rfl
  have hiff : ∀ x, (x ∈ l ∨ x = p) ↔ m.ref x = 0 := by
    intro x
    rw [hmem]
    rcases eq_or_ne x p with rfl | hx
    · simp [hp]
    · simp [hx]
  refine ⟨⟨_, hl.chaintail hnot, fun x => ?_⟩, ⟨_, hl.chainhead hnot, fun x => ?_⟩⟩
  · rw [List.mem_append, List.mem_singleton]
    exact hiff x
  · rw [List.mem_cons, or_comm]
    exact hiff x

theorem Inv.totail (h : Inv e m held) (hp : m.ref p = 0) : Inv e (pagechaintail (pageunchain m p) p) held := by
  obtain ⟨c, hc⟩ := h.chains
  exact ⟨(h.listed.rechain hp).1, h.nonneg, ⟨c, hc.links, hc.mem⟩, h.counts, h.size⟩

theorem Inv.tohead (h : Inv e m held) (hp : m.ref p = 0) : Inv e (pagechainhead (pageunchain m p) p) held := by
  obtain ⟨c, hc⟩ := h.chains
  exact ⟨(h.listed.rechain hp).2, h.nonneg, ⟨c, hc.links, hc.mem⟩, h.counts, h.size⟩

/-- A free page gets its first reference. -/
theorem Inv.take (h : Inv e m held) (hp : m.ref p = 0) :
    Inv e { pageunchain m p with ref := Function.update m.ref p 1 } held := by
  obtain ⟨c, hc⟩ := h.chains
  obtain ⟨l, hl, hmem⟩ := h.listed.unchain hp
  refine ⟨⟨l, ⟨hl.list, hl.count⟩, fun x => ?_⟩, fun x => ?_, ⟨c, hc.links, hc.mem⟩, h.counts, h.size⟩
  · rw [hmem]
    rcases eq_or_ne x p with rfl | hx
    · simp
    · simp [hx]
  · rcases eq_or_ne x p with rfl | hx
    · simp
    · simpa [hx] using h.nonneg x

/-- A page that has references gets or loses one, and keeps one. -/
theorem Inv.reref (h : Inv e m held) (hp : 0 < m.ref p) {n : ℤ} (hn : 0 < n) :
    Inv e { m with ref := Function.update m.ref p n } held := by
  obtain ⟨c, hc⟩ := h.chains
  obtain ⟨l, hl, hmem⟩ := h.listed
  refine ⟨⟨l, ⟨hl.list, hl.count⟩, fun x => ?_⟩, fun x => ?_, ⟨c, hc.links, hc.mem⟩, h.counts, h.size⟩
  · rw [hmem]
    rcases eq_or_ne x p with rfl | hx
    · simp only [Function.update_self]
      omega
    · simp [hx]
  · rcases eq_or_ne x p with rfl | hx
    · simpa using hn.le
    · simpa [hx] using h.nonneg x

theorem Inv.look (h : Inv e m held) (i : I) (d : ℕ) :
    (lookpage m i d = (m, none) ∧ ∀ f, ¬ (m.image f = some i ∧ m.daddr f = d)) ∨
      ∃ f, (lookpage m i d).2 = some f ∧ m.image f = some i ∧ m.daddr f = d ∧ Inv e (lookpage m i d).1 held ∧
        (lookpage m i d).1.ref = Function.update m.ref f (m.ref f + 1) ∧ (lookpage m i d).1.data = m.data ∧
        (lookpage m i d).1.image = m.image ∧ (lookpage m i d).1.daddr = m.daddr := by
  obtain ⟨c, hc⟩ := h.chains
  have hlinks := hc.links (pghash d)
  cases hs : scan m.hash (caches m i d) (Fintype.card P) none (m.bucket (pghash d)) with
  | none =>
    left
    refine ⟨by rw [lookpage]; simp only [hs], ?_⟩
    rintro f ⟨hi, rfl⟩
    have hmem : f ∈ c (pghash (m.daddr f)) := (hc.mem _ f).mpr ⟨by rw [hi]; exact Option.some_ne_none i, rfl⟩
    obtain ⟨r, hr⟩ : ∃ r, scan m.hash (caches m i (m.daddr f)) (Fintype.card P) none (m.bucket (pghash (m.daddr f))) = some r :=
      scan_isSome hlinks hmem (by simp [caches, hi]) (links_length_le hlinks)
    rw [hs] at hr
    cases hr
  | some r =>
    obtain ⟨l, f⟩ := r
    right
    obtain ⟨htest, -⟩ := scan_split hlinks hs
    obtain ⟨hi, rfl⟩ : m.image f = some i ∧ m.daddr f = d := by simpa [caches] using htest
    have heq : lookpage m i (m.daddr f) =
        (if m.ref f + 1 = 1 then pageunchain { m with ref := Function.update m.ref f (m.ref f + 1) } f
          else { m with ref := Function.update m.ref f (m.ref f + 1) }, some f) := by
      rw [lookpage]
      simp only [hs, Function.update_self]
    rw [heq]
    refine ⟨f, rfl, hi, rfl, ?_⟩
    have hnonneg := h.nonneg f
    by_cases hz : m.ref f = 0
    · rw [if_pos (by omega)]
      refine ⟨?_, rfl, rfl, rfl, rfl⟩
      have htake := h.take hz
      rw [hz]
      exact htake
    · rw [if_neg (by omega)]
      exact ⟨h.reref (by omega) (by omega), rfl, rfl, rfl, rfl⟩

theorem Inv.plain (h : Inv e m held) (va color : P → ℕ) (data : P → List UInt8) :
    Inv e { m with va := va, color := color, data := data } held := by
  obtain ⟨l, hl, hmem⟩ := h.listed
  obtain ⟨c, hc⟩ := h.chains
  exact ⟨⟨l, ⟨hl.list, hl.count⟩, hmem⟩, h.nonneg, ⟨c, hc.links, hc.mem⟩, h.counts, h.size⟩

theorem uncachepage_ref (r : P → ℤ) : uncachepage e { m with ref := r } p = { uncachepage e m p with ref := r } := by
  unfold uncachepage
  cases m.image p with
  | none => rfl
  | some i =>
    simp only
    cases scan m.hash (fun x => decide (x = p)) (Fintype.card P) none (m.bucket (pghash (m.daddr p))) with
    | none =>
      simp only [clear, putimage]
      split <;> rfl
    | some r =>
      simp only [clear, putimage, unhash]
      split <;> rfl

/-- The page that the loop has moved to the head ends it. -/
theorem Inv.reclaimed (h : Inv e m held) {o : Option P} (ho : ∀ x ∈ o, m.ref x = 0) {fuel : ℕ} (hfuel : 0 < fuel) (n : ℤ) :
    ∃ m', reclaimloop e fuel m o n = some m' ∧ Inv e m' held ∧ Sheds m m' := by
  obtain ⟨fuel, rfl⟩ := Nat.exists_eq_add_of_lt hfuel
  rw [Nat.zero_add]
  cases o with
  | none => exact ⟨m, rfl, h, Sheds.refl m⟩
  | some x =>
    rw [reclaimloop]
    split
    · rw [if_pos (ho x rfl)]
      obtain ⟨hun, hinv⟩ := h.uncache x
      have hx : (uncachepage e m x).ref x = 0 := by
        rw [hun.sheds.ref]
        exact ho x rfl
      have hend : (pagechainhead (pageunchain (uncachepage e m x) x) x).prev x = none := Function.update_self _ _ _
      simp only [hend]
      refine ⟨_, by cases fuel <;> rfl, hinv.tohead hx, ?_⟩
      exact ⟨hun.sheds.ref, hun.sheds.data, hun.sheds.lg2size, hun.sheds.cache⟩
    · exact ⟨m, rfl, h, Sheds.refl m⟩

theorem Inv.reclaim (h : Inv e m held) (n : ℤ) : ∃ m', pagereclaim e m n = some m' ∧ Inv e m' held ∧ Sheds m m' := by
  rw [pagereclaim]
  obtain ⟨l, hl, hmem⟩ := h.listed
  cases htail : m.tail with
  | none => exact ⟨m, by cases Fintype.card P <;> rfl, h, Sheds.refl m⟩
  | some x =>
    have hx : x ∈ l := by
      have hlast := hl.list.tail_eq
      rw [htail] at hlast
      exact getLast?_mem hlast.symm
    apply h.reclaimed
    · intro y hy
      obtain rfl := Option.some.inj hy
      exact (hmem x).mp hx
    · exact Fintype.card_pos_iff.mpr ⟨x⟩

theorem Inv.head_of_pos (h : Inv e m held) (hpos : 0 < m.freecount) : ∃ x, m.head = some x ∧ m.ref x = 0 := by
  obtain ⟨l, hl, hmem⟩ := h.listed
  have hcount := hl.count
  cases l with
  | nil =>
    rw [hcount] at hpos
    cases hpos
  | cons x l => exact ⟨x, hl.list.head_eq, (hmem x).mp List.mem_cons_self⟩

theorem Inv.of_colored (h : Inv e m held) {color : ℕ} (hc : colored m color = some p) : m.ref p = 0 := by
  obtain ⟨l, hl, hmem⟩ := h.listed
  exact (hmem p).mp (colored_mem hl hc)

/-- A free page leaves the list and the cache and gets its first reference. -/
theorem Inv.claim (h : Inv e m held) (hp : m.ref p = 0) :
    Inv e { uncachepage e (pageunchain m p) p with ref := Function.update m.ref p 1 } held ∧
      (uncachepage e (pageunchain m p) p).ref = m.ref ∧ (uncachepage e (pageunchain m p) p).data = m.data ∧
      (uncachepage e (pageunchain m p) p).lg2size = m.lg2size ∧
      (uncachepage e (pageunchain m p) p).image = Function.update m.image p none ∧
      ∀ x, x ≠ p → (uncachepage e (pageunchain m p) p).daddr x = m.daddr x := by
  obtain ⟨c, hc⟩ := h.chains
  have hchains : Chains (pageunchain m p) c := ⟨hc.links, hc.mem⟩
  obtain ⟨hun, -, -⟩ := uncachepage_spec (e := e) hchains h.counts p
  refine ⟨?_, hun.sheds.ref, hun.sheds.data, hun.sheds.lg2size, hun.image, hun.daddr⟩
  rw [← uncachepage_ref]
  exact ((h.take hp).uncache p).2

/-- What `newpage` does to the pages when it returns `p`. -/
structure New (m m' : Mem P I) (p : P) : Prop where
  free : m.ref p = 0
  ref : m'.ref = Function.update m.ref p 1
  image : m'.image = Function.update m.image p none
  daddr : ∀ x, x ≠ p → m'.daddr x = m.daddr x

theorem Inv.new (h : Inv e m held) (clear : Bool) (va : ℕ) (kp : Bool) :
    ∃ r, newpage e m clear va kp = some r ∧ Inv e r.1 held ∧ (r.2 = none → Sheds m r.1) ∧
      ∀ p, r.2 = some p → New m r.1 p ∧
        r.1.data = if clear then Function.update m.data p (List.replicate (1 <<< PGSHFT) 0) else m.data := by
  unfold newpage
  split
  · obtain ⟨m', hm', hinv, hsheds⟩ := h.reclaim (e.highwater / 2 : ℕ)
    refine ⟨(m', none), by rw [hm']; rfl, hinv, fun _ => hsheds, fun p hp => nomatch hp⟩
  · rename_i hmany
    have hpos : 0 < m.freecount := by
      rw [not_and_or, not_or] at hmany
      rcases hmany with hlt | ⟨-, hlt⟩
      · omega
      · omega
    obtain ⟨color, x, hfound, hx⟩ : ∃ color x, pick m (e.getpgcolor va) = some ({ m with color := color }, x) ∧ m.ref x = 0 := by
      rw [pick]
      cases hc : colored m (e.getpgcolor va) with
      | some x => exact ⟨m.color, x, rfl, h.of_colored hc⟩
      | none =>
        obtain ⟨x, hhead, hx⟩ := h.head_of_pos hpos
        exact ⟨_, x, by rw [hhead]; rfl, hx⟩
    have hinv : Inv e { m with color := color } held := h.plain m.va color m.data
    obtain ⟨hclaim, href, hdata, hsize, himage, hdaddr⟩ := hinv.claim (p := x) hx
    have hx' : (pageunchain { m with color := color } x).ref x = 0 := hx
    simp only [hfound, Option.bind_some, hx', ne_eq, not_true_eq_false, if_false, href, hx, Int.zero_add]
    have hplain := hclaim.plain (Function.update (uncachepage e (pageunchain { m with color := color } x) x).va x va)
      (uncachepage e (pageunchain { m with color := color } x) x).color
    cases clear with
    | false =>
      refine ⟨_, rfl, hplain _, (fun hc => nomatch hc), fun p hp => ?_⟩
      obtain rfl := Option.some.inj hp
      exact ⟨⟨hx, rfl, himage, hdaddr⟩, hdata⟩
    | true =>
      refine ⟨_, rfl, hplain _, (fun hc => nomatch hc), fun p hp => ?_⟩
      obtain rfl := Option.some.inj hp
      refine ⟨⟨hx, rfl, himage, hdaddr⟩, ?_⟩
      simp only [if_true, hdata, hsize, h.size]

theorem Inv.aux (h : Inv e m held) :
    ∃ r, auxpage e m = some r ∧ Inv e r.1 held ∧ (r.2 = none → r.1 = m) ∧
      ∀ p, r.2 = some p → New m r.1 p ∧ r.1.data = m.data := by
  unfold auxpage
  split
  · exact ⟨(m, none), rfl, h, fun _ => rfl, fun p hp => nomatch hp⟩
  · obtain ⟨x, hhead, hx⟩ := h.head_of_pos (by omega)
    obtain ⟨hclaim, href, hdata, hsize, himage, hdaddr⟩ := h.claim hx
    have hx' : (pageunchain m x).ref x = 0 := hx
    simp only [hhead, Option.bind_some, hx', ne_eq, not_true_eq_false, if_false, uncachepage_ref, Int.zero_add]
    refine ⟨_, rfl, hclaim, (fun hc => nomatch hc), fun p hp => ?_⟩
    obtain rfl := Option.some.inj hp
    exact ⟨⟨hx, rfl, himage, hdaddr⟩, hdata⟩

theorem Inv.put (h : Inv e m held) (hp : 0 < m.ref p) :
    ∃ m', putpage m p = some m' ∧ Inv e m' held ∧ m'.ref = Function.update m.ref p (m.ref p - 1) ∧ m'.data = m.data ∧
      m'.image = m.image ∧ m'.daddr = m.daddr ∧ ∀ x, x ≠ p → m.ref x ≠ 0 → m'.next x = m.next x := by
  unfold putpage
  simp only [Function.update_self]
  by_cases hmore : m.ref p - 1 > 0
  · rw [if_pos hmore]
    exact ⟨_, rfl, h.reref hp hmore, rfl, rfl, rfl, rfl, fun _ _ _ => rfl⟩
  · have hone : m.ref p = 1 := by omega
    rw [if_neg hmore, if_neg (by omega), hone]
    obtain ⟨c, hc⟩ := h.chains
    obtain ⟨l, hl, hmem⟩ := h.listed
    have hnot : p ∉ l := by
      rw [hmem]
      omega
    have hfree : Free { m with ref := Function.update m.ref p (1 - 1) } l := ⟨hl.list, hl.count⟩
    have hiff : ∀ x, (x ∈ l ∨ x = p) ↔ Function.update m.ref p (1 - 1) x = 0 := by
      intro x
      rcases eq_or_ne x p with rfl | hx
      · simp
      · simp [hx, hmem]
    have hnonneg : ∀ x, 0 ≤ Function.update m.ref p (1 - 1) x := by
      intro x
      rcases eq_or_ne x p with rfl | hx
      · simp
      · simpa [hx] using h.nonneg x
    split
    · refine ⟨_, rfl, ⟨⟨l ++ [p], hfree.chaintail hnot, fun x => ?_⟩, hnonneg, ⟨c, hc.links, hc.mem⟩, h.counts, h.size⟩,
        rfl, rfl, rfl, rfl, fun x hx href => ?_⟩
      · rw [List.mem_append, List.mem_singleton]
        exact hiff x
      · have htail : ∀ z ∈ m.tail, x ≠ z := by
          rintro z hz rfl
          rw [hl.list.tail_eq] at hz
          exact href ((hmem x).mp (getLast?_mem hz))
        rw [pagechaintail]
        simp only [Function.update_of_ne hx]
        exact relinked_of_ne htail
    · refine ⟨_, rfl, ⟨⟨p :: l, hfree.chainhead hnot, fun x => ?_⟩, hnonneg, ⟨c, hc.links, hc.mem⟩, h.counts, h.size⟩,
        rfl, rfl, rfl, rfl, fun x hx href => Function.update_of_ne hx _ _⟩
      rw [List.mem_cons, or_comm]
      exact hiff x

end Invariant

end Petele.Vm
