import Petele.Vm.PageInv

set_option linter.unusedSectionVars false

namespace Petele.Vm

open Lib

variable {P I : Type} [DecidableEq P] [DecidableEq I] [Fintype P]
variable {e : Env I} {m m' : Mem P I} {l l₁ : List P} {x : P} {n : ℕ} {npages : ℤ}

/-- The cached pages at the end of the list. -/
def cachedrun (m : Mem P I) (l : List P) : ℕ := (l.reverse.takeWhile fun p => (m.image p).isSome).length

/-- The last `n` pages of the list have left the cache and are at the head. -/
structure Reclaimed (m m' : Mem P I) (l : List P) (n : ℕ) : Prop where
  moved : ∃ q, q.Perm (l.drop (l.length - n)) ∧ Free m' (q ++ l.take (l.length - n))
  image : ∀ p, m'.image p = if p ∈ l.drop (l.length - n) then none else m.image p

theorem Reclaimed.nothing (h : Free m l) : Reclaimed m m l 0 := by
  constructor
  · refine ⟨[], ?_, ?_⟩
    · rw [Nat.sub_zero, List.drop_length]
    · rw [Nat.sub_zero, List.take_length]
      exact h
  · intro p
    rw [Nat.sub_zero, List.drop_length, if_neg List.not_mem_nil]

theorem uncachepage_links (m : Mem P I) (p : P) :
    uncachepage e m p = { m with
      hash := (uncachepage e m p).hash, bucket := (uncachepage e m p).bucket, iref := (uncachepage e m p).iref
      image := Function.update m.image p none, daddr := (uncachepage e m p).daddr } := by
  rw [uncachepage]
  cases hi : m.image p with
  | none =>
    simp only
    rw [← hi, Function.update_eq_self]
  | some i =>
    simp only
    cases scan m.hash (fun x => decide (x = p)) (Fintype.card P) none (m.bucket (pghash (m.daddr p))) with
    | none =>
      simp only [clear]
      rw [putimage_eq]
    | some r =>
      simp only [clear]
      rw [putimage_eq]
      rfl

/-- One page moves from the tail to the head. -/
theorem Reclaimed.one (h : Free m (l₁ ++ [x])) :
    Reclaimed m (pagechainhead (pageunchain (uncachepage e m x) x) x) (l₁ ++ [x]) 1 := by
  have hlen : (l₁ ++ [x]).length - 1 = l₁.length := by
    rw [List.length_append, List.length_singleton, Nat.add_sub_cancel]
  have hun : Free (uncachepage e m x) (l₁ ++ [x]) := by
    rw [uncachepage_links]
    exact ⟨h.list, h.count⟩
  have hout : Free (pageunchain (uncachepage e m x) x) l₁ := by
    have hunchain := hun.unchain
    rwa [List.append_nil] at hunchain
  have hx : x ∉ l₁ := by
    have hnodup := List.nodup_append.mp h.list.nodup
    exact fun hmem => hnodup.2.2 x hmem x List.mem_cons_self rfl
  have himage : (pagechainhead (pageunchain (uncachepage e m x) x) x).image = Function.update m.image x none := by
    have heq : (pagechainhead (pageunchain (uncachepage e m x) x) x).image = (uncachepage e m x).image := rfl
    rw [heq, uncachepage_links]
  constructor
  · refine ⟨[x], ?_, ?_⟩
    · rw [hlen, List.drop_left]
    · rw [hlen, List.take_left]
      exact hout.chainhead hx
  · intro p
    rw [hlen, List.drop_left, himage, Function.update_apply]
    simp only [List.mem_singleton]

/-- The page that has moved to the head ends the loop. -/
theorem pagereclaim_eq (h : Free m l) (hfree : ∀ p ∈ l, m.ref p = 0) (npages : ℤ) :
    ∃ m', pagereclaim e m npages = some m' ∧ Reclaimed m m' l (min (min npages.toNat (cachedrun m l)) 1) := by
  rw [pagereclaim, h.list.tail_eq]
  rcases List.eq_nil_or_concat l with rfl | ⟨l₁, x, rfl⟩
  · refine ⟨m, by cases Fintype.card P <;> rfl, ?_⟩
    have hzero : min (min npages.toNat (cachedrun m [])) 1 = 0 := by
      have hrun : cachedrun m ([] : List P) = 0 := rfl
      omega
    rw [hzero]
    exact .nothing h
  · rw [List.concat_eq_append] at h hfree ⊢
    obtain ⟨fuel, hfuel⟩ := Nat.exists_eq_add_of_lt (Fintype.card_pos_iff.mpr ⟨x⟩)
    rw [hfuel, Nat.zero_add, List.getLast?_concat, reclaimloop]
    have hrun : cachedrun m (l₁ ++ [x]) =
        if (m.image x).isSome then (l₁.reverse.takeWhile fun p => (m.image p).isSome).length + 1 else 0 := by
      rw [cachedrun, List.reverse_append, List.reverse_singleton, List.singleton_append, List.takeWhile_cons]
      split <;> rfl
    split
    · rename_i hgo
      have hsome : (m.image x).isSome := Option.isSome_iff_ne_none.mpr hgo.1
      have hend : (pagechainhead (pageunchain (uncachepage e m x) x) x).prev x = none := Function.update_self _ _ _
      rw [if_pos (hfree x (by simp))]
      simp only [hend]
      refine ⟨_, by cases fuel <;> rfl, ?_⟩
      have hone : min (min npages.toNat (cachedrun m (l₁ ++ [x]))) 1 = 1 := by
        rw [hrun, if_pos hsome]
        omega
      rw [hone]
      exact .one h
    · rename_i hstop
      refine ⟨m, rfl, ?_⟩
      have hzero : min (min npages.toNat (cachedrun m (l₁ ++ [x]))) 1 = 0 := by
        rw [hrun]
        split
        · rename_i hsome
          have hle : ¬npages > 0 := fun hpos => hstop ⟨Option.isSome_iff_ne_none.mp hsome, hpos⟩
          omega
        · omega
      rw [hzero]
      exact .nothing h

/-- A page of the run is out of the cache only when it is among those that were moved. -/
theorem Reclaimed.unique {a b : ℕ} (h : Free m l) (ha : Reclaimed m m' l a) (hb : Reclaimed m m' l b) (hlt : a < b)
    (hrun : b ≤ cachedrun m l) : False := by
  have hle : cachedrun m l ≤ l.length := by
    have hshort := (List.takeWhile_prefix (fun p => (m.image p).isSome) (l := l.reverse)).length_le
    rwa [List.length_reverse] at hshort
  have hk : l.length - b < l.length := by omega
  have hbmem : l[l.length - b] ∈ l.drop (l.length - b) := by
    rw [List.drop_eq_getElem_cons hk]
    exact List.mem_cons_self
  have hnone := hb.image l[l.length - b]
  rw [if_pos hbmem, ha.image, if_neg] at hnone
  · have hwhile : (m.image l[l.length - b]).isSome := by
      have hlast : b - 1 < l.reverse.length := by
        rw [List.length_reverse]
        omega
      have hmem : l.reverse[b - 1] ∈ l.reverse.takeWhile fun p => (m.image p).isSome := by
        have hlen : b - 1 < (l.reverse.takeWhile fun p => (m.image p).isSome).length := by
          rw [cachedrun] at hrun
          omega
        have heq := (List.takeWhile_prefix (fun p => (m.image p).isSome) (l := l.reverse)).getElem hlen
        rw [← heq]
        exact List.getElem_mem hlen
      have hp := List.all_eq_true.mp List.all_takeWhile _ hmem
      rw [List.getElem_reverse] at hp
      have hidx : l.length - 1 - (b - 1) = l.length - b := by omega
      simpa only [hidx] using hp
    rw [hnone] at hwhile
    cases hwhile
  · intro hmem
    obtain ⟨k, hk', heq⟩ := List.getElem_of_mem hmem
    rw [List.getElem_drop] at heq
    have hsame := (List.Nodup.getElem_inj_iff h.list.nodup).mp heq
    omega

/-- Reclaiming makes the progress asked for exactly when that is one page at most. -/
theorem pagereclaim_progress (h : Free m l) (hfree : ∀ p ∈ l, m.ref p = 0) (npages : ℤ) :
    (∃ m', pagereclaim e m npages = some m' ∧ Reclaimed m m' l (min npages.toNat (cachedrun m l))) ↔
      npages ≤ 1 ∨ cachedrun m l ≤ 1 := by
  obtain ⟨m', hm', hone⟩ := pagereclaim_eq (e := e) h hfree npages
  constructor
  · rintro ⟨m'', hm'', hall⟩
    obtain rfl := Option.some.inj (hm'.symm.trans hm'')
    by_contra hnot
    have hmin : min (min npages.toNat (cachedrun m l)) 1 = 1 := by omega
    rw [hmin] at hone
    exact hone.unique h hall (by omega) (min_le_right _ _)
  · intro hsmall
    have hmin : min (min npages.toNat (cachedrun m l)) 1 = min npages.toNat (cachedrun m l) := by omega
    rw [hmin] at hone
    exact ⟨m', hm', hone⟩

section Twopages

local instance neZeroTwo : NeZero 2 := ⟨two_ne_zero⟩

/-- Two free pages of one image. -/
def twopages : Mem (Fin 2) Unit :=
  { va := fun _ => 0, daddr := fun p => p * 4096, ref := fun _ => 0, color := fun _ => 0, lg2size := fun _ => PGSHFT
    image := fun _ => some (), next := fun p => if p = 0 then some 1 else none, prev := fun p => if p = 0 then none else some 0
    hash := fun _ => none, data := fun _ => [], head := some 0, tail := some 1, freecount := 2
    bucket := fun h => if h = 0 then some 0 else if h = 1 then some 1 else none, iref := fun _ => 3 }

end Twopages

theorem twopages_free : Free twopages [0, 1] := ⟨⟨⟨rfl, rfl, rfl⟩, ⟨rfl, rfl, rfl⟩⟩, rfl⟩

def shared : Env Unit := ⟨0, fun _ => 0, fun _ => false⟩

theorem pagereclaim_progress_one :
    (∃ m', pagereclaim shared twopages 1 = some m' ∧ Reclaimed twopages m' [0, 1] (min (1 : ℤ).toNat (cachedrun twopages [0, 1]))) ↔
      (1 : ℤ) ≤ 1 ∨ cachedrun twopages [0, 1] ≤ 1 :=
  pagereclaim_progress twopages_free (fun _ _ => rfl) 1

/-- Of two cached pages asked for, one is reclaimed. -/
theorem pagereclaim_stops : cachedrun twopages [0, 1] = 2 ∧
    ∀ m', pagereclaim shared twopages 2 = some m' → ¬Reclaimed twopages m' [0, 1] 2 := by
  refine ⟨rfl, fun m' hm' h => ?_⟩
  have hcached : (m'.image 0).isSome := by
    obtain rfl := Option.some.inj hm'
    rfl
  have hnone := h.image 0
  rw [if_pos (by decide)] at hnone
  rw [hnone] at hcached
  cases hcached

end Petele.Vm
