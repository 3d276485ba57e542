import Mathlib.Algebra.BigOperators.Group.Finset.Piecewise
import Petele.Lib.Dlist

namespace Petele.Lib

variable {H P : Type*}

/-- What a pointer to a pointer is at: the head of a list, or the link of a member. -/
inductive Cell (H P : Type*) where
  | head (h : H)
  | next (p : P)

/-- Lists that are linked through their members. -/
structure Buckets (H P : Type*) where
  head : H → Option P
  next : P → Option P

namespace Buckets

def get (b : Buckets H P) : Cell H P → Option P
  | .head h => b.head h
  | .next p => b.next p

def put [DecidableEq H] [DecidableEq P] (b : Buckets H P) (q : Option P) : Cell H P → Buckets H P
  | .head h => { b with head := Function.update b.head h q }
  | .next p => { b with next := Function.update b.next p q }

/-- The cell from which the first member that `stop` holds of is reached, or the last cell. A member may
not be looked at, and the list may not come to an end. -/
def find (b : Buckets H P) (stop : P → Option Bool) : ℕ → Cell H P → Option (Cell H P)
  | 0, _ => none
  | fuel + 1, c =>
    match b.get c with
    | none => some c
    | some p =>
      match stop p with
      | none => none
      | some true => some c
      | some false => find b stop fuel (.next p)

end Buckets

/-- The cell behind the members `pre` of a list. -/
def cellof (h : H) (pre : List P) : Cell H P :=
  match pre.getLast? with
  | none => .head h
  | some p => .next p

/-- Every list is linked, and no two share a member. -/
structure Chained (b : Buckets H P) (l : H → List P) : Prop where
  links : ∀ h, Links b.next (b.head h) (l h)
  disjoint : ∀ h h' p, p ∈ l h → p ∈ l h' → h = h'

section Find

variable {b : Buckets H P} {l : H → List P} {h : H} {pre post : List P} {p : P}

theorem cellof_concat (h : H) (pre : List P) (p : P) : cellof h (pre ++ [p]) = .next p := by
  rw [cellof, List.getLast?_append, List.getLast?_singleton]
  rfl

theorem Links.next_of_append {next : P → Option P} {q : Option P} (hl : Links next q (pre ++ p :: post)) :
    next p = post.head? := by
  induction pre generalizing q with
  | nil => exact Links.head_eq hl.2
  | cons x pre ih => exact ih hl.2

theorem Chained.get_cellof (hb : Chained b l) (hl : l h = pre ++ post) :
    b.get (cellof h pre) = post.head? := by
  have hlinks := hb.links h
  rw [hl] at hlinks
  rcases List.eq_nil_or_concat pre with rfl | ⟨pre, p, rfl⟩
  · exact hlinks.head_eq
  · rw [List.concat_eq_append] at hlinks ⊢
    rw [cellof_concat]
    rw [List.append_assoc] at hlinks
    exact hlinks.next_of_append

/-- The walk over the members behind `pre` stops at the first that is looked for. -/
theorem Chained.find_spec (hb : Chained b l) (hl : l h = pre ++ post) {test : P → Bool} {stop : P → Option Bool}
    (hstop : ∀ p ∈ post, stop p = some (test p)) {fuel : ℕ} (hfuel : post.length < fuel) :
    ∃ mid rest, post = mid ++ rest ∧ (∀ p ∈ mid, test p = false) ∧ (∀ p ∈ rest.head?, test p = true) ∧
      b.find stop fuel (cellof h pre) = some (cellof h (pre ++ mid)) := by
  induction post generalizing pre fuel with
  | nil =>
    obtain ⟨fuel, rfl⟩ : ∃ k, fuel = k + 1 := ⟨fuel - 1, by omega⟩
    refine ⟨[], [], rfl, by simp, by simp, ?_⟩
    rw [Buckets.find, hb.get_cellof hl, List.append_nil]
    rfl
  | cons p post ih =>
    rw [List.length_cons] at hfuel
    obtain ⟨fuel, rfl⟩ : ∃ k, fuel = k + 1 := ⟨fuel - 1, by omega⟩
    rw [List.forall_mem_cons] at hstop
    rw [Buckets.find, hb.get_cellof hl, List.head?_cons]
    dsimp only
    rw [hstop.1]
    by_cases htest : test p = true
    · refine ⟨[], p :: post, rfl, by simp, by simpa using htest, ?_⟩
      rw [htest, List.append_nil]
    · rw [Bool.not_eq_true] at htest
      have hl' : l h = (pre ++ [p]) ++ post := by rw [hl, List.append_assoc, List.singleton_append]
      obtain ⟨mid, rest, hpost, hmid, hrest, hrun⟩ := ih hl' hstop.2 (show post.length < fuel by omega)
      rw [cellof_concat] at hrun
      refine ⟨p :: mid, rest, by rw [hpost]; rfl, ?_, hrest, ?_⟩
      · rw [List.forall_mem_cons]
        exact ⟨htest, hmid⟩
      · rw [htest]
        dsimp only
        rw [hrun, List.append_assoc, List.singleton_append]

end Find

section Change

variable [DecidableEq H] [DecidableEq P] {b : Buckets H P} {l : H → List P} {h : H} {pre post : List P} {p : P}

theorem put_cellof (b : Buckets H P) (h : H) (pre : List P) (q : Option P) :
    b.put q (cellof h pre) = ⟨Function.update b.head h (if pre.getLast? = none then q else b.head h),
      relinked b.next pre.getLast? q⟩ := by
  rw [cellof]
  cases pre.getLast? with
  | none => rfl
  | some p =>
    rw [if_neg (Option.some_ne_none p), Function.update_eq_self]
    rfl

omit [DecidableEq H] [DecidableEq P] in
theorem Chained.not_mem (hb : Chained b l) {h' : H} (hne : h' ≠ h) {x : P} (hx : x ∈ l h) : x ∉ l h' :=
  fun hmem => hne (hb.disjoint h' h x hmem hx)

omit [DecidableEq P] in
/-- One list is changed in its own members and head. -/
theorem Chained.change (hb : Chained b l) {next : P → Option P} {q : Option P} {l' : List P}
    (hlinks : Links next q l') (hnext : ∀ x, (∀ h', h' ≠ h → x ∉ l h') ∨ next x = b.next x)
    (hnew : ∀ x ∈ l', ∀ h', h' ≠ h → x ∉ l h') :
    Chained ⟨Function.update b.head h q, next⟩ (Function.update l h l') := by
  constructor
  · intro h'
    by_cases hh : h' = h
    · rw [hh, Function.update_self]
      dsimp only
      rw [Function.update_self]
      exact hlinks
    · rw [Function.update_of_ne hh]
      dsimp only
      rw [Function.update_of_ne hh]
      refine (hb.links h').frame fun x hx => ?_
      rcases hnext x with hout | heq
      · exact absurd hx (hout h' hh)
      · exact heq
  · intro h₁ h₂ x hx₁ hx₂
    by_cases hh₁ : h₁ = h
    · by_cases hh₂ : h₂ = h
      · rw [hh₁, hh₂]
      · rw [hh₁, Function.update_self] at hx₁
        rw [Function.update_of_ne hh₂] at hx₂
        exact absurd hx₂ (hnew x hx₁ h₂ hh₂)
    · rw [Function.update_of_ne hh₁] at hx₁
      by_cases hh₂ : h₂ = h
      · rw [hh₂, Function.update_self] at hx₂
        exact absurd hx₁ (hnew x hx₂ h₁ hh₁)
      · rw [Function.update_of_ne hh₂] at hx₂
        exact hb.disjoint h₁ h₂ x hx₁ hx₂

/-- The member at a cell is unlinked. -/
theorem Chained.unlink (hb : Chained b l) (hl : l h = pre ++ p :: post) :
    Chained (b.put (b.next p) (cellof h pre)) (Function.update l h (pre ++ post)) := by
  have hlinks := hb.links h
  rw [hl] at hlinks
  rw [put_cellof]
  refine hb.change hlinks.remove (fun x => ?_) fun x hx h' hh => hb.not_mem hh ?_
  · by_cases hlast : ∃ y ∈ pre.getLast?, x = y
    · obtain ⟨y, hy, rfl⟩ := hlast
      refine .inl fun h' hh => hb.not_mem hh ?_
      rw [hl]
      exact List.mem_append_left _ (List.mem_of_getLast? hy)
    · exact .inr (relinked_of_ne fun y hy heq => hlast ⟨y, hy, heq⟩)
  · rw [hl]
    rcases List.mem_append.mp hx with hx | hx
    · exact List.mem_append_left _ hx
    · exact List.mem_append_right _ (List.mem_cons_of_mem _ hx)

/-- A member of no list goes to the end of one. -/
theorem Chained.push (hb : Chained b l) (hp : ∀ h', p ∉ l h') (hnil : b.next p = none) :
    Chained (b.put (some p) (cellof h (l h))) (Function.update l h (l h ++ [p])) := by
  have hlinks := Links.push (hb.links h) (hp h) hnil
  rw [put_cellof]
  have hq : (if (l h).getLast? = none then some p else b.head h) = if l h = [] then some p else b.head h :=
    if_congr List.getLast?_eq_none_iff rfl rfl
  rw [hq]
  refine hb.change hlinks (fun x => ?_) fun x hx h' hh => ?_
  · by_cases hlast : ∃ y ∈ (l h).getLast?, x = y
    · obtain ⟨y, hy, rfl⟩ := hlast
      exact .inl fun h' hh => hb.not_mem hh (List.mem_of_getLast? hy)
    · exact .inr (relinked_of_ne fun y hy heq => hlast ⟨y, hy, heq⟩)
  · rcases List.mem_append.mp hx with hx | hx
    · exact hb.not_mem hh hx
    · rw [List.mem_singleton.mp hx]
      exact hp h'

omit [DecidableEq H] in
/-- A link outside all lists may be changed. -/
theorem Chained.outside (hb : Chained b l) (hp : ∀ h', p ∉ l h') (q : Option P) :
    Chained { b with next := Function.update b.next p q } l :=
  ⟨fun h => (hb.links h).update (hp h) q, hb.disjoint⟩

end Change

section Count

variable [DecidableEq H] {l : H → List P} {s : Finset H} {h : H}

/-- The number of members in all lists. -/
def total (s : Finset H) (l : H → List P) : ℕ := ∑ h ∈ s, (l h).length

theorem total_update (hh : h ∈ s) (l' : List P) :
    total s (Function.update l h l') + (l h).length = total s l + l'.length := by
  have hfun : (fun k => (Function.update l h l' k).length) =
      Function.update (fun k => (l k).length) h l'.length := by
    funext k
    by_cases hk : k = h
    · rw [hk, Function.update_self, Function.update_self]
    · rw [Function.update_of_ne hk, Function.update_of_ne hk]
  have hsplit := Finset.add_sum_erase s (fun k => (l k).length) hh
  rw [total, total, hfun, Finset.sum_update_of_mem hh, ← hsplit, Finset.sdiff_singleton_eq_erase]
  omega

theorem length_le_total (hh : h ∈ s) : (l h).length ≤ total s l := by
  have hsplit := Finset.add_sum_erase s (fun k => (l k).length) hh
  rw [total]
  omega

end Count

end Petele.Lib
