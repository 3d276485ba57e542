import Mathlib.Data.List.Nodup
import Mathlib.Data.Fintype.Card

namespace Petele.Lib

variable {P N : Type*}

/-- In the heap `m`, the links lead from `p` through the nodes `l` to `q`. -/
def Seg (next : N → Option P) (m : P → Option N) : Option P → List (P × N) → Option P → Prop
  | p, [], q => p = q
  | p, x :: l, q => p = some x.1 ∧ m x.1 = some x.2 ∧ Seg next m (next x.2) l q

/-- A list that ends in nil. -/
def Chain (next : N → Option P) (m : P → Option N) (p : Option P) (l : List (P × N)) : Prop :=
  Seg next m p l none

/-- The addresses of the nodes of a list. -/
def addrs (l : List (P × N)) : List P := l.map Prod.fst

/-- The nodes a loop over the links meets from `p` on. It fails on a dangling link and after
`fuel` nodes. -/
def walk (next : N → Option P) (m : P → Option N) : ℕ → Option P → Option (List (P × N))
  | _, none => some []
  | 0, some _ => none
  | fuel + 1, some x =>
    (m x).bind fun b => (walk next m fuel (next b)).map fun l => (x, b) :: l

section

variable {next : N → Option P} {m m' : P → Option N} {p q r : Option P} {l l' : List (P × N)}

@[simp] theorem addrs_nil : addrs ([] : List (P × N)) = [] := rfl

@[simp] theorem addrs_cons (x : P × N) (l : List (P × N)) : addrs (x :: l) = x.1 :: addrs l := rfl

@[simp] theorem addrs_append (l l' : List (P × N)) : addrs (l ++ l') = addrs l ++ addrs l' :=
  List.map_append

theorem mem_addrs_of_mem {x : P × N} (h : x ∈ l) : x.1 ∈ addrs l := List.mem_map_of_mem h

theorem Seg.frame (h : Seg next m p l q) (hm : ∀ x ∈ addrs l, m' x = m x) :
    Seg next m' p l q := by
  induction l generalizing p with
  | nil => exact h
  | cons x l ih =>
    obtain ⟨hp, hx, hl⟩ := h
    refine ⟨hp, ?_, ih hl fun y hy => hm y (List.mem_cons_of_mem _ hy)⟩
    rw [hm x.1 List.mem_cons_self, hx]

theorem Seg.append (h : Seg next m p l q) (h' : Seg next m q l' r) :
    Seg next m p (l ++ l') r := by
  induction l generalizing p with
  | nil =>
    have hp : p = q := h
    rw [hp]
    exact h'
  | cons x l ih => exact ⟨h.1, h.2.1, ih h.2.2⟩

theorem Seg.split (h : Seg next m p (l ++ l') r) :
    ∃ q, Seg next m p l q ∧ Seg next m q l' r := by
  induction l generalizing p with
  | nil => exact ⟨p, rfl, h⟩
  | cons x l ih =>
    obtain ⟨q, hl, hl'⟩ := ih h.2.2
    exact ⟨q, ⟨h.1, h.2.1, hl⟩, hl'⟩

theorem Seg.lookup (h : Seg next m p l q) {x : P × N} (hx : x ∈ l) : m x.1 = some x.2 := by
  induction l generalizing p with
  | nil => cases hx
  | cons y l ih =>
    rcases List.mem_cons.mp hx with rfl | hmem
    · exact h.2.1
    · exact ih h.2.2 hmem

theorem Chain.unique (h : Chain next m p l) (h' : Chain next m p l') : l = l' := by
  induction l generalizing p l' with
  | nil =>
    have hp : p = none := h
    cases l' with
    | nil => rfl
    | cons y l' => rw [hp] at h'; cases h'.1
  | cons x l ih =>
    obtain ⟨hp, hx, hl⟩ := h
    cases l' with
    | nil =>
      have hp' : p = none := h'
      rw [hp] at hp'
      cases hp'
    | cons y l' =>
      obtain ⟨hp', hy, hl'⟩ := h'
      have haddr : x.1 = y.1 := by
        rw [hp] at hp'
        exact Option.some.inj hp'
      have hnode : x.2 = y.2 := by
        rw [← haddr, hx] at hy
        exact Option.some.inj hy
      rw [← hnode] at hl'
      rw [ih hl hl', Prod.ext haddr hnode]

/-- A list that ends meets no node twice: from the second meeting on it would be as long as from
the first. -/
theorem Chain.nodup (h : Chain next m p l) : (addrs l).Nodup := by
  induction l generalizing p with
  | nil => exact List.nodup_nil
  | cons x l ih =>
    obtain ⟨hp, hx, hl⟩ := h
    refine List.nodup_cons.mpr ⟨fun hmem => ?_, ih hl⟩
    obtain ⟨y, hy, haddr⟩ := List.mem_map.mp hmem
    obtain ⟨l₁, l₂, rfl⟩ := List.append_of_mem hy
    obtain ⟨q, -, hq⟩ := hl.split
    have hagain : Chain next m (some x.1) (y :: l₂) := ⟨by rw [haddr], hq.2⟩
    have hself : Chain next m (some x.1) (x :: (l₁ ++ y :: l₂)) := ⟨rfl, hx, hl⟩
    have hlen := congrArg List.length (hself.unique hagain)
    simp only [List.length_cons, List.length_append] at hlen
    omega

theorem Chain.length_le [Fintype P] (h : Chain next m p l) : l.length ≤ Fintype.card P := by
  have hle := h.nodup.length_le_card
  rwa [addrs, List.length_map] at hle

theorem Chain.walk_eq (h : Chain next m p l) {fuel : ℕ} (hfuel : l.length ≤ fuel) :
    walk next m fuel p = some l := by
  induction l generalizing p fuel with
  | nil =>
    have hp : p = none := h
    simp only [hp, walk]
  | cons x l ih =>
    obtain ⟨hp, hx, hl⟩ := h
    cases fuel with
    | zero => simp at hfuel
    | succ fuel =>
      have hrest := ih hl (Nat.le_of_succ_le_succ hfuel)
      simp only [hp, walk, hx, hrest, Option.bind_some, Option.map_some]

theorem Chain.tail {x : P × N} (h : Chain next m p (x :: l)) :
    Chain next m (next x.2) l ∧ x.1 ∉ addrs l :=
  ⟨h.2.2, (List.nodup_cons.mp h.nodup).1⟩

variable [DecidableEq P]

/-- A list does not see a node outside it change. -/
theorem Seg.update (h : Seg next m p l q) {x : P} (hx : x ∉ addrs l) (v : Option N) :
    Seg next (Function.update m x v) p l q := by
  refine h.frame fun y hy => Function.update_of_ne ?_ _ _
  intro heq
  rw [heq] at hy
  exact hx hy

theorem Chain.update (h : Chain next m p l) {x : P} (hx : x ∉ addrs l) (v : Option N) :
    Chain next (Function.update m x v) p l :=
  Seg.update h hx v

/-- The first node of a list changes, but not its link. -/
theorem Chain.set_head {x : P} {b b' : N} (h : Chain next m p ((x, b) :: l))
    (hnext : next b' = next b) : Chain next (Function.update m x (some b')) p ((x, b') :: l) := by
  obtain ⟨hl, hx⟩ := h.tail
  refine ⟨h.1, Function.update_self _ _ _, ?_⟩
  rw [hnext]
  exact hl.update hx _

/-- The last node of a list gets another link. -/
theorem Chain.relink {x : P} {b b' : N} (h : Chain next m p (l ++ [(x, b)])) (hnext : next b' = q) :
    Seg next (Function.update m x (some b')) p (l ++ [(x, b')]) q := by
  have hnodup := h.nodup
  rw [addrs_append, addrs_cons, addrs_nil] at hnodup
  have hx : x ∉ addrs l := fun hmem =>
    (List.nodup_append.mp hnodup).2.2 x hmem x (List.mem_singleton_self x) rfl
  obtain ⟨r, hl, hlast⟩ := h.split
  exact (hl.update hx _).append ⟨hlast.1, Function.update_self _ _ _, hnext⟩

end

end Petele.Lib
