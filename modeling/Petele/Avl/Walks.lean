import Petele.Avl.Map

namespace Petele.Avl

open Lib

/-! ### The calls of a walk

A node that the tree has handed back is freed. The walk reads a node only if it is `live`, else it
has followed a dangling pointer and the call is `none`. -/

def descendat (live : Ptr → Bool) (i : Bool) : ℕ → State → Ptr → Option Ptr
  | 0, _, _ => none
  | fuel + 1, s, a =>
    if live a then
      match s.link (.n a i) with
      | none => some a
      | some c => descendat live i fuel s c
    else none

def climbat (live : Ptr → Bool) (i : Bool) : ℕ → State → Ptr → Option (Option Ptr)
  | 0, _, _ => none
  | fuel + 1, s, a =>
    if live a then
      match s.p a with
      | none => some none
      | some q =>
        if live q then
          if s.link (.n q i) = some a then climbat live i fuel s q else some (some q)
        else none
    else none

/-- `findpredecessor` is `neighborat live false`, and `findsuccessor` its mirror image. -/
def neighborat (live : Ptr → Bool) (i : Bool) (fuel : ℕ) (s : State) (a : Option Ptr) : Option (Option Ptr) := do
  match a with
  | none => return none
  | some a =>
    if live a then
      match s.link (.n a i) with
      | some c => return some (← descendat live (!i) fuel s c)
      | none => climbat live i fuel s a
    else none

/-- `for(a = w->tree->root; a && a->n[i]; a = a->n[i]);` -/
def outermost (live : Ptr → Bool) (i : Bool) (fuel : ℕ) (s : State) : Option (Option Ptr) := do
  match s.link .root with
  | none => return none
  | some a => return some (← descendat live i fuel s a)

def State.setWalk (s : State) (i : ℕ) (w : Avlwalk) : State := s.setWalks (s.walks.set i w)

/-- The new walk is the first of the list. -/
def avlwalk (s : State) : State := s.setWalks (⟨false, false, none⟩ :: s.walks)

/-- The walk at place `i` is unlinked and freed. -/
def endwalk (s : State) (i : ℕ) : State := s.setWalks (s.walks.eraseIdx i)

def avlnext (live : Ptr → Bool) (fuel : ℕ) (s : State) (i : ℕ) : Option (State × Option Ptr) := do
  let w ← s.walks[i]?
  if w.started = false then
    let a ← outermost live false fuel s
    return (s.setWalk i { w with node := a, started := true }, a)
  else
    let a ← neighborat live true fuel s w.node
    -- abort()
    if a = w.node then none
    else return (s.setWalk i { w with node := a }, a)

def avlprev (live : Ptr → Bool) (fuel : ℕ) (s : State) (i : ℕ) : Option (State × Option Ptr) := do
  let w ← s.walks[i]?
  if w.started = false then
    let a ← outermost live true fuel s
    return (s.setWalk i { w with node := a, started := true }, a)
  else if w.moved then
    return (s.setWalk i { w with moved := false }, w.node)
  else
    let a ← neighborat live false fuel s w.node
    -- abort()
    if a = w.node then none
    else return (s.setWalk i { w with node := a }, a)

/-! ### Sessions -/

/-- A tree with its open walks, the nodes in use, and for each walk the key it returned last. -/
structure Session (K : Type) where
  tree : State
  live : Ptr → Bool
  last : List (Option K)

inductive Call
  | insert (new : Ptr)
  | delete (key : Ptr)
  | walk
  | endwalk (i : ℕ)
  | next (i : ℕ)
  | prev (i : ℕ)
  deriving DecidableEq, Repr

variable {K : Type}

/-- The caller frees the node that it is handed back. -/
def freed (live : Ptr → Bool) : Option Ptr → Ptr → Bool
  | none => live
  | some a => Function.update live a false

/-- The walk `i` has returned `o`. -/
def returned (key : Ptr → K) (last : List (Option K)) (i : ℕ) : Option Ptr → List (Option K)
  | none => last
  | some a => last.set i (some (key a))

def call (cmp : Ptr → Ptr → ℤ) (key : Ptr → K) (fuel : ℕ) (ss : Session K) : Call → Option (Session K × Option Ptr)
  | .insert new => do
    let (s, old) ← insertavl cmp fuel ss.tree new
    return (⟨s, freed (Function.update ss.live new true) old, ss.last⟩, old)
  | .delete k => do
    let (s, old) ← deleteavl cmp fuel ss.tree k
    return (⟨s, freed ss.live old, ss.last⟩, old)
  | .walk => return (⟨avlwalk ss.tree, ss.live, none :: ss.last⟩, none)
  | .endwalk i => return (⟨endwalk ss.tree i, ss.live, ss.last.eraseIdx i⟩, none)
  | .next i => do
    let (s, o) ← avlnext ss.live fuel ss.tree i
    return (⟨s, ss.live, returned key ss.last i o⟩, o)
  | .prev i => do
    let (s, o) ← avlprev ss.live fuel ss.tree i
    return (⟨s, ss.live, returned key ss.last i o⟩, o)

/-- A run of calls that each meet the condition. -/
inductive Runs (cmp : Ptr → Ptr → ℤ) (key : Ptr → K) (fuel : ℕ) (P : Session K → Call → Prop) :
    Session K → List Call → Session K → Prop
  | nil (ss : Session K) : Runs cmp key fuel P ss [] ss
  | cons {ss ss₁ ss' : Session K} {c : Call} {cs : List Call} {o : Option Ptr} (hc : P ss c)
      (hcall : call cmp key fuel ss c = some (ss₁, o)) (hrest : Runs cmp key fuel P ss₁ cs ss') :
      Runs cmp key fuel P ss (c :: cs) ss'

/-! ### The nodes that a walk reads -/

section

variable {live : Ptr → Bool} {s : State} {fuel : ℕ} {i : Bool} {a : Ptr}

/-- The links of live nodes lead to live nodes. -/
def Closed (live : Ptr → Bool) (s : State) : Prop :=
  ∀ a, live a = true → (∀ i c, s.link (.n a i) = some c → live c = true) ∧ ∀ q, s.p a = some q → live q = true

theorem descendat_eq (h : Closed live s) (ha : live a = true) : descendat live i fuel s a = descend i fuel s a := by
  induction fuel generalizing a with
  | zero => rfl
  | succ fuel ih =>
    simp only [descendat, descend, if_pos ha]
    cases hc : s.link (.n a i) with
    | none => rfl
    | some c => exact ih ((h a ha).1 i c hc)

theorem climbat_eq (h : Closed live s) (ha : live a = true) : climbat live i fuel s a = climb i fuel s a := by
  induction fuel generalizing a with
  | zero => rfl
  | succ fuel ih =>
    simp only [climbat, climb, if_pos ha]
    cases hq : s.p a with
    | none => rfl
    | some q =>
      have hlive := (h a ha).2 q hq
      dsimp only
      rw [if_pos hlive, ih hlive]

theorem neighborat_eq (h : Closed live s) (ha : live a = true) :
    neighborat live i fuel s (some a) = neighbor i fuel s (some a) := by
  simp only [neighborat, neighbor, if_pos ha]
  cases hc : s.link (.n a i) with
  | none => exact climbat_eq h ha
  | some c =>
    dsimp only
    rw [descendat_eq h ((h a ha).1 i c hc)]

theorem Stores.closed {q : Option Ptr} {t : Tree} (h : Stores s q t) (ha : a ∈ t.toList) :
    (∀ i c, s.link (.n a i) = some c → c ∈ t.toList) ∧ ∀ x, s.p a = some x → x ∈ t.toList ∨ q = some x := by
  induction t generalizing q with
  | nil => cases ha
  | node b bal l r ihl ihr =>
    have hpart {u : Tree} (hu : u.toList ⊆ (AvlTree.node b bal l r).toList)
        (hclosed : (∀ i c, s.link (.n a i) = some c → c ∈ u.toList) ∧
          ∀ x, s.p a = some x → x ∈ u.toList ∨ some b = some x) :
        (∀ i c, s.link (.n a i) = some c → c ∈ (AvlTree.node b bal l r).toList) ∧
          ∀ x, s.p a = some x → x ∈ (AvlTree.node b bal l r).toList ∨ q = some x := by
      refine ⟨fun i c hc ↦ hu (hclosed.1 i c hc), fun x hx ↦ .inl ?_⟩
      rcases hclosed.2 x hx with hmem | heq
      · exact hu hmem
      · rw [← Option.some.inj heq]
        simp
    rw [AvlTree.toList_node, List.mem_append, List.mem_cons] at ha
    rcases ha with ha | rfl | ha
    · exact hpart (fun x hx ↦ by simp [hx]) (ihl h.2.2.2.2.1 ha)
    · refine ⟨fun i c hc ↦ ?_, fun x hx ↦ .inr (h.1.symm.trans hx)⟩
      rw [h.link_kid i] at hc
      have hmem := top_mem hc
      cases i
      · simp [show c ∈ l.toList from hmem]
      · simp [show c ∈ r.toList from hmem]
    · exact hpart (fun x hx ↦ by simp [hx]) (ihr h.2.2.2.2.2 ha)

theorem At.closed {t : Tree} (h : At s .root none t) (hlive : ∀ a, live a = true ↔ a ∈ t.toList) : Closed live s := by
  intro a ha
  obtain ⟨hlink, hp⟩ := h.repr.closed ((hlive a).mp ha)
  refine ⟨fun i c hc ↦ (hlive c).mpr (hlink i c hc), fun q hq ↦ (hlive q).mpr ?_⟩
  exact (hp q hq).resolve_right (by simp)

end

/-! ### Where a walk stands -/

variable [LinearOrder K]

/-- `x` is above the last key, if there is one. -/
def Above (last : Option K) (x : K) : Prop := ∀ k, last = some k → k < x

def Below (last : Option K) (x : K) : Prop := ∀ k, last = some k → x < k

/-- `o` is the node with the least key above the last one, nil if there is none. -/
def IsNext (key : Ptr → K) (nodes : List Ptr) (last : Option K) (o : Option Ptr) : Prop :=
  (∀ z, o = some z → z ∈ nodes ∧ Above last (key z) ∧ ∀ a ∈ nodes, Above last (key a) → key z ≤ key a) ∧
    (o = none → ∀ a ∈ nodes, ¬ Above last (key a))

/-- `o` is the node with the greatest key below the last one, nil if there is none. -/
def IsPrev (key : Ptr → K) (nodes : List Ptr) (last : Option K) (o : Option Ptr) : Prop :=
  (∀ z, o = some z → z ∈ nodes ∧ Below last (key z) ∧ ∀ a ∈ nodes, Below last (key a) → key a ≤ key z) ∧
    (o = none → ∀ a ∈ nodes, ¬ Below last (key a))

/-- The states of a walk. A deletion may have moved it back below the key it returned last, with
`moved` set. -/
inductive Stands (key : Ptr → K) (nodes : List Ptr) : Avlwalk → Option K → Prop
  | fresh : Stands key nodes ⟨false, false, none⟩ none
  | reset (k : K) : Stands key nodes ⟨false, true, none⟩ (some k)
  | ended (moved : Bool) (last : Option K) : Stands key nodes ⟨true, moved, none⟩ last
  | on {moved : Bool} {a : Ptr} {k : K} (hmem : a ∈ nodes) (hle : key a ≤ k) (hat : moved = false → key a = k) :
      Stands key nodes ⟨true, moved, some a⟩ (some k)

section

variable {key : Ptr → K} {nodes nodes' : List Ptr} {w : Avlwalk} {last : Option K} {o : Option Ptr}

theorem isNext_some {k : K} : IsNext key nodes (some k) o ↔ IsSuccessor key nodes k o := by
  simp [IsNext, IsSuccessor, Above]

theorem isPrev_some {k : K} : IsPrev key nodes (some k) o ↔ IsPredecessor key nodes k o := by
  simp [IsPrev, IsPredecessor, Below]

/-- The next node after the key `pos` is the next one after a later key if no node lies between. -/
theorem IsNext.iff {pos : Option K} (h : IsNext key nodes pos o) (hpos : ∀ x, Above last x → Above pos x) :
    IsNext key nodes last o ↔ ∀ a ∈ nodes, Above pos (key a) → Above last (key a) := by
  constructor
  · intro hnext a ha habove
    cases o with
    | none => exact absurd habove (h.2 rfl a ha)
    | some z =>
      intro k hk
      exact ((hnext.1 z rfl).2.1 k hk).trans_le ((h.1 z rfl).2.2 a ha habove)
  · intro hnone
    refine ⟨fun z hz ↦ ?_, fun ho a ha habove ↦ h.2 ho a ha (hpos _ habove)⟩
    obtain ⟨hmem, habove, hleast⟩ := h.1 z hz
    exact ⟨hmem, hnone z hmem habove, fun a ha habove ↦ hleast a ha (hpos _ habove)⟩

/-- The last of all nodes is the one before a key if all are below that. -/
theorem IsPrev.iff (h : IsPrev key nodes none o) :
    IsPrev key nodes last o ↔ ∀ a ∈ nodes, Below last (key a) := by
  have hall (x : K) : Below none x := by simp [Below]
  constructor
  · intro hprev a ha
    cases o with
    | none => exact absurd (hall _) (h.2 rfl a ha)
    | some z =>
      intro k hk
      exact ((h.1 z rfl).2.2 a ha (hall _)).trans_lt ((hprev.1 z rfl).2.1 k hk)
  · intro hbelow
    refine ⟨fun z hz ↦ ?_, fun ho a ha _ ↦ h.2 ho a ha (hall _)⟩
    obtain ⟨hmem, -, hmost⟩ := h.1 z hz
    exact ⟨hmem, hbelow z hmem, fun a ha _ ↦ hmost a ha (hall _)⟩

theorem Stands.mono (h : Stands key nodes w last) (hnodes : ∀ a ∈ nodes, w.node = some a → a ∈ nodes') :
    Stands key nodes' w last := by
  cases h with
  | fresh => exact .fresh
  | reset k => exact .reset k
  | ended moved last => exact .ended moved last
  | on hmem hle hat => exact .on (hnodes _ hmem rfl) hle hat

/-- A walk that has just returned `o`. -/
theorem Stands.arrive (moved : Bool) (ho : ∀ z, o = some z → z ∈ nodes) :
    Stands key nodes ⟨true, moved, o⟩ (o.elim last (fun z ↦ some (key z))) := by
  cases o with
  | none => exact .ended moved last
  | some z => exact .on (ho z rfl) le_rfl (fun _ ↦ rfl)

/-- A deletion of `a` moves the walks that stand on it to the predecessor `p`. -/
def patch (a : Ptr) (p : Option Ptr) (w : Avlwalk) : Avlwalk :=
  if w.node = some a then { started := if p = none then false else w.started, moved := true, node := p }
  else w

theorem Stands.patch {a : Ptr} {p : Option Ptr} (h : Stands key nodes w last)
    (hp : IsPredecessor key nodes (key a) p) (hnodes : ∀ x ∈ nodes, x ≠ a → x ∈ nodes') :
    Stands key nodes' (patch a p w) last := by
  by_cases ha : w.node = some a
  · rw [Avl.patch, if_pos ha]
    cases h with
    | fresh => cases ha
    | reset k => cases ha
    | ended moved last => cases ha
    | @on moved b k hmem hle hat =>
      obtain rfl : b = a := Option.some.inj ha
      cases p with
      | none => exact .reset k
      | some q =>
        obtain ⟨hq, hlt, -⟩ := hp.1 q rfl
        rw [if_neg (by simp)]
        refine .on (hnodes q hq ?_) (hlt.le.trans hle) (by simp)
        rintro rfl
        exact lt_irrefl _ hlt
  · rw [Avl.patch, if_neg ha]
    refine h.mono (fun x hx hnode ↦ hnodes x hx ?_)
    rintro rfl
    exact ha hnode

end

end Petele.Avl
