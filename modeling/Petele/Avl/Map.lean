import Petele.Avl.Search

namespace Petele.Avl

open Lib

variable {K : Type} [LinearOrder K]

/-- `cmp` compares the keys of two nodes. -/
def Compares (cmp : Ptr → Ptr → ℤ) (key : Ptr → K) : Prop :=
  ∀ a b, (cmp a b < 0 ↔ key a < key b) ∧ (cmp a b = 0 ↔ key a = key b)

/-- A call that changes the tree, with the node it is passed. -/
inductive Op
  | insert (new : Ptr)
  | delete (key : Ptr)
  deriving DecidableEq, Repr

def Op.node : Op → Ptr
  | insert new => new
  | delete key => key

def exec (cmp : Ptr → Ptr → ℤ) (fuel : ℕ) (s : State) : Op → Option (State × Option Ptr)
  | .insert new => insertavl cmp fuel s new
  | .delete key => deleteavl cmp fuel s key

def run (cmp : Ptr → Ptr → ℤ) (fuel : ℕ) : State → List Op → Option State
  | s, [] => some s
  | s, op :: ops => do
    let (s, _) ← exec cmp fuel s op
    run cmp fuel s ops

/-- What a call does to the map from keys to nodes. -/
def update (key : Ptr → K) (m : K → Option Ptr) : Op → K → Option Ptr
  | .insert new => Function.update m (key new) (some new)
  | .delete k => Function.update m (key k) none

/-- The node most recently inserted with a key and not deleted. -/
def latest (key : Ptr → K) (ops : List Op) : K → Option Ptr := ops.foldl (update key) (fun _ ↦ none)

/-- The links, parent pointers and balance factors of `s` are those of the balanced search tree
`t`, which holds the nodes of the map `m`. -/
structure Represents (key : Ptr → K) (s : State) (t : Tree) (m : K → Option Ptr) : Prop where
  at_root : At s .root none t
  balanced : t.Balanced
  sorted : t.toList.Pairwise (fun a b ↦ key a < key b)
  contents : ∀ k a, m k = some a ↔ a ∈ t.toList ∧ key a = k

section

variable {key : Ptr → K} {cmp : Ptr → Ptr → ℤ} {s : State} {t : Tree} {m : K → Option Ptr} {fuel : ℕ}

theorem Compares.ordered (hcmp : Compares cmp key) (r : Ptr) {l : List Ptr}
    (h : l.Pairwise (fun a b ↦ key a < key b)) : AvlTree.Ordered (cmp r) l := by
  refine h.imp (fun {a b} hab hrb ↦ ?_)
  have hba : key b ≤ key r := by
    by_contra hlt
    have := (hcmp r b).1.mpr (not_le.mp hlt)
    omega
  have har : key a < key r := hab.trans_le hba
  have h₁ := (hcmp r a).1
  have h₂ := (hcmp r a).2
  have hn : ¬ cmp r a < 0 := fun h ↦ har.not_gt (h₁.mp h)
  have hz : ¬ cmp r a = 0 := fun h ↦ har.ne' (h₂.mp h)
  omega

theorem Compares.pos (hcmp : Compares cmp key) {r a : Ptr} : 0 < cmp r a ↔ key a < key r := by
  have h₁ := (hcmp r a).1
  have h₂ := (hcmp r a).2
  constructor
  · intro h
    rcases lt_trichotomy (key r) (key a) with hlt | heq | hgt
    · have := h₁.mpr hlt
      omega
    · have := h₂.mpr heq
      omega
    · exact hgt
  · intro h
    have hn : ¬ cmp r a < 0 := fun h' ↦ h.not_gt (h₁.mp h')
    have hz : ¬ cmp r a = 0 := fun h' ↦ h.ne' (h₂.mp h')
    omega

/-- A cut by the comparison with `r` is a cut at the key of `r`. -/
theorem Represents.cut (h : Represents key s t m) (hcmp : Compares cmp key) {r : Ptr} {xs ys : List Ptr}
    {o : Option Ptr} (hcut : AvlTree.Cut (cmp r) t.toList xs o ys) :
    o = m (key r) ∧ (∀ a ∈ xs, key a < key r) ∧ ∀ b ∈ ys, key r < key b := by
  have hxs : ∀ a ∈ xs, key a < key r := fun a ha ↦ hcmp.pos.mp (hcut.below a ha)
  have hys : ∀ b ∈ ys, key r < key b := fun b hb ↦ (hcmp r b).1.mp (hcut.above b hb)
  refine ⟨?_, hxs, hys⟩
  cases o with
  | some z =>
    refine ((h.contents _ _).mpr ⟨by simp [hcut.eq], ?_⟩).symm
    exact ((hcmp r z).2.mp (hcut.at_eq z rfl)).symm
  | none =>
    cases hm : m (key r) with
    | none => rfl
    | some a =>
      obtain ⟨ha, hk⟩ := (h.contents _ _).mp hm
      rw [hcut.eq] at ha
      rcases List.mem_append.mp ha with ha | ha
      · exact absurd hk (hxs a ha).ne
      · exact absurd hk (hys a ha).ne'

theorem pairwise_insert {xs ys : List Ptr} {o : Option Ptr} {r : Ptr}
    (h : (xs ++ (o.toList ++ ys)).Pairwise (fun a b ↦ key a < key b)) (hxs : ∀ a ∈ xs, key a < key r)
    (hys : ∀ b ∈ ys, key r < key b) :
    (xs ++ ys).Pairwise (fun a b ↦ key a < key b) ∧ (xs ++ r :: ys).Pairwise (fun a b ↦ key a < key b) := by
  have hsub : (xs ++ ys).Pairwise (fun a b ↦ key a < key b) :=
    h.sublist ((List.sublist_append_right _ _).append_left xs)
  refine ⟨hsub, ?_⟩
  rw [List.pairwise_append] at hsub ⊢
  refine ⟨hsub.1, List.pairwise_cons.mpr ⟨hys, hsub.2.1⟩, fun a ha b hb ↦ ?_⟩
  rcases List.mem_cons.mp hb with rfl | hb
  · exact hxs a ha
  · exact hsub.2.2 a ha b hb

/-- The nodes with another key than that of `r` stay. -/
theorem Represents.others (h : Represents key s t m) (hcmp : Compares cmp key) {r : Ptr} {xs ys : List Ptr}
    {o : Option Ptr} (hcut : AvlTree.Cut (cmp r) t.toList xs o ys) (a : Ptr) :
    a ∈ xs ++ ys ↔ a ∈ t.toList ∧ key a ≠ key r := by
  obtain ⟨ho, hxs, hys⟩ := h.cut hcmp hcut
  rw [hcut.eq]
  simp only [List.mem_append, Option.mem_toList]
  constructor
  · rintro (ha | ha)
    · exact ⟨.inl ha, (hxs a ha).ne⟩
    · exact ⟨.inr (.inr ha), (hys a ha).ne'⟩
  · rintro ⟨ha | ha | ha, hk⟩
    · exact .inl ha
    · exact absurd ((hcmp r a).2.mp (hcut.at_eq a ha)).symm hk
    · exact .inr ha

theorem Represents.insert (h : Represents key s t m) (hcmp : Compares cmp key) (hfuel : t.height < fuel) (r : Ptr) :
    ∃ s' t', insertavl cmp fuel s r = some (s', m (key r)) ∧ Represents key s' t' (update key m (.insert r)) ∧
      t'.toList.length ≤ t.toList.length + 1 ∧ s'.walks = s.walks := by
  have hord := hcmp.ordered r h.sorted
  obtain ⟨t', d, old, hins, hbal, -, -, xs, ys, hcut, hlist⟩ := AvlTree.insert_spec r h.balanced hord
  obtain ⟨ho, hxs, hys⟩ := h.cut hcmp hcut
  obtain ⟨s', hrun, hat, hframe⟩ := insert_refines ((hcmp r r).2.mpr rfl) h.at_root hord (by simp) hfuel hins
  have hsorted := h.sorted
  rw [hcut.eq] at hsorted
  refine ⟨s', t', ?_, ⟨hat, hbal, ?_, fun k a ↦ ?_⟩, ?_, hframe.walks⟩
  · simp only [insertavl, hrun, Option.bind_eq_bind, Option.bind_some, ← ho]
    rfl
  · rw [hlist]
    exact (pairwise_insert hsorted hxs hys).2
  · have hothers := h.others hcmp hcut a
    rw [hlist]
    simp only [update, Function.update_apply, List.mem_append, List.mem_cons] at hothers ⊢
    split
    case isTrue hk =>
      subst hk
      constructor
      · rintro ⟨⟩
        exact ⟨.inr (.inl rfl), rfl⟩
      · rintro ⟨ha | rfl | ha, hk⟩
        · exact absurd hk (hxs a ha).ne
        · rfl
        · exact absurd hk (hys a ha).ne'
    case isFalse hk =>
      rw [h.contents]
      constructor
      · rintro ⟨ha, rfl⟩
        exact ⟨(hothers.mpr ⟨ha, hk⟩).imp_right .inr, rfl⟩
      · rintro ⟨ha | rfl | ha, hka⟩
        · exact ⟨(hothers.mp (.inl ha)).1, hka⟩
        · exact absurd hka.symm hk
        · exact ⟨(hothers.mp (.inr ha)).1, hka⟩
  · rw [hlist, hcut.eq]
    simp only [List.length_append, List.length_cons]
    omega

theorem walkdel_runs (h : At s .root none t) (hfuel : t.height < fuel) {a : Ptr} (ha : a ∈ t.toList) :
    ∃ ws, walkdel fuel s (some a) = some (s.setWalks ws) := by
  obtain ⟨xs, ys, hsplit⟩ := List.append_of_mem ha
  have hpred : findpredecessor fuel s (some a) = some xs.getLast? := by
    have hsplit : along false t = xs ++ a :: ys := hsplit
    exact neighbor_root h hsplit hfuel
  simp only [walkdel, hpred, Option.bind_eq_bind, Option.bind_some]
  exact ⟨_, rfl⟩

theorem Represents.delete (h : Represents key s t m) (hcmp : Compares cmp key) (hfuel : t.height < fuel) (r : Ptr) :
    ∃ s' t', deleteavl cmp fuel s r = some (s', m (key r)) ∧ Represents key s' t' (update key m (.delete r)) ∧
      t'.toList.length ≤ t.toList.length + 1 ∧ Warned (walkdel fuel) s (m (key r)) s'.walks := by
  have hord := hcmp.ordered r h.sorted
  obtain ⟨t', d, old, hdel, hbal, -, -, xs, ys, hcut, hlist⟩ := AvlTree.delete_spec h.balanced hord
  obtain ⟨ho, hxs, hys⟩ := h.cut hcmp hcut
  obtain ⟨s', ws, hrun, hat, hframe, hws⟩ :=
    delete_refines h.at_root (fun a ha ↦ walkdel_runs h.at_root hfuel ha) hfuel hdel
  have hsorted := h.sorted
  rw [hcut.eq] at hsorted
  refine ⟨s', t', ?_, ⟨hat, hbal, ?_, fun k a ↦ ?_⟩, ?_, ?_⟩
  · simp only [deleteavl, hrun, Option.bind_eq_bind, Option.bind_some, ← ho]
    rfl
  · rw [hlist]
    exact (pairwise_insert hsorted hxs hys).1
  · rw [hlist, h.others hcmp hcut a]
    simp only [update, Function.update_apply]
    split
    case isTrue hk =>
      subst hk
      simp only [reduceCtorEq, false_iff]
      rintro ⟨⟨-, hne⟩, hk⟩
      exact hne hk
    case isFalse hk =>
      rw [h.contents]
      constructor
      · rintro ⟨ha, rfl⟩
        exact ⟨⟨ha, hk⟩, rfl⟩
      · rintro ⟨⟨ha, -⟩, hka⟩
        exact ⟨ha, hka⟩
  · rw [hlist, hcut.eq]
    simp only [List.length_append]
    omega
  · rw [hframe.walks, ← ho]
    exact hws

theorem Represents.exec (h : Represents key s t m) (hcmp : Compares cmp key) (hfuel : t.height < fuel) (op : Op) :
    ∃ s' t', exec cmp fuel s op = some (s', m (key op.node)) ∧ Represents key s' t' (update key m op) ∧
      t'.toList.length ≤ t.toList.length + 1 := by
  cases op with
  | insert r =>
    obtain ⟨s', t', hrun, h', hlen, -⟩ := h.insert hcmp hfuel r
    exact ⟨s', t', hrun, h', hlen⟩
  | delete r =>
    obtain ⟨s', t', hrun, h', hlen, -⟩ := h.delete hcmp hfuel r
    exact ⟨s', t', hrun, h', hlen⟩

/-- What a run of calls preserves. The fuel has to outlast the height of the tree. -/
theorem Represents.run (h : Represents key s t m) (hcmp : Compares cmp key) (ops : List Op)
    (hfuel : t.toList.length + ops.length < fuel) :
    ∃ s' t', run cmp fuel s ops = some s' ∧ Represents key s' t' (ops.foldl (update key) m) ∧
      t'.toList.length ≤ t.toList.length + ops.length := by
  induction ops generalizing s t m with
  | nil => exact ⟨s, t, rfl, h, Nat.le_refl _⟩
  | cons op ops ih =>
    have hheight := t.height_le_length
    rw [List.length_cons] at hfuel
    obtain ⟨s₁, t₁, hexec, h₁, hlen₁⟩ := @Represents.exec _ _ _ _ _ _ _ fuel h hcmp (by omega) op
    obtain ⟨s₂, t₂, hrun, h₂, hlen₂⟩ := ih h₁ (by omega)
    refine ⟨s₂, t₂, ?_, h₂, by rw [List.length_cons]; omega⟩
    simp only [Avl.run, hexec, Option.bind_eq_bind, Option.bind_some]
    exact hrun

/-- `o` is the greatest of the nodes below `k`, nil if there are none. -/
def IsPredecessor (key : Ptr → K) (nodes : List Ptr) (k : K) (o : Option Ptr) : Prop :=
  (∀ z, o = some z → z ∈ nodes ∧ key z < k ∧ ∀ a ∈ nodes, key a < k → key a ≤ key z) ∧
    (o = none → ∀ a ∈ nodes, ¬ key a < k)

/-- `o` is the least of the nodes above `k`, nil if there are none. -/
def IsSuccessor (key : Ptr → K) (nodes : List Ptr) (k : K) (o : Option Ptr) : Prop :=
  (∀ z, o = some z → z ∈ nodes ∧ k < key z ∧ ∀ a ∈ nodes, k < key a → key z ≤ key a) ∧
    (o = none → ∀ a ∈ nodes, ¬ k < key a)

theorem isPredecessor_getLast {xs ys : List Ptr} {k : K} (h : (xs ++ ys).Pairwise (fun a b ↦ key a < key b))
    (hxs : ∀ a ∈ xs, key a < k) (hys : ∀ b ∈ ys, k ≤ key b) : IsPredecessor key (xs ++ ys) k xs.getLast? := by
  refine ⟨fun z hz ↦ ?_, fun hz ↦ ?_⟩
  · obtain ⟨zs, rfl⟩ := List.getLast?_eq_some_iff.mp hz
    refine ⟨by simp, hxs z (by simp), fun a ha hlt ↦ ?_⟩
    rcases List.mem_append.mp ha with ha | ha
    · rcases List.mem_append.mp ha with ha | ha
      · exact ((List.pairwise_append.mp (List.pairwise_append.mp h).1).2.2 a ha z (by simp)).le
      · rw [List.mem_singleton.mp ha]
    · exact absurd hlt (hys a ha).not_gt
  · rw [List.getLast?_eq_none_iff.mp hz]
    exact fun a ha ↦ (hys a ha).not_gt

theorem isSuccessor_head {xs ys : List Ptr} {k : K} (h : (xs ++ ys).Pairwise (fun a b ↦ key a < key b))
    (hxs : ∀ a ∈ xs, key a ≤ k) (hys : ∀ b ∈ ys, k < key b) : IsSuccessor key (xs ++ ys) k ys.head? := by
  refine ⟨fun z hz ↦ ?_, fun hz ↦ ?_⟩
  · obtain ⟨zs, rfl⟩ := List.head?_eq_some_iff.mp hz
    refine ⟨by simp, hys z (by simp), fun a ha hlt ↦ ?_⟩
    rcases List.mem_append.mp ha with ha | ha
    · exact absurd hlt (hxs a ha).not_gt
    · rcases List.mem_cons.mp ha with rfl | ha
      · exact le_rfl
      · exact ((List.pairwise_cons.mp (List.pairwise_append.mp h).2.1).1 a ha).le
  · rw [List.head?_eq_none_iff.mp hz, List.append_nil]
    exact fun a ha ↦ (hxs a ha).not_gt

theorem Represents.search (h : Represents key s t m) (hcmp : Compares cmp key) (hfuel : t.height < fuel) (r : Ptr) :
    lookupavl cmp fuel s r = some (m (key r)) ∧
    (m (key r) = none → ∀ nb, nb < 0 → ∃ o, searchavl cmp fuel s r nb = some o ∧ IsPredecessor key t.toList (key r) o) ∧
    (m (key r) = none → ∀ nb, 0 < nb → ∃ o, searchavl cmp fuel s r nb = some o ∧ IsSuccessor key t.toList (key r) o) := by
  have hord := hcmp.ordered r h.sorted
  have hspec := fun nb ↦ searchavl_spec r nb h.at_root hord hfuel
  refine ⟨?_, fun hm nb hnb ↦ ?_, fun hm nb hnb ↦ ?_⟩
  · obtain ⟨xs, o, ys, hcut, hrun⟩ := hspec 0
    obtain ⟨ho, -, -⟩ := h.cut hcmp hcut
    have hlookup : lookupavl cmp fuel s r = searchavl cmp fuel s r 0 := rfl
    rw [hlookup, hrun, ← ho]
    cases o <;> simp [searched]
  · obtain ⟨xs, o, ys, hcut, hrun⟩ := hspec nb
    obtain ⟨ho, hxs, hys⟩ := h.cut hcmp hcut
    obtain rfl : o = none := ho.trans hm
    have hsorted := h.sorted
    have heq : t.toList = xs ++ ys := hcut.eq
    rw [heq] at hsorted ⊢
    rw [searched, if_neg hnb.ne, if_pos hnb] at hrun
    exact ⟨_, hrun, isPredecessor_getLast hsorted hxs (fun b hb ↦ (hys b hb).le)⟩
  · obtain ⟨xs, o, ys, hcut, hrun⟩ := hspec nb
    obtain ⟨ho, hxs, hys⟩ := h.cut hcmp hcut
    obtain rfl : o = none := ho.trans hm
    have hsorted := h.sorted
    have heq : t.toList = xs ++ ys := hcut.eq
    rw [heq] at hsorted ⊢
    rw [searched, if_neg hnb.ne', if_neg hnb.not_gt] at hrun
    exact ⟨_, hrun, isSuccessor_head hsorted (fun a ha ↦ (hxs a ha).le) hys⟩

end

/-- libavl is a balanced map. From an empty tree, whatever the nodes' fields hold, every
sequence of calls runs to its end without a failed assertion and leaves a balanced search
tree of the nodes most recently inserted and not deleted, with the right links, parent
pointers and balance factors; every further call reports exactly the node it replaces or
deletes, and every search finds the node with the key or its neighbour. -/
theorem avl_map {key : Ptr → K} {cmp : Ptr → Ptr → ℤ} (hcmp : Compares cmp key) {s₀ : State}
    (hempty : s₀.link .root = none) (ops : List Op) {fuel : ℕ} (hfuel : ops.length < fuel) :
    ∃ s t, run cmp fuel s₀ ops = some s ∧ Represents key s t (latest key ops) ∧
      (∀ op, ∃ s', exec cmp fuel s op = some (s', latest key ops (key op.node))) ∧
      ∀ r, lookupavl cmp fuel s r = some (latest key ops (key r)) ∧
        (latest key ops (key r) = none → ∀ nb, nb < 0 →
          ∃ o, searchavl cmp fuel s r nb = some o ∧ IsPredecessor key t.toList (key r) o) ∧
        (latest key ops (key r) = none → ∀ nb, 0 < nb →
          ∃ o, searchavl cmp fuel s r nb = some o ∧ IsSuccessor key t.toList (key r) o) := by
  have hnil : Represents key s₀ .nil (fun _ ↦ none) :=
    ⟨⟨hempty, trivial, List.nodup_nil, by simp⟩, trivial, .nil, by simp⟩
  obtain ⟨s, t, hrun, h, hlen⟩ := @Represents.run _ _ _ _ _ _ _ fuel hnil hcmp ops (by simpa using hfuel)
  have hheight : t.height < fuel := by
    have := t.height_le_length
    simp only [AvlTree.toList_nil, List.length_nil] at hlen
    omega
  refine ⟨s, t, hrun, h, fun op ↦ ?_, fun r ↦ h.search hcmp hheight r⟩
  obtain ⟨s', t', hexec, -⟩ := h.exec hcmp hheight op
  exact ⟨s', hexec⟩

/-- Nodes compared by their addresses. -/
def cmpAddr (a b : Ptr) : ℤ := a - b

def noNodes : State where
  link _ := none
  p _ := none
  bal _ := 0
  walks := []

theorem compares_addr : Compares cmpAddr (id : Ptr → ℕ) := by
  have hlt (a b : ℕ) : (a : ℤ) - b < 0 ↔ a < b := by omega
  have heq (a b : ℕ) : (a : ℤ) - b = 0 ↔ a = b := by omega
  exact fun a b ↦ ⟨hlt a b, heq a b⟩

theorem avl_map_addr :
    ∃ s, run cmpAddr 5 noNodes [.insert 3, .insert 5, .insert 7, .delete 5] = some s ∧
      lookupavl cmpAddr 5 s 7 = some (some 7) ∧ lookupavl cmpAddr 5 s 5 = some none ∧
      (∃ s', exec cmpAddr 5 s (.delete 3) = some (s', some 3)) ∧
      ∃ o, searchavl cmpAddr 5 s 5 (-1) = some o ∧ ∀ z, o = some z → z < 5 := by
  obtain ⟨s, t, hrun, hrep, hexec, hsearch⟩ :=
    @avl_map ℕ _ id cmpAddr compares_addr noNodes rfl [.insert 3, .insert 5, .insert 7, .delete 5] 5 (by decide)
  obtain ⟨h₇, -, -⟩ := hsearch 7
  obtain ⟨h₅, hpred, -⟩ := hsearch 5
  obtain ⟨o, ho, hz, -⟩ := hpred rfl (-1) (by decide)
  exact ⟨s, hrun, h₇, h₅, hexec (.delete 3), o, ho, fun z h ↦ (hz z h).2.1⟩

/-- Calls and lookups go down few nodes, whatever calls were before: with `n` steps they are done if the tree has fewer nodes
than a Fibonacci number less one. -/
theorem avl_logarithmic {key : Ptr → K} {cmp : Ptr → Ptr → ℤ} (hcmp : Compares cmp key) {s₀ : State}
    (hempty : s₀.link .root = none) (ops : List Op) {fuel : ℕ} (hfuel : ops.length < fuel) :
    ∃ s t, run cmp fuel s₀ ops = some s ∧ Represents key s t (latest key ops) ∧ Nat.fib (t.height + 2) ≤ t.toList.length + 1 ∧
      ∀ n, t.toList.length + 1 < Nat.fib (n + 2) →
        (∀ op, ∃ s', exec cmp n s op = some (s', latest key ops (key op.node))) ∧
        ∀ r, lookupavl cmp n s r = some (latest key ops (key r)) := by
  have hnil : Represents key s₀ .nil (fun _ ↦ none) :=
    ⟨⟨hempty, trivial, List.nodup_nil, by simp⟩, trivial, .nil, by simp⟩
  obtain ⟨s, t, hrun, h, -⟩ := @Represents.run _ _ _ _ _ _ _ fuel hnil hcmp ops (by simpa using hfuel)
  have hfib := h.balanced.fib_le
  refine ⟨s, t, hrun, h, hfib, fun n hn ↦ ?_⟩
  have hheight : t.height < n := by
    by_contra hge
    have hmono : Nat.fib (n + 2) ≤ Nat.fib (t.height + 2) := Nat.fib_mono (by omega)
    omega
  refine ⟨fun op ↦ ?_, fun r ↦ (h.search hcmp hheight r).1⟩
  obtain ⟨s', t', hexec, -⟩ := h.exec hcmp hheight op
  exact ⟨s', hexec⟩

theorem avl_logarithmic_addr : ∃ s, run cmpAddr 4 noNodes [.insert 1, .insert 2, .insert 3] = some s := by
  obtain ⟨s, -, h, -⟩ := @avl_logarithmic ℕ _ id cmpAddr compares_addr noNodes rfl [.insert 1, .insert 2, .insert 3] 4 (by decide)
  exact ⟨s, h⟩

end Petele.Avl
