import Mathlib.Data.Nat.Fib.Basic
import Mathlib.Order.Basic
import Mathlib.Order.Lattice
import Mathlib.Tactic.Common

namespace Petele.Lib

/-- A binary tree with a label and a balance factor in every node. -/
inductive AvlTree (α : Type)
  | nil
  | node (a : α) (bal : ℤ) (l r : AvlTree α)

namespace AvlTree

variable {α : Type}

def top : AvlTree α → Option α
  | nil => none
  | node a _ _ _ => some a

def bal : AvlTree α → ℤ
  | nil => 0
  | node _ b _ _ => b

def bal? : AvlTree α → Option ℤ
  | nil => none
  | node _ b _ _ => some b

def height : AvlTree α → ℕ
  | nil => 0
  | node _ _ l r => max l.height r.height + 1

/-- The labels from left to right. -/
def toList : AvlTree α → List α
  | nil => []
  | node a _ l r => l.toList ++ a :: r.toList

@[simp] theorem height_nil : (nil : AvlTree α).height = 0 := rfl

@[simp] theorem height_node (a : α) (b : ℤ) (l r : AvlTree α) :
    (node a b l r).height = max l.height r.height + 1 := rfl

@[simp] theorem toList_nil : (nil : AvlTree α).toList = [] := rfl

@[simp] theorem toList_node (a : α) (b : ℤ) (l r : AvlTree α) :
    (node a b l r).toList = l.toList ++ a :: r.toList := rfl

theorem height_le_length (t : AvlTree α) : t.height ≤ t.toList.length := by
  induction t with
  | nil => exact Nat.le_refl 0
  | node a b l r ihl ihr =>
    simp only [height_node, toList_node, List.length_append, List.length_cons]
    omega

/-- Every balance factor is what the heights say, and small. -/
def Balanced : AvlTree α → Prop
  | nil => True
  | node _ b l r => b = r.height - l.height ∧ -1 ≤ b ∧ b ≤ 1 ∧ l.Balanced ∧ r.Balanced

/-- A balanced tree has many nodes. -/
theorem Balanced.fib_le {t : AvlTree α} (h : t.Balanced) : Nat.fib (t.height + 2) ≤ t.toList.length + 1 := by
  induction t with
  | nil => exact le_rfl
  | node a b l r ihl ihr =>
    obtain ⟨hb, hlow, hhigh, hl, hr⟩ := h
    have hl := ihl hl
    have hr := ihr hr
    -- the lower one of the subtrees is at most one lower
    have hlower : Nat.fib (max l.height r.height + 1) ≤ Nat.fib (min l.height r.height + 2) := Nat.fib_mono (by omega)
    simp only [height_node, toList_node, List.length_append, List.length_cons]
    rw [Nat.fib_add_two]
    rcases le_total l.height r.height with hle | hle
    · rw [max_eq_right hle, min_eq_left hle] at hlower
      rw [max_eq_right hle]
      change _ + Nat.fib (r.height + 2) ≤ _
      omega
    · rw [max_eq_left hle, min_eq_right hle] at hlower
      rw [max_eq_left hle]
      change _ + Nat.fib (l.height + 2) ≤ _
      omega

/-! ### Rotations, from balance factors alone -/

def rotateLeft : AvlTree α → Option (AvlTree α)
  | node a ab l (node c cb cl cr) =>
    let k := max cb 0 + 1 - ab
    some (node c (cb - (max k 0 + 1)) (node a (-k) l cl) cr)
  | _ => none

def rotateRight : AvlTree α → Option (AvlTree α)
  | node a ab (node c cb cl cr) r =>
    let k := ab + (max (-cb) 0 + 1)
    some (node c (max k 0 + 1 - -cb) cl (node a k cr r))
  | _ => none

def rotateRightLeft : AvlTree α → Option (AvlTree α)
  | node a b l r => do rotateLeft (node a b l (← rotateRight r))
  | nil => none

def rotateLeftRight : AvlTree α → Option (AvlTree α)
  | node a b l r => do rotateRight (node a b (← rotateLeft l) r)
  | nil => none

/-- Restore the balance of a node that is off by two. -/
def balance : AvlTree α → Option (AvlTree α)
  | nil => none
  | node a b l r =>
    if b = -2 then do
      let lb ← l.bal?
      if lb ≤ 0 then rotateRight (node a b l r)
      else if lb = 1 then rotateLeftRight (node a b l r)
      else none
    else if b = 2 then do
      let rb ← r.bal?
      if 0 ≤ rb then rotateLeft (node a b l r)
      else if rb = -1 then rotateRightLeft (node a b l r)
      else none
    else some (node a b l r)

section Rotations

attribute [local simp] balance bal? bal Balanced

theorem rotateLeft_toList {t t' : AvlTree α} (h : t.rotateLeft = some t') : t'.toList = t.toList := by
  match t, h with
  | node a ab l (node c cb cl cr), h =>
    cases h
    simp

theorem rotateRight_toList {t t' : AvlTree α} (h : t.rotateRight = some t') : t'.toList = t.toList := by
  match t, h with
  | node a ab (node c cb cl cr) r, h =>
    cases h
    simp

theorem balance_toList {t t' : AvlTree α} (h : t.balance = some t') : t'.toList = t.toList := by
  cases t with
  | nil => cases h
  | node a b l r =>
    have left {l' : AvlTree α} (hl : l.rotateLeft = some l') (h : rotateRight (node a b l' r) = some t') :
        t'.toList = (node a b l r).toList := by
      rw [rotateRight_toList h, toList_node, rotateLeft_toList hl, toList_node]
    have right {r' : AvlTree α} (hr : r.rotateRight = some r') (h : rotateLeft (node a b l r') = some t') :
        t'.toList = (node a b l r).toList := by
      rw [rotateLeft_toList h, toList_node, rotateRight_toList hr, toList_node]
    simp only [balance] at h
    split at h
    · obtain ⟨lb, -, h⟩ := Option.bind_eq_some_iff.mp h
      split at h
      · exact rotateRight_toList h
      · split at h
        · obtain ⟨l', hl, h⟩ := Option.bind_eq_some_iff.mp h
          exact left hl h
        · cases h
    · split at h
      · obtain ⟨rb, -, h⟩ := Option.bind_eq_some_iff.mp h
        split at h
        · exact rotateLeft_toList h
        · split at h
          · obtain ⟨r', hr, h⟩ := Option.bind_eq_some_iff.mp h
            exact right hr h
          · cases h
      · cases h
        rfl

theorem balance_small {a : α} {b : ℤ} {l r : AvlTree α} (h : -1 ≤ b) (h' : b ≤ 1) :
    balance (node a b l r) = some (node a b l r) := by
  rw [balance, if_neg (by omega), if_neg (by omega)]

/-- A tree that was two too high on the right. It keeps that height only when its right
subtree was even. -/
theorem balance_right {a : α} {l r : AvlTree α} (hl : l.Balanced) (hr : r.Balanced)
    (hlr : r.height = l.height + 2) :
    ∃ t, balance (node a 2 l r) = some t ∧ t.Balanced ∧ t.toList = l.toList ++ a :: r.toList ∧
      (r.bal = 0 ∧ t.bal ≠ 0 ∧ t.height = r.height + 1 ∨ r.bal ≠ 0 ∧ t.bal = 0 ∧ t.height = r.height) := by
  cases r with
  | nil => simp at hlr
  | node c cb cl cr =>
    obtain ⟨hcb, hlo, hhi, hcl, hcr⟩ := hr
    simp only [height_node] at hlr
    by_cases hcb0 : 0 ≤ cb
    · have hrun : balance (node a 2 l (node c cb cl cr)) = rotateLeft (node a 2 l (node c cb cl cr)) := by
        simp [balance, bal?, hcb0]
      refine ⟨_, hrun, ?_⟩
      simp only [Balanced, toList_node, bal, height_node, List.append_assoc, List.cons_append, hl, hcl, hcr]
      obtain rfl | rfl : cb = 0 ∨ cb = 1 := by omega
      all_goals
        refine ⟨⟨by omega, by omega, by omega, ⟨by omega, by omega, by omega, trivial, trivial⟩, trivial⟩, trivial, ?_⟩
        omega
    · cases cl with
      | nil =>
        simp only [height_nil] at hcb
        omega
      | node e eb el er =>
        obtain ⟨heb, helo, hehi, hel, her⟩ := hcl
        simp only [height_node] at hcb hlr
        obtain rfl : cb = -1 := by omega
        have hrun : balance (node a 2 l (node c (-1) (node e eb el er) cr)) =
            rotateRightLeft (node a 2 l (node c (-1) (node e eb el er) cr)) := by
          simp [balance, bal?]
        refine ⟨_, hrun, ?_⟩
        simp only [Balanced, toList_node, bal, height_node, List.append_assoc, List.cons_append, hl, hel, her, hcr]
        obtain rfl | rfl | rfl : eb = -1 ∨ eb = 0 ∨ eb = 1 := by omega
        all_goals
          refine ⟨⟨by omega, by omega, by omega, ⟨by omega, by omega, by omega, trivial, trivial⟩,
            ⟨by omega, by omega, by omega, trivial, trivial⟩⟩, trivial, .inr ⟨by omega, by omega, by omega⟩⟩

theorem balance_left {a : α} {l r : AvlTree α} (hl : l.Balanced) (hr : r.Balanced)
    (hlr : l.height = r.height + 2) :
    ∃ t, balance (node a (-2) l r) = some t ∧ t.Balanced ∧ t.toList = l.toList ++ a :: r.toList ∧
      (l.bal = 0 ∧ t.bal ≠ 0 ∧ t.height = l.height + 1 ∨ l.bal ≠ 0 ∧ t.bal = 0 ∧ t.height = l.height) := by
  cases l with
  | nil => simp at hlr
  | node c cb cl cr =>
    obtain ⟨hcb, hlo, hhi, hcl, hcr⟩ := hl
    simp only [height_node] at hlr
    by_cases hcb0 : cb ≤ 0
    · have hrun : balance (node a (-2) (node c cb cl cr) r) = rotateRight (node a (-2) (node c cb cl cr) r) := by
        simp [balance, bal?, hcb0]
      refine ⟨_, hrun, ?_⟩
      simp only [Balanced, toList_node, bal, height_node, List.append_assoc, List.cons_append, hr, hcl, hcr]
      obtain rfl | rfl : cb = 0 ∨ cb = -1 := by omega
      all_goals
        refine ⟨⟨by omega, by omega, by omega, trivial, ⟨by omega, by omega, by omega, trivial, trivial⟩⟩, trivial, ?_⟩
        omega
    · cases cr with
      | nil =>
        simp only [height_nil] at hcb
        omega
      | node e eb el er =>
        obtain ⟨heb, helo, hehi, hel, her⟩ := hcr
        simp only [height_node] at hcb hlr
        obtain rfl : cb = 1 := by omega
        have hrun : balance (node a (-2) (node c 1 cl (node e eb el er)) r) =
            rotateLeftRight (node a (-2) (node c 1 cl (node e eb el er)) r) := by
          simp [balance, bal?]
        refine ⟨_, hrun, ?_⟩
        simp only [Balanced, toList_node, bal, height_node, List.append_assoc, List.cons_append, hr, hel, her, hcl]
        obtain rfl | rfl | rfl : eb = -1 ∨ eb = 0 ∨ eb = 1 := by omega
        all_goals
          refine ⟨⟨by omega, by omega, by omega, ⟨by omega, by omega, by omega, trivial, trivial⟩,
            ⟨by omega, by omega, by omega, trivial, trivial⟩⟩, trivial, .inr ⟨by omega, by omega, by omega⟩⟩

/-- What `balance` does to a node whose factor is right and at most two. -/
theorem balance_spec {a : α} {b : ℤ} {l r : AvlTree α} (hl : l.Balanced) (hr : r.Balanced)
    (hb : b = r.height - l.height) (hlo : -2 ≤ b) (hhi : b ≤ 2) :
    ∃ t, balance (node a b l r) = some t ∧ t.Balanced ∧ t.toList = l.toList ++ a :: r.toList ∧
      (-1 ≤ b ∧ b ≤ 1 ∧ t.bal = b ∧ t.height = max l.height r.height + 1 ∨
       b = 2 ∧ r.bal = 0 ∧ t.bal ≠ 0 ∧ t.height = r.height + 1 ∨
       b = 2 ∧ r.bal ≠ 0 ∧ t.bal = 0 ∧ t.height = r.height ∨
       b = -2 ∧ l.bal = 0 ∧ t.bal ≠ 0 ∧ t.height = l.height + 1 ∨
       b = -2 ∧ l.bal ≠ 0 ∧ t.bal = 0 ∧ t.height = l.height) := by
  rcases (by omega : b = 2 ∨ b = -2 ∨ -1 ≤ b ∧ b ≤ 1) with rfl | rfl | ⟨h, h'⟩
  · obtain ⟨t, ht, hbal, hlist, heven | hodd⟩ := @balance_right _ a _ _ hl hr (by omega)
    · exact ⟨t, ht, hbal, hlist, .inr (.inl ⟨rfl, heven⟩)⟩
    · exact ⟨t, ht, hbal, hlist, .inr (.inr (.inl ⟨rfl, hodd⟩))⟩
  · obtain ⟨t, ht, hbal, hlist, heven | hodd⟩ := @balance_left _ a _ _ hl hr (by omega)
    · exact ⟨t, ht, hbal, hlist, .inr (.inr (.inr (.inl ⟨rfl, heven⟩)))⟩
    · exact ⟨t, ht, hbal, hlist, .inr (.inr (.inr (.inr ⟨rfl, hodd⟩)))⟩
  · exact ⟨_, balance_small h h', ⟨hb, h, h', hl, hr⟩, rfl, .inl ⟨h, h', rfl, rfl⟩⟩

end Rotations

/-! ### Insertion and deletion

The operations take the position they look for as the sign of `c`: positive on the labels
below it, negative on those above. Each returns by how much the height has changed. -/

/-- `1` when a node that was even is no longer so. -/
def grown (b : ℤ) (t : AvlTree α) : ℤ := if b = 0 ∧ t.bal ≠ 0 then 1 else 0

/-- `-1` when a node that was not even has become so. -/
def shrunk (b : ℤ) (t : AvlTree α) : ℤ := if b ≠ 0 ∧ t.bal = 0 then -1 else 0

def insert (c : α → ℤ) (x : α) : AvlTree α → Option (AvlTree α × ℤ × Option α)
  | nil => some (node x 0 nil nil, 1, none)
  | node a b l r =>
    if c a < 0 then do
      let (l, d, old) ← insert c x l
      let t ← balance (node a (b - d) l r)
      return (t, grown b t, old)
    else if 0 < c a then do
      let (r, d, old) ← insert c x r
      let t ← balance (node a (b + d) l r)
      return (t, grown b t, old)
    else some (node x b l r, 0, some a)

theorem insert_cases {c : α → ℤ} {x a : α} {b d : ℤ} {l r t : AvlTree α} {old : Option α}
    (h : insert c x (node a b l r) = some (t, d, old)) :
    (c a < 0 ∧ ∃ l' d', insert c x l = some (l', d', old) ∧ balance (node a (b - d') l' r) = some t ∧ d = grown b t) ∨
    (0 < c a ∧ ∃ r' d', insert c x r = some (r', d', old) ∧ balance (node a (b + d') l r') = some t ∧ d = grown b t) ∨
    (c a = 0 ∧ t = node x b l r ∧ d = 0 ∧ old = some a) := by
  rw [insert] at h
  split at h
  case isTrue ha =>
    obtain ⟨⟨l', d', o⟩, hl, h⟩ := Option.bind_eq_some_iff.mp h
    obtain ⟨t₁, ht, h⟩ := Option.bind_eq_some_iff.mp h
    cases h
    exact .inl ⟨ha, l', d', hl, ht, rfl⟩
  case isFalse ha =>
    split at h
    case isTrue ha' =>
      obtain ⟨⟨r', d', o⟩, hr, h⟩ := Option.bind_eq_some_iff.mp h
      obtain ⟨t₁, ht, h⟩ := Option.bind_eq_some_iff.mp h
      cases h
      exact .inr (.inl ⟨ha', r', d', hr, ht, rfl⟩)
    case isFalse ha' =>
      cases h
      exact .inr (.inr ⟨by omega, rfl, rfl, rfl⟩)

theorem insert_subset {c : α → ℤ} {x : α} {d : ℤ} {t t' : AvlTree α} {old : Option α}
    (h : insert c x t = some (t', d, old)) : t'.toList ⊆ x :: t.toList := by
  induction t generalizing t' d with
  | nil =>
    cases h
    simp
  | node a b l r ihl ihr =>
    obtain ⟨-, l', d', hl, ht, -⟩ | ⟨-, r', d', hr, ht, -⟩ | ⟨-, rfl, -, -⟩ := insert_cases h
    · have hsub := ihl hl
      rw [balance_toList ht]
      intro e he
      simp only [toList_node, List.mem_append, List.mem_cons] at he ⊢
      rcases he with he | he | he
      · rcases List.mem_cons.mp (hsub he) with he | he <;> simp [he]
      · simp [he]
      · simp [he]
    · have hsub := ihr hr
      rw [balance_toList ht]
      intro e he
      simp only [toList_node, List.mem_append, List.mem_cons] at he ⊢
      rcases he with he | he | he
      · simp [he]
      · simp [he]
      · rcases List.mem_cons.mp (hsub he) with he | he <;> simp [he]
    · intro e he
      simp only [toList_node, List.mem_append, List.mem_cons] at he ⊢
      tauto

/-- Take out the leftmost node. -/
def deleteMin : AvlTree α → Option (AvlTree α × ℤ × α)
  | nil => none
  | node a b l r =>
    match l with
    | nil => some (r, -1, a)
    | node .. => do
      let (l, d, x) ← deleteMin l
      let t ← balance (node a (b - d) l r)
      return (t, shrunk b t, x)

theorem deleteMin_toList {d : ℤ} {x : α} {t t' : AvlTree α} (h : deleteMin t = some (t', d, x)) :
    t.toList = x :: t'.toList := by
  induction t generalizing t' d with
  | nil => cases h
  | node a b l r ihl ihr =>
    cases l with
    | nil =>
      cases h
      rfl
    | node la lb ll lr =>
      obtain ⟨⟨l', d', y⟩, hl, h⟩ := Option.bind_eq_some_iff.mp h
      obtain ⟨t₁, ht, h⟩ := Option.bind_eq_some_iff.mp h
      cases h
      rw [balance_toList ht, toList_node, ihl hl]
      rfl

/-- Join two subtrees whose node is taken out. -/
def deleteTop (b : ℤ) (l r : AvlTree α) : Option (AvlTree α × ℤ) :=
  match l, r with
  | nil, r => some (r, -1)
  | node la lb ll lr, nil => some (node la lb ll lr, -1)
  | node la lb ll lr, node ra rb rl rr => do
    let (r, d, x) ← deleteMin (node ra rb rl rr)
    let t ← balance (node x (b + d) (node la lb ll lr) r)
    return (t, shrunk b t)

def delete (c : α → ℤ) : AvlTree α → Option (AvlTree α × ℤ × Option α)
  | nil => some (nil, 0, none)
  | node a b l r =>
    if c a < 0 then do
      let (l, d, old) ← delete c l
      let t ← balance (node a (b - d) l r)
      return (t, shrunk b t, old)
    else if 0 < c a then do
      let (r, d, old) ← delete c r
      let t ← balance (node a (b + d) l r)
      return (t, shrunk b t, old)
    else (deleteTop b l r).map (fun (t, d) ↦ (t, d, some a))

theorem delete_cases {c : α → ℤ} {a : α} {b d : ℤ} {l r t : AvlTree α} {old : Option α}
    (h : delete c (node a b l r) = some (t, d, old)) :
    (c a < 0 ∧ ∃ l' d', delete c l = some (l', d', old) ∧ balance (node a (b - d') l' r) = some t ∧ d = shrunk b t) ∨
    (0 < c a ∧ ∃ r' d', delete c r = some (r', d', old) ∧ balance (node a (b + d') l r') = some t ∧ d = shrunk b t) ∨
    (c a = 0 ∧ deleteTop b l r = some (t, d) ∧ old = some a) := by
  rw [delete] at h
  split at h
  case isTrue ha =>
    obtain ⟨⟨l', d', o⟩, hl, h⟩ := Option.bind_eq_some_iff.mp h
    obtain ⟨t₁, ht, h⟩ := Option.bind_eq_some_iff.mp h
    cases h
    exact .inl ⟨ha, l', d', hl, ht, rfl⟩
  case isFalse ha =>
    split at h
    case isTrue ha' =>
      obtain ⟨⟨r', d', o⟩, hr, h⟩ := Option.bind_eq_some_iff.mp h
      obtain ⟨t₁, ht, h⟩ := Option.bind_eq_some_iff.mp h
      cases h
      exact .inr (.inl ⟨ha', r', d', hr, ht, rfl⟩)
    case isFalse ha' =>
      obtain ⟨⟨t₁, d₁⟩, ht, h⟩ := Option.map_eq_some_iff.mp h
      cases h
      exact .inr (.inr ⟨by omega, ht, rfl⟩)

theorem deleteTop_toList {b d : ℤ} {l r t : AvlTree α} (h : deleteTop b l r = some (t, d)) :
    t.toList = l.toList ++ r.toList := by
  cases l with
  | nil =>
    cases h
    rfl
  | node la lb ll lr =>
    cases r with
    | nil =>
      cases h
      exact (List.append_nil _).symm
    | node ra rb rl rr =>
      obtain ⟨⟨r', d', x⟩, hr, h⟩ := Option.bind_eq_some_iff.mp h
      obtain ⟨t₁, ht, h⟩ := Option.bind_eq_some_iff.mp h
      cases h
      rw [balance_toList ht, deleteMin_toList hr]
      rfl

theorem delete_subset {c : α → ℤ} {d : ℤ} {t t' : AvlTree α} {old : Option α}
    (h : delete c t = some (t', d, old)) : t'.toList ⊆ t.toList := by
  induction t generalizing t' d with
  | nil =>
    cases h
    exact List.Subset.refl _
  | node a b l r ihl ihr =>
    intro e he
    obtain ⟨-, l', d', hl, ht, -⟩ | ⟨-, r', d', hr, ht, -⟩ | ⟨-, ht, -⟩ := delete_cases h
    · rw [balance_toList ht] at he
      simp only [toList_node, List.mem_append, List.mem_cons] at he ⊢
      exact he.imp_left (fun he ↦ ihl hl he)
    · rw [balance_toList ht] at he
      simp only [toList_node, List.mem_append, List.mem_cons] at he ⊢
      exact he.imp_right (fun he ↦ he.imp_right (fun he ↦ ihr hr he))
    · rw [deleteTop_toList ht] at he
      simp only [toList_node, List.mem_append, List.mem_cons] at he ⊢
      exact he.imp_right .inr

variable {c : α → ℤ}

/-- `l` falls into what is below, at and above the position `c`. -/
structure Cut (c : α → ℤ) (l xs : List α) (o : Option α) (ys : List α) : Prop where
  eq : l = xs ++ (o.toList ++ ys)
  below : ∀ a ∈ xs, 0 < c a
  above : ∀ a ∈ ys, c a < 0
  at_eq : ∀ a ∈ o, c a = 0

/-- A list in which a position can be looked up. -/
def Ordered (c : α → ℤ) (l : List α) : Prop := l.Pairwise (fun a b ↦ 0 ≤ c b → 0 < c a)

theorem Ordered.parts {a : α} {l r : List α} (h : Ordered c (l ++ a :: r)) :
    Ordered c l ∧ Ordered c r ∧ (0 ≤ c a → ∀ e ∈ l, 0 < c e) ∧ (c a ≤ 0 → ∀ e ∈ r, c e < 0) := by
  obtain ⟨hl, hr, hlr⟩ := List.pairwise_append.mp h
  obtain ⟨har, hr⟩ := List.pairwise_cons.mp hr
  refine ⟨hl, hr, fun ha e he ↦ hlr e he a List.mem_cons_self ha, fun ha e he ↦ ?_⟩
  by_contra hc
  have := har e he (by omega)
  omega

theorem Cut.left {a : α} {l r xs ys : List α} {o : Option α} (h : Cut c l xs o ys) (ha : c a < 0)
    (hr : ∀ e ∈ r, c e < 0) : Cut c (l ++ a :: r) xs o (ys ++ a :: r) where
  eq := by simp [h.eq]
  below := h.below
  above := by
    intro e he
    rcases List.mem_append.mp he with he | he
    · exact h.above e he
    · rcases List.mem_cons.mp he with rfl | he
      · exact ha
      · exact hr e he
  at_eq := h.at_eq

theorem Cut.right {a : α} {l r xs ys : List α} {o : Option α} (h : Cut c r xs o ys) (ha : 0 < c a)
    (hl : ∀ e ∈ l, 0 < c e) : Cut c (l ++ a :: r) (l ++ a :: xs) o ys where
  eq := by simp [h.eq]
  below := by
    intro e he
    rcases List.mem_append.mp he with he | he
    · exact hl e he
    · rcases List.mem_cons.mp he with rfl | he
      · exact ha
      · exact h.below e he
  above := h.above
  at_eq := h.at_eq

theorem grown_cases (b : ℤ) (t : AvlTree α) :
    b = 0 ∧ t.bal ≠ 0 ∧ grown b t = 1 ∨ (b ≠ 0 ∨ t.bal = 0) ∧ grown b t = 0 := by
  simp only [grown]
  split <;> omega

theorem shrunk_cases (b : ℤ) (t : AvlTree α) :
    b ≠ 0 ∧ t.bal = 0 ∧ shrunk b t = -1 ∨ (b = 0 ∨ t.bal ≠ 0) ∧ shrunk b t = 0 := by
  simp only [shrunk]
  split <;> omega

theorem grown_eq_zero {b : ℤ} {t : AvlTree α} (h : b = 0 → t.bal = 0) : grown b t = 0 :=
  if_neg fun hc => hc.2 (h hc.1)

theorem grown_eq_one {b : ℤ} {t : AvlTree α} (hb : b = 0) (ht : t.bal ≠ 0) : grown b t = 1 := if_pos ⟨hb, ht⟩

theorem shrunk_eq_zero {b : ℤ} {t : AvlTree α} (h : t.bal = 0 → b = 0) : shrunk b t = 0 :=
  if_neg fun hc => hc.1 (h hc.2)

theorem shrunk_eq_neg_one {b : ℤ} {t : AvlTree α} (hb : b ≠ 0) (ht : t.bal = 0) : shrunk b t = -1 := if_pos ⟨hb, ht⟩

/-- What `balance_spec` says of a node where the subtree `s` is too high by `e`, and `k` is the height
of the other subtree. -/
def Evened (e : ℤ) (k : ℕ) (s t : AvlTree α) : Prop :=
  -1 ≤ e ∧ e ≤ 1 ∧ (t.bal = 0 ↔ e = 0) ∧ t.height = max k s.height + 1 ∨
  e = 2 ∧ s.bal = 0 ∧ t.bal ≠ 0 ∧ t.height = s.height + 1 ∨
  e = 2 ∧ s.bal ≠ 0 ∧ t.bal = 0 ∧ t.height = s.height ∨
  e = -2 ∧ t.bal ≠ 0 ∧ t.height = k + 1 ∨
  e = -2 ∧ t.bal = 0 ∧ t.height = k

/-- The height of a node after the subtree `s`, that was `n` high, has grown by `d`. -/
theorem Evened.grown {e b d : ℤ} {k n : ℕ} {s t : AvlTree α} (h : Evened (e + d) k s t) (hb : b = 0 ↔ e = 0)
    (he : e = n - k) (hlo : -1 ≤ e) (hhi : e ≤ 1) (hd : d = 0 ∨ d = 1) (hs : (s.height : ℤ) = n + d)
    (heven : d = 1 → s.bal ≠ 0 ∨ n = 0) : (t.height : ℤ) = (max k n + 1 : ℕ) + grown b t := by
  rcases hd with rfl | rfl
  · rw [Int.add_zero] at h hs
    have hsn : s.height = n := Int.ofNat.inj hs
    rcases h with ⟨-, -, hbal, ht⟩ | h | h | h | h
    · rw [grown_eq_zero fun h0 => hbal.mpr (hb.mp h0), ht, hsn, Int.add_zero]
    all_goals
      have hbig := h.1
      omega
  · have hsn : s.height = n + 1 := Int.ofNat.inj hs
    rcases h with ⟨-, hle, hbal, ht⟩ | ⟨htwo, heq, -⟩ | ⟨htwo, -, hbal, ht⟩ | h | h
    · rcases (by omega : e = 0 ∨ e = -1) with h0 | h0
      · rw [grown_eq_one (hb.mpr h0) fun hc => by have := hbal.mp hc; omega, ht, hsn,
          max_eq_right (by omega : k ≤ n + 1), max_eq_right (by omega : k ≤ n)]
        rfl
      · rw [grown_eq_zero fun hc => by have := hb.mp hc; omega, ht, hsn, max_eq_left (by omega : n + 1 ≤ k),
          max_eq_left (by omega : n ≤ k), Int.add_zero]
    · rcases heven rfl with hne | hn
      · exact absurd heq hne
      · omega
    · rw [grown_eq_zero fun _ => hbal, ht, hsn, max_eq_right (by omega : k ≤ n), Int.add_zero]
    all_goals
      have hbig := h.1
      omega

/-- The height of a node after the subtree `s`, that was `n` high, has got smaller by one when `d` is `-1`. -/
theorem Evened.shrunk {e b d : ℤ} {k n : ℕ} {s t : AvlTree α} (h : Evened (e + d) k s t) (hb : b = 0 ↔ e = 0)
    (he : e = n - k) (hlo : -1 ≤ e) (hhi : e ≤ 1) (hd : d = 0 ∨ d = -1) (hs : (s.height : ℤ) = n + d) :
    (t.height : ℤ) = (max k n + 1 : ℕ) + shrunk b t := by
  rcases hd with rfl | rfl
  · rw [Int.add_zero] at h hs
    have hsn : s.height = n := Int.ofNat.inj hs
    rcases h with ⟨-, -, hbal, ht⟩ | h | h | h | h
    · rw [shrunk_eq_zero fun h0 => hb.mpr (hbal.mp h0), ht, hsn, Int.add_zero]
    all_goals
      have hbig := h.1
      omega
  · have hsn : s.height + 1 = n := by omega
    rcases h with ⟨hle, -, hbal, ht⟩ | h | h | ⟨htwo, hbal, ht⟩ | ⟨htwo, hbal, ht⟩
    · rcases (by omega : e = 0 ∨ e = 1) with h0 | h0
      · rw [shrunk_eq_zero fun _ => hb.mpr h0, ht, max_eq_left (by omega : s.height ≤ k), max_eq_left (by omega : n ≤ k),
          Int.add_zero]
      · rw [shrunk_eq_neg_one (fun hc => by have := hb.mp hc; omega) (hbal.mpr (by omega)), ht,
          max_eq_left (by omega : s.height ≤ k), max_eq_right (by omega : k ≤ n)]
        omega
    · have hbig := h.1
      omega
    · have hbig := h.1
      omega
    · rw [shrunk_eq_zero fun hc => absurd hc hbal, ht, max_eq_left (by omega : n ≤ k), Int.add_zero]
    · rw [shrunk_eq_neg_one (fun hc => by have := hb.mp hc; omega) hbal, ht, max_eq_left (by omega : n ≤ k)]
      omega

theorem balance_evened_left {a : α} {b : ℤ} {l r : AvlTree α} (hl : l.Balanced) (hr : r.Balanced)
    (hb : b = r.height - l.height) (hlo : -2 ≤ b) (hhi : b ≤ 2) :
    ∃ t, balance (node a b l r) = some t ∧ t.Balanced ∧ t.toList = l.toList ++ a :: r.toList ∧
      Evened (-b) r.height l t := by
  obtain ⟨t, ht, hbal, hlist, hcase⟩ := @balance_spec _ a b l r hl hr hb hlo hhi
  refine ⟨t, ht, hbal, hlist, ?_⟩
  rcases hcase with ⟨h₁, h₂, h₃, h₄⟩ | ⟨rfl, h⟩ | ⟨rfl, h⟩ | ⟨rfl, h⟩ | ⟨rfl, h⟩
  · exact .inl ⟨Int.neg_le_neg h₂, Int.neg_le_neg h₁, by rw [h₃, Int.neg_eq_zero], by rw [h₄, max_comm]⟩
  · exact .inr (.inr (.inr (.inl ⟨rfl, h.2⟩)))
  · exact .inr (.inr (.inr (.inr ⟨rfl, h.2⟩)))
  · exact .inr (.inl ⟨rfl, h⟩)
  · exact .inr (.inr (.inl ⟨rfl, h⟩))

theorem balance_evened_right {a : α} {b : ℤ} {l r : AvlTree α} (hl : l.Balanced) (hr : r.Balanced)
    (hb : b = r.height - l.height) (hlo : -2 ≤ b) (hhi : b ≤ 2) :
    ∃ t, balance (node a b l r) = some t ∧ t.Balanced ∧ t.toList = l.toList ++ a :: r.toList ∧
      Evened b l.height r t := by
  obtain ⟨t, ht, hbal, hlist, hcase⟩ := @balance_spec _ a b l r hl hr hb hlo hhi
  refine ⟨t, ht, hbal, hlist, ?_⟩
  rcases hcase with ⟨h₁, h₂, h₃, h₄⟩ | h | h | ⟨rfl, h⟩ | ⟨rfl, h⟩
  · exact .inl ⟨h₁, h₂, by rw [h₃], h₄⟩
  · exact .inr (.inl h)
  · exact .inr (.inr (.inl h))
  · exact .inr (.inr (.inr (.inl ⟨rfl, h.2⟩)))
  · exact .inr (.inr (.inr (.inr ⟨rfl, h.2⟩)))

/-- The left subtree has grown by `d`. A subtree that grew is not even, unless it was empty. -/
theorem balance_grow_left {a : α} {b d : ℤ} {l r l' : AvlTree α} (h : (node a b l r).Balanced)
    (hl' : l'.Balanced) (hd : d = 0 ∨ d = 1) (hheight : (l'.height : ℤ) = l.height + d)
    (heven : d = 1 → l'.bal ≠ 0 ∨ l.height = 0) :
    ∃ t, balance (node a (b - d) l' r) = some t ∧ t.Balanced ∧ t.toList = l'.toList ++ a :: r.toList ∧
      (t.height : ℤ) = (node a b l r).height + grown b t := by
  obtain ⟨hb, hlo, hhi, -, hr⟩ := h
  obtain ⟨t, ht, hbal, hlist, hcase⟩ := @balance_evened_left _ a (b - d) l' r hl' hr (by omega) (by omega) (by omega)
  refine ⟨t, ht, hbal, hlist, ?_⟩
  rw [show -(b - d) = -b + d by omega] at hcase
  rw [height_node, max_comm]
  exact hcase.grown Int.neg_eq_zero.symm (by omega) (by omega) (by omega) hd hheight heven

theorem balance_grow_right {a : α} {b d : ℤ} {l r r' : AvlTree α} (h : (node a b l r).Balanced)
    (hr' : r'.Balanced) (hd : d = 0 ∨ d = 1) (hheight : (r'.height : ℤ) = r.height + d)
    (heven : d = 1 → r'.bal ≠ 0 ∨ r.height = 0) :
    ∃ t, balance (node a (b + d) l r') = some t ∧ t.Balanced ∧ t.toList = l.toList ++ a :: r'.toList ∧
      (t.height : ℤ) = (node a b l r).height + grown b t := by
  obtain ⟨hb, hlo, hhi, hl, -⟩ := h
  obtain ⟨t, ht, hbal, hlist, hcase⟩ := @balance_evened_right _ a (b + d) l r' hl hr' (by omega) (by omega) (by omega)
  exact ⟨t, ht, hbal, hlist, hcase.grown Iff.rfl hb hlo hhi hd hheight heven⟩

theorem balance_shrink_left {a : α} {b d : ℤ} {l r l' : AvlTree α} (h : (node a b l r).Balanced)
    (hl' : l'.Balanced) (hd : d = 0 ∨ d = -1) (hheight : (l'.height : ℤ) = l.height + d) :
    ∃ t, balance (node a (b - d) l' r) = some t ∧ t.Balanced ∧ t.toList = l'.toList ++ a :: r.toList ∧
      (t.height : ℤ) = (node a b l r).height + shrunk b t := by
  obtain ⟨hb, hlo, hhi, -, hr⟩ := h
  obtain ⟨t, ht, hbal, hlist, hcase⟩ := @balance_evened_left _ a (b - d) l' r hl' hr (by omega) (by omega) (by omega)
  refine ⟨t, ht, hbal, hlist, ?_⟩
  rw [show -(b - d) = -b + d by omega] at hcase
  rw [height_node, max_comm]
  exact hcase.shrunk Int.neg_eq_zero.symm (by omega) (by omega) (by omega) hd hheight

theorem balance_shrink_right {a a' : α} {b d : ℤ} {l r r' : AvlTree α} (h : (node a b l r).Balanced)
    (hr' : r'.Balanced) (hd : d = 0 ∨ d = -1) (hheight : (r'.height : ℤ) = r.height + d) :
    ∃ t, balance (node a' (b + d) l r') = some t ∧ t.Balanced ∧ t.toList = l.toList ++ a' :: r'.toList ∧
      (t.height : ℤ) = (node a b l r).height + shrunk b t := by
  obtain ⟨hb, hlo, hhi, hl, -⟩ := h
  obtain ⟨t, ht, hbal, hlist, hcase⟩ := @balance_evened_right _ a' (b + d) l r' hl hr' (by omega) (by omega) (by omega)
  exact ⟨t, ht, hbal, hlist, hcase.shrunk Iff.rfl hb hlo hhi hd hheight⟩

theorem insert_spec (x : α) {t : AvlTree α} (hb : t.Balanced) (hc : Ordered c t.toList) :
    ∃ t' d old, insert c x t = some (t', d, old) ∧ t'.Balanced ∧ (t'.height : ℤ) = t.height + d ∧
      (d = 0 ∨ d = 1 ∧ (t'.bal ≠ 0 ∨ t.height = 0)) ∧
      ∃ xs ys, Cut c t.toList xs old ys ∧ t'.toList = xs ++ x :: ys := by
  induction t with
  | nil =>
    refine ⟨node x 0 nil nil, 1, none, rfl, ⟨by simp, by omega, by omega, trivial, trivial⟩, by simp, by simp,
      [], [], ⟨rfl, by simp, by simp, by simp⟩, rfl⟩
  | node a b l r ihl ihr =>
    obtain ⟨hcl, hcr, hbelow, habove⟩ := hc.parts
    rcases lt_trichotomy (c a) 0 with ha | ha | ha
    · obtain ⟨l', d, old, hrun, hl', hheight, hd, xs, ys, hcut, hlist⟩ := ihl hb.2.2.2.1 hcl
      obtain ⟨t', ht', hbal', hlist', hheight'⟩ := balance_grow_left hb hl' (by omega) hheight (by omega)
      refine ⟨t', grown b t', old, ?_, hbal', hheight', ?_, xs, ys ++ a :: r.toList, hcut.left ha (habove ha.le), ?_⟩
      · rw [insert, if_pos ha, hrun]
        simp [ht']
      · have hg := grown_cases b t'
        omega
      · rw [hlist', hlist]
        simp
    · refine ⟨node x b l r, 0, some a, ?_, hb, by simp, by simp, l.toList, r.toList, ⟨rfl, hbelow ha.ge, habove ha.le, ?_⟩, rfl⟩
      · rw [insert, if_neg (by omega), if_neg (by omega)]
      · rintro _ ⟨⟩
        exact ha
    · obtain ⟨r', d, old, hrun, hr', hheight, hd, xs, ys, hcut, hlist⟩ := ihr hb.2.2.2.2 hcr
      obtain ⟨t', ht', hbal', hlist', hheight'⟩ := balance_grow_right hb hr' (by omega) hheight (by omega)
      refine ⟨t', grown b t', old, ?_, hbal', hheight', ?_, l.toList ++ a :: xs, ys, hcut.right ha (hbelow ha.le), ?_⟩
      · rw [insert, if_neg (by omega), if_pos ha, hrun]
        simp [ht']
      · have hg := grown_cases b t'
        omega
      · rw [hlist', hlist]
        simp

theorem deleteMin_spec {t : AvlTree α} (hb : t.Balanced) (hne : t ≠ nil) :
    ∃ t' d x, deleteMin t = some (t', d, x) ∧ t'.Balanced ∧ (t'.height : ℤ) = t.height + d ∧
      (d = 0 ∨ d = -1) ∧ t.toList = x :: t'.toList := by
  induction t with
  | nil => exact absurd rfl hne
  | node a b l r ihl ihr =>
    cases l with
    | nil =>
      refine ⟨r, -1, a, rfl, hb.2.2.2.2, ?_, by simp, rfl⟩
      simp only [height_node, height_nil]
      omega
    | node la lb ll lr =>
      obtain ⟨l', d, x, hrun, hl', hheight, hd, hlist⟩ := ihl hb.2.2.2.1 (by simp)
      obtain ⟨t', ht', hbal', hlist', hheight'⟩ := balance_shrink_left hb hl' hd hheight
      refine ⟨t', shrunk b t', x, ?_, hbal', hheight', ?_, ?_⟩
      · rw [deleteMin, hrun]
        simp [ht']
      · have hg := shrunk_cases b t'
        omega
      · rw [hlist', toList_node, hlist]
        rfl

theorem deleteTop_spec {a : α} {b : ℤ} {l r : AvlTree α} (hb : (node a b l r).Balanced) :
    ∃ t d, deleteTop b l r = some (t, d) ∧ t.Balanced ∧ (t.height : ℤ) = (node a b l r).height + d ∧
      (d = 0 ∨ d = -1) ∧ t.toList = l.toList ++ r.toList := by
  cases l with
  | nil =>
    refine ⟨r, -1, rfl, hb.2.2.2.2, ?_, by simp, rfl⟩
    simp only [height_node, height_nil]
    omega
  | node la lb ll lr =>
    cases r with
    | nil =>
      refine ⟨node la lb ll lr, -1, rfl, hb.2.2.2.1, ?_, by simp, (List.append_nil _).symm⟩
      simp only [height_node, height_nil]
      omega
    | node ra rb rl rr =>
      obtain ⟨r', d, x, hrun, hr', hheight, hd, hlist⟩ := deleteMin_spec hb.2.2.2.2 (by simp)
      obtain ⟨t', ht', hbal', hlist', hheight'⟩ := @balance_shrink_right _ a x _ _ _ _ _ hb hr' hd hheight
      refine ⟨t', shrunk b t', ?_, hbal', hheight', ?_, ?_⟩
      · rw [deleteTop, hrun]
        simp [ht']
      · have hg := shrunk_cases b t'
        omega
      · rw [hlist', hlist]

theorem delete_spec {t : AvlTree α} (hb : t.Balanced) (hc : Ordered c t.toList) :
    ∃ t' d old, delete c t = some (t', d, old) ∧ t'.Balanced ∧ (t'.height : ℤ) = t.height + d ∧
      (d = 0 ∨ d = -1) ∧ ∃ xs ys, Cut c t.toList xs old ys ∧ t'.toList = xs ++ ys := by
  induction t with
  | nil => exact ⟨nil, 0, none, rfl, trivial, by simp, by simp, [], [], ⟨rfl, by simp, by simp, by simp⟩, rfl⟩
  | node a b l r ihl ihr =>
    obtain ⟨hcl, hcr, hbelow, habove⟩ := hc.parts
    rcases lt_trichotomy (c a) 0 with ha | ha | ha
    · obtain ⟨l', d, old, hrun, hl', hheight, hd, xs, ys, hcut, hlist⟩ := ihl hb.2.2.2.1 hcl
      obtain ⟨t', ht', hbal', hlist', hheight'⟩ := balance_shrink_left hb hl' hd hheight
      refine ⟨t', shrunk b t', old, ?_, hbal', hheight', ?_, xs, ys ++ a :: r.toList, hcut.left ha (habove ha.le), ?_⟩
      · rw [delete, if_pos ha, hrun]
        simp [ht']
      · have hg := shrunk_cases b t'
        omega
      · rw [hlist', hlist]
        simp
    · obtain ⟨t', d, hrun, hbal', hheight', hd, hlist'⟩ := deleteTop_spec hb
      refine ⟨t', d, some a, ?_, hbal', hheight', hd, l.toList, r.toList,
        ⟨rfl, hbelow ha.ge, habove ha.le, by rintro _ ⟨⟩; exact ha⟩, hlist'⟩
      rw [delete, if_neg (by omega), if_neg (by omega), hrun]
      rfl
    · obtain ⟨r', d, old, hrun, hr', hheight, hd, xs, ys, hcut, hlist⟩ := ihr hb.2.2.2.2 hcr
      obtain ⟨t', ht', hbal', hlist', hheight'⟩ := @balance_shrink_right _ a a _ _ _ _ _ hb hr' hd hheight
      refine ⟨t', shrunk b t', old, ?_, hbal', hheight', ?_, l.toList ++ a :: xs, ys, hcut.right ha (hbelow ha.le), ?_⟩
      · rw [delete, if_neg (by omega), if_pos ha, hrun]
        simp [ht']
      · have hg := shrunk_cases b t'
        omega
      · rw [hlist', hlist]
        simp

end AvlTree

end Petele.Lib
