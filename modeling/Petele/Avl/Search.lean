import Petele.Avl.Update

namespace Petele.Avl

open Lib

/-! ### Neighbours -/

/-- The subtree of a node on the side `i`. -/
def kid (i : Bool) (l r : Tree) : Tree := cond i r l

/-- The nodes in the order in which the side `i` comes first. -/
def along (i : Bool) (t : Tree) : List Ptr := cond i t.toList.reverse t.toList

theorem along_node (i : Bool) (a : Ptr) (b : ℤ) (l r : Tree) :
    along i (.node a b l r) = along i (kid i l r) ++ a :: along i (kid (!i) l r) := by
  cases i <;> simp [along, kid]

theorem mem_along {i : Bool} {t : Tree} {a : Ptr} : a ∈ along i t ↔ a ∈ t.toList := by
  cases i <;> simp [along]

theorem along_nil (i : Bool) : along i .nil = [] := by cases i <;> rfl

theorem top_eq_none {t : Tree} (h : t.top = none) : t = .nil := by
  cases t with
  | nil => rfl
  | node => cases h

theorem kid_height (i : Bool) (a : Ptr) (b : ℤ) (l r : Tree) : (kid i l r).height < (AvlTree.node a b l r).height := by
  cases i <;> simp only [kid, cond, AvlTree.height_node] <;> omega

section

variable {s : State} {q : Option Ptr} {a : Ptr} {b : ℤ} {l r : Tree}

theorem Stores.link_kid (h : Stores s q (.node a b l r)) (i : Bool) : s.link (.n a i) = (kid i l r).top := by
  cases i
  · exact h.2.2.1
  · exact h.2.2.2.1

theorem Stores.kid (h : Stores s q (.node a b l r)) (i : Bool) : Stores s (some a) (kid i l r) := by
  cases i
  · exact h.2.2.2.2.1
  · exact h.2.2.2.2.2

theorem Stores.p_top {t : Tree} {c : Ptr} (h : Stores s q t) (hc : t.top = some c) : s.p c = q := by
  cases t with
  | nil => cases hc
  | node x xb xl xr =>
    cases hc
    exact h.1

theorem nodup_kid (h : (AvlTree.node a b l r).toList.Nodup) (i : Bool) : (kid i l r).toList.Nodup := by
  obtain ⟨hl, hr, -⟩ := nodup_node h
  cases i
  · exact hl
  · exact hr

theorem kids_disjoint (h : (AvlTree.node a b l r).toList.Nodup) (i : Bool) {e : Ptr} (he : e ∈ (kid i l r).toList) :
    e ∉ (kid (!i) l r).toList := by
  obtain ⟨-, -, -, -, hlr⟩ := nodup_node h
  cases i
  · exact hlr e he
  · exact fun h ↦ hlr e h he

end

theorem descend_mono {i : Bool} {s : State} {fuel k : ℕ} {a z : Ptr} (h : descend i fuel s a = some z) :
    descend i (fuel + k) s a = some z := by
  induction fuel generalizing a with
  | zero => cases h
  | succ fuel ih =>
    rw [Nat.succ_add_eq_add_succ, Nat.add_succ]
    simp only [descend] at h ⊢
    split at h
    · exact h
    · exact ih h

theorem climb_mono {i : Bool} {s : State} {fuel k : ℕ} {a : Ptr} {z : Option Ptr} (h : climb i fuel s a = some z) :
    climb i (fuel + k) s a = some z := by
  induction fuel generalizing a with
  | zero => cases h
  | succ fuel ih =>
    rw [Nat.succ_add_eq_add_succ, Nat.add_succ]
    simp only [climb] at h ⊢
    split at h
    · exact h
    · split at h
      case isTrue hl =>
        rw [if_pos hl]
        exact ih h
      case isFalse hl =>
        rw [if_neg hl]
        exact h

theorem neighbor_mono {i : Bool} {s : State} {fuel m : ℕ} {a : Option Ptr} {z : Option Ptr}
    (h : neighbor i fuel s a = some z) (hm : fuel ≤ m) : neighbor i m s a = some z := by
  obtain ⟨k, rfl⟩ := Nat.exists_eq_add_of_le hm
  cases a with
  | none => exact h
  | some a =>
    simp only [neighbor] at h ⊢
    split at h
    · obtain ⟨z', hz', h⟩ := Option.bind_eq_some_iff.mp h
      exact Option.bind_eq_some_iff.mpr ⟨z', descend_mono hz', h⟩
    · exact climb_mono h

theorem descend_spec {i : Bool} {s : State} {q : Option Ptr} {t : Tree} {c : Ptr} {fuel : ℕ} (h : Stores s q t)
    (hc : t.top = some c) (hfuel : t.height ≤ fuel) :
    ∃ z, descend (!i) fuel s c = some z ∧ (along i t).getLast? = some z := by
  induction fuel generalizing t q c with
  | zero =>
    cases t with
    | nil => cases hc
    | node => simp at hfuel
  | succ fuel ih =>
    cases t with
    | nil => cases hc
    | node a b l r =>
      obtain rfl : a = c := Option.some.inj hc
      have hk := kid_height (!i) a b l r
      have hlink := h.link_kid (!i)
      simp only [descend]
      cases hv : (kid (!i) l r).top with
      | none =>
        rw [hv] at hlink
        refine ⟨a, by rw [hlink], ?_⟩
        rw [along_node, top_eq_none hv, along_nil, List.getLast?_append]
        rfl
      | some c =>
        obtain ⟨z, hz, hlast⟩ := ih (h.kid (!i)) hv (by omega)
        refine ⟨z, by rw [hlink, hv]; exact hz, ?_⟩
        rw [along_node, List.getLast?_append, List.getLast?_cons, hlast]
        rfl

/-- Where an element of a list split in two ways stands. -/
theorem split_cases {α : Type} {xs ys us vs : List α} {a x : α} (h : us ++ x :: vs = xs ++ a :: ys) :
    (∃ zs, us = xs ++ a :: zs) ∨ (xs = us ∧ a = x) ∨ ∃ zs, xs = us ++ x :: zs ∧ vs = zs ++ a :: ys := by
  rcases List.append_eq_append_iff.mp h with ⟨ws, rfl, hw⟩ | ⟨ws, rfl, hw⟩
  · cases ws with
    | nil =>
      cases hw
      exact .inr (.inl ⟨by simp, rfl⟩)
    | cons w ws =>
      cases hw
      exact .inr (.inr ⟨ws, rfl, rfl⟩)
  · cases ws with
    | nil =>
      cases hw
      exact .inr (.inl ⟨by simp, rfl⟩)
    | cons w ws =>
      cases hw
      exact .inl ⟨ws, rfl⟩

/-- The neighbour of `a`, which has the nodes `xs` of the subtree `t` before it, is the last of
these, or whatever climbing from the top of `t` finds. -/
structure Precedes (i : Bool) (s : State) (t : Tree) (xs : List Ptr) (a : Ptr) : Prop where
  last : xs ≠ [] → neighbor i t.height s (some a) = some xs.getLast?
  first : xs = [] → ∀ c k z, t.top = some c → climb i k s c = some z → neighbor i (k + t.height) s (some a) = some z

theorem neighbor_spec {i : Bool} {s : State} {q : Option Ptr} {t : Tree} {a : Ptr} {xs ys : List Ptr} (h : Stores s q t)
    (hnd : t.toList.Nodup) (hsplit : along i t = xs ++ a :: ys) : Precedes i s t xs a := by
  induction t generalizing q xs ys with
  | nil => cases i <;> simp [along] at hsplit
  | node x b l r ihl ihr =>
    have ih (j : Bool) {xs ys : List Ptr} (hj : along i (kid j l r) = xs ++ a :: ys) :
        Precedes i s (kid j l r) xs a := by
      cases j
      · exact ihl (h.kid false) (nodup_kid hnd false) hj
      · exact ihr (h.kid true) (nodup_kid hnd true) hj
    have hu := kid_height i x b l r
    have hv := kid_height (!i) x b l r
    rw [along_node] at hsplit
    rcases split_cases hsplit with ⟨zs, hzs⟩ | ⟨rfl, rfl⟩ | ⟨zs, rfl, hzs⟩
    · obtain ⟨hne, hnil⟩ := ih i hzs
      refine ⟨fun hxs ↦ neighbor_mono (hne hxs) (by omega), fun hxs c k z hc hz ↦ ?_⟩
      obtain rfl : x = c := Option.some.inj hc
      cases htop : (kid i l r).top with
      | none =>
        rw [top_eq_none htop, along_nil] at hzs
        simp at hzs
      | some u =>
        have hclimb : climb i (k + 1) s u = some z := by
          have hp := (h.kid i).p_top htop
          have hl := h.link_kid i
          rw [htop] at hl
          simp only [climb, hp, hl, if_true]
          exact hz
        exact neighbor_mono (hnil hxs u (k + 1) z htop hclimb) (by omega)
    · have hlink := h.link_kid i
      refine ⟨fun hxs ↦ ?_, fun hxs c k z hc hz ↦ ?_⟩
      · cases htop : (kid i l r).top with
        | none =>
          rw [top_eq_none htop, along_nil] at hxs
          exact absurd rfl hxs
        | some u =>
          obtain ⟨w, hw, hlast⟩ := @descend_spec i _ _ _ _ (AvlTree.node a b l r).height (h.kid i) htop hu.le
          simp only [neighbor, hlink, htop, hw, hlast]
          rfl
      · obtain rfl : a = c := Option.some.inj hc
        have hnone : (kid i l r).top = none := by
          cases htop : (kid i l r).top with
          | none => rfl
          | some u =>
            have hmem : u ∈ along i (kid i l r) := mem_along.mpr (top_mem htop)
            rw [hxs] at hmem
            cases hmem
        simp only [neighbor, hlink, hnone]
        exact climb_mono hz
    · obtain ⟨hne, hnil⟩ := ih (!i) hzs
      refine ⟨fun _ ↦ ?_, fun hxs ↦ by simp at hxs⟩
      by_cases hz : zs = []
      · cases htop : (kid (!i) l r).top with
        | none =>
          rw [top_eq_none htop, along_nil] at hzs
          simp at hzs
        | some v =>
          have hclimb : climb i 1 s v = some (some x) := by
            have hp := (h.kid (!i)).p_top htop
            have hl : s.link (.n x i) ≠ some v := by
              intro hl
              rw [h.link_kid i] at hl
              exact kids_disjoint hnd i (top_mem hl) (top_mem htop)
            simp only [climb, hp, if_neg hl]
          rw [hz, List.getLast?_append]
          exact neighbor_mono (hnil hz v 1 _ htop hclimb) (by omega)
      · rw [List.getLast?_append, List.getLast?_cons]
        have hlast : ∃ w, zs.getLast? = some w := ⟨zs.getLast hz, List.getLast?_eq_some_getLast hz⟩
        obtain ⟨w, hw⟩ := hlast
        have h := neighbor_mono (hne hz) (show _ ≤ (AvlTree.node x b l r).height by omega)
        rw [hw] at h ⊢
        exact h

/-- In a whole tree, the neighbour of a node is the one before it in that order. -/
theorem neighbor_root {i : Bool} {s : State} {t : Tree} {a : Ptr} {xs ys : List Ptr} {fuel : ℕ}
    (h : At s .root none t) (hsplit : along i t = xs ++ a :: ys) (hfuel : t.height < fuel) :
    neighbor i fuel s (some a) = some xs.getLast? := by
  obtain ⟨hne, hnil⟩ := neighbor_spec h.repr h.nodup hsplit
  by_cases hxs : xs = []
  · cases htop : t.top with
    | none =>
      rw [top_eq_none htop, along_nil] at hsplit
      simp at hsplit
    | some c =>
      have hclimb : climb i 1 s c = some none := by simp only [climb, h.repr.p_top htop]
      rw [hxs]
      exact neighbor_mono (hnil hxs c 1 none htop hclimb) (by omega)
  · exact neighbor_mono (hne hxs) hfuel.le

/-! ### `searchavl` -/

/-- What the loop of `_lookupavl` finds out about the place of the key among the nodes: the
node with that key, or the node next to its place, and on which side. -/
def Located (out : Ptr ⊕ Ptr × ℤ) (xs : List Ptr) (o : Option Ptr) (ys : List Ptr) : Prop :=
  match out with
  | .inl z => o = some z
  | .inr (z, i) => o = none ∧ (i = 1 ∧ xs.getLast? = some z ∨ i = -1 ∧ ys.head? = some z)

theorem lookuploop_spec {cmp : Ptr → Ptr → ℤ} {s : State} {q : Option Ptr} {t : Tree} {c r : Ptr} {fuel : ℕ}
    (h : Stores s q t) (hc : t.top = some c) (hord : AvlTree.Ordered (cmp r) t.toList) (hfuel : t.height ≤ fuel) :
    ∃ out xs o ys, lookuploop cmp fuel s c q r = some out ∧ AvlTree.Cut (cmp r) t.toList xs o ys ∧
      Located out xs o ys := by
  induction t generalizing q c fuel with
  | nil => cases hc
  | node a b x y ihx ihy =>
    obtain rfl : a = c := Option.some.inj hc
    simp only [AvlTree.height_node] at hfuel
    obtain ⟨fuel, rfl⟩ : ∃ k, fuel = k + 1 := ⟨fuel - 1, by omega⟩
    have hfx : x.height ≤ fuel := by omega
    have hfy : y.height ≤ fuel := by omega
    obtain ⟨hcx, hcy, hbelow, habove⟩ := hord.parts
    simp only [lookuploop, if_pos h.1]
    rcases lt_trichotomy (cmp r a) 0 with ha | ha | ha
    · rw [canoncmp_neg ha, if_neg (by decide)]
      have hlink : s.link (.n a (decide ((-1 : ℤ) = 1))) = x.top := h.2.2.1
      cases htop : x.top with
      | none =>
        rw [htop] at hlink
        rw [hlink, top_eq_none htop]
        exact ⟨_, [], none, a :: y.toList, rfl, ⟨rfl, by simp, by simpa [ha] using habove ha.le, by simp⟩, rfl, by simp⟩
      | some u =>
        rw [htop] at hlink
        rw [hlink]
        obtain ⟨out, xs, o, ys, hrun, hcut, hloc⟩ := ihx h.2.2.2.2.1 htop hcx hfx
        refine ⟨out, xs, o, _, hrun, hcut.left ha (habove ha.le), ?_⟩
        rcases out with z | ⟨z, i⟩
        · exact hloc
        · refine ⟨hloc.1, hloc.2.imp_right (fun ⟨hi, hz⟩ ↦ ⟨hi, ?_⟩)⟩
          rw [List.head?_append, hz]
          rfl
    · rw [canoncmp_zero ha, if_pos rfl]
      exact ⟨_, x.toList, some a, y.toList, rfl, ⟨rfl, hbelow ha.ge, habove ha.le, by rintro _ ⟨⟩; exact ha⟩, rfl⟩
    · rw [canoncmp_pos ha, if_neg (by decide)]
      have hlink : s.link (.n a (decide ((1 : ℤ) = 1))) = y.top := h.2.2.2.1
      cases htop : y.top with
      | none =>
        rw [htop] at hlink
        rw [hlink, top_eq_none htop]
        refine ⟨_, x.toList ++ [a], none, [], rfl, ⟨by simp, ?_, by simp, by simp⟩, rfl, by simp⟩
        intro e he
        rcases List.mem_append.mp he with he | he
        · exact hbelow ha.le e he
        · rw [List.mem_singleton.mp he]
          exact ha
      | some u =>
        rw [htop] at hlink
        rw [hlink]
        obtain ⟨out, xs, o, ys, hrun, hcut, hloc⟩ := ihy h.2.2.2.2.2 htop hcy hfy
        refine ⟨out, _, o, ys, hrun, hcut.right ha (hbelow ha.le), ?_⟩
        rcases out with z | ⟨z, i⟩
        · exact hloc
        · refine ⟨hloc.1, hloc.2.imp_left (fun ⟨hi, hz⟩ ↦ ⟨hi, ?_⟩)⟩
          rw [List.getLast?_append, List.getLast?_cons, hz]
          rfl

/-- What `searchavl` returns when the nodes fall into `xs`, `o` and `ys` around the key. -/
def searched (xs : List Ptr) (o : Option Ptr) (ys : List Ptr) (neighbor : ℤ) : Option Ptr :=
  match o with
  | some z => some z
  | none => if neighbor = 0 then none else if neighbor < 0 then xs.getLast? else ys.head?

theorem searchavl_spec {cmp : Ptr → Ptr → ℤ} {s : State} {t : Tree} {fuel : ℕ} (r : Ptr) (nb : ℤ)
    (h : At s .root none t) (hord : AvlTree.Ordered (cmp r) t.toList) (hfuel : t.height < fuel) :
    ∃ xs o ys, AvlTree.Cut (cmp r) t.toList xs o ys ∧ searchavl cmp fuel s r nb = some (searched xs o ys nb) := by
  cases htop : t.top with
  | none =>
    rw [top_eq_none htop]
    refine ⟨[], none, [], ⟨rfl, by simp, by simp, by simp⟩, ?_⟩
    simp [searchavl, h.link, htop, lookupavl_, searched]
  | some c =>
    obtain ⟨out, xs, o, ys, hrun, hcut, hloc⟩ := lookuploop_spec h.repr htop hord hfuel.le
    refine ⟨xs, o, ys, hcut, ?_⟩
    have heq := hcut.eq
    simp only [searchavl, h.link, htop, lookupavl_, hrun, Option.bind_eq_bind, Option.bind_some]
    rcases out with z | ⟨z, i⟩
    · rw [show o = some z from hloc]
      rfl
    · obtain ⟨rfl, hz⟩ := hloc
      simp only [searched]
      by_cases hnb : nb = 0
      · simp [hnb]
      rw [if_neg hnb, if_neg hnb]
      rcases hz with ⟨rfl, hz⟩ | ⟨rfl, hz⟩
      · obtain ⟨zs, rfl⟩ := List.getLast?_eq_some_iff.mp hz
        have hsucc : findsuccessor fuel s (some z) = some ys.head? := by
          have hsplit : along true t = ys.reverse ++ z :: zs.reverse := by simp [along, heq]
          rw [findsuccessor, neighbor_root h hsplit hfuel, List.getLast?_reverse]
        by_cases hneg : nb < 0
        · rw [if_pos hneg, if_pos hneg, if_pos (by decide), hz]
          rfl
        · rw [if_neg hneg, if_neg hneg, if_neg (by decide), hsucc]
      · obtain ⟨zs, rfl⟩ := List.head?_eq_some_iff.mp hz
        have hpred : findpredecessor fuel s (some z) = some xs.getLast? := by
          have hsplit : along false t = xs ++ z :: zs := by simp [along, heq]
          rw [findpredecessor, neighbor_root h hsplit hfuel]
        by_cases hneg : nb < 0
        · rw [if_pos hneg, if_pos hneg, if_neg (by decide), hpred]
        · rw [if_neg hneg, if_neg hneg, if_pos (by decide)]
          rfl

end Petele.Avl
