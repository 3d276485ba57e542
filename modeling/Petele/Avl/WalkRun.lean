import Petele.Avl.Walks

namespace Petele.Avl

open Lib

variable {K : Type} [LinearOrder K]

/-! ### What every call preserves -/

/-- The tree represents the map `m`, its nodes are those in use, and each walk stands on one of
them or beside the tree. -/
structure Inv (key : Ptr → K) (ss : Session K) (t : Tree) (m : K → Option Ptr) : Prop where
  tree : Represents key ss.tree t m
  live : ∀ a, ss.live a = true ↔ a ∈ t.toList
  walks : List.Forall₂ (Stands key t.toList) ss.tree.walks ss.last

/-- The node that an insertion replaces is not one that a walk stands on, and the inserted node is
not in use. -/
def Spares (key : Ptr → K) (ss : Session K) : Call → Prop
  | .insert new => ss.live new = false ∧
      ∀ a, ss.live a = true → key a = key new → ∀ w ∈ ss.tree.walks, w.node ≠ some a
  | _ => True

theorem forall₂_set {α β : Type} {R : α → β → Prop} {l₁ : List α} {l₂ : List β} {x : α} {y : β}
    (h : List.Forall₂ R l₁ l₂) (i : ℕ) (hxy : R x y) : List.Forall₂ R (l₁.set i x) (l₂.set i y) := by
  induction h generalizing i with
  | nil => exact .nil
  | cons hab hrest ih =>
    cases i with
    | zero => exact .cons hxy hrest
    | succ i => exact .cons hab (ih i)

theorem forall₂_getElem {α β : Type} {R : α → β → Prop} {l₁ : List α} {l₂ : List β} {x : α} {i : ℕ}
    (h : List.Forall₂ R l₁ l₂) (hx : l₁[i]? = some x) : ∃ y, l₂[i]? = some y ∧ R x y := by
  induction h generalizing i with
  | nil => cases hx
  | @cons a b l₁ l₂ hab hrest ih =>
    cases i with
    | zero =>
      cases hx
      exact ⟨b, rfl, hab⟩
    | succ i => exact ih hx

section

variable {key : Ptr → K} {cmp : Ptr → Ptr → ℤ} {s : State} {ss ss' : Session K} {t : Tree} {m : K → Option Ptr}
  {fuel : ℕ} {o : Option Ptr}

theorem Represents.mem (h : Represents key s t m) {a : Ptr} : a ∈ t.toList ↔ m (key a) = some a := by
  rw [h.contents]
  simp

theorem Represents.setWalks (h : Represents key s t m) (ws : List Avlwalk) : Represents key (s.setWalks ws) t m :=
  ⟨h.at_root.setWalks ws, h.balanced, h.sorted, h.contents⟩

/-- The nodes split at one of them. -/
theorem Represents.neighbors (h : Represents key s t m) (hfuel : t.height < fuel) {a : Ptr} (ha : a ∈ t.toList) :
    ∃ p n, neighbor false fuel s (some a) = some p ∧ neighbor true fuel s (some a) = some n ∧
      IsPredecessor key t.toList (key a) p ∧ IsSuccessor key t.toList (key a) n := by
  obtain ⟨xs, ys, hsplit⟩ := List.append_of_mem ha
  have hsorted := h.sorted
  rw [hsplit] at hsorted
  obtain ⟨-, hright, hcross⟩ := List.pairwise_append.mp hsorted
  have hbelow : ∀ x ∈ xs, key x < key a := fun x hx ↦ hcross x hx a (by simp)
  have habove : ∀ y ∈ ys, key a < key y := (List.pairwise_cons.mp hright).1
  refine ⟨xs.getLast?, ys.head?, ?_, ?_, ?_, ?_⟩
  · have halong : along false t = xs ++ a :: ys := hsplit
    exact neighbor_root h.at_root halong hfuel
  · have halong : along true t = ys.reverse ++ a :: xs.reverse := by simp [along, hsplit]
    rw [neighbor_root h.at_root halong hfuel, List.getLast?_reverse]
  · rw [hsplit]
    refine isPredecessor_getLast hsorted hbelow (fun y hy ↦ ?_)
    rcases List.mem_cons.mp hy with rfl | hy
    · exact le_rfl
    · exact (habove y hy).le
  · rw [List.append_cons] at hsorted hsplit
    rw [hsplit]
    refine isSuccessor_head hsorted (fun x hx ↦ ?_) habove
    rcases List.mem_append.mp hx with hx | hx
    · exact (hbelow x hx).le
    · rw [List.mem_singleton.mp hx]

theorem walkdel_patch (h : Represents key s t m) (hfuel : t.height < fuel) {a : Ptr} (ha : a ∈ t.toList) :
    ∃ p, walkdel fuel s (some a) = some (s.setWalks (s.walks.map (patch a p))) ∧
      IsPredecessor key t.toList (key a) p := by
  obtain ⟨p, n, hpred, -, hbefore, -⟩ := h.neighbors hfuel ha
  refine ⟨p, ?_, hbefore⟩
  simp only [walkdel, findpredecessor, hpred, Option.bind_eq_bind, Option.bind_some]
  rfl

theorem Inv.closed (h : Inv key ss t m) : Closed ss.live ss.tree := h.tree.at_root.closed h.live

theorem Inv.insert (h : Inv key ss t m) (hcmp : Compares cmp key) (hfuel : t.height < fuel) {new : Ptr}
    (hspares : Spares key ss (.insert new)) :
    ∃ ss' o t' m', call cmp key fuel ss (.insert new) = some (ss', o) ∧ Inv key ss' t' m' ∧
      t'.toList.length ≤ t.toList.length + 1 := by
  obtain ⟨hnew, hspares⟩ := hspares
  obtain ⟨s', t', hrun, htree, hlen, hwalks⟩ := h.tree.insert hcmp hfuel new
  have hmem (a : Ptr) : a ∈ t'.toList ↔ a = new ∨ key a ≠ key new ∧ a ∈ t.toList := by
    rw [htree.mem, update, Function.update_apply, h.tree.mem]
    by_cases hkey : key a = key new
    · rw [if_pos hkey]
      simp [hkey, eq_comm]
    · rw [if_neg hkey]
      have hne : a ≠ new := fun heq ↦ hkey (by rw [heq])
      simp [hkey, hne]
  refine ⟨⟨s', freed (Function.update ss.live new true) (m (key new)), ss.last⟩, m (key new), t', _, ?_,
    ⟨htree, fun a ↦ ?_, ?_⟩, hlen⟩
  · simp only [call, hrun, Option.bind_eq_bind, Option.bind_some]
    rfl
  · rw [hmem]
    dsimp only
    cases hold : m (key new) with
    | none =>
      rw [freed, Function.update_apply]
      by_cases hanew : a = new
      · simp [hanew]
      · rw [if_neg hanew, h.live, h.tree.mem]
        constructor
        · intro ha
          refine .inr ⟨fun hkey ↦ ?_, ha⟩
          rw [hkey, hold] at ha
          cases ha
        · exact fun ha ↦ (ha.resolve_left hanew).2
    | some z =>
      obtain ⟨hz, hkz⟩ := (h.tree.contents _ _).mp hold
      have hznew : z ≠ new := by
        rintro rfl
        rw [← h.live, hnew] at hz
        cases hz
      rw [freed, Function.update_apply, Function.update_apply]
      by_cases haz : a = z
      · rw [if_pos haz, haz]
        simp [hkz, hznew]
      · rw [if_neg haz]
        by_cases hanew : a = new
        · simp [hanew]
        · rw [if_neg hanew, h.live, h.tree.mem]
          constructor
          · intro ha
            refine .inr ⟨fun hkey ↦ ?_, ha⟩
            rw [hkey, hold] at ha
            exact haz (Option.some.inj ha).symm
          · exact fun ha ↦ (ha.resolve_left hanew).2
  · dsimp only
    rw [hwalks]
    have hboth : List.Forall₂ (fun w l ↦ w ∈ ss.tree.walks ∧ Stands key t.toList w l) ss.tree.walks ss.last :=
      (List.forall₂_and_left _ _).mpr ⟨fun w hw ↦ hw, h.walks⟩
    refine hboth.imp (fun w l hw ↦ hw.2.mono (fun a ha hnode ↦ (hmem a).mpr (.inr ⟨fun hkey ↦ ?_, ha⟩)))
    exact hspares a ((h.live a).mpr ha) hkey w hw.1 hnode

theorem Inv.delete (h : Inv key ss t m) (hcmp : Compares cmp key) (hfuel : t.height < fuel) (k : Ptr) :
    ∃ ss' o t' m', call cmp key fuel ss (.delete k) = some (ss', o) ∧ Inv key ss' t' m' ∧
      t'.toList.length ≤ t.toList.length + 1 := by
  obtain ⟨s', t', hrun, htree, hlen, hwarned⟩ := h.tree.delete hcmp hfuel k
  have hmem (a : Ptr) : a ∈ t'.toList ↔ key a ≠ key k ∧ a ∈ t.toList := by
    rw [htree.mem, update, Function.update_apply, h.tree.mem]
    by_cases hkey : key a = key k <;> simp [hkey]
  refine ⟨⟨s', freed ss.live (m (key k)), ss.last⟩, m (key k), t', _, ?_, ⟨htree, fun a ↦ ?_, ?_⟩, hlen⟩
  · simp only [call, hrun, Option.bind_eq_bind, Option.bind_some]
    rfl
  · rw [hmem]
    dsimp only
    cases hold : m (key k) with
    | none =>
      rw [freed, h.live, h.tree.mem]
      refine ⟨fun ha ↦ ⟨fun hkey ↦ ?_, ha⟩, fun ha ↦ ha.2⟩
      rw [hkey, hold] at ha
      cases ha
    | some z =>
      obtain ⟨hz, hkz⟩ := (h.tree.contents _ _).mp hold
      rw [freed, Function.update_apply]
      by_cases haz : a = z
      · simp [haz, hkz]
      · rw [if_neg haz, h.live, h.tree.mem]
        refine ⟨fun ha ↦ ⟨fun hkey ↦ ?_, ha⟩, fun ha ↦ ha.2⟩
        rw [hkey, hold] at ha
        exact haz (Option.some.inj ha).symm
  · cases hold : m (key k) with
    | none =>
      rw [hold] at hwarned
      have hsame : s'.walks = ss.tree.walks := hwarned
      dsimp only
      rw [hsame]
      refine h.walks.imp (fun w l hw ↦ hw.mono (fun a ha _ ↦ (hmem a).mpr ⟨fun hkey ↦ ?_, ha⟩))
      rw [h.tree.mem, hkey, hold] at ha
      cases ha
    | some z =>
      obtain ⟨hz, hkz⟩ := (h.tree.contents _ _).mp hold
      rw [hold] at hwarned
      obtain ⟨p, hdel, hp⟩ := walkdel_patch h.tree hfuel hz
      have hwalks : s'.walks = ss.tree.walks.map (patch z p) :=
        congrArg State.walks (Option.some.inj (Eq.trans (Eq.symm hwarned) hdel))
      dsimp only
      rw [hwalks, List.forall₂_map_left_iff]
      refine h.walks.imp (fun w l hw ↦ hw.patch hp (fun a ha hne ↦ (hmem a).mpr ⟨fun hkey ↦ hne ?_, ha⟩))
      rw [h.tree.mem, hkey, hold] at ha
      exact (Option.some.inj ha).symm

theorem Inv.outermost (h : Inv key ss t m) (hfuel : t.height < fuel) :
    outermost ss.live false fuel ss.tree = some t.toList.head? ∧
      outermost ss.live true fuel ss.tree = some t.toList.getLast? := by
  have hlink := h.tree.at_root.link
  simp only [Avl.outermost, hlink]
  cases htop : t.top with
  | none =>
    rw [top_eq_none htop]
    exact ⟨rfl, rfl⟩
  | some c =>
    have hc : ss.live c = true := (h.live c).mpr (top_mem htop)
    obtain ⟨z, hz, hlast⟩ := @descend_spec false _ _ _ _ fuel h.tree.at_root.repr htop hfuel.le
    obtain ⟨y, hy, hfirst⟩ := @descend_spec true _ _ _ _ fuel h.tree.at_root.repr htop hfuel.le
    have hhead : t.toList.head? = some y := by
      rw [← List.getLast?_reverse]
      exact hfirst
    have hlast' : t.toList.getLast? = some z := hlast
    dsimp only
    rw [descendat_eq h.closed hc, descendat_eq h.closed hc]
    constructor
    · rw [show descend false fuel ss.tree c = some y from hy, hhead]
      rfl
    · rw [show descend true fuel ss.tree c = some z from hz, hlast']
      rfl

theorem isNext_head (h : t.toList.Pairwise (fun a b ↦ key a < key b)) : IsNext key t.toList none t.toList.head? := by
  have hall (x : K) : Above none x := by simp [Above]
  refine ⟨fun z hz ↦ ?_, fun hnone a ha ↦ ?_⟩
  · obtain ⟨zs, hzs⟩ := List.head?_eq_some_iff.mp hz
    rw [hzs] at h ⊢
    refine ⟨by simp, hall _, fun a ha _ ↦ ?_⟩
    rcases List.mem_cons.mp ha with rfl | ha
    · exact le_rfl
    · exact ((List.pairwise_cons.mp h).1 a ha).le
  · rw [List.head?_eq_none_iff.mp hnone] at ha
    cases ha

theorem isPrev_getLast (h : t.toList.Pairwise (fun a b ↦ key a < key b)) :
    IsPrev key t.toList none t.toList.getLast? := by
  have hall (x : K) : Below none x := by simp [Below]
  refine ⟨fun z hz ↦ ?_, fun hnone a ha ↦ ?_⟩
  · obtain ⟨zs, hzs⟩ := List.getLast?_eq_some_iff.mp hz
    rw [hzs] at h ⊢
    refine ⟨by simp, hall _, fun a ha _ ↦ ?_⟩
    rcases List.mem_append.mp ha with ha | ha
    · exact ((List.pairwise_append.mp h).2.2 a ha z (by simp)).le
    · rw [List.mem_singleton.mp ha]
  · rw [List.getLast?_eq_none_iff.mp hnone] at ha
    cases ha

/-- A walk that stands on a node or has yet to start returns the node after that. -/
theorem Inv.avlnext (h : Inv key ss t m) (hfuel : t.height < fuel) {i : ℕ} {w : Avlwalk} {l : Option K}
    (hw : ss.tree.walks[i]? = some w) (hstands : Stands key t.toList w l) (hended : ¬ (w.started = true ∧ w.node = none)) :
    ∃ o, avlnext ss.live fuel ss.tree i = some (ss.tree.setWalk i ⟨true, w.moved, o⟩, o) ∧
      IsNext key t.toList (w.node.map key) o := by
  have hstart (hs : w.started = false) :
      Avl.avlnext ss.live fuel ss.tree i =
        some (ss.tree.setWalk i ⟨true, w.moved, t.toList.head?⟩, t.toList.head?) := by
    simp only [Avl.avlnext, hw, Option.bind_eq_bind, Option.bind_some, hs, if_true, (h.outermost hfuel).1]
    rfl
  cases hstands with
  | fresh => exact ⟨_, hstart rfl, isNext_head h.tree.sorted⟩
  | reset k => exact ⟨_, hstart rfl, isNext_head h.tree.sorted⟩
  | ended moved => exact absurd ⟨rfl, rfl⟩ hended
  | @on moved a k hmem hle hat =>
    obtain ⟨p, n, -, hnext, -, hsucc⟩ := h.tree.neighbors hfuel hmem
    rw [← neighborat_eq h.closed ((h.live a).mpr hmem)] at hnext
    have hne : n ≠ some a := fun heq ↦ lt_irrefl _ (hsucc.1 a heq).2.1
    refine ⟨n, ?_, isNext_some.mpr hsucc⟩
    simp only [Avl.avlnext, hw, Option.bind_eq_bind, Option.bind_some, hnext]
    rw [if_neg (by simp), if_neg hne]
    rfl

theorem avlnext_ended {live : Ptr → Bool} {i : ℕ} {w : Avlwalk} (hw : s.walks[i]? = some w)
    (hended : w.started = true ∧ w.node = none) : Avl.avlnext live fuel s i = none := by
  simp only [Avl.avlnext, hw, Option.bind_eq_bind, Option.bind_some, hended.1, hended.2, neighborat]
  rfl

/-- What `avlprev` returns in each state of a walk. -/
def Steps (key : Ptr → K) (nodes : List Ptr) (w : Avlwalk) (o : Option Ptr) : Prop :=
  if w.started = false then IsPrev key nodes none o
  else if w.moved then o = w.node
  else IsPrev key nodes (w.node.map key) o

theorem Inv.avlprev (h : Inv key ss t m) (hfuel : t.height < fuel) {i : ℕ} {w : Avlwalk} {l : Option K}
    (hw : ss.tree.walks[i]? = some w) (hstands : Stands key t.toList w l)
    (hended : ¬ (w.started = true ∧ w.moved = false ∧ w.node = none)) :
    ∃ o moved, avlprev ss.live fuel ss.tree i = some (ss.tree.setWalk i ⟨true, moved, o⟩, o) ∧
      Steps key t.toList w o ∧ ∀ z, o = some z → z ∈ t.toList := by
  have hlast := isPrev_getLast h.tree.sorted
  have hstart (hs : w.started = false) :
      Avl.avlprev ss.live fuel ss.tree i =
        some (ss.tree.setWalk i ⟨true, w.moved, t.toList.getLast?⟩, t.toList.getLast?) := by
    simp only [Avl.avlprev, hw, Option.bind_eq_bind, Option.bind_some, hs, if_true, (h.outermost hfuel).2]
    rfl
  have hback (hs : w.started = true) (hm : w.moved = true) :
      Avl.avlprev ss.live fuel ss.tree i = some (ss.tree.setWalk i ⟨true, false, w.node⟩, w.node) := by
    simp only [Avl.avlprev, hw, Option.bind_eq_bind, Option.bind_some, hs, hm, Bool.true_eq_false, if_false, if_true]
    rfl
  cases hstands with
  | fresh => exact ⟨_, _, hstart rfl, hlast, fun z hz ↦ (hlast.1 z hz).1⟩
  | reset k => exact ⟨_, _, hstart rfl, hlast, fun z hz ↦ (hlast.1 z hz).1⟩
  | ended moved =>
    cases moved with
    | false => exact absurd ⟨rfl, rfl, rfl⟩ hended
    | true => exact ⟨_, _, hback rfl rfl, rfl, by simp⟩
  | @on moved a k hmem hle hat =>
    cases moved with
    | true => exact ⟨_, _, hback rfl rfl, rfl, fun z hz ↦ Option.some.inj hz ▸ hmem⟩
    | false =>
      obtain ⟨p, n, hprev, -, hpred, -⟩ := h.tree.neighbors hfuel hmem
      rw [← neighborat_eq h.closed ((h.live a).mpr hmem)] at hprev
      have hne : p ≠ some a := fun heq ↦ lt_irrefl _ (hpred.1 a heq).2.1
      refine ⟨p, false, ?_, isPrev_some.mpr hpred, fun z hz ↦ (hpred.1 z hz).1⟩
      simp only [Avl.avlprev, hw, Option.bind_eq_bind, Option.bind_some, hprev]
      rw [if_neg (by simp), if_neg (by simp), if_neg hne]
      rfl

theorem avlprev_ended {live : Ptr → Bool} {i : ℕ} {w : Avlwalk} (hw : s.walks[i]? = some w)
    (hended : w.started = true ∧ w.moved = false ∧ w.node = none) : Avl.avlprev live fuel s i = none := by
  simp only [Avl.avlprev, hw, Option.bind_eq_bind, Option.bind_some, hended.1, hended.2, neighborat]
  rfl

omit [LinearOrder K] in
theorem returned_eq {last : List (Option K)} {i : ℕ} {l : Option K} (hl : last[i]? = some l) (o : Option Ptr) :
    returned key last i o = last.set i (o.elim l (fun z ↦ some (key z))) := by
  cases o with
  | none =>
    obtain ⟨hi, rfl⟩ := List.getElem?_eq_some_iff.mp hl
    exact (List.set_getElem_self hi).symm
  | some z => rfl

/-- A walk has returned one of the nodes, or nil. -/
theorem Inv.arrive (h : Inv key ss t m) {i : ℕ} {l : Option K} (hl : ss.last[i]? = some l) (moved : Bool)
    (ho : ∀ z, o = some z → z ∈ t.toList) :
    Inv key ⟨ss.tree.setWalk i ⟨true, moved, o⟩, ss.live, returned key ss.last i o⟩ t m := by
  refine ⟨h.tree.setWalks _, h.live, ?_⟩
  rw [returned_eq hl]
  exact forall₂_set h.walks i (.arrive moved ho)

theorem Inv.step (h : Inv key ss t m) (hcmp : Compares cmp key) (hfuel : t.height < fuel) {c : Call}
    (hspares : Spares key ss c) (hcall : call cmp key fuel ss c = some (ss', o)) :
    ∃ t' m', Inv key ss' t' m' ∧ t'.toList.length ≤ t.toList.length + 1 := by
  have hsame {ss' : Session K} (h' : Inv key ss' t m) :
      ∃ t' m', Inv key ss' t' m' ∧ t'.toList.length ≤ t.toList.length + 1 := ⟨t, m, h', Nat.le_succ _⟩
  have hwalk {i : ℕ} {s' : State} {o : Option Ptr} {w : Avlwalk} (hw : ss.tree.walks[i]? = some w)
      (hrun : ∃ moved, s' = ss.tree.setWalk i ⟨true, moved, o⟩) (ho : ∀ z, o = some z → z ∈ t.toList) :
      ∃ t' m', Inv key ⟨s', ss.live, returned key ss.last i o⟩ t' m' ∧ t'.toList.length ≤ t.toList.length + 1 := by
    obtain ⟨l, hl, -⟩ := forall₂_getElem h.walks hw
    obtain ⟨moved, rfl⟩ := hrun
    exact hsame (h.arrive hl moved ho)
  cases c with
  | insert new =>
    obtain ⟨ss₁, o₁, t', m', hrun, h', hlen⟩ := h.insert hcmp hfuel hspares
    rw [hrun] at hcall
    cases hcall
    exact ⟨t', m', h', hlen⟩
  | delete k =>
    obtain ⟨ss₁, o₁, t', m', hrun, h', hlen⟩ := h.delete hcmp hfuel k
    rw [hrun] at hcall
    cases hcall
    exact ⟨t', m', h', hlen⟩
  | walk =>
    cases hcall
    exact hsame ⟨h.tree.setWalks _, h.live, .cons .fresh h.walks⟩
  | endwalk i =>
    cases hcall
    refine hsame ⟨h.tree.setWalks _, h.live, ?_⟩
    simp only [endwalk, State.setWalks, List.eraseIdx_eq_take_drop_succ]
    exact List.rel_append (List.forall₂_take i h.walks) (List.forall₂_drop (i + 1) h.walks)
  | next i =>
    cases hw : ss.tree.walks[i]? with
    | none => simp [call, Avl.avlnext, hw] at hcall
    | some w =>
      by_cases hended : w.started = true ∧ w.node = none
      · simp [call, avlnext_ended hw hended] at hcall
      obtain ⟨l, hl, hstands⟩ := forall₂_getElem h.walks hw
      obtain ⟨n, hrun, hnext⟩ := h.avlnext hfuel hw hstands hended
      simp only [call, hrun, Option.bind_eq_bind, Option.bind_some] at hcall
      cases hcall
      exact hwalk hw ⟨_, rfl⟩ (fun z hz ↦ (hnext.1 z hz).1)
  | prev i =>
    cases hw : ss.tree.walks[i]? with
    | none => simp [call, Avl.avlprev, hw] at hcall
    | some w =>
      by_cases hended : w.started = true ∧ w.moved = false ∧ w.node = none
      · simp [call, avlprev_ended hw hended] at hcall
      obtain ⟨l, hl, hstands⟩ := forall₂_getElem h.walks hw
      obtain ⟨n, moved, hrun, -, hmem⟩ := h.avlprev hfuel hw hstands hended
      simp only [call, hrun, Option.bind_eq_bind, Option.bind_some] at hcall
      cases hcall
      exact hwalk hw ⟨moved, rfl⟩ hmem

/-- What a run preserves. The fuel has to outlast the height of the tree. -/
theorem Inv.runs {P : Session K → Call → Prop} (h : Inv key ss t m) (hcmp : Compares cmp key)
    (hP : ∀ ss c, P ss c → Spares key ss c) {cs : List Call} (hfuel : t.toList.length + cs.length < fuel)
    (hrun : Runs cmp key fuel P ss cs ss') :
    ∃ t' m', Inv key ss' t' m' ∧ t'.toList.length ≤ t.toList.length + cs.length := by
  induction hrun generalizing t m with
  | nil ss => exact ⟨t, m, h, Nat.le_refl _⟩
  | @cons ss ss₁ ss' c cs o hc hcall hrest ih =>
    have hheight := t.height_le_length
    rw [List.length_cons] at hfuel ⊢
    obtain ⟨t₁, m₁, h₁, hlen₁⟩ := h.step hcmp (by omega) (hP ss c hc) hcall
    obtain ⟨t', m', h', hlen'⟩ := ih h₁ (by omega)
    exact ⟨t', m', h', by omega⟩

end

/-! ### Every walk of every run -/

/-- What `mkavltree` returns: no nodes and no walks. -/
structure Made (ss : Session K) : Prop where
  root : ss.tree.link .root = none
  walks : ss.tree.walks = []
  live : ∀ a, ss.live a = false
  last : ss.last = []

/-- The walk has not come to its end, and no node lies above the one it stands on and not above the
key it returned last. -/
def Forward (key : Ptr → K) (live : Ptr → Bool) (w : Avlwalk) (last : Option K) : Prop :=
  ¬ (w.started = true ∧ w.node = none) ∧
    ∀ a, live a = true → Above (w.node.map key) (key a) → Above last (key a)

/-- Not started, with all nodes below the key it returned last; or moved back by a deletion to a node
below that key, with none between; or on a node. -/
def Backward (key : Ptr → K) (live : Ptr → Bool) (w : Avlwalk) (last : Option K) : Prop :=
  if w.started = false then ∀ a, live a = true → Below last (key a)
  else if w.moved then
    (∀ z, w.node = some z → Below last (key z)) ∧
      ∀ a, live a = true → Below last (key a) → ∃ z, w.node = some z ∧ key a ≤ key z
  else w.node ≠ none

/-- No node in use has the key of the inserted one. -/
def Fresh (key : Ptr → K) (ss : Session K) : Call → Prop
  | .insert new => ∀ a, ss.live a = true → key a ≠ key new
  | _ => True

section

variable {key : Ptr → K} {cmp : Ptr → Ptr → ℤ} {ss₀ ss : Session K} {t : Tree} {m : K → Option Ptr} {fuel i : ℕ}
  {w : Avlwalk} {l : Option K} {cs : List Call}

theorem Made.inv (h : Made ss) : Inv key ss .nil (fun _ ↦ none) := by
  refine ⟨⟨⟨h.root, trivial, List.nodup_nil, by simp⟩, trivial, .nil, by simp⟩, fun a ↦ ?_, ?_⟩
  · simp [h.live a]
  · rw [h.walks, h.last]
    exact .nil

omit [LinearOrder K] in
theorem Fresh.spares {c : Call} (h : Fresh key ss c) : Spares key ss c := by
  cases c with
  | insert new =>
    refine ⟨?_, fun a ha hkey ↦ absurd hkey (h a ha)⟩
    rw [Bool.eq_false_iff]
    exact fun hlive ↦ h new hlive rfl
  | _ => trivial

theorem Stands.behind (h : Stands key t.toList w l) (x : K) (hx : Above l x) : Above (w.node.map key) x := by
  cases h with
  | on hmem hle hat =>
    rintro _ ⟨⟩
    exact hle.trans_lt (hx _ rfl)
  | _ => simp [Above]

theorem Inv.next_iff (h : Inv key ss t m) (hfuel : t.height < fuel) (hw : ss.tree.walks[i]? = some w)
    (hstands : Stands key t.toList w l) :
    (∃ ss' o, call cmp key fuel ss (.next i) = some (ss', o) ∧ IsNext key t.toList l o) ↔
      Forward key ss.live w l := by
  by_cases hended : w.started = true ∧ w.node = none
  · simp [call, avlnext_ended hw hended, Forward, hended]
  obtain ⟨n, hrun, hnext⟩ := h.avlnext hfuel hw hstands hended
  have hiff := hnext.iff hstands.behind
  have hright : (∃ ss' o, call cmp key fuel ss (.next i) = some (ss', o) ∧ IsNext key t.toList l o) ↔
      IsNext key t.toList l n := by
    simp only [call, hrun, Option.bind_eq_bind, Option.bind_some]
    constructor
    · rintro ⟨ss', o, heq, ho⟩
      cases heq
      exact ho
    · exact fun hn ↦ ⟨_, n, rfl, hn⟩
  rw [hright, hiff, Forward, and_iff_right hended]
  simp only [h.live]

theorem Steps.iff {o : Option Ptr} (h : Steps key t.toList w o) (hstands : Stands key t.toList w l)
    (hlive : ∀ a, ss.live a = true ↔ a ∈ t.toList)
    (hended : ¬ (w.started = true ∧ w.moved = false ∧ w.node = none)) :
    IsPrev key t.toList l o ↔ Backward key ss.live w l := by
  simp only [Backward, hlive]
  rw [Steps] at h
  by_cases hstarted : w.started = false
  · rw [if_pos hstarted] at h ⊢
    exact h.iff
  rw [if_neg hstarted] at h ⊢
  by_cases hmoved : w.moved = true
  · rw [if_pos hmoved] at h ⊢
    subst h
    constructor
    · intro hprev
      refine ⟨fun z hz ↦ (hprev.1 z hz).2.1, fun a ha hbelow ↦ ?_⟩
      cases hnode : w.node with
      | none => exact absurd hbelow (hprev.2 hnode a ha)
      | some z => exact ⟨z, rfl, (hprev.1 z hnode).2.2 a ha hbelow⟩
    · rintro ⟨hbelow, hmost⟩
      refine ⟨fun z hz ↦ ⟨?_, hbelow z hz, fun a ha hlt ↦ ?_⟩, fun hnone a ha hlt ↦ ?_⟩
      · cases hstands with
        | on hmem hle hat => exact Option.some.inj hz ▸ hmem
        | _ => cases hz
      · obtain ⟨y, hy, hle⟩ := hmost a ha hlt
        rw [hz] at hy
        exact Option.some.inj hy ▸ hle
      · obtain ⟨y, hy, -⟩ := hmost a ha hlt
        rw [hnone] at hy
        cases hy
  · rw [if_neg hmoved] at h ⊢
    rw [Bool.not_eq_false] at hstarted
    rw [Bool.not_eq_true] at hmoved
    have hnode : w.node ≠ none := fun hnone ↦ hended ⟨hstarted, hmoved, hnone⟩
    refine ⟨fun _ ↦ hnode, fun _ ↦ ?_⟩
    cases hstands with
    | on hmem hle hat => exact hat hmoved ▸ h
    | _ => exact absurd rfl hnode

theorem Inv.prev_iff (h : Inv key ss t m) (hfuel : t.height < fuel) (hw : ss.tree.walks[i]? = some w)
    (hstands : Stands key t.toList w l) :
    (∃ ss' o, call cmp key fuel ss (.prev i) = some (ss', o) ∧ IsPrev key t.toList l o) ↔
      Backward key ss.live w l := by
  by_cases hended : w.started = true ∧ w.moved = false ∧ w.node = none
  · simp [call, avlprev_ended hw hended, Backward, hended]
  obtain ⟨p, moved, hrun, hsteps, -⟩ := h.avlprev hfuel hw hstands hended
  have hright : (∃ ss' o, call cmp key fuel ss (.prev i) = some (ss', o) ∧ IsPrev key t.toList l o) ↔
      IsPrev key t.toList l p := by
    simp only [call, hrun, Option.bind_eq_bind, Option.bind_some]
    constructor
    · rintro ⟨ss', o, heq, ho⟩
      cases heq
      exact ho
    · exact fun hp ↦ ⟨_, p, rfl, hp⟩
  rw [hright]
  exact hsteps.iff hstands h.live hended

/-- After every run of calls in which no insertion replaces a node that a walk stands on, the nodes of
the tree are those in use, the next insertion and the next deletion run, and `avlnext` returns the
node with the least key above the last one exactly if the walk is `Forward`. -/
theorem avlnext_exact (hcmp : Compares cmp key) (hmade : Made ss₀) (hfuel : cs.length < fuel)
    (hrun : Runs cmp key fuel (Spares key) ss₀ cs ss) :
    ∃ t m, Represents key ss.tree t m ∧ (∀ a, ss.live a = true ↔ a ∈ t.toList) ∧
      (∀ new, Spares key ss (.insert new) → ∃ r, call cmp key fuel ss (.insert new) = some r) ∧
      (∀ k, ∃ r, call cmp key fuel ss (.delete k) = some r) ∧
      ∀ i w, ss.tree.walks[i]? = some w → ∃ l, ss.last[i]? = some l ∧
        ((∃ ss' o, call cmp key fuel ss (.next i) = some (ss', o) ∧ IsNext key t.toList l o) ↔
          Forward key ss.live w l) := by
  have hinv : Inv key ss₀ .nil (fun _ ↦ none) := hmade.inv
  obtain ⟨t, m, h, hlen⟩ := hinv.runs hcmp (fun _ _ hc ↦ hc) (by simpa using hfuel) hrun
  have hheight : t.height < fuel := by
    have := t.height_le_length
    simp only [AvlTree.toList_nil, List.length_nil] at hlen
    omega
  refine ⟨t, m, h.tree, h.live, fun new hnew ↦ ?_, fun k ↦ ?_, fun i w hw ↦ ?_⟩
  · obtain ⟨ss', o, -, -, hcall, -⟩ := h.insert hcmp hheight hnew
    exact ⟨_, hcall⟩
  · obtain ⟨ss', o, -, -, hcall, -⟩ := h.delete hcmp hheight k
    exact ⟨_, hcall⟩
  · obtain ⟨l, hl, hstands⟩ := forall₂_getElem h.walks hw
    exact ⟨l, hl, h.next_iff hheight hw hstands⟩

/-- No nodes, no walks. -/
def nothing : Session ℕ := ⟨noNodes, fun _ ↦ false, []⟩

theorem nothing_made : Made nothing := ⟨rfl, rfl, fun _ ↦ rfl, rfl⟩

/-- The walk has returned 3, and 5 is next. -/
theorem avlnext_exact_addr :
    ∃ ss, Runs cmpAddr id 5 (Spares id) nothing [.insert 3, .insert 5, .walk, .next 0] ss ∧
      ss.last = [some 3] ∧ ∃ t m, Represents id ss.tree t m ∧
        ∃ ss' o, call cmpAddr id 5 ss (.next 0) = some (ss', o) ∧ IsNext id t.toList (some 3) o := by
  have hrun : Runs cmpAddr id 5 (Spares id) nothing [.insert 3, .insert 5, .walk, .next 0] _ :=
    .cons ⟨rfl, fun a ha ↦ by cases ha⟩ rfl (.cons ⟨rfl, by simp [nothing, noNodes]⟩ rfl
      (.cons trivial rfl (.cons trivial rfl (.nil _))))
  refine ⟨_, hrun, rfl, ?_⟩
  obtain ⟨t, m, htree, hlive, -, -, hwalks⟩ := avlnext_exact compares_addr nothing_made (by decide) hrun
  refine ⟨t, m, htree, ?_⟩
  obtain ⟨l, hl, hiff⟩ := hwalks 0 ⟨true, false, some 3⟩ rfl
  obtain rfl : some 3 = l := Option.some.inj hl
  refine hiff.mpr ⟨by simp, fun a ha habove ↦ habove⟩

/-- Two nodes for each key. -/
def cmpHalf (a b : Ptr) : ℤ := (a / 2 : ℕ) - (b / 2 : ℕ)

/-- The node that the walk stands on is replaced and freed, and `avlnext` reads it. -/
theorem walk_dangles :
    ∃ ss, Runs cmpHalf (· / 2) 5 (fun _ _ ↦ True) nothing [.insert 10, .walk, .next 0, .insert 11] ss ∧
      ss.tree.walks = [⟨true, false, some 10⟩] ∧ ss.live 10 = false ∧
      call cmpHalf (· / 2) 5 ss (.next 0) = none :=
  ⟨_, .cons trivial rfl (.cons trivial rfl (.cons trivial rfl (.cons trivial rfl (.nil _)))), rfl, rfl, rfl⟩

/-- After every run of calls that insert fresh keys only, `avlprev` returns the node with the greatest
key below the last one exactly if the walk is `Backward`. -/
theorem avlprev_exact (hcmp : Compares cmp key) (hmade : Made ss₀) (hfuel : cs.length < fuel)
    (hrun : Runs cmp key fuel (Fresh key) ss₀ cs ss) :
    ∃ t m, Represents key ss.tree t m ∧ (∀ a, ss.live a = true ↔ a ∈ t.toList) ∧
      ∀ i w, ss.tree.walks[i]? = some w → ∃ l, ss.last[i]? = some l ∧
        ((∃ ss' o, call cmp key fuel ss (.prev i) = some (ss', o) ∧ IsPrev key t.toList l o) ↔
          Backward key ss.live w l) := by
  have hinv : Inv key ss₀ .nil (fun _ ↦ none) := hmade.inv
  obtain ⟨t, m, h, hlen⟩ := hinv.runs hcmp (fun _ _ hc ↦ hc.spares) (by simpa using hfuel) hrun
  have hheight : t.height < fuel := by
    have := t.height_le_length
    simp only [AvlTree.toList_nil, List.length_nil] at hlen
    omega
  refine ⟨t, m, h.tree, h.live, fun i w hw ↦ ?_⟩
  obtain ⟨l, hl, hstands⟩ := forall₂_getElem h.walks hw
  exact ⟨l, hl, h.prev_iff hheight hw hstands⟩

/-- One node in use, and another key. -/
theorem live_one {a b : Ptr} (hab : a ≠ b) (x : Ptr) (hx : freed (Function.update (fun _ ↦ false) a true) none x = true) :
    id x ≠ id b := by
  rw [freed, Function.update_apply] at hx
  split at hx
  case isTrue heq => exact heq ▸ hab
  · cases hx

/-- The walk has returned 5, and 3 is before it. -/
theorem avlprev_exact_addr :
    ∃ ss, Runs cmpAddr id 5 (Fresh id) nothing [.insert 3, .insert 5, .walk, .prev 0] ss ∧
      ss.last = [some 5] ∧ ∃ t m, Represents id ss.tree t m ∧
        ∃ ss' o, call cmpAddr id 5 ss (.prev 0) = some (ss', o) ∧ IsPrev id t.toList (some 5) o := by
  have hrun : Runs cmpAddr id 5 (Fresh id) nothing [.insert 3, .insert 5, .walk, .prev 0] _ :=
    .cons (fun a ha ↦ by cases ha) rfl (.cons (live_one (by decide)) rfl
      (.cons trivial rfl (.cons trivial rfl (.nil _))))
  refine ⟨_, hrun, rfl, ?_⟩
  obtain ⟨t, m, htree, hlive, hwalks⟩ := avlprev_exact compares_addr nothing_made (by decide) hrun
  refine ⟨t, m, htree, ?_⟩
  obtain ⟨l, hl, hiff⟩ := hwalks 0 ⟨true, false, some 5⟩ rfl
  obtain rfl : some 5 = l := Option.some.inj hl
  exact hiff.mpr (by simp [Backward])

/-- The least key is deleted under the walk, and `avlprev` goes round to the greatest. -/
theorem walk_wraps :
    ∃ ss ss', Runs cmpAddr id 5 (Fresh id) nothing [.insert 1, .insert 2, .walk, .next 0, .delete 1] ss ∧
      ss.last = [some 1] ∧ call cmpAddr id 5 ss (.prev 0) = some (ss', some 2) := by
  have hrun : Runs cmpAddr id 5 (Fresh id) nothing [.insert 1, .insert 2, .walk, .next 0, .delete 1] _ :=
    .cons (fun a ha ↦ by cases ha) rfl (.cons (live_one (by decide)) rfl
      (.cons trivial rfl (.cons trivial rfl (.cons trivial rfl (.nil _)))))
  exact ⟨_, _, hrun, rfl, rfl⟩

end

end Petele.Avl
