import Petele.Avl.Avl
import Petele.Lib.AvlTree
import Mathlib.Data.List.Nodup

namespace Petele.Avl

open Lib

abbrev Tree := AvlTree Ptr

namespace State

variable (s : State)

@[simp] theorem setLink_link (tp : Loc) (v : Option Ptr) : (s.setLink tp v).link = Function.update s.link tp v := rfl
@[simp] theorem setLink_p (tp : Loc) (v : Option Ptr) : (s.setLink tp v).p = s.p := rfl
@[simp] theorem setLink_bal (tp : Loc) (v : Option Ptr) : (s.setLink tp v).bal = s.bal := rfl
@[simp] theorem setLink_walks (tp : Loc) (v : Option Ptr) : (s.setLink tp v).walks = s.walks := rfl
@[simp] theorem setP_link (a : Ptr) (v : Option Ptr) : (s.setP a v).link = s.link := rfl
@[simp] theorem setP_p (a : Ptr) (v : Option Ptr) : (s.setP a v).p = Function.update s.p a v := rfl
@[simp] theorem setP_bal (a : Ptr) (v : Option Ptr) : (s.setP a v).bal = s.bal := rfl
@[simp] theorem setP_walks (a : Ptr) (v : Option Ptr) : (s.setP a v).walks = s.walks := rfl
@[simp] theorem setBal_link (a : Ptr) (v : ℤ) : (s.setBal a v).link = s.link := rfl
@[simp] theorem setBal_p (a : Ptr) (v : ℤ) : (s.setBal a v).p = s.p := rfl
@[simp] theorem setBal_bal (a : Ptr) (v : ℤ) : (s.setBal a v).bal = Function.update s.bal a v := rfl
@[simp] theorem setBal_walks (a : Ptr) (v : ℤ) : (s.setBal a v).walks = s.walks := rfl

@[simp] theorem adopt_link (x q : Option Ptr) : (s.adopt x q).link = s.link := by cases x <;> rfl
@[simp] theorem adopt_bal (x q : Option Ptr) : (s.adopt x q).bal = s.bal := by cases x <;> rfl
@[simp] theorem adopt_walks (x q : Option Ptr) : (s.adopt x q).walks = s.walks := by cases x <;> rfl

theorem adopt_p (x q : Option Ptr) (a : Ptr) : (s.adopt x q).p a = if x = some a then q else s.p a := by
  cases x with
  | none => rfl
  | some x =>
    simp only [adopt, setP_p, Function.update_apply, Option.some.injEq]
    split <;> split <;> simp_all

end State

/-- The nodes of `t` hold the tree `t`, with `p` as the parent of its top. -/
def Stores (s : State) : Option Ptr → Tree → Prop
  | _, .nil => True
  | p, .node a b l r =>
    s.p a = p ∧ s.bal a = b ∧ s.link (.n a false) = l.top ∧ s.link (.n a true) = r.top ∧
      Stores s (some a) l ∧ Stores s (some a) r

/-- The tree `t` hangs at `tp`, below `p`. -/
structure At (s : State) (tp : Loc) (p : Option Ptr) (t : Tree) : Prop where
  link : s.link tp = t.top
  repr : Stores s p t
  nodup : t.toList.Nodup
  outside : ∀ a ∈ t.toList, ∀ i, tp ≠ .n a i

/-- Only the link `tp` and the nodes `ps` differ. -/
structure Frame (s s' : State) (tp : Loc) (ps : List Ptr) : Prop where
  link : ∀ l, l ≠ tp → (∀ a ∈ ps, ∀ i, l ≠ .n a i) → s'.link l = s.link l
  p : ∀ a, a ∉ ps → s'.p a = s.p a
  bal : ∀ a, a ∉ ps → s'.bal a = s.bal a
  walks : s'.walks = s.walks

theorem Stores.frame {s s' : State} {p : Option Ptr} {t : Tree} (h : Stores s p t)
    (hsame : ∀ a ∈ t.toList, s'.p a = s.p a ∧ s'.bal a = s.bal a ∧ ∀ i, s'.link (.n a i) = s.link (.n a i)) :
    Stores s' p t := by
  induction t generalizing p with
  | nil => trivial
  | node a b l r ihl ihr =>
    obtain ⟨hp, hb, hl, hr, hrl, hrr⟩ := h
    obtain ⟨hp', hb', hlink'⟩ := hsame a (by simp)
    refine ⟨hp'.trans hp, hb'.trans hb, (hlink' false).trans hl, (hlink' true).trans hr, ihl hrl ?_, ihr hrr ?_⟩
    · exact fun x hx ↦ hsame x (by simp [hx])
    · exact fun x hx ↦ hsame x (by simp [hx])

theorem top_mem {t : Tree} {a : Ptr} (h : t.top = some a) : a ∈ t.toList := by
  cases t with
  | nil => cases h
  | node x b l r =>
    cases h
    simp

/-- The same tree below another parent. -/
theorem Stores.adopt {s s' : State} {p q : Option Ptr} {t : Tree} (h : Stores s p t) (hnd : t.toList.Nodup)
    (hsame : ∀ a ∈ t.toList, s'.p a = (if t.top = some a then q else s.p a) ∧ s'.bal a = s.bal a ∧
      ∀ i, s'.link (.n a i) = s.link (.n a i)) : Stores s' q t := by
  cases t with
  | nil => trivial
  | node a b l r =>
    obtain ⟨hp, hb, hl, hr, hrl, hrr⟩ := h
    obtain ⟨hp', hb', hlink'⟩ := hsame a (by simp)
    rw [AvlTree.toList_node, List.nodup_middle, List.nodup_cons, List.mem_append, not_or] at hnd
    refine ⟨by simpa [AvlTree.top] using hp', hb'.trans hb, (hlink' false).trans hl, (hlink' true).trans hr,
      hrl.frame (fun x hx ↦ ?_), hrr.frame (fun x hx ↦ ?_)⟩
    · have h := hsame x (by simp [hx])
      rwa [if_neg (by rintro ⟨⟩; exact hnd.1.1 hx)] at h
    · have h := hsame x (by simp [hx])
      rwa [if_neg (by rintro ⟨⟩; exact hnd.1.2 hx)] at h

theorem max_zero (x : ℤ) : (if x > 0 then x else 0) = max x 0 := by
  split <;> omega

/-- What a rotation of `a` below `c` to the side `i` writes: the subtree `x` of `c` changes hands. -/
structure Rotated (s s' : State) (tp : Loc) (p : Option Ptr) (a c : Ptr) (i : Bool) (x : Option Ptr) (ab cb : ℤ) :
    Prop where
  link : ∀ l, s'.link l = if l = tp then some c else if l = .n c i then some a else if l = .n a (!i) then x
    else s.link l
  p : ∀ y, s'.p y = if y = c then p else if y = a then some c else if x = some y then some a else s.p y
  bal : ∀ y, s'.bal y = if y = c then cb else if y = a then ab else s.bal y
  walks : s'.walks = s.walks

theorem singleleft_eq {s : State} {tp : Loc} {a c : Ptr} (p : Option Ptr) (ha : s.link tp = some a)
    (hc : s.link (.n a true) = some c) :
    ∃ s', singleleft s tp p = some s' ∧ Rotated s s' tp p a c false (s.link (.n c false))
      (-(max (s.bal c) 0 + 1 - s.bal a)) (s.bal c - (max (max (s.bal c) 0 + 1 - s.bal a) 0 + 1)) := by
  refine ⟨_, by simp only [singleleft, ha, hc, Option.bind_eq_bind, Option.bind_some, max_zero]; rfl, ?_⟩
  constructor
  · intro l
    simp [Function.update_apply]
  · intro y
    simp [Function.update_apply, State.adopt_p]
  · intro y
    simp [Function.update_apply]
  · simp

theorem singleright_eq {s : State} {tp : Loc} {a c : Ptr} (p : Option Ptr) (ha : s.link tp = some a)
    (hc : s.link (.n a false) = some c) :
    ∃ s', singleright s tp p = some s' ∧ Rotated s s' tp p a c true (s.link (.n c true))
      (s.bal a + (max (-s.bal c) 0 + 1)) (max (s.bal a + (max (-s.bal c) 0 + 1)) 0 + 1 - -s.bal c) := by
  refine ⟨_, by simp only [singleright, ha, hc, Option.bind_eq_bind, Option.bind_some, max_zero]; rfl, ?_⟩
  constructor
  · intro l
    simp [Function.update_apply]
  · intro y
    simp [Function.update_apply, State.adopt_p]
  · intro y
    simp [Function.update_apply]
  · simp

section Rotated

variable {s s' : State} {tp : Loc} {p : Option Ptr} {a c : Ptr} {i : Bool} {ab cb ab' cb' : ℤ} {x y z : Tree}

theorem Rotated.frame {ps : List Ptr} {t : Option Ptr} (h : Rotated s s' tp p a c i t ab cb) (ha : a ∈ ps) (hc : c ∈ ps)
    (ht : ∀ e, t = some e → e ∈ ps) : Frame s s' tp ps where
  link l hl hps := by rw [h.link, if_neg hl, if_neg (hps c hc i), if_neg (hps a ha (!i))]
  p e he := by
    rw [h.p, if_neg (ne_of_mem_of_not_mem hc he).symm, if_neg (ne_of_mem_of_not_mem ha he).symm,
      if_neg (fun h ↦ he (ht e h))]
  bal e he := by
    rw [h.bal, if_neg (ne_of_mem_of_not_mem hc he).symm, if_neg (ne_of_mem_of_not_mem ha he).symm]
  walks := h.walks

/-- A subtree that stays where it is. -/
theorem Rotated.keep {q : Option Ptr} (h : Rotated s s' tp p a c i y.top ab cb) (hx : Stores s q x)
    (hax : a ∉ x.toList) (hcx : c ∉ x.toList) (hxy : ∀ e ∈ x.toList, e ∉ y.toList)
    (hout : ∀ e ∈ x.toList, ∀ i, tp ≠ .n e i) : Stores s' q x := by
  apply hx.frame
  intro e he
  have hea : e ≠ a := by rintro rfl; exact hax he
  have hec : e ≠ c := by rintro rfl; exact hcx he
  refine ⟨?_, ?_, fun j ↦ ?_⟩
  · rw [h.p, if_neg hec, if_neg hea, if_neg (fun h ↦ hxy e he (top_mem h))]
  · rw [h.bal, if_neg hec, if_neg hea]
  · rw [h.link, if_neg (hout e he j).symm, if_neg (by simp [hec]), if_neg (by simp [hea])]

/-- The subtree that changes hands. -/
theorem Rotated.move {q : Option Ptr} (h : Rotated s s' tp p a c i y.top ab cb) (hy : Stores s q y)
    (hnd : y.toList.Nodup) (hay : a ∉ y.toList) (hcy : c ∉ y.toList) (hout : ∀ e ∈ y.toList, ∀ i, tp ≠ .n e i) :
    Stores s' (some a) y := by
  apply hy.adopt hnd
  intro e he
  have hea : e ≠ a := by rintro rfl; exact hay he
  have hec : e ≠ c := by rintro rfl; exact hcy he
  refine ⟨?_, ?_, fun j ↦ ?_⟩
  · rw [h.p, if_neg hec, if_neg hea]
  · rw [h.bal, if_neg hec, if_neg hea]
  · rw [h.link, if_neg (hout e he j).symm, if_neg (by simp [hec]), if_neg (by simp [hea])]

/-- The parts of a tree that is about to be rotated share nothing. -/
theorem nodup_parts {xs ys zs : List Ptr} (h : (xs ++ a :: (ys ++ c :: zs)).Nodup) :
    a ≠ c ∧ (a ∉ xs ∧ a ∉ ys ∧ a ∉ zs) ∧ (c ∉ xs ∧ c ∉ ys ∧ c ∉ zs) ∧
      (∀ e ∈ xs, e ∉ ys) ∧ (∀ e ∈ zs, e ∉ ys) ∧ ys.Nodup := by
  simp only [List.nodup_append, List.nodup_cons, List.mem_append, List.mem_cons] at h
  grind

theorem Rotated.at_left (h : Rotated s s' tp p a c false y.top ab' cb')
    (hat : At s tp p (.node a ab x (.node c cb y z))) : At s' tp p (.node c cb' (.node a ab' x y) z) := by
  obtain ⟨hlink, ⟨hpa, hba, hal, har, hx, hpc, hbc, hcl, hcr, hy, hz⟩, hnd, hout⟩ := hat
  obtain ⟨hac, ⟨hax, hay, haz⟩, ⟨hcx, hcy, hcz⟩, hxy, hzy, hyy⟩ := nodup_parts hnd
  simp only [AvlTree.toList_node, List.mem_append, List.mem_cons] at hout
  have hta := fun i ↦ hout a (by simp) i
  have htc := fun i ↦ hout c (by simp) i
  refine ⟨by simp [h.link, AvlTree.top], ⟨by simp [h.p], by simp [h.bal], ?_, ?_, ⟨?_, ?_, ?_, ?_,
    h.keep hx hax hcx hxy (fun e he ↦ hout e (by simp [he])),
    h.move hy hyy hay hcy (fun e he ↦ hout e (by simp [he]))⟩,
    h.keep hz haz hcz hzy (fun e he ↦ hout e (by simp [he]))⟩, ?_, ?_⟩
  · rw [h.link, if_neg (htc _).symm, if_pos rfl, AvlTree.top]
  · rw [h.link, if_neg (htc _).symm, if_neg (by simp), if_neg (by simp [hac.symm]), hcr]
  · rw [h.p, if_neg hac, if_pos rfl]
  · rw [h.bal, if_neg hac, if_pos rfl]
  · rw [h.link, if_neg (hta _).symm, if_neg (by simp [hac]), if_neg (by simp), hal]
  · rw [h.link, if_neg (hta _).symm, if_neg (by simp)]
    exact if_pos rfl
  · simpa using hnd
  · simpa [or_assoc, or_comm, or_left_comm] using hout

theorem Rotated.at_right (h : Rotated s s' tp p a c true y.top ab' cb')
    (hat : At s tp p (.node a ab (.node c cb x y) z)) : At s' tp p (.node c cb' x (.node a ab' y z)) := by
  obtain ⟨hlink, ⟨hpa, hba, hal, har, ⟨hpc, hbc, hcl, hcr, hx, hy⟩, hz⟩, hnd, hout⟩ := hat
  have hnd' : (x.toList ++ c :: (y.toList ++ a :: z.toList)).Nodup := by simpa using hnd
  obtain ⟨hca, ⟨hcx, hcy, hcz⟩, ⟨hax, hay, haz⟩, hxy, hzy, hyy⟩ := nodup_parts hnd'
  simp only [AvlTree.toList_node, List.mem_append, List.mem_cons] at hout
  have hta := fun i ↦ hout a (by simp) i
  have htc := fun i ↦ hout c (by simp) i
  refine ⟨by simp [h.link, AvlTree.top], ⟨by simp [h.p], by simp [h.bal], ?_, ?_,
    h.keep hx hax hcx hxy (fun e he ↦ hout e (by simp [he])), ⟨?_, ?_, ?_, ?_,
    h.move hy hyy hay hcy (fun e he ↦ hout e (by simp [he])),
    h.keep hz haz hcz hzy (fun e he ↦ hout e (by simp [he]))⟩⟩, hnd', ?_⟩
  · rw [h.link, if_neg (htc _).symm, if_neg (by simp), if_neg (by simp [hca]), hcl]
  · rw [h.link, if_neg (htc _).symm, if_pos rfl, AvlTree.top]
  · rw [h.p, if_neg hca.symm, if_pos rfl]
  · rw [h.bal, if_neg hca.symm, if_pos rfl]
  · rw [h.link, if_neg (hta _).symm, if_neg (by simp)]
    exact if_pos rfl
  · rw [h.link, if_neg (hta _).symm, if_neg (by simp [hca.symm]), if_neg (by simp), har]
  · simpa [or_assoc, or_comm, or_left_comm] using hout

end Rotated

theorem singleleft_refines {s : State} {tp : Loc} {p : Option Ptr} {t t' : Tree} (h : At s tp p t)
    (ht : t.rotateLeft = some t') :
    ∃ s', singleleft s tp p = some s' ∧ At s' tp p t' ∧ Frame s s' tp t.toList := by
  match t, ht with
  | .node a ab l (.node c cb cl cr), ht =>
    cases ht
    have hc := h.repr.2.2.2.2.2
    obtain ⟨s', hrun, hrot⟩ := singleleft_eq p h.link h.repr.2.2.2.1
    rw [hc.2.2.1, hc.2.1, h.repr.2.1] at hrot
    refine ⟨s', hrun, hrot.at_left h, hrot.frame (by simp) (by simp) (fun e he ↦ ?_)⟩
    simp [top_mem he]

theorem singleright_refines {s : State} {tp : Loc} {p : Option Ptr} {t t' : Tree} (h : At s tp p t)
    (ht : t.rotateRight = some t') :
    ∃ s', singleright s tp p = some s' ∧ At s' tp p t' ∧ Frame s s' tp t.toList := by
  match t, ht with
  | .node a ab (.node c cb cl cr) r, ht =>
    cases ht
    have hc := h.repr.2.2.2.2.1
    obtain ⟨s', hrun, hrot⟩ := singleright_eq p h.link h.repr.2.2.1
    rw [hc.2.2.2.1, hc.2.1, h.repr.2.1] at hrot
    refine ⟨s', hrun, hrot.at_right h, hrot.frame (by simp) (by simp) (fun e he ↦ ?_)⟩
    simp [top_mem he]

/-! ### Working below a node -/

section Focus

variable {s s' s'' : State} {tp tq : Loc} {p : Option Ptr} {a : Ptr} {b : ℤ} {l r l' r' : Tree} {ps qs : List Ptr}

theorem Frame.refl (s : State) (tp : Loc) (ps : List Ptr) : Frame s s tp ps :=
  ⟨fun _ _ _ ↦ rfl, fun _ _ ↦ rfl, fun _ _ ↦ rfl, rfl⟩

theorem Frame.trans (h : Frame s s' tp ps) (h' : Frame s' s'' tp ps) : Frame s s'' tp ps where
  link x hx hps := (h'.link x hx hps).trans (h.link x hx hps)
  p x hx := (h'.p x hx).trans (h.p x hx)
  bal x hx := (h'.bal x hx).trans (h.bal x hx)
  walks := h'.walks.trans h.walks

theorem Frame.mono (h : Frame s s' tp ps) (hps : ps ⊆ qs) : Frame s s' tp qs where
  link x hx hqs := h.link x hx (fun a ha ↦ hqs a (hps ha))
  p x hx := h.p x (fun ha ↦ hx (hps ha))
  bal x hx := h.bal x (fun ha ↦ hx (hps ha))
  walks := h.walks

/-- A change at a link of `a` is a change among nodes that include `a`. -/
theorem Frame.lift {i : Bool} (h : Frame s s' (.n a i) ps) (ha : a ∈ qs) (hps : ps ⊆ qs) : Frame s s' tp qs where
  link x _ hqs := h.link x (hqs a ha i) (fun a ha ↦ hqs a (hps ha))
  p x hx := h.p x (fun ha ↦ hx (hps ha))
  bal x hx := h.bal x (fun ha ↦ hx (hps ha))
  walks := h.walks

theorem Frame.setBal (h : Frame s s' tp ps) (ha : a ∈ ps) (b : ℤ) : Frame s (s'.setBal a b) tp ps where
  link := h.link
  p := h.p
  bal x hx := by
    rw [State.setBal_bal, Function.update_of_ne (ne_of_mem_of_not_mem ha hx).symm, h.bal x hx]
  walks := h.walks

theorem nodup_node (h : (l.toList ++ a :: r.toList).Nodup) :
    l.toList.Nodup ∧ r.toList.Nodup ∧ a ∉ l.toList ∧ a ∉ r.toList ∧ ∀ e ∈ l.toList, e ∉ r.toList := by
  simp only [List.nodup_append, List.nodup_cons, List.mem_cons] at h
  grind

theorem At.left (h : At s tp p (.node a b l r)) : At s (.n a false) (some a) l := by
  obtain ⟨hl, -, hal, -, -⟩ := nodup_node h.nodup
  refine ⟨h.repr.2.2.1, h.repr.2.2.2.2.1, hl, ?_⟩
  rintro e he i ⟨⟩
  exact hal he

theorem At.right (h : At s tp p (.node a b l r)) : At s (.n a true) (some a) r := by
  obtain ⟨-, hr, -, har, -⟩ := nodup_node h.nodup
  refine ⟨h.repr.2.2.2.1, h.repr.2.2.2.2.2, hr, ?_⟩
  rintro e he i ⟨⟩
  exact har he

theorem At.setBal (h : At s tp p (.node a b l r)) (b' : ℤ) : At (s.setBal a b') tp p (.node a b' l r) := by
  obtain ⟨hl, hr, hal, har, hlr⟩ := nodup_node h.nodup
  obtain ⟨hlink, ⟨hp, hb, hll, hlr', hrl, hrr⟩, hnd, hout⟩ := h
  have keep {q : Option Ptr} {t : Tree} (ht : Stores s q t) (hat : a ∉ t.toList) : Stores (s.setBal a b') q t := by
    refine ht.frame (fun e he ↦ ⟨rfl, ?_, fun i ↦ rfl⟩)
    rw [State.setBal_bal, Function.update_of_ne (ne_of_mem_of_not_mem he hat)]
  exact ⟨hlink, ⟨hp, by simp, hll, hlr', keep hrl hal, keep hrr har⟩, hnd, hout⟩

/-- Nodes away from everything that changed. -/
theorem Frame.keep {q : Option Ptr} {t : Tree} (h : Frame s s' tq ps) (ht : Stores s q t)
    (hps : ∀ e ∈ t.toList, e ∉ ps) (htq : ∀ e ∈ t.toList, ∀ i, tq ≠ .n e i) : Stores s' q t := by
  refine ht.frame (fun e he ↦ ⟨h.p e (hps e he), h.bal e (hps e he), fun i ↦ h.link _ (htq e he i).symm ?_⟩)
  rintro x hx j ⟨⟩
  exact hps e he hx

/-- Put back a left subtree that was worked on alone. -/
theorem At.refill_left (h : At s tp p (.node a b l r)) (h' : At s' (.n a false) (some a) l')
    (hf : Frame s s' (.n a false) ps) (hl' : l'.toList ⊆ ps) (ha : a ∉ ps) (hr : ∀ e ∈ r.toList, e ∉ ps)
    (htp : ∀ e ∈ ps, ∀ i, tp ≠ .n e i) : At s' tp p (.node a b l' r) := by
  obtain ⟨-, hrr, hal, har, hlr⟩ := nodup_node h.nodup
  obtain ⟨hlink, ⟨hp, hb, hll, hlr', hrl, hrr'⟩, hnd, hout⟩ := h
  have hta := hout a (by simp)
  refine ⟨(hf.link _ (hta _) (fun e he i ↦ htp e he i)).trans hlink, ⟨(hf.p a ha).trans hp, (hf.bal a ha).trans hb,
    h'.link, ?_, h'.repr, hf.keep hrr' hr ?_⟩, ?_, ?_⟩
  · rw [hf.link _ (by simp) (by rintro x hx j ⟨⟩; exact ha hx), hlr']
  · rintro e he i ⟨⟩
    exact har he
  · rw [AvlTree.toList_node, List.nodup_append]
    refine ⟨h'.nodup, List.nodup_cons.mpr ⟨har, hrr⟩, fun x hx y hy ↦ ?_⟩
    rcases List.mem_cons.mp hy with rfl | hy
    · exact ne_of_mem_of_not_mem (hl' hx) ha
    · exact ne_of_mem_of_not_mem (hl' hx) (hr y hy)
  · intro e he i
    simp only [AvlTree.toList_node, List.mem_append, List.mem_cons] at he hout
    rcases he with he | rfl | he
    · exact htp e (hl' he) i
    · exact hta i
    · exact hout e (by simp [he]) i

theorem At.refill_right (h : At s tp p (.node a b l r)) (h' : At s' (.n a true) (some a) r')
    (hf : Frame s s' (.n a true) ps) (hr' : r'.toList ⊆ ps) (ha : a ∉ ps) (hl : ∀ e ∈ l.toList, e ∉ ps)
    (htp : ∀ e ∈ ps, ∀ i, tp ≠ .n e i) : At s' tp p (.node a b l r') := by
  obtain ⟨hll', -, hal, har, hlr⟩ := nodup_node h.nodup
  obtain ⟨hlink, ⟨hp, hb, hll, hlr', hrl, hrr'⟩, hnd, hout⟩ := h
  have hta := hout a (by simp)
  refine ⟨(hf.link _ (hta _) (fun e he i ↦ htp e he i)).trans hlink, ⟨(hf.p a ha).trans hp, (hf.bal a ha).trans hb,
    ?_, h'.link, hf.keep hrl hl ?_, h'.repr⟩, ?_, ?_⟩
  · rw [hf.link _ (by simp) (by rintro x hx j ⟨⟩; exact ha hx), hll]
  · rintro e he i ⟨⟩
    exact hal he
  · rw [AvlTree.toList_node, List.nodup_append]
    refine ⟨hll', List.nodup_cons.mpr ⟨fun h ↦ ha (hr' h), h'.nodup⟩, fun x hx y hy ↦ ?_⟩
    rcases List.mem_cons.mp hy with rfl | hy
    · exact ne_of_mem_of_not_mem hx hal
    · exact (ne_of_mem_of_not_mem (hr' hy) (hl x hx)).symm
  · intro e he i
    simp only [AvlTree.toList_node, List.mem_append, List.mem_cons] at he hout
    rcases he with he | rfl | he
    · exact hout e (by simp [he]) i
    · exact hta i
    · exact htp e (hr' he) i

end Focus

theorem doublerightleft_refines {s : State} {tp : Loc} {p : Option Ptr} {t t' : Tree} (h : At s tp p t)
    (ht : t.rotateRightLeft = some t') :
    ∃ s', doublerightleft s tp p = some s' ∧ At s' tp p t' ∧ Frame s s' tp t.toList := by
  match t, ht with
  | .node a b l r, ht =>
    obtain ⟨r', hr', ht⟩ := Option.bind_eq_some_iff.mp ht
    have hlist := AvlTree.rotateRight_toList hr'
    obtain ⟨-, -, -, har, hlr⟩ := nodup_node h.nodup
    obtain ⟨s₁, hrun₁, hat₁, hf₁⟩ := singleright_refines h.right hr'
    have hat₁' := h.refill_right hat₁ hf₁ (by rw [hlist]; exact List.Subset.refl _) har hlr
      (fun e he ↦ h.outside e (by simp [he]))
    obtain ⟨s₂, hrun₂, hat₂, hf₂⟩ := singleleft_refines hat₁' ht
    rw [AvlTree.toList_node, hlist, ← AvlTree.toList_node a b] at hf₂
    refine ⟨s₂, ?_, hat₂, (hf₁.lift (by simp) (fun e he ↦ by simp [he])).trans hf₂⟩
    simp only [doublerightleft, h.link, AvlTree.top, Option.bind_eq_bind, Option.bind_some, hrun₁, hrun₂]

theorem doubleleftright_refines {s : State} {tp : Loc} {p : Option Ptr} {t t' : Tree} (h : At s tp p t)
    (ht : t.rotateLeftRight = some t') :
    ∃ s', doubleleftright s tp p = some s' ∧ At s' tp p t' ∧ Frame s s' tp t.toList := by
  match t, ht with
  | .node a b l r, ht =>
    obtain ⟨l', hl', ht⟩ := Option.bind_eq_some_iff.mp ht
    have hlist := AvlTree.rotateLeft_toList hl'
    obtain ⟨-, -, hal, -, hlr⟩ := nodup_node h.nodup
    obtain ⟨s₁, hrun₁, hat₁, hf₁⟩ := singleleft_refines h.left hl'
    have hat₁' := h.refill_left hat₁ hf₁ (by rw [hlist]; exact List.Subset.refl _) hal (fun e he hl ↦ hlr e hl he)
      (fun e he ↦ h.outside e (by simp [he]))
    obtain ⟨s₂, hrun₂, hat₂, hf₂⟩ := singleright_refines hat₁' ht
    rw [AvlTree.toList_node, hlist, ← AvlTree.toList_node a b] at hf₂
    refine ⟨s₂, ?_, hat₂, (hf₁.lift (by simp) (fun e he ↦ by simp [he])).trans hf₂⟩
    simp only [doubleleftright, h.link, AvlTree.top, Option.bind_eq_bind, Option.bind_some, hrun₁, hrun₂]

theorem bal_of_top {s : State} {p : Option Ptr} {t : Tree} (h : Stores s p t) :
    t.bal? = t.top.map s.bal := by
  cases t with
  | nil => rfl
  | node a b l r => exact congrArg some h.2.1.symm

theorem balance_refines {s : State} {tp : Loc} {p : Option Ptr} {t t' : Tree} (h : At s tp p t)
    (ht : t.balance = some t') :
    ∃ s', balance s tp p = some s' ∧ At s' tp p t' ∧ Frame s s' tp t.toList := by
  cases t with
  | nil => cases ht
  | node a b l r =>
    have hbl := bal_of_top h.left.repr
    have hbr := bal_of_top h.right.repr
    rw [← h.left.link] at hbl
    rw [← h.right.link] at hbr
    simp only [AvlTree.balance, hbl, hbr] at ht
    simp only [balance, h.link, AvlTree.top, Option.bind_eq_bind, Option.bind_some, h.repr.2.1]
    split at ht
    · rename_i hb
      rw [if_pos hb]
      cases hc : s.link (.n a false) with
      | none => simp [hc] at ht
      | some c =>
        simp only [hc, Option.map_some, Option.bind_eq_bind, Option.bind_some] at ht ⊢
        split at ht
        · rename_i hle
          rw [if_pos hle]
          exact singleright_refines h ht
        · rename_i hle
          rw [if_neg hle]
          split at ht
          · rename_i hone
            rw [if_pos hone]
            exact doubleleftright_refines h ht
          · cases ht
    · rename_i hb
      rw [if_neg hb]
      split at ht
      · rename_i hb
        rw [if_pos hb]
        cases hc : s.link (.n a true) with
        | none => simp [hc] at ht
        | some c =>
          simp only [hc, Option.map_some, Option.bind_eq_bind, Option.bind_some] at ht ⊢
          split at ht
          · rename_i hle
            rw [if_pos hle]
            exact singleleft_refines h ht
          · rename_i hle
            rw [if_neg hle]
            split at ht
            · rename_i hone
              rw [if_pos hone]
              exact doublerightleft_refines h ht
            · cases ht
      · rename_i hb
        cases ht
        rw [if_neg hb]
        exact ⟨s, rfl, h, Frame.refl _ _ _⟩

end Petele.Avl
