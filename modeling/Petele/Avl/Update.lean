import Petele.Avl.Refine

namespace Petele.Avl

open Lib

section

variable {s s' : State} {tp : Loc} {p : Option Ptr} {a : Ptr} {b : ℤ} {l r t' : Tree}

/-- A node's balance factor is set and the node balanced, as all updates do on the way up. -/
theorem rebalance (h : At s tp p (.node a b l r)) {b' : ℤ} (ht : AvlTree.balance (.node a b' l r) = some t') :
    ∃ s' x, balance (s.setBal a b') tp p = some s' ∧ At s' tp p t' ∧ Frame s s' tp (AvlTree.node a b l r).toList ∧
      s'.link tp = some x ∧ s'.bal x = t'.bal := by
  obtain ⟨s', hrun, hat, hf⟩ := balance_refines (h.setBal b') ht
  have hf' : Frame s s' tp (AvlTree.node a b l r).toList := ((Frame.refl s tp _).setBal (by simp) b').trans hf
  have hlist := AvlTree.balance_toList ht
  cases t' with
  | nil => simp at hlist
  | node x xb xl xr => exact ⟨s', x, hrun, hat, hf', hat.link, hat.repr.2.1⟩

theorem truth_grown (b : ℤ) (t : Tree) : truth (b = 0 ∧ t.bal ≠ 0) = t.grown b := rfl

theorem truth_shrunk (b : ℤ) (t : Tree) : -truth (b ≠ 0 ∧ t.bal = 0) = t.shrunk b := by
  simp only [truth, AvlTree.shrunk]
  split <;> rfl

end

/-! ### `insertavl` -/

theorem canoncmp_neg {x : ℤ} (h : x < 0) : canoncmp x = -1 := if_pos h

theorem canoncmp_pos {x : ℤ} (h : 0 < x) : canoncmp x = 1 := by
  rw [canoncmp, if_neg (by omega), if_pos h]

theorem canoncmp_zero {x : ℤ} (h : x = 0) : canoncmp x = 0 := by
  rw [canoncmp, if_neg (by omega), if_neg (by omega)]

theorem insert_leaf {s : State} {tp : Loc} (p : Option Ptr) {r : Ptr} (hr : ∀ i, tp ≠ .n r i) :
    let s' := ((((s.setBal r 0).setLink (.n r false) none).setLink (.n r true) none).setP r p).setLink tp (some r)
    At s' tp p (.node r 0 .nil .nil) ∧ Frame s s' tp [r] := by
  refine ⟨⟨by simp [AvlTree.top], ⟨by simp, by simp, ?_, ?_, trivial, trivial⟩, by simp, by simpa using hr⟩, ?_⟩
  · simp [(hr false).symm, AvlTree.top]
  · simp [(hr true).symm, AvlTree.top]
  · refine ⟨fun x hx hps ↦ ?_, fun x hx ↦ ?_, fun x hx ↦ ?_, rfl⟩
    · simp [hx, hps r (by simp)]
    · simp only [List.mem_singleton] at hx
      simp [hx]
    · simp only [List.mem_singleton] at hx
      simp [hx]

/-- What is written when `r` takes a place at `tp` with the links `x` and `y`. -/
structure Placed (s s' : State) (tp : Loc) (p : Option Ptr) (r : Ptr) (b : ℤ) (x y : Option Ptr) : Prop where
  link : ∀ l, s'.link l = if l = .n r true then y else if l = .n r false then x else if l = tp then some r else s.link l
  p : ∀ e, s'.p e = if y = some e then some r else if x = some e then some r else if e = r then p else s.p e
  bal : ∀ e, s'.bal e = if e = r then b else s.bal e
  walks : s'.walks = s.walks

theorem install_placed {s : State} {tp : Loc} {a : Ptr} (r : Ptr) (hta : ∀ i, tp ≠ .n a i) :
    Placed s (install s tp a r) tp (s.p a) r (s.bal a) (s.link (.n a false)) (s.link (.n a true)) := by
  have hat := fun i ↦ (hta i).symm
  refine ⟨fun l ↦ ?_, fun e ↦ ?_, fun e ↦ ?_, ?_⟩
  · simp [install, Function.update_apply, hat]
  · simp [install, Function.update_apply, State.adopt_p, hat]
  · simp [install, Function.update_apply]
  · simp [install]

/-- A node takes the place of another, or of itself. -/
theorem Placed.refines {s s' : State} {tp : Loc} {p : Option Ptr} {a r : Ptr} {b b' : ℤ} {x y : Tree}
    (hpl : Placed s s' tp p r b' x.top y.top) (h : At s tp p (.node a b x y)) (hrx : r ∉ x.toList)
    (hry : r ∉ y.toList) (hr : ∀ i, tp ≠ .n r i) :
    At s' tp p (.node r b' x y) ∧ Frame s s' tp (r :: (AvlTree.node a b x y).toList) := by
  obtain ⟨hlink, hp, hb, hw⟩ := hpl
  obtain ⟨hndx, hndy, hax, hay, hxy⟩ := nodup_node h.nodup
  have hout := h.outside
  simp only [AvlTree.toList_node, List.mem_append, List.mem_cons] at hout
  have htopx : x.top ≠ some r := fun h ↦ hrx (top_mem h)
  have htopy : y.top ≠ some r := fun h ↦ hry (top_mem h)
  have hlinks {e : Ptr} (he : e ≠ r) (htp : ∀ i, tp ≠ .n e i) (i : Bool) : s'.link (.n e i) = s.link (.n e i) := by
    rw [hlink, if_neg (by simp [he]), if_neg (by simp [he]), if_neg (htp i).symm]
  refine ⟨⟨?_, ⟨?_, ?_, ?_, ?_, ?_, ?_⟩, ?_, ?_⟩, ⟨?_, ?_, ?_, hw⟩⟩
  · rw [hlink, if_neg (hr true), if_neg (hr false), if_pos rfl, AvlTree.top]
  · rw [hp, if_neg htopy, if_neg htopx, if_pos rfl]
  · rw [hb, if_pos rfl]
  · rw [hlink, if_neg (by simp), if_pos rfl]
  · rw [hlink, if_pos rfl]
  · apply h.left.repr.adopt hndx
    intro e he
    have her : e ≠ r := ne_of_mem_of_not_mem he hrx
    refine ⟨?_, by rw [hb, if_neg her], hlinks her (hout e (by simp [he]))⟩
    rw [hp, if_neg (fun h ↦ hxy e he (top_mem h)), if_neg her]
  · apply h.right.repr.adopt hndy
    intro e he
    have her : e ≠ r := ne_of_mem_of_not_mem he hry
    refine ⟨?_, by rw [hb, if_neg her], hlinks her (hout e (by simp [he]))⟩
    rw [hp, if_neg her, if_neg (fun h ↦ hxy e (top_mem h) he)]
  · simp only [AvlTree.toList_node, List.nodup_append, List.nodup_cons, List.mem_cons]
    grind
  · intro e he
    simp only [AvlTree.toList_node, List.mem_append, List.mem_cons] at he
    rcases he with he | rfl | he
    · exact hout e (by simp [he])
    · exact hr
    · exact hout e (by simp [he])
  · intro l hl hps
    rw [hlink, if_neg (hps r (by simp) true), if_neg (hps r (by simp) false), if_neg hl]
  · intro e he
    simp only [AvlTree.toList_node, List.mem_append, List.mem_cons, not_or] at he
    rw [hp, if_neg (fun h ↦ he.2.2.2 (top_mem h)), if_neg (fun h ↦ he.2.1 (top_mem h)), if_neg he.1]
  · intro e he
    rw [hb, if_neg (fun h ↦ he (by simp [h]))]

theorem insert_refines {cmp : Ptr → Ptr → ℤ} {r : Ptr} (hself : cmp r r = 0) {t t' : Tree} {d : ℤ} {old : Option Ptr}
    {fuel : ℕ} {s : State} {tp : Loc} {p : Option Ptr} (h : At s tp p t) (hc : AvlTree.Ordered (cmp r) t.toList)
    (htp : ∀ i, tp ≠ .n r i) (hfuel : t.height < fuel) (ht : t.insert (cmp r) r = some (t', d, old)) :
    ∃ s', insertavl_ cmp fuel s tp p r = some (s', d, old) ∧ At s' tp p t' ∧ Frame s s' tp (r :: t.toList) := by
  induction t generalizing t' d fuel s tp p with
  | nil =>
    obtain ⟨fuel, rfl⟩ : ∃ k, fuel = k + 1 := ⟨fuel - 1, by omega⟩
    cases ht
    refine ⟨_, ?_, insert_leaf p htp⟩
    simp only [insertavl_, h.link, AvlTree.top]
  | node a b x y ihx ihy =>
    obtain ⟨fuel, rfl⟩ : ∃ k, fuel = k + 1 := ⟨fuel - 1, by omega⟩
    simp only [AvlTree.height_node] at hfuel
    have hfx : x.height < fuel := by omega
    have hfy : y.height < fuel := by omega
    obtain ⟨-, -, hax, hay, hxy⟩ := nodup_node h.nodup
    obtain ⟨hcx, hcy, hbelow, habove⟩ := hc.parts
    have hout : ∀ e ∈ r :: (AvlTree.node a b x y).toList, ∀ i, tp ≠ .n e i := by
      intro e he
      rcases List.mem_cons.mp he with rfl | he
      · exact htp
      · exact h.outside e he
    obtain ⟨ha, x', d', hx', ht', rfl⟩ | ⟨ha, y', d', hy', ht', rfl⟩ | ⟨ha, rfl, rfl, rfl⟩ := AvlTree.insert_cases ht
    · have hra : a ≠ r := by
        rintro rfl
        omega
      have hry : r ∉ y.toList := fun hr ↦ by
        have := habove ha.le r hr
        omega
      obtain ⟨s₁, hrun₁, hat₁, hf₁⟩ := ihx h.left hcx (by simp [hra]) hfx hx'
      have hat₁' : At s₁ tp p (.node a b x' y) := by
        refine h.refill_left hat₁ hf₁ (AvlTree.insert_subset hx') (by simp [hra, hax]) (fun e he hx ↦ ?_)
          (fun e he ↦ hout e ?_)
        · rcases List.mem_cons.mp hx with rfl | hx
          · exact hry he
          · exact hxy e hx he
        · rcases List.mem_cons.mp he with rfl | he <;> simp [*]
      obtain ⟨s₂, z, hrun₂, hat₂, hf₂, hz, hbz⟩ := rebalance hat₁' ht'
      refine ⟨s₂, ?_, hat₂, (hf₁.lift (by simp) ?_).trans (hf₂.mono ?_)⟩
      · have hb₁ : s₁.bal a = b := hat₁'.repr.2.1
        have hbd : b + -1 * d' = b - d' := by omega
        have hrun₁' : insertavl_ cmp fuel s (.n a (decide ((-1 : ℤ) = 1))) (some a) r = some (s₁, d', old) := hrun₁
        simp only [insertavl_, h.link, AvlTree.top, canoncmp_neg ha, Option.bind_eq_bind, h.repr.2.1]
        rw [if_pos (by decide), hrun₁']
        simp only [Option.bind_some, hb₁, hbd, hrun₂, hz, hbz, truth_grown]
        rfl
      · intro e he
        rcases List.mem_cons.mp he with rfl | he <;> simp [*]
      · intro e he
        simp only [AvlTree.toList_node, List.mem_append, List.mem_cons] at he ⊢
        rcases he with he | he | he
        · rcases List.mem_cons.mp (AvlTree.insert_subset hx' he) with he | he <;> simp [he]
        · simp [he]
        · simp [he]
    · have hra : a ≠ r := by
        rintro rfl
        omega
      have hrx : r ∉ x.toList := fun hr ↦ by
        have := hbelow ha.le r hr
        omega
      obtain ⟨s₁, hrun₁, hat₁, hf₁⟩ := ihy h.right hcy (by simp [hra]) hfy hy'
      have hat₁' : At s₁ tp p (.node a b x y') := by
        refine h.refill_right hat₁ hf₁ (AvlTree.insert_subset hy') (by simp [hra, hay]) (fun e he hy ↦ ?_)
          (fun e he ↦ hout e ?_)
        · rcases List.mem_cons.mp hy with rfl | hy
          · exact hrx he
          · exact hxy e he hy
        · rcases List.mem_cons.mp he with rfl | he <;> simp [*]
      obtain ⟨s₂, z, hrun₂, hat₂, hf₂, hz, hbz⟩ := rebalance hat₁' ht'
      refine ⟨s₂, ?_, hat₂, (hf₁.lift (by simp) ?_).trans (hf₂.mono ?_)⟩
      · have hb₁ : s₁.bal a = b := hat₁'.repr.2.1
        have hbd : b + 1 * d' = b + d' := by omega
        have hrun₁' : insertavl_ cmp fuel s (.n a (decide True)) (some a) r = some (s₁, d', old) := hrun₁
        simp only [insertavl_, h.link, AvlTree.top, canoncmp_pos ha, Option.bind_eq_bind, h.repr.2.1]
        rw [if_pos (by decide), hrun₁']
        simp only [Option.bind_some, hb₁, hbd, hrun₂, hz, hbz, truth_grown]
        rfl
      · intro e he
        rcases List.mem_cons.mp he with rfl | he <;> simp [*]
      · intro e he
        simp only [AvlTree.toList_node, List.mem_append, List.mem_cons] at he ⊢
        rcases he with he | he | he
        · simp [he]
        · simp [he]
        · rcases List.mem_cons.mp (AvlTree.insert_subset hy' he) with he | he <;> simp [he]
    · have hrx : r ∉ x.toList := fun hr ↦ by
        have := hbelow ha.ge r hr
        omega
      have hry : r ∉ y.toList := fun hr ↦ by
        have := habove ha.le r hr
        omega
      have hpl := @install_placed s tp a r (h.outside a (by simp))
      rw [h.left.link, h.right.link, h.repr.1, h.repr.2.1] at hpl
      refine ⟨install s tp a r, ?_, hpl.refines h hrx hry htp⟩
      simp only [insertavl_, h.link, AvlTree.top, canoncmp_zero ha]
      rfl

/-! ### `deleteavl` -/

/-- A subtree moves up to `tp`. -/
theorem lift_refines {s : State} {tp tq : Loc} {p q : Option Ptr} {t : Tree} (h : At s tq q t)
    (htp : ∀ e ∈ t.toList, ∀ i, tp ≠ .n e i) :
    At ((s.setLink tp t.top).adopt t.top p) tp p t ∧
      Frame s ((s.setLink tp t.top).adopt t.top p) tp t.toList := by
  refine ⟨⟨by simp, h.repr.adopt h.nodup (fun e he ↦ ⟨?_, by simp, fun i ↦ ?_⟩), h.nodup, htp⟩, ?_⟩
  · rw [State.adopt_p]
    rfl
  · simp [Function.update_of_ne (htp e he i).symm]
  · refine ⟨fun l hl _ ↦ by simp [hl], fun e he ↦ ?_, fun e he ↦ by simp, by simp⟩
    rw [State.adopt_p, if_neg (fun h ↦ he (top_mem h))]
    rfl

theorem successor_refines {t t' : Tree} {d : ℤ} {x : Ptr} {fuel : ℕ} {s : State} {tp : Loc} {p : Option Ptr}
    (h : At s tp p t) (hfuel : t.height < fuel) (ht : t.deleteMin = some (t', d, x)) :
    ∃ s', successor fuel s tp p = some (s', d, x) ∧ At s' tp p t' ∧ Frame s s' tp t.toList := by
  induction t generalizing t' d fuel s tp p with
  | nil => cases ht
  | node a b l r ihl ihr =>
    obtain ⟨fuel, rfl⟩ : ∃ k, fuel = k + 1 := ⟨fuel - 1, by omega⟩
    simp only [AvlTree.height_node] at hfuel
    have hfl : l.height < fuel := by omega
    cases l with
    | nil =>
      cases ht
      obtain ⟨hat, hf⟩ := @lift_refines s tp _ p _ r h.right (fun e he ↦ h.outside e (by simp [he]))
      refine ⟨_, ?_, hat, hf.mono (fun e he ↦ by simp [he])⟩
      simp [successor, h.link, h.left.link, h.right.link, AvlTree.top]
    | node la lb ll lr =>
      obtain ⟨⟨l', d', y⟩, hl', ht⟩ := Option.bind_eq_some_iff.mp ht
      obtain ⟨t₁, ht₁, ht⟩ := Option.bind_eq_some_iff.mp ht
      cases ht
      obtain ⟨-, -, hal, har, hlr⟩ := nodup_node h.nodup
      have hlist := AvlTree.deleteMin_toList hl'
      have hsub : l'.toList ⊆ (AvlTree.node la lb ll lr).toList := by
        rw [hlist]
        exact List.subset_cons_self _ _
      obtain ⟨s₁, hrun₁, hat₁, hf₁⟩ := ihl h.left hfl hl'
      have hat₁' := h.refill_left hat₁ hf₁ hsub hal (fun e he hl ↦ hlr e hl he)
        (fun e he ↦ h.outside e (List.mem_append_left _ he))
      obtain ⟨s₂, z, hrun₂, hat₂, hf₂, hz, hbz⟩ := rebalance hat₁' ht₁
      refine ⟨s₂, ?_, hat₂, (hf₁.lift (by simp) ?_).trans (hf₂.mono ?_)⟩
      · have hb₁ : s₁.bal a = b := hat₁'.repr.2.1
        have hlink : s.link (.n a false) = some la := h.left.link
        simp only [successor, h.link, hlink, AvlTree.top, Option.bind_eq_bind, Option.bind_some, h.repr.2.1, hrun₁, hb₁,
          hrun₂, hz, hbz, truth_shrunk]
        rfl
      · exact fun e he ↦ List.mem_append_left _ he
      · intro e he
        rw [AvlTree.toList_node] at he ⊢
        rcases List.mem_append.mp he with he | he
        · exact List.mem_append_left _ (hsub he)
        · exact List.mem_append_right _ he

theorem splice_placed {s : State} {tp : Loc} (p : Option Ptr) {a r : Ptr} (hta : ∀ i, tp ≠ .n a i)
    (htr : ∀ i, tp ≠ .n r i) :
    Placed s (splice s tp p a r) tp p r (s.bal a) (s.link (.n a false)) (s.link (.n a true)) := by
  have hrt := fun i ↦ (htr i).symm
  refine ⟨fun l ↦ ?_, fun e ↦ ?_, fun e ↦ ?_, ?_⟩
  · simp only [splice, State.adopt_link, State.setP_link, State.setLink_link, State.setBal_link, Function.update_apply]
    by_cases hl : l = tp
    · subst hl
      simp [htr]
    · simp [hl]
  · simp [splice, Function.update_apply, State.adopt_p, hrt]
  · simp [splice, Function.update_apply]
  · simp [splice]

def State.setWalks (s : State) (ws : List Avlwalk) : State := { s with walks := ws }

theorem At.setWalks {s : State} {tp : Loc} {p : Option Ptr} {t : Tree} (h : At s tp p t) (ws : List Avlwalk) :
    At (s.setWalks ws) tp p t :=
  ⟨h.link, h.repr.frame (fun _ _ ↦ ⟨rfl, rfl, fun _ ↦ rfl⟩), h.nodup, h.outside⟩

theorem unlink_refines {t' : Tree} {a : Ptr} {b d : ℤ} {x y : Tree} {fuel : ℕ} {s : State} {tp : Loc} {p : Option Ptr}
    (h : At s tp p (.node a b x y)) (hfuel : y.height < fuel) (ht : AvlTree.deleteTop b x y = some (t', d)) :
    ∃ s', unlink fuel s tp p a b = some (s', d, some a) ∧ At s' tp p t' ∧
      Frame s s' tp (AvlTree.node a b x y).toList := by
  cases x with
  | nil =>
    cases ht
    obtain ⟨hat, hf⟩ := @lift_refines s tp _ p _ _ h.right (fun e he ↦ h.outside e (by simp [he]))
    refine ⟨_, ?_, hat, hf.mono (fun e he ↦ by simp [he])⟩
    simp [unlink, h.left.link, h.right.link, AvlTree.top]
  | node xa xb xl xr =>
    cases y with
    | nil =>
      cases ht
      obtain ⟨hat, hf⟩ := @lift_refines s tp _ p _ _ h.left (fun e he ↦ h.outside e (List.mem_append_left _ he))
      refine ⟨_, ?_, hat, hf.mono (fun e he ↦ List.mem_append_left _ he)⟩
      simp [unlink, h.left.link, h.right.link, AvlTree.top]
    | node ya yb yl yr =>
      obtain ⟨⟨y', d', r⟩, hy', ht⟩ := Option.bind_eq_some_iff.mp ht
      obtain ⟨t₁, ht₁, ht⟩ := Option.bind_eq_some_iff.mp ht
      cases ht
      obtain ⟨-, hndy, -, hay, hxy⟩ := nodup_node h.nodup
      have hlist := AvlTree.deleteMin_toList hy'
      have hr : r ∈ (AvlTree.node ya yb yl yr).toList := by simp [hlist]
      have hsub : y'.toList ⊆ (AvlTree.node ya yb yl yr).toList := by
        rw [hlist]
        exact List.subset_cons_self _ _
      have hry : r ∉ y'.toList := by
        rw [hlist] at hndy
        exact (List.nodup_cons.mp hndy).1
      have hmem {e : Ptr} (he : e ∈ (AvlTree.node ya yb yl yr).toList) :
          e ∈ (AvlTree.node a b (AvlTree.node xa xb xl xr) (AvlTree.node ya yb yl yr)).toList :=
        List.mem_append_right _ (List.mem_cons_of_mem _ he)
      obtain ⟨s₁, hrun₁, hat₁, hf₁⟩ := successor_refines h.right hfuel hy'
      have hat₁' := (h.refill_right hat₁ hf₁ hsub hay hxy (fun e he ↦ h.outside e (hmem he))).setBal (b + d')
      have hta := h.outside a (by simp)
      have htr := h.outside r (hmem hr)
      have hpl := @splice_placed (s₁.setBal a (b + d')) tp p a r hta htr
      rw [hat₁'.left.link, hat₁'.right.link, hat₁'.repr.2.1] at hpl
      obtain ⟨hat₂, hf₂⟩ := hpl.refines hat₁' (fun h ↦ hxy r h hr) hry htr
      obtain ⟨s₃, hrun₃, hat₃, hf₃⟩ := balance_refines hat₂ ht₁
      have hnil := AvlTree.balance_toList ht₁
      cases t' with
      | nil => simp at hnil
      | node z zb zl zr =>
        refine ⟨s₃, ?_, hat₃, ((hf₁.lift (by simp) (fun e he ↦ hmem he)).setBal (by simp) _).trans
          ((hf₂.mono ?_).trans (hf₃.mono ?_))⟩
        · have hb₁ : s₁.bal a = b := by rw [hf₁.bal a hay, h.repr.2.1]
          have hbz : s₃.bal z = zb := hat₃.repr.2.1
          have hlz : s₃.link tp = some z := hat₃.link
          have hxl : s.link (.n a false) = some xa := h.left.link
          have hyl : s.link (.n a true) = some ya := h.right.link
          simp only [unlink, hxl, hyl, hrun₁, hb₁, hrun₃, hlz, hbz, Option.bind_eq_bind, Option.bind_some,
            reduceCtorEq, if_false]
          exact congrArg (fun d ↦ some (s₃, d, some a)) (truth_shrunk b (AvlTree.node z zb zl zr))
        · intro e he
          rcases List.mem_cons.mp he with rfl | he
          · exact hmem hr
          · rw [AvlTree.toList_node] at he ⊢
            rcases List.mem_append.mp he with he | he
            · exact List.mem_append_left _ he
            · rcases List.mem_cons.mp he with rfl | he
              · simp
              · exact hmem (hsub he)
        · intro e he
          rw [AvlTree.toList_node] at he ⊢
          rcases List.mem_append.mp he with he | he
          · exact List.mem_append_left _ he
          · rcases List.mem_cons.mp he with rfl | he
            · exact hmem hr
            · exact hmem (hsub he)

/-- `predel`, called on the deleted node if there is one, has left the walks `ws`. -/
def Warned (predel : State → Option Ptr → Option State) (s : State) (old : Option Ptr) (ws : List Avlwalk) : Prop :=
  match old with
  | none => ws = s.walks
  | some a => predel s (some a) = some (s.setWalks ws)

/-- `predel` is called on the node that is found, in the state the call of `deleteavl` found. -/
theorem delete_refines {cmp : Ptr → Ptr → ℤ} {rx : Ptr} {predel : State → Option Ptr → Option State} {t t' : Tree}
    {d : ℤ} {old : Option Ptr} {fuel : ℕ} {s : State} {tp : Loc} {p : Option Ptr} (h : At s tp p t)
    (hpre : ∀ a ∈ t.toList, ∃ ws, predel s (some a) = some (s.setWalks ws)) (hfuel : t.height < fuel)
    (ht : t.delete (cmp rx) = some (t', d, old)) :
    ∃ s' ws, deleteavl_ cmp predel fuel s tp p rx = some (s', d, old) ∧ At s' tp p t' ∧
      Frame (s.setWalks ws) s' tp t.toList ∧ Warned predel s old ws := by
  induction t generalizing t' d fuel tp p with
  | nil =>
    obtain ⟨fuel, rfl⟩ : ∃ k, fuel = k + 1 := ⟨fuel - 1, by omega⟩
    cases ht
    refine ⟨s, s.walks, ?_, h, Frame.refl _ _ _, rfl⟩
    simp only [deleteavl_, h.link, AvlTree.top]
  | node a b x y ihx ihy =>
    obtain ⟨fuel, rfl⟩ : ∃ k, fuel = k + 1 := ⟨fuel - 1, by omega⟩
    simp only [AvlTree.height_node] at hfuel
    have hfx : x.height < fuel := by omega
    have hfy : y.height < fuel := by omega
    obtain ⟨-, -, hax, hay, hxy⟩ := nodup_node h.nodup
    obtain ⟨ha, x', d', hx', ht', rfl⟩ | ⟨ha, y', d', hy', ht', rfl⟩ | ⟨ha, ht', rfl⟩ := AvlTree.delete_cases ht
    · have hsub := AvlTree.delete_subset hx'
      obtain ⟨s₁, ws, hrun₁, hat₁, hf₁, hws⟩ := ihx h.left (fun e he ↦ hpre e (by simp [he])) hfx hx'
      have hat₁' := (h.setWalks ws).refill_left hat₁ hf₁ hsub hax (fun e he hx ↦ hxy e hx he)
        (fun e he ↦ h.outside e (by simp [he]))
      obtain ⟨s₂, z, hrun₂, hat₂, hf₂, hz, hbz⟩ := rebalance hat₁' ht'
      refine ⟨s₂, ws, ?_, hat₂, (hf₁.lift (by simp) (fun e he ↦ by simp [he])).trans (hf₂.mono ?_), hws⟩
      · have hb₁ : s₁.bal a = b := hat₁'.repr.2.1
        have hbd : b + -1 * d' = b - d' := by omega
        have hrun₁' : deleteavl_ cmp predel fuel s (.n a (decide ((-1 : ℤ) = 1))) (some a) rx =
            some (s₁, d', old) := hrun₁
        simp only [deleteavl_, h.link, AvlTree.top, canoncmp_neg ha, Option.bind_eq_bind, h.repr.2.1]
        rw [if_pos (by decide), hrun₁']
        simp only [Option.bind_some, hb₁, hbd, hrun₂, hz, hbz, truth_shrunk]
        rfl
      · intro e he
        simp only [AvlTree.toList_node, List.mem_append, List.mem_cons] at he ⊢
        exact he.imp_left (fun he ↦ hsub he)
    · have hsub := AvlTree.delete_subset hy'
      obtain ⟨s₁, ws, hrun₁, hat₁, hf₁, hws⟩ := ihy h.right (fun e he ↦ hpre e (by simp [he])) hfy hy'
      have hat₁' := (h.setWalks ws).refill_right hat₁ hf₁ hsub hay hxy (fun e he ↦ h.outside e (by simp [he]))
      obtain ⟨s₂, z, hrun₂, hat₂, hf₂, hz, hbz⟩ := rebalance hat₁' ht'
      refine ⟨s₂, ws, ?_, hat₂, (hf₁.lift (by simp) (fun e he ↦ by simp [he])).trans (hf₂.mono ?_), hws⟩
      · have hb₁ : s₁.bal a = b := hat₁'.repr.2.1
        have hbd : b + 1 * d' = b + d' := by omega
        have hrun₁' : deleteavl_ cmp predel fuel s (.n a (decide True)) (some a) rx = some (s₁, d', old) := hrun₁
        simp only [deleteavl_, h.link, AvlTree.top, canoncmp_pos ha, Option.bind_eq_bind, h.repr.2.1]
        rw [if_pos (by decide), hrun₁']
        simp only [Option.bind_some, hb₁, hbd, hrun₂, hz, hbz, truth_shrunk]
        rfl
      · intro e he
        simp only [AvlTree.toList_node, List.mem_append, List.mem_cons] at he ⊢
        exact he.imp_right (fun he ↦ he.imp_right (fun he ↦ hsub he))
    · obtain ⟨ws, hws⟩ := hpre a (by simp)
      obtain ⟨s', hrun, hat, hf⟩ := unlink_refines (h.setWalks ws) hfy ht'
      refine ⟨s', ws, ?_, hat, hf, hws⟩
      simp only [deleteavl_, h.link, AvlTree.top, canoncmp_zero ha, Option.bind_eq_bind, h.repr.2.1]
      rw [if_neg (by decide), hws]
      exact hrun

end Petele.Avl
