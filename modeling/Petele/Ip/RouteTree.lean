import Petele.Ip.Route

namespace Petele.Ip

open Lib Ranged

section Compare

theorem lcmp_longs (a b : ℕ) :
    (lcmp (longs a) (longs b) < 0 ↔ a < b) ∧ (lcmp (longs a) (longs b) > 0 ↔ a > b) ∧
      (lcmp (longs a) (longs b) = 0 ↔ a = b) := by
  have h0 : a / 2 ^ 64 = a / 2 ^ 96 * 2 ^ 32 + a / 2 ^ 64 % 2 ^ 32 := by omega
  have h1 : b / 2 ^ 64 = b / 2 ^ 96 * 2 ^ 32 + b / 2 ^ 64 % 2 ^ 32 := by omega
  have h2 : a / 2 ^ 32 = a / 2 ^ 64 * 2 ^ 32 + a / 2 ^ 32 % 2 ^ 32 := by omega
  have h3 : b / 2 ^ 32 = b / 2 ^ 64 * 2 ^ 32 + b / 2 ^ 32 % 2 ^ 32 := by omega
  simp only [longs, lcmp]
  split
  · omega
  · split
    · omega
    · split
      · omega
      · split
        · omega
        · split
          · omega
          · split
            · omega
            · split
              · omega
              · split
                all_goals omega

/-- What a comparison says of two ranges. -/
theorem rangecompare_eq (a b : Route) : rangecompare a b =
    if a.endaddress < b.address then .Rpreceeds
    else if a.address > b.endaddress then .Rfollows
    else if a.address ≤ b.address ∧ a.endaddress ≥ b.endaddress then
      if a.address = b.address ∧ a.endaddress = b.endaddress then .Requals else .Rcontains
    else .Rcontained := by
  have hle : lcmp (longs a.address) (longs b.address) ≤ 0 ↔ a.address ≤ b.address := by
    have h := (lcmp_longs a.address b.address).2.1
    omega
  have hge : lcmp (longs a.endaddress) (longs b.endaddress) ≥ 0 ↔ a.endaddress ≥ b.endaddress := by
    have h := (lcmp_longs a.endaddress b.endaddress).1
    omega
  rw [rangecompare]
  by_cases hv4 : a.v4 = true
  · rw [if_pos hv4]
  · simp only [if_neg hv4, (lcmp_longs _ _).1, (lcmp_longs _ _).2.1, hle, hge, (lcmp_longs _ _).2.2]

theorem rangecompare_cases {a b : Route} (h : Nested a b) :
    rangecompare a b = .Rpreceeds ∧ Before a b ∨ rangecompare a b = .Rfollows ∧ Before b a ∨
      rangecompare a b = .Requals ∧ Within a b ∧ Within b a ∨
      rangecompare a b = .Rcontains ∧ Within b a ∧ ¬ Within a b ∨
      rangecompare a b = .Rcontained ∧ Within a b ∧ ¬ Within b a := by
  have ha := a.ordered
  have hb := b.ordered
  rw [rangecompare_eq]
  simp only [Nested, Before, Within, show Ranged.lo a = a.address from rfl,
    show Ranged.lo b = b.address from rfl, show Ranged.hi a = a.endaddress from rfl,
    show Ranged.hi b = b.endaddress from rfl] at h ⊢
  split
  · exact .inl ⟨rfl, ‹_›⟩
  · split
    · exact .inr (.inl ⟨rfl, ‹_›⟩)
    · split
      · split
        · exact .inr (.inr (.inl ⟨rfl, by omega, by omega⟩))
        · exact .inr (.inr (.inr (.inl ⟨rfl, by omega, by omega⟩)))
      · exact .inr (.inr (.inr (.inr ⟨rfl, by omega, by omega⟩)))

end Compare

section Balance

@[simp] theorem mem_calcd {x : Route} {t : Tree} : x ∈ calcd t ↔ x ∈ t := by
  cases t with
  | nil => exact Iff.rfl
  | node d y l m r => exact Iff.rfl

@[simp] theorem valid_calcd {t : Tree} : (calcd t).Valid ↔ t.Valid := by
  cases t with
  | nil => exact Iff.rfl
  | node d y l m r => exact Iff.rfl

theorem calcd_node (d : ℕ) (x : Route) (l m r : Tree) : ∃ d', calcd (.node d x l m r) = .node d' x l m r :=
  ⟨_, rfl⟩

/-- A rotation keeps the nodes and their order. -/
theorem balancetree_spec (t : Tree) :
    (∀ x, x ∈ balancetree t ↔ x ∈ t) ∧ (t.Valid → (balancetree t).Valid) := by
  cases t with
  | nil => exact ⟨fun _ => Iff.rfl, id⟩
  | node d p l m r =>
    rw [balancetree.eq_def]
    simp only
    split
    · rename_i hdeep
      cases l with
      | nil => exact absurd hdeep (Nat.not_lt_zero _)
      | node dl pl ll lm lr =>
        obtain ⟨d', hd'⟩ := calcd_node d p lr m r
        refine ⟨fun x => ?_, fun h => ?_⟩
        · simp only [mem_calcd, Tri.mem_node]
          tauto
        · obtain ⟨hl, hm, hr, ⟨hll, hlm, hlr, vll, vlm, vlr⟩, vm, vr⟩ := h
          rw [valid_calcd, hd']
          refine ⟨hll, hlm, fun x hx => ?_, vll, vlm, fun x hx => hl x (by simp [hx]), hm, hr, vlr, vm, vr⟩
          have hp : Before pl p := hl pl (by simp)
          rcases Tri.mem_node.mp hx with rfl | hx | hx | hx
          · exact hp
          · exact hlr x hx
          · exact hp.mono_right (hm x hx).1
          · exact hp.trans (hr x hx)
    · split
      · rename_i hdeep
        cases r with
        | nil => exact absurd hdeep (Nat.not_lt_zero _)
        | node dr pr rl rm rr =>
          obtain ⟨d', hd'⟩ := calcd_node d p l m rl
          refine ⟨fun x => ?_, fun h => ?_⟩
          · simp only [mem_calcd, Tri.mem_node]
            tauto
          · obtain ⟨hl, hm, hr, vl, vm, hrl, hrm, hrr, vrl, vrm, vrr⟩ := h
            rw [valid_calcd, hd']
            refine ⟨fun x hx => ?_, hrm, hrr, ⟨hl, hm, fun x hx => hr x (by simp [hx]), vl, vm, vrl⟩, vrm, vrr⟩
            have hp : Before p pr := hr pr (by simp)
            rcases Tri.mem_node.mp hx with rfl | hx | hx | hx
            · exact hp
            · exact (hl x hx).trans hp
            · exact hp.mono_left (hm x hx).1
            · exact hrl x hx
      · exact ⟨fun x => mem_calcd, valid_calcd.mpr⟩

end Balance

section Places

variable {d : ℕ} {p n x : Route} {l m r : Tree} (h : (Tri.node d p l m r).Valid) (hw : Within x n)
include h hw

/-- What lies in a range before that of the node is to the left. -/
theorem only_left (hb : Before n p) : ¬ (x = p ∨ x ∈ m ∨ x ∈ r) := by
  obtain ⟨-, hm, hr, -⟩ := h
  rintro (rfl | hx | hx)
  · exact hb.not_within' hw
  · exact (hb.mono_right (hm x hx).1).not_within' hw
  · exact (hb.trans (hr x hx)).not_within' hw

theorem only_right (hb : Before p n) : ¬ (x = p ∨ x ∈ l ∨ x ∈ m) := by
  obtain ⟨hl, hm, -⟩ := h
  rintro (rfl | hx | hx)
  · exact hb.not_within hw
  · exact ((hl x hx).trans hb).not_within hw
  · exact (hb.mono_left (hm x hx).1).not_within hw

theorem only_mid (hin : Within n p) (hout : ¬ Within p n) : ¬ (x = p ∨ x ∈ l ∨ x ∈ r) := by
  obtain ⟨hl, -, hr, -⟩ := h
  rintro (rfl | hx | hx)
  · exact hout hw
  · exact (hl x hx).not_within (hw.trans hin)
  · exact (hr x hx).not_within' (hw.trans hin)

theorem only_node (hin : Within n p) : Within p n → ¬ (x ∈ l ∨ x ∈ m ∧ Within n x ∨ x ∈ r) := by
  obtain ⟨hl, hm, hr, -⟩ := h
  rintro hp (hx | ⟨hx, hn⟩ | hx)
  · exact (hl x hx).not_within (hw.trans hin)
  · exact (hm x hx).2 (hp.trans hn)
  · exact (hr x hx).not_within' (hw.trans hin)

theorem mem_only_left (hb : Before n p) (hx : x ∈ Tri.node d p l m r) : x ∈ l := by
  have hnot := only_left h hw hb
  rw [Tri.mem_node] at hx
  clear * - hx hnot
  tauto

theorem mem_only_right (hb : Before p n) (hx : x ∈ Tri.node d p l m r) : x ∈ r := by
  have hnot := only_right h hw hb
  rw [Tri.mem_node] at hx
  clear * - hx hnot
  tauto

theorem mem_only_mid (hin : Within n p) (hout : ¬ Within p n) (hx : x ∈ Tri.node d p l m r) : x ∈ m := by
  have hnot := only_mid h hw hin hout
  rw [Tri.mem_node] at hx
  clear * - hx hnot
  tauto

end Places

section Add

variable {n : Route} {mid t : Tree} {queue : List Tree}

/-- A node in whose range nothing is goes to its place, with the tree in its middle. -/
theorem addnode_quiet (ht : t.Valid) (hmid : mid.Valid) (hin : ∀ x ∈ mid, Within x n ∧ ¬ Within n x)
    (hnest : ∀ y ∈ t, Nested n y) (hfree : ∀ y ∈ t, ¬ Within y n) :
    ∃ t', addnode n mid queue t = (t', queue) ∧ t'.Valid ∧ ∀ x, x ∈ t' ↔ x ∈ t ∨ x = n ∨ x ∈ mid := by
  induction t with
  | nil =>
    refine ⟨_, rfl, ⟨fun _ h => absurd h (Tri.not_mem_nil _), hin, fun _ h => absurd h (Tri.not_mem_nil _),
      trivial, hmid, trivial⟩, fun x => ?_⟩
    simp
  | node d p l m r ihl ihm ihr =>
    obtain ⟨hl, hm, hr, vl, vm, vr⟩ := ht
    have hp := hfree p (by simp)
    rcases rangecompare_cases (hnest p (by simp)) with
      ⟨hcmp, hb⟩ | ⟨hcmp, hb⟩ | ⟨-, -, h⟩ | ⟨-, h, -⟩ | ⟨hcmp, hw, -⟩
    · obtain ⟨l', hadd, vl', hmem⟩ := ihl vl (fun y hy => hnest y (by simp [hy]))
        (fun y hy => hfree y (by simp [hy]))
      obtain ⟨hbal, vbal⟩ := balancetree_spec (.node d p l' m r)
      refine ⟨balancetree (.node d p l' m r), ?_, vbal ⟨fun x hx => ?_, hm, hr, vl', vm, vr⟩, fun x => ?_⟩
      · rw [addnode, hcmp]
        simp only [hadd]
      · rcases (hmem x).mp hx with hx | rfl | hx
        · exact hl x hx
        · exact hb
        · exact hb.mono_left (hin x hx).1
      · rw [hbal]
        exact (or_iff_left id).symm.trans (Tri.mem_left ((or_iff_left id).trans (hmem x)))
    · obtain ⟨r', hadd, vr', hmem⟩ := ihr vr (fun y hy => hnest y (by simp [hy]))
        (fun y hy => hfree y (by simp [hy]))
      obtain ⟨hbal, vbal⟩ := balancetree_spec (.node d p l m r')
      refine ⟨balancetree (.node d p l m r'), ?_, vbal ⟨hl, hm, fun x hx => ?_, vl, vm, vr'⟩, fun x => ?_⟩
      · rw [addnode, hcmp]
        simp only [hadd]
      · rcases (hmem x).mp hx with hx | rfl | hx
        · exact hr x hx
        · exact hb
        · exact hb.mono_right (hin x hx).1
      · rw [hbal]
        exact (or_iff_left id).symm.trans (Tri.mem_right ((or_iff_left id).trans (hmem x)))
    · exact absurd h hp
    · exact absurd h hp
    · obtain ⟨m', hadd, vm', hmem⟩ := ihm vm (fun y hy => hnest y (by simp [hy]))
        (fun y hy => hfree y (by simp [hy]))
      obtain ⟨hbal, vbal⟩ := balancetree_spec (.node d p l m' r)
      refine ⟨balancetree (.node d p l m' r), ?_, vbal ⟨hl, fun x hx => ?_, hr, vl, vm', vr⟩, fun x => ?_⟩
      · rw [addnode, hcmp]
        simp only [hadd]
      · rcases (hmem x).mp hx with hx | rfl | hx
        · exact hm x hx
        · exact ⟨hw, hp⟩
        · exact ⟨(hin x hx).1.trans hw, fun hpx => hp (hpx.trans (hin x hx).1)⟩
      · rw [hbal]
        exact (or_iff_left id).symm.trans (Tri.mem_mid ((or_iff_left id).trans (hmem x)))

/-- A node over others takes the place of a tree, with which nothing left in the tree interferes. -/
theorem addnode_evict (ht : t.Valid) (hnest : ∀ y ∈ t, Nested n y) (hnew : ∀ y ∈ t, Within y n → ¬ Within n y)
    {z : Route} (hz : z ∈ t) (hzn : Within z n) :
    ∃ t' s, addnode n .nil queue t = (t', addqueue queue s) ∧ s ≠ .nil ∧ t'.Valid ∧ s.Valid ∧
      (∀ x, x ∈ t' ∨ x ∈ s ↔ x ∈ t ∨ x = n) ∧ ∀ x ∈ s, ∀ y ∈ t', ¬ Within y x := by
  induction t with
  | nil => exact absurd hz (Tri.not_mem_nil z)
  | node d p l m r ihl ihm ihr =>
    have hv := ht
    obtain ⟨hl, hm, hr, vl, vm, vr⟩ := ht
    rcases rangecompare_cases (hnest p (by simp)) with
      ⟨hcmp, hb⟩ | ⟨hcmp, hb⟩ | ⟨-, h, h'⟩ | ⟨hcmp, h, h'⟩ | ⟨hcmp, hw, hw'⟩
    · have hzl := mem_only_left hv hzn hb hz
      obtain ⟨l', s, hadd, hs, vl', vs, hmem, hsep⟩ := ihl vl (fun y hy => hnest y (by simp [hy]))
        (fun y hy => hnew y (by simp [hy])) hzl
      obtain ⟨hbal, vbal⟩ := balancetree_spec (.node d p l' m r)
      have hbefore : ∀ x, x ∈ l' ∨ x ∈ s → Before x p := fun x hx => by
        rcases (hmem x).mp hx with hx | rfl
        · exact hl x hx
        · exact hb
      refine ⟨balancetree (.node d p l' m r), s, ?_, hs,
        vbal ⟨fun x hx => hbefore x (.inl hx), hm, hr, vl', vm, vr⟩, vs, fun x => ?_, fun x hx y hy => ?_⟩
      · rw [addnode, hcmp]
        simp only [hadd]
      · rw [hbal]
        exact Tri.mem_left (hmem x)
      · have hxp := hbefore x (.inr hx)
        rcases Tri.mem_node.mp ((hbal y).mp hy) with rfl | hy | hy | hy
        · exact hxp.not_within'
        · exact hsep x hx y hy
        · exact (hxp.mono_right (hm y hy).1).not_within'
        · exact (hxp.trans (hr y hy)).not_within'
    · have hzr := mem_only_right hv hzn hb hz
      obtain ⟨r', s, hadd, hs, vr', vs, hmem, hsep⟩ := ihr vr (fun y hy => hnest y (by simp [hy]))
        (fun y hy => hnew y (by simp [hy])) hzr
      obtain ⟨hbal, vbal⟩ := balancetree_spec (.node d p l m r')
      have hafter : ∀ x, x ∈ r' ∨ x ∈ s → Before p x := fun x hx => by
        rcases (hmem x).mp hx with hx | rfl
        · exact hr x hx
        · exact hb
      refine ⟨balancetree (.node d p l m r'), s, ?_, hs,
        vbal ⟨hl, hm, fun x hx => hafter x (.inl hx), vl, vm, vr'⟩, vs, fun x => ?_, fun x hx y hy => ?_⟩
      · rw [addnode, hcmp]
        simp only [hadd]
      · rw [hbal]
        exact Tri.mem_right (hmem x)
      · have hxp := hafter x (.inr hx)
        rcases Tri.mem_node.mp ((hbal y).mp hy) with rfl | hy | hy | hy
        · exact hxp.not_within
        · exact ((hl y hy).trans hxp).not_within
        · exact (hxp.mono_left (hm y hy).1).not_within
        · exact hsep x hx y hy
    · exact absurd h (hnew p (by simp) h')
    · obtain ⟨hbal, vbal⟩ := balancetree_spec (.node 1 n .nil .nil .nil)
      refine ⟨balancetree (.node 1 n .nil .nil .nil), .node d p l m r, ?_, (fun h => by cases h),
        vbal ⟨?_, ?_, ?_, trivial, trivial, trivial⟩, hv, fun x => ?_, fun x hx y hy => ?_⟩
      · rw [addnode, hcmp]
      · exact fun _ h => absurd h (Tri.not_mem_nil _)
      · exact fun _ h => absurd h (Tri.not_mem_nil _)
      · exact fun _ h => absurd h (Tri.not_mem_nil _)
      · rw [hbal, or_comm]
        simp
      · have hyn : y = n := by simpa using (hbal y).mp hy
        rw [hyn]
        intro hnx
        rcases Tri.mem_node.mp hx with rfl | hx | hx | hx
        · exact h' hnx
        · exact (hl x hx).not_within' (h.trans hnx)
        · exact h' (hnx.trans (hm x hx).1)
        · exact (hr x hx).not_within (h.trans hnx)
    · have hzm := mem_only_mid hv hzn hw hw' hz
      obtain ⟨m', s, hadd, hs, vm', vs, hmem, hsep⟩ := ihm vm (fun y hy => hnest y (by simp [hy]))
        (fun y hy => hnew y (by simp [hy])) hzm
      obtain ⟨hbal, vbal⟩ := balancetree_spec (.node d p l m' r)
      have hinside : ∀ x, x ∈ m' ∨ x ∈ s → Within x p ∧ ¬ Within p x := fun x hx => by
        rcases (hmem x).mp hx with hx | rfl
        · exact hm x hx
        · exact ⟨hw, hw'⟩
      refine ⟨balancetree (.node d p l m' r), s, ?_, hs,
        vbal ⟨hl, fun x hx => hinside x (.inl hx), hr, vl, vm', vr⟩, vs, fun x => ?_, fun x hx y hy => ?_⟩
      · rw [addnode, hcmp]
        simp only [hadd]
      · rw [hbal]
        exact Tri.mem_mid (hmem x)
      · have hxp := hinside x (.inr hx)
        rcases Tri.mem_node.mp ((hbal y).mp hy) with rfl | hy | hy | hy
        · exact hxp.2
        · exact fun hyx => (hl y hy).not_within (hyx.trans hxp.1)
        · exact hsep x hx y hy
        · exact fun hyx => (hr y hy).not_within' (hyx.trans hxp.1)

theorem lo_supercede (p n : Route) : lo (supercede p n) = lo p ∧ hi (supercede p n) = hi p := by
  rw [supercede]
  split
  · exact ⟨rfl, rfl⟩
  · split
    all_goals exact ⟨rfl, rfl⟩

/-- Another entry for the range of a node. -/
theorem valid_change {d d' : ℕ} {p p' : Route} {l m r : Tree} (hlo : lo p' = lo p) (hhi : hi p' = hi p)
    (h : (Tri.node d p l m r).Valid) : (Tri.node d' p' l m r).Valid := by
  obtain ⟨hl, hm, hr, vl, vm, vr⟩ := h
  refine ⟨fun x hx => ?_, fun x hx => ?_, fun x hx => ?_, vl, vm, vr⟩
  · rw [Before, hlo]
    exact hl x hx
  · rw [Within, Within, hlo, hhi]
    exact hm x hx
  · rw [Before, hhi]
    exact hr x hx

/-- A node with the range of another changes the entry that is there. -/
theorem addnode_equal (ht : t.Valid) (hnest : ∀ y ∈ t, Nested n y) {z : Route} (hz : z ∈ t) (hzn : Within z n)
    (hnz : Within n z) :
    ∃ t', addnode n .nil queue t = (t', queue) ∧ t'.Valid ∧
      ∀ x, x ∈ t' ↔ (x ∈ t ∧ ¬ (Within x n ∧ Within n x)) ∨ x = supercede z n := by
  induction t with
  | nil => exact absurd hz (Tri.not_mem_nil z)
  | node d p l m r ihl ihm ihr =>
    have hv := ht
    obtain ⟨hl, hm, hr, vl, vm, vr⟩ := ht
    have hsame : Within (supercede z n) n ∧ Within n (supercede z n) := by
      rw [Within, Within, (lo_supercede z n).1, (lo_supercede z n).2]
      exact ⟨hzn, hnz⟩
    rcases rangecompare_cases (hnest p (by simp)) with
      ⟨hcmp, hb⟩ | ⟨hcmp, hb⟩ | ⟨hcmp, h, h'⟩ | ⟨hcmp, h, h'⟩ | ⟨hcmp, hw, hw'⟩
    · obtain ⟨l', hadd, vl', hmem⟩ := ihl vl (fun y hy => hnest y (by simp [hy])) (mem_only_left hv hzn hb hz)
      obtain ⟨hbal, vbal⟩ := balancetree_spec (.node d p l' m r)
      refine ⟨balancetree (.node d p l' m r), ?_, vbal ⟨fun x hx => ?_, hm, hr, vl', vm, vr⟩, fun x => ?_⟩
      · rw [addnode, hcmp]
        simp only [hadd]
      · rcases (hmem x).mp hx with hx | rfl
        · exact hl x hx.1
        · exact hb.mono_left hsame.1
      · have hnot : Within x n ∧ Within n x → ¬ (x = p ∨ x ∈ m ∨ x ∈ r) := fun h => only_left hv h.1 hb
        rw [hbal, Tri.mem_node, Tri.mem_node, hmem]
        clear * - hnot
        tauto
    · obtain ⟨r', hadd, vr', hmem⟩ := ihr vr (fun y hy => hnest y (by simp [hy])) (mem_only_right hv hzn hb hz)
      obtain ⟨hbal, vbal⟩ := balancetree_spec (.node d p l m r')
      refine ⟨balancetree (.node d p l m r'), ?_, vbal ⟨hl, hm, fun x hx => ?_, vl, vm, vr'⟩, fun x => ?_⟩
      · rw [addnode, hcmp]
        simp only [hadd]
      · rcases (hmem x).mp hx with hx | rfl
        · exact hr x hx.1
        · exact hb.mono_right hsame.1
      · have hnot : Within x n ∧ Within n x → ¬ (x = p ∨ x ∈ l ∨ x ∈ m) := fun h => only_right hv h.1 hb
        rw [hbal, Tri.mem_node, Tri.mem_node, hmem]
        clear * - hnot
        tauto
    · have hzp : z = p := by
        have hnot := only_node hv hzn h h'
        rw [Tri.mem_node] at hz
        clear * - hz hnot hnz
        tauto
      subst hzp
      obtain ⟨hbal, vbal⟩ := balancetree_spec (.node d (supercede z n) l m r)
      refine ⟨balancetree (.node d (supercede z n) l m r), ?_,
        vbal (valid_change (lo_supercede z n).1 (lo_supercede z n).2 hv), fun x => ?_⟩
      · rw [addnode, hcmp]
      · have hnot : Within x n ∧ Within n x → ¬ (x ∈ l ∨ x ∈ m ∧ Within n x ∨ x ∈ r) :=
          fun hx => only_node hv hx.1 h h'
        have hz' : x = z → Within x n ∧ Within n x := fun hx => hx ▸ ⟨hzn, hnz⟩
        rw [hbal, Tri.mem_node, Tri.mem_node]
        clear * - hnot hz'
        tauto
    · exfalso
      rcases Tri.mem_node.mp hz with rfl | hz | hz | hz
      · exact h' hnz
      · exact (hl z hz).not_within' (h.trans hnz)
      · exact (hm z hz).2 (h.trans hnz)
      · exact (hr z hz).not_within (h.trans hnz)
    · obtain ⟨m', hadd, vm', hmem⟩ := ihm vm (fun y hy => hnest y (by simp [hy]))
        (mem_only_mid hv hzn hw hw' hz)
      obtain ⟨hbal, vbal⟩ := balancetree_spec (.node d p l m' r)
      refine ⟨balancetree (.node d p l m' r), ?_, vbal ⟨hl, fun x hx => ?_, hr, vl, vm', vr⟩, fun x => ?_⟩
      · rw [addnode, hcmp]
        simp only [hadd]
      · rcases (hmem x).mp hx with hx | rfl
        · exact hm x hx.1
        · exact ⟨hsame.1.trans hw, fun hp => hw' (hp.trans hsame.1)⟩
      · have hnot : Within x n ∧ Within n x → ¬ (x = p ∨ x ∈ l ∨ x ∈ r) := fun h => only_mid hv h.1 hw hw'
        rw [hbal, Tri.mem_node, Tri.mem_node, hmem]
        clear * - hnot
        tauto

end Add

section Merge

variable {t s : Tree} {queue : List Tree}

/-- Trees whose nodes do not interfere are merged node by node. -/
theorem walkadd_spec {root : Tree} (hroot : root.Valid) (hs : s.Valid)
    (hnest : ∀ x ∈ s, ∀ y, y ∈ root ∨ y ∈ s → Nested x y) (hsep : ∀ x ∈ s, ∀ y ∈ root, ¬ Within y x) :
    ∃ t, walkadd root queue s = (t, queue) ∧ t.Valid ∧ ∀ x, x ∈ t ↔ x ∈ root ∨ x ∈ s := by
  induction s generalizing root with
  | nil => exact ⟨root, rfl, hroot, fun x => by simp⟩
  | node d p l m r ihl ihm ihr =>
    obtain ⟨hl, hm, hr, vl, vm, vr⟩ := hs
    obtain ⟨t1, hadd1, vt1, hmem1⟩ := @addnode_quiet p m root queue hroot vm hm
      (fun y hy => hnest p (by simp) y (.inl hy)) (hsep p (by simp))
    have hall1 : ∀ y, y ∈ t1 → y ∈ root ∨ y ∈ Tri.node d p l m r := fun y hy => by
      rcases (hmem1 y).mp hy with hy | hy | hy
      · exact .inl hy
      · exact .inr (by simp [hy])
      · exact .inr (by simp [hy])
    have hsep1 : ∀ x ∈ l, ∀ y ∈ t1, ¬ Within y x := fun x hx y hy => by
      rcases (hmem1 y).mp hy with hy | rfl | hy
      · exact hsep x (by simp [hx]) y hy
      · exact (hl x hx).not_within'
      · exact ((hl x hx).mono_right (hm y hy).1).not_within'
    obtain ⟨t2, hadd2, vt2, hmem2⟩ := ihl vt1 vl
      (fun x hx y hy => hnest x (by simp [hx]) y (hy.elim (hall1 y) fun hy => .inr (by simp [hy]))) hsep1
    have hall2 : ∀ y, y ∈ t2 → y ∈ root ∨ y ∈ Tri.node d p l m r := fun y hy =>
      ((hmem2 y).mp hy).elim (hall1 y) fun hy => .inr (by simp [hy])
    have hsep2 : ∀ x ∈ r, ∀ y ∈ t2, ¬ Within y x := fun x hx y hy => by
      rcases (hmem2 y).mp hy with hy | hy
      · rcases (hmem1 y).mp hy with hy | rfl | hy
        · exact hsep x (by simp [hx]) y hy
        · exact (hr x hx).not_within
        · exact ((hr x hx).mono_left (hm y hy).1).not_within
      · exact ((hl y hy).trans (hr x hx)).not_within
    obtain ⟨t3, hadd3, vt3, hmem3⟩ := ihr vt2 vr
      (fun x hx y hy => hnest x (by simp [hx]) y (hy.elim (hall2 y) fun hy => .inr (by simp [hy]))) hsep2
    refine ⟨t3, ?_, vt3, fun x => ?_⟩
    · rw [walkadd, hadd1]
      simp only [hadd2, hadd3]
    · rw [hmem3, hmem2, hmem1, Tri.mem_node]
      clear * -
      tauto

theorem mergequeue_nil (k : ℕ) (root : Tree) : mergequeue k root [] = some root := by
  cases k with
  | zero => rfl
  | succ k => rfl

/-- The trees of the queue, one after the other. -/
theorem mergequeue_spec {root : Tree} (hroot : root.Valid) (hq : ∀ s ∈ queue, s.Valid)
    (hnest : ∀ x y, (x ∈ root ∨ ∃ s ∈ queue, x ∈ s) → (y ∈ root ∨ ∃ s ∈ queue, y ∈ s) → Nested x y)
    (hsep : ∀ s ∈ queue, ∀ x ∈ s, ∀ y ∈ root, ¬ Within y x)
    (happart : queue.Pairwise fun s s' => ∀ x ∈ s', ∀ y ∈ s, ¬ Within y x) {k : ℕ} (hk : queue.length ≤ k) :
    ∃ t, mergequeue k root queue = some t ∧ t.Valid ∧
      ∀ x, x ∈ t ↔ x ∈ root ∨ ∃ s ∈ queue, x ∈ s := by
  induction queue generalizing root k with
  | nil => exact ⟨root, mergequeue_nil k root, hroot, fun x => by simp⟩
  | cons s queue ih =>
    obtain ⟨k, rfl⟩ := Nat.exists_eq_add_of_le hk
    rw [List.forall_mem_cons] at hq hsep
    rw [List.pairwise_cons] at happart
    simp only [List.mem_cons, exists_eq_or_imp] at hnest ⊢
    obtain ⟨t1, hwalk, vt1, hmem1⟩ := @walkadd_spec s queue root hroot hq.1
      (fun x hx y hy => hnest x y (.inr (.inl hx)) (hy.imp_right .inl)) hsep.1
    have hall : ∀ x, x ∈ t1 ∨ (∃ s ∈ queue, x ∈ s) → x ∈ root ∨ x ∈ s ∨ ∃ s ∈ queue, x ∈ s := fun x hx => by
      rcases hx with hx | hx
      · exact ((hmem1 x).mp hx).imp_right .inl
      · exact .inr (.inr hx)
    obtain ⟨t2, hmerge, vt2, hmem2⟩ := ih vt1 hq.2 (fun x y hx hy => hnest x y (hall x hx) (hall y hy))
      (fun s' hs' x hx y hy => ((hmem1 y).mp hy).elim (hsep.2 s' hs' x hx y) (happart.1 s' hs' x hx y))
      happart.2 (Nat.le_add_right queue.length k)
    refine ⟨t2, ?_, vt2, fun x => ?_⟩
    · rw [List.length_cons, Nat.add_right_comm, mergequeue, hwalk]
      exact hmerge
    · rw [hmem2, hmem1, or_assoc]

end Merge

section Routes

variable {t : Tree} {n : Route}

def Same (x y : Route) : Prop := Within x y ∧ Within y x

/-- Adding a route: the entry of its range is changed, or there is one more entry. -/
theorem add1route_spec (k : ℕ) (ht : t.Valid)
    (hnest : ∀ x y, x ∈ t ∨ x = n → y ∈ t ∨ y = n → Nested x y) :
    ∃ t', add1route (k + 3) t n = some t' ∧ t'.Valid ∧
      ((∃ z ∈ t, Same z n ∧ ∀ x, x ∈ t' ↔ (x ∈ t ∧ ¬ Same x n) ∨ x = supercede z n) ∨
        (∀ z ∈ t, ¬ Same z n) ∧ ∀ x, x ∈ t' ↔ x ∈ t ∨ x = n) := by
  have hn : ∀ y ∈ t, Nested n y := fun y hy => hnest n y (.inr rfl) (.inl hy)
  by_cases hsame : ∃ z ∈ t, Same z n
  · obtain ⟨z, hz, hzn, hnz⟩ := hsame
    obtain ⟨t', hadd, vt', hmem⟩ := @addnode_equal n t [] ht hn z hz hzn hnz
    refine ⟨t', ?_, vt', .inl ⟨z, hz, ⟨hzn, hnz⟩, hmem⟩⟩
    rw [add1route, hadd]
    rfl
  · have hnew : ∀ z ∈ t, ¬ Same z n := fun z hz h => hsame ⟨z, hz, h⟩
    by_cases hover : ∃ z ∈ t, Within z n
    · obtain ⟨z, hz, hzn⟩ := hover
      obtain ⟨t1, s, hadd, hs, vt1, vs, hmem, hsep⟩ := @addnode_evict n t [] ht hn
        (fun y hy h h' => hnew y hy ⟨h, h'⟩) z hz hzn
      have hqueue : addqueue [] s = [s] := by
        cases s with
        | nil => exact absurd rfl hs
        | node d p l m r => rfl
      have hin : ∀ x, x ∈ t1 ∨ (∃ s' ∈ [s], x ∈ s') ↔ x ∈ t ∨ x = n := fun x => by
        rw [← hmem]
        simp
      obtain ⟨t', hmerge, vt', hmem'⟩ := @mergequeue_spec [s] t1 vt1 (by simpa using vs)
        (fun x y hx hy => hnest x y ((hin x).mp hx) ((hin y).mp hy)) (by simpa using hsep)
        (List.pairwise_singleton _ _) (k + 3) (by simp)
      refine ⟨t', ?_, vt', .inr ⟨hnew, fun x => (hmem' x).trans (hin x)⟩⟩
      rw [add1route, hadd, hqueue]
      exact hmerge
    · obtain ⟨t', hadd, vt', hmem⟩ := @addnode_quiet n .nil t [] ht trivial
        (fun x hx => absurd hx (Tri.not_mem_nil x)) hn (fun y hy h => hover ⟨y, hy, h⟩)
      refine ⟨t', ?_, vt', .inr ⟨hnew, fun x => by simpa using hmem x⟩⟩
      rw [add1route, hadd]
      rfl

theorem looknode_none (ht : t.Valid) (hnest : ∀ y ∈ t, Nested n y) (hnone : ∀ z ∈ t, ¬ Same z n) :
    looknode n t = none := by
  induction t with
  | nil => rfl
  | node d p l m r ihl ihm ihr =>
    obtain ⟨-, -, -, vl, vm, vr⟩ := ht
    rw [looknode]
    rcases rangecompare_cases (hnest p (by simp)) with
      ⟨hcmp, -⟩ | ⟨hcmp, -⟩ | ⟨-, h, h'⟩ | ⟨hcmp, -⟩ | ⟨hcmp, -⟩
    · rw [hcmp]
      exact ihl vl (fun y hy => hnest y (by simp [hy])) fun y hy => hnone y (by simp [hy])
    · rw [hcmp]
      exact ihr vr (fun y hy => hnest y (by simp [hy])) fun y hy => hnone y (by simp [hy])
    · exact absurd ⟨h', h⟩ (hnone p (by simp))
    · rw [hcmp]
    · rw [hcmp]
      exact ihm vm (fun y hy => hnest y (by simp [hy])) fun y hy => hnone y (by simp [hy])

/-- The ranges of a tree are among those of another. -/
def Ranges (s s' : Tree) : Prop := ∀ x ∈ s, ∃ w ∈ s', lo x = lo w ∧ hi x = hi w

/-- The node of a range is found, and what is put there does not interfere with the rest. -/
theorem looknode_spec (ht : t.Valid) (hnest : ∀ y ∈ t, Nested n y) {z : Route} (hz : z ∈ t) (hzn : Same z n) :
    ∃ (d : ℕ) (l m r : Tree) (rest : Route → Prop), looknode n t = some (.node d z l m r) ∧
      (Tri.node d z l m r).Valid ∧ (∀ x, x ∈ t ↔ rest x ∨ x ∈ Tri.node d z l m r) ∧
      (∀ x ∈ Tri.node d z l m r, ∀ y, rest y → ¬ Within y x) ∧
      ∀ s, s.Valid → Ranges s (.node d z l m r) →
        (putnode n s t).Valid ∧ ∀ x, x ∈ putnode n s t ↔ rest x ∨ x ∈ s := by
  induction t with
  | nil => exact absurd hz (Tri.not_mem_nil z)
  | node d p l m r ihl ihm ihr =>
    have hv := ht
    obtain ⟨hl, hm, hr, vl, vm, vr⟩ := ht
    rcases rangecompare_cases (hnest p (by simp)) with
      ⟨hcmp, hb⟩ | ⟨hcmp, hb⟩ | ⟨hcmp, h, h'⟩ | ⟨hcmp, h, h'⟩ | ⟨hcmp, hw, hw'⟩
    · obtain ⟨dz, lz, mz, rz, rest, hlook, vz, hmem, hsep, hput⟩ := ihl vl
        (fun y hy => hnest y (by simp [hy])) (mem_only_left hv hzn.1 hb hz)
      refine ⟨dz, lz, mz, rz, fun x => rest x ∨ x = p ∨ x ∈ m ∨ x ∈ r, ?_, vz, fun x => ?_,
        fun x hx y hy => ?_, fun s hs hranges => ?_⟩
      · rw [looknode, hcmp]
        exact hlook
      · rw [Tri.mem_node, hmem]
        clear * -
        tauto
      · have hxp : Before x p := hl x ((hmem x).mpr (.inr hx))
        rcases hy with hy | rfl | hy | hy
        · exact hsep x hx y hy
        · exact hxp.not_within'
        · exact (hxp.mono_right (hm y hy).1).not_within'
        · exact (hxp.trans (hr y hy)).not_within'
      · obtain ⟨vput, hmemput⟩ := hput s hs hranges
        rw [putnode, hcmp]
        refine ⟨⟨fun x hx => ?_, hm, hr, vput, vm, vr⟩, fun x => ?_⟩
        · rcases (hmemput x).mp hx with hx | hx
          · exact hl x ((hmem x).mpr (.inl hx))
          · obtain ⟨w, hw, -, hhi⟩ := hranges x hx
            rw [Before, hhi]
            exact hl w ((hmem w).mpr (.inr hw))
        · rw [Tri.mem_node, hmemput]
          clear * -
          tauto
    · obtain ⟨dz, lz, mz, rz, rest, hlook, vz, hmem, hsep, hput⟩ := ihr vr
        (fun y hy => hnest y (by simp [hy])) (mem_only_right hv hzn.1 hb hz)
      refine ⟨dz, lz, mz, rz, fun x => rest x ∨ x = p ∨ x ∈ l ∨ x ∈ m, ?_, vz, fun x => ?_,
        fun x hx y hy => ?_, fun s hs hranges => ?_⟩
      · rw [looknode, hcmp]
        exact hlook
      · rw [Tri.mem_node, hmem]
        clear * -
        tauto
      · have hxp : Before p x := hr x ((hmem x).mpr (.inr hx))
        rcases hy with hy | rfl | hy | hy
        · exact hsep x hx y hy
        · exact hxp.not_within
        · exact ((hl y hy).trans hxp).not_within
        · exact (hxp.mono_left (hm y hy).1).not_within
      · obtain ⟨vput, hmemput⟩ := hput s hs hranges
        rw [putnode, hcmp]
        refine ⟨⟨hl, hm, fun x hx => ?_, vl, vm, vput⟩, fun x => ?_⟩
        · rcases (hmemput x).mp hx with hx | hx
          · exact hr x ((hmem x).mpr (.inl hx))
          · obtain ⟨w, hw, hlo, -⟩ := hranges x hx
            rw [Before, hlo]
            exact hr w ((hmem w).mpr (.inr hw))
        · rw [Tri.mem_node, hmemput]
          clear * -
          tauto
    · have hzp : z = p := by
        have hnot := only_node hv hzn.1 h h'
        have hnz := hzn.2
        rw [Tri.mem_node] at hz
        clear * - hz hnot hnz
        tauto
      subst hzp
      refine ⟨d, l, m, r, fun _ => False, ?_, hv, fun x => by rw [false_or], fun _ _ _ h => h.elim,
        fun s hs _ => ?_⟩
      · rw [looknode, hcmp]
      · rw [putnode, hcmp]
        exact ⟨hs, fun x => by rw [false_or]⟩
    · exfalso
      rcases Tri.mem_node.mp hz with rfl | hz | hz | hz
      · exact h' hzn.2
      · exact (hl z hz).not_within' (h.trans hzn.2)
      · exact (hm z hz).2 (h.trans hzn.2)
      · exact (hr z hz).not_within (h.trans hzn.2)
    · obtain ⟨dz, lz, mz, rz, rest, hlook, vz, hmem, hsep, hput⟩ := ihm vm
        (fun y hy => hnest y (by simp [hy])) (mem_only_mid hv hzn.1 hw hw' hz)
      refine ⟨dz, lz, mz, rz, fun x => rest x ∨ x = p ∨ x ∈ l ∨ x ∈ r, ?_, vz, fun x => ?_,
        fun x hx y hy => ?_, fun s hs hranges => ?_⟩
      · rw [looknode, hcmp]
        exact hlook
      · rw [Tri.mem_node, hmem]
        clear * -
        tauto
      · have hxp := hm x ((hmem x).mpr (.inr hx))
        rcases hy with hy | rfl | hy | hy
        · exact hsep x hx y hy
        · exact hxp.2
        · exact fun hyx => (hl y hy).not_within (hyx.trans hxp.1)
        · exact fun hyx => (hr y hy).not_within' (hyx.trans hxp.1)
      · obtain ⟨vput, hmemput⟩ := hput s hs hranges
        rw [putnode, hcmp]
        refine ⟨⟨hl, fun x hx => ?_, hr, vl, vput, vr⟩, fun x => ?_⟩
        · rcases (hmemput x).mp hx with hx | hx
          · exact hm x ((hmem x).mpr (.inl hx))
          · obtain ⟨w, hw, hlo, hhi⟩ := hranges x hx
            rw [Within, Within, hlo, hhi]
            exact hm w ((hmem w).mpr (.inr hw))
        · rw [Tri.mem_node, hmemput]
          clear * -
          tauto

theorem mem_addqueue {s s' : Tree} {queue : List Tree} (h : s' ∈ addqueue queue s) : s' = s ∨ s' ∈ queue := by
  cases s with
  | nil => exact .inr h
  | node d p l m r => exact List.mem_cons.mp h

theorem exists_mem_addqueue {s : Tree} {queue : List Tree} {x : Route} :
    (∃ s' ∈ addqueue queue s, x ∈ s') ↔ x ∈ s ∨ ∃ s' ∈ queue, x ∈ s' := by
  cases s with
  | nil => simp [addqueue]
  | node d p l m r => simp only [addqueue, List.mem_cons, exists_eq_or_imp]

theorem pairwise_addqueue {s : Tree} {queue : List Tree} {R : Tree → Tree → Prop} (hq : queue.Pairwise R)
    (hs : ∀ s' ∈ queue, R s s') : (addqueue queue s).Pairwise R := by
  cases s with
  | nil => exact hq
  | node d p l m r => exact List.pairwise_cons.mpr ⟨hs, hq⟩

theorem length_addqueue (queue : List Tree) (s : Tree) : (addqueue queue s).length ≤ queue.length + 1 := by
  cases s with
  | nil => exact Nat.le_succ _
  | node d p l m r => exact le_rfl

/-- Deleting a route: one reference less, or the entry is gone. -/
theorem del1route_spec (k : ℕ) (ht : t.Valid) (hnest : ∀ x y, x ∈ t → y ∈ t → Nested x y) (hn : ∀ y ∈ t, Nested n y) :
    ∃ t', del1route (k + 3) t n = some t' ∧ t'.Valid ∧
      ((∃ z ∈ t, Same z n ∧ ∀ x, x ∈ t' ↔ (x ∈ t ∧ ¬ Same x n) ∨ z.ref - 1 ≠ 0 ∧ x = { z with ref := z.ref - 1 }) ∨
        (∀ z ∈ t, ¬ Same z n) ∧ t' = t) := by
  by_cases hsame : ∃ z ∈ t, Same z n
  · obtain ⟨z, hz, hzn⟩ := hsame
    obtain ⟨d, l, m, r, rest, hlook, vz, hmem, hsep, hput⟩ := looknode_spec ht hn hz hzn
    have hother : ∀ x, x ∈ t ∧ ¬ Same x n ↔ rest x ∨ x ∈ l ∨ x ∈ m ∨ x ∈ r := fun x => by
      have hrest : rest x → ¬ Same x n := fun hx h => hsep z (by simp) x hx (h.1.trans hzn.2)
      have hnot : Same x n → ¬ (x ∈ l ∨ x ∈ m ∧ Within n x ∨ x ∈ r) := fun h => only_node vz h.1 hzn.2 hzn.1
      have hin : Same x n → Within n x := fun h => h.2
      have hself : x = z → Same x n := fun h => h ▸ hzn
      rw [hmem, Tri.mem_node]
      clear * - hrest hnot hin hself
      tauto
    by_cases href : z.ref - 1 = 0
    · obtain ⟨hl, hm, hr, vl, vm, vr⟩ := vz
      obtain ⟨vput, hmemput⟩ := hput .nil trivial fun x hx => absurd hx (Tri.not_mem_nil x)
      have hrest : ∀ x, x ∈ putnode n .nil t ↔ rest x := fun x => by rw [hmemput]; simp
      have hqueue : ∀ s ∈ addqueue (addqueue (addqueue [] l) m) r, s = r ∨ s = m ∨ s = l := fun s hs => by
        rcases mem_addqueue hs with h | h
        · exact .inl h
        · rcases mem_addqueue h with h | h
          · exact .inr (.inl h)
          · exact .inr (.inr ((mem_addqueue h).resolve_right List.not_mem_nil))
      have hsub : ∀ s ∈ addqueue (addqueue (addqueue [] l) m) r, s.Valid ∧ ∀ x ∈ s, x ∈ Tri.node d z l m r :=
        fun s hs => by
          rcases hqueue s hs with rfl | rfl | rfl
          · exact ⟨vr, fun x hx => by simp [hx]⟩
          · exact ⟨vm, fun x hx => by simp [hx]⟩
          · exact ⟨vl, fun x hx => by simp [hx]⟩
      have hall : ∀ x, x ∈ putnode n .nil t ∨ (∃ s ∈ addqueue (addqueue (addqueue [] l) m) r, x ∈ s) → x ∈ t :=
        fun x hx => by
          rw [hmem]
          rcases hx with hx | ⟨s, hs, hx⟩
          · exact .inl ((hrest x).mp hx)
          · exact .inr ((hsub s hs).2 x hx)
      have happart : (addqueue (addqueue (addqueue [] l) m) r).Pairwise
          fun s s' => ∀ x ∈ s', ∀ y ∈ s, ¬ Within y x := by
        refine pairwise_addqueue (pairwise_addqueue (pairwise_addqueue .nil ?_) ?_) ?_
        · exact fun s hs => absurd hs List.not_mem_nil
        · intro s hs x hx y hy
          rcases mem_addqueue hs with rfl | h
          · exact ((hl x hx).mono_right (hm y hy).1).not_within'
          · exact absurd h List.not_mem_nil
        · intro s hs x hx y hy
          rcases mem_addqueue hs with rfl | h
          · exact fun hyx => (hr y hy).not_within' (hyx.trans (hm x hx).1)
          · rcases mem_addqueue h with rfl | h
            · exact ((hl x hx).trans (hr y hy)).not_within'
            · exact absurd h List.not_mem_nil
      have hlength : (addqueue (addqueue (addqueue [] l) m) r).length ≤ 3 :=
        (length_addqueue _ r).trans (Nat.succ_le_succ ((length_addqueue _ m).trans
          (Nat.succ_le_succ (length_addqueue [] l))))
      obtain ⟨t', hmerge, vt', hmem'⟩ := mergequeue_spec vput (fun s hs => (hsub s hs).1)
        (fun x y hx hy => hnest x y (hall x hx) (hall y hy))
        (fun s hs x hx y hy => hsep x ((hsub s hs).2 x hx) y ((hrest y).mp hy)) happart (hlength.trans (Nat.le_add_left 3 k))
      refine ⟨t', ?_, vt', .inl ⟨z, hz, hzn, fun x => ?_⟩⟩
      · rw [del1route, hlook]
        simp only [if_pos href]
        exact hmerge
      · rw [hmem', hrest, exists_mem_addqueue, exists_mem_addqueue, exists_mem_addqueue, hother]
        simp only [List.not_mem_nil, false_and, exists_false, href, ne_eq, not_true_eq_false]
        clear * -
        tauto
    · have hranges : Ranges (.node d { z with ref := z.ref - 1 } l m r) (.node d z l m r) := fun x hx => by
        rcases Tri.mem_node.mp hx with rfl | hx
        · exact ⟨z, by simp, rfl, rfl⟩
        · exact ⟨x, Tri.mem_node.mpr (.inr hx), rfl, rfl⟩
      have vnew : (Tri.node d { z with ref := z.ref - 1 } l m r).Valid :=
        @valid_change d d z _ l m r rfl rfl vz
      obtain ⟨vput, hmemput⟩ := hput _ vnew hranges
      refine ⟨_, ?_, vput, .inl ⟨z, hz, hzn, fun x => ?_⟩⟩
      · rw [del1route, hlook]
        simp only [if_neg href]
      · rw [hmemput, Tri.mem_node, hother]
        simp only [ne_eq, href, not_false_eq_true, true_and]
        clear * -
        tauto
  · have hnone : ∀ z ∈ t, ¬ Same z n := fun z hz h => hsame ⟨z, hz, h⟩
    refine ⟨t, ?_, ht, .inr ⟨hnone, rfl⟩⟩
    rw [del1route, looknode_none ht hn hnone]

end Routes

end Petele.Ip
