import Mathlib.Data.Finset.Card
import Mathlib.Order.Interval.Finset.Nat
import Petele.Qmalloc.Moves

namespace Petele.Qmalloc

open Petele.Lib

section Nodes

variable {k : Kernel} {s : Arena} {B : Blocks} {mem : Mem} {rover x y z p q n : ℕ} {l : List ℕ}

theorem RingOk.next (h : RingOk k mem rover B) (hx : OnRing k rover B x) :
    (link mem x = k.misclist ∧ ∀ y, OnRing k rover B y → y ≤ x) ∨
      (OnRing k rover B (link mem x) ∧ x < link mem x ∧ ∀ y, OnRing k rover B y → y ≤ x ∨ link mem x ≤ y) := by
  obtain ⟨l, hl, hsorted⟩ := h.list
  obtain ⟨l₁, l₂, rfl⟩ := hl.at hx
  obtain ⟨-, hxl, hl₁⟩ := List.pairwise_append.mp hsorted
  obtain ⟨hx₂, hl₂⟩ := List.pairwise_cons.mp hxl
  have hlow : ∀ y ∈ l₁, y ≤ x := fun y hy => Nat.le_of_lt (hl₁ y hy x List.mem_cons_self)
  obtain ⟨-, hpath⟩ := hl.path.split
  cases l₂ with
  | nil =>
    refine .inl ⟨hpath, fun y hy => ?_⟩
    rcases List.mem_append.mp ((hl.mem_iff y).mpr hy) with hy | hy
    · exact hlow y hy
    · exact Nat.le_of_eq (List.mem_singleton.mp hy)
  | cons w l₂ =>
    obtain ⟨rfl, -⟩ := hpath
    refine .inr ⟨(hl.mem_iff _).mp (by simp), hx₂ _ List.mem_cons_self, fun y hy => ?_⟩
    rcases List.mem_append.mp ((hl.mem_iff y).mpr hy) with hy | hy
    · exact .inl (hlow y hy)
    · rcases List.mem_cons.mp hy with rfl | hy
      · exact .inl (Nat.le_refl _)
      · rcases List.mem_cons.mp hy with rfl | hy
        · exact .inr (Nat.le_refl _)
        · exact .inr (Nat.le_of_lt ((List.pairwise_cons.mp hl₂).1 y hy))

/-- There are no more blocks than units, and `misclist`. -/
theorem Inv.list_length (h : Inv k s B) (hn : l.Nodup) (hl : ∀ x ∈ l, x = k.misclist ∨ ∃ t n, B x = some (t, n)) :
    l.length ≤ k.units + 1 := by
  have hsub : l.toFinset ⊆ insert k.misclist (Finset.Ico k.tailbase (k.tailbase + k.units)) := by
    intro x hx
    rw [List.mem_toFinset] at hx
    rcases hl x hx with rfl | ⟨t, n, hB⟩
    · exact Finset.mem_insert_self _ _
    · have hbounds := h.carved.bounds hB
      have htotal := h.total
      exact Finset.mem_insert_of_mem (Finset.mem_Ico.mpr (by omega))
  have hcard := Finset.card_le_card hsub
  rw [List.toFinset_card_of_nodup hn] at hcard
  have hle := Finset.card_insert_le k.misclist (Finset.Ico k.tailbase (k.tailbase + k.units))
  rw [Nat.card_Ico] at hle
  omega

/-- All the nodes, from any one of them. -/
theorem Inv.around (h : Inv k s B) (hx : OnRing k s.rover B x) :
    ∃ l, Path (link s.mem) x (x :: l) x ∧ (∀ y, y ∈ x :: l ↔ OnRing k s.rover B y) ∧ (x :: l).Nodup ∧ (x :: l).length ≤ k.turns := by
  obtain ⟨l, hl, -⟩ := h.ring.list
  obtain ⟨l₁, l₂, rfl⟩ := hl.at hx
  have hperm : (x :: (l₂ ++ l₁)).Perm (l₁ ++ x :: l₂) := @List.perm_append_comm _ (x :: l₂) l₁
  have hlen := h.list_length (hperm.nodup_iff.mpr hl.nodup) fun y hy =>
    ((hl.mem_iff y).mp (hperm.mem_iff.mp hy)).imp And.right fun ⟨n, hn⟩ => ⟨.misc, n, hn⟩
  refine ⟨l₂ ++ l₁, hl.path.rotate, fun y => hperm.mem_iff.trans (hl.mem_iff y), hperm.nodup_iff.mpr hl.nodup, ?_⟩
  simp only [Kernel.turns]
  omega

theorem exists_greatest (h : ∃ x ∈ l, x < p) : ∃ y ∈ l, y < p ∧ ∀ z ∈ l, z < p → z ≤ y := by
  induction l with
  | nil => simp at h
  | cons x l ih =>
    by_cases hl : ∃ x ∈ l, x < p
    · obtain ⟨y, hy, hlt, hmax⟩ := ih hl
      by_cases hxy : y < x ∧ x < p
      · refine ⟨x, List.mem_cons_self, hxy.2, fun z hz hzp => ?_⟩
        rcases List.mem_cons.mp hz with rfl | hz
        · exact Nat.le_refl _
        · have := hmax z hz hzp
          omega
      · refine ⟨y, List.mem_cons_of_mem _ hy, hlt, fun z hz hzp => ?_⟩
        rcases List.mem_cons.mp hz with rfl | hz
        · omega
        · exact hmax z hz hzp
    · obtain ⟨x', hx', hlt⟩ := h
      rcases List.mem_cons.mp hx' with rfl | hx'
      · refine ⟨x', List.mem_cons_self, hlt, fun z hz hzp => ?_⟩
        rcases List.mem_cons.mp hz with rfl | hz
        · exact Nat.le_refl _
        · exact absurd ⟨z, hz, hzp⟩ hl
      · exact absurd ⟨x', hx', hlt⟩ hl

/-- Where the loop of `qfreeinternal` stops. -/
def Stops (mem : Mem) (p q : ℕ) : Prop :=
  p > q ∧ p < (mem q).next ∨ q ≥ (mem q).next ∧ (p > q ∨ p < (mem q).next)

theorem neighbour_find {fuel : ℕ} (hpath : Path (link mem) x l z) (hy : ∃ y ∈ l, Stops mem p y) (hfuel : l.length ≤ fuel) :
    ∃ y ∈ l, neighbour mem p fuel x = some y ∧ Stops mem p y := by
  induction l generalizing x fuel with
  | nil => simp at hy
  | cons w l ih =>
    obtain ⟨rfl, hpath⟩ := hpath
    cases fuel with
    | zero => simp at hfuel
    | succ fuel =>
      rw [neighbour]
      by_cases h₁ : p > x ∧ p < (mem x).next
      · exact ⟨x, List.mem_cons_self, by rw [if_pos h₁], .inl h₁⟩
      · by_cases h₂ : x ≥ (mem x).next ∧ (p > x ∨ p < (mem x).next)
        · exact ⟨x, List.mem_cons_self, by rw [if_neg h₁, if_pos h₂], .inr h₂⟩
        · have hrest : ∃ y ∈ l, Stops mem p y := by
            obtain ⟨y, hmem, hstop⟩ := hy
            rcases List.mem_cons.mp hmem with rfl | hmem
            · exact absurd hstop (not_or.mpr ⟨h₁, h₂⟩)
            · exact ⟨y, hmem, hstop⟩
          obtain ⟨y, hmem, hrun, hstop⟩ := ih hpath hrest (by simpa using hfuel)
          exact ⟨y, List.mem_cons_of_mem _ hmem, by rw [if_neg h₁, if_neg h₂]; exact hrun, hstop⟩

/-- The node before a block that is not on the misc list. -/
theorem Inv.neighbour (h : Inv k s B) (hrover : s.rover ≠ 0) (hlow : k.misclist < p) (hp : ¬ OnRing k s.rover B p) :
    ∃ q, Qmalloc.neighbour s.mem p k.turns s.rover = some q ∧ OnRing k s.rover B q ∧ q < p ∧
      (p < link s.mem q ∨ link s.mem q = k.misclist) := by
  obtain ⟨l, hpath, hmem, -, hlen⟩ := h.around (h.ring.enter hrover)
  obtain ⟨y, hy, hyp, hmax⟩ := exists_greatest (p := p) ⟨k.misclist, (hmem _).mpr (.inl ⟨hrover, rfl⟩), hlow⟩
  have hstop : Stops s.mem p y := by
    rcases h.ring.next ((hmem y).mp hy) with ⟨hlast, -⟩ | ⟨hon, hlt, -⟩
    · rw [link] at hlast
      refine .inr ⟨?_, .inl hyp⟩
      have := (hmax k.misclist ((hmem _).mpr (.inl ⟨hrover, rfl⟩)) hlow)
      omega
    · refine .inl ⟨hyp, ?_⟩
      by_contra hle
      rw [link] at hon hlt
      rcases Nat.lt_or_ge (s.mem y).next p with hnp | hnp
      · have := hmax _ ((hmem _).mpr hon) hnp
        omega
      · obtain rfl : (s.mem y).next = p := by omega
        exact hp hon
  obtain ⟨q, hq, hrun, hstop⟩ := neighbour_find hpath ⟨y, hy, hstop⟩ hlen
  refine ⟨q, hrun, (hmem q).mp hq, ?_⟩
  rcases hstop with ⟨hqp, hpn⟩ | ⟨hge, hor⟩
  · exact ⟨hqp, .inl hpn⟩
  · rcases h.ring.next ((hmem q).mp hq) with ⟨hlast, -⟩ | ⟨-, hlt, -⟩
    · refine ⟨?_, .inr hlast⟩
      rw [link] at hlast
      omega
    · rw [link] at hlt
      omega

/-- The loops over the misc list come to a block that serves, or all the way around. -/
theorem roverfind_spec {serves : ℕ → Bool} {r fuel : ℕ} (hpath : Path (link mem) x l r) (hne : l ≠ []) (hfuel : l.length ≤ fuel) :
    (∃ q ∈ l, roverfind mem serves r fuel x = some (some (q, (mem q).next)) ∧ serves (mem q).next = true) ∨
      roverfind mem serves r fuel x = some none := by
  induction l generalizing x fuel with
  | nil => exact absurd rfl hne
  | cons w l ih =>
    obtain ⟨rfl, hpath⟩ := hpath
    cases fuel with
    | zero => simp at hfuel
    | succ fuel =>
      rw [roverfind]
      by_cases hs : serves (mem x).next = true
      · exact .inl ⟨x, List.mem_cons_self, by rw [if_pos hs], hs⟩
      · rw [if_neg hs]
        by_cases hr : (mem x).next = r
        · exact .inr (by rw [if_pos hr])
        · rw [if_neg hr]
          have hl : l ≠ [] := by
            rintro rfl
            exact hr hpath
          rcases ih hpath hl (by simpa using hfuel) with ⟨q, hq, hrun, hserve⟩ | hrun
          · exact .inl ⟨q, List.mem_cons_of_mem _ hq, hrun, hserve⟩
          · exact .inr hrun

theorem Inv.misc (h : Inv k s B) (serves : ℕ → Bool) :
    (∃ q p, Qmalloc.misc k s serves = some (some (q, p)) ∧ s.rover ≠ 0 ∧ OnRing k s.rover B q ∧ OnRing k s.rover B p ∧
      (s.mem q).next = p ∧ serves p = true) ∨ Qmalloc.misc k s serves = some none := by
  rw [Qmalloc.misc]
  by_cases hrover : s.rover = 0
  · exact .inr (by rw [if_pos hrover])
  · rw [if_neg hrover]
    obtain ⟨l, hpath, hmem, -, hlen⟩ := h.around (h.ring.enter hrover)
    rcases roverfind_spec hpath (List.cons_ne_nil _ _) hlen with ⟨q, hq, hrun, hserve⟩ | hrun
    · refine .inl ⟨q, _, hrun, hrover, (hmem q).mp hq, ?_, rfl, hserve⟩
      rcases h.ring.next ((hmem q).mp hq) with ⟨hlast, -⟩ | ⟨hon, -⟩
      · rw [link] at hlast
        rw [hlast]
        exact .inl ⟨hrover, rfl⟩
      · exact hon
    · exact .inr hrun

end Nodes

section Moves

variable {k : Kernel} {s : Arena} {B : Blocks} {p q n m : ℕ}

theorem Inv.node_pos (h : Inv k s B) (hq : OnRing k s.rover B q) : q ≠ 0 := by
  have hpos := k.misclist_pos
  rcases hq with ⟨-, rfl⟩ | ⟨n, hn⟩
  · omega
  · have := h.pos hn
    omega

theorem Inv.next_ne (h : Inv k s B) (hq : OnRing k s.rover B q) (hnext : (s.mem q).next = p) (hp : B p = some (.misc, n)) : p ≠ q := by
  rintro rfl
  rcases h.ring.next hq with ⟨hlast, -⟩ | ⟨-, hlt, -⟩
  · rw [link, hnext] at hlast
    exact h.ne_misclist hp hlast
  · rw [link, hnext] at hlt
    omega

theorem onRing_iff {rover rover' : ℕ} (hr : rover ≠ 0) (hr' : rover' ≠ 0) (x : ℕ) : OnRing k rover B x ↔ OnRing k rover' B x := by
  simp only [OnRing, hr, hr', ne_eq, not_false_eq_true, true_and]

/-- The loops may start at any node. -/
theorem Inv.reenter (h : Inv k s B) (hrover : s.rover ≠ 0) (hq : OnRing k s.rover B q) : Inv k { s with rover := q } B := by
  have hq0 := h.node_pos hq
  have hring := h.ring
  obtain ⟨l, hl, hsorted⟩ := hring.list
  refine ⟨h.carved, h.base, h.total, h.quick, h.few, ?_, h.live⟩
  refine ⟨⟨l, hl.frame (onRing_iff hq0 hrover) fun _ _ => rfl, hsorted⟩, hring.size, fun _ => hring.sentinel hrover, fun _ => ?_,
    fun h0 => absurd h0 hq0⟩
  exact (onRing_iff hrover hq0 q).mp hq

/-- The list gets made. -/
theorem Inv.start (h : Inv k s B) (hrover : s.rover = 0) :
    Inv k { s with mem := Function.update s.mem k.misclist ⟨k.misclist, 0⟩, rover := k.misclist } B := by
  have hpos := k.misclist_pos
  have hempty := h.ring.empty hrover
  have hmem : ∀ a t n, B a = some (t, n) → Function.update s.mem k.misclist ⟨k.misclist, 0⟩ a = s.mem a :=
    fun a t n ha => Function.update_of_ne (h.ne_misclist ha) _ _
  have hsame : ∀ t, Same t B B s.mem (Function.update s.mem k.misclist ⟨k.misclist, 0⟩) := fun t a n => ⟨Iff.rfl, hmem a t n⟩
  refine ⟨h.carved, h.base, h.total, fun i hi => (h.quick i hi).frame (hsame _), h.few, ?_, fun {a n} ha => ?_⟩
  · have hon : ∀ a, OnRing k k.misclist B a ↔ a = k.misclist := by
      intro a
      simp only [OnRing, hempty, exists_false, or_false, ne_eq, Nat.ne_of_gt hpos, not_false_eq_true, true_and]
    refine ⟨⟨[k.misclist], ⟨⟨rfl, ?_⟩, List.nodup_singleton _, fun a => ?_⟩, List.pairwise_singleton _ _⟩, fun ha => absurd ha (hempty _ _),
      fun _ => ?_, fun _ => (hon _).mpr rfl, fun h0 => by omega⟩
    · simp only [Lib.Path, link, Function.update_self]
    · rw [hon, List.mem_singleton]
    · simp only [Function.update_self]
  · dsimp only
    rw [hmem a _ n ha]
    exact h.live ha

/-- The block after the rover leaves the list. -/
theorem Inv.unlink (h : Inv k s B) (hrover : s.rover ≠ 0) (hrq : s.rover = q) (hnext : (s.mem q).next = p) (hp : B p = some (.misc, n)) :
    Inv k { s with mem := Function.update s.mem q { s.mem q with next := (s.mem p).next } } (Function.update B p (some (.held, n))) := by
  have hq : OnRing k s.rover B q := by
    rw [← hrq]
    exact h.ring.enter hrover
  obtain ⟨l, hl, hsorted⟩ := h.ring.list
  obtain ⟨l₁, l₂, rfl⟩ := hl.adjacent hq (by rw [link, hnext]; exact h.ne_misclist hp)
  rw [link, hnext] at hl hsorted
  have hqp : q ≠ p := by
    have hnodup := hl.nodup
    simp only [List.nodup_append, List.nodup_cons, List.mem_cons, not_or] at hnodup
    exact hnodup.2.1.1.1
  have hon : ∀ a, OnRing k s.rover (Function.update B p (some (.held, n))) a ↔ a ≠ p ∧ OnRing k s.rover B a := by
    intro a
    simp only [OnRing, Function.update_apply]
    by_cases hap : a = p
    · subst hap
      simp [h.ne_misclist hp]
    · simp [hap]
  have hqheld : ∀ t, t ≠ Place.misc → ∀ j, B q ≠ some (t, j) := by
    intro t ht j hj
    rcases hq with ⟨-, rfl⟩ | ⟨m, hm⟩
    · exact h.ne_misclist hj rfl
    · exact place_ne hm ht j hj
  have hsame : ∀ t ≠ Place.held, t ≠ .misc →
      Same t B (Function.update B p (some (.held, n))) s.mem (Function.update s.mem q { s.mem q with next := (s.mem p).next }) := by
    intro t ht htm
    exact (same_write s.mem (hqheld t htm) _).trans (same_update _ (place_ne hp htm) (some_ne ht _))
  refine ⟨h.carved.move hp _, h.base, h.total, fun i hi => (h.quick i hi).frame (hsame _ (by simp) (by simp)), fun {a i m} ha => ?_, ?_,
    fun {a m} ha => ?_⟩
  · exact h.few ((hsame (.quick i) (by simp) (by simp) a m).1.mp ha)
  · refine ⟨⟨l₁ ++ q :: l₂, hl.unlink hon ?_ ?_, ?_⟩, fun {a m} ha => ?_, fun hr => ?_, fun hr => ?_, fun hr => absurd hr hrover⟩
    · simp only [link, Function.update_self]
    · intro a _ haq _
      simp only [link, Function.update_of_ne haq]
    · exact hsorted.sublist (List.Sublist.append_left ((List.sublist_cons_self p l₂).cons_cons q) l₁)
    · rw [Function.update_apply] at ha
      split at ha
      · cases ha
      · dsimp only
        rw [Function.update_apply]
        split
        · rename_i haq
          subst haq
          exact h.ring.size ha
        · exact h.ring.size ha
    · dsimp only
      rw [Function.update_apply]
      split
      · rename_i heq
        rw [← heq]
        exact h.ring.sentinel hrover
      · exact h.ring.sentinel hrover
    · dsimp only
      rw [hon, hrq]
      exact ⟨hqp, hrq ▸ hq⟩
  · have hold := (hsame .live (by simp) (by simp) a m).1.mp ha
    dsimp only
    rw [(hsame .live (by simp) (by simp) a m).2 hold]
    exact h.live hold

/-- A block on the list gets another size. -/
theorem RingOk.resize {mem mem' : Mem} {rover : ℕ} {B' : Blocks} (h : RingOk k mem rover B) (hp : B p = some (.misc, n)) (n' : ℕ)
    (hp' : B' p = some (.misc, n')) (hw : mem' p = ⟨(mem p).next, n'⟩)
    (hB : ∀ a j, a ≠ p → (B' a = some (.misc, j) ↔ B a = some (.misc, j)))
    (hmem : ∀ a j, a ≠ p → B a = some (.misc, j) → mem' a = mem a) (hmisc : mem' k.misclist = mem k.misclist) : RingOk k mem' rover B' := by
  obtain ⟨l, hl, hsorted⟩ := h.list
  have hon : ∀ a, OnRing k rover B' a ↔ OnRing k rover B a := by
    intro a
    by_cases hap : a = p
    · subst hap
      simp only [OnRing, hp, hp', Option.some.injEq, Prod.mk.injEq, true_and, exists_eq', or_true]
    · simp only [OnRing, hB a _ hap]
  refine ⟨⟨l, hl.frame hon ?_, hsorted⟩, fun {a j} ha => ?_, ?_, fun hr => (hon _).mpr (h.enter hr), fun hr => absurd hp (h.empty hr p n)⟩
  · rintro a (⟨-, rfl⟩ | ⟨j, ha⟩)
    · rw [link, hmisc, link]
    · by_cases hap : a = p
      · subst hap
        rw [link, hw, link]
      · rw [link, hmem a j hap ha, link]
  · by_cases hap : a = p
    · subst hap
      rw [hw]
      exact (Prod.mk.inj (Option.some.inj (hp'.symm.trans ha))).2
    · have hold := (hB a j hap).mp ha
      rw [hmem a j hap hold]
      exact h.size hold
  · rw [hmisc]
    exact h.sentinel

/-- The end of a block on the list is taken. -/
theorem Inv.shrink (h : Inv k s B) (hp : B p = some (.misc, n)) (hm : 0 < m) (hmn : m < n) :
    Inv k { s with mem := Function.update (Function.update s.mem p { s.mem p with size := n - m }) (p + (n - m)) ⟨k.checkval, m⟩ }
      (Function.update (Function.update B p (some (.misc, n - m))) (p + (n - m)) (some (.held, m))) := by
  have hne : p + (n - m) ≠ p := by omega
  have hgap : ∀ t j, B (p + (n - m)) ≠ some (t, j) := by
    intro t j hj
    have := h.carved.apart hp hj (by omega)
    omega
  have hcarved := h.carved.cut hp (show 0 < n - m by omega) (by omega) .misc .held
  rw [show n - (n - m) = m by omega] at hcarved
  have hmisc : p + (n - m) ≠ k.misclist := by
    have := h.pos hp
    omega
  have hsame : ∀ t ≠ Place.held, t ≠ .misc → Same t B
      (Function.update (Function.update B p (some (.misc, n - m))) (p + (n - m)) (some (.held, m))) s.mem
      (Function.update (Function.update s.mem p { s.mem p with size := n - m }) (p + (n - m)) ⟨k.checkval, m⟩) := by
    intro t ht htm a j
    constructor
    · rw [update_place (fun j hj => ?_) (some_ne ht _), update_place (place_ne hp htm) (some_ne htm _)]
      rw [Function.update_of_ne hne] at hj
      exact hgap t j hj
    · intro ha
      rw [update_away (hgap t) _ _ ha, update_away (place_ne hp htm) _ _ ha]
  refine ⟨hcarved, h.base, h.total, fun i hi => (h.quick i hi).frame (hsame _ (by simp) (by simp)), fun {a i j} ha => ?_, ?_,
    fun {a j} ha => ?_⟩
  · exact h.few ((hsame (.quick i) (by simp) (by simp) a j).1.mp ha)
  · refine h.ring.resize hp (n - m) ?_ ?_ (fun a j hap => ?_) (fun a j hap ha => ?_) ?_
    · rw [Function.update_of_ne hne.symm, Function.update_self]
    · simp only [Function.update_of_ne hne.symm, Function.update_self]
    · rw [update_place (fun j hj => ?_) (some_ne (by simp) _), Function.update_of_ne hap]
      rw [Function.update_of_ne hne] at hj
      exact hgap _ j hj
    · dsimp only
      rw [update_away (hgap _) _ _ ha, Function.update_of_ne hap]
    · dsimp only
      rw [Function.update_of_ne hmisc.symm, Function.update_of_ne (h.ne_misclist hp).symm]
  · have hold := (hsame .live (by simp) (by simp) a j).1.mp ha
    dsimp only
    rw [(hsame .live (by simp) (by simp) a j).2 hold]
    exact h.live hold

/-- Two blocks of the running operation that touch. -/
theorem Inv.join (h : Inv k s B) (hp : B p = some (.held, n)) (hq : B (p + n) = some (.held, m)) :
    Inv k s (Function.update (Function.update B (p + n) none) p (some (.held, n + m))) := by
  have hpos := (h.carved.bounds hp).1
  refine h.frame (h.carved.join hp hq _) h.base h.total (fun t ht => ?_) rfl rfl rfl
  refine (same_update s.mem (v := none) (place_ne hq ht) fun _ => nofun).trans (same_update s.mem (fun j hj => ?_) (some_ne ht _))
  rw [Function.update_of_ne (by omega)] at hj
  exact place_ne hp ht j hj

/-- A block on the list takes in the one of the running operation behind it. -/
theorem Inv.grow (h : Inv k s B) (hq : B q = some (.misc, m)) (hp : B (q + m) = some (.held, n)) :
    Inv k { s with mem := Function.update s.mem q ⟨(s.mem q).next, m + n⟩ }
      (Function.update (Function.update B (q + m) none) q (some (.misc, m + n))) := by
  have hpos := (h.carved.bounds hq).1
  have hne : q + m ≠ q := by omega
  have hsame : ∀ t ≠ Place.held, t ≠ .misc → Same t B (Function.update (Function.update B (q + m) none) q (some (.misc, m + n))) s.mem
      (Function.update s.mem q ⟨(s.mem q).next, m + n⟩) := by
    intro t ht htm
    refine (same_update s.mem (v := none) (place_ne hp ht) fun _ => nofun).trans (((same_update s.mem (fun j hj => ?_) (some_ne htm _))).trans
      (same_write s.mem (fun j hj => ?_) _))
    · rw [Function.update_of_ne hne.symm] at hj
      exact place_ne hq htm j hj
    · rw [Function.update_self] at hj
      exact some_ne htm _ _ hj
  refine ⟨h.carved.join hq hp _, h.base, h.total, fun i hi => (h.quick i hi).frame (hsame _ (by simp) (by simp)), fun {a i j} ha => ?_, ?_,
    fun {a j} ha => ?_⟩
  · exact h.few ((hsame (.quick i) (by simp) (by simp) a j).1.mp ha)
  · refine h.ring.resize hq (m + n) ?_ ?_ (fun a j haq => ?_) (fun a j haq _ => ?_) ?_
    · rw [Function.update_self]
    · simp only [Function.update_self]
    · rw [Function.update_of_ne haq, update_place (v := none) (place_ne hp (by simp)) fun _ => nofun]
    · simp only [Function.update_of_ne haq]
    · simp only [Function.update_of_ne (h.ne_misclist hq).symm]
  · have hold := (hsame .live (by simp) (by simp) a j).1.mp ha
    dsimp only
    rw [(hsame .live (by simp) (by simp) a j).2 hold]
    exact h.live hold

/-- A block of the running operation comes on the list, behind the rover. -/
theorem Inv.insert (h : Inv k s B) (hrover : s.rover ≠ 0) (hrq : s.rover = q) (hp : B p = some (.held, n))
    (hw : s.mem p = ⟨(s.mem q).next, n⟩) (hqp : q < p) (hnext : p < (s.mem q).next ∨ (s.mem q).next = k.misclist) :
    Inv k { s with mem := Function.update s.mem q { s.mem q with next := p } } (Function.update B p (some (.misc, n))) := by
  have hq : OnRing k s.rover B q := by
    rw [← hrq]
    exact h.ring.enter hrover
  obtain ⟨l, hl, hsorted⟩ := h.ring.list
  obtain ⟨l₁, l₂, rfl⟩ := hl.at hq
  have hoff : ¬ OnRing k s.rover B p := by
    rintro (⟨-, heq⟩ | ⟨j, hj⟩)
    · exact h.ne_misclist hp heq
    · exact place_ne hp (by simp) j hj
  have hon : ∀ a, OnRing k s.rover (Function.update B p (some (.misc, n))) a ↔ a = p ∨ OnRing k s.rover B a := by
    intro a
    simp only [OnRing, Function.update_apply]
    by_cases hap : a = p
    · simp [hap]
    · simp [hap]
  have hqheld : ∀ t, t ≠ Place.misc → ∀ j, B q ≠ some (t, j) := by
    intro t ht j hj
    rcases hq with ⟨-, rfl⟩ | ⟨m, hm⟩
    · exact h.ne_misclist hj rfl
    · exact place_ne hm ht j hj
  have hsame : ∀ t ≠ Place.held, t ≠ .misc →
      Same t B (Function.update B p (some (.misc, n))) s.mem (Function.update s.mem q { s.mem q with next := p }) := by
    intro t ht htm
    exact (same_write s.mem (hqheld t htm) _).trans (same_update _ (place_ne hp ht) (some_ne htm _))
  refine ⟨h.carved.move hp _, h.base, h.total, fun i hi => (h.quick i hi).frame (hsame _ (by simp) (by simp)), fun {a i m} ha => ?_, ?_,
    fun {a m} ha => ?_⟩
  · exact h.few ((hsame (.quick i) (by simp) (by simp) a m).1.mp ha)
  · refine ⟨⟨l₁ ++ q :: p :: l₂, hl.link hoff hon ?_ ?_ ?_, ?_⟩, fun {a m} ha => ?_, fun hr => ?_, fun hr => ?_, fun hr => absurd hr hrover⟩
    · simp only [link, Function.update_self]
    · simp only [link, Function.update_of_ne (Nat.ne_of_gt hqp), hw]
    · intro a _ haq
      simp only [link, Function.update_of_ne haq]
    · obtain ⟨hl₁, hql, hcross⟩ := List.pairwise_append.mp hsorted
      obtain ⟨hq₂, hl₂⟩ := List.pairwise_cons.mp hql
      have hp₂ : ∀ y ∈ l₂, p < y := by
        obtain ⟨-, hpath⟩ := hl.path.split
        cases l₂ with
        | nil => intros; contradiction
        | cons w l₂ =>
          obtain ⟨rfl, -⟩ := hpath
          have hfirst : p < link s.mem q := by
            rcases hnext with hlt | hlast
            · exact hlt
            · have hqw := hq₂ _ List.mem_cons_self
              have hlow : k.misclist ≤ q := by
                rcases hq with ⟨-, rfl⟩ | ⟨m, hm⟩
                · exact Nat.le_refl _
                · exact Nat.le_of_lt (h.pos hm)
              rw [link] at hqw
              omega
          intro y hy
          rcases List.mem_cons.mp hy with rfl | hy
          · exact hfirst
          · exact Nat.lt_trans hfirst ((List.pairwise_cons.mp hl₂).1 y hy)
      refine List.pairwise_append.mpr ⟨hl₁, List.pairwise_cons.mpr ⟨fun y hy => ?_, List.pairwise_cons.mpr ⟨hp₂, hl₂⟩⟩, fun x hx y hy => ?_⟩
      · rcases List.mem_cons.mp hy with rfl | hy
        · exact hqp
        · exact hq₂ y hy
      · have hxq := hcross x hx q List.mem_cons_self
        rcases List.mem_cons.mp hy with rfl | hy
        · exact hxq
        · rcases List.mem_cons.mp hy with rfl | hy
          · exact Nat.lt_trans hxq hqp
          · exact hcross x hx y (List.mem_cons_of_mem _ hy)
    · rw [Function.update_apply] at ha
      dsimp only
      split at ha
      · rename_i hap
        rw [hap, Function.update_of_ne (Nat.ne_of_gt hqp), hw]
        exact (Prod.mk.inj (Option.some.inj ha)).2
      · rw [Function.update_apply]
        split
        · rename_i haq
          subst haq
          exact h.ring.size ha
        · exact h.ring.size ha
    · dsimp only
      rw [Function.update_apply]
      split
      · rename_i heq
        rw [← heq]
        exact h.ring.sentinel hrover
      · exact h.ring.sentinel hrover
    · dsimp only
      rw [hon]
      exact .inr (h.ring.enter hrover)
  · have hold := (hsame .live (by simp) (by simp) a m).1.mp ha
    dsimp only
    rw [(hsame .live (by simp) (by simp) a m).2 hold]
    exact h.live hold

end Moves

end Petele.Qmalloc
