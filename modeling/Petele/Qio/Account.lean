import Petele.Qio.System
import Mathlib.Algebra.BigOperators.Group.List.Basic

namespace Petele.Qio

open Lib

variable {n : ℕ} {m m' : Mem n} {q q' : Queue n} {p : Option (Fin n)}

/-- A block without its link. -/
structure Cell (n : ℕ) where
  addr : Fin n
  alloc : ℕ
  data : List UInt8

def cell (x : Fin n × Block n) : Cell n := ⟨x.1, x.2.alloc, x.2.data⟩

def cells (l : List (Fin n × Block n)) : List (Cell n) := l.map cell

/-- The sum of `BALLOC`. -/
def allocs (c : List (Cell n)) : ℕ := (c.map Cell.alloc).sum

/-- The sum of `BLEN`. -/
def lens (c : List (Cell n)) : ℕ := (c.map fun x => x.data.length).sum

def places (c : List (Cell n)) : List (Fin n) := c.map Cell.addr

/-- The queue holds the blocks `c`: they are its list, `blast` is the last of them and the counters
are their sums. -/
structure Has (m : Mem n) (q : Queue n) (c : List (Cell n)) : Prop where
  chain : ∃ l, Chain Block.next m q.bfirst l ∧ cells l = c
  last : ∀ x, c.getLast? = some x → q.blast = some x.addr
  len : q.len = wrap (allocs c)
  dlen : q.dlen = wrap (lens c)

section Cells

@[simp] theorem cells_append (l l' : List (Fin n × Block n)) :
    cells (l ++ l') = cells l ++ cells l' :=
  List.map_append

@[simp] theorem places_cells (l : List (Fin n × Block n)) : places (cells l) = addrs l := by
  simp only [places, cells, addrs, List.map_map]
  rfl

@[simp] theorem places_cons (x : Cell n) (c : List (Cell n)) :
    places (x :: c) = x.addr :: places c :=
  rfl

@[simp] theorem places_append (c c' : List (Cell n)) : places (c ++ c') = places c ++ places c' :=
  List.map_append

@[simp] theorem allocs_cons (x : Cell n) (c : List (Cell n)) :
    allocs (x :: c) = x.alloc + allocs c :=
  List.sum_cons

@[simp] theorem lens_cons (x : Cell n) (c : List (Cell n)) :
    lens (x :: c) = x.data.length + lens c :=
  List.sum_cons

@[simp] theorem allocs_append (c c' : List (Cell n)) : allocs (c ++ c') = allocs c + allocs c' := by
  simp [allocs]

@[simp] theorem lens_append (c c' : List (Cell n)) : lens (c ++ c') = lens c + lens c' := by
  simp [lens]

theorem wrap_foldl {α : Type} (f : α → ℕ) (l : List α) (z : ℤ) :
    l.foldl (fun len x => wrap (len + f x)) (wrap z) = wrap (z + (l.map f).sum) := by
  induction l generalizing z with
  | nil => simp
  | cons x l ih =>
    rw [List.foldl_cons, wrap_wrap_add, ih, List.map_cons, List.sum_cons, Int.natCast_add,
      Int.add_assoc]

theorem blockalloclen_eq (l : List (Fin n × Block n)) :
    blockalloclen l = wrap (allocs (cells l)) := by
  have hfold := wrap_foldl (fun x => BALLOC x.2) l 0
  rw [wrap_zero, Int.zero_add] at hfold
  rw [blockalloclen, hfold, allocs, cells, List.map_map]
  rfl

theorem blocklen_eq (l : List (Fin n × Block n)) : blocklen l = wrap (lens (cells l)) := by
  have hfold := wrap_foldl (fun x => BLEN x.2) l 0
  rw [wrap_zero, Int.zero_add] at hfold
  rw [blocklen, hfold, lens, cells, List.map_map]
  rfl

end Cells

section Lists

theorem blocks_eq {l : List (Fin n × Block n)} (h : Chain Block.next m p l) :
    blocks m p = some l := by
  have hlen := h.length_le
  rw [Fintype.card_fin] at hlen
  exact h.walk_eq hlen

theorem freeb_eq {x : Fin n} {b : Block n} (h : m x = some b) :
    freeb m x = some (Function.update m x none) := by
  rw [freeb, h]
  rfl

theorem freeblist_eq {l : List (Fin n × Block n)} (h : Chain Block.next m p l) :
    ∃ m', freeblist m p = some m' ∧ (∀ y ∉ addrs l, m' y = m y) ∧ ∀ y ∈ addrs l, m' y = none := by
  have hfree : ∀ (k : List (Fin n × Block n)) (m : Mem n), (addrs k).Nodup →
      (∀ x ∈ k, m x.1 = some x.2) →
      ∃ m', k.foldlM (fun m x => freeb m x.1) m = some m' ∧ (∀ y ∉ addrs k, m' y = m y) ∧
        ∀ y ∈ addrs k, m' y = none := by
    intro k
    induction k with
    | nil => exact fun m _ _ => ⟨m, rfl, fun _ _ => rfl, nofun⟩
    | cons x k ih =>
      intro m hnodup hmem
      obtain ⟨hx, hk⟩ := List.nodup_cons.mp hnodup
      have hrest : ∀ z ∈ k, Function.update m x.1 none z.1 = some z.2 := by
        intro z hz
        have hne : z.1 ≠ x.1 := fun heq => hx (heq ▸ mem_addrs_of_mem hz)
        rw [Function.update_of_ne hne]
        exact hmem z (List.mem_cons_of_mem _ hz)
      obtain ⟨m', hfold, hframe, hfreed⟩ := ih _ hk hrest
      refine ⟨m', ?_, ?_, ?_⟩
      · rw [List.foldlM_cons, freeb_eq (hmem x List.mem_cons_self)]
        exact hfold
      · intro y hy
        rw [addrs_cons, List.mem_cons, not_or] at hy
        rw [hframe y hy.2, Function.update_of_ne hy.1]
      · intro y hy
        rcases List.mem_cons.mp hy with rfl | htail
        · rw [hframe x.1 hx, Function.update_self]
        · exact hfreed y htail
  rw [freeblist, blocks_eq h]
  exact hfree l m h.nodup fun x hx => Seg.lookup h hx

end Lists

section Holding

variable {c c' : List (Cell n)} {x : Fin n}

theorem Has.nil (hfirst : q.bfirst = none) (hlen : q.len = 0) (hdlen : q.dlen = 0) :
    Has m q [] where
  chain := ⟨[], hfirst, rfl⟩
  last := nofun
  len := hlen.trans wrap_zero.symm
  dlen := hdlen.trans wrap_zero.symm

theorem Has.empty (h : Has m q c) (hfirst : q.bfirst = none) : c = [] := by
  obtain ⟨l, hl, rfl⟩ := h.chain
  rw [hfirst] at hl
  have hnil : Chain Block.next m none [] := rfl
  rw [hl.unique hnil]
  rfl

/-- The parts of the memory and of the queue that count. -/
theorem Has.congr (h : Has m q c) (hm : ∀ y ∈ places c, m' y = m y) (hfirst : q'.bfirst = q.bfirst)
    (hlast : q'.blast = q.blast) (hlen : q'.len = q.len) (hdlen : q'.dlen = q.dlen) :
    Has m' q' c where
  chain := by
    obtain ⟨l, hl, rfl⟩ := h.chain
    rw [places_cells] at hm
    exact ⟨l, hfirst ▸ Seg.frame hl hm, rfl⟩
  last := by
    intro y hy
    rw [hlast]
    exact h.last y hy
  len := by rw [hlen, h.len]
  dlen := by rw [hdlen, h.dlen]

theorem Has.nodup (h : Has m q c) : (places c).Nodup := by
  obtain ⟨l, hl, rfl⟩ := h.chain
  rw [places_cells]
  exact hl.nodup

/-- The first block, and what is left when it goes. -/
theorem Has.pop (h : Has m q c) (hfirst : q.bfirst = some x) :
    ∃ b cs, m x = some b ∧ c = cell (x, b) :: cs ∧ x ∉ places cs ∧
      ∀ {m' : Mem n} {q' : Queue n}, (∀ y ∈ places cs, m' y = m y) → q'.bfirst = b.next →
        q'.blast = q.blast → q'.len = wrap (q.len - BALLOC b) →
        q'.dlen = wrap (q.dlen - BLEN b) → Has m' q' cs := by
  obtain ⟨l, hl, rfl⟩ := h.chain
  rw [hfirst] at hl
  cases l with
  | nil => cases hl
  | cons y l =>
    obtain ⟨y, b⟩ := y
    obtain ⟨hy, hmem, hrest⟩ := hl
    have hxy : x = y := Option.some.inj hy
    subst hxy
    have hx : x ∉ places (cells l) := (List.nodup_cons.mp h.nodup).1
    refine ⟨b, cells l, hmem, rfl, hx, ?_⟩
    intro m' q' hm hfirst' hlast hlen hdlen
    rw [places_cells] at hm
    refine ⟨⟨l, hfirst' ▸ Seg.frame hrest hm, rfl⟩, ?_, ?_, ?_⟩
    · intro z hz
      rw [hlast]
      apply h.last z
      have hne : cells l ≠ [] := fun hnil => by
        rw [hnil] at hz
        cases hz
      exact (List.getLast?_cons_of_ne_nil hne).trans hz
    · rw [hlen, h.len]
      simp [cells, cell, BALLOC]
    · rw [hdlen, h.dlen]
      simp [cells, cell, BLEN]

/-- A block is put in front. -/
theorem Has.push (h : Has m q c) {b : Block n} (hx : x ∉ places c)
    (hm : ∀ y ∈ places c, m' y = m y) (hmem : m' x = some (b.link q.bfirst))
    (hfirst : q'.bfirst = some x)
    (hlast : q'.blast = if q.bfirst.isNone then some x else q.blast)
    (hlen : q'.len = wrap (q.len + BALLOC b)) (hdlen : q'.dlen = wrap (q.dlen + BLEN b)) :
    Has m' q' (cell (x, b) :: c) where
  chain := by
    obtain ⟨l, hl, rfl⟩ := h.chain
    rw [places_cells] at hm
    exact ⟨(x, b.link q.bfirst) :: l, ⟨hfirst, hmem, Seg.frame hl hm⟩, rfl⟩
  last := by
    intro y hy
    cases hc : c with
    | nil =>
      obtain ⟨l, hl, rfl⟩ := h.chain
      have hnil : l = [] := List.map_eq_nil_iff.mp hc
      rw [hnil] at hl
      have hnone : q.bfirst = none := hl
      rw [hc] at hy
      have hy : cell (x, b) = y := Option.some.inj hy
      rw [hlast, hnone, ← hy]
      rfl
    | cons z c =>
      have hsome : q.bfirst.isNone = false := by
        cases hq : q.bfirst with
        | none => rw [h.empty hq] at hc; cases hc
        | some w => rfl
      rw [hlast, hsome]
      apply h.last y
      rw [hc] at hy ⊢
      rwa [List.getLast?_cons_cons] at hy
  len := by
    rw [hlen, h.len, wrap_wrap_add, allocs_cons, Int.natCast_add, Int.add_comm]
    rfl
  dlen := by
    rw [hdlen, h.dlen, wrap_wrap_add, lens_cons, Int.natCast_add, Int.add_comm]
    rfl

/-- The first `k` bytes of the first block are used up. -/
theorem Has.advance {cs : List (Cell n)} {b : Block n} {k : ℕ} (h : Has m q (cell (x, b) :: cs))
    (hk : k ≤ BLEN b) (hmem : m x = some b) (hdlen : q'.dlen = wrap (q.dlen - k))
    (hfirst : q'.bfirst = q.bfirst) (hlast : q'.blast = q.blast) (hlen : q'.len = q.len) :
    Has (Function.update m x (some (b.advance k))) q' (cell (x, b.advance k) :: cs) := by
  obtain ⟨l, hl, hcells⟩ := h.chain
  cases l with
  | nil => cases hcells
  | cons y l =>
    obtain ⟨y, b'⟩ := y
    rw [cells, List.map_cons] at hcells
    injection hcells with hcell hrest
    have hy : y = x := congrArg Cell.addr hcell
    subst hy
    have hb : b' = b := by
      have := hl.2.1
      rw [hmem] at this
      exact (Option.some.inj this).symm
    subst hb
    have hadvance : (b'.advance k).next = b'.next := rfl
    have hhead := hl.set_head hadvance
    refine ⟨⟨_, hfirst ▸ hhead, by rw [← hrest]; rfl⟩, ?_, ?_, ?_⟩
    · intro z hz
      rw [hlast]
      cases cs with
      | nil =>
        have hz : cell (y, b'.advance k) = z := Option.some.inj hz
        rw [← hz]
        exact h.last (cell (y, b')) rfl
      | cons w cs =>
        apply h.last z
        rwa [List.getLast?_cons_cons] at hz ⊢
    · rw [hlen, h.len]
      rfl
    · have hsum : (lens (cell (y, b') :: cs) : ℤ) - k = lens (cell (y, b'.advance k) :: cs) := by
        simp only [lens_cons, cell, Block.advance, List.length_drop, BLEN] at hk ⊢
        omega
      rw [hdlen, h.dlen, wrap_wrap_sub, hsum]

/-- Blocks are linked behind the last one. What is linked may still change, so the list from `x`
on is looked at in the memory at the end of the section. -/
theorem attach_spec (h : Has m q c) (x : Fin n) :
    ∃ s, attach ⟨m, q⟩ x = some s ∧ s.q = { q with bfirst := s.q.bfirst } ∧
      (∀ y ∉ places c, s.mem y = m y) ∧
      ∀ {m' : Mem n} {q' : Queue n} {k : List (Fin n × Block n)},
        Chain Block.next m' (some x) k → (∀ y ∈ places c, m' y = s.mem y) →
        q'.bfirst = s.q.bfirst → q'.blast = k.getLast?.map Prod.fst →
        q'.len = wrap (q.len + allocs (cells k)) → q'.dlen = wrap (q.dlen + lens (cells k)) →
        Has m' q' (c ++ cells k) := by
  -- With the old blocks in place up to `x`, the rest is the same in an empty queue and in others.
  have hrest : ∀ (s : Sys n) (l : List (Fin n × Block n)),
      Seg Block.next s.mem s.q.bfirst l (some x) → cells l = c →
      ∀ {m' : Mem n} {q' : Queue n} {k : List (Fin n × Block n)},
        Chain Block.next m' (some x) k → (∀ y ∈ places c, m' y = s.mem y) →
        q'.bfirst = s.q.bfirst → q'.blast = k.getLast?.map Prod.fst →
        q'.len = wrap (q.len + allocs (cells k)) → q'.dlen = wrap (q.dlen + lens (cells k)) →
        Has m' q' (c ++ cells k) := by
    intro s l hl hcells m' q' k hk hm hfirst hlast hlen hdlen
    have hne : k ≠ [] := by
      intro hnil
      rw [hnil] at hk
      cases hk
    refine ⟨⟨l ++ k, ?_, by rw [cells_append, hcells]⟩, ?_, ?_, ?_⟩
    · rw [← hcells, places_cells] at hm
      rw [hfirst]
      exact (hl.frame hm).append hk
    · intro z hz
      rw [List.getLast?_append_of_ne_nil _ (by simpa [cells] using hne), cells,
        List.getLast?_map] at hz
      obtain ⟨w, hw, rfl⟩ := Option.map_eq_some_iff.mp hz
      rw [hlast, hw]
      rfl
    · rw [hlen, h.len, wrap_wrap_add, allocs_append, Int.natCast_add]
    · rw [hdlen, h.dlen, wrap_wrap_add, lens_append, Int.natCast_add]
  cases hfirst : q.bfirst with
  | none =>
    have hc := h.empty hfirst
    refine ⟨⟨m, { q with bfirst := some x }⟩, by simp only [attach, hfirst], rfl,
      fun _ _ => rfl, ?_⟩
    exact hrest ⟨m, { q with bfirst := some x }⟩ [] rfl hc.symm
  | some w =>
    obtain ⟨l, hl, hcells⟩ := h.chain
    have hne : l ≠ [] := by
      intro hnil
      rw [hnil, hfirst] at hl
      cases hl
    obtain ⟨l, ⟨y, b⟩, rfl⟩ : ∃ l' z, l = l' ++ [z] :=
      ⟨l.dropLast, l.getLast hne, (List.dropLast_append_getLast hne).symm⟩
    have hblast : q.blast = some y := h.last (cell (y, b)) (by
      rw [← hcells, cells_append]
      exact List.getLast?_concat)
    have hmem : m y = some b :=
      Seg.lookup hl (List.mem_append_right l (List.mem_singleton_self (y, b)))
    refine ⟨⟨Function.update m y (some (b.link (some x))), q⟩, ?_, ?_, ?_, ?_⟩
    · simp only [attach, hfirst, hblast, hmem, Option.bind_eq_bind, Option.bind_some,
        Option.pure_def]
    · rfl
    · intro z hz
      refine Function.update_of_ne (fun heq => hz ?_) _ _
      rw [heq, ← hcells, places_cells]
      simp
    · refine hrest ⟨Function.update m y (some (b.link (some x))), q⟩
        (l ++ [(y, b.link (some x))]) (hl.relink rfl) ?_
      rw [← hcells, cells_append, cells_append]
      rfl

end Holding

end Petele.Qio
