import Petele.Qmalloc.Ring

namespace Petele.Qmalloc

open Petele.Lib

variable {k : Kernel} {s s' : Arena} {B B' : Blocks} {mem : Mem} {p q n m : ℕ}

/-- A block is with a client or with the running operation. -/
def Out (B : Blocks) (a m : ℕ) : Prop := B a = some (.held, m) ∨ B a = some (.live, m)

/-- What is left when the block `p` has been given back: all other blocks stay where they are. -/
structure Freed (k : Kernel) (s : Arena) (B : Blocks) (p : ℕ) (s' : Arena) (B' : Blocks) : Prop where
  inv : Inv k s' B'
  held : ∀ a m, B' a = some (.held, m) ↔ a ≠ p ∧ B a = some (.held, m)
  live : ∀ a m, B' a = some (.live, m) ↔ a ≠ p ∧ B a = some (.live, m)
  mem : ∀ a m, a ≠ p → Out B a m → s'.mem a = s.mem a
  avail : s'.availnunits = s.availnunits

theorem update_iff {u : Place} {v : Option (Place × ℕ)} (hv : ∀ j, v ≠ some (u, j)) (a j : ℕ) :
    Function.update B p v a = some (u, j) ↔ a ≠ p ∧ B a = some (u, j) := by
  rw [Function.update_apply]
  split
  · rename_i hap
    exact ⟨fun h => absurd h (hv j), fun h => absurd hap h.1⟩
  · rename_i hap
    exact ⟨fun h => ⟨hap, h⟩, fun h => h.2⟩

theorem joinprev_write (mem : Mem) (hpq : p ≠ q) (x : ℕ) : joinprev (Function.update mem q { mem q with next := x }) p q = joinprev mem p q := by
  simp only [joinprev, Function.update_self, Function.update_of_ne hpq, Function.update_idem]

/-- A block goes behind the rover, or into it. -/
theorem Inv.joinprev (h : Inv k s B) (hrover : s.rover ≠ 0) (hrq : s.rover = q) (hp : B p = some (.held, n))
    (hw : s.mem p = ⟨(s.mem q).next, n⟩) (hqp : q < p) (hnext : p < (s.mem q).next ∨ (s.mem q).next = k.misclist) :
    ∃ B', Freed k s B p { s with mem := Qmalloc.joinprev s.mem p q } B' := by
  have hq : OnRing k s.rover B q := by
    rw [← hrq]
    exact h.ring.enter hrover
  have hout : ∀ a m, Out B a m → a ≠ q := by
    rintro a m ha rfl
    rcases hq with ⟨-, rfl⟩ | ⟨j, hj⟩
    · exact ha.elim (fun hb => h.ne_misclist hb rfl) fun hb => h.ne_misclist hb rfl
    · exact ha.elim (place_ne hj (by simp) m) (place_ne hj (by simp) m)
  by_cases hjoin : q + (s.mem q).size = p
  · have hmem : Qmalloc.joinprev s.mem p q = Function.update s.mem q ⟨(s.mem q).next, (s.mem q).size + n⟩ := by
      rw [Qmalloc.joinprev, if_pos hjoin, hw]
    obtain ⟨m, hm⟩ : ∃ m, B q = some (.misc, m) := by
      rcases hq with ⟨-, rfl⟩ | hq
      · rw [h.ring.sentinel hrover] at hjoin
        omega
      · exact hq
    have hsize := h.ring.size hm
    rw [hsize] at hjoin hmem
    subst hjoin
    have hgrow := h.grow hm hp
    rw [hmem]
    refine ⟨_, hgrow, fun a j => ?_, fun a j => ?_, fun a j _ ha => ?_, rfl⟩
    · rw [update_place (fun j => ?_) (some_ne (by simp) _), update_iff (v := none) (fun _ => nofun)]
      rw [Function.update_of_ne (by omega)]
      exact place_ne hm (by simp) j
    · rw [update_place (fun j => ?_) (some_ne (by simp) _), update_iff (v := none) (fun _ => nofun)]
      rw [Function.update_of_ne (by omega)]
      exact place_ne hm (by simp) j
    · exact Function.update_of_ne (hout a j ha) _ _
  · have hmem : Qmalloc.joinprev s.mem p q = Function.update s.mem q { s.mem q with next := p } := by
      rw [Qmalloc.joinprev, if_neg hjoin]
    have hinsert := h.insert hrover hrq hp hw hqp hnext
    rw [hmem]
    refine ⟨_, hinsert, fun a j => ?_, fun a j => ?_, fun a j _ ha => ?_, rfl⟩
    · rw [update_iff (some_ne (by simp) _)]
    · rw [update_iff (some_ne (by simp) _)]
    · exact Function.update_of_ne (hout a j ha) _ _

/-- The end of `qfreeinternal`, once there is a list. -/
theorem Inv.freering (h : Inv k s B) (hrover : s.rover ≠ 0) (hp : B p = some (.held, n)) (hw : (s.mem p).size = n) :
    ∃ q B', Qmalloc.neighbour s.mem p k.turns s.rover = some q ∧
      Freed k s B p { s with mem := Qmalloc.joinprev (joinnext s.mem p q) p q, rover := q } B' := by
  have hoff : ¬ OnRing k s.rover B p := by
    rintro (⟨-, heq⟩ | ⟨j, hj⟩)
    · exact h.ne_misclist hp heq
    · exact place_ne hp (by simp) j hj
  obtain ⟨q, hrun, hq, hqp, hnext⟩ := h.neighbour hrover (h.pos hp) hoff
  have hq0 := h.node_pos hq
  have hs := h.reenter hrover hq
  have hqm : k.misclist ≤ q := by
    rcases hq with ⟨-, rfl⟩ | ⟨j, hj⟩
    · exact Nat.le_refl _
    · exact Nat.le_of_lt (h.pos hj)
  rw [link] at hnext
  by_cases hjoin : p + n = (s.mem q).next
  · -- the block behind `p` leaves the list and becomes a part of it
    obtain ⟨m, hm⟩ : ∃ m, B (p + n) = some (.misc, m) := by
      rcases h.ring.next hq with ⟨hlast, -⟩ | ⟨hon, -⟩
      · rw [link, ← hjoin] at hlast
        omega
      · rw [link, ← hjoin] at hon
        rcases hon with ⟨-, heq⟩ | hon
        · omega
        · exact hon
    have hpos := (h.carved.bounds hp).1
    have hne : p + n ≠ p := by omega
    have hunlink := hs.unlink hq0 rfl hjoin.symm hm
    have hheld : Function.update B (p + n) (some (.held, m)) p = some (.held, n) := by
      rw [Function.update_of_ne hne.symm]
      exact hp
    have hwritten := (hunlink.join hheld (Function.update_self _ _ _)).write_held (Function.update_self _ _ _)
      ⟨(s.mem (p + n)).next, n + m⟩
    obtain ⟨B', hfreed⟩ := hwritten.joinprev hq0 rfl (Function.update_self _ _ _) (by
      simp only [Function.update_self, Function.update_of_ne (Nat.ne_of_lt hqp)]) hqp (by
      simp only [Function.update_of_ne (Nat.ne_of_lt hqp), Function.update_self]
      have hnode : OnRing k s.rover B (p + n) := .inr ⟨m, hm⟩
      rcases h.ring.next hnode with ⟨hlast, -⟩ | ⟨-, hlt, -⟩
      · exact .inr hlast
      · rw [link] at hlt
        exact .inl (by omega))
    have hsize : (s.mem (p + n)).size = m := h.ring.size hm
    have hnextmem : joinnext s.mem p q = Function.update s.mem p ⟨(s.mem (p + n)).next, n + m⟩ := by
      rw [joinnext, ← hjoin, hw, if_pos rfl, hsize]
    have hcomm : Function.update (Function.update s.mem q { s.mem q with next := (s.mem (p + n)).next }) p ⟨(s.mem (p + n)).next, n + m⟩ =
        Function.update (Function.update s.mem p ⟨(s.mem (p + n)).next, n + m⟩) q
          { Function.update s.mem p ⟨(s.mem (p + n)).next, n + m⟩ q with next := (s.mem (p + n)).next } := by
      rw [Function.update_of_ne (Nat.ne_of_lt hqp), Function.update_comm (Nat.ne_of_lt hqp)]
    have hplace : ∀ t, t ≠ Place.misc → ∀ a j, a ≠ p →
        (Function.update (Function.update (Function.update B (p + n) (some (.held, m))) (p + n) none) p (some (.held, n + m)) a = some (t, j) ↔
          B a = some (t, j)) := by
      intro t ht a j hap
      rw [Function.update_of_ne hap, Function.update_idem, update_place (v := none) (place_ne hm ht) fun _ => (by simp)]
    dsimp only at hfreed
    rw [hcomm, joinprev_write _ (Nat.ne_of_gt hqp), ← hnextmem] at hfreed
    refine ⟨q, B', hrun, hfreed.inv, fun a j => ?_, fun a j => ?_, fun a j hap ha => ?_, hfreed.avail⟩
    · rw [hfreed.held]
      exact and_congr_right fun hap => hplace .held (by simp) a j hap
    · rw [hfreed.live]
      exact and_congr_right fun hap => hplace .live (by simp) a j hap
    · have haq : a ≠ q := by
        rintro rfl
        rcases hq with ⟨-, rfl⟩ | ⟨i, hi⟩
        · exact ha.elim (fun hb => h.ne_misclist hb rfl) fun hb => h.ne_misclist hb rfl
        · exact ha.elim (place_ne hi (by simp) j) (place_ne hi (by simp) j)
      rw [hfreed.mem a j hap (ha.imp (hplace .held (by simp) a j hap).mpr (hplace .live (by simp) a j hap).mpr)]
      dsimp only
      rw [Function.update_of_ne haq, hnextmem, Function.update_of_ne hap]
  · have hnextmem : joinnext s.mem p q = Function.update s.mem p ⟨(s.mem q).next, n⟩ := by
      simp only [joinnext, hw, if_neg hjoin]
    have hwritten := hs.write_held hp ⟨(s.mem q).next, n⟩
    obtain ⟨B', hfreed⟩ := hwritten.joinprev hq0 rfl hp (by
      simp only [Function.update_self, Function.update_of_ne (Nat.ne_of_lt hqp)]) hqp (by
      simp only [Function.update_of_ne (Nat.ne_of_lt hqp)]
      exact hnext)
    dsimp only at hfreed
    rw [← hnextmem] at hfreed
    refine ⟨q, B', hrun, hfreed.inv, hfreed.held, hfreed.live, fun a j hap ha => ?_, hfreed.avail⟩
    rw [hfreed.mem a j hap ha]
    dsimp only
    rw [hnextmem, Function.update_of_ne hap]

/-- A block that goes back with its header in order. -/
theorem qfreeinternal_spec (h : Inv k s B) (hp : B p = some (.held, n)) (hw : s.mem p = ⟨k.checkval, n⟩) :
    ∃ s' B', qfreeinternal k s (p + 1) = some s' ∧ Freed k s B p s' B' := by
  have hpos := (h.carved.bounds hp).1
  have hsize : (s.mem p).size = n := by rw [hw]
  have hnext : (s.mem p).next = k.checkval := by rw [hw]
  have hptr : s.tailptr ≠ 0 := by
    have := h.pos hp
    have := (h.carved.bounds hp).2.2
    omega
  rw [qfreeinternal, if_neg (Nat.succ_ne_zero p)]
  simp only [Nat.add_sub_cancel, hsize, hnext, ne_eq, not_true, or_false]
  rw [if_neg (by omega)]
  by_cases htail : p + n = s.tailptr
  · rw [if_pos ⟨hptr, htail⟩]
    exact ⟨_, _, rfl, h.freetail hp htail, update_iff (v := none) fun _ => nofun, update_iff (v := none) fun _ => nofun,
      fun _ _ _ _ => rfl, rfl⟩
  · rw [if_neg fun hc => htail hc.2]
    by_cases hquick : n ≤ NQUICK
    · rw [if_pos hquick]
      have hpush := h.push_quick hp hsize hquick
      simp only [hsize] at hpush
      refine ⟨_, _, rfl, hpush, update_iff (some_ne (by simp) _), update_iff (some_ne (by simp) _), ?_, rfl⟩
      intro a m hap _
      exact Function.update_of_ne hap _ _
    · rw [if_neg hquick, freemisc]
      by_cases hrover : s.rover = 0
      · simp only [if_pos hrover]
        have hstart := h.start hrover
        have hpm := h.ne_misclist hp
        obtain ⟨q, B', hrun, hfreed⟩ := hstart.freering (Nat.ne_of_gt k.misclist_pos) hp (by
          simp only [Function.update_of_ne hpm]
          exact hsize)
        dsimp only at hrun hfreed
        rw [hrun, Option.map_some]
        refine ⟨_, B', rfl, hfreed.inv, hfreed.held, hfreed.live, fun a j hap ha => ?_, hfreed.avail⟩
        rw [hfreed.mem a j hap ha]
        exact Function.update_of_ne (ha.elim (fun hb => h.ne_misclist hb) fun hb => h.ne_misclist hb) _ _
      · simp only [if_neg hrover]
        obtain ⟨q, B', hrun, hfreed⟩ := h.freering hrover hp hsize
        rw [hrun, Option.map_some]
        exact ⟨_, B', rfl, hfreed⟩

end Petele.Qmalloc
