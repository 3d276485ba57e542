import Petele.Lib.Links
import Petele.Lib.Extents
import Petele.Qmalloc.Alloc

namespace Petele.Qmalloc

open Petele.Lib

/-- Who has a block: a client, the running operation, a quicklist, or the misc list. -/
inductive Place
  | live
  | held
  | quick (i : ℕ)
  | misc
  deriving DecidableEq

abbrev Blocks := Extents Place

def link (mem : Mem) (a : ℕ) : ℕ := (mem a).next

/-- The quicklist with the head `first` links the blocks of `i` units that are its own. -/
structure QuickOk (mem : Mem) (B : Blocks) (i first : ℕ) : Prop where
  list : ∃ l, Listed (link mem) (fun a => ∃ n, B a = some (.quick i, n)) first l 0
  size : ∀ {a n}, B a = some (.quick i, n) → n = i ∧ (mem a).size = i

/-- The nodes of the misc list: the blocks on it and `misclist` itself, once there is a list. -/
def OnRing (k : Kernel) (rover : ℕ) (B : Blocks) (a : ℕ) : Prop :=
  rover ≠ 0 ∧ a = k.misclist ∨ ∃ n, B a = some (.misc, n)

/-- The misc list is a ring in address order. -/
structure RingOk (k : Kernel) (mem : Mem) (rover : ℕ) (B : Blocks) : Prop where
  list : ∃ l, Listed (link mem) (OnRing k rover B) k.misclist l k.misclist ∧ l.Pairwise (· < ·)
  size : ∀ {a n}, B a = some (.misc, n) → (mem a).size = n
  sentinel : rover ≠ 0 → (mem k.misclist).size = 0
  enter : rover ≠ 0 → OnRing k rover B rover
  empty : rover = 0 → ∀ a n, B a ≠ some (.misc, n)

/-- The blocks fill no more than the heap below the tail, and each is where `B` says. -/
structure Inv (k : Kernel) (s : Arena) (B : Blocks) : Prop where
  carved : Carved B k.tailbase s.tailptr
  base : k.tailbase ≤ s.tailptr
  total : s.tailptr + s.tailsize + s.availnunits = k.tailbase + k.units
  quick : ∀ i ≤ NQUICK, QuickOk s.mem B i (s.quicklist i)
  few : ∀ {a i n}, B a = some (.quick i, n) → i ≤ NQUICK
  ring : RingOk k s.mem s.rover B
  live : ∀ {a n}, B a = some (.live, n) → s.mem a = ⟨k.checkval, n⟩

section Frames

variable {k : Kernel} {s s' : Arena} {B B' B'' : Blocks} {mem mem' mem'' : Mem} {t u : Place} {i first rover : ℕ} {a p q n m : ℕ}

/-- A place has the blocks it had, and their headers are as they were. -/
def Same (t : Place) (B B' : Blocks) (mem mem' : Mem) : Prop :=
  ∀ a n, (B' a = some (t, n) ↔ B a = some (t, n)) ∧ (B a = some (t, n) → mem' a = mem a)

theorem Same.refl (t : Place) (B : Blocks) (mem : Mem) : Same t B B mem mem := fun _ _ => ⟨Iff.rfl, fun _ => rfl⟩

theorem Same.trans (h : Same t B B' mem mem') (h' : Same t B' B'' mem' mem'') : Same t B B'' mem mem'' :=
  fun a n => ⟨(h' a n).1.trans (h a n).1, fun ha => ((h' a n).2 ((h a n).1.mpr ha)).trans ((h a n).2 ha)⟩

/-- A block changes that neither was nor gets there. -/
theorem same_update (mem : Mem) (ha : ∀ j, B a ≠ some (t, j)) {v : Option (Place × ℕ)} (hv : ∀ j, v ≠ some (t, j)) :
    Same t B (Function.update B a v) mem mem :=
  fun b j => ⟨update_place ha hv b j, fun _ => rfl⟩

theorem same_write (mem : Mem) (ha : ∀ j, B a ≠ some (t, j)) (w : Header) : Same t B B mem (Function.update mem a w) :=
  fun _ _ => ⟨Iff.rfl, fun hb => update_away ha mem w hb⟩

theorem QuickOk.frame (h : QuickOk mem B i first) (hs : Same (.quick i) B B' mem mem') : QuickOk mem' B' i first := by
  obtain ⟨l, hl⟩ := h.list
  refine ⟨⟨l, hl.frame (fun a => ?_) ?_⟩, fun {a n} ha => ?_⟩
  · simp only [(hs a _).1]
  · rintro a ⟨n, ha⟩
    rw [link, (hs a n).2 ha, link]
  · have hold := (hs a n).1.mp ha
    rw [(hs a n).2 hold]
    exact h.size hold

theorem RingOk.frame (h : RingOk k mem rover B) (hs : Same .misc B B' mem mem') (hmisc : mem' k.misclist = mem k.misclist) :
    RingOk k mem' rover B' := by
  obtain ⟨l, hl, hsorted⟩ := h.list
  have hon : ∀ a, OnRing k rover B' a ↔ OnRing k rover B a := by
    intro a
    simp only [OnRing, (hs a _).1]
  refine ⟨⟨l, hl.frame hon ?_, hsorted⟩, fun {a n} ha => ?_, ?_, fun hr => (hon _).mpr (h.enter hr), ?_⟩
  · rintro a (⟨-, rfl⟩ | ⟨n, ha⟩)
    · rw [link, hmisc, link]
    · rw [link, (hs a n).2 ha, link]
  · have hold := (hs a n).1.mp ha
    rw [(hs a n).2 hold]
    exact h.size hold
  · rw [hmisc]
    exact h.sentinel
  · intro hr a n
    rw [Ne, (hs a n).1]
    exact h.empty hr a n

/-- The lists and the clients see nothing of a change. -/
theorem Inv.frame (h : Inv k s B) (hcarved : Carved B' k.tailbase s'.tailptr) (hbase : k.tailbase ≤ s'.tailptr)
    (htotal : s'.tailptr + s'.tailsize + s'.availnunits = k.tailbase + k.units) (hsame : ∀ t ≠ .held, Same t B B' s.mem s'.mem)
    (hmisc : s'.mem k.misclist = s.mem k.misclist) (hql : s'.quicklist = s.quicklist) (hrover : s'.rover = s.rover) : Inv k s' B' where
  carved := hcarved
  base := hbase
  total := htotal
  quick i hi := by
    rw [hql]
    exact (h.quick i hi).frame (hsame _ (by simp))
  few {a i n} ha := h.few ((hsame _ (by simp) a n).1.mp ha)
  ring := by
    rw [hrover]
    exact h.ring.frame (hsame _ (by simp)) hmisc
  live {a n} ha := by
    have hold := (hsame .live (by simp) a n).1.mp ha
    rw [(hsame .live (by simp) a n).2 hold]
    exact h.live hold

theorem Inv.pos (h : Inv k s B) (ha : B a = some (t, n)) : k.misclist < a := by
  have hbounds := h.carved.bounds ha
  have := k.misclist_lt
  omega

theorem Inv.ne_misclist (h : Inv k s B) (ha : B a = some (t, n)) : a ≠ k.misclist := Nat.ne_of_gt (h.pos ha)

/-- The block `p` has another place than `t`. -/
theorem place_ne (hp : B p = some (t, n)) (hne : u ≠ t) (j : ℕ) : B p ≠ some (u, j) := by
  rw [hp]
  intro h
  exact hne (Prod.mk.inj (Option.some.inj h)).1.symm

theorem some_ne (hne : u ≠ t) (n j : ℕ) : some (t, n) ≠ some (u, j) := by
  intro h
  exact hne (Prod.mk.inj (Option.some.inj h)).1.symm

end Frames

section Held

variable {k : Kernel} {s : Arena} {B : Blocks} {p n m : ℕ} {t : Place}

theorem Inv.write_held (h : Inv k s B) (hp : B p = some (.held, n)) (w : Header) :
    Inv k { s with mem := Function.update s.mem p w } B :=
  h.frame h.carved h.base h.total (fun _ ht => same_write s.mem (place_ne hp ht) w) (Function.update_of_ne (h.ne_misclist hp).symm _ _) rfl rfl

/-- Memory changes where no block starts. -/
theorem Inv.write_data (h : Inv k s B) {mem : Mem} (hmem : ∀ a t n, B a = some (t, n) → mem a = s.mem a)
    (hmisc : mem k.misclist = s.mem k.misclist) : Inv k { s with mem := mem } B :=
  h.frame h.carved h.base h.total (fun _ _ a n => ⟨Iff.rfl, hmem a _ n⟩) hmisc rfl rfl

/-- A client has done with a block. -/
theorem Inv.seize (h : Inv k s B) (hp : B p = some (.live, n)) : Inv k s (Function.update B p (some (.held, n))) where
  carved := h.carved.move hp _
  base := h.base
  total := h.total
  quick i hi := (h.quick i hi).frame (same_update s.mem (place_ne hp (by simp)) (some_ne (by simp) _))
  few {a i m} ha := by
    rw [Function.update_apply] at ha
    split at ha
    · cases ha
    · exact h.few ha
  ring := h.ring.frame (same_update s.mem (place_ne hp (by simp)) (some_ne (by simp) _)) rfl
  live {a m} ha := by
    rw [Function.update_apply] at ha
    split at ha
    · cases ha
    · exact h.live ha

/-- A client gets a block. -/
theorem Inv.hand (h : Inv k s B) (hp : B p = some (.held, n)) (hw : s.mem p = ⟨k.checkval, n⟩) :
    Inv k s (Function.update B p (some (.live, n))) where
  carved := h.carved.move hp _
  base := h.base
  total := h.total
  quick i hi := (h.quick i hi).frame (same_update s.mem (place_ne hp (by simp)) (some_ne (by simp) _))
  few {a i m} ha := by
    rw [Function.update_apply] at ha
    split at ha
    · cases ha
    · exact h.few ha
  ring := h.ring.frame (same_update s.mem (place_ne hp (by simp)) (some_ne (by simp) _)) rfl
  live {a m} ha := by
    rw [Function.update_apply] at ha
    split at ha
    · rename_i hap
      rw [hap, hw, (Prod.mk.inj (Option.some.inj ha)).2]
    · exact h.live ha

/-- A block of the running operation is cut in two. -/
theorem Inv.cut (h : Inv k s B) (hp : B p = some (.held, n)) (hm : 0 < m) (hmn : m < n) :
    Inv k s (Function.update (Function.update B p (some (.held, m))) (p + m) (some (.held, n - m))) := by
  have hgap : ∀ t j, Function.update B p (some (.held, m)) (p + m) ≠ some (t, j) := by
    intro t j hj
    rw [Function.update_of_ne (by omega)] at hj
    have := h.carved.apart hp hj (by omega)
    omega
  refine h.frame (h.carved.cut hp hm hmn _ _) h.base h.total (fun t ht => ?_) rfl rfl rfl
  exact (same_update s.mem (place_ne hp ht) (some_ne ht _)).trans (same_update s.mem (hgap t) (some_ne ht _))

end Held

section Tail

variable {k : Kernel} {s : Arena} {B : Blocks} {p n : ℕ}

/-- A block above all others, from the tail. -/
theorem Inv.tailalloc (h : Inv k s B) (hn : 0 < n) (hle : n ≤ s.tailsize) :
    Qmalloc.tailalloc k s n = ({ s with
      tailsize := s.tailsize - n
      tailptr := s.tailptr + n
      mem := Function.update s.mem s.tailptr ⟨k.checkval, n⟩ }, s.tailptr) ∧
    Inv k (Qmalloc.tailalloc k s n).1 (Function.update B s.tailptr (some (.held, n))) := by
  have htotal := h.total
  have htop := k.top
  have heq : Qmalloc.tailalloc k s n = ({ s with
      tailsize := s.tailsize - n
      tailptr := s.tailptr + n
      mem := Function.update s.mem s.tailptr ⟨k.checkval, n⟩ }, s.tailptr) := by
    have h₁ : (s.tailsize + 2 ^ 64 - n) % 2 ^ 64 = s.tailsize - n := by omega
    have h₂ : (s.tailptr + n) % 2 ^ 60 = s.tailptr + n := Nat.mod_eq_of_lt (by omega)
    rw [Qmalloc.tailalloc, h₁, h₂]
  have hgap : ∀ t j, B s.tailptr ≠ some (t, j) := by
    intro t j hj
    have := h.carved.bounds hj
    omega
  refine ⟨heq, ?_⟩
  rw [heq]
  have hbase := h.base
  have hlow := k.misclist_lt
  refine h.frame (h.carved.top h.base hn _) (by simp only; omega) (by simp only; omega) (fun t ht => ?_) ?_ rfl rfl
  · exact (same_update s.mem (hgap t) (some_ne ht _)).trans (same_write s.mem (fun j hj => by
      rw [Function.update_self] at hj
      exact some_ne ht _ _ hj) _)
  · exact Function.update_of_ne (by omega) _ _

/-- The block before the tail goes back to it. -/
theorem Inv.freetail (h : Inv k s B) (hp : B p = some (.held, n)) (htop : p + n = s.tailptr) :
    Inv k { s with tailptr := p, tailsize := (s.tailsize + n) % 2 ^ 64 } (Function.update B p none) := by
  have htotal := h.total
  have hheap := k.top
  have hbounds := h.carved.bounds hp
  have hmod : (s.tailsize + n) % 2 ^ 64 = s.tailsize + n := Nat.mod_eq_of_lt (by omega)
  rw [hmod]
  exact h.frame (h.carved.untop hp htop) hbounds.2.1 (by simp only; omega)
    (fun t ht => same_update s.mem (place_ne hp ht) (fun _ => nofun)) rfl rfl rfl

end Tail

section Quick

variable {k : Kernel} {s : Arena} {B : Blocks} {mem' : Mem} {i p q n m : ℕ}

theorem Inv.push_quick (h : Inv k s B) (hp : B p = some (.held, n)) (hsize : (s.mem p).size = n) (hn : n ≤ NQUICK) :
    Inv k { s with
      mem := Function.update s.mem p { s.mem p with next := s.quicklist n }
      quicklist := Function.update s.quicklist n p }
      (Function.update B p (some (.quick n, n))) where
  carved := h.carved.move hp _
  base := h.base
  total := h.total
  quick i hi := by
    dsimp only
    by_cases hin : i = n
    · subst hin
      rw [Function.update_self]
      obtain ⟨l, hl⟩ := (h.quick i hi).list
      refine ⟨⟨p :: l, hl.push ?_ ?_ ?_ ?_⟩, ?_⟩
      · rintro ⟨j, hj⟩
        exact place_ne hp (by simp) j hj
      · intro a
        rw [Function.update_apply]
        split <;> simp_all
      · simp only [link, Function.update_self]
      · rintro a ⟨j, ha⟩
        rw [link, update_away (place_ne hp (by simp)) _ _ ha, link]
      · intro a j ha
        rw [Function.update_apply] at ha ⊢
        split at ha
        · rename_i hap
          rw [if_pos hap]
          have hj := (Prod.mk.inj (Option.some.inj ha)).2
          exact ⟨hj.symm, hsize⟩
        · rename_i hap
          rw [if_neg hap]
          exact (h.quick i hi).size ha
    · rw [Function.update_of_ne hin]
      apply (h.quick i hi).frame
      exact (same_update s.mem (place_ne hp (by simp)) (some_ne (by simpa using hin) _)).trans (same_write s.mem (fun j hj => by
        rw [Function.update_self] at hj
        exact some_ne (by simpa using hin) _ _ hj) _)
  few {a i m} ha := by
    rw [Function.update_apply] at ha
    split at ha
    · cases ha
      exact hn
    · exact h.few ha
  ring := by
    apply h.ring.frame _ (Function.update_of_ne (h.ne_misclist hp).symm _ _)
    exact (same_update s.mem (place_ne hp (by simp)) (some_ne (by simp) _)).trans (same_write s.mem (fun j hj => by
      rw [Function.update_self] at hj
      exact some_ne (by simp) _ _ hj) _)
  live {a m} ha := by
    rw [Function.update_apply] at ha
    split at ha
    · cases ha
    · rename_i hap
      dsimp only
      rw [Function.update_of_ne hap]
      exact h.live ha

/-- A block leaves its quicklist, which keeps its other blocks. -/
theorem Inv.pull_quick (h : Inv k s B) (hi : i ≤ NQUICK) (hp : B p = some (.quick i, n)) {quicklist : ℕ → ℕ}
    (hql : ∀ j, j ≠ i → quicklist j = s.quicklist j)
    (hlist : ∃ l, Listed (link mem') (fun a => a ≠ p ∧ ∃ n, B a = some (.quick i, n)) (quicklist i) l 0)
    (hsize : ∀ a m, B a = some (.quick i, m) → (mem' a).size = (s.mem a).size)
    (hm : ∀ a t m, B a = some (t, m) → t ≠ .quick i → mem' a = s.mem a) (hmisc : mem' k.misclist = s.mem k.misclist) :
    Inv k { s with mem := mem', quicklist := quicklist } (Function.update B p (some (.held, n))) := by
  have hsame : ∀ t ≠ Place.held, t ≠ .quick i → Same t B (Function.update B p (some (.held, n))) s.mem mem' := by
    intro t ht hti a j
    exact ⟨update_place (place_ne hp hti) (some_ne ht _) a j, fun ha => hm a t j ha hti⟩
  refine ⟨h.carved.move hp _, h.base, h.total, fun j hj => ?_, fun {a j m} ha => ?_, h.ring.frame (hsame _ (by simp) (by simp)) hmisc,
    fun {a m} ha => ?_⟩
  · by_cases hji : j = i
    · subst hji
      obtain ⟨l, hl⟩ := hlist
      refine ⟨⟨l, hl.frame (fun a => ?_) fun _ _ => rfl⟩, ?_⟩
      · rw [Function.update_apply]
        split <;> simp_all
      · intro a m ha
        rw [Function.update_apply] at ha
        split at ha
        · cases ha
        · rw [hsize a m ha]
          exact (h.quick j hj).size ha
    · dsimp only
      rw [hql j hji]
      exact (h.quick j hj).frame (hsame _ (by simp) (by simpa using hji))
  · rw [Function.update_apply] at ha
    split at ha
    · cases ha
    · exact h.few ha
  · have hold := (hsame .live (by simp) (by simp) a m).1.mp ha
    dsimp only
    rw [(hsame .live (by simp) (by simp) a m).2 hold]
    exact h.live hold

theorem Inv.quicktake_head (h : Inv k s B) (hi : i ≤ NQUICK) (hp : B p = some (.quick i, n)) (hhead : s.quicklist i = p) :
    Inv k (quicktake k s i none p) (Function.update B p (some (.held, n))) := by
  refine h.pull_quick hi hp (fun j hj => Function.update_of_ne hj _ _) ?_ ?_ ?_ ?_
  · obtain ⟨l, hl⟩ := (h.quick i hi).list
    rw [hhead] at hl
    dsimp only
    rw [Function.update_self]
    refine hl.pop ⟨n, hp⟩ (fun a => Iff.rfl) ?_
    rintro a ⟨hne, -⟩
    rw [link, Function.update_of_ne hne, link]
  · intro a m ha
    rw [Function.update_apply]
    split
    · rename_i hap
      rw [hap]
    · rfl
  · intro a t m ha ht
    exact update_away (place_ne hp ht) _ _ ha
  · exact Function.update_of_ne (h.ne_misclist hp).symm _ _

theorem Inv.quicktake_next (h : Inv k s B) (hi : i ≤ NQUICK) (hq : B q = some (.quick i, m)) (hp : B p = some (.quick i, n))
    (hnext : (s.mem q).next = p) : Inv k (quicktake k s i (some q) p) (Function.update B p (some (.held, n))) := by
  obtain ⟨l, hl⟩ := (h.quick i hi).list
  have hp0 : p ≠ 0 := Nat.ne_of_gt (Nat.lt_of_le_of_lt (Nat.zero_le _) (h.pos hp))
  obtain ⟨l₁, l₂, rfl⟩ := hl.adjacent ⟨m, hq⟩ (by rw [link, hnext]; exact hp0)
  rw [link, hnext] at hl
  have hqp : q ≠ p := by
    have hnodup := hl.nodup
    simp only [List.nodup_append, List.nodup_cons, List.mem_cons, not_or] at hnodup
    exact hnodup.2.1.1.1
  refine h.pull_quick hi hp (fun _ _ => rfl) ⟨_, hl.unlink (fun a => Iff.rfl) ?_ ?_⟩ ?_ ?_ ?_
  · simp only [link]
    rw [Function.update_of_ne hqp, Function.update_self]
  · rintro a - haq hap
    simp only [link]
    rw [Function.update_of_ne hap, Function.update_of_ne haq]
  · intro a j ha
    simp only [Function.update_apply]
    split <;> split <;> simp_all
  · intro a t j ha ht
    dsimp only
    rw [update_away (place_ne hp ht) _ _ ha, update_away (place_ne hq ht) _ _ ha]
  · dsimp only
    rw [Function.update_of_ne (h.ne_misclist hp).symm, Function.update_of_ne (h.ne_misclist hq).symm]

end Quick

end Petele.Qmalloc
