import Mathlib.Order.Basic
import Mathlib.Order.Lattice
import Mathlib.Tactic.Common

namespace Petele.Lib

/-- Things with a range in a linear order. -/
class Ranged (β : Type) (α : outParam Type) [LinearOrder α] where
  lo : β → α
  hi : β → α
  lo_le_hi : ∀ x, lo x ≤ hi x

namespace Ranged

variable {α β : Type} [LinearOrder α] [Ranged β α]

def Before (x y : β) : Prop := hi x < lo y

def Within (x y : β) : Prop := lo y ≤ lo x ∧ hi x ≤ hi y

/-- Apart, or one in the other. -/
def Nested (x y : β) : Prop := Before x y ∨ Before y x ∨ Within x y ∨ Within y x

def Holds (x : β) (a : α) : Prop := lo x ≤ a ∧ a ≤ hi x

variable {x y z : β} {a : α}

theorem Before.not_within (h : Before x y) : ¬ Within x y := fun hw =>
  absurd (lt_of_le_of_lt (le_trans hw.1 (lo_le_hi x)) h) (lt_irrefl _)

theorem Before.not_within' (h : Before x y) : ¬ Within y x := fun hw =>
  absurd (lt_of_lt_of_le h (le_trans (lo_le_hi y) hw.2)) (lt_irrefl _)

theorem Within.trans (h : Within x y) (h' : Within y z) : Within x z :=
  ⟨le_trans h'.1 h.1, le_trans h.2 h'.2⟩

theorem Within.refl (x : β) : Within x x := ⟨le_rfl, le_rfl⟩

theorem Before.mono_left (h : Before y z) (hw : Within x y) : Before x z := lt_of_le_of_lt hw.2 h

theorem Before.mono_right (h : Before x y) (hw : Within z y) : Before x z := lt_of_lt_of_le h hw.1

theorem Before.trans (h : Before x y) (h' : Before y z) : Before x z :=
  lt_trans h (lt_of_le_of_lt (lo_le_hi y) h')

theorem Before.not_holds_left (h : Before x y) (ha : Holds y a) : ¬ Holds x a := fun hx =>
  absurd (lt_of_le_of_lt hx.2 h) (not_lt_of_ge ha.1)

theorem Before.not_holds_right (h : Before x y) (ha : Holds x a) : ¬ Holds y a := fun hy =>
  absurd (lt_of_le_of_lt ha.2 h) (not_lt_of_ge hy.1)

theorem Within.holds (h : Within x y) (ha : Holds x a) : Holds y a := ⟨le_trans h.1 ha.1, le_trans ha.2 h.2⟩

end Ranged

open Ranged

/-- A tree of ranges: those before and after that of a node, and those in it. -/
inductive Tri (β : Type)
  | nil
  | node (depth : ℕ) (x : β) (left mid right : Tri β)

namespace Tri

variable {α β : Type}

def Mem (x : β) : Tri β → Prop
  | nil => False
  | node _ y l m r => x = y ∨ l.Mem x ∨ m.Mem x ∨ r.Mem x

instance : Membership β (Tri β) := ⟨fun t x => t.Mem x⟩

@[simp] theorem not_mem_nil (x : β) : ¬ x ∈ (nil : Tri β) := id

@[simp] theorem mem_node {x y : β} {d : ℕ} {l m r : Tri β} :
    x ∈ node d y l m r ↔ x = y ∨ x ∈ l ∨ x ∈ m ∨ x ∈ r := Iff.rfl

section Change

variable {x y : β} {d : ℕ} {l m r t : Tri β} {s e : Prop}

/-- What a change of one part adds and takes out. -/
theorem mem_left (h : x ∈ t ∨ s ↔ x ∈ l ∨ e) : x ∈ node d y t m r ∨ s ↔ x ∈ node d y l m r ∨ e := by
  rw [mem_node, mem_node]
  tauto

theorem mem_mid (h : x ∈ t ∨ s ↔ x ∈ m ∨ e) : x ∈ node d y l t r ∨ s ↔ x ∈ node d y l m r ∨ e := by
  rw [mem_node, mem_node]
  tauto

theorem mem_right (h : x ∈ t ∨ s ↔ x ∈ r ∨ e) : x ∈ node d y l m t ∨ s ↔ x ∈ node d y l m r ∨ e := by
  rw [mem_node, mem_node]
  tauto

end Change

def find (p : β → Bool) : Tri β → Option β
  | nil => none
  | node _ x l m r => if p x then some x else (l.find p).or ((m.find p).or (r.find p))

variable [LinearOrder α] [Ranged β α]

/-- Ranges are where a walk looks for them. -/
def Valid : Tri β → Prop
  | nil => True
  | node _ y l m r => (∀ x ∈ l, Before x y) ∧ (∀ x ∈ m, Within x y ∧ ¬ Within y x) ∧ (∀ x ∈ r, Before y x) ∧
      l.Valid ∧ m.Valid ∧ r.Valid

/-- The last range with `a` in it on the way down. -/
def walk (a : α) : Tri β → Option β → Option β
  | nil, q => q
  | node _ x l m r, q =>
    if lo x ≤ a then
      if a ≤ hi x then walk a m (some x) else walk a r q
    else walk a l q

theorem walk_none {a : α} {t : Tri β} {q : Option β} (h : t.Valid) (hnone : ∀ x ∈ t, ¬ Holds x a) :
    walk a t q = q := by
  induction t generalizing q with
  | nil => rfl
  | node d y l m r ihl ihm ihr =>
    obtain ⟨-, -, -, hl, -, hr⟩ := h
    rw [walk]
    split
    · rename_i hlo
      split
      · rename_i hhi
        exact absurd ⟨hlo, hhi⟩ (hnone y (mem_node.mpr (.inl rfl)))
      · exact ihr hr fun x hx => hnone x (mem_node.mpr (.inr (.inr (.inr hx))))
    · exact ihl hl fun x hx => hnone x (mem_node.mpr (.inr (.inl hx)))

/-- A walk comes to the smallest range. -/
theorem walk_some {a : α} {t : Tri β} {q : Option β} (h : t.Valid) {z : β} (hz : z ∈ t) (ha : Holds z a) :
    ∃ x ∈ t, walk a t q = some x ∧ Holds x a ∧ ∀ y ∈ t, Holds y a → Within x y := by
  induction t generalizing q z with
  | nil => exact absurd hz (not_mem_nil z)
  | node d w l m r ihl ihm ihr =>
    obtain ⟨hbefore, hin, hafter, hl, hm, hr⟩ := h
    rw [walk]
    by_cases hlo : lo w ≤ a
    · rw [if_pos hlo]
      by_cases hhi : a ≤ hi w
      · rw [if_pos hhi]
        have hw : Holds w a := ⟨hlo, hhi⟩
        -- the walk goes into the middle, where there may be no smaller range
        by_cases hmid : ∃ y ∈ m, Holds y a
        · obtain ⟨y, hy, hya⟩ := hmid
          obtain ⟨x, hx, hwalk, hxa, hleast⟩ := ihm (q := some w) hm hy hya
          refine ⟨x, mem_node.mpr (.inr (.inr (.inl hx))), hwalk, hxa, fun y hy hya => ?_⟩
          rcases mem_node.mp hy with rfl | hy | hy | hy
          · exact (hin x hx).1
          · exact absurd hya ((hbefore y hy).not_holds_left hw)
          · exact hleast y hy hya
          · exact absurd hya ((hafter y hy).not_holds_right hw)
        · have hnone : ∀ y ∈ m, ¬ Holds y a := fun y hy hya => hmid ⟨y, hy, hya⟩
          refine ⟨w, mem_node.mpr (.inl rfl), walk_none hm hnone, hw, fun y hy hya => ?_⟩
          rcases mem_node.mp hy with rfl | hy | hy | hy
          · exact Within.refl y
          · exact absurd hya ((hbefore y hy).not_holds_left hw)
          · exact absurd hya (hnone y hy)
          · exact absurd hya ((hafter y hy).not_holds_right hw)
      · rw [if_neg hhi]
        have hright : ∀ y ∈ node d w l m r, Holds y a → y ∈ r := fun y hy hya => by
          have hle := lt_of_not_ge hhi
          rcases mem_node.mp hy with rfl | hy | hy | hy
          · exact absurd hya.2 hhi
          · exact absurd (lt_of_le_of_lt hya.2 (lt_of_lt_of_le (hbefore y hy) (lo_le_hi w)))
              (lt_asymm hle)
          · exact absurd (le_trans hya.2 (hin y hy).1.2) hhi
          · exact hy
        obtain ⟨x, hx, hwalk, hxa, hleast⟩ := ihr (q := q) hr (hright z hz ha) ha
        exact ⟨x, mem_node.mpr (.inr (.inr (.inr hx))), hwalk, hxa,
          fun y hy hya => hleast y (hright y hy hya) hya⟩
    · rw [if_neg hlo]
      have hleft : ∀ y ∈ node d w l m r, Holds y a → y ∈ l := fun y hy hya => by
        have hlt := lt_of_not_ge hlo
        rcases mem_node.mp hy with rfl | hy | hy | hy
        · exact absurd hya.1 hlo
        · exact hy
        · exact absurd (le_trans (hin y hy).1.1 hya.1) hlo
        · exact absurd (lt_of_lt_of_le (lt_of_le_of_lt (lo_le_hi w) (hafter y hy)) hya.1) (lt_asymm hlt)
      obtain ⟨x, hx, hwalk, hxa, hleast⟩ := ihl (q := q) hl (hleft z hz ha) ha
      exact ⟨x, mem_node.mpr (.inr (.inl hx)), hwalk, hxa,
        fun y hy hya => hleast y (hleft y hy hya) hya⟩

theorem walk_eq_or (a : α) (t : Tri β) (q : Option β) : walk a t q = (walk a t none).or q := by
  induction t generalizing q with
  | nil => rfl
  | node d x l m r ihl ihm ihr =>
    rw [walk, walk]
    split
    · split
      · rw [ihm (some x), Option.or_assoc]
        rfl
      · exact ihr q
    · exact ihl q

/-- The node a walk comes to is changed. -/
def modify (a : α) (f : β → β) : Tri β → Tri β
  | nil => nil
  | node d x l m r =>
    if lo x ≤ a then
      if a ≤ hi x then
        if (walk a m none).isSome then node d x l (modify a f m) r else node d (f x) l m r
      else node d x l m (modify a f r)
    else node d x (modify a f l) m r

theorem walk_rel {R : β → β → Prop} (hrefl : ∀ x, R x x) (b : α) (t : Tri β) {q q' : Option β}
    (hq : Option.Rel R q q') : Option.Rel R (walk b t q) (walk b t q') := by
  rw [walk_eq_or b t q, walk_eq_or b t q']
  cases walk b t none with
  | none => exact hq
  | some x => exact .some (hrefl x)

/-- A walk after a change comes to the same node, which may be the changed one. -/
theorem walk_modify {R : β → β → Prop} {a b : α} {f : β → β} (hf : ∀ x, lo (f x) = lo x ∧ hi (f x) = hi x)
    (hrefl : ∀ x, R x x) {t : Tri β} (hR : ∀ x, walk a t none = some x → R x (f x)) {q q' : Option β}
    (hq : Option.Rel R q q') : Option.Rel R (walk b t q) (walk b (modify a f t) q') := by
  induction t generalizing q q' with
  | nil => exact hq
  | node d x l m r ihl ihm ihr =>
    rw [walk] at hR
    have hsame : ∀ {l' m' r' : Tri β} {y : β}, lo y = lo x → hi y = hi x → R x y →
        (∀ {q q'}, Option.Rel R q q' → Option.Rel R (walk b l q) (walk b l' q')) →
        (∀ {q q'}, Option.Rel R q q' → Option.Rel R (walk b m q) (walk b m' q')) →
        (∀ {q q'}, Option.Rel R q q' → Option.Rel R (walk b r q) (walk b r' q')) →
        Option.Rel R (walk b (node d x l m r) q) (walk b (node d y l' m' r') q') := by
      intro l' m' r' y hlo hhi hxy hl hm hr
      rw [walk, walk, hlo, hhi]
      split
      · split
        · exact hm (.some hxy)
        · exact hr hq
      · exact hl hq
    rw [modify]
    split
    · rename_i hlo
      rw [if_pos hlo] at hR
      split
      · rename_i hhi
        rw [if_pos hhi, walk_eq_or] at hR
        split
        · rename_i hsome
          refine hsame rfl rfl (hrefl x) (walk_rel hrefl b l) (ihm fun y hy => hR y ?_) (walk_rel hrefl b r)
          rw [hy]
          rfl
        · rename_i hnone
          rw [Option.not_isSome_iff_eq_none.mp hnone] at hR
          exact hsame (hf x).1 (hf x).2 (hR x rfl) (walk_rel hrefl b l) (walk_rel hrefl b m) (walk_rel hrefl b r)
      · rename_i hhi
        rw [if_neg hhi] at hR
        exact hsame rfl rfl (hrefl x) (walk_rel hrefl b l) (walk_rel hrefl b m) (ihr hR)
    · rename_i hlo
      rw [if_neg hlo] at hR
      exact hsame rfl rfl (hrefl x) (ihl hR) (walk_rel hrefl b m) (walk_rel hrefl b r)

theorem walk_mem {a : α} {t : Tri β} {q : Option β} {x : β} (h : walk a t q = some x) : x ∈ t ∨ q = some x := by
  induction t generalizing q with
  | nil => exact .inr h
  | node d y l m r ihl ihm ihr =>
    rw [walk] at h
    split at h
    · split at h
      · rcases ihm h with hm | hy
        · exact .inl (mem_node.mpr (.inr (.inr (.inl hm))))
        · exact .inl (mem_node.mpr (.inl (Option.some.inj hy).symm))
      · exact (ihr h).imp_left fun hr => mem_node.mpr (.inr (.inr (.inr hr)))
    · exact (ihl h).imp_left fun hl => mem_node.mpr (.inr (.inl hl))

theorem mem_modify {a : α} {f : β → β} {t : Tri β} {x : β} (h : x ∈ modify a f t) : x ∈ t ∨ ∃ y ∈ t, x = f y := by
  induction t with
  | nil => exact .inl h
  | node d y l m r ihl ihm ihr =>
    simp only [modify] at h
    split at h
    · split at h
      · split at h
        · simp only [mem_node] at h ⊢
          rcases h with h | h | h | h
          · exact .inl (.inl h)
          · exact .inl (.inr (.inl h))
          · exact (ihm h).imp (fun hm => .inr (.inr (.inl hm))) fun ⟨z, hz, hx⟩ => ⟨z, .inr (.inr (.inl hz)), hx⟩
          · exact .inl (.inr (.inr (.inr h)))
        · simp only [mem_node] at h ⊢
          rcases h with h | h | h | h
          · exact .inr ⟨y, .inl rfl, h⟩
          · exact .inl (.inr (.inl h))
          · exact .inl (.inr (.inr (.inl h)))
          · exact .inl (.inr (.inr (.inr h)))
      · simp only [mem_node] at h ⊢
        rcases h with h | h | h | h
        · exact .inl (.inl h)
        · exact .inl (.inr (.inl h))
        · exact .inl (.inr (.inr (.inl h)))
        · exact (ihr h).imp (fun hr => .inr (.inr (.inr hr))) fun ⟨z, hz, hx⟩ => ⟨z, .inr (.inr (.inr hz)), hx⟩
    · simp only [mem_node] at h ⊢
      rcases h with h | h | h | h
      · exact .inl (.inl h)
      · exact (ihl h).imp (fun hl => .inr (.inl hl)) fun ⟨z, hz, hx⟩ => ⟨z, .inr (.inl hz), hx⟩
      · exact .inl (.inr (.inr (.inl h)))
      · exact .inl (.inr (.inr (.inr h)))

end Tri

end Petele.Lib
