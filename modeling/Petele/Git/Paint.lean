import Mathlib.Order.WellFoundedSet
import Mathlib.Logic.Relation
import Petele.Git.Ref

namespace Petele.Git

open Lib Relation

section Colours

variable {V : Type*} {parent : V → V → Prop} {H T K D S : V → Prop}

/-- The nodes that can be reached from a node of `H`. -/
def From (parent : V → V → Prop) (H : V → Prop) (x : V) : Prop :=
  ∃ h, H h ∧ ReflTransGen parent h x

/-- What holds of the three colours when no node is left in the queue. -/
structure Settled (parent : V → V → Prop) (H T K D S : V → Prop) : Prop where
  keep_from : ∀ {x}, K x → From parent H x
  drop_from : ∀ {x}, D x → From parent T x
  skip_from : ∀ {x}, S x → ∃ y, From parent H y ∧ From parent T y ∧ TransGen parent y x
  head : ∀ {x}, H x → K x ∨ S x
  tail : ∀ {x}, T x → D x ∨ S x
  keep : ∀ {x p}, K x → parent x p → K p ∨ S p
  drop : ∀ {x p}, D x → parent x p → D p ∨ S p
  both : ∀ {x p}, K x → D x → parent x p → S p
  skip : ∀ {x p}, S x → parent x p → S p

theorem From.step {x p : V} (h : From parent H x) (hp : parent x p) : From parent H p := by
  obtain ⟨y, hy, hreach⟩ := h
  exact ⟨y, hy, hreach.tail hp⟩

theorem From.trans {x y : V} (h : From parent H x) (hxy : TransGen parent x y) :
    From parent H y := by
  obtain ⟨z, hz, hreach⟩ := h
  exact ⟨z, hz, hreach.trans hxy.to_reflTransGen⟩

variable (h : Settled parent H T K D S)
include h

theorem Settled.kept {x : V} (hx : From parent H x) : K x ∨ S x := by
  obtain ⟨y, hy, hreach⟩ := hx
  induction hreach with
  | refl => exact h.head hy
  | tail _ hstep ih =>
    rcases ih with hk | hs
    · exact h.keep hk hstep
    · exact .inr (h.skip hs hstep)

theorem Settled.dropped {x : V} (hx : From parent T x) : D x ∨ S x := by
  obtain ⟨y, hy, hreach⟩ := hx
  induction hreach with
  | refl => exact h.tail hy
  | tail _ hstep ih =>
    rcases ih with hd | hs
    · exact h.drop hd hstep
    · exact .inr (h.skip hs hstep)

end Colours

end Petele.Git
