import Mathlib.Data.Finset.Card
import Petele.Git.PaintRun

namespace Petele.Git

open Lib Relation

section Ends

open Classical in
/-- The commits of `F` that are not in the set. -/
noncomputable def absent (F : Finset Hash) (t : Objset) : ℕ := (F.filter fun x => ¬ x ∈ t).card

/-- The colours that commits may still get. -/
noncomputable def pending (F : Finset Hash) (s : Painting) : ℕ :=
  absent F s.keep + absent F s.drop + absent F s.skip

variable {F : Finset Hash} {t t' : Objset}

variable {repo : Repo} {mode : Mode} {s s' : Painting} {e : Qelt} {color : Color}

end Ends

section Answers

variable {repo : Repo} {s : Painting}

end Answers

section Results

variable {repo : Repo}

end Results

end Petele.Git
