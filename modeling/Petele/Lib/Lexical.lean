import Mathlib

namespace Petele.Lib.Lexical

/-- What an element of a path does: nothing, it leaves a place or enters one. -/
inductive Kind
  | void | up | name
  deriving DecidableEq

/-- Where a path leads: so many places up, and then down by names. -/
@[ext] structure Place (α : Type*) where
  ups : ℕ
  names : List α
  deriving DecidableEq

variable {α : Type*} (kind : α → Kind) (rooted : Bool)

def start : Place α := ⟨0, []⟩

def enter (p : Place α) (x : α) : Place α :=
  match kind x with
  | .void => p
  | .name => { p with names := p.names ++ [x] }
  | .up =>
    if p.names = [] then if rooted then p else { p with ups := p.ups + 1 }
    else { p with names := p.names.dropLast }

def evalFrom (p : Place α) (l : List α) : Place α := l.foldl (enter kind rooted) p

/-- The elements that lead to a place. -/
def Place.elements (up : α) (p : Place α) : List α := List.replicate p.ups up ++ p.names

/-- A place that can be reached. -/
structure Proper (p : Place α) : Prop where
  names : ∀ x ∈ p.names, kind x = .name
  ups : rooted → p.ups = 0

section Eval

variable {kind rooted} {p : Place α} {x : α} {l l' : List α}

@[simp] theorem evalFrom_nil (p : Place α) : evalFrom kind rooted p [] = p := rfl

@[simp] theorem evalFrom_cons (p : Place α) (x : α) (l : List α) :
    evalFrom kind rooted p (x :: l) = evalFrom kind rooted (enter kind rooted p x) l := rfl

theorem enter_void (h : kind x = .void) : enter kind rooted p x = p := by
  rw [enter, h]

theorem enter_name (h : kind x = .name) : enter kind rooted p x = { p with names := p.names ++ [x] } := by
  rw [enter, h]

theorem enter_top (h : kind x = .up) (hp : p.names = []) (hr : rooted = true) : enter kind rooted p x = p := by
  simp only [enter, h, if_pos hp, if_pos hr]

theorem enter_above (h : kind x = .up) (hp : p.names = []) (hr : rooted = false) :
    enter kind rooted p x = { p with ups := p.ups + 1 } := by
  simp only [enter, h, if_pos hp, hr, Bool.false_eq_true, if_false]

theorem enter_back (h : kind x = .up) {ns : List α} {n : α} (hp : p.names = ns ++ [n]) :
    enter kind rooted p x = { p with names := ns } := by
  simp only [enter, h, hp, List.append_eq_nil_iff, List.cons_ne_self, and_false, if_false, List.dropLast_concat]

theorem Proper.start : Proper kind rooted (start : Place α) := ⟨fun _ hx => absurd hx List.not_mem_nil, fun _ => rfl⟩

theorem Proper.enter (hp : Proper kind rooted p) (x : α) : Proper kind rooted (enter kind rooted p x) := by
  cases h : kind x with
  | void => rwa [enter_void h]
  | name =>
    rw [enter_name h]
    refine ⟨fun y hy => ?_, hp.ups⟩
    rcases List.mem_append.mp hy with hy | hy
    · exact hp.names y hy
    · rwa [List.mem_singleton.mp hy]
  | up =>
    rcases List.eq_nil_or_concat' p.names with hnil | ⟨ns, n, hns⟩
    · cases hr : rooted with
      | true =>
        subst hr
        rwa [enter_top h hnil rfl]
      | false =>
        rw [enter_above h hnil rfl]
        exact ⟨fun y hy => hp.names y hy, fun h => absurd h Bool.false_ne_true⟩
    · rw [enter_back h hns]
      refine ⟨fun y hy => hp.names y ?_, hp.ups⟩
      rw [hns]
      exact List.mem_append_left _ hy

theorem Proper.eval (hp : Proper kind rooted p) (l : List α) : Proper kind rooted (evalFrom kind rooted p l) := by
  induction l generalizing p with
  | nil => exact hp
  | cons x l ih => exact ih (hp.enter x)

/-- A predicate of elements holds of the names of a place that is reached by such elements. -/
theorem mem_names_eval {P : α → Prop} (hp : ∀ x ∈ p.names, P x) (hl : ∀ x ∈ l, P x) :
    ∀ x ∈ (evalFrom kind rooted p l).names, P x := by
  induction l generalizing p with
  | nil => exact hp
  | cons y l ih =>
    refine ih (fun x hx => ?_) fun x hx => hl x (List.mem_cons_of_mem y hx)
    cases h : kind y with
    | void =>
      rw [enter_void h] at hx
      exact hp x hx
    | name =>
      rw [enter_name h] at hx
      rcases List.mem_append.mp hx with hx | hx
      · exact hp x hx
      · rw [List.mem_singleton.mp hx]
        exact hl y List.mem_cons_self
    | up =>
      rcases List.eq_nil_or_concat' p.names with hnil | ⟨ns, n, hns⟩
      · cases hr : rooted with
        | true =>
          rw [hr, enter_top h hnil rfl] at hx
          exact hp x hx
        | false =>
          rw [hr, enter_above h hnil rfl] at hx
          exact hp x hx
      · rw [enter_back h hns] at hx
        exact hp x (hns ▸ List.mem_append_left _ hx)

theorem eval_ups (up : α) (hup : kind up = .up) (n : ℕ) (hp : p.names = []) (hr : rooted = false) :
    evalFrom kind rooted p (List.replicate n up) = { p with ups := p.ups + n } := by
  induction n generalizing p with
  | zero => rfl
  | succ n ih =>
    rw [List.replicate_succ, evalFrom_cons, enter_above hup hp hr]
    refine (ih (p := { p with ups := p.ups + 1 }) hp).trans ?_
    simp only [Nat.add_assoc, Nat.add_comm 1 n]

theorem eval_names (hl : ∀ x ∈ l, kind x = .name) :
    evalFrom kind rooted p l = { p with names := p.names ++ l } := by
  induction l generalizing p with
  | nil => simp
  | cons x l ih =>
    rw [evalFrom_cons, enter_name (hl x List.mem_cons_self), ih fun y hy => hl y (List.mem_cons_of_mem x hy)]
    simp

/-- The elements of a place lead to it. -/
theorem eval_elements {up : α} (hup : kind up = .up) (hp : Proper kind rooted p) :
    evalFrom kind rooted start (p.elements up) = p := by
  rw [Place.elements, evalFrom, List.foldl_append]
  change evalFrom kind rooted (evalFrom kind rooted start (List.replicate p.ups up)) p.names = p
  have hups : evalFrom kind rooted start (List.replicate p.ups up) = ⟨p.ups, []⟩ := by
    cases hr : rooted with
    | true =>
      rw [hp.ups hr]
      rfl
    | false =>
      rw [eval_ups up hup p.ups rfl rfl]
      simp [start]
  rw [hups, eval_names hp.names]
  simp

/-- In the elements of a place nothing is empty, and none that leads up stands behind a name. -/
theorem elements_normal {up : α} (hup : kind up = .up) (hp : Proper kind rooted p) :
    (∀ x ∈ p.elements up, kind x ≠ .void) ∧
      (p.elements up).Pairwise (fun x y => kind x = .name → kind y ≠ .up) ∧
        (rooted → ∀ x ∈ p.elements up, kind x ≠ .up) := by
  refine ⟨fun x hx => ?_, List.pairwise_append.mpr ⟨?_, ?_, fun x hx y hy _ => ?_⟩, fun hr x hx => ?_⟩
  · rcases List.mem_append.mp hx with hx | hx
    · rw [List.eq_of_mem_replicate hx, hup]
      nofun
    · rw [hp.names x hx]
      nofun
  · refine List.pairwise_replicate.mpr (.inr fun h => ?_)
    rw [hup] at h
    cases h
  · refine List.pairwise_of_forall_mem_list fun x hx y hy _ => ?_
    rw [hp.names y hy]
    nofun
  · rw [hp.names y hy]
    nofun
  · rw [Place.elements, hp.ups hr, List.replicate_zero, List.nil_append] at hx
    rw [hp.names x hx]
    nofun

/-- Nothing is dropped by an element, or the elements together become shorter. -/
theorem enter_shorter {up : α} (hup : ∀ x, kind x = .up → x = up) (weight : α → ℕ) (hw : ∀ x, 0 < weight x)
    (p : Place α) (x : α) : (enter kind rooted p x).elements up = p.elements up ++ [x] ∨
      (((enter kind rooted p x).elements up).map weight).sum < ((p.elements up).map weight).sum + weight x := by
  cases h : kind x with
  | void =>
    rw [enter_void h]
    exact .inr (Nat.lt_add_of_pos_right (hw x))
  | name =>
    rw [enter_name h]
    exact .inl (List.append_assoc _ _ _).symm
  | up =>
    rcases List.eq_nil_or_concat' p.names with hnil | ⟨ns, n, hns⟩
    · cases hr : rooted with
      | true =>
        rw [enter_top h hnil rfl]
        exact .inr (Nat.lt_add_of_pos_right (hw x))
      | false =>
        rw [enter_above h hnil rfl, hup x h]
        left
        rw [Place.elements, Place.elements, hnil, List.append_nil, List.append_nil, List.replicate_succ']
    · rw [enter_back h hns]
      right
      have hx := hw x
      rw [Place.elements, Place.elements, hns]
      simp only [List.map_append, List.sum_append, List.map_cons, List.map_nil, List.sum_singleton]
      omega

theorem shorter {up : α} (hup : ∀ x, kind x = .up → x = up) (weight : α → ℕ) (hw : ∀ x, 0 < weight x) (p : Place α)
    (l : List α) : (evalFrom kind rooted p l).elements up = p.elements up ++ l ∨
      (((evalFrom kind rooted p l).elements up).map weight).sum <
        ((p.elements up).map weight).sum + (l.map weight).sum := by
  induction l generalizing p with
  | nil => exact .inl (List.append_nil _).symm
  | cons x l ih =>
    rw [evalFrom_cons, List.map_cons, List.sum_cons]
    rcases @enter_shorter α kind rooted up hup weight hw p x with hstep | hstep
    · rcases ih (enter kind rooted p x) with hl | hl
      · left
        rw [hl, hstep, List.append_assoc, List.singleton_append]
      · right
        rw [hstep, List.map_append, List.sum_append, List.map_singleton, List.sum_singleton] at hl
        omega
    · right
      rcases ih (enter kind rooted p x) with hl | hl
      · rw [hl, List.map_append, List.sum_append]
        omega
      · omega

end Eval

end Petele.Lib.Lexical
