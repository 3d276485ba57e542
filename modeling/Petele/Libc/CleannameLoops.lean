import Mathlib.Data.List.Chain
import Mathlib.Data.List.Induction
import Petele.Lib.Lexical
import Petele.Libc.Cleanname

namespace Petele.Libc

open Lib.Lexical

section Meaning

def kind (x : List UInt8) : Kind :=
  if x = [] ∨ x = [Dot] then .void else if x = [Dot, Dot] then .up else .name

def rootedname (s : List UInt8) : Bool := s.head? = some Slash

/-- Where a name leads, from the root or from the directory that it is used in. -/
def place (s : List UInt8) : Place (List UInt8) := evalFrom kind (rootedname s) start (s.splitOn Slash)

/-- The elements behind the root. -/
def elements (s : List UInt8) : List (List UInt8) :=
  let t := if rootedname s then s.tail else s
  if t = [] then [] else t.splitOn Slash

def joined (p : Place (List UInt8)) : List UInt8 := [Slash].intercalate (p.elements [Dot, Dot])

/-- The shortest name of a place. -/
def normal (rooted : Bool) (p : Place (List UInt8)) : List UInt8 :=
  if rooted then Slash :: joined p else if joined p = [] then [Dot] else joined p

end Meaning

section Buffers

variable {b b' w g v tail el : List UInt8} {i : ℕ} {c x : UInt8}

theorem read_at (w v : List UInt8) (i : ℕ) : (w ++ v)[w.length + i]? = v[i]? := by
  rw [List.getElem?_append_right (Nat.le_add_right _ _), Nat.add_sub_cancel_left]

theorem read_gap (w g : List UInt8) (c : UInt8) (v : List UInt8) :
    (w ++ (g ++ c :: v))[w.length + g.length]? = some c := by
  rw [read_at]
  exact read_at g (c :: v) 0

/-- A byte moves to the front of the gap before it. -/
theorem put_front (w g : List UInt8) (c : UInt8) (v : List UInt8) :
    ∃ g', g'.length = g.length ∧ put (w ++ (g ++ c :: v)) w.length c = some ((w ++ [c]) ++ (g' ++ v)) := by
  cases g with
  | nil =>
    refine ⟨[], rfl, ?_⟩
    rw [put_eq c (by simp), List.nil_append, List.nil_append, List.set_append_right _ _ (Nat.le_refl _), Nat.sub_self,
      List.append_assoc]
    rfl
  | cons y g =>
    refine ⟨g ++ [c], by simp, ?_⟩
    rw [put_eq c (by simp), List.set_append_right _ _ (Nat.le_refl _), Nat.sub_self]
    simp

theorem put_zero (w g tail : List UInt8) : ∃ g' x, g'.length = g.length ∧ g' ++ 0 :: tail = 0 :: x ∧
    put (w ++ (g ++ 0 :: tail)) w.length 0 = some (w ++ (g' ++ 0 :: tail)) := by
  cases g with
  | nil =>
    refine ⟨[], tail, rfl, rfl, ?_⟩
    rw [put_eq 0 (by simp), List.nil_append, List.set_append_right _ _ (Nat.le_refl _), Nat.sub_self]
    rfl
  | cons y g =>
    refine ⟨0 :: g, g ++ 0 :: tail, rfl, rfl, ?_⟩
    rw [put_eq 0 (by simp), List.set_append_right _ _ (Nat.le_refl _), Nat.sub_self]
    rfl

/-- A byte that is written elsewhere in the name too stands where it stood. -/
theorem put_keeps (h : put b i c = some b') {s : ℕ} (hs : b[s]? = some c) : b'[s]? = some c := by
  by_cases hi : i < b.length
  · rw [put_eq c hi, Option.some.injEq] at h
    subst h
    by_cases his : i = s
    · rw [← his, List.getElem?_set_self hi]
    · rw [List.getElem?_set_ne his, hs]
  · rw [put, if_neg hi] at h
    cases h

theorem copyelem_list (fuel : ℕ) (w g el v : List UInt8) (c : UInt8) (hel : ∀ x ∈ el, SEP x = false)
    (hc : SEP c = true) (hfuel : el.length < fuel) :
    ∃ g', g'.length = g.length ∧ copyelem fuel (w ++ (g ++ (el ++ c :: v))) (w.length + g.length) w.length =
      some ((w ++ el) ++ (g' ++ c :: v), w.length + g.length + el.length, w.length + el.length) := by
  induction fuel generalizing w g el with
  | zero => omega
  | succ fuel ih =>
    cases el with
    | nil =>
      refine ⟨g, rfl, ?_⟩
      rw [copyelem, List.nil_append, read_gap, Option.bind_eq_bind, Option.bind_some, if_pos hc, List.append_nil]
      rfl
    | cons x el =>
      have hx : SEP x = false := hel x List.mem_cons_self
      obtain ⟨g', hg', hput⟩ := put_front w g x (el ++ c :: v)
      obtain ⟨g'', hg'', hrun⟩ := ih (w ++ [x]) g' el (fun y hy => hel y (List.mem_cons_of_mem x hy))
        (Nat.lt_of_succ_lt_succ hfuel)
      refine ⟨g'', hg''.trans hg', ?_⟩
      rw [List.length_append, List.length_singleton, hg', Nat.add_right_comm] at hrun
      rw [copyelem, List.cons_append, read_gap, Option.bind_eq_bind, Option.bind_some, hx, if_neg Bool.false_ne_true,
        hput, Option.bind_eq_bind, Option.bind_some, hrun, List.length_cons]
      simp only [List.append_assoc, List.singleton_append, Nat.add_assoc, Nat.add_comm 1]

theorem skipslashes_list (fuel : ℕ) (w v : List UInt8) (k : ℕ) (hc : c ≠ Slash) (hfuel : k < fuel) :
    skipslashes fuel (w ++ (List.replicate k Slash ++ c :: v)) w.length = some (w.length + k) := by
  induction fuel generalizing w k with
  | zero => omega
  | succ fuel ih =>
    cases k with
    | zero =>
      have hread : (w ++ (List.replicate 0 Slash ++ c :: v))[w.length]? = some c := read_at w (c :: v) 0
      rw [skipslashes, hread, Option.bind_eq_bind, Option.bind_some, if_neg hc]
      rfl
    | succ k =>
      have hread : (w ++ (List.replicate (k + 1) Slash ++ c :: v))[w.length]? = some Slash := read_at w _ 0
      have hnext := ih (w ++ [Slash]) k (Nat.lt_of_succ_lt_succ hfuel)
      rw [List.length_append, List.length_singleton, List.append_assoc] at hnext
      rw [skipslashes, hread, Option.bind_eq_bind, Option.bind_some, if_pos rfl, List.replicate_succ]
      exact hnext.trans (by rw [Nat.add_assoc, Nat.add_comm 1])

theorem lastslash_list (fuel : ℕ) (w v : List UInt8) (k s : ℕ) (hs : w.length = s + 1) (hc : c ≠ Slash)
    (hfuel : k < fuel) :
    lastslash fuel (w ++ (List.replicate k Slash ++ c :: v)) s = some (s + k) := by
  induction fuel generalizing w k s with
  | zero => omega
  | succ fuel ih =>
    cases k with
    | zero =>
      have hread : (w ++ (List.replicate 0 Slash ++ c :: v))[s + 1]? = some c := hs ▸ read_at w (c :: v) 0
      rw [lastslash, hread, Option.bind_eq_bind, Option.bind_some, if_neg hc]
      rfl
    | succ k =>
      have hread : (w ++ (List.replicate (k + 1) Slash ++ c :: v))[s + 1]? = some Slash := hs ▸ read_at w _ 0
      have hnext := ih (w ++ [Slash]) k (s + 1) (by rw [List.length_append, hs]; rfl) (Nat.lt_of_succ_lt_succ hfuel)
      rw [List.append_assoc] at hnext
      rw [lastslash, hread, Option.bind_eq_bind, Option.bind_some, if_pos rfl, List.replicate_succ]
      exact hnext.trans (by rw [Nat.add_assoc, Nat.add_comm 1])

end Buffers

section Slashes

variable {p : Place (List UInt8)} {rooted f : Bool} {u : List UInt8}

/-- A name without the slashes behind a slash; `f` says that one has come before. -/
def single : Bool → List UInt8 → List UInt8
  | _, [] => []
  | true, c :: u => if c = Slash then single true u else c :: single false u
  | false, c :: u => c :: single (c = Slash) u

theorem kind_nil : kind [] = .void := rfl

theorem single_sublist (f : Bool) (u : List UInt8) : (single f u).Sublist u := by
  induction u generalizing f with
  | nil => cases f <;> exact List.Sublist.slnil
  | cons c u ih =>
    cases f with
    | true =>
      rw [single]
      split
      · exact (ih true).cons c
      · exact (ih false).cons_cons c
    | false => exact (ih _).cons_cons c

theorem single_slashes (k : ℕ) (u : List UInt8) : single true (List.replicate k Slash ++ u) = single true u := by
  induction k with
  | zero => rfl
  | succ k ih => rw [List.replicate_succ, List.cons_append, single, if_pos rfl, ih]

theorem single_cons {c : UInt8} (hc : c ≠ Slash) (f : Bool) (u : List UInt8) :
    single f (c :: u) = c :: single false u := by
  cases f with
  | true => rw [single, if_neg hc]
  | false => rw [single, decide_eq_false hc]

/-- No slash stands behind another. -/
def Parted (x y : UInt8) : Prop := ¬ (x = Slash ∧ y = Slash)

theorem single_apart (u : List UInt8) {y : UInt8} (hy : y = Slash → f = true) : (y :: single f u).IsChain Parted := by
  induction u generalizing f y with
  | nil => cases f <;> exact .singleton y
  | cons c u ih =>
    by_cases hc : c = Slash
    · subst hc
      cases f with
      | true =>
        rw [single, if_pos rfl]
        exact ih hy
      | false =>
        rw [single]
        exact .cons_cons (fun h => Bool.false_ne_true (hy h.1)) (ih fun _ => decide_eq_true rfl)
    · rw [single_cons hc]
      exact .cons_cons (fun h => hc h.2) (ih fun h => absurd h hc)

theorem split_slash (u : List UInt8) : (Slash :: u).splitOn Slash = [] :: u.splitOn Slash := by
  rw [List.splitOn_cons_eq_if_modifyHead, if_pos (by simp)]

theorem split_byte {c : UInt8} (hc : c ≠ Slash) (u : List UInt8) :
    (c :: u).splitOn Slash = (u.splitOn Slash).modifyHead (c :: ·) := by
  rw [List.splitOn_cons_eq_if_modifyHead, if_neg (by simpa using hc)]

/-- The slashes taken out make no difference to where the name leads. -/
theorem single_eval (u carry : List UInt8) (p : Place (List UInt8)) :
    (evalFrom kind rooted p (((single false u).splitOn Slash).modifyHead (carry ++ ·)) =
      evalFrom kind rooted p ((u.splitOn Slash).modifyHead (carry ++ ·))) ∧
    evalFrom kind rooted p ((single true u).splitOn Slash) = evalFrom kind rooted p (u.splitOn Slash) := by
  induction u generalizing carry p with
  | nil => exact ⟨rfl, rfl⟩
  | cons c u ih =>
    by_cases hc : c = Slash
    · subst hc
      constructor
      · rw [single, decide_eq_true rfl, split_slash, split_slash]
        exact (ih [] _).2
      · rw [single, if_pos rfl, split_slash, evalFrom_cons, enter_void kind_nil]
        exact (ih [] p).2
    · have hmod : ∀ (d : List UInt8) (l : List (List UInt8)),
          (l.modifyHead (c :: ·)).modifyHead (d ++ ·) = l.modifyHead (d ++ [c] ++ ·) := fun d l => by
        cases l <;> simp
      constructor
      · rw [single_cons hc, split_byte hc, split_byte hc, hmod, hmod]
        exact (ih (carry ++ [c]) p).1
      · rw [single_cons hc, split_byte hc, split_byte hc]
        exact (ih [c] p).1

theorem slashes_split (u : List UInt8) :
    ∃ k u', u = List.replicate k Slash ++ u' ∧ u'.head? ≠ some Slash := by
  induction u with
  | nil => exact ⟨0, [], rfl, nofun⟩
  | cons c u ih =>
    by_cases hc : c = Slash
    · obtain ⟨k, u', hu, hhead⟩ := ih
      exact ⟨k + 1, u', by rw [hc, hu]; rfl, hhead⟩
    · exact ⟨0, c :: u, rfl, fun h => hc (Option.some.inj h)⟩

/-- What stands behind slashes, with the terminator at the end. -/
theorem exists_next {u tail : List UInt8} (hu : u.head? ≠ some Slash) :
    ∃ c v, u ++ 0 :: tail = c :: v ∧ c ≠ Slash := by
  cases u with
  | nil => exact ⟨0, tail, rfl, by decide⟩
  | cons c u => exact ⟨c, u ++ 0 :: tail, rfl, fun h => hu (congrArg some h)⟩

theorem squeeze_list (fuel : ℕ) (f : Bool) (w g u tail : List UInt8) (hu : 0 ∉ u)
    (hf : f = true → u.head? ≠ some Slash) (hfuel : u.length < fuel) :
    ∃ g', g'.length + (single f u).length = g.length + u.length ∧
      squeeze fuel (w ++ (g ++ (u ++ 0 :: tail))) (w.length + g.length) w.length =
        some (w ++ (single f u ++ (g' ++ 0 :: tail)), w.length + (single f u).length) := by
  induction fuel generalizing f w g u with
  | zero => omega
  | succ fuel ih =>
    cases u with
    | nil =>
      have hnil : single f [] = [] := by cases f <;> rfl
      refine ⟨g, by rw [hnil], ?_⟩
      rw [squeeze, List.nil_append, read_gap, Option.bind_eq_bind, Option.bind_some, if_pos rfl, hnil]
      rfl
    | cons c u =>
      have hc0 : c ≠ 0 := fun h => hu (h ▸ List.mem_cons_self)
      have hu' : 0 ∉ u := fun h => hu (List.mem_cons_of_mem c h)
      have hread : (w ++ (g ++ (c :: u ++ 0 :: tail)))[w.length + g.length]? = some c := read_gap w g c _
      obtain ⟨g1, hg1, hput⟩ := put_front w g c (u ++ 0 :: tail)
      have hput' : put (w ++ (g ++ (c :: u ++ 0 :: tail))) w.length c = some ((w ++ [c]) ++ (g1 ++ (u ++ 0 :: tail))) :=
        hput
      have hsame := put_keeps hput' hread
      have hlen : (w ++ [c]).length = w.length + 1 := by simp
      rw [squeeze, hread, Option.bind_eq_bind, Option.bind_some, if_neg hc0, hput']
      simp only [Option.bind_eq_bind, Option.bind_some, hsame]
      rw [List.length_cons] at hfuel
      by_cases hslash : c = Slash
      · obtain rfl : f = false := by
          cases f with
          | true => exact absurd (congrArg some hslash) (hf rfl)
          | false => rfl
        obtain ⟨k, u', hsplit, hhead⟩ := slashes_split u
        obtain ⟨y, v, hnext, hy⟩ := @exists_next u' tail hhead
        have hbuf : (w ++ [c]) ++ (g1 ++ (u ++ 0 :: tail)) =
            ((w ++ [c]) ++ g1) ++ (List.replicate k Slash ++ y :: v) := by
          rw [hsplit, ← hnext]
          simp only [List.append_assoc]
        have hlast : lastslash ((w ++ [c]) ++ (g1 ++ (u ++ 0 :: tail))).length
            ((w ++ [c]) ++ (g1 ++ (u ++ 0 :: tail))) (w.length + g.length) = some (w.length + g.length + k) := by
          rw [hbuf]
          exact lastslash_list _ _ v k _ (by rw [List.length_append, hlen, hg1]; omega) hy (by simp; omega)
        rw [if_pos hslash, hlast, Option.bind_some]
        have hzero : 0 ∉ u' := fun h => hu' (hsplit ▸ List.mem_append_right _ h)
        have hshort : u.length = k + u'.length := by rw [hsplit]; simp
        obtain ⟨g2, hg2, hrun⟩ := ih true (w ++ [c]) (g1 ++ List.replicate k Slash) u' hzero (fun _ => hhead) (by omega)
        refine ⟨g2, ?_, ?_⟩
        · rw [single, decide_eq_true hslash, hsplit, single_slashes]
          simp only [List.length_append, List.length_replicate, List.length_cons] at hg2 ⊢
          omega
        · have hbuf' : (w ++ [c]) ++ (g1 ++ (u ++ 0 :: tail)) =
              (w ++ [c]) ++ ((g1 ++ List.replicate k Slash) ++ (u' ++ 0 :: tail)) := by
            rw [hsplit]
            simp only [List.append_assoc]
          have hpos : (w ++ [c]).length + (g1 ++ List.replicate k Slash).length = w.length + g.length + k + 1 := by
            simp only [List.length_append, List.length_singleton, List.length_replicate, hg1]
            omega
          rw [hpos, hlen] at hrun
          rw [hbuf', hrun, single, decide_eq_true hslash, hsplit, single_slashes]
          simp only [List.append_assoc, List.cons_append, List.nil_append, List.length_cons, Nat.add_assoc,
            Nat.add_comm 1]
      · obtain ⟨g2, hg2, hrun⟩ := ih false (w ++ [c]) g1 u hu' (by intros; contradiction) (by omega)
        rw [if_neg hslash, Option.bind_some, single_cons hslash]
        refine ⟨g2, by rw [List.length_cons, List.length_cons]; omega, ?_⟩
        rw [hlen, hg1, Nat.add_right_comm] at hrun
        rw [hrun]
        simp only [List.append_assoc, List.cons_append, List.nil_append, List.length_cons, Nat.add_assoc,
          Nat.add_comm 1]

end Slashes

section Elements

variable {rooted : Bool} {p : Place (List UInt8)} {root g el : List UInt8} {c : UInt8}

/-- Elements with a slash behind each. -/
def flat (l : List (List UInt8)) : List UInt8 := l.flatMap (· ++ [Slash])

theorem flat_append (l l' : List (List UInt8)) : flat (l ++ l') = flat l ++ flat l' := List.flatMap_append

theorem flat_singleton (x : List UInt8) : flat [x] = x ++ [Slash] := by
  simp [flat]

/-- A root with the elements of a place behind it. -/
def written (root : List UInt8) (p : Place (List UInt8)) : List UInt8 := root ++ flat (p.elements [Dot, Dot])

theorem written_name (root : List UInt8) (u : ℕ) (ns : List (List UInt8)) (x : List UInt8) :
    written root ⟨u, ns ++ [x]⟩ = written root ⟨u, ns⟩ ++ (x ++ [Slash]) := by
  rw [written, written, Place.elements, Place.elements, ← List.append_assoc, flat_append, flat_singleton,
    List.append_assoc]

theorem written_up (root : List UInt8) (u : ℕ) :
    written root ⟨u + 1, []⟩ = written root ⟨u, []⟩ ++ ([Dot, Dot] ++ [Slash]) := by
  rw [written, written, Place.elements, Place.elements, List.append_nil, List.append_nil, List.replicate_succ',
    flat_append, flat_singleton, List.append_assoc]

theorem written_base (root : List UInt8) (u : ℕ) : (written root ⟨u, []⟩).length = root.length + 3 * u := by
  induction u with
  | zero => simp [written, Place.elements, flat]
  | succ u ih =>
    rw [written_up, List.length_append, ih]
    simp only [List.length_append, List.length_cons, List.length_nil]
    omega

/-- The names of a place begin behind its root, or behind a slash. -/
theorem written_ends (root : List UInt8) (u : ℕ) (ns : List (List UInt8)) :
    (written root ⟨u, ns⟩).length = root.length + 3 * u ∨
      root.length + 3 * u < (written root ⟨u, ns⟩).length ∧ ∃ a, written root ⟨u, ns⟩ = a ++ [Slash] := by
  induction ns using List.reverseRecOn with
  | nil => exact .inl (written_base root u)
  | append_singleton ns x ih =>
    right
    rw [written_name, ← List.append_assoc]
    refine ⟨?_, _, rfl⟩
    simp only [List.length_append, List.length_singleton]
    rcases ih with ih | ih <;> omega

theorem kind_dot : kind [Dot] = .void := by decide

theorem kind_dotdot : kind [Dot, Dot] = .up := by decide

theorem kind_other (h0 : el ≠ []) (h1 : el ≠ [Dot]) (h2 : el ≠ [Dot, Dot]) : kind el = .name := by
  rw [kind, if_neg (not_or.mpr ⟨h0, h1⟩), if_neg h2]

theorem unelem_list (d0 : ℕ) (a m v : List UInt8) (hm : Slash ∉ m)
    (ha : a.length = d0 ∨ d0 < a.length ∧ ∃ a', a = a' ++ [Slash]) :
    unelem (a ++ (m ++ v)) d0 (a.length + m.length) = some a.length := by
  induction m using List.reverseRecOn generalizing v with
  | nil =>
    rw [List.length_nil, Nat.add_zero, List.nil_append]
    rcases ha with ha | ⟨hlt, a', rfl⟩
    · cases hlen : a.length with
      | zero => rfl
      | succ k => rw [unelem, if_neg (by omega)]
    · have hread : (a' ++ [Slash] ++ v)[a'.length]? = some Slash := by
        rw [List.append_assoc]
        exact read_at a' _ 0
      rw [List.length_append, List.length_singleton] at hlt ⊢
      rw [unelem, if_pos hlt, hread, Option.bind_eq_bind, Option.bind_some, if_neg (not_not.mpr rfl)]
  | append_singleton m y ih =>
    have hy : y ≠ Slash := fun h => hm (h ▸ List.mem_append_right _ List.mem_cons_self)
    have hread : (a ++ (m ++ [y] ++ v))[a.length + m.length]? = some y := by
      rw [List.append_assoc]
      exact read_gap a m y v
    have hlt : d0 < a.length + m.length + 1 := by omega
    rw [List.length_append, List.length_singleton, ← Nat.add_assoc, unelem, if_pos hlt, hread, Option.bind_eq_bind,
      Option.bind_some, if_pos hy, List.append_assoc]
    exact ih _ fun h => hm (List.mem_append_left _ h)

/-- What a turn does by the element that comes next. -/
theorem turn_list (rooted : Bool) (w el t : List UInt8) (d d0 : ℕ) (h0 : el ≠ []) (hel : ∀ x ∈ el, SEP x = false)
    (hc : SEP c = true) :
    turn rooted (w ++ (el ++ c :: t)) w.length d d0 =
      if el = [Dot] then some (if c = 0 then .stop d else .skip (w.length + 2) d)
      else if el = [Dot, Dot] then dotdot rooted (w ++ (el ++ c :: t)) w.length d d0 c
      else some (.copy d0) := by
  obtain ⟨x, el, rfl⟩ := List.exists_cons_of_ne_nil h0
  have hread : ∀ i, (w ++ (x :: el ++ c :: t))[w.length + i]? = (x :: el ++ c :: t)[i]? := read_at w _
  have hx : x ≠ 0 := (SEP_eq_false.mp (hel x List.mem_cons_self)).2
  rw [turn, show (w ++ (x :: el ++ c :: t))[w.length]? = some x from hread 0, Option.bind_eq_bind, Option.bind_some,
    if_neg hx]
  by_cases hdot : x = Dot
  · subst hdot
    rw [if_pos rfl, hread 1]
    cases el with
    | nil =>
      rw [if_pos rfl]
      simp only [List.cons_append, List.nil_append, List.getElem?_cons_succ, List.getElem?_cons_zero, Option.bind_some, hc, if_true]
    | cons y el =>
      have hy : SEP y = false := hel y (List.mem_cons_of_mem _ List.mem_cons_self)
      rw [if_neg (by simp)]
      simp only [List.cons_append, List.getElem?_cons_succ, List.getElem?_cons_zero, Option.bind_some, hy,
        Bool.false_eq_true, if_false]
      by_cases hdot' : y = Dot
      · subst hdot'
        have htwo := hread 2
        rw [if_pos rfl]
        cases el with
        | nil =>
          rw [if_pos rfl]
          simp only [List.cons_append, List.nil_append, List.getElem?_cons_succ, List.getElem?_cons_zero] at htwo
          simp only [List.nil_append, htwo, Option.bind_some, hc, if_true]
        | cons z el =>
          have hz : SEP z = false := hel z (List.mem_cons_of_mem _ (List.mem_cons_of_mem _ List.mem_cons_self))
          simp only [List.cons_append, List.getElem?_cons_succ, List.getElem?_cons_zero] at htwo
          rw [if_neg (by simp)]
          simp only [List.cons_append, htwo, Option.bind_some, hz, Bool.false_eq_true, if_false]
      · rw [if_neg hdot', if_neg (by simp [hdot'])]
  · rw [if_neg hdot, if_neg (by simp [hdot]), if_neg (by simp [hdot])]

/-- A turn and the element evaluated: it is skipped, with the name before it or without, or it is copied. -/
theorem turn_enter (root g t : List UInt8) (hp : Proper kind rooted p) (hn : ∀ x ∈ p.names, Slash ∉ x) (h0 : el ≠ [])
    (hel : ∀ x ∈ el, SEP x = false) (hc : SEP c = true) :
    (∃ z, written root p = written root (enter kind rooted p el) ++ z ∧ (enter kind rooted p el).ups = p.ups ∧
      turn rooted (written root p ++ (g ++ (el ++ c :: t))) ((written root p).length + g.length)
        (written root p).length (root.length + 3 * p.ups) =
          some (if c = 0 then .stop (written root (enter kind rooted p el)).length
            else .skip ((written root p).length + g.length + (el.length + 1))
              (written root (enter kind rooted p el)).length)) ∨
    (written root (enter kind rooted p el) = written root p ++ (el ++ [Slash]) ∧
      turn rooted (written root p ++ (g ++ (el ++ c :: t))) ((written root p).length + g.length)
        (written root p).length (root.length + 3 * p.ups) =
          some (.copy (root.length + 3 * (enter kind rooted p el).ups))) := by
  have hturn := turn_list rooted (written root p ++ g) el t (written root p).length (root.length + 3 * p.ups) h0 hel hc
  rw [List.append_assoc, List.length_append] at hturn
  rw [hturn]
  by_cases h1 : el = [Dot]
  · left
    rw [h1, enter_void kind_dot, if_pos rfl]
    exact ⟨[], (List.append_nil _).symm, rfl, rfl⟩
  · rw [if_neg h1]
    by_cases h2 : el = [Dot, Dot]
    · rw [if_pos h2]
      subst h2
      obtain ⟨u, names⟩ := p
      rcases List.eq_nil_or_concat' names with rfl | ⟨ns, n, rfl⟩
      · have hbase := written_base root u
        cases hr : rooted with
        | true =>
          left
          rw [enter_top kind_dotdot rfl rfl, dotdot, if_pos ⟨hbase, rfl⟩]
          exact ⟨[], (List.append_nil _).symm, rfl, rfl⟩
        | false =>
          right
          rw [enter_above kind_dotdot rfl rfl, dotdot, if_neg (fun h => Bool.false_ne_true h.2)]
          refine ⟨written_up root u, ?_⟩
          rw [if_pos hbase]
          dsimp only
          rw [if_neg (by omega), Nat.mul_succ, Nat.add_assoc]
      · left
        have hkind := hp.names n (List.mem_append_right _ List.mem_cons_self)
        have hslash := hn n (List.mem_append_right _ List.mem_cons_self)
        rw [@enter_back _ kind rooted ⟨u, ns ++ [n]⟩ _ kind_dotdot ns n rfl]
        refine ⟨n ++ [Slash], written_name root u ns n, rfl, ?_⟩
        dsimp only
        -- the name that goes, from its last byte back
        rcases List.eq_nil_or_concat' n with rfl | ⟨m, y, rfl⟩
        · exact absurd hkind (by decide)
        · have hends := written_ends root u ns
          have hback := unelem_list (root.length + 3 * u) (written root ⟨u, ns⟩) m
            ([y] ++ ([Slash] ++ (g ++ ([Dot, Dot] ++ c :: t)))) (fun h => hslash (List.mem_append_left _ h)) hends
          have hbuf : written root ⟨u, ns ++ [m ++ [y]]⟩ ++ (g ++ ([Dot, Dot] ++ c :: t)) =
              written root ⟨u, ns⟩ ++ (m ++ ([y] ++ ([Slash] ++ (g ++ ([Dot, Dot] ++ c :: t))))) := by
            rw [written_name]
            simp only [List.append_assoc]
          have hlen : (written root ⟨u, ns ++ [m ++ [y]]⟩).length = (written root ⟨u, ns⟩).length + m.length + 2 := by
            rw [written_name]
            simp only [List.length_append, List.length_singleton]
            omega
          have hlast : (written root ⟨u, ns⟩ ++ (m ++ ([y] ++ ([Slash] ++ (g ++ ([Dot, Dot] ++ c :: t))))))[
              (written root ⟨u, ns⟩).length + m.length + 2 - 1]? = some Slash := by
            have h := read_gap (written root ⟨u, ns⟩ ++ m) [y] Slash (g ++ ([Dot, Dot] ++ c :: t))
            rw [List.append_assoc, List.length_append] at h
            exact h
          rw [hbuf, hlen, dotdot, if_neg (fun h => by omega)]
          have hne : (written root ⟨u, ns⟩).length + m.length + 2 ≠ root.length + 3 * u := by omega
          have hlow : root.length + 3 * u + 2 ≤ (written root ⟨u, ns⟩).length + m.length + 2 := by omega
          have hlt : root.length + 3 * u < (written root ⟨u, ns⟩).length + m.length + 2 := by omega
          simp only [if_neg hne, if_pos hlt, if_pos hlow, hlast, Option.bind_eq_bind, Option.bind_some, if_true]
          rw [Nat.add_sub_cancel, hback]
          rfl
    · right
      have hname := kind_other h0 h1 h2
      rw [if_neg h2, enter_name hname]
      exact ⟨written_name root p.ups p.names el, rfl⟩

/-- The first element of a name without double slashes. -/
theorem first_element {v : List UInt8} (tail : List UInt8) (hv0 : 0 ∉ v) (hv : (Slash :: v).IsChain Parted) (hne : v ≠ []) :
    ∃ el c t, el ≠ [] ∧ Slash ∉ el ∧ (∀ x ∈ el, SEP x = false) ∧ SEP c = true ∧ v ++ 0 :: tail = el ++ c :: t ∧
      (c = 0 ∧ v = el ∧ t = tail ∨
        c = Slash ∧ ∃ v', v = el ++ Slash :: v' ∧ t = v' ++ 0 :: tail ∧ 0 ∉ v' ∧ (Slash :: v').IsChain Parted) := by
  by_cases hmem : Slash ∈ v
  · obtain ⟨el, v', rfl, hel⟩ := List.eq_append_cons_of_mem hmem
    refine ⟨el, Slash, v' ++ 0 :: tail, ?_, hel, fun x hx => ?_, by decide, by simp, .inr ⟨rfl, v', rfl, rfl, ?_, ?_⟩⟩
    · rintro rfl
      cases hv with
      | cons_cons h _ => exact h ⟨rfl, rfl⟩
    · exact SEP_eq_false.mpr ⟨fun h => hel (h ▸ hx), fun h => hv0 (List.mem_append_left _ (h ▸ hx))⟩
    · exact fun h => hv0 (List.mem_append_right _ (List.mem_cons_of_mem _ h))
    · exact List.IsChain.right_of_append (show ((Slash :: el) ++ (Slash :: v')).IsChain Parted from hv)
  · refine ⟨v, 0, tail, hne, hmem, fun x hx => ?_, by decide, rfl, .inl ⟨rfl, rfl, rfl⟩⟩
    exact SEP_eq_false.mpr ⟨fun h => hmem (h ▸ hx), fun h => hv0 (h ▸ hx)⟩

/-- The last loop leaves the elements of the place that the rest of the name leads to. -/
theorem compress_list (fuel : ℕ) (root g v tail : List UInt8) (hp : Proper kind rooted p)
    (hn : ∀ x ∈ p.names, Slash ∉ x) (hv0 : 0 ∉ v) (hv : (Slash :: v).IsChain Parted) (hfuel : v.length < fuel) :
    ∃ body g', g'.length + (root ++ body).length = (written root p).length + g.length + v.length ∧
      compress rooted fuel (written root p ++ (g ++ (v ++ 0 :: tail))) ((written root p).length + g.length)
        (written root p).length (root.length + 3 * p.ups) =
          some ((root ++ body) ++ (g' ++ 0 :: tail), (root ++ body).length) ∧
      (body = flat ((evalFrom kind rooted p (v.splitOn Slash)).elements [Dot, Dot]) ∨
        body ++ [Slash] = flat ((evalFrom kind rooted p (v.splitOn Slash)).elements [Dot, Dot])) := by
  induction fuel generalizing p g v with
  | zero => omega
  | succ fuel ih =>
    by_cases hne : v = []
    · subst hne
      refine ⟨flat (p.elements [Dot, Dot]), g, by rw [written]; simp; omega, ?_, .inl ?_⟩
      · have hturn : turn rooted (written root p ++ (g ++ 0 :: tail)) ((written root p).length + g.length)
            (written root p).length (root.length + 3 * p.ups) = some (.stop (written root p).length) := by
          rw [turn, read_gap, Option.bind_eq_bind, Option.bind_some, if_pos rfl]
        rw [compress, List.nil_append, hturn]
        rfl
      · rw [List.splitOn_nil, evalFrom_cons, enter_void kind_nil, evalFrom_nil]
    · obtain ⟨el, c, t, h0, hslash, hel, hc, hbuf, hcase⟩ := first_element tail hv0 hv hne
      have hp' := hp.enter el
      have hn' : ∀ x ∈ (enter kind rooted p el).names, Slash ∉ x :=
        mem_names_eval (l := [el]) hn fun x hx => List.mem_singleton.mp hx ▸ hslash
      have hpos := List.length_pos_iff.mpr h0
      rw [hbuf]
      rcases turn_enter root g t hp hn h0 hel hc with ⟨z, hz, hups, hturn⟩ | ⟨hw, hturn⟩
      · rw [compress, hturn]
        rcases hcase with ⟨rfl, rfl, rfl⟩ | ⟨rfl, v', rfl, rfl, hv0', hv'⟩
        · refine ⟨flat ((enter kind rooted p v).elements [Dot, Dot]), z ++ (g ++ v), ?_, ?_, .inl ?_⟩
          · have hlen := congrArg List.length hz
            simp only [written, List.length_append] at hlen ⊢
            omega
          · rw [Option.bind_eq_bind, Option.bind_some, if_pos rfl]
            rw [hz, written]
            simp only [List.append_assoc]
          · rw [List.splitOn_eq_singleton hslash]
            rfl
        · obtain ⟨body, g', hlen, hrun, hbody⟩ := ih (z ++ (g ++ (el ++ [Slash]))) v' hp' hn' hv0' hv' (by
            simp only [List.length_append, List.length_cons] at hfuel
            omega)
          have hzlen := congrArg List.length hz
          refine ⟨body, g', ?_, ?_, ?_⟩
          · simp only [List.length_append, List.length_cons, List.length_nil] at hlen hzlen ⊢
            omega
          · have hs : (written root (enter kind rooted p el)).length + (z ++ (g ++ (el ++ [Slash]))).length =
                (written root p).length + g.length + (el.length + 1) := by
              simp only [List.length_append, List.length_singleton] at hzlen ⊢
              omega
            have hb : written root (enter kind rooted p el) ++ ((z ++ (g ++ (el ++ [Slash]))) ++ (v' ++ 0 :: tail)) =
                written root p ++ (g ++ (el ++ Slash :: (v' ++ 0 :: tail))) := by
              rw [hz]
              simp only [List.append_assoc, List.singleton_append]
            rw [hs, hb, hups] at hrun
            rw [Option.bind_eq_bind, Option.bind_some, if_neg (by decide)]
            exact hrun
          · rw [List.splitOn_append_cons_self_of_not_mem hslash, evalFrom_cons]
            exact hbody
      · obtain ⟨g1, hg1, hcopy⟩ := copyelem_list (written root p ++ (g ++ (el ++ c :: t))).length (written root p) g el t c
          hel hc (by simp; omega)
        have hread : ((written root p ++ el) ++ (g1 ++ c :: t))[(written root p).length + g.length + el.length]? =
            some c := by
          have h := read_gap (written root p ++ el) g1 c t
          rwa [List.length_append, hg1, Nat.add_right_comm] at h
        rw [compress, hturn]
        simp only [Option.bind_eq_bind, Option.bind_some, hcopy, hread]
        rcases hcase with ⟨rfl, rfl, rfl⟩ | ⟨rfl, v', rfl, rfl, hv0', hv'⟩
        · refine ⟨flat (p.elements [Dot, Dot]) ++ v, g1, ?_, ?_, .inr ?_⟩
          · simp only [written, List.length_append]
            omega
          · rw [if_pos rfl]
            simp only [written, List.append_assoc, List.length_append, Nat.add_assoc]
          · rw [List.splitOn_eq_singleton hslash, evalFrom_cons, evalFrom_nil]
            have hroot : root ++ flat ((enter kind rooted p v).elements [Dot, Dot]) =
                root ++ ((flat (p.elements [Dot, Dot]) ++ v) ++ [Slash]) := by
              rw [← written, hw, written]
              simp only [List.append_assoc]
            exact (List.append_cancel_left hroot).symm
        · obtain ⟨g2, hg2, hput⟩ := put_front (written root p ++ el) g1 Slash (v' ++ 0 :: tail)
          rw [List.length_append] at hput
          obtain ⟨body, g', hlen, hrun, hbody⟩ := ih g2 v' hp' hn' hv0' hv' (by
            simp only [List.length_append, List.length_cons] at hfuel
            omega)
          refine ⟨body, g', ?_, ?_, ?_⟩
          · rw [hlen, hw]
            simp only [List.length_append, List.length_cons, List.length_nil]
            omega
          · have hs : (written root (enter kind rooted p el)).length + g2.length =
                (written root p).length + g.length + el.length + 1 := by
              rw [hw]
              simp only [List.length_append, List.length_singleton]
              omega
            have hd : (written root (enter kind rooted p el)).length = (written root p).length + el.length + 1 := by
              rw [hw]
              simp only [List.length_append, List.length_singleton]
              omega
            rw [hs, hd, hw] at hrun
            rw [if_neg (by decide), hput, Option.bind_some]
            simp only [List.append_assoc] at hrun ⊢
            exact hrun
          · rw [List.splitOn_append_cons_self_of_not_mem hslash, evalFrom_cons]
            exact hbody

end Elements

end Petele.Libc
