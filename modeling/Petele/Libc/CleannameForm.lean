import Petele.Libc.CleannameLoops

namespace Petele.Libc

open Lib.Lexical

section Paths

variable {rooted : Bool} {p : Place (List UInt8)} {u x : List UInt8} {l : List (List UInt8)}

theorem flat_joined (h : l ≠ []) : flat l = [Slash].intercalate l ++ [Slash] := by
  induction l with
  | nil => exact absurd rfl h
  | cons x l ih =>
    cases l with
    | nil => rw [flat_singleton, List.intercalate_singleton]
    | cons y l =>
      rw [List.intercalate_cons_cons, show x :: y :: l = [x] ++ (y :: l) from rfl, flat_append, flat_singleton,
        ih (List.cons_ne_nil y l)]
      simp only [List.append_assoc]

theorem joined_last (h : l ≠ []) (hl : ∀ x ∈ l, x ≠ [] ∧ Slash ∉ x) :
    ∃ a y, [Slash].intercalate l = a ++ [y] ∧ y ≠ Slash := by
  induction l with
  | nil => exact absurd rfl h
  | cons x l ih =>
    cases l with
    | nil =>
      obtain ⟨hne, hslash⟩ := hl x List.mem_cons_self
      rcases List.eq_nil_or_concat' x with rfl | ⟨a, y, rfl⟩
      · exact absurd rfl hne
      · refine ⟨a, y, List.intercalate_singleton, fun h => hslash ?_⟩
        rw [h]
        exact List.mem_append_right _ List.mem_cons_self
    | cons y l =>
      obtain ⟨a, z, ha, hz⟩ := ih (List.cons_ne_nil y l) fun x hx => hl x (List.mem_cons_of_mem _ hx)
      exact ⟨x ++ [Slash] ++ a, z, by rw [List.intercalate_cons_cons, ha]; simp, hz⟩

/-- An element of a name, and what is in it. -/
theorem mem_split (hx : x ∈ u.splitOn Slash) : Slash ∉ x ∧ ∀ c ∈ x, c ∈ u := by
  induction u generalizing x with
  | nil =>
    rw [List.splitOn_nil, List.mem_singleton] at hx
    subst hx
    exact ⟨List.not_mem_nil, nofun⟩
  | cons c u ih =>
    by_cases hc : c = Slash
    · rw [hc, split_slash] at hx
      rcases List.mem_cons.mp hx with rfl | hx
      · exact ⟨List.not_mem_nil, nofun⟩
      · exact ⟨(ih hx).1, fun d hd => List.mem_cons_of_mem c ((ih hx).2 d hd)⟩
    · rw [split_byte hc] at hx
      obtain ⟨y, l, hl⟩ := List.exists_cons_of_ne_nil (List.splitOn_ne_nil Slash u)
      rw [hl, List.modifyHead_cons] at hx
      rw [hl] at ih
      rcases List.mem_cons.mp hx with rfl | hx
      · obtain ⟨hslash, hmem⟩ := ih List.mem_cons_self
        refine ⟨fun h => ?_, fun d hd => ?_⟩
        · rcases List.mem_cons.mp h with h | h
          · exact hc h.symm
          · exact hslash h
        · rcases List.mem_cons.mp hd with rfl | hd
          · exact List.mem_cons_self
          · exact List.mem_cons_of_mem c (hmem d hd)
      · obtain ⟨hslash, hmem⟩ := ih (List.mem_cons_of_mem y hx)
        exact ⟨hslash, fun d hd => List.mem_cons_of_mem c (hmem d hd)⟩

/-- A place that a name can lead to. -/
structure Spelled (rooted : Bool) (p : Place (List UInt8)) : Prop where
  proper : Proper kind rooted p
  slash : ∀ x ∈ p.names, Slash ∉ x
  zero : ∀ x ∈ p.names, 0 ∉ x

theorem eval_named (rooted : Bool) (hu : 0 ∉ u) : Spelled rooted (evalFrom kind rooted start (u.splitOn Slash)) :=
  ⟨Proper.start.eval _, mem_names_eval nofun fun _ hx => (mem_split hx).1,
    mem_names_eval nofun fun _ hx h => hu ((mem_split hx).2 0 h)⟩

theorem Spelled.mem (h : Spelled rooted p) (hx : x ∈ p.elements [Dot, Dot]) :
    x ≠ [] ∧ Slash ∉ x ∧ 0 ∉ x := by
  rcases List.mem_append.mp hx with hx | hx
  · rw [List.eq_of_mem_replicate hx]
    decide
  · refine ⟨fun hnil => ?_, h.slash x hx, h.zero x hx⟩
    have hkind := h.proper.names x hx
    rw [hnil] at hkind
    cases hkind

theorem Spelled.joined_eq_nil (h : Spelled rooted p) : joined p = [] ↔ p.elements [Dot, Dot] = [] := by
  constructor
  · intro hnil
    by_contra hne
    obtain ⟨a, y, ha, -⟩ := joined_last hne fun x hx => ⟨(h.mem hx).1, (h.mem hx).2.1⟩
    rw [joined, ha] at hnil
    simp at hnil
  · intro hnil
    rw [joined, hnil]
    rfl

theorem Spelled.joined_zero (h : Spelled rooted p) : 0 ∉ joined p := by
  have hall : ∀ l : List (List UInt8), (∀ x ∈ l, 0 ∉ x) → 0 ∉ [Slash].intercalate l := by
    intro l hl
    induction l with
    | nil => exact List.not_mem_nil
    | cons x l ih =>
      cases l with
      | nil => rw [List.intercalate_singleton]; exact hl x List.mem_cons_self
      | cons y l =>
        rw [List.intercalate_cons_cons, List.mem_append, List.mem_append, not_or, not_or]
        exact ⟨⟨hl x List.mem_cons_self, by decide⟩, ih fun x hx => hl x (List.mem_cons_of_mem _ hx)⟩
  exact hall _ fun x hx => (h.mem hx).2.2

/-- The loops leave the elements of the place behind the root, and go on to the end of the code. -/
theorem path_run (rooted : Bool) (root u tail : List UInt8) (hu : 0 ∉ u)
    (hfirst : rooted = false → u.head? ≠ some Slash) :
    ∃ body g, g.length + (root ++ body).length = root.length + u.length ∧
      (do
        let i ← (if rooted then skipslashes (root ++ (u ++ 0 :: tail)).length (root ++ (u ++ 0 :: tail)) root.length
          else some root.length)
        let (b, d) ← squeeze (root ++ (u ++ 0 :: tail)).length (root ++ (u ++ 0 :: tail)) i root.length
        let b ← put b d 0
        let (b, d) ← compress rooted b.length b root.length root.length root.length
        endname b d) = endname ((root ++ body) ++ (g ++ 0 :: tail)) (root ++ body).length ∧
      (body = flat ((evalFrom kind rooted start (u.splitOn Slash)).elements [Dot, Dot]) ∨
        body ++ [Slash] = flat ((evalFrom kind rooted start (u.splitOn Slash)).elements [Dot, Dot])) := by
  -- the slashes at the beginning
  obtain ⟨k, u', hsplit, hhead, hskip⟩ : ∃ k u', u = List.replicate k Slash ++ u' ∧ u'.head? ≠ some Slash ∧
      (if rooted then skipslashes (root ++ (u ++ 0 :: tail)).length (root ++ (u ++ 0 :: tail)) root.length
        else some root.length) = some (root.length + k) := by
    cases rooted with
    | true =>
      obtain ⟨k, u', hsplit, hhead⟩ := slashes_split u
      obtain ⟨y, v, hnext, hy⟩ := @exists_next u' tail hhead
      refine ⟨k, u', hsplit, hhead, ?_⟩
      have hbuf : u ++ 0 :: tail = List.replicate k Slash ++ y :: v := by rw [hsplit, List.append_assoc, hnext]
      rw [if_pos rfl, hbuf]
      exact skipslashes_list _ root v k hy (by simp; omega)
    | false => exact ⟨0, u, rfl, hfirst rfl, rfl⟩
  have hzero : 0 ∉ u' := fun h => hu (hsplit ▸ List.mem_append_right _ h)
  have hlen : u.length = k + u'.length := by rw [hsplit]; simp
  obtain ⟨g1, hg1, hsqueeze⟩ := squeeze_list (root ++ (u ++ 0 :: tail)).length true root (List.replicate k Slash) u' tail
    hzero (fun _ => hhead) (by simp; omega)
  have hbuf : root ++ (List.replicate k Slash ++ (u' ++ 0 :: tail)) = root ++ (u ++ 0 :: tail) := by
    rw [hsplit, List.append_assoc (List.replicate k Slash)]
  rw [hbuf, List.length_replicate] at hsqueeze
  rw [List.length_replicate] at hg1
  obtain ⟨g2, x2, hg2, hx2, hput⟩ := put_zero (root ++ single true u') g1 tail
  rw [List.append_assoc, List.append_assoc, List.length_append, hx2] at hput
  -- what is left has single slashes
  have hv0 : 0 ∉ single true u' := fun h => hzero ((single_sublist true u').subset h)
  have hstart : written root start = root := by simp [written, start, Place.elements, flat]
  obtain ⟨body, g3, hg3, hrun, hbody⟩ := @compress_list rooted start
    (root ++ (single true u' ++ 0 :: x2)).length root [] (single true u') x2 Proper.start (by intros; contradiction) hv0
    (single_apart u' fun _ => rfl) (by simp; omega)
  rw [hstart, List.nil_append, List.length_nil, Nat.add_zero] at hrun
  rw [hstart, List.length_nil, Nat.add_zero] at hg3
  have hsame : evalFrom kind rooted start ((single true u').splitOn Slash) =
      evalFrom kind rooted start (u.splitOn Slash) := by
    rw [← single_slashes k u', ← hsplit]
    exact (single_eval u [] start).2
  rw [hsame] at hbody
  refine ⟨body, g3 ++ g2, ?_, ?_, hbody⟩
  · rw [show (g3 ++ g2).length = g3.length + g2.length from List.length_append]
    omega
  · rw [hskip]
    simp only [Option.bind_eq_bind, Option.bind_some, hsqueeze, hput]
    rw [show root.length + 3 * (start : Place (List UInt8)).ups = root.length from rfl] at hrun
    rw [hrun, Option.bind_some, List.append_assoc g3, hx2]

/-- The end of the code: the slash behind the last element goes. -/
theorem endname_list (root body g tail : List UInt8) (h : Spelled rooted p)
    (hbody : body = flat (p.elements [Dot, Dot]) ∨ body ++ [Slash] = flat (p.elements [Dot, Dot]))
    (hlast : p.elements [Dot, Dot] = [] → ∀ a, root = a ++ [Slash] → a = [])
    (hbegin : ∃ c t, root ++ joined p = c :: t ∧ c ≠ 0) :
    ∃ g' x, g' ++ 0 :: tail = 0 :: x ∧ g'.length + (root ++ joined p).length = g.length + (root ++ body).length ∧
      endname ((root ++ body) ++ (g ++ 0 :: tail)) (root ++ body).length = some ((root ++ joined p) ++ 0 :: x) := by
  obtain ⟨g1, x1, hg1, hx1, hput⟩ := put_zero (root ++ body) g tail
  obtain ⟨c, t, hc, hc0⟩ := hbegin
  have hread : ∀ v, (root ++ joined p ++ v)[0]? = some c := fun v => by rw [hc]; rfl
  -- the byte before the end
  have hkeep : ∀ a y, root ++ body = a ++ [y] → (2 ≤ (root ++ body).length → y ≠ Slash) → body = joined p →
      endname ((root ++ body) ++ (g ++ 0 :: tail)) (root ++ body).length = some ((root ++ joined p) ++ 0 :: x1) := by
    intro a y hay hy hbody
    have hbefore : ((root ++ body) ++ (g1 ++ 0 :: tail))[(root ++ body).length - 1]? = some y := by
      rw [hay, List.length_append, List.length_singleton, Nat.add_sub_cancel, List.append_assoc]
      exact read_at a _ 0
    rw [endname, hput, Option.bind_eq_bind, Option.bind_some]
    by_cases h2 : 2 ≤ (root ++ body).length
    · simp only [if_pos h2, hbefore, Option.bind_eq_bind, Option.bind_some, if_neg (hy h2)]
      rw [hx1, hbody, hread, Option.bind_some, if_neg hc0]
    · simp only [if_neg h2, Option.bind_eq_bind, Option.bind_some]
      rw [hx1, hbody, hread, Option.bind_some, if_neg hc0]
  by_cases hnil : p.elements [Dot, Dot] = []
  · have hflat : flat (p.elements [Dot, Dot]) = [] := by rw [hnil]; rfl
    rw [hflat] at hbody
    have hbody' : body = [] := hbody.resolve_right (by simp)
    have hjoined := h.joined_eq_nil.mpr hnil
    refine ⟨g1, x1, hx1, by rw [hjoined, hbody', hg1], ?_⟩
    rw [hjoined, List.append_nil] at hc
    rcases List.eq_nil_or_concat' root with hroot | ⟨a, y, hroot⟩
    · rw [hroot] at hc
      cases hc
    · refine hkeep a y (by rw [hbody', List.append_nil, hroot]) (fun h2 hy => ?_) (hbody'.trans hjoined.symm)
      have ha := hlast hnil a (hy ▸ hroot)
      rw [hbody', hroot, ha] at h2
      simp at h2
  · obtain ⟨a, y, ha, hy⟩ := joined_last hnil fun x hx => ⟨(h.mem hx).1, (h.mem hx).2.1⟩
    change joined p = a ++ [y] at ha
    have hflat : flat (p.elements [Dot, Dot]) = joined p ++ [Slash] := flat_joined hnil
    rw [hflat] at hbody
    rcases hbody with hbody | hbody
    · obtain ⟨g2, x2, hg2, hx2, hput2⟩ := put_zero (root ++ joined p) ([Slash] ++ g1) tail
      refine ⟨g2, x2, hx2, ?_, ?_⟩
      · rw [hbody, hg2]
        simp only [List.length_append, List.length_singleton]
        omega
      · have hlen : (root ++ body).length = (root ++ joined p).length + 1 := by
          rw [hbody]
          simp only [List.length_append, List.length_singleton]
          omega
        have hbuf : (root ++ body) ++ (g1 ++ 0 :: tail) = (root ++ joined p) ++ (([Slash] ++ g1) ++ 0 :: tail) := by
          rw [hbody]
          simp only [List.append_assoc]
        have h2 : 2 ≤ (root ++ body).length := by
          rw [hlen, ha]
          simp only [List.length_append, List.length_singleton]
          omega
        have hbefore : ((root ++ joined p) ++ (([Slash] ++ g1) ++ 0 :: tail))[(root ++ body).length - 1]? =
            some Slash := by
          rw [hlen, Nat.add_sub_cancel]
          exact read_at _ _ 0
        rw [endname, hput, Option.bind_eq_bind, Option.bind_some, hbuf]
        simp only [if_pos h2, hbefore, Option.bind_eq_bind, Option.bind_some, if_true]
        rw [hlen, Nat.add_sub_cancel, hput2, Option.bind_some, hx2, hread, Option.bind_some, if_neg hc0]
    · have hbody' : body = joined p := List.append_cancel_right hbody
      exact ⟨g1, x1, hx1, by rw [hbody', hg1], hkeep (root ++ a) y (by rw [hbody', ha, List.append_assoc])
        (fun _ => hy) hbody'⟩

end Paths

section Normal

variable {rooted : Bool} {p : Place (List UInt8)} {s : List UInt8}

theorem flat_length (l : List (List UInt8)) : (flat l).length = (l.map fun x => x.length + 1).sum := by
  induction l with
  | nil => rfl
  | cons x l ih =>
    rw [show x :: l = [x] ++ l from rfl, flat_append, flat_singleton, List.length_append, ih]
    simp

theorem kind_up {x : List UInt8} (h : kind x = .up) : x = [Dot, Dot] := by
  unfold kind at h
  split at h
  · cases h
  · split at h
    · assumption
    · cases h

theorem Spelled.eq_start (h : Spelled rooted p) (hnil : p.elements [Dot, Dot] = []) : p = start := by
  have heval := eval_elements kind_dotdot h.proper
  rw [hnil, evalFrom_nil] at heval
  exact heval.symm

theorem Spelled.split (h : Spelled rooted p) (hne : p.elements [Dot, Dot] ≠ []) :
    (joined p).splitOn Slash = p.elements [Dot, Dot] :=
  List.splitOn_intercalate Slash (fun _ hx => (h.mem hx).2.1) hne

theorem joined_head {c : UInt8} {x : List UInt8} {l : List (List UInt8)} (hl : p.elements [Dot, Dot] = (c :: x) :: l) :
    (joined p).head? = some c := by
  rw [joined, hl]
  cases l with
  | nil => rw [List.intercalate_singleton]; rfl
  | cons y l => rw [List.intercalate_cons_cons]; rfl

theorem Spelled.head (h : Spelled rooted p) : (joined p).head? ≠ some Slash := by
  cases hl : p.elements [Dot, Dot] with
  | nil =>
    rw [h.joined_eq_nil.mpr hl]
    nofun
  | cons x l =>
    obtain ⟨hne, hslash, -⟩ := h.mem (x := x) (by rw [hl]; exact List.mem_cons_self)
    obtain ⟨c, x, rfl⟩ := List.exists_cons_of_ne_nil hne
    rw [joined_head hl]
    exact fun heq => hslash (Option.some.inj heq ▸ List.mem_cons_self)

theorem Spelled.rooted_normal (h : Spelled rooted p) : rootedname (normal rooted p) = rooted := by
  cases rooted with
  | true => rfl
  | false =>
    rw [normal, if_neg Bool.false_ne_true]
    split
    · rfl
    · exact decide_eq_false h.head

theorem Spelled.place_normal (h : Spelled rooted p) : place (normal rooted p) = p := by
  have heval := eval_elements kind_dotdot h.proper
  rw [place, h.rooted_normal]
  by_cases hnil : p.elements [Dot, Dot] = []
  · rw [h.eq_start hnil]
    cases rooted <;> rfl
  · cases rooted with
    | true =>
      rw [normal, if_pos rfl, split_slash, evalFrom_cons, enter_void kind_nil, h.split hnil]
      exact heval
    | false =>
      rw [normal, if_neg Bool.false_ne_true, if_neg (mt h.joined_eq_nil.mp hnil), h.split hnil]
      exact heval

theorem Spelled.elements_normal (h : Spelled rooted p) :
    normal rooted p = [Dot] ∧ p = start ∧ rooted = false ∨ elements (normal rooted p) = p.elements [Dot, Dot] := by
  have hroot := h.rooted_normal
  by_cases hnil : joined p = []
  · have hl := h.joined_eq_nil.mp hnil
    cases rooted with
    | true =>
      right
      rw [elements, hroot, normal, if_pos rfl, hl, hnil]
      rfl
    | false =>
      left
      rw [normal, if_neg Bool.false_ne_true, if_pos hnil]
      exact ⟨rfl, h.eq_start hl, rfl⟩
  · right
    have hl := mt h.joined_eq_nil.mpr hnil
    cases rooted with
    | true =>
      rw [elements, hroot, normal, if_pos rfl, if_pos rfl, List.tail_cons, if_neg hnil, h.split hl]
    | false =>
      rw [elements, hroot, normal, if_neg Bool.false_ne_true, if_neg Bool.false_ne_true, if_neg hnil,
        if_neg hnil, h.split hl]

theorem place_spelled (hs : 0 ∉ s) : Spelled (rootedname s) (place s) := eval_named _ hs

/-- A name that begins like a device's has no two dots. -/
theorem Spelled.device (h : Spelled rooted p) (hhead : (normal rooted p).head? = some 0x23) :
    ∀ x ∈ (normal rooted p).splitOn Slash, kind x = .name := by
  unfold normal at hhead ⊢
  split at hhead
  · exact absurd (Option.some.inj hhead) (by decide)
  · next hroot =>
    rw [if_neg hroot]
    split at hhead
    · exact absurd (Option.some.inj hhead) (by decide)
    · next hnil =>
      rw [if_neg hnil, h.split (mt h.joined_eq_nil.mpr hnil)]
      obtain ⟨u, names⟩ := p
      cases u with
      | zero => exact h.proper.names
      | succ u =>
        rw [joined_head (c := Dot) (x := [Dot]) (l := List.replicate u [Dot, Dot] ++ names) rfl] at hhead
        exact absurd (Option.some.inj hhead) (by decide)

/-- What is left of the name `s`. -/
structure Clean (s r : List UInt8) : Prop where
  rooted : rootedname r = rootedname s
  place : place r = place s
  present : r = [Dot] ∨ ∀ x ∈ elements r, x ≠ [] ∧ x ≠ [Dot]
  ups : (elements r).Pairwise fun x y => y = [Dot, Dot] → x = [Dot, Dot]
  top : rootedname r → [Dot, Dot] ∉ elements r
  dot : rootedname s = false → Petele.Libc.place s = start → r = [Dot]

theorem clean_normal (hs : 0 ∉ s) : Clean s (normal (rootedname s) (place s)) := by
  have h := place_spelled hs
  obtain ⟨hpresent, hups, htop⟩ := elements_normal kind_dotdot h.proper
  have hdot : rootedname s = false → place s = start → normal (rootedname s) (place s) = [Dot] := by
    intro hroot hplace
    rw [hroot, hplace]
    rfl
  rcases h.elements_normal with ⟨hr, -, hroot⟩ | hl
  · refine ⟨h.rooted_normal, h.place_normal, .inl hr, ?_, ?_, hdot⟩
    · rw [hr]
      exact List.pairwise_singleton _ _
    · rw [h.rooted_normal, hroot]
      nofun
  · refine ⟨h.rooted_normal, h.place_normal, .inr fun x hx => ?_, ?_, ?_, hdot⟩
    · rw [hl] at hx
      refine ⟨(h.mem hx).1, fun heq => hpresent x hx ?_⟩
      rw [heq]
      exact kind_dot
    · rw [hl]
      refine hups.imp_of_mem fun {x y} hx _ hxy hy => ?_
      by_contra hne
      have hkind : kind x = .name := kind_other (h.mem hx).1 (fun heq => hpresent x hx (heq ▸ kind_dot)) hne
      exact hxy hkind (hy ▸ kind_dotdot)
    · rw [h.rooted_normal, hl]
      exact fun hroot hmem => htop hroot _ hmem kind_dotdot

end Normal

section Whole

variable {s tail r x : List UInt8}

theorem cstr_eq (hr : 0 ∉ r) (x : List UInt8) : cstr (r ++ 0 :: x) 0 = r := by
  rw [cstr, List.drop_zero, List.takeWhile_append_of_pos fun c hc => by
    simpa using fun h : c = 0 => hr (h ▸ hc)]
  simp

theorem endname_dot {g : List UInt8} (hg : g ≠ []) (tail : List UInt8) :
    ∃ x, endname (g ++ 0 :: tail) 0 = some ([Dot] ++ 0 :: x) := by
  obtain ⟨y, g, rfl⟩ := List.exists_cons_of_ne_nil hg
  cases g with
  | nil => exact ⟨tail, rfl⟩
  | cons z g => exact ⟨g ++ 0 :: tail, by simp [endname, put, putdot]⟩

/-- A name that is not cleaned to itself becomes shorter. -/
theorem joined_shorter (hs : 0 ∉ s) (hne : joined (place s) ≠ []) :
    joined (place s) = s ∨ (joined (place s)).length < s.length := by
  have h := place_spelled hs
  have hl := mt h.joined_eq_nil.mpr hne
  have hflat : flat ((place s).elements [Dot, Dot]) = joined (place s) ++ [Slash] := flat_joined hl
  have hsplit : flat (s.splitOn Slash) = s ++ [Slash] := by
    rw [flat_joined (List.splitOn_ne_nil _ _), List.intercalate_splitOn]
  rcases @shorter _ kind (rootedname s) [Dot, Dot] (fun _ => kind_up) (fun x => x.length + 1)
    (fun _ => Nat.succ_pos _) start (s.splitOn Slash) with hsame | hlt
  · left
    change (place s).elements [Dot, Dot] = s.splitOn Slash at hsame
    rw [joined, hsame, List.intercalate_splitOn]
  · right
    rw [← flat_length, ← flat_length, ← flat_length, hsplit] at hlt
    change (flat ((place s).elements [Dot, Dot])).length < _ at hlt
    rw [hflat] at hlt
    simp only [start, Place.elements, flat, List.replicate_zero, List.append_nil, List.flatMap_nil, List.length_nil,
      List.length_append, List.length_singleton] at hlt
    omega

/-- The name of a place is left. Where this is a device's, another terminator stands behind its own. -/
theorem cleanname_list (tail : List UInt8) (hs : 0 ∉ s) (hdev : s.head? ≠ some 0x23) (hroom : s = [] → tail ≠ []) :
    ∃ x, cleanname (s ++ 0 :: tail) = some (normal (rootedname s) (place s) ++ 0 :: x) ∧
      ((normal (rootedname s) (place s)).head? = some 0x23 → 0 ∈ x) := by
  have h := place_spelled hs
  cases s with
  | nil =>
    obtain ⟨y, t, rfl⟩ := List.exists_cons_of_ne_nil (hroom rfl)
    exact ⟨t, rfl, fun hhead => absurd hhead (show ¬ [Dot].head? = some 0x23 by decide)⟩
  | cons c t =>
    have hfirst : (c :: t ++ 0 :: tail)[0]? = some c := rfl
    have hc0 : c ≠ 0 := fun h0 => hs (h0 ▸ List.mem_cons_self)
    have hdevice : c ≠ 0x23 := fun heq => hdev (congrArg some heq)
    by_cases hslash : c = Slash
    · subst hslash
      have hplace : place (Slash :: t) = evalFrom kind true start (t.splitOn Slash) := by
        rw [place, split_slash, evalFrom_cons, enter_void kind_nil]
        rfl
      obtain ⟨body, g, hg, hrun, hbody⟩ := path_run true [Slash] t tail (fun h => hs (List.mem_cons_of_mem _ h)) nofun
      rw [← hplace] at hbody
      obtain ⟨g', x, hx, -, hend⟩ := endname_list [Slash] body g tail h hbody (fun _ a ha => by
        cases a with
        | nil => rfl
        | cons y a => simp at ha) ⟨Slash, joined _, rfl, by decide⟩
      refine ⟨x, ?_, fun hhead => absurd (Option.some.inj hhead) (by decide)⟩
      rw [hend] at hrun
      simp only [cleanname, rootname, hfirst, Option.bind_eq_bind, Option.bind_some, if_neg hc0, if_neg hdevice, if_true]
      exact hrun
    · have hroot : rootedname (c :: t) = false := decide_eq_false fun h => hslash (Option.some.inj h)
      obtain ⟨body, g, hg, hrun, hbody⟩ := path_run false [] (c :: t) tail hs fun _ h => hslash (Option.some.inj h)
      have hplace : evalFrom kind false start ((c :: t).splitOn Slash) = place (c :: t) := by
        rw [place, hroot]
      rw [hplace] at hbody
      have hclean : cleanname (c :: t ++ 0 :: tail) =
          endname (([] ++ body) ++ (g ++ 0 :: tail)) ([] ++ body : List UInt8).length := by
        simp only [cleanname, rootname, hfirst, Option.bind_eq_bind, Option.bind_some, if_neg hc0, if_neg hdevice,
          if_neg hslash]
        exact hrun
      rw [hclean, hroot, normal, if_neg Bool.false_ne_true]
      by_cases hnil : joined (place (c :: t)) = []
      · have hflat : flat ((place (c :: t)).elements [Dot, Dot]) = [] := by
          rw [h.joined_eq_nil.mp hnil]
          rfl
        rw [hflat] at hbody
        have hbody' : body = [] := hbody.resolve_right (by simp)
        subst hbody'
        obtain ⟨x, hx⟩ := endname_dot (g := g) (by rintro rfl; simp at hg) tail
        refine ⟨x, ?_, ?_⟩
        · rw [if_pos hnil]
          exact hx
        · rw [if_pos hnil]
          exact fun hhead => absurd (Option.some.inj hhead) (by decide)
      · have hzero := h.joined_zero
        obtain ⟨g', x, hx, hlen, hend⟩ := endname_list [] body g tail h hbody
          (fun hl => absurd (h.joined_eq_nil.mpr hl) hnil) (by
            obtain ⟨d, r, hr⟩ := List.exists_cons_of_ne_nil hnil
            exact ⟨d, r, hr, fun h0 => hzero (hr ▸ h0 ▸ List.mem_cons_self)⟩)
        rw [if_neg hnil]
        refine ⟨x, hend, fun hhead => ?_⟩
        rcases joined_shorter hs hnil with heq | hlt
        · rw [heq] at hhead
          exact absurd hhead hdev
        · cases g' with
          | nil =>
            rw [List.nil_append] at hlen
            simp only [List.length_nil] at hlen hg
            omega
          | cons z g' =>
            rw [← (List.cons.inj hx).2]
            exact List.mem_append_right _ List.mem_cons_self

/-- A name of names that begins like a device's stays, if there is a terminator behind its own. -/
theorem cleanname_device (hr : 0 ∉ r) (hhead : r.head? = some 0x23) (hnames : ∀ e ∈ r.splitOn Slash, kind e = .name)
    (hx : 0 ∈ x) : ∃ x', cleanname (r ++ 0 :: x) = some (r ++ 0 :: x') := by
  obtain ⟨t, rfl⟩ := List.head?_eq_some_iff.mp hhead
  cases t with
  | nil => exact ⟨x, rfl⟩
  | cons y t =>
    obtain ⟨d0, hroot, -, -, hstop⟩ := @rootname_device t y x fun h => hr (List.mem_cons_of_mem _ h)
    have hfirst : (0x23 :: y :: t ++ 0 :: x)[0]? = some 0x23 := rfl
    have hzero : (0x23 : UInt8) ≠ 0 := by decide
    simp only [cleanname, hfirst, hroot, Option.bind_eq_bind, Option.bind_some, if_neg hzero]
    rcases hstop with hd0 | ⟨A, rest, hsplit, hA⟩
    · -- the path is taken to begin behind the terminator
      obtain ⟨u, v, rfl, hu⟩ := List.eq_append_cons_of_mem hx
      obtain ⟨body, g, -, hrun, hbody⟩ := path_run true (0x23 :: y :: t ++ [0]) u v hu (by intros; contradiction)
      obtain ⟨g', x', -, -, hlast⟩ := endname_list (0x23 :: y :: t ++ [0]) body g v (eval_named true hu) hbody
        (fun _ a ha => by
          have h0 := congrArg List.getLast? ha
          rw [List.getLast?_concat, List.getLast?_concat] at h0
          exact absurd (Option.some.inj h0) (by decide)) ⟨0x23, _, rfl, hzero⟩
      rw [hlast] at hrun
      have hlen : (0x23 :: y :: t ++ [0]).length = d0 + 1 := by simp [hd0]
      have hbuf : 0x23 :: y :: t ++ [0] ++ (u ++ 0 :: v) = 0x23 :: y :: t ++ 0 :: (u ++ 0 :: v) := by simp
      rw [hlen, hbuf] at hrun
      refine ⟨joined (evalFrom kind true start (u.splitOn Slash)) ++ 0 :: x', hrun.trans ?_⟩
      simp
    · rw [hsplit] at hr hnames
      have hrest : 0 ∉ rest := fun h => hr (List.mem_append_right _ (List.mem_cons_of_mem _ h))
      have hnames' : ∀ e ∈ rest.splitOn Slash, kind e = .name := fun e he => hnames e (by
        rw [List.splitOn_append_cons_self]
        exact List.mem_append_right _ he)
      have heval : evalFrom kind true start (rest.splitOn Slash) = ⟨0, rest.splitOn Slash⟩ := eval_names hnames'
      have hjoined : joined ⟨0, rest.splitOn Slash⟩ = rest := by
        rw [joined, Place.elements, List.replicate_zero, List.nil_append, List.intercalate_splitOn]
      obtain ⟨body, g, -, hrun, hbody⟩ := path_run true (A ++ [Slash]) rest x hrest (by intros; contradiction)
      have hspelled := eval_named true hrest
      rw [heval] at hbody hspelled
      obtain ⟨c, a, hca⟩ := List.exists_cons_of_ne_nil (show A ≠ [] from fun h => by
        rw [h] at hsplit
        exact absurd (List.cons.inj hsplit).1 (by decide))
      obtain ⟨g', x', hx', -, hlast⟩ := endname_list (A ++ [Slash]) body g x hspelled hbody
        (fun hl => by
          rw [Place.elements, List.replicate_zero, List.nil_append] at hl
          exact absurd hl (List.splitOn_ne_nil _ _))
        ⟨c, a ++ [Slash] ++ joined _, by rw [hca]; rfl, fun h => hr (by rw [hca, h]; exact List.mem_cons_self)⟩
      rw [hlast, hjoined] at hrun
      have hlen : (A ++ [Slash]).length = d0 + 1 := by rw [List.length_append, List.length_singleton, hA]
      have hbuf : ∀ z, A ++ [Slash] ++ (rest ++ z) = 0x23 :: y :: t ++ z := fun z => by
        rw [hsplit]
        simp
      rw [hlen, hbuf] at hrun
      refine ⟨x', hrun.trans ?_⟩
      rw [List.append_assoc (A ++ [Slash]), hbuf]

/-- `cleanname` leaves the lexical normal form of a name that is not a device's, and leaves it once more. The
second time it may find the name of a device, without a slash behind it, and goes on behind its terminator. -/
theorem cleanname_normal (s tail : List UInt8) (hs : 0 ∉ s) (hdev : s.head? ≠ some 0x23) (hroom : s = [] → tail ≠ []) :
    ∃ b, cleanname (s ++ 0 :: tail) = some b ∧ Clean s (cstr b 0) ∧
      ∃ b', cleanname b = some b' ∧ cstr b' 0 = cstr b 0 := by
  have h := place_spelled hs
  have hclean := clean_normal hs
  obtain ⟨x, hrun, hx⟩ := cleanname_list tail hs hdev hroom
  have hzero : 0 ∉ normal (rootedname s) (place s) := by
    unfold normal
    split
    · exact fun hmem => (List.mem_cons.mp hmem).elim (by decide) h.joined_zero
    · split
      · decide
      · exact h.joined_zero
  have hne : normal (rootedname s) (place s) ≠ [] := by
    unfold normal
    split
    · nofun
    · split
      · nofun
      · assumption
  refine ⟨_, hrun, by rwa [cstr_eq hzero], ?_⟩
  by_cases hhead : (normal (rootedname s) (place s)).head? = some 0x23
  · obtain ⟨x', hrun'⟩ := cleanname_device hzero hhead (h.device hhead) (hx hhead)
    exact ⟨_, hrun', by rw [cstr_eq hzero, cstr_eq hzero]⟩
  · obtain ⟨x', hrun', -⟩ := cleanname_list x hzero hhead fun hnil => absurd hnil hne
    rw [h.rooted_normal, h.place_normal] at hrun'
    exact ⟨_, hrun', by rw [cstr_eq hzero, cstr_eq hzero]⟩

/-- The name `a/../#b`. -/
theorem cleanname_normal_back : ∃ b, cleanname ([0x61, Slash, Dot, Dot, Slash, 0x23, 0x62] ++ [0]) = some b ∧
    Clean [0x61, Slash, Dot, Dot, Slash, 0x23, 0x62] (cstr b 0) ∧ ∃ b', cleanname b = some b' ∧ cstr b' 0 = cstr b 0 :=
  cleanname_normal [0x61, Slash, Dot, Dot, Slash, 0x23, 0x62] [] (by decide) (by decide) (by decide)

example : cleanname ([0x61, Slash, Dot, Dot, Slash, 0x23, 0x62] ++ [0]) = some [0x23, 0x62, 0, Dot, Slash, 0x23, 0x62, 0] :=
  rfl

end Whole

end Petele.Libc
