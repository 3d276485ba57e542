import Petele.Git.Paint

namespace Petele.Git

open Lib Relation

variable {repo : Repo}

/-- The commit `p` is a parent of the commit `x`. -/
def Parent (repo : Repo) (x p : Hash) : Prop :=
  ∃ c c', repo x = some (.commit c) ∧ p ∈ c.parent ∧ repo p = some (.commit c')

def ctime (repo : Repo) (x : Hash) : ℤ :=
  match repo x with
  | some (.commit c) => c.ctime
  | _ => 0

theorem ctime_commit {x : Hash} {c : Cinfo} (h : repo x = some (.commit c)) :
    ctime repo x = c.ctime := by
  rw [ctime, h]

/-- A finite graph of commits. The null hash names no object. -/
structure Dag (repo : Repo) : Prop where
  finite : {x | repo x ≠ none}.Finite
  closed : ∀ {x c}, repo x = some (.commit c) → ∀ p ∈ c.parent, repo p ≠ none
  acyclic : ∀ x, ¬ TransGen (Parent repo) x x
  null : repo Zhash = none

/-- The queue has gained the commits of the list, in the colour. -/
def Gains (repo : Repo) (color : Color) (l : List Hash) (q q' : Objq) : Prop :=
  (∀ e, e ∈ q'.toList ↔ e ∈ q.toList ∨
    ∃ h ∈ l, ∃ c, repo h = some (.commit c) ∧ e = ⟨h, c.ctime, color⟩) ∧
  (Heap.Ordered Qelt.ctime q → Heap.Ordered Qelt.ctime q')

theorem gains_nil (color : Color) (q : Objq) : Gains repo color [] q q :=
  ⟨by simp, id⟩

theorem Gains.skip {color : Color} {l : List Hash} {q q' : Objq} (h : Gains repo color l q q')
    {x : Hash} (hx : ∀ c, repo x ≠ some (.commit c)) : Gains repo color (x :: l) q q' := by
  refine ⟨fun e => ?_, h.2⟩
  rw [h.1]
  constructor
  · rintro (he | ⟨y, hy, hc⟩)
    · exact .inl he
    · exact .inr ⟨y, List.mem_cons_of_mem _ hy, hc⟩
  · rintro (he | ⟨y, hy, c, hc, heq⟩)
    · exact .inl he
    · rcases List.mem_cons.mp hy with rfl | hy
      · exact absurd hc (hx c)
      · exact .inr ⟨y, hy, c, hc, heq⟩

theorem Gains.put {color : Color} {l : List Hash} {q q' : Objq} {x : Hash} {c : Cinfo}
    (h : Gains repo color l (qput q x c color) q') (hx : repo x = some (.commit c)) :
    Gains repo color (x :: l) q q' := by
  refine ⟨fun e => ?_, fun ho => h.2 (Heap.put_ordered ho _)⟩
  rw [h.1, qput, (Heap.put_perm q _).mem_iff, List.mem_cons]
  constructor
  · rintro ((rfl | he) | ⟨y, hy, hc⟩)
    · exact .inr ⟨x, List.mem_cons_self, c, hx, rfl⟩
    · exact .inl he
    · exact .inr ⟨y, List.mem_cons_of_mem _ hy, hc⟩
  · rintro (he | ⟨y, hy, c', hc, heq⟩)
    · exact .inl (.inr he)
    · rcases List.mem_cons.mp hy with rfl | hy
      · rw [hx] at hc
        cases hc
        exact .inl (.inl heq)
      · exact .inr ⟨y, hy, c', hc, heq⟩

theorem spread_gains (color : Color) (ps : List Hash) (q : Objq) (h : ∀ p ∈ ps, repo p ≠ none) :
    ∃ q', spread repo color ps q = .ok q' ∧ Gains repo color ps q q' := by
  induction ps generalizing q with
  | nil => exact ⟨q, rfl, gains_nil color q⟩
  | cons p ps ih =>
    have hps : ∀ p ∈ ps, repo p ≠ none := fun p hp => h p (List.mem_cons_of_mem _ hp)
    cases hp : repo p with
    | none => exact absurd hp (h p List.mem_cons_self)
    | some o =>
      cases o with
      | other =>
        obtain ⟨q', hspread, hgains⟩ := ih q hps
        refine ⟨q', by rw [spread, hp]; exact hspread, hgains.skip fun c hc => ?_⟩
        rw [hp] at hc
        cases hc
      | commit c =>
        obtain ⟨q', hspread, hgains⟩ := ih (qput q p c color) hps
        exact ⟨q', by rw [spread, hp]; exact hspread, hgains.put hp⟩

/-- The set of the commits that have a colour. -/
def Painting.set (s : Painting) : Color → Objset
  | .Keep => s.keep
  | .Drop => s.drop
  | .Skip => s.skip

/-- The commit has both colours once it gets this one. -/
def Painting.Other (s : Painting) (e : Qelt) : Prop :=
  e.color = .Keep ∧ e.o ∈ s.drop ∨ e.color = .Drop ∧ e.o ∈ s.keep

/-- What a turn does that does not drop the entry `e`: the commit gets the colour, its parents are
queued in the colour `color`, and it goes to the range if that is asked for. -/
structure Paints (repo : Repo) (mode : Mode) (s : Painting) (e : Qelt) (color : Color)
    (s' : Painting) : Prop where
  unskipped : ¬ e.o ∈ s.skip
  fresh : ¬ e.o ∈ s.set e.color
  ok : ∀ c, (s'.set c).Ok
  set : ∀ c x, x ∈ s'.set c ↔ x ∈ s.set c ∨ (c = e.color ∧ x = e.o)
  queue : ∃ c, repo e.o = some (.commit c) ∧ Gains repo color c.parent s.objq s'.objq
  same : ¬ s.Other e → color = e.color
  both : s.Other e → color = .Skip
  range : (mode = .Range ∧ e.color = .Keep ∧ ¬ e.o ∈ s.drop → s'.range = s.range ++ [e.o]) ∧
    (¬ (mode = .Range ∧ e.color = .Keep ∧ ¬ e.o ∈ s.drop) → s'.range = s.range)

theorem enqueue_gains (hd : Dag repo) (s : Painting) {o : Hash} {c : Cinfo}
    (ho : repo o = some (.commit c)) (color : Color) :
    ∃ q, enqueue repo s o color = .ok { s with objq := q } ∧
      Gains repo color c.parent s.objq q := by
  obtain ⟨q, hspread, hgains⟩ := spread_gains color c.parent s.objq (hd.closed ho)
  exact ⟨q, by rw [enqueue, ho]; simp only [hspread, Except.map], hgains⟩

theorem turn_keep (hd : Dag repo) (mode : Mode) {s : Painting} (hok : ∀ c, (s.set c).Ok) {e : Qelt}
    {c : Cinfo} (hc : repo e.o = some (.commit c)) (hs : ¬ e.o ∈ s.skip) (hk : ¬ e.o ∈ s.keep)
    (hcolor : e.color = .Keep) :
    ∃ s' color, turn repo mode s e = .ok s' ∧ Paints repo mode s e color s' := by
  have hskip : oshas s.skip e.o = .ok false := oshas_false (hok .Skip) hs
  have hkeep : oshas s.keep e.o = .ok false := oshas_false (hok .Keep) hk
  obtain ⟨keep, hadd, hkok, hmem⟩ := osadd_ok (hok .Keep) e.o
  have hadd : osadd s.keep e.o = .ok keep := hadd
  -- Which colour goes on, and whether the range grows, depends on the drop set and the mode.
  have hpaint : ∀ (color : Color) (r : List Hash) (q : Objq),
      Gains repo color c.parent s.objq q → (¬ s.Other e → color = e.color) →
      (s.Other e → color = .Skip) →
      ((mode = .Range ∧ e.color = .Keep ∧ ¬ e.o ∈ s.drop → r = s.range ++ [e.o]) ∧
        (¬ (mode = .Range ∧ e.color = .Keep ∧ ¬ e.o ∈ s.drop) → r = s.range)) →
      Paints repo mode s e color ⟨q, keep, s.drop, s.skip, r⟩ := by
    intro color r q hgains hsame hboth hrange
    refine ⟨hs, by rw [hcolor]; exact hk, ?_, ?_, ⟨c, hc, hgains⟩, hsame, hboth, hrange⟩
    · intro col
      cases col with
      | Keep => exact hkok
      | Drop => exact hok .Drop
      | Skip => exact hok .Skip
    · intro col x
      rw [hcolor]
      cases col with
      | Keep =>
        refine (hmem x).trans ?_
        simp only [Painting.set, true_and]
        exact or_comm
      | Drop => simp [Painting.set]
      | Skip => simp [Painting.set]
  by_cases hdr : e.o ∈ s.drop
  · have hother : s.Other e := .inl ⟨hcolor, hdr⟩
    obtain ⟨q, henq, hgains⟩ := enqueue_gains hd { s with keep := keep } hc .Skip
    refine ⟨_, .Skip, ?_, hpaint .Skip s.range q hgains (fun hn => absurd hother hn)
      (fun _ => rfl) ⟨fun h => absurd hdr h.2.2, fun _ => rfl⟩⟩
    have hdrop : oshas s.drop e.o = .ok true := oshas_true (hok .Drop) hdr
    rw [turn]
    simp only [hskip, hkeep, hdrop, hcolor, Except.bind, Bool.false_eq_true, if_false, if_true, hadd,
      henq]
  · have hdrop : oshas s.drop e.o = .ok false := oshas_false (hok .Drop) hdr
    have hother : ¬ s.Other e := by
      rintro (⟨-, h⟩ | ⟨h, -⟩)
      · exact hdr h
      · rw [hcolor] at h
        cases h
    by_cases hmode : mode = .Range
    · obtain ⟨q, henq, hgains⟩ :=
        enqueue_gains hd { s with keep := keep, range := s.range ++ [e.o] } hc .Keep
      refine ⟨_, .Keep, ?_, hpaint .Keep (s.range ++ [e.o]) q hgains (fun _ => hcolor.symm)
        (fun h => absurd h hother) ⟨fun _ => rfl, fun h => absurd ⟨hmode, hcolor, hdr⟩ h⟩⟩
      rw [turn]
      simp only [hskip, hkeep, hdrop, hcolor, Except.bind, Bool.false_eq_true, if_false, hadd,
        if_pos hmode, henq]
    · obtain ⟨q, henq, hgains⟩ := enqueue_gains hd { s with keep := keep } hc .Keep
      refine ⟨_, .Keep, ?_, hpaint .Keep s.range q hgains (fun _ => hcolor.symm)
        (fun h => absurd h hother) ⟨fun h => absurd h.1 hmode, fun _ => rfl⟩⟩
      rw [turn]
      simp only [hskip, hkeep, hdrop, hcolor, Except.bind, Bool.false_eq_true, if_false, hadd,
        if_neg hmode, henq]

theorem turn_drop (hd : Dag repo) (mode : Mode) {s : Painting} (hok : ∀ c, (s.set c).Ok) {e : Qelt}
    {c : Cinfo} (hc : repo e.o = some (.commit c)) (hs : ¬ e.o ∈ s.skip) (hdr : ¬ e.o ∈ s.drop)
    (hcolor : e.color = .Drop) :
    ∃ s' color, turn repo mode s e = .ok s' ∧ Paints repo mode s e color s' := by
  have hskip : oshas s.skip e.o = .ok false := oshas_false (hok .Skip) hs
  have hdrop : oshas s.drop e.o = .ok false := oshas_false (hok .Drop) hdr
  obtain ⟨drop, hadd, hdok, hmem⟩ := osadd_ok (hok .Drop) e.o
  have hadd : osadd s.drop e.o = .ok drop := hadd
  have hpaint : ∀ (color : Color) (q : Objq), Gains repo color c.parent s.objq q →
      (¬ s.Other e → color = e.color) → (s.Other e → color = .Skip) →
      Paints repo mode s e color ⟨q, s.keep, drop, s.skip, s.range⟩ := by
    intro color q hgains hsame hboth
    refine ⟨hs, by rw [hcolor]; exact hdr, ?_, ?_, ⟨c, hc, hgains⟩, hsame, hboth, ?_, fun _ => rfl⟩
    · intro col
      cases col with
      | Keep => exact hok .Keep
      | Drop => exact hdok
      | Skip => exact hok .Skip
    · intro col x
      rw [hcolor]
      cases col with
      | Keep => simp [Painting.set]
      | Drop =>
        refine (hmem x).trans ?_
        simp only [Painting.set, true_and]
        exact or_comm
      | Skip => simp [Painting.set]
    · exact fun h => absurd (hcolor.symm.trans h.2.1) (by simp)
  by_cases hk : e.o ∈ s.keep
  · have hkeep : oshas s.keep e.o = .ok true := oshas_true (hok .Keep) hk
    have hother : s.Other e := .inr ⟨hcolor, hk⟩
    obtain ⟨q, henq, hgains⟩ := enqueue_gains hd { s with drop := drop } hc .Skip
    refine ⟨_, .Skip, ?_, hpaint .Skip q hgains (fun hn => absurd hother hn) (fun _ => rfl)⟩
    rw [turn]
    simp only [hskip, hdrop, hkeep, hcolor, Except.bind, Bool.false_eq_true, if_false, if_true, hadd,
      henq]
  · have hkeep : oshas s.keep e.o = .ok false := oshas_false (hok .Keep) hk
    have hother : ¬ s.Other e := by
      rintro (⟨h, -⟩ | ⟨-, h⟩)
      · rw [hcolor] at h
        cases h
      · exact hk h
    obtain ⟨q, henq, hgains⟩ := enqueue_gains hd { s with drop := drop } hc .Drop
    refine ⟨_, .Drop, ?_, hpaint .Drop q hgains (fun _ => hcolor.symm) (fun h => absurd h hother)⟩
    rw [turn]
    simp only [hskip, hdrop, hkeep, hcolor, Except.bind, Bool.false_eq_true, if_false, hadd, henq]

theorem turn_skip (hd : Dag repo) (mode : Mode) {s : Painting} (hok : ∀ c, (s.set c).Ok) {e : Qelt}
    {c : Cinfo} (hc : repo e.o = some (.commit c)) (hs : ¬ e.o ∈ s.skip) (hcolor : e.color = .Skip) :
    ∃ s' color, turn repo mode s e = .ok s' ∧ Paints repo mode s e color s' := by
  have hskip : oshas s.skip e.o = .ok false := oshas_false (hok .Skip) hs
  obtain ⟨skip, hadd, hsok, hmem⟩ := osadd_ok (hok .Skip) e.o
  have hadd : osadd s.skip e.o = .ok skip := hadd
  obtain ⟨q, henq, hgains⟩ := enqueue_gains hd { s with skip := skip } hc .Skip
  refine ⟨⟨q, s.keep, s.drop, skip, s.range⟩, .Skip, ?_, ⟨hs, by rw [hcolor]; exact hs, ?_, ?_,
    ⟨c, hc, hgains⟩, fun _ => hcolor.symm, fun _ => rfl, ?_⟩⟩
  · rw [turn]
    simp only [hskip, hcolor, Except.bind, Bool.false_eq_true, if_false, hadd]
    exact henq
  · intro col
    cases col with
    | Keep => exact hok .Keep
    | Drop => exact hok .Drop
    | Skip => exact hsok
  · intro col x
    rw [hcolor]
    cases col with
    | Keep => simp [Painting.set]
    | Drop => simp [Painting.set]
    | Skip =>
      refine (hmem x).trans ?_
      simp only [Painting.set, true_and]
      exact or_comm
  · exact ⟨fun h => absurd (hcolor.symm.trans h.2.1) (by simp), fun _ => rfl⟩

theorem turn_spec (hd : Dag repo) (mode : Mode) {s : Painting} (hok : ∀ c, (s.set c).Ok)
    {e : Qelt} (he : ∃ c, repo e.o = some (.commit c)) :
    ∃ s', turn repo mode s e = .ok s' ∧
      (s' = s ∧ (e.o ∈ s.skip ∨ e.o ∈ s.set e.color) ∨ ∃ color, Paints repo mode s e color s') := by
  obtain ⟨c, hc⟩ := he
  by_cases hs : e.o ∈ s.skip
  · have hskip : oshas s.skip e.o = .ok true := oshas_true (hok .Skip) hs
    refine ⟨s, ?_, .inl ⟨rfl, .inl hs⟩⟩
    rw [turn, hskip]
    rfl
  · have hskip : oshas s.skip e.o = .ok false := oshas_false (hok .Skip) hs
    cases hcolor : e.color with
    | Keep =>
      by_cases hk : e.o ∈ s.keep
      · refine ⟨s, ?_, .inl ⟨rfl, .inr hk⟩⟩
        have hkeep : oshas s.keep e.o = .ok true := oshas_true (hok .Keep) hk
        rw [turn, hskip]
        simp [Except.bind, hcolor, hkeep]
      · obtain ⟨s', color, hturn, hpaints⟩ := turn_keep hd mode hok hc hs hk hcolor
        exact ⟨s', hturn, .inr ⟨color, hpaints⟩⟩
    | Drop =>
      by_cases hdr : e.o ∈ s.drop
      · refine ⟨s, ?_, .inl ⟨rfl, .inr hdr⟩⟩
        have hdrop : oshas s.drop e.o = .ok true := oshas_true (hok .Drop) hdr
        rw [turn, hskip]
        simp [Except.bind, hcolor, hdrop]
      · obtain ⟨s', color, hturn, hpaints⟩ := turn_drop hd mode hok hc hs hdr hcolor
        exact ⟨s', hturn, .inr ⟨color, hpaints⟩⟩
    | Skip =>
      obtain ⟨s', color, hturn, hpaints⟩ := turn_skip hd mode hok hc hs hcolor
      exact ⟨s', hturn, .inr ⟨color, hpaints⟩⟩

/-- What a colour says of a commit. -/
def Means (repo : Repo) (H T : Hash → Prop) : Color → Hash → Prop
  | .Keep, x => From (Parent repo) H x
  | .Drop, x => From (Parent repo) T x
  | .Skip, x => ∃ y, From (Parent repo) H y ∧ From (Parent repo) T y ∧ TransGen (Parent repo) y x

/-- The commit has the colour or will get it, unless it is skipped. -/
def Due (s : Painting) (c : Color) (x : Hash) : Prop :=
  x ∈ s.set c ∨ x ∈ s.skip ∨ ∃ e ∈ s.objq.toList, e.o = x ∧ e.color = c

structure PaintInv (repo : Repo) (H T : Hash → Prop) (s : Painting) : Prop where
  ok : ∀ c, (s.set c).Ok
  queued : ∀ {e}, e ∈ s.objq.toList → ∃ c, repo e.o = some (.commit c) ∧ e.ctime = c.ctime
  means : ∀ {c x}, x ∈ s.set c → Means repo H T c x
  willmean : ∀ {e}, e ∈ s.objq.toList → Means repo H T e.color e.o
  head : ∀ {x}, H x → Due s .Keep x
  tail : ∀ {x}, T x → Due s .Drop x
  spread : ∀ {c x p}, x ∈ s.set c → Parent repo x p → Due s c p ∨ Due s .Skip p
  both : ∀ {x p}, x ∈ s.keep → x ∈ s.drop → Parent repo x p → Due s .Skip p

section

variable {H T : Hash → Prop} {s s' : Painting} {e : Qelt} {q : Objq} {mode : Mode} {color : Color}

theorem Means.step {c : Color} {x p : Hash} (h : Means repo H T c x) (hp : Parent repo x p) :
    Means repo H T c p := by
  cases c with
  | Keep => exact From.step h hp
  | Drop => exact From.step h hp
  | Skip =>
    obtain ⟨y, hH, hT, hyx⟩ := h
    exact ⟨y, hH, hT, hyx.tail hp⟩

theorem mem_pop (hpop : qpop s.objq = some (e, q)) (d : Qelt) :
    d ∈ s.objq.toList ↔ d = e ∨ d ∈ q.toList := by
  rw [(Heap.take_perm hpop).mem_iff, List.mem_cons]

/-- The entries a painted commit leaves in the queue for its parents. -/
theorem Paints.mem_queue (h : Paints repo mode s e color s') (d : Qelt) :
    d ∈ s'.objq.toList ↔ d ∈ s.objq.toList ∨
      (d.color = color ∧ Parent repo e.o d.o ∧ d.ctime = ctime repo d.o) := by
  obtain ⟨c, hc, hgains⟩ := h.queue
  rw [hgains.1]
  refine or_congr Iff.rfl ⟨?_, ?_⟩
  · rintro ⟨p, hp, c', hc', rfl⟩
    exact ⟨rfl, ⟨c, c', hc, hp, hc'⟩, (ctime_commit hc').symm⟩
  · rintro ⟨hcol, ⟨c₁, c', hc₁, hp, hc'⟩, htime⟩
    rw [hc] at hc₁
    cases hc₁
    rw [ctime_commit hc'] at htime
    exact ⟨d.o, hp, c', hc', by rw [← hcol, ← htime]⟩

/-- What is due stays due. -/
theorem due_turn (hpop : qpop s.objq = some (e, q))
    (hturn : s' = { s with objq := q } ∧ (e.o ∈ s.skip ∨ e.o ∈ s.set e.color) ∨
      Paints repo mode { s with objq := q } e color s') {c : Color} {x : Hash} (h : Due s c x) :
    Due s' c x := by
  rcases hturn with ⟨rfl, hhas⟩ | hpaints
  · rcases h with hset | hskip | ⟨d, hd, rfl, rfl⟩
    · exact .inl hset
    · exact .inr (.inl hskip)
    · rcases (mem_pop hpop d).mp hd with rfl | hd
      · rcases hhas with hskip | hset
        · exact .inr (.inl hskip)
        · exact .inl hset
      · exact .inr (.inr ⟨d, hd, rfl, rfl⟩)
  · rcases h with hset | hskip | ⟨d, hd, rfl, rfl⟩
    · exact .inl ((hpaints.set c x).mpr (.inl hset))
    · exact .inr (.inl ((hpaints.set .Skip x).mpr (.inl hskip)))
    · rcases (mem_pop hpop d).mp hd with rfl | hd
      · exact .inl ((hpaints.set _ _).mpr (.inr ⟨rfl, rfl⟩))
      · exact .inr (.inr ⟨d, (hpaints.mem_queue d).mpr (.inl hd), rfl, rfl⟩)

theorem PaintInv.turn (h : PaintInv repo H T s) (hpop : qpop s.objq = some (e, q))
    (hturn : s' = { s with objq := q } ∧ (e.o ∈ s.skip ∨ e.o ∈ s.set e.color) ∨
      Paints repo mode { s with objq := q } e color s') : PaintInv repo H T s' := by
  have hdue : ∀ {c x}, Due s c x → Due s' c x := fun hx => due_turn hpop hturn hx
  have hq : ∀ {d}, d ∈ q.toList → d ∈ s.objq.toList := fun hd => (mem_pop hpop _).mpr (.inr hd)
  have he : e ∈ s.objq.toList := (mem_pop hpop e).mpr (.inl rfl)
  rcases hturn with ⟨rfl, -⟩ | hpaints
  · exact ⟨h.ok, fun hd => h.queued (hq hd), h.means, fun hd => h.willmean (hq hd),
      fun hx => hdue (h.head hx), fun hx => hdue (h.tail hx),
      fun hx hp => (h.spread hx hp).imp hdue hdue, fun hk hd hp => hdue (h.both hk hd hp)⟩
  · -- The parents of the painted commit are queued in the colour `color`.
    have hparent : ∀ {p}, Parent repo e.o p → Due s' color p := by
      intro p hp
      refine .inr (.inr ⟨⟨p, ctime repo p, color⟩, ?_, rfl, rfl⟩)
      exact (hpaints.mem_queue _).mpr (.inr ⟨rfl, hp, rfl⟩)
    have hmeans : Means repo H T e.color e.o := h.willmean he
    refine ⟨hpaints.ok, ?_, ?_, ?_, fun hx => hdue (h.head hx), fun hx => hdue (h.tail hx), ?_, ?_⟩
    · intro d hd
      rcases (hpaints.mem_queue d).mp hd with hd | ⟨-, ⟨c, c', -, -, hc'⟩, htime⟩
      · exact h.queued (hq hd)
      · rw [ctime_commit hc'] at htime
        exact ⟨c', hc', htime⟩
    · intro c x hx
      rcases (hpaints.set c x).mp hx with hx | ⟨rfl, rfl⟩
      · exact h.means hx
      · exact hmeans
    · intro d hd
      rcases (hpaints.mem_queue d).mp hd with hd | ⟨hcol, hp, -⟩
      · exact h.willmean (hq hd)
      · rw [hcol]
        by_cases hother : Painting.Other { s with objq := q } e
        · rw [hpaints.both hother]
          rcases hother with ⟨hcolor, hset⟩ | ⟨hcolor, hset⟩
          · rw [hcolor] at hmeans
            exact ⟨e.o, hmeans, h.means (c := .Drop) hset, .single hp⟩
          · rw [hcolor] at hmeans
            exact ⟨e.o, h.means (c := .Keep) hset, hmeans, .single hp⟩
        · rw [hpaints.same hother]
          exact hmeans.step hp
    · intro c x p hx hp
      rcases (hpaints.set c x).mp hx with hx | ⟨rfl, rfl⟩
      · exact (h.spread hx hp).imp hdue hdue
      · by_cases hother : Painting.Other { s with objq := q } e
        · rw [← hpaints.both hother]
          exact .inr (hparent hp)
        · rw [← hpaints.same hother]
          exact .inl (hparent hp)
    · intro x p hk hd hp
      rcases (hpaints.set .Keep x).mp hk with hk | ⟨hcolor, rfl⟩
      · rcases (hpaints.set .Drop x).mp hd with hd | ⟨hcolor, rfl⟩
        · exact hdue (h.both hk hd hp)
        · rw [← hpaints.both (.inr ⟨hcolor.symm, hk⟩)]
          exact hparent hp
      · rcases (hpaints.set .Drop e.o).mp hd with hd | ⟨hcolor', -⟩
        · rw [← hpaints.both (.inl ⟨hcolor.symm, hd⟩)]
          exact hparent hp
        · rw [← hcolor] at hcolor'
          cases hcolor'

/-- When the queue is empty the colours are settled. -/
theorem PaintInv.settled (h : PaintInv repo H T s) (hempty : s.objq.toList = []) :
    Settled (Parent repo) H T (· ∈ s.keep) (· ∈ s.drop) (· ∈ s.skip) := by
  have hdue : ∀ {c x}, Due s c x → x ∈ s.set c ∨ x ∈ s.skip := by
    rintro c x (hset | hskip | ⟨d, hd, -⟩)
    · exact .inl hset
    · exact .inr hskip
    · rw [hempty] at hd
      cases hd
  have hskip : ∀ {x}, Due s .Skip x → x ∈ s.skip := fun hx => (hdue hx).elim id id
  exact
    { keep_from := fun hx => h.means (c := .Keep) hx
      drop_from := fun hx => h.means (c := .Drop) hx
      skip_from := fun hx => h.means (c := .Skip) hx
      head := fun hx => hdue (h.head hx)
      tail := fun hx => hdue (h.tail hx)
      keep := fun hx hp => (h.spread (c := .Keep) hx hp).elim hdue fun hp => .inr (hskip hp)
      drop := fun hx hp => (h.spread (c := .Drop) hx hp).elim hdue fun hp => .inr (hskip hp)
      both := fun hk hd hp => hskip (h.both hk hd hp)
      skip := fun hx hp => (h.spread (c := .Skip) hx hp).elim hskip hskip }

/-- What holds of the range while it is collected: it has the kept commits that were not dropped
when they came, each once, and the youngest of them come first. -/
structure RangeInv (repo : Repo) (mode : Mode) (s : Painting) : Prop where
  ordered : Heap.Ordered Qelt.ctime s.objq
  nodup : s.range.Nodup
  kept : ∀ {x}, x ∈ s.range → x ∈ s.keep
  mem : mode = .Range → ∀ {x}, x ∈ s.keep → x ∈ s.range ∨ x ∈ s.drop
  sorted : (∀ x p, Parent repo x p → ctime repo p < ctime repo x) →
    s.range.Pairwise (fun x y => ctime repo y ≤ ctime repo x) ∧
    ∀ d ∈ s.objq.toList, ∀ x ∈ s.range, ctime repo d.o ≤ ctime repo x

theorem RangeInv.turn (h : RangeInv repo mode s) (hinv : PaintInv repo H T s)
    (hpop : qpop s.objq = some (e, q))
    (hturn : s' = { s with objq := q } ∧ (e.o ∈ s.skip ∨ e.o ∈ s.set e.color) ∨
      Paints repo mode { s with objq := q } e color s') : RangeInv repo mode s' := by
  have hordered : Heap.Ordered Qelt.ctime q := Heap.take_ordered hpop h.ordered
  have hq : ∀ {d}, d ∈ q.toList → d ∈ s.objq.toList := fun hd => (mem_pop hpop _).mpr (.inr hd)
  have he : e ∈ s.objq.toList := (mem_pop hpop e).mpr (.inl rfl)
  have htime : ∀ {d}, d ∈ s.objq.toList → d.ctime = ctime repo d.o := by
    intro d hd
    obtain ⟨c, hc, ht⟩ := hinv.queued hd
    rw [ctime_commit hc, ht]
  rcases hturn with ⟨rfl, -⟩ | hpaints
  · exact ⟨hordered, h.nodup, h.kept, h.mem,
      fun hmono => ⟨(h.sorted hmono).1, fun d hd => (h.sorted hmono).2 d (hq hd)⟩⟩
  · obtain ⟨c, hc, hgains⟩ := hpaints.queue
    have hkeep : ∀ {x}, x ∈ s.keep → x ∈ s'.keep := fun hx => (hpaints.set .Keep _).mpr (.inl hx)
    have hdrop : ∀ {x}, x ∈ s.drop → x ∈ s'.drop := fun hx => (hpaints.set .Drop _).mpr (.inl hx)
    by_cases hgrow : mode = .Range ∧ e.color = .Keep ∧ ¬ e.o ∈ s.drop
    · have hrange : s'.range = s.range ++ [e.o] := hpaints.range.1 hgrow
      have hfresh : ¬ e.o ∈ s.keep := by
        have hfresh := hpaints.fresh
        rw [hgrow.2.1] at hfresh
        exact hfresh
      refine ⟨hgains.2 hordered, ?_, ?_, ?_, ?_⟩
      · rw [hrange, List.nodup_append]
        refine ⟨h.nodup, List.nodup_singleton _, ?_⟩
        intro x hx y hy hxy
        rw [List.mem_singleton] at hy
        exact hfresh (h.kept (by rw [← hy, ← hxy]; exact hx))
      · intro x hx
        rw [hrange, List.mem_append, List.mem_singleton] at hx
        rcases hx with hx | rfl
        · exact hkeep (h.kept hx)
        · exact (hpaints.set .Keep _).mpr (.inr ⟨hgrow.2.1.symm, rfl⟩)
      · intro hmode x hx
        rw [hrange, List.mem_append, List.mem_singleton]
        rcases (hpaints.set .Keep x).mp hx with hx | ⟨-, rfl⟩
        · exact (h.mem hmode hx).imp .inl hdrop
        · exact .inl (.inr rfl)
      · intro hmono
        obtain ⟨hsorted, hbelow⟩ := h.sorted hmono
        refine ⟨?_, ?_⟩
        · rw [hrange, List.pairwise_append]
          refine ⟨hsorted, List.pairwise_singleton _ _, ?_⟩
          intro x hx y hy
          rw [List.mem_singleton] at hy
          rw [hy]
          exact hbelow e he x hx
        · intro d hd x hx
          rw [hrange, List.mem_append, List.mem_singleton] at hx
          have hde : ctime repo d.o ≤ ctime repo e.o := by
            rcases (hpaints.mem_queue d).mp hd with hd | ⟨-, hp, -⟩
            · have hle := Heap.take_greatest hpop h.ordered (hq hd)
              rwa [htime (hq hd), htime he] at hle
            · exact Int.le_of_lt (hmono _ _ hp)
          rcases hx with hx | rfl
          · exact Int.le_trans hde (hbelow e he x hx)
          · exact hde
    · have hrange : s'.range = s.range := hpaints.range.2 hgrow
      refine ⟨hgains.2 hordered, by rw [hrange]; exact h.nodup, ?_, ?_, ?_⟩
      · intro x hx
        rw [hrange] at hx
        exact hkeep (h.kept hx)
      · intro hmode x hx
        rw [hrange]
        rcases (hpaints.set .Keep x).mp hx with hx | ⟨hcolor, rfl⟩
        · exact (h.mem hmode hx).imp_right hdrop
        · refine .inr (hdrop ?_)
          by_contra hnot
          exact hgrow ⟨hmode, hcolor.symm, hnot⟩
      · intro hmono
        obtain ⟨hsorted, hbelow⟩ := h.sorted hmono
        rw [hrange]
        refine ⟨hsorted, ?_⟩
        intro d hd x hx
        rcases (hpaints.mem_queue d).mp hd with hd | ⟨-, hp, -⟩
        · exact hbelow d (hq hd) x hx
        · exact Int.le_trans (Int.le_of_lt (hmono _ _ hp)) (hbelow e he x hx)

end

end Petele.Git
