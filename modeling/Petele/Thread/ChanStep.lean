import Petele.Thread.ChanInv

set_option linter.unusedSectionVars false

namespace Petele.Thread

open Lib

variable {K C V : Type} [DecidableEq K] [DecidableEq C] {zero : V}
variable {st st' : St K C V} {k b : K} {c : C}

section Engage

variable {nx : Next C}

/-- A call commits to another that waits. -/
structure Engaged (zero : V) (st st' : St K C V) (k b : K) (c : C) (nx : Next C) : Prop where
  phase : st'.phase = Function.update st.phase k (.meet b nx)
  tag : st'.tag = Function.update st.tag b (some c)
  parties : st'.parties = Function.update st.parties b (st.parties b ++ [k])
  wakers : st'.wakers = st.wakers
  given : st'.given = st.given
  shape : ∀ x, shape zero (st'.alts x) = shape zero (st.alts x)
  others : ∀ x, x ≠ k → x ≠ b → st'.alts x = st.alts x ∧ mine x st'.log = mine x st.log
  aborted : st'.aborted = st.aborted

theorem Idle.ne (hk : Idle st k) (hb : Waits st b) : b ≠ k := by
  intro hbk
  apply hk.not_waits
  rw [← hbk]
  exact hb

theorem Engaged.waits {x : K} (e : Engaged zero st st' k b c nx) (hx : x ≠ k) : Waits st' x ↔ Waits st x := by
  rw [Waits, Waits, e.phase, Function.update_of_ne hx]

theorem Engaged.keeps {x : K} (e : Engaged zero st st' k b c nx) (hk : Idle st k) (hx : Waits st x) : Keeps zero st st' x := by
  refine ⟨(e.waits (hk.ne hx)).mpr hx, e.shape x, fun htag => ?_⟩
  rw [e.tag] at htag
  rcases eq_or_ne x b with rfl | hxb
  · rw [Function.update_self] at htag
    exact nomatch htag
  · rw [Function.update_of_ne hxb] at htag
    exact htag

theorem Engaged.untouched {x : K} (e : Engaged zero st st' k b c nx) (hk : Idle st k) (hxk : x ≠ k) (hxb : x ≠ b) :
    Untouched st st' x := by
  have hmeets : Meets st' x = Meets st x := by
    apply Meets.frame e.phase
    · exact hk.not_meet x
    · intro nx' heq
      injection heq with hbx
      exact hxb hbx.symm
  refine ⟨?_, by rw [e.phase, Function.update_of_ne hxk]⟩
  simp only [view, e.tag, e.parties, e.wakers, e.given, Function.update_of_ne hxb, (e.others x hxk hxb).1,
    (e.others x hxk hxb).2, hmeets]

/-- The one call in the rendezvous with the other. -/
theorem Engaged.meets (e : Engaged zero st st' k b c nx) (hfree : (view st b).Free) (q : K) (nx' : Next C) :
    Meets st' b q nx' ↔ q = k ∧ nx' = nx := by
  rw [Meets, e.phase]
  rcases eq_or_ne q k with rfl | hq
  · rw [Function.update_self]
    constructor
    · intro heq
      injection heq with _ hnx
      exact ⟨rfl, hnx.symm⟩
    · rintro ⟨-, rfl⟩
      rfl
  · rw [Function.update_of_ne hq]
    exact ⟨fun heq => absurd heq (hfree.solo q nx'), fun heq => absurd heq.1 hq⟩

theorem Engaged.alone (e : Engaged zero st st' k b c nx) (hk : Idle st k) (hbk : b ≠ k) :
    (∀ p nx, ¬ (view st' k).meets p nx) ∧ (view st' k).parties = [] ∧ (view st' k).wakers = [] := by
  have hmeets : Meets st' k = Meets st k := by
    apply Meets.frame e.phase
    · exact hk.not_meet k
    · intro nx' heq
      injection heq with hb
      exact hbk hb
  refine ⟨fun p nx' => ?_, ?_, ?_⟩
  · simp only [view, hmeets]
    exact hk.free.solo p nx'
  · simp only [view, e.parties, Function.update_of_ne hbk.symm]
    exact hk.free.parties
  · simp only [view, e.wakers]
    exact hk.free.wakers

theorem Inv.engage (h : Inv zero st) (hk : Idle st k) (hb : Waits st b) (htag : st.tag b = none) (e : Engaged zero st st' k b c nx)
    (hchan : ∀ c, ChanOk st' c) (hcall : CallOk zero k (view st' k) (.meet b nx)) (hpend : Pending zero b (view st' b)) :
    Inv zero st' := by
  have hbk := hk.ne hb
  have hphaseb : st'.phase b = st.phase b := by
    rw [e.phase, Function.update_of_ne hbk]
  refine ⟨hchan, fun x => ?_, e.aborted.trans h.aborted⟩
  rcases eq_or_ne x k with rfl | hxk
  · have hphase : st'.phase x = .meet b nx := by
      rw [e.phase, Function.update_self]
    refine ⟨by rw [hphase]; exact hcall, fun _ => ?_⟩
    rw [e.shape, e.given]
    exact (h.call x).kept hk.not_done
  · rcases eq_or_ne x b with rfl | hxb
    · refine ⟨?_, fun hdone => ?_⟩
      · rw [hphaseb]
        rcases h.untagged hb htag with hp | hp <;> rw [hp] <;> exact hpend
      · rw [e.shape, e.given]
        rw [hphaseb] at hdone
        exact (h.call x).kept hdone
    · exact (h.call x).frame (e.untouched hk hxk hxb)

end Engage

section Commit

variable {w : View K C V} {g a : Alt C V} {i j : ℕ}

theorem View.got_send (ho : Others w.alts w.given i) (hg : w.given[i]? = some g) (ha : w.alts[i]? = some a) (hfix : a.fixed zero = g.fixed zero) (hc : a.c = some c)
    (hop : a.op = .CHANSND) (hev : w.events = [⟨k, .CHANSND, c, a.v.getD zero⟩]) : w.Got zero k c i := by
  have hopg : g.op = .CHANSND := (Alt.fixed_op hfix).symm.trans hop
  refine ⟨ho, g, a, hg, ha, fun he => ?_, (Alt.fixed_c hfix).symm.trans hc, by rw [hopg]; decide, a.v.getD zero, ?_, fun _ => ?_, fun hr => ?_⟩
  · rw [← Alt.fixed_err hfix]
    exact he
  · rw [hopg]
    exact hev
  · rw [Alt.fixed_send hfix hopg]
  · exact absurd (hopg.symm.trans hr) nofun

theorem View.got_receive (src : Option V) (ho : Others w.alts w.given i) (hg : w.given[i]? = some g) (ha : w.alts[i]? = some { a with v := altcopy zero a.v src })
    (hfix : a.fixed zero = g.fixed zero) (hc : a.c = some c) (hop : a.op = .CHANRCV)
    (hev : w.events = [⟨k, .CHANRCV, c, src.getD zero⟩]) : w.Got zero k c i := by
  have hopg : g.op = .CHANRCV := (Alt.fixed_op hfix).symm.trans hop
  refine ⟨ho, g, _, hg, ha, fun he => ?_, (Alt.fixed_c hfix).symm.trans hc, by rw [hopg]; decide, src.getD zero, ?_, fun hs => ?_, fun _ => ?_⟩
  · rw [← Alt.fixed_err hfix]
    exact he
  · rw [hopg]
    exact hev
  · exact absurd (hopg.symm.trans hs) nofun
  · exact Alt.fixed_receive hfix hopg _

variable {op op' : Op} {x y : V}

theorem mine_first {l : List (Event K C V)} (hl : mine k l = []) (hbk : b ≠ k) :
    mine k (l ++ [⟨k, op, c, x⟩, ⟨b, op', c, y⟩]) = [⟨k, op, c, x⟩] := by
  rw [mine_append, hl]
  simp [mine, hbk]

theorem mine_second {l : List (Event K C V)} (hl : mine b l = []) (hbk : b ≠ k) :
    mine b (l ++ [⟨k, op, c, x⟩, ⟨b, op', c, y⟩]) = [⟨b, op', c, y⟩] := by
  rw [mine_append, hl]
  simp [mine, hbk.symm]

theorem mine_other {q : K} (hlog : st'.log = st.log ++ [⟨k, op, c, x⟩, ⟨b, op', c, y⟩]) (hqk : q ≠ k) (hqb : q ≠ b) :
    mine q st'.log = mine q st.log := by
  rw [hlog, mine_append]
  simp [mine, hqk.symm, hqb.symm]

theorem moved_other {c' : C} (hlog : st'.log = st.log ++ [⟨k, op, c, x⟩, ⟨b, op', c, y⟩]) (hc : c' ≠ c) (o : Op) :
    moved o c' st'.log = moved o c' st.log := by
  rw [hlog, moved_append]
  simp [moved, hc.symm]

theorem Inv.commit (h : Inv zero st) (hk : Idle st k) (hmem : some (b, j) ∈ (st.chan c).qentry) (htag : st.tag b = none)
    (e : Engaged zero st st' k b c (.ret i)) (hlog : st'.log = st.log ++ [⟨k, op, c, x⟩, ⟨b, op', c, y⟩])
    (hother : ∀ c', c' ≠ c → st'.chan c' = st.chan c') (hn : (st'.chan c).n = (st.chan c).n) (hs : (st'.chan c).s = (st.chan c).s)
    (hq : (st'.chan c).qentry = (st.chan c).qentry) (horder : moved .CHANRCV c st'.log ++ buffered (st'.chan c) = moved .CHANSND c st'.log)
    (hgot : (view st' k).Got zero k c i) (hgotb : (view st' b).Got zero b c j) (hlast : Last (st'.alts b) c j) : Inv zero st' := by
  have hb := ((h.chan c).entry b j hmem).waits
  have hkeeps : ∀ c' q l, some (q, l) ∈ (st.chan c').qentry → Keeps zero st st' q :=
    fun c' q l hql => e.keeps hk ((h.chan c').entry q l hql).waits
  have hfree := h.free hb htag
  obtain ⟨hsolo, hparties, hwakers⟩ := e.alone hk (hk.ne hb)
  apply h.engage hk hb htag e
  · intro c'
    rcases eq_or_ne c' c with rfl | hc
    · refine ⟨by rw [hn, hs]; exact (h.chan c').size, horder, by rw [hq]; exact (h.chan c').once, fun q l hql => ?_⟩
      rw [hq] at hql
      exact ((h.chan c').entry q l hql).frame (hkeeps c' q l hql) hn hs
    · exact (h.chan c').frame ⟨_, hother c' hc⟩ (moved_other hlog hc) (hkeeps c')
  · exact ⟨hsolo, hparties, hwakers, c, hgot⟩
  · apply Pending.taken c j k i
    · simp only [view, e.tag, Function.update_self]
    · exact e.meets hfree
    · have hnil : st.parties b = [] := hfree.parties
      simp only [view, e.parties, Function.update_self, hnil, List.nil_append]
    · have hnil : st.wakers b = [] := hfree.wakers
      simp only [view, e.wakers, hnil]
    · exact hgotb
    · exact hlast

/-- The entry in the array as its caller gave it. -/
theorem Good.given_entry (h : Good zero st k) (hdone : ∀ r, st.phase k ≠ .done r) (ha : (st.alts k)[i]? = some a) :
    ∃ g, (st.given k)[i]? = some g ∧ a.fixed zero = g.fixed zero := by
  obtain ⟨g, hg, hfix⟩ := shape_getElem? (h.kept hdone).symm ha
  exact ⟨g, hg, hfix.symm⟩

theorem Waits.not_done (h : Waits st k) (r : Option ℕ) : st.phase k ≠ .done r := by
  intro hd
  rcases h with hp | ⟨_, hp⟩ <;> rw [hp] at hd <;> cases hd

theorem moved_pair (l : List (Event K C V)) (k b : K) (c : C) (x y : V) :
    moved .CHANRCV c (l ++ [⟨k, .CHANRCV, c, x⟩, ⟨b, .CHANSND, c, y⟩]) = moved .CHANRCV c l ++ [x] ∧
      moved .CHANSND c (l ++ [⟨k, .CHANRCV, c, x⟩, ⟨b, .CHANSND, c, y⟩]) = moved .CHANSND c l ++ [y] := by
  rw [moved_append, moved_append]
  constructor <;> simp [moved]

theorem moved_pair' (l : List (Event K C V)) (k b : K) (c : C) (x y : V) :
    moved .CHANRCV c (l ++ [⟨k, .CHANSND, c, x⟩, ⟨b, .CHANRCV, c, y⟩]) = moved .CHANRCV c l ++ [y] ∧
      moved .CHANSND c (l ++ [⟨k, .CHANSND, c, x⟩, ⟨b, .CHANRCV, c, y⟩]) = moved .CHANSND c l ++ [x] := by
  rw [moved_append, moved_append]
  constructor <;> simp [moved]

theorem buffered_empty {ch : Channel K V} (hn : ch.n = 0) : buffered ch = [] := by
  rw [buffered, hn, List.range_zero, List.map_nil]

/-- The states in which a call has committed to a sender that waits. -/
theorem Inv.receive {ab : Alt C V} {ch : Channel K V} {x : V} (h : Inv zero st) (hk : Idle st k) (ha : (st.alts k)[i]? = some a)
    (hc : a.c = some c) (hop : a.op = .CHANRCV) (hmem : some (b, j) ∈ (st.chan c).qentry) (htag : st.tag b = none)
    (hab : (st.alts b)[j]? = some ab) (hcb : ab.c = some c) (hopb : ab.op = .CHANSND) (hlast : Last (st.alts b) c j)
    (hn : ch.n = (st.chan c).n) (hs : ch.s = (st.chan c).s) (hq : ch.qentry = (st.chan c).qentry)
    (horder : moved .CHANRCV c st.log ++ [x] ++ buffered ch = moved .CHANSND c st.log ++ [ab.v.getD zero]) :
    Inv zero (Thread.commit { st with
      chan := Function.update st.chan c ch
      alts := Function.update st.alts k (setv (st.alts k) i (altcopy zero a.v (some x))) } k i c b
      [⟨k, .CHANRCV, c, x⟩, ⟨b, .CHANSND, c, ab.v.getD zero⟩]) := by
  have hb := ((h.chan c).entry b j hmem).waits
  have hbk := hk.ne hb
  obtain ⟨g, hg, hfix⟩ := (h.call k).given_entry hk.not_done ha
  obtain ⟨gb, hgb, hfixb⟩ := (h.call b).given_entry hb.not_done hab
  obtain ⟨hrcv, hsnd⟩ := moved_pair st.log k b c x (ab.v.getD zero)
  apply h.commit hk hmem htag _ rfl
  · intro c' hc'
    exact Function.update_of_ne hc' _ _
  · simp only [Thread.commit, Function.update_self]
    exact hn
  · simp only [Thread.commit, Function.update_self]
    exact hs
  · simp only [Thread.commit, Function.update_self]
    exact hq
  · simp only [Thread.commit, Function.update_self]
    rw [hrcv, hsnd]
    exact horder
  · apply View.got_receive (some x) _ hg _ hfix hc hop
    · exact mine_first hk.free.events hbk
    · simp only [view, Thread.commit, Function.update_self]
      exact .setv hk.free.same i _
    · simp only [view, Thread.commit, Function.update_self]
      exact getElem?_setv ha _
  · apply View.got_send _ hgb _ hfixb hcb hopb
    · exact mine_second (h.free hb htag).events hbk
    · simp only [view, Thread.commit, Function.update_of_ne hbk]
      exact .same (h.free hb htag).same j
    · simp only [view, Thread.commit, Function.update_of_ne hbk]
      exact hab
  · simp only [Thread.commit, Function.update_of_ne hbk]
    exact hlast
  · refine ⟨rfl, rfl, rfl, rfl, rfl, fun q => ?_, fun q hqk hqb => ⟨Function.update_of_ne hqk _ _, mine_other rfl hqk hqb⟩, rfl⟩
    simp only [Thread.commit]
    rcases eq_or_ne q k with rfl | hqk
    · rw [Function.update_self]
      exact shape_setv ha hop _
    · rw [Function.update_of_ne hqk]

theorem Inv.send {ab : Alt C V} (h : Inv zero st) (hk : Idle st k) (ha : (st.alts k)[i]? = some a)
    (hc : a.c = some c) (hop : a.op = .CHANSND) (hmem : some (b, j) ∈ (st.chan c).qentry) (htag : st.tag b = none)
    (hab : (st.alts b)[j]? = some ab) (hcb : ab.c = some c) (hopb : ab.op = .CHANRCV) (hlast : Last (st.alts b) c j)
    (hn : (st.chan c).n = 0) :
    Inv zero (Thread.commit { st with alts := Function.update st.alts b (setv (st.alts b) j (altcopy zero ab.v a.v)) } k i c b
      [⟨k, .CHANSND, c, a.v.getD zero⟩, ⟨b, .CHANRCV, c, a.v.getD zero⟩]) := by
  have hb := ((h.chan c).entry b j hmem).waits
  have hbk := hk.ne hb
  obtain ⟨g, hg, hfix⟩ := (h.call k).given_entry hk.not_done ha
  obtain ⟨gb, hgb, hfixb⟩ := (h.call b).given_entry hb.not_done hab
  obtain ⟨hrcv, hsnd⟩ := moved_pair' st.log k b c (a.v.getD zero) (a.v.getD zero)
  apply h.commit hk hmem htag _ rfl
  · exact fun _ _ => rfl
  · rfl
  · rfl
  · rfl
  · have horder := (h.chan c).order
    simp only [Thread.commit]
    rw [buffered_empty hn, List.append_nil] at horder ⊢
    rw [hrcv, hsnd, horder]
  · apply View.got_send _ hg _ hfix hc hop
    · exact mine_first hk.free.events hbk
    · simp only [view, Thread.commit, Function.update_of_ne hbk.symm]
      exact .same hk.free.same i
    · simp only [view, Thread.commit, Function.update_of_ne hbk.symm]
      exact ha
  · apply View.got_receive a.v _ hgb _ hfixb hcb hopb
    · exact mine_second (h.free hb htag).events hbk
    · simp only [view, Thread.commit, Function.update_self]
      exact .setv (h.free hb htag).same j _
    · simp only [view, Thread.commit, Function.update_self]
      exact getElem?_setv hab _
  · simp only [Thread.commit, Function.update_self]
    exact hlast.setv _
  · refine ⟨rfl, rfl, rfl, rfl, rfl, fun q => ?_, fun q hqk hqb => ⟨Function.update_of_ne hqb _ _, mine_other rfl hqk hqb⟩, rfl⟩
    simp only [Thread.commit]
    rcases eq_or_ne q b with rfl | hqb
    · rw [Function.update_self]
      exact shape_setv hab hopb _
    · rw [Function.update_of_ne hqb]

end Commit

section Exec

variable {a : Alt C V} {i j : ℕ}

theorem waits_iff {op : Op} : waits st op (some (b, j)) = true ↔ (∃ ab, (st.alts b)[j]? = some ab ∧ ab.op = op) ∧ st.tag b = none := by
  simp [waits, Option.map_eq_some_iff]

/-- A waiter that nobody has committed to. -/
structure Waiter (st : St K C V) (c : C) (op : Op) (b : K) (j : ℕ) (ab : Alt C V) : Prop where
  mem : some (b, j) ∈ (st.chan c).qentry
  tag : st.tag b = none
  get : (st.alts b)[j]? = some ab
  chan : ab.c = some c
  same : ab.op = op
  empty : op = .CHANRCV → (st.chan c).n = 0
  full : op = .CHANSND → (st.chan c).n = (st.chan c).s

theorem Inv.waiter {op : Op} (h : Inv zero st) (hmem : some (b, j) ∈ (st.chan c).qentry) (hw : waits st op (some (b, j)) = true) :
    ∃ ab, Waiter st c op b j ab := by
  obtain ⟨⟨ab, hab, hop⟩, htag⟩ := waits_iff.mp hw
  obtain ⟨ab', hab', hc, -, hcount⟩ := ((h.chan c).entry b j hmem).entry
  obtain rfl : ab = ab' := Option.some.inj (hab.symm.trans hab')
  rw [hop] at hcount
  exact ⟨ab, hmem, htag, hab, hc, hop, (hcount htag).1, (hcount htag).2⟩

theorem Inv.altexecwaiter (h : Inv zero st) (hk : Idle st k) (ha : (st.alts k)[i]? = some a) (hc : a.c = some c) (hop : a.op ≠ .CHANNOP)
    (hmem : some (b, j) ∈ (st.chan c).qentry) (hw : waits st a.op.other (some (b, j)) = true) (hlast : Last (st.alts b) c j) :
    Inv zero (altexecwaiter zero st k i a c b j) := by
  obtain ⟨ab, w⟩ := h.waiter hmem hw
  have horder := (h.chan c).order
  rw [Thread.altexecwaiter]
  simp only [w.get, Option.bind_some]
  cases hopa : a.op with
  | CHANNOP => exact absurd hopa hop
  | CHANRCV =>
    have hopb : ab.op = .CHANSND := by
      rw [w.same, hopa]
      rfl
    have hfull : (st.chan c).n = (st.chan c).s := w.full (by rw [hopa]; rfl)
    split
    · rename_i hbuf
      have hpos : 0 < (st.chan c).n := Nat.pos_of_ne_zero hbuf.2
      obtain ⟨l, hl, hl'⟩ := buffered_replace hpos hfull (ab.v.getD zero)
      simp only [ne_eq, not_true_eq_false, if_false, altexecbuffered, hpos, and_self, if_true]
      apply h.receive hk ha hc hopa hmem w.tag w.get w.chan hopb hlast
      · rfl
      · rfl
      · rfl
      · rw [hl] at horder
        rw [hl', ← horder]
        simp
    · rename_i hbuf
      have hn : (st.chan c).n = 0 := by
        by_contra hne
        exact hbuf ⟨by omega, hne⟩
      rw [if_pos rfl]
      rw [buffered_empty hn, List.append_nil] at horder
      have hst := h.receive (x := ab.v.getD zero) hk ha hc hopa hmem w.tag w.get w.chan hopb hlast rfl rfl rfl
        (by rw [buffered_empty hn, List.append_nil, horder])
      rw [Function.update_eq_self] at hst
      exact hst
  | CHANSND =>
    have hopb : ab.op = .CHANRCV := by
      rw [w.same, hopa]
      rfl
    have hn : (st.chan c).n = 0 := w.empty (by rw [hopa]; rfl)
    rw [if_neg fun hbuf => hbuf.2 hn, if_neg (by decide)]
    exact h.send hk ha hc hopa hmem w.tag w.get w.chan hopb hlast hn

end Exec

section Only

variable {P : Phase K C}

/-- Nothing that another call notices changes. -/
structure Only (st st' : St K C V) (k : K) (P : Phase K C) : Prop where
  phase : st'.phase = Function.update st.phase k P
  others : ∀ x, x ≠ k → st'.tag x = st.tag x ∧ st'.given x = st.given x ∧ st'.alts x = st.alts x ∧ mine x st'.log = mine x st.log ∧
    st'.parties x = st.parties x ∧ st'.wakers x = st.wakers x
  old : ∀ b nx, st.phase k ≠ .meet b nx
  new : ∀ b nx, P ≠ .meet b nx

theorem Only.meets {x : K} (o : Only st st' k P) : Meets st' x = Meets st x := Meets.frame o.phase (o.old x) (o.new x)

theorem Only.phase_self (o : Only st st' k P) : st'.phase k = P := by
  rw [o.phase, Function.update_self]

theorem Only.untouched {x : K} (o : Only st st' k P) (hx : x ≠ k) : Untouched st st' x := by
  obtain ⟨htag, hgiven, halts, hmine, hparties, hwakers⟩ := o.others x hx
  refine ⟨?_, by rw [o.phase, Function.update_of_ne hx]⟩
  simp only [view, htag, hgiven, halts, hmine, hparties, hwakers, o.meets]

theorem Inv.only (h : Inv zero st) (o : Only st st' k P) (hchan : ∀ c, ChanOk st' c) (hgood : Good zero st' k)
    (habort : st'.aborted = false) : Inv zero st' := by
  refine ⟨hchan, fun x => ?_, habort⟩
  rcases eq_or_ne x k with rfl | hx
  · exact hgood
  · exact (h.call x).frame (o.untouched hx)

/-- A channel after a step of a call that is not in its queue. -/
theorem Only.frame (h : Inv zero st) (o : Only st st' k P) (hk : ¬ Waits st k) (hchan : ∃ cl, st'.chan c = { st.chan c with closed := cl })
    (hmoved : ∀ op, moved op c st'.log = moved op c st.log) : ChanOk st' c := by
  have hkeeps : ∀ x i, some (x, i) ∈ (st.chan c).qentry → Keeps zero st st' x := by
    intro x i hx
    have hw := ((h.chan c).entry x i hx).waits
    have hxk : x ≠ k := by
      rintro rfl
      exact hk hw
    exact (o.untouched hxk).keeps hw
  exact (h.chan c).frame hchan hmoved hkeeps

theorem Good.of_done {r : Option ℕ} (hphase : st'.phase k = .done r) (hcall : CallOk zero k (view st' k) (.done r)) : Good zero st' k := by
  exact ⟨by rw [hphase]; exact hcall, fun hd => absurd hphase (hd r)⟩

end Only

end Petele.Thread
