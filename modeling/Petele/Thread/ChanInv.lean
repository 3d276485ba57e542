import Petele.Thread.Channel
import Mathlib.Data.Nat.ModEq

set_option linter.unusedSectionVars false

namespace Petele.Thread

open Lib

variable {K C V : Type} [DecidableEq K] [DecidableEq C] {zero : V}
variable {st st' : St K C V} {k : K} {c : C}

section Invariant

/-- The events of a call. -/
def mine (k : K) (log : List (Event K C V)) : List (Event K C V) := log.filter fun e => e.call = k

/-- The values that have been sent or received, in the order of the commitments. -/
def moved (op : Op) (c : C) (log : List (Event K C V)) : List V := (log.filter fun e => e.op = op ∧ e.chan = c).map Event.val

/-- The values in the buffer. -/
def buffered (ch : Channel K V) : List V := (List.range ch.n).map fun i => ch.v ((ch.f + i) % ch.s)

/-- The call is between its two locked parts. -/
def Waits (st : St K C V) (k : K) : Prop := st.phase k = .wait ∨ ∃ r, st.phase k = .woken r

/-- What an entry keeps until the call returns: all but the value that a receive gets. -/
def Alt.fixed (zero : V) (a : Alt C V) : Alt C V := { a with v := if a.op = .CHANRCV then a.v.map fun _ => zero else a.v }

def shape (zero : V) (l : List (Alt C V)) : List (Alt C V) := l.map (Alt.fixed zero)

structure Entered (st : St K C V) (c : C) (k : K) (i : ℕ) : Prop where
  waits : Waits st k
  entry : ∃ a, (st.alts k)[i]? = some a ∧ a.c = some c ∧ a.op ≠ .CHANNOP ∧
    (st.tag k = none → (a.op = .CHANRCV → (st.chan c).n = 0) ∧ (a.op = .CHANSND → (st.chan c).n = (st.chan c).s))

structure ChanOk (st : St K C V) (c : C) : Prop where
  size : (st.chan c).n ≤ (st.chan c).s
  order : moved .CHANRCV c st.log ++ buffered (st.chan c) = moved .CHANSND c st.log
  once : ∀ x, times x (st.chan c).qentry ≤ 1
  entry : ∀ k i, some (k, i) ∈ (st.chan c).qentry → Entered st c k i

/-- The one event of a call is about an entry, which was `g` and is `a` now. -/
structure Held (zero : V) (k : K) (g a : Alt C V) (c : C) (l : List (Event K C V)) : Prop where
  chan : g.c = some c
  op : g.op ≠ .CHANNOP
  event : ∃ x, l = [⟨k, g.op, c, x⟩] ∧ (g.op = .CHANSND → x = g.v.getD zero) ∧ (g.op = .CHANRCV → a.v = g.v.map fun _ => x)

/-- What a state tells about a call. -/
structure View (K C V : Type) where
  tag : Option C
  given : List (Alt C V)
  alts : List (Alt C V)
  events : List (Event K C V)
  parties : List K
  wakers : List K
  /-- The calls in the rendezvous with it. -/
  meets : K → Next C → Prop

/-- Nobody has committed to it. -/
structure View.Free (w : View K C V) : Prop where
  events : w.events = []
  parties : w.parties = []
  wakers : w.wakers = []
  solo : ∀ p nx, ¬ w.meets p nx
  same : w.alts.map Alt.v = w.given.map Alt.v

/-- The other entries have the values that they were given. -/
def Others (alts given : List (Alt C V)) (i : ℕ) : Prop := ∀ j, j ≠ i → alts[j]?.map Alt.v = given[j]?.map Alt.v

/-- The place in the array that the one event is about. -/
def View.Got (zero : V) (k : K) (w : View K C V) (c : C) (i : ℕ) : Prop :=
  Others w.alts w.given i ∧
    ∃ g a, w.given[i]? = some g ∧ w.alts[i]? = some a ∧ (a.err = true → g.err = true) ∧ Held zero k g a c w.events

/-- The place in the array whose channel has been closed. -/
def View.Lost (w : View K C V) (c : C) (i : ℕ) : Prop :=
  w.events = [] ∧ ∃ a, w.alts[i]? = some a ∧ a.c = some c ∧ a.op ≠ .CHANNOP

/-- A call that waits: nobody has committed to it, or one other call that is about to meet it. -/
inductive Pending (zero : V) (k : K) (w : View K C V) : Prop
  | free (htag : w.tag = none) (h : w.Free)
  | taken (c : C) (i : ℕ) (p : K) (n : ℕ) (htag : w.tag = some c) (hone : ∀ q nx, w.meets q nx ↔ q = p ∧ nx = .ret n)
      (hparties : w.parties = [p]) (hwakers : w.wakers = []) (got : w.Got zero k c i) (last : Last w.alts c i)
  | shut (c : C) (i : ℕ) (p : K) (n : ℕ) (htag : w.tag = some c) (hone : ∀ q nx, w.meets q nx ↔ q = p ∧ nx = .close c n)
      (hparties : w.parties = [p]) (hwakers : w.wakers = []) (lost : w.Lost c i)

/-- One call has committed to it and has met it. -/
structure View.Met (w : View K C V) (c : C) : Prop where
  tag : w.tag = some c
  party : ∃ p, w.parties = [p] ∧ w.wakers = [p]
  solo : ∀ p nx, ¬ w.meets p nx

/-- What a call has committed to, by where it is. -/
def CallOk (zero : V) (k : K) (w : View K C V) : Phase K C → Prop
  | .wait => Pending zero k w
  | .woken .intr => Pending zero k w
  | .woken .met => ∃ c, w.Met c ∧ ∃ i, w.Got zero k c i ∧ Last w.alts c i
  | .woken .closed => ∃ c, w.Met c ∧ ∃ i, w.Lost c i
  | .meet _ (.ret i) => (∀ p nx, ¬ w.meets p nx) ∧ w.parties = [] ∧ w.wakers = [] ∧ ∃ c, w.Got zero k c i
  | .done (some i) => (∀ p nx, ¬ w.meets p nx) ∧ w.parties = w.wakers ∧ w.parties.length ≤ 1 ∧
    ((∃ c, w.Got zero k c i) ∨ w.events = [] ∧ ∀ a, w.alts[i]? = some a → a.err = true)
  | _ => w.Free

/-- The other calls in the rendezvous with a call. -/
def Meets (st : St K C V) (k p : K) (nx : Next C) : Prop := st.phase p = .meet k nx

def view (st : St K C V) (k : K) : View K C V :=
  ⟨st.tag k, st.given k, st.alts k, mine k st.log, st.parties k, st.wakers k, Meets st k⟩

structure Good (zero : V) (st : St K C V) (k : K) : Prop where
  call : CallOk zero k (view st k) (st.phase k)
  kept : (∀ r, st.phase k ≠ .done r) → shape zero (st.alts k) = shape zero (st.given k)

structure Inv (zero : V) (st : St K C V) : Prop where
  chan : ∀ c, ChanOk st c
  call : ∀ k, Good zero st k
  aborted : st.aborted = false

end Invariant

section Frames

/-- Nothing that a channel depends on changes in a call. -/
structure Keeps (zero : V) (st st' : St K C V) (k : K) : Prop where
  waits : Waits st' k
  shape : shape zero (st'.alts k) = shape zero (st.alts k)
  tag : st'.tag k = none → st.tag k = none

theorem shape_getElem? {l l' : List (Alt C V)} {i : ℕ} {a : Alt C V} (h : shape zero l' = shape zero l) (ha : l[i]? = some a) :
    ∃ a', l'[i]? = some a' ∧ a'.fixed zero = a.fixed zero := by
  have hi : (shape zero l')[i]? = some (a.fixed zero) := by
    rw [h, shape, List.getElem?_map, ha, Option.map_some]
  rw [shape, List.getElem?_map] at hi
  exact Option.map_eq_some_iff.mp hi

theorem Alt.fixed_op {a b : Alt C V} (h : a.fixed zero = b.fixed zero) : a.op = b.op := by
  injection h

theorem Alt.fixed_c {a b : Alt C V} (h : a.fixed zero = b.fixed zero) : a.c = b.c := by
  injection h

theorem Alt.fixed_err {a b : Alt C V} (h : a.fixed zero = b.fixed zero) : a.err = b.err := by
  injection h

theorem Alt.fixed_send {a b : Alt C V} (h : a.fixed zero = b.fixed zero) (hop : b.op = .CHANSND) : a.v = b.v := by
  have hv := congrArg Alt.v h
  have hopa := (Alt.fixed_op h).trans hop
  simp only [Alt.fixed, hop, hopa] at hv
  exact hv

theorem Alt.fixed_receive {a b : Alt C V} (h : a.fixed zero = b.fixed zero) (hop : b.op = .CHANRCV) (x : V) :
    (a.v.map fun _ => x) = b.v.map fun _ => x := by
  have hv := congrArg Alt.v h
  have hopa := (Alt.fixed_op h).trans hop
  simp only [Alt.fixed, hop, hopa, if_true] at hv
  have hx := congrArg (Option.map fun _ => x) hv
  simpa only [Option.map_map, Function.comp_def] using hx

theorem Entered.frame {i : ℕ} (h : Entered st c k i) (hk : Keeps zero st st' k) (hn : (st'.chan c).n = (st.chan c).n)
    (hs : (st'.chan c).s = (st.chan c).s) : Entered st' c k i := by
  obtain ⟨a, ha, hc, hop, hcount⟩ := h.entry
  obtain ⟨a', ha', hfix⟩ := shape_getElem? hk.shape ha
  refine ⟨hk.waits, a', ha', (Alt.fixed_c hfix).trans hc, by rw [Alt.fixed_op hfix]; exact hop, fun htag => ?_⟩
  rw [hn, hs, Alt.fixed_op hfix]
  exact hcount (hk.tag htag)

theorem ChanOk.frame (h : ChanOk st c) (hchan : ∃ cl, st'.chan c = { st.chan c with closed := cl })
    (hmoved : ∀ op, moved op c st'.log = moved op c st.log)
    (hkeeps : ∀ k i, some (k, i) ∈ (st.chan c).qentry → Keeps zero st st' k) : ChanOk st' c := by
  obtain ⟨cl, hchan⟩ := hchan
  refine ⟨by rw [hchan]; exact h.size, ?_, by rw [hchan]; exact h.once, fun k i hki => ?_⟩
  · rw [hchan, hmoved, hmoved]
    exact h.order
  · rw [hchan] at hki
    exact (h.entry k i hki).frame (hkeeps k i hki) (by rw [hchan]) (by rw [hchan])

theorem mine_append (k : K) (l₁ l₂ : List (Event K C V)) : mine k (l₁ ++ l₂) = mine k l₁ ++ mine k l₂ := List.filter_append ..

theorem moved_append (op : Op) (c : C) (l₁ l₂ : List (Event K C V)) : moved op c (l₁ ++ l₂) = moved op c l₁ ++ moved op c l₂ := by
  rw [moved, List.filter_append, List.map_append]
  rfl

theorem shape_setv {l : List (Alt C V)} {i : ℕ} {a : Alt C V} (ha : l[i]? = some a) (hop : a.op = .CHANRCV) (src : Option V) :
    shape zero (setv l i (altcopy zero a.v src)) = shape zero l := by
  apply List.ext_getElem?
  intro j
  rw [shape, shape, List.getElem?_map, List.getElem?_map, setv, List.getElem?_modify]
  by_cases hij : i = j
  · subst hij
    simp [ha, Alt.fixed, hop, altcopy, Function.comp_def]
  · simp [hij]

theorem getElem?_setv {l : List (Alt C V)} {i : ℕ} {a : Alt C V} (ha : l[i]? = some a) (v : Option V) :
    (setv l i v)[i]? = some { a with v := v } := by
  rw [setv, List.getElem?_modify, ha, Option.map_eq_map, Option.map_some, if_pos rfl]

theorem getElem?_setv_ne {l : List (Alt C V)} {i j : ℕ} (hj : j ≠ i) (v : Option V) : (setv l i v)[j]? = l[j]? := by
  rw [setv, List.getElem?_modify]
  simp [hj.symm]

theorem Others.setv {l given : List (Alt C V)} (h : l.map Alt.v = given.map Alt.v) (i : ℕ) (v : Option V) : Others (setv l i v) given i := by
  intro j hj
  rw [getElem?_setv_ne hj, ← List.getElem?_map, h, List.getElem?_map]

theorem Others.same {l given : List (Alt C V)} (h : l.map Alt.v = given.map Alt.v) (i : ℕ) : Others l given i := by
  intro j _
  rw [← List.getElem?_map, h, List.getElem?_map]

theorem Last.setv {l : List (Alt C V)} {i : ℕ} (h : Last l c i) (v : Option V) : Last (setv l i v) c i := by
  intro j a hj ha
  rw [getElem?_setv_ne (Nat.ne_of_gt hj)] at ha
  exact h j a hj ha

theorem Distinct.last {l : List (Alt C V)} {i : ℕ} {a : Alt C V} (h : Distinct l) (ha : l[i]? = some a) (hop : a.op ≠ .CHANNOP)
    (hc : a.c = some c) : Last l c i := by
  intro j b hj hb hopb hcb
  have hij := h i j a b ha hb hop hopb (by rw [hc]; exact nofun) (hc.trans hcb.symm)
  exact Nat.ne_of_lt hj hij

theorem Distinct.of_shape {l l' : List (Alt C V)} (h : Distinct l) (hs : shape zero l' = shape zero l) : Distinct l' := by
  intro i j a b ha hb hopa hopb hc heq
  obtain ⟨a', ha', hfa⟩ := shape_getElem? hs.symm ha
  obtain ⟨b', hb', hfb⟩ := shape_getElem? hs.symm hb
  apply h i j a' b' ha' hb'
  · rw [Alt.fixed_op hfa]
    exact hopa
  · rw [Alt.fixed_op hfb]
    exact hopb
  · rw [Alt.fixed_c hfa]
    exact hc
  · rw [Alt.fixed_c hfa, Alt.fixed_c hfb]
    exact heq

/-- A call that does not change does not notice what others do. -/
theorem Meets.frame {x : K} {P : Phase K C} (hphase : st'.phase = Function.update st.phase x P)
    (hold : ∀ nx, st.phase x ≠ .meet k nx) (hnew : ∀ nx, P ≠ .meet k nx) : Meets st' k = Meets st k := by
  funext p nx
  apply propext
  rw [Meets, Meets, hphase]
  rcases eq_or_ne p x with rfl | hp
  · rw [Function.update_self]
    exact ⟨fun hc => absurd hc (hnew nx), fun hc => absurd hc (hold nx)⟩
  · rw [Function.update_of_ne hp]

/-- A call that is not waiting has nothing in the queues. -/
theorem Inv.not_entered (h : Inv zero st) (hk : ¬ Waits st k) (c : C) (i : ℕ) : some (k, i) ∉ (st.chan c).qentry :=
  fun hc => hk ((h.chan c).entry k i hc).waits

/-- A step leaves a call alone. -/
structure Untouched (st st' : St K C V) (k : K) : Prop where
  view : view st' k = view st k
  phase : st'.phase k = st.phase k

theorem Untouched.waits (h : Untouched st st' k) : Waits st' k ↔ Waits st k := by
  rw [Waits, Waits, h.phase]

theorem Good.frame (h : Good zero st k) (hu : Untouched st st' k) : Good zero st' k := by
  have halts : st'.alts k = st.alts k := congrArg View.alts hu.view
  have hgiven : st'.given k = st.given k := congrArg View.given hu.view
  refine ⟨?_, ?_⟩
  · rw [hu.view, hu.phase]
    exact h.call
  · rw [hu.phase, halts, hgiven]
    exact h.kept

theorem Untouched.keeps (h : Untouched st st' k) (hw : Waits st k) : Keeps zero st st' k := by
  have halts : st'.alts k = st.alts k := congrArg View.alts h.view
  have htag : st'.tag k = st.tag k := congrArg View.tag h.view
  exact ⟨h.waits.mpr hw, by rw [halts], by rw [htag]; exact id⟩

/-- A call of `alt` or `chanclose` that is about to take the lock. -/
structure Idle (st : St K C V) (k : K) : Prop where
  phase : st.phase k = .ready ∨ ∃ c i, st.phase k = .closing c i
  free : (view st k).Free

theorem Idle.not_waits (h : Idle st k) : ¬ Waits st k := by
  intro hw
  rcases h.phase with hp | ⟨c, i, hp⟩ <;> rcases hw with hw | ⟨r, hw⟩ <;> rw [hp] at hw <;> cases hw

theorem Idle.not_meet (h : Idle st k) (b : K) (nx : Next C) : st.phase k ≠ .meet b nx := by
  intro hm
  rcases h.phase with hp | ⟨c, i, hp⟩ <;> rw [hp] at hm <;> cases hm

theorem Idle.not_done (h : Idle st k) (r : Option ℕ) : st.phase k ≠ .done r := by
  intro hm
  rcases h.phase with hp | ⟨c, i, hp⟩ <;> rw [hp] at hm <;> cases hm

theorem Inv.ready (h : Inv zero st) (hk : st.phase k = .ready) : Idle st k := by
  have hcall := (h.call k).call
  rw [hk] at hcall
  exact ⟨.inl hk, hcall⟩

theorem Inv.closing {i : ℕ} (h : Inv zero st) (hk : st.phase k = .closing c i) : Idle st k := by
  have hcall := (h.call k).call
  rw [hk] at hcall
  exact ⟨.inr ⟨c, i, hk⟩, hcall⟩

theorem Inv.untagged (h : Inv zero st) (hw : Waits st k) (htag : st.tag k = none) :
    st.phase k = .wait ∨ st.phase k = .woken .intr := by
  have hcall := (h.call k).call
  rcases hw with hp | ⟨r, hp⟩
  · exact .inl hp
  · rw [hp] at hcall
    cases r with
    | intr => exact .inr hp
    | met =>
      obtain ⟨c, hmet, -⟩ := hcall
      exact absurd (htag.symm.trans hmet.tag) nofun
    | closed =>
      obtain ⟨c, hmet, -⟩ := hcall
      exact absurd (htag.symm.trans hmet.tag) nofun

theorem Inv.pending (h : Inv zero st) (hp : st.phase k = .wait ∨ st.phase k = .woken .intr) : Pending zero k (view st k) := by
  have hcall := (h.call k).call
  rcases hp with hp | hp <;> rw [hp] at hcall <;> exact hcall

/-- Nobody has committed to a call that waits and has no tag. -/
theorem Inv.free (h : Inv zero st) (hw : Waits st k) (htag : st.tag k = none) : (view st k).Free := by
  cases h.pending (h.untagged hw htag) with
  | free _ h => exact h
  | taken c i p n ht => exact absurd (htag.symm.trans ht) nofun
  | shut c i p n ht => exact absurd (htag.symm.trans ht) nofun

end Frames

section Buffers

variable {ch : Channel K V}

theorem mod_ne {f i j s : ℕ} (hij : i < j) (hj : j < i + s) : (f + i) % s ≠ (f + j) % s := by
  intro h
  have hdvd : s ∣ f + j - (f + i) := (Nat.modEq_iff_dvd' (by omega)).mp h
  have hle := Nat.le_of_dvd (by omega) hdvd
  omega

theorem buffered_receive (hn : 0 < ch.n) :
    buffered ch = ch.v (ch.f % ch.s) :: buffered { ch with n := ch.n - 1, f := ch.f + 1 } := by
  obtain ⟨n, hn'⟩ : ∃ n, ch.n = n + 1 := ⟨ch.n - 1, by omega⟩
  simp only [buffered, hn', List.range_succ_eq_map, List.map_cons, List.map_map, Nat.add_sub_cancel, Nat.add_zero]
  congr 1
  apply List.map_congr_left
  intro i _
  simp only [Function.comp_apply, Nat.succ_eq_add_one]
  congr 2
  omega

theorem buffered_send (hn : ch.n < ch.s) (x : V) :
    buffered { ch with n := ch.n + 1, v := Function.update ch.v ((ch.f + ch.n) % ch.s) x } = buffered ch ++ [x] := by
  simp only [buffered, List.range_succ, List.map_append, List.map_cons, List.map_nil, Function.update_self]
  congr 1
  apply List.map_congr_left
  intro i hi
  rw [List.mem_range] at hi
  exact Function.update_of_ne (mod_ne hi (by omega)) _ _

/-- A full buffer gives its first value away and takes another. -/
theorem buffered_replace (hn : 0 < ch.n) (hfull : ch.n = ch.s) (x : V) :
    ∃ l, buffered ch = ch.v (ch.f % ch.s) :: l ∧
      buffered { ch with f := ch.f + 1, v := Function.update ch.v (ch.f % ch.s) x } = l ++ [x] := by
  refine ⟨_, buffered_receive hn, ?_⟩
  obtain ⟨n, hn'⟩ : ∃ n, ch.n = n + 1 := ⟨ch.n - 1, by omega⟩
  have hlast : (ch.f + 1 + n) % ch.s = ch.f % ch.s := by
    rw [show ch.f + 1 + n = ch.f + ch.s by omega, Nat.add_mod_right]
  simp only [buffered, hn', List.range_succ, List.map_append, List.map_cons, List.map_nil, Nat.add_sub_cancel, hlast,
    Function.update_self]
  congr 1
  apply List.map_congr_left
  intro i hi
  rw [List.mem_range] at hi
  apply Function.update_of_ne
  have hne := mod_ne (f := ch.f) (i := 0) (j := 1 + i) (s := ch.s) (by omega) (by omega)
  rw [Nat.add_zero, ← Nat.add_assoc] at hne
  exact hne.symm

end Buffers

section Queues

theorem opened_congr {chan chan' : C → Channel K V} (h : ∀ c, (chan' c).closed = (chan c).closed ∧ (chan' c).n = (chan c).n) (a : Alt C V) :
    opened chan' a = opened chan a := by
  unfold opened isopenfor
  cases a.c with
  | none => rfl
  | some c =>
    simp only
    rw [(h c).1, (h c).2]

/-- Nothing but the queues changes. -/
def SameBut (chan chan' : C → Channel K V) : Prop := ∀ c, chan' c = { chan c with qentry := (chan' c).qentry }

theorem SameBut.trans {chan chan' chan'' : C → Channel K V} (h : SameBut chan chan') (h' : SameBut chan' chan'') : SameBut chan chan'' := by
  intro c
  rw [h' c, h c]

theorem qentry_enqueue (k : K) (i : ℕ) (c : C) (chan : C → Channel K V) (c' : C) :
    (enqueue k i c chan c').qentry = if c' = c then fill 15 (k, i) (chan c').qentry else (chan c').qentry := by
  rw [enqueue, Function.update_apply]
  split
  · rename_i h
    rw [h]
  · rfl

theorem qentry_dequeue (k : K) (i : ℕ) (c : C) (chan : C → Channel K V) (c' : C) :
    (dequeue k i c chan c').qentry = if c' = c then vacate (k, i) (chan c').qentry else (chan c').qentry := by
  rw [dequeue, Function.update_apply]
  split
  · rename_i h
    rw [h]
  · rfl

theorem same_enqueue (k : K) (i : ℕ) (c : C) (chan : C → Channel K V) : SameBut chan (enqueue k i c chan) := by
  intro x
  rw [enqueue, Function.update_apply]
  split
  · rename_i h
    rw [h]
  · rfl

theorem same_dequeue (k : K) (i : ℕ) (c : C) (chan : C → Channel K V) : SameBut chan (dequeue k i c chan) := by
  intro x
  rw [dequeue, Function.update_apply]
  split
  · rename_i h
    rw [h]
  · rfl

/-- What the queues hold after entries have been put into them. -/
structure Enqueued (k : K) (i : ℕ) (l : List (Alt C V)) (chan chan' : C → Channel K V) : Prop where
  same : SameBut chan chan'
  mem : ∀ c x, some x ∈ (chan' c).qentry → some x ∈ (chan c).qentry ∨
    ∃ (j : ℕ) (a : Alt C V), l[j]? = some a ∧ opened chan a = true ∧ a.c = some c ∧ x = (k, i + j)
  once : (∀ c x, times x (chan c).qentry ≤ 1) → (∀ c j, i ≤ j → some (k, j) ∉ (chan c).qentry) →
    ∀ c x, times x (chan' c).qentry ≤ 1

theorem Enqueued.skip {i : ℕ} {a : Alt C V} {l : List (Alt C V)} {chan chan' : C → Channel K V}
    (h : Enqueued k (i + 1) l chan chan') : Enqueued k i (a :: l) chan chan' := by
  refine ⟨h.same, fun c x hx => ?_, fun honce hnew => h.once honce fun c j hj => hnew c j (by omega)⟩
  rcases h.mem c x hx with hold | ⟨j, b, hj, hb, hbc, rfl⟩
  · exact .inl hold
  · exact .inr ⟨j + 1, b, hj, hb, hbc, by rw [Nat.add_right_comm, Nat.add_assoc]⟩

theorem Enqueued.first {i : ℕ} {a : Alt C V} {l : List (Alt C V)} {chan chan' : C → Channel K V} (hc : a.c = some c)
    (ho : opened chan a = true) (h : Enqueued k (i + 1) l (enqueue k i c chan) chan') : Enqueued k i (a :: l) chan chan' := by
  have hsame := same_enqueue k i c chan
  have hopen : ∀ b : Alt C V, opened (enqueue k i c chan) b = opened chan b :=
    opened_congr fun x => by rw [hsame x]; exact ⟨rfl, rfl⟩
  refine ⟨hsame.trans h.same, fun c' x hx => ?_, fun honce hnew => h.once (fun c' x => ?_) fun c' j hj => ?_⟩
  · rcases h.mem c' x hx with hold | ⟨j, b, hj, hb, hbc, rfl⟩
    · rw [qentry_enqueue] at hold
      split at hold
      · rename_i heq
        rcases mem_fill.mp hold with h | h
        · exact .inl h
        · exact .inr ⟨0, a, rfl, ho, by rw [heq]; exact hc, h.symm⟩
      · exact .inl hold
    · rw [hopen] at hb
      exact .inr ⟨j + 1, b, hj, hb, hbc, by rw [Nat.add_right_comm, Nat.add_assoc]⟩
  · rw [qentry_enqueue]
    split
    · rw [times_fill]
      by_cases heq : (k, i) = x
      · subst heq
        rw [times_eq_zero.mpr (hnew c' i le_rfl), if_pos rfl]
      · rw [if_neg heq]
        exact honce c' x
    · exact honce c' x
  · rw [qentry_enqueue]
    split
    · intro hmem
      rcases mem_fill.mp hmem with h | h
      · exact hnew c' j (by omega) h
      · have hij := congrArg Prod.snd h
        simp only at hij
        omega
    · exact hnew c' j (by omega)

theorem enqueues_spec (k : K) (i : ℕ) (l : List (Alt C V)) (chan : C → Channel K V) : Enqueued k i l chan (enqueues k i l chan) := by
  induction l generalizing i chan with
  | nil => exact ⟨fun c => rfl, fun c x hx => .inl hx, fun h _ => h⟩
  | cons a l ih =>
    rw [enqueues]
    split
    · rename_i ho
      cases hc : a.c with
      | none => exact (ih (i + 1) chan).skip
      | some c => exact (ih (i + 1) (enqueue k i c chan)).first hc ho
    · exact (ih (i + 1) chan).skip

/-- What the queues hold after the entries of a call have been taken out. -/
structure Dequeued (k : K) (i : ℕ) (l : List (Alt C V)) (chan chan' : C → Channel K V) : Prop where
  same : SameBut chan chan'
  le : ∀ c x, times x (chan' c).qentry ≤ times x (chan c).qentry
  gone : ∀ c (j : ℕ) (a : Alt C V), l[j]? = some a → a.op ≠ .CHANNOP → a.c = some c → times (k, i + j) (chan c).qentry ≤ 1 →
    times (k, i + j) (chan' c).qentry = 0

theorem dequeues_spec (k : K) (i : ℕ) (l : List (Alt C V)) (chan : C → Channel K V) : Dequeued k i l chan (dequeues k i l chan) := by
  induction l generalizing i chan with
  | nil => exact ⟨fun c => rfl, fun c x => le_rfl, fun c j a hj => nomatch hj⟩
  | cons a l ih =>
    rw [dequeues]
    by_cases hput : ∃ c, a.c = some c ∧ a.op ≠ .CHANNOP
    · obtain ⟨c, hc, hop⟩ := hput
      rw [if_pos hop, hc, Option.map_some, Option.getD_some]
      have h := ih (i + 1) (dequeue k i c chan)
      have hle : ∀ c' x, times x (dequeue k i c chan c').qentry ≤ times x (chan c').qentry := by
        intro c' x
        rw [qentry_dequeue]
        split
        · rw [times_vacate]
          omega
        · exact le_rfl
      refine ⟨(same_dequeue k i c chan).trans h.same, fun c' x => le_trans (h.le c' x) (hle c' x), fun c' j b hj hopb hb hone => ?_⟩
      cases j with
      | zero =>
        obtain rfl := Option.some.inj hj
        have hcc : c' = c := Option.some.inj (hb.symm.trans hc)
        rw [Nat.add_zero] at hone ⊢
        have hz := h.le c' (k, i)
        rw [qentry_dequeue, if_pos hcc, times_vacate, if_pos rfl] at hz
        omega
      | succ j =>
        have hz := h.gone c' j b hj hopb hb
        rw [show i + 1 + j = i + (j + 1) by omega] at hz
        exact hz (le_trans (hle c' _) hone)
    · have hskip : (if a.op ≠ .CHANNOP then (a.c.map fun c => dequeue k i c chan).getD chan else chan) = chan := by
        split
        · rename_i hop
          cases hc : a.c with
          | none => rfl
          | some c => exact absurd ⟨c, hc, hop⟩ hput
        · rfl
      rw [hskip]
      have h := ih (i + 1) chan
      refine ⟨h.same, h.le, fun c' j b hj hopb hb hone => ?_⟩
      cases j with
      | zero =>
        obtain rfl := Option.some.inj hj
        exact absurd ⟨c', hb, hopb⟩ hput
      | succ j =>
        have hz := h.gone c' j b hj hopb hb
        rw [show i + 1 + j = i + (j + 1) by omega] at hz
        exact hz hone

end Queues

end Petele.Thread
