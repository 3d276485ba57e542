import Petele.Qlock.Qlock

set_option linter.unusedSectionVars false

namespace Petele.Qlock

open Lib

variable {P K R L : Type} [DecidableEq P] [DecidableEq K] [DecidableEq R]

section Queues

variable {proc : P → Proc P L} {ends : L → Ends P} {l : L → List P}

/-- The process is queued for the lock and has not been woken. -/
def Waits (proc : P → Proc P L) (i : L) (p : P) : Prop :=
  (proc p).call = some i ∧ (proc p).state ≠ .Ready

/-- Every queue is well formed and holds just the processes that wait for its lock. -/
structure Queues (proc : P → Proc P L) (ends : L → Ends P) (l : L → List P) : Prop where
  fifo : ∀ i, Fifo (fun p => (proc p).qnext) (ends i) (l i)
  mem : ∀ i p, p ∈ l i ↔ Waits proc i p
  idle : ∀ p, (proc p).call = none ↔ (proc p).state = .Running

theorem Queues.disjoint (h : Queues proc ends l) {i j : L} {p : P} (hi : p ∈ l i) (hj : p ∈ l j) : i = j := by
  have hi' := ((h.mem i p).mp hi).1
  have hj' := ((h.mem j p).mp hj).1
  rw [hi'] at hj'
  exact Option.some.inj hj'

theorem Queues.not_mem (h : Queues proc ends l) {p : P} (hp : (proc p).state = .Running) (i : L) : p ∉ l i := by
  intro hmem
  have hcall := ((h.mem i p).mp hmem).1
  rw [(h.idle p).mpr hp] at hcall
  cases hcall

variable (proc) in
theorem wait_qnext (e : Ends P) (up : P) (st : Pstate) (i : L) :
    (fun p => ((wait proc e up st i).1 p).qnext) =
      Function.update (match e.tail with
        | none => fun p => (proc p).qnext
        | some p => Function.update (fun p => (proc p).qnext) p (some up)) up none := by
  funext x
  rcases eq_or_ne x up with rfl | hx
  · simp only [wait, Function.update_self]
  · simp only [wait, Function.update_of_ne hx]
    cases e.tail with
    | none => rfl
    | some p =>
      rcases eq_or_ne x p with rfl | hp
      · simp only [Function.update_self]
      · simp only [Function.update_of_ne hp]

theorem wait_ends (e : Ends P) (up : P) (st : Pstate) (i : L) :
    (wait proc e up st i).2 = ⟨if e.tail = none then some up else e.head, some up⟩ := rfl

theorem wait_self (e : Ends P) (up : P) (st : Pstate) (i : L) :
    (wait proc e up st i).1 up = ⟨none, st, some i⟩ := Function.update_self _ _ _

variable (proc) in
theorem wait_other (e : Ends P) {up p : P} (st : Pstate) (i : L) (hp : p ≠ up) :
    ((wait proc e up st i).1 p).state = (proc p).state ∧ ((wait proc e up st i).1 p).call = (proc p).call := by
  simp only [wait, Function.update_of_ne hp]
  cases e.tail with
  | none => exact ⟨rfl, rfl⟩
  | some x =>
    rcases eq_or_ne p x with rfl | hx
    · simp only [Function.update_self, and_self]
    · simp only [Function.update_of_ne hx, and_self]

/-- The links of a queue that is not the one a process joins. -/
theorem wait_links_other (h : Queues proc ends l) {i j : L} (hij : j ≠ i) {up : P} (hup : (proc up).state = .Running)
    (st : Pstate) : ∀ x ∈ l j, ((wait proc (ends i) up st i).1 x).qnext = (proc x).qnext := by
  intro x hx
  have hne : x ≠ up := by
    intro heq
    rw [heq] at hx
    exact h.not_mem hup j hx
  have heq := congrFun (wait_qnext proc (ends i) up st i) x
  rw [Function.update_of_ne hne] at heq
  rw [heq]
  cases htail : (ends i).tail with
  | none => rfl
  | some y =>
    have hy : y ∈ l i := by
      rw [(h.fifo i).tail] at htail
      exact List.mem_of_getLast? htail
    have hxy : x ≠ y := by
      intro heq
      rw [heq] at hx
      exact hij (h.disjoint hx hy)
    simp only [Function.update_of_ne hxy]

theorem ready_qnext (p : P) : (fun x => (ready proc p x).qnext) = fun x => (proc x).qnext := by
  funext x
  rcases eq_or_ne x p with rfl | hx
  · simp only [ready, Function.update_self]
  · simp only [ready, Function.update_of_ne hx]

variable [DecidableEq L]

theorem Queues.wait (h : Queues proc ends l) {up : P} (hup : (proc up).state = .Running) {st : Pstate}
    (hst : st ≠ .Ready ∧ st ≠ .Running) (i : L) :
    Queues (wait proc (ends i) up st i).1 (Function.update ends i (wait proc (ends i) up st i).2)
      (Function.update l i (l i ++ [up])) := by
  refine ⟨fun j => ?_, fun j p => ?_, fun p => ?_⟩
  · rcases eq_or_ne j i with rfl | hij
    · rw [Function.update_self, Function.update_self, wait_qnext]
      have hfree : Fifo (Function.update (fun p => (proc p).qnext) up none) (ends j) (l j) := by
        apply (h.fifo j).frame
        intro x hx
        apply Function.update_of_ne
        intro heq
        rw [heq] at hx
        exact h.not_mem hup j hx
      have hpush := hfree.push (h.not_mem hup j) (Function.update_self _ _ _)
      rw [wait_ends]
      cases htail : (ends j).tail with
      | none =>
        rw [htail] at hpush
        exact hpush
      | some y =>
        have hy : up ≠ y := by
          intro heq
          rw [(h.fifo j).tail, ← heq] at htail
          exact h.not_mem hup j (List.mem_of_getLast? htail)
        rw [htail] at hpush
        simp only [Function.update_comm hy] at hpush
        exact hpush
    · rw [Function.update_of_ne hij, Function.update_of_ne hij]
      exact (h.fifo j).frame (wait_links_other h hij hup st)
  · rcases eq_or_ne p up with rfl | hp
    · have hself : Waits (Qlock.wait proc (ends i) p st i).1 j p ↔ i = j := by
        rw [Waits, wait_self]
        simp [hst.1]
      rw [hself]
      rcases eq_or_ne j i with rfl | hij
      · simp
      · rw [Function.update_of_ne hij]
        exact ⟨fun hmem => absurd hmem (h.not_mem hup j), fun heq => absurd heq.symm hij⟩
    · have hsame : Waits (Qlock.wait proc (ends i) up st i).1 j p ↔ Waits proc j p := by
        obtain ⟨hs, hc⟩ := wait_other proc (ends i) st i hp
        rw [Waits, Waits, hs, hc]
      rw [hsame, ← h.mem]
      rcases eq_or_ne j i with rfl | hij
      · rw [Function.update_self, List.mem_append, List.mem_singleton]
        exact or_iff_left hp
      · rw [Function.update_of_ne hij]
  · rcases eq_or_ne p up with rfl | hp
    · rw [wait_self]
      exact ⟨(fun hc => nomatch hc), fun hs => absurd hs hst.2⟩
    · obtain ⟨hs, hc⟩ := wait_other proc (ends i) st i hp
      rw [hs, hc]
      exact h.idle p

theorem Queues.ready (h : Queues proc ends l) {i : L} {p : P} {t : List P} (hl : l i = p :: t) :
    Queues (ready proc p) (Function.update ends i (unlink proc (ends i) p)) (Function.update l i t) := by
  have hfirst : Fifo (fun x => (proc x).qnext) (ends i) (p :: t) := by
    rw [← hl]
    exact h.fifo i
  have hp : p ∈ l i := by
    rw [hl]
    exact List.mem_cons_self
  have hcall := ((h.mem i p).mp hp).1
  refine ⟨fun j => ?_, fun j x => ?_, fun x => ?_⟩
  · rw [ready_qnext]
    rcases eq_or_ne j i with rfl | hij
    · rw [Function.update_self, Function.update_self]
      exact hfirst.pop
    · rw [Function.update_of_ne hij, Function.update_of_ne hij]
      exact h.fifo j
  · rcases eq_or_ne x p with rfl | hx
    · have hself : ¬ Waits (Qlock.ready proc x) j x := by
        rw [Waits, Qlock.ready, Function.update_self]
        exact fun hw => hw.2 rfl
      refine ⟨fun hmem => ?_, fun hw => absurd hw hself⟩
      rcases eq_or_ne j i with rfl | hij
      · rw [Function.update_self] at hmem
        exact absurd hmem (List.nodup_cons.mp hfirst.links.nodup).1
      · rw [Function.update_of_ne hij] at hmem
        exact absurd (h.disjoint hmem hp) hij
    · have hsame : Waits (Qlock.ready proc p) j x ↔ Waits proc j x := by
        rw [Waits, Waits, Qlock.ready, Function.update_of_ne hx]
      rw [hsame, ← h.mem]
      rcases eq_or_ne j i with rfl | hij
      · rw [Function.update_self, hl, List.mem_cons]
        exact (or_iff_right hx).symm
      · rw [Function.update_of_ne hij]
  · rcases eq_or_ne x p with rfl | hx
    · rw [Qlock.ready, Function.update_self]
      rw [hcall]
      exact ⟨(fun hc => nomatch hc), (fun hs => nomatch hs)⟩
    · rw [Qlock.ready, Function.update_of_ne hx]
      exact h.idle x

/-- A process that was woken runs. -/
theorem Queues.sched (h : Queues proc ends l) {up : P} (hup : (proc up).state = .Ready) :
    Queues (Function.update proc up { proc up with state := .Running, call := none }) ends l := by
  have hnot : ∀ i, up ∉ l i := fun i hmem => ((h.mem i up).mp hmem).2 hup
  refine ⟨fun i => ?_, fun i p => ?_, fun p => ?_⟩
  · apply (h.fifo i).frame
    intro p hp
    have hne : p ≠ up := by
      intro heq
      rw [heq] at hp
      exact hnot i hp
    rw [Function.update_of_ne hne]
  · rcases eq_or_ne p up with rfl | hp
    · refine ⟨fun hmem => absurd hmem (hnot i), fun hw => ?_⟩
      rw [Waits, Function.update_self] at hw
      cases hw.1
    · rw [h.mem, Waits, Waits, Function.update_of_ne hp]
  · rcases eq_or_ne p up with rfl | hp
    · rw [Function.update_self]
      exact ⟨fun _ => rfl, fun _ => rfl⟩
    · rw [Function.update_of_ne hp]
      exact h.idle p

theorem Queues.head (h : Queues proc ends l) (i : L) : (ends i).head = (l i).head? := by
  have hlinks := (h.fifo i).links
  cases hl : l i with
  | nil =>
    rw [hl] at hlinks
    exact hlinks
  | cons x t =>
    rw [hl] at hlinks
    exact hlinks.1

theorem Queues.ends_eq (h : Queues proc ends l) (i : L) :
    (⟨(l i).head?, if (l i).head? = none then none else (ends i).tail⟩ : Ends P) = ends i := by
  have htail := (h.fifo i).tail
  have hhead := h.head i
  cases hl : l i with
  | nil =>
    rw [hl] at htail hhead
    rw [List.head?_nil, if_pos rfl]
    exact (congrArg₂ Ends.mk hhead htail).symm
  | cons x t =>
    rw [hl, List.head?_cons] at hhead
    rw [List.head?_cons, if_neg (Option.some_ne_none x), ← hhead]

theorem wakeloop_none (fuel : ℕ) (woken : List P) : wakeloop fuel proc none woken = some (proc, none, woken) := by
  cases fuel <;> rfl

theorem wakeloop_stop {p : P} (hp : (proc p).state ≠ .QueueingR) (fuel : ℕ) (woken : List P) :
    wakeloop fuel proc (some p) woken = some (proc, some p, woken) := by
  cases fuel <;> exact if_neg hp

theorem wakeloop_wake {p : P} (hp : (proc p).state = .QueueingR) (fuel : ℕ) (woken : List P) :
    wakeloop (fuel + 1) proc (some p) woken = wakeloop fuel (ready proc p) (proc p).qnext (woken ++ [p]) :=
  if_pos hp

/-- The loop wakes the readers `ps` at the head of the queue and stops before `t`. -/
theorem Queues.wakeloop {ps t : List P} (h : Queues proc ends l) {i : L} (hl : l i = ps ++ t)
    (hps : ∀ p ∈ ps, (proc p).state = .QueueingR) (ht : ∀ p ∈ t.head?, (proc p).state ≠ .QueueingR)
    {fuel : ℕ} (hfuel : ps.length ≤ fuel) (woken : List P) :
    ∃ proc', wakeloop fuel proc (ends i).head woken = some (proc', t.head?, woken ++ ps) ∧
      Queues proc' (Function.update ends i ⟨t.head?, if t.head? = none then none else (ends i).tail⟩)
        (Function.update l i t) ∧ ∀ p ∉ ps, proc' p = proc p := by
  induction ps generalizing proc ends l fuel woken with
  | nil =>
    have hl' : l i = t := hl
    refine ⟨proc, ?_, ?_, fun p _ => rfl⟩
    · rw [h.head i, hl', List.append_nil]
      cases t with
      | nil => exact wakeloop_none fuel woken
      | cons x t => exact wakeloop_stop (ht x rfl) fuel woken
    · rw [← hl', h.ends_eq i, Function.update_eq_self, Function.update_eq_self]
      exact h
  | cons p ps ih =>
    have hr := hps p List.mem_cons_self
    have hnodup : (p :: (ps ++ t)).Nodup := by
      rw [← List.cons_append, ← hl]
      exact (h.fifo i).links.nodup
    have hp : p ∉ ps ++ t := (List.nodup_cons.mp hnodup).1
    have hother : ∀ x ∈ ps ++ t, Qlock.ready proc p x = proc x := by
      intro x hx
      apply Function.update_of_ne
      intro heq
      rw [heq] at hx
      exact hp hx
    have hready := h.ready hl
    obtain ⟨fuel, rfl⟩ : ∃ f, fuel = f + 1 := ⟨fuel - 1, by simp only [List.length_cons] at hfuel; omega⟩
    obtain ⟨proc', hrun, hq, hframe⟩ := ih hready (Function.update_self _ _ _)
      (fun x hx => by
        rw [hother x (List.mem_append_left _ hx)]
        exact hps x (List.mem_cons_of_mem _ hx))
      (fun x hx => by
        rw [hother x (List.mem_append_right _ (List.mem_of_mem_head? hx))]
        exact ht x hx)
      (Nat.le_of_succ_le_succ hfuel) (woken ++ [p])
    refine ⟨proc', ?_, ?_, fun x hx => ?_⟩
    · rw [h.head i, hl, List.cons_append, List.head?_cons, wakeloop_wake hr]
      rw [Function.update_self, unlink] at hrun
      rw [hrun, List.append_assoc, List.singleton_append]
    · rw [Function.update_idem, Function.update_idem, Function.update_self] at hq
      have htail : (if t.head? = none then none else (unlink proc (ends i) p).tail) =
          if t.head? = none then none else (ends i).tail := by
        cases t with
        | nil => rfl
        | cons x t =>
          have hnext := (hready.fifo i).nil_iff
          rw [Function.update_self, Function.update_self] at hnext
          have hne : (proc p).qnext ≠ none := fun hnone => by simpa using hnext.mp hnone
          rw [unlink, if_neg hne]
      rw [htail] at hq
      exact hq
    · rw [hframe x fun hmem => hx (List.mem_cons_of_mem _ hmem)]
      apply Function.update_of_ne
      intro heq
      exact hx (by rw [heq]; exact List.mem_cons_self)

end Queues

section Invariant

/-- The queue `l` of a lock that one process may hold. -/
structure QOk (q : QLock P) (g : Log P) (l : List P) : Prop where
  count : g.held.length = if q.locked then 1 else 0
  free : q.locked = false → l = []
  order : g.asked = g.granted ++ l

/-- The queue `l` of a lock that one writer or some readers may hold. -/
structure RWOk (proc : P → Proc P L) (q : RWlock P) (g : Log P) (l : List P) : Prop where
  readers : q.readers = g.readers.length
  writer : q.writer = g.held.length
  one : g.held.length ≤ 1
  apart : g.held = [] ∨ g.readers = []
  free : g.held = [] → g.readers = [] → l = []
  /-- Readers hold off no reader: the first that waits for them is a writer. -/
  first : g.readers ≠ [] → ∀ p ∈ l.head?, (proc p).state = .QueueingW
  kind : ∀ p ∈ l, (proc p).state = .QueueingR ∨ (proc p).state = .QueueingW
  order : g.asked = g.granted ++ l

def Sys.ends (s : Sys P K R) : K ⊕ R → Ends P
  | .inl k => (s.q k).toEnds
  | .inr r => (s.rw r).toEnds

structure Inv (s : Sys P K R) (l : K ⊕ R → List P) : Prop where
  queues : Queues s.proc s.ends l
  q : ∀ k, QOk (s.q k) (s.log (.inl k)) (l (.inl k))
  rw : ∀ r, RWOk s.proc (s.rw r) (s.log (.inr r)) (l (.inr r))

theorem RWOk.frame {proc proc' : P → Proc P L} {q : RWlock P} {g : Log P} {l : List P} (h : RWOk proc q g l)
    (hstate : ∀ p ∈ l, (proc' p).state = (proc p).state) : RWOk proc' q g l where
  readers := h.readers
  writer := h.writer
  one := h.one
  apart := h.apart
  free := h.free
  order := h.order
  first hne p hp := by
    rw [hstate p (List.mem_of_mem_head? hp)]
    exact h.first hne p hp
  kind p hp := by
    rw [hstate p hp]
    exact h.kind p hp

variable {s : Sys P K R} {l : K ⊕ R → List P}

/-- A call changes one lock of the first kind, and no process that waits for another. -/
theorem Inv.set_q (h : Inv s l) {k : K} {proc : P → Proc P (K ⊕ R)} {q : QLock P} {g : Log P} {t : List P}
    (hq : Queues proc (Function.update s.ends (.inl k) q.toEnds) (Function.update l (.inl k) t))
    (hstate : ∀ r, ∀ p ∈ l (.inr r), (proc p).state = (s.proc p).state) (hok : QOk q g t) :
    Inv { s with proc := proc, q := Function.update s.q k q, log := Function.update s.log (.inl k) g }
      (Function.update l (.inl k) t) := by
  refine ⟨?_, fun k' => ?_, fun r => ?_⟩
  · have hends : Sys.ends { s with proc := proc, q := Function.update s.q k q, log := Function.update s.log (.inl k) g } =
        Function.update s.ends (.inl k) q.toEnds := by
      funext i
      rcases i with k' | r
      · rcases eq_or_ne k' k with rfl | hk
        · simp only [Sys.ends, Function.update_self]
        · rw [Function.update_of_ne (fun heq => hk (Sum.inl.inj heq))]
          simp only [Sys.ends, Function.update_of_ne hk]
      · rw [Function.update_of_ne Sum.inr_ne_inl]
        rfl
    rw [hends]
    exact hq
  · rcases eq_or_ne k' k with rfl | hk
    · simpa only [Function.update_self] using hok
    · have hne : (Sum.inl k' : K ⊕ R) ≠ .inl k := fun heq => hk (Sum.inl.inj heq)
      simpa only [Function.update_of_ne hk, Function.update_of_ne hne] using h.q k'
  · simp only [Function.update_of_ne (Sum.inr_ne_inl (a := k) (b := r))]
    exact (h.rw r).frame (hstate r)

theorem Inv.set_rw (h : Inv s l) {r : R} {proc : P → Proc P (K ⊕ R)} {q : RWlock P} {g : Log P} {t : List P}
    (hq : Queues proc (Function.update s.ends (.inr r) q.toEnds) (Function.update l (.inr r) t))
    (hstate : ∀ r' ≠ r, ∀ p ∈ l (.inr r'), (proc p).state = (s.proc p).state) (hok : RWOk proc q g t) :
    Inv { s with proc := proc, rw := Function.update s.rw r q, log := Function.update s.log (.inr r) g }
      (Function.update l (.inr r) t) := by
  refine ⟨?_, fun k => ?_, fun r' => ?_⟩
  · have hends : Sys.ends { s with proc := proc, rw := Function.update s.rw r q, log := Function.update s.log (.inr r) g } =
        Function.update s.ends (.inr r) q.toEnds := by
      funext i
      rcases i with k | r'
      · rw [Function.update_of_ne Sum.inl_ne_inr]
        rfl
      · rcases eq_or_ne r' r with rfl | hr
        · simp only [Sys.ends, Function.update_self]
        · rw [Function.update_of_ne (fun heq => hr (Sum.inr.inj heq))]
          simp only [Sys.ends, Function.update_of_ne hr]
    rw [hends]
    exact hq
  · simp only [Function.update_of_ne (Sum.inl_ne_inr (a := k) (b := r))]
    exact h.q k
  · rcases eq_or_ne r' r with rfl | hr
    · simpa only [Function.update_self] using hok
    · have hne : (Sum.inr r' : K ⊕ R) ≠ .inr r := fun heq => hr (Sum.inr.inj heq)
      simp only [Function.update_of_ne hr, Function.update_of_ne hne]
      exact (h.rw r').frame (hstate r' hr)

theorem Inv.same (h : Inv s l) (i : K ⊕ R) :
    Queues s.proc (Function.update s.ends i (s.ends i)) (Function.update l i (l i)) := by
  rw [Function.update_eq_self, Function.update_eq_self]
  exact h.queues

theorem Inv.wait_state (h : Inv s l) {up : P} (hup : (s.proc up).state = .Running) (e : Ends P) (st : Pstate)
    (i j : K ⊕ R) : ∀ p ∈ l j, ((wait s.proc e up st i).1 p).state = (s.proc p).state := by
  intro p hp
  have hne : p ≠ up := by
    intro heq
    rw [heq] at hp
    exact h.queues.not_mem hup j hp
  exact (wait_other _ e st i hne).1

theorem Inv.ready_state (h : Inv s l) {i : K ⊕ R} {p : P} {t : List P} (hl : l i = p :: t) :
    (∀ j ≠ i, ∀ x ∈ l j, (ready s.proc p x).state = (s.proc x).state) ∧
      ∀ x ∈ t, (ready s.proc p x).state = (s.proc x).state := by
  have hp : p ∈ l i := by
    rw [hl]
    exact List.mem_cons_self
  have hother : ∀ x, x ≠ p → (ready s.proc p x).state = (s.proc x).state := by
    intro x hx
    rw [ready, Function.update_of_ne hx]
  refine ⟨fun j hj x hx => hother x ?_, fun x hx => hother x ?_⟩
  · intro heq
    rw [heq] at hx
    exact hj (h.queues.disjoint hx hp)
  · intro heq
    have hnodup := (h.queues.fifo i).links.nodup
    rw [hl, ← heq] at hnodup
    exact (List.nodup_cons.mp hnodup).1 hx

end Invariant

section Steps

variable {s : Sys P K R} {l : K ⊕ R → List P} {up : P}

theorem QOk.take {q : QLock P} {g : Log P} {t : List P} (h : QOk q g t) (hfree : q.locked = false) (up : P) :
    QOk { q with locked := true } { g with held := up :: g.held } t where
  count := by
    have hcount := h.count
    rw [hfree] at hcount
    simpa using hcount
  free hlocked := nomatch hlocked
  order := h.order

theorem QOk.join {q : QLock P} {g : Log P} {t : List P} (h : QOk q g t) (hlocked : q.locked = true) (e : Ends P) (up : P) :
    QOk { q with toEnds := e } { g with asked := g.asked ++ [up] } (t ++ [up]) where
  count := h.count
  free hfree := by
    rw [hlocked] at hfree
    cases hfree
  order := by
    rw [h.order, List.append_assoc]

theorem qlock_inv (h : Inv s l) (hup : (s.proc up).state = .Running) (k : K) : ∃ l', Inv (qlock s up k) l' := by
  cases hlocked : (s.q k).locked with
  | false =>
    rw [qlock, if_pos hlocked]
    exact ⟨_, h.set_q (h.same (.inl k)) (fun r p _ => rfl) ((h.q k).take hlocked up)⟩
  | true =>
    rw [qlock, if_neg (by rw [hlocked]; exact Bool.true_eq_false_eq_False)]
    refine ⟨_, h.set_q (h.queues.wait hup (show Pstate.Queueing ≠ .Ready ∧ Pstate.Queueing ≠ .Running by decide) (.inl k)) (fun r => h.wait_state hup _ _ _ _)
      ((h.q k).join hlocked _ up)⟩

theorem canqlock_inv (h : Inv s l) (k : K) (got : Bool) : ∃ l', Inv (canqlock s up k got) l' := by
  cases got with
  | false => exact ⟨l, h⟩
  | true =>
    cases hlocked : (s.q k).locked with
    | true =>
      simp only [canqlock, hlocked, Bool.true_eq_false, if_false, if_true]
      exact ⟨l, h⟩
    | false =>
      simp only [canqlock, hlocked, Bool.true_eq_false, Bool.false_eq_true, if_false]
      exact ⟨_, h.set_q (h.same (.inl k)) (fun r p _ => rfl) ((h.q k).take hlocked up)⟩

theorem qunlock_inv (h : Inv s l) (k : K) (hheld : up ∈ (s.log (.inl k)).held) : ∃ l', Inv (qunlock s up k) l' := by
  have hk := h.q k
  have hhead := h.queues.head (.inl k)
  have hlocked : (s.q k).locked = true := by
    by_contra hfree
    have hcount := hk.count
    rw [if_neg hfree] at hcount
    rw [List.length_eq_zero_iff.mp hcount] at hheld
    cases hheld
  have hcount : (s.log (.inl k)).held.length = 1 := by
    rw [hk.count, if_pos hlocked]
  cases hl : l (.inl k) with
  | nil =>
    rw [hl] at hhead
    have hnone : (s.q k).head = none := hhead
    simp only [qunlock, hnone]
    refine ⟨_, h.set_q (h.same (.inl k)) (fun r p _ => rfl) ?_⟩
    refine ⟨?_, fun _ => hl, hk.order⟩
    rw [List.length_erase_of_mem hheld, hcount]
    rfl
  | cons p t =>
    rw [hl] at hhead
    have hsome : (s.q k).head = some p := hhead
    simp only [qunlock, hsome]
    refine ⟨_, h.set_q (h.queues.ready hl) (fun r => (h.ready_state hl).1 _ Sum.inr_ne_inl) ?_⟩
    refine ⟨?_, fun hfree => ?_, ?_⟩
    · rw [List.length_cons, List.length_erase_of_mem hheld, hcount, if_pos hlocked]
    · rw [hlocked] at hfree
      cases hfree
    · rw [hk.order, hl, List.append_assoc, List.singleton_append]

theorem RWOk.held_nil {proc : P → Proc P L} {q : RWlock P} {g : Log P} {t : List P} (h : RWOk proc q g t)
    (hwriter : q.writer = 0) : g.held = [] := by
  have hlen := h.writer
  rw [hwriter] at hlen
  exact List.length_eq_zero_iff.mp (by omega)

theorem RWOk.readers_nil {proc : P → Proc P L} {q : RWlock P} {g : Log P} {t : List P} (h : RWOk proc q g t)
    (hreaders : q.readers = 0) : g.readers = [] := by
  have hlen := h.readers
  rw [hreaders] at hlen
  exact List.length_eq_zero_iff.mp (by omega)

/-- A reader takes a lock with no writer and no queue. -/
theorem RWOk.read {proc : P → Proc P L} {q : RWlock P} {g : Log P} (h : RWOk proc q g [])
    (hwriter : q.writer = 0) (up : P) :
    RWOk proc { q with readers := q.readers + 1 } { g with readers := up :: g.readers } [] where
  readers := by
    rw [h.readers, List.length_cons]
    rfl
  writer := h.writer
  one := h.one
  apart := Or.inl (h.held_nil hwriter)
  free _ _ := rfl
  first _ p hp := nomatch hp
  kind p hp := nomatch hp
  order := h.order

/-- A process joins the queue of a lock that is held. -/
theorem RWOk.join {proc proc' : P → Proc P L} {q : RWlock P} {g : Log P} {t : List P} (h : RWOk proc q g t)
    (e : Ends P) (hstate : ∀ p ∈ t, (proc' p).state = (proc p).state) (hbusy : g.held ≠ [] ∨ g.readers ≠ [])
    (hup : (proc' up).state = .QueueingW ∨ (proc' up).state = .QueueingR ∧ (g.readers = [] ∨ t ≠ [])) :
    RWOk proc' { q with toEnds := e } { g with asked := g.asked ++ [up] } (t ++ [up]) where
  readers := h.readers
  writer := h.writer
  one := h.one
  apart := h.apart
  free hheld hreaders := by
    rcases hbusy with hne | hne
    · exact absurd hheld hne
    · exact absurd hreaders hne
  first hne p hp := by
    cases t with
    | nil =>
      obtain rfl : up = p := Option.some.inj hp
      rcases hup with hw | ⟨-, hnil | hcons⟩
      · exact hw
      · exact absurd hnil hne
      · exact absurd rfl hcons
    | cons x t =>
      obtain rfl : x = p := Option.some.inj hp
      rw [hstate x List.mem_cons_self]
      exact h.first hne x rfl
  kind p hp := by
    rcases List.mem_append.mp hp with hmem | hmem
    · rw [hstate p hmem]
      exact h.kind p hmem
    · rw [List.mem_singleton.mp hmem]
      rcases hup with hw | ⟨hr, -⟩
      · exact Or.inr hw
      · exact Or.inl hr
  order := by
    rw [h.order, List.append_assoc]

theorem Inv.rw_head_none (h : Inv s l) {r : R} (hnone : (s.rw r).head = none) : l (.inr r) = [] :=
  (h.queues.fifo (.inr r)).nil_iff.mp hnone

theorem rlock_inv (h : Inv s l) (hup : (s.proc up).state = .Running) (r : R) : ∃ l', Inv (rlock s up r) l' := by
  have hr := h.rw r
  by_cases hfree : (s.rw r).writer = 0 ∧ (s.rw r).head = none
  · rw [rlock, if_pos hfree]
    have hl := h.rw_head_none hfree.2
    rw [hl] at hr
    refine ⟨_, h.set_rw (h.same (.inr r)) (fun r' _ p _ => rfl) ?_⟩
    rw [hl]
    exact hr.read hfree.1 up
  · rw [rlock, if_neg hfree]
    have hbusy : (s.log (.inr r)).held ≠ [] ∨ l (.inr r) ≠ [] := by
      by_contra hnot
      rw [not_or, not_not, not_not] at hnot
      apply hfree
      refine ⟨?_, (h.queues.fifo (.inr r)).nil_iff.mpr hnot.2⟩
      rw [hr.writer, hnot.1]
      rfl
    refine ⟨_, h.set_rw (h.queues.wait hup (show Pstate.QueueingR ≠ .Ready ∧ Pstate.QueueingR ≠ .Running by decide) (.inr r))
      (fun r' _ => h.wait_state hup _ _ _ _) (hr.join _ (h.wait_state hup _ _ _ _) ?_ (Or.inr ⟨?_, ?_⟩))⟩
    · by_contra hnot
      rw [not_or, not_not, not_not] at hnot
      rcases hbusy with hne | hne
      · exact hne hnot.1
      · exact hne (hr.free hnot.1 hnot.2)
    · rw [wait_self]
    · rcases hbusy with hne | hne
      · exact Or.inl (hr.apart.resolve_left hne)
      · exact Or.inr hne

theorem canrlock_inv (h : Inv s l) (r : R) : ∃ l', Inv (canrlock s up r) l' := by
  by_cases hfree : (s.rw r).writer = 0 ∧ (s.rw r).head = none
  · rw [canrlock, if_pos hfree]
    have hr := h.rw r
    have hl := h.rw_head_none hfree.2
    rw [hl] at hr
    refine ⟨_, h.set_rw (h.same (.inr r)) (fun r' _ p _ => rfl) ?_⟩
    rw [hl]
    exact hr.read hfree.1 up
  · rw [canrlock, if_neg hfree]
    exact ⟨l, h⟩

theorem wlock_inv (h : Inv s l) (hup : (s.proc up).state = .Running) (r : R) : ∃ l', Inv (wlock s up r) l' := by
  have hr := h.rw r
  by_cases hfree : (s.rw r).readers = 0 ∧ (s.rw r).writer = 0
  · rw [wlock, if_pos hfree]
    have hheld := hr.held_nil hfree.2
    have hreaders := hr.readers_nil hfree.1
    have hl := hr.free hheld hreaders
    refine ⟨_, h.set_rw (h.same (.inr r)) (fun r' _ p _ => rfl) ?_⟩
    beta_reduce
    refine ⟨hr.readers, ?_, ?_, Or.inr hreaders, (fun hne => nomatch hne), fun hne => absurd hreaders hne, hr.kind, hr.order⟩
    · rw [hheld]
      rfl
    · rw [hheld]
      exact le_rfl
  · rw [wlock, if_neg hfree]
    refine ⟨_, h.set_rw (h.queues.wait hup (show Pstate.QueueingW ≠ .Ready ∧ Pstate.QueueingW ≠ .Running by decide) (.inr r))
      (fun r' _ => h.wait_state hup _ _ _ _) (hr.join _ (h.wait_state hup _ _ _ _) ?_ (Or.inl ?_))⟩
    · by_contra hnot
      rw [not_or, not_not, not_not] at hnot
      apply hfree
      rw [hr.readers, hr.writer, hnot.1, hnot.2]
      exact ⟨rfl, rfl⟩
    · rw [wait_self]

theorem runlock_inv (h : Inv s l) (r : R) (hheld : up ∈ (s.log (.inr r)).readers) :
    ∃ s' l', runlock s up r = some s' ∧ Inv s' l' := by
  have hr := h.rw r
  have hhead := h.queues.head (.inr r)
  have hne : (s.log (.inr r)).readers ≠ [] := List.ne_nil_of_mem hheld
  have hnil : (s.log (.inr r)).held = [] := hr.apart.resolve_right hne
  have hpos := List.length_pos_of_mem hheld
  have hlen : (((s.log (.inr r)).readers.erase up).length : ℤ) = (s.rw r).readers - 1 := by
    rw [List.length_erase_of_mem hheld, hr.readers]
    omega
  cases hl : l (.inr r) with
  | nil =>
    rw [hl] at hhead
    have hnone : (s.rw r).head = none := hhead
    simp only [runlock, hnone]
    refine ⟨_, _, rfl, h.set_rw (h.same (.inr r)) (fun r' _ p _ => rfl) ?_⟩
    beta_reduce
    rw [hl] at hr ⊢
    exact ⟨hlen.symm, hr.writer, hr.one, Or.inl hnil, fun _ _ => rfl, (fun _ p hp => nomatch hp), hr.kind, hr.order⟩
  | cons p t =>
    rw [hl] at hhead hr
    have hsome : (s.rw r).head = some p := hhead
    by_cases hmore : (s.rw r).readers - 1 > 0
    · simp only [runlock, hsome, if_pos hmore]
      refine ⟨_, _, rfl, h.set_rw (h.same (.inr r)) (fun r' _ p _ => rfl) ?_⟩
      beta_reduce
      rw [hl]
      refine ⟨hlen.symm, hr.writer, hr.one, Or.inl hnil, fun _ hz => ?_, fun _ => hr.first hne, hr.kind, hr.order⟩
      have hz' := congrArg List.length hz
      simp only [List.length_nil] at hz'
      omega
    · have hw : (s.proc p).state = .QueueingW := hr.first hne p rfl
      have hz : (s.log (.inr r)).readers.erase up = [] := List.length_eq_zero_iff.mp (by omega)
      simp only [runlock, hsome, if_neg hmore, hw, ne_eq, not_true_eq_false, if_false]
      refine ⟨_, _, rfl, h.set_rw (h.queues.ready hl) (fun r' hr' => (h.ready_state hl).1 _ (fun heq => hr' (Sum.inr.inj heq))) ?_⟩
      beta_reduce
      refine ⟨hlen.symm, ?_, ?_, Or.inr hz, (fun hc => nomatch hc), fun hc => absurd hz hc, fun x hx => ?_, ?_⟩
      · rw [hnil]
        rfl
      · rw [hnil]
        exact le_rfl
      · rw [(h.ready_state hl).2 x hx]
        exact hr.kind x (List.mem_cons_of_mem _ hx)
      · rw [hr.order, List.append_assoc, List.singleton_append]

/-- The readers that come first in a queue, and the rest. -/
theorem split_readers (proc : P → Proc P L) (t : List P) : ∃ ps t', t = ps ++ t' ∧
    (∀ p ∈ ps, (proc p).state = .QueueingR) ∧ ∀ p ∈ t'.head?, (proc p).state ≠ .QueueingR := by
  induction t with
  | nil => exact ⟨[], [], rfl, (fun p hp => nomatch hp), (fun p hp => nomatch hp)⟩
  | cons x t ih =>
    by_cases hx : (proc x).state = .QueueingR
    · obtain ⟨ps, t', rfl, hps, ht'⟩ := ih
      refine ⟨x :: ps, t', rfl, fun p hp => ?_, ht'⟩
      rcases List.mem_cons.mp hp with rfl | hmem
      · exact hx
      · exact hps p hmem
    · refine ⟨[], x :: t, rfl, (fun p hp => nomatch hp), fun p hp => ?_⟩
      obtain rfl : x = p := Option.some.inj hp
      exact hx

theorem wunlock_inv [Fintype P] (h : Inv s l) (r : R) (hheld : up ∈ (s.log (.inr r)).held) :
    ∃ s' l', wunlock s up r = some s' ∧ Inv s' l' := by
  have hr := h.rw r
  have hhead := h.queues.head (.inr r)
  have hne : (s.log (.inr r)).held ≠ [] := List.ne_nil_of_mem hheld
  have hnil : (s.log (.inr r)).readers = [] := hr.apart.resolve_left hne
  have hone : (s.log (.inr r)).held.length = 1 := by
    have hpos := List.length_pos_of_mem hheld
    have hle := hr.one
    omega
  have hz : (s.log (.inr r)).held.erase up = [] := by
    apply List.length_eq_zero_iff.mp
    rw [List.length_erase_of_mem hheld, hone]
  cases hl : l (.inr r) with
  | nil =>
    rw [hl] at hhead
    have hnone : (s.rw r).head = none := hhead
    simp only [wunlock, hnone]
    refine ⟨_, _, rfl, h.set_rw (h.same (.inr r)) (fun r' _ p _ => rfl) ?_⟩
    beta_reduce
    rw [hl] at hr ⊢
    refine ⟨hr.readers, ?_, ?_, Or.inl hz, fun _ _ => rfl, (fun _ p hp => nomatch hp), hr.kind, hr.order⟩
    · rw [hz]
      rfl
    · rw [hz]
      exact Nat.zero_le 1
  | cons p t =>
    rw [hl] at hhead
    have hsome : (s.rw r).head = some p := hhead
    have hkind := hr.kind p (by rw [hl]; exact List.mem_cons_self)
    rcases hkind with hR | hW
    · obtain ⟨ps, t', hsplit, hps, ht'⟩ := split_readers s.proc (l (.inr r))
      have hfuel : ps.length ≤ Fintype.card P := by
        have hnodup := (h.queues.fifo (.inr r)).links.nodup
        rw [hsplit] at hnodup
        exact (List.nodup_append.mp hnodup).1.length_le_card
      obtain ⟨proc', hrun, hq, hframe⟩ := h.queues.wakeloop hsplit hps ht' hfuel []
      have hstart : (s.ends (.inr r)).head = some p := hhead
      rw [hstart, List.nil_append] at hrun
      have hpsne : ps ≠ [] := by
        rintro rfl
        rw [List.nil_append] at hsplit
        rw [← hsplit, hl] at ht'
        exact ht' p rfl hR
      have hnodup := (h.queues.fifo (.inr r)).links.nodup
      rw [hsplit] at hnodup
      have hrest : ∀ x ∈ t', (proc' x).state = (s.proc x).state := by
        intro x hx
        rw [hframe x fun hmem => (List.nodup_append.mp hnodup).2.2 x hmem x hx rfl]
      simp only [wunlock, hsome, hR, reduceCtorEq, if_false, ne_eq, not_true_eq_false, hrun, Option.map_some]
      refine ⟨_, _, rfl, h.set_rw hq (fun r' hr' x hx => ?_) ?_⟩
      · have hx' : x ∉ ps := by
          intro hmem
          have hin : x ∈ l (.inr r) := by
            rw [hsplit]
            exact List.mem_append_left _ hmem
          exact hr' (Sum.inr.inj (h.queues.disjoint hx hin))
        rw [hframe x hx']
      · beta_reduce
        refine ⟨?_, ?_, ?_, Or.inl hz, fun _ hc => ?_, fun _ x hx => ?_, fun x hx => ?_, ?_⟩
        · rw [hr.readers, hnil, List.append_nil]
          exact Int.zero_add _
        · rw [hz]
          rfl
        · rw [hz]
          exact Nat.zero_le 1
        · exact absurd (List.append_eq_nil_iff.mp hc).1 hpsne
        · have hmem := List.mem_of_mem_head? hx
          rw [hrest x hmem]
          refine (hr.kind x ?_).resolve_left (ht' x hx)
          rw [hsplit]
          exact List.mem_append_right _ hmem
        · rw [hrest x hx]
          apply hr.kind x
          rw [hsplit]
          exact List.mem_append_right _ hx
        · rw [hr.order, hsplit, List.append_assoc]
    · rw [hl] at hr
      simp only [wunlock, hsome, hW, if_true]
      refine ⟨_, _, rfl, h.set_rw (h.queues.ready hl) (fun r' hr' => (h.ready_state hl).1 _ (fun heq => hr' (Sum.inr.inj heq))) ?_⟩
      beta_reduce
      refine ⟨hr.readers, ?_, ?_, Or.inr hnil, (fun hc => nomatch hc), fun hc => absurd hnil hc, fun x hx => ?_, ?_⟩
      · rw [hr.writer, hone, List.length_cons, hz]
        rfl
      · rw [List.length_cons, hz]
        exact le_rfl
      · rw [(h.ready_state hl).2 x hx]
        exact hr.kind x (List.mem_cons_of_mem _ hx)
      · rw [hr.order, List.append_assoc, List.singleton_append]

theorem sched_inv (h : Inv s l) (hup : (s.proc up).state = .Ready) :
    Inv { s with proc := Function.update s.proc up { s.proc up with state := .Running, call := none } } l := by
  refine ⟨h.queues.sched hup, h.q, fun r => (h.rw r).frame fun p hp => ?_⟩
  have hne : p ≠ up := by
    intro heq
    rw [heq] at hp
    exact ((h.queues.mem _ up).mp hp).2 hup
  simp only [Function.update_of_ne hne]

end Steps

section Runs

variable [Fintype P]

theorem Start.inv {s : Sys P K R} (h : Start s) : Inv s fun _ => [] where
  queues := by
    refine ⟨fun i => ?_, fun i p => ?_, fun p => ?_⟩
    · have hends : s.ends i = ⟨none, none⟩ := by
        rcases i with k | r
        · rw [Sys.ends, h.q k]
        · rw [Sys.ends, h.rw r]
      rw [hends]
      exact ⟨rfl, rfl⟩
    · rw [Waits, (h.proc p).2]
      simp
    · rw [(h.proc p).1, (h.proc p).2]
      exact ⟨fun _ => rfl, fun _ => rfl⟩
  q k := by
    rw [h.q k, h.log]
    exact ⟨rfl, fun _ => rfl, rfl⟩
  rw r := by
    rw [h.rw r, h.log]
    exact ⟨rfl, rfl, Nat.zero_le 1, Or.inl rfl, fun _ _ => rfl, (fun _ p hp => nomatch hp), (fun p hp => nomatch hp), rfl⟩

theorem step_inv {s : Sys P K R} {l : K ⊕ R → List P} (h : Inv s l) (a : Act P K R) (ha : Allowed s a) :
    ∃ s' l', step s a = some s' ∧ Inv s' l' := by
  cases a with
  | qlock up k =>
    obtain ⟨l', hl'⟩ := qlock_inv h ha k
    exact ⟨_, l', rfl, hl'⟩
  | canqlock up k got =>
    obtain ⟨l', hl'⟩ : ∃ l', Inv (canqlock s up k got) l' := canqlock_inv h k got
    exact ⟨_, l', rfl, hl'⟩
  | qunlock up k =>
    obtain ⟨l', hl'⟩ := qunlock_inv h k ha.2
    exact ⟨_, l', rfl, hl'⟩
  | rlock up r =>
    obtain ⟨l', hl'⟩ := rlock_inv h ha r
    exact ⟨_, l', rfl, hl'⟩
  | canrlock up r =>
    obtain ⟨l', hl'⟩ : ∃ l', Inv (canrlock s up r) l' := canrlock_inv h r
    exact ⟨_, l', rfl, hl'⟩
  | runlock up r => exact runlock_inv h r ha.2
  | wlock up r =>
    obtain ⟨l', hl'⟩ := wlock_inv h ha r
    exact ⟨_, l', rfl, hl'⟩
  | wunlock up r => exact wunlock_inv h r ha.2
  | sched p => exact ⟨_, l, rfl, sched_inv h ha⟩

theorem Reachable.inv {s : Sys P K R} (h : Reachable s) : ∃ l, Inv s l := by
  induction h with
  | start hs => exact ⟨_, hs.inv⟩
  | step _ ha hs ih =>
    obtain ⟨l, hl⟩ := ih
    obtain ⟨s', l', hs', hl'⟩ := step_inv hl _ ha
    rw [hs] at hs'
    obtain rfl := Option.some.inj hs'
    exact ⟨l', hl'⟩

/-- What holds of all locks in a state, with their queues `l`. -/
structure Safe (s : Sys P K R) (l : K ⊕ R → List P) : Prop where
  fifo : ∀ i, Fifo (fun p => (s.proc p).qnext) (s.ends i) (l i)
  /-- Whoever sleeps for a lock is in its queue, and nobody else. -/
  asleep : ∀ i p, p ∈ l i ↔ Waits s.proc i p
  /-- The lock goes to those that wait in the order in which they came. -/
  order : ∀ i, (s.log i).asked = (s.log i).granted ++ l i
  locked : ∀ k, (s.log (.inl k)).held.length = if (s.q k).locked then 1 else 0
  unlocked : ∀ k, (s.q k).locked = false → l (.inl k) = []
  readers : ∀ r, (s.rw r).readers = (s.log (.inr r)).readers.length
  writer : ∀ r, (s.rw r).writer = (s.log (.inr r)).held.length
  one : ∀ r, (s.log (.inr r)).held.length ≤ 1
  apart : ∀ r, (s.log (.inr r)).held ≠ [] → (s.log (.inr r)).readers = []
  free : ∀ r, (s.rw r).readers = 0 → (s.rw r).writer = 0 → l (.inr r) = []
  /-- No call that may be made panics. -/
  calls : ∀ a, Allowed s a → ∃ s', step s a = some s'

theorem locks_safe {s : Sys P K R} (h : Reachable s) : ∃ l, Safe s l := by
  obtain ⟨l, hl⟩ := h.inv
  refine ⟨l, hl.queues.fifo, hl.queues.mem, fun i => ?_, fun k => (hl.q k).count, fun k => (hl.q k).free,
    fun r => (hl.rw r).readers, fun r => (hl.rw r).writer, fun r => (hl.rw r).one,
    fun r hne => (hl.rw r).apart.resolve_left hne, fun r hr hw => ?_, fun a ha => ?_⟩
  · rcases i with k | r
    · exact (hl.q k).order
    · exact (hl.rw r).order
  · exact (hl.rw r).free ((hl.rw r).held_nil hw) ((hl.rw r).readers_nil hr)
  · obtain ⟨s', l', hs', -⟩ := step_inv hl a ha
    exact ⟨s', hs'⟩

/-- Two processes and a lock of each kind. -/
def fresh : Sys Bool Unit Unit where
  proc _ := ⟨none, .Running, none⟩
  q _ := ⟨⟨none, none⟩, false⟩
  rw _ := ⟨⟨none, none⟩, 0, 0⟩
  log _ := ⟨[], [], [], []⟩

/-- A reader waits for a writer. -/
theorem locks_safe_reader : ∃ l, Safe (wlock fresh false ()) l ∧
    Safe (rlock (wlock fresh false ()) true ()) (fun i => if i = .inr () then [true] else []) := by
  have hstart : Reachable fresh := .start ⟨fun _ => ⟨rfl, rfl⟩, fun _ => rfl, fun _ => rfl, fun _ => rfl⟩
  have hwrite : Reachable (wlock fresh false ()) := .step (a := .wlock false ()) hstart rfl rfl
  have hread : Reachable (rlock (wlock fresh false ()) true ()) := .step (a := .rlock true ()) hwrite rfl rfl
  obtain ⟨l, hl⟩ := locks_safe hwrite
  obtain ⟨l', hl'⟩ := locks_safe hread
  refine ⟨l, hl, ?_⟩
  have hq : l' (.inr ()) = [true] := by
    have horder := hl'.order (.inr ())
    simpa [rlock, wlock, fresh, Sys.record] using horder.symm
  have hk : l' (.inl ()) = [] := hl'.unlocked () rfl
  have heq : l' = fun i => if i = .inr () then [true] else [] := by
    funext i
    rcases i with ⟨⟩ | ⟨⟩
    · rw [hk]
      rfl
    · rw [hq]
      rfl
  rw [← heq]
  exact hl'

end Runs

end Petele.Qlock
