import Petele.Qio.Account

namespace Petele.Qio

open Lib

variable {n : ℕ} {s s' : Sys n} {c : List (Cell n)}

/-- How a queue is used, which no section but those of `qclose`, `qhangup` and `qreopen`
changes. -/
def Queue.mode (q : Queue n) : Bool × Bool × Bool × Bool × Bool :=
  (q.msg, q.coalesce, q.noblock, q.bypass, q.closed)

/-- A section takes the queue from the blocks `c` to the blocks `c'` and touches, besides `c`, only
the blocks `e` it was given. -/
structure Moves (e : List (Fin n)) (s : Sys n) (c : List (Cell n)) (s' : Sys n)
    (c' : List (Cell n)) : Prop where
  has : Has s'.mem s'.q c'
  frame : ∀ y, y ∉ places c → y ∉ e → s'.mem y = s.mem y
  sub : ∀ y ∈ places c', y ∈ places c ∨ y ∈ e
  mode : s'.q.mode = s.q.mode

theorem Moves.refl (h : Has s.mem s.q c) (e : List (Fin n)) : Moves e s c s c :=
  ⟨h, fun _ _ _ => rfl, fun _ hy => Or.inl hy, rfl⟩

theorem Moves.trans {e e' : List (Fin n)} {s₁ : Sys n} {c₁ c₂ : List (Cell n)}
    (h : Moves e s c s₁ c₁) (h' : Moves e' s₁ c₁ s' c₂)
    (hsub : ∀ y ∈ e', y ∈ places c ∨ y ∈ e) : Moves e s c s' c₂ where
  has := h'.has
  frame := by
    intro y hc he
    have hc₁ : y ∉ places c₁ := fun hy => (h.sub y hy).elim hc he
    have he' : y ∉ e' := fun hy => (hsub y hy).elim hc he
    rw [h'.frame y hc₁ he', h.frame y hc he]
  sub := by
    intro y hy
    rcases h'.sub y hy with hmem | hmem
    · exact h.sub y hmem
    · exact hsub y hmem
  mode := h'.mode.trans h.mode

theorem Moves.mono {e e' : List (Fin n)} {c' : List (Cell n)} (h : Moves e s c s' c')
    (hsub : ∀ y ∈ e, y ∈ e') : Moves e' s c s' c' where
  has := h.has
  frame := fun y hc he => h.frame y hc fun hy => he (hsub y hy)
  sub := fun y hy => (h.sub y hy).imp_right (hsub y)
  mode := h.mode

/-- Besides, of the blocks it had and was given, those that are not on the queue at the end are freed,
but for the blocks `r`, which are let out. -/
structure Settles (r e : List (Fin n)) (s : Sys n) (c : List (Cell n)) (s' : Sys n) (c' : List (Cell n)) : Prop
    extends Moves e s c s' c' where
  out : ∀ y, y ∈ places c ∨ y ∈ e → y ∈ places c' ∨ y ∈ r ∨ s'.mem y = none
  had : ∀ y ∈ r, y ∈ places c ∨ y ∈ e

theorem Settles.refl (h : Has s.mem s.q c) (e : List (Fin n)) : Settles e e s c s c where
  toMoves := Moves.refl h e
  out := fun _ hy => hy.imp_right Or.inl
  had := fun _ hy => Or.inr hy

/-- What the first section lets out is given to the second. -/
theorem Settles.trans {r e r' e' : List (Fin n)} {s₁ : Sys n} {c₁ c₂ : List (Cell n)}
    (h : Settles r e s c s₁ c₁) (h' : Settles r' e' s₁ c₁ s' c₂)
    (hsub : ∀ y ∈ e', y ∈ places c ∨ y ∈ e) (hout : ∀ y ∈ r, y ∈ e') : Settles r' e s c s' c₂ where
  toMoves := h.toMoves.trans h'.toMoves hsub
  out := by
    intro y hy
    by_cases hin : y ∈ places c₁ ∨ y ∈ e'
    · exact h'.out y hin
    · rw [not_or] at hin
      rcases h.out y hy with hc | hr | hnone
      · exact absurd hc hin.1
      · exact absurd (hout y hr) hin.2
      · rw [h'.frame y hin.1 hin.2]
        exact Or.inr (Or.inr hnone)
  had := by
    intro y hy
    rcases h'.had y hy with hc | he
    · exact h.sub y hc
    · exact hsub y he

/-- A section that is given more lets it out again. -/
theorem Settles.widen {r e : List (Fin n)} {c' : List (Cell n)} (h : Settles r e s c s' c') (e' : List (Fin n)) :
    Settles (r ++ e') (e ++ e') s c s' c' where
  toMoves := h.toMoves.mono fun _ hy => List.mem_append_left e' hy
  out := by
    intro y hy
    rw [List.mem_append, ← or_assoc] at hy
    rw [List.mem_append]
    rcases hy with hold | hnew
    · exact (h.out y hold).imp_right (Or.imp_left Or.inl)
    · exact Or.inr (Or.inl (Or.inr hnew))
  had := by
    intro y hy
    rw [List.mem_append, ← or_assoc]
    rcases List.mem_append.mp hy with hold | hnew
    · exact Or.inl (h.had y hold)
    · exact Or.inr hnew

/-- Blocks that are free are not let out. -/
theorem Settles.gone {r e : List (Fin n)} {c' : List (Cell n)} (h : Settles r e s c s' c')
    (hnone : ∀ y ∈ r, s'.mem y = none) : Settles [] e s c s' c' where
  toMoves := h.toMoves
  out := by
    intro y hy
    rcases h.out y hy with hc | hr | hfree
    · exact Or.inl hc
    · exact Or.inr (Or.inr (hnone y hr))
    · exact Or.inr (Or.inr hfree)
  had := nofun

section Flow

variable (q : Queue n)

@[simp] theorem unflow_bfirst : (unflow q).bfirst = q.bfirst := by unfold unflow; split <;> rfl
@[simp] theorem unflow_blast : (unflow q).blast = q.blast := by unfold unflow; split <;> rfl
@[simp] theorem unflow_len : (unflow q).len = q.len := by unfold unflow; split <;> rfl
@[simp] theorem unflow_dlen : (unflow q).dlen = q.dlen := by unfold unflow; split <;> rfl
@[simp] theorem unflow_mode : (unflow q).mode = q.mode := by unfold unflow; split <;> rfl

end Flow

/-- Changes of the flags are no change of the blocks. -/
theorem Moves.flags {e : List (Fin n)} {c' : List (Cell n)} {m : Mem n} {q q' : Queue n}
    (h : Moves e s c ⟨m, q⟩ c') (hfirst : q'.bfirst = q.bfirst) (hlast : q'.blast = q.blast)
    (hlen : q'.len = q.len) (hdlen : q'.dlen = q.dlen) (hmode : q'.mode = q.mode) :
    Moves e s c ⟨m, q'⟩ c' :=
  ⟨h.has.congr (fun _ _ => rfl) hfirst hlast hlen hdlen, h.frame, h.sub, hmode.trans h.mode⟩

theorem Settles.flags {r e : List (Fin n)} {c' : List (Cell n)} {m : Mem n} {q q' : Queue n}
    (h : Settles r e s c ⟨m, q⟩ c') (hfirst : q'.bfirst = q.bfirst) (hlast : q'.blast = q.blast)
    (hlen : q'.len = q.len) (hdlen : q'.dlen = q.dlen) (hmode : q'.mode = q.mode) :
    Settles r e s c ⟨m, q'⟩ c' :=
  ⟨h.toMoves.flags hfirst hlast hlen hdlen hmode, h.out, h.had⟩

theorem Settles.unflow {r e : List (Fin n)} {c' : List (Cell n)} {m : Mem n} {q : Queue n}
    (h : Settles r e s c ⟨m, q⟩ c') : Settles r e s c ⟨m, unflow q⟩ c' :=
  h.flags (unflow_bfirst q) (unflow_blast q) (unflow_len q) (unflow_dlen q) (unflow_mode q)

section Removing

/-- The first block goes, whatever becomes of it. -/
theorem Has.moves_pop (h : Has s.mem s.q c) {x : Fin n} (hfirst : s.q.bfirst = some x) :
    ∃ b cs, s.mem x = some b ∧ c = cell (x, b) :: cs ∧ x ∉ places cs ∧
      ∀ {m' : Mem n} {q' : Queue n}, (∀ y, y ≠ x → m' y = s.mem y) → q'.bfirst = b.next →
        q'.blast = s.q.blast → q'.len = wrap (s.q.len - BALLOC b) →
        q'.dlen = wrap (s.q.dlen - BLEN b) → q'.mode = s.q.mode →
        Settles [x] [] s c ⟨m', q'⟩ cs := by
  obtain ⟨b, cs, hmem, rfl, hx, hpop⟩ := h.pop hfirst
  refine ⟨b, cs, hmem, rfl, hx, ?_⟩
  intro m' q' hm hfirst' hlast hlen hdlen hmode
  have hrest : ∀ y ∈ places cs, m' y = s.mem y := by
    intro y hy
    apply hm y
    intro heq
    rw [heq] at hy
    exact hx hy
  refine ⟨⟨hpop hrest hfirst' hlast hlen hdlen, ?_, ?_, hmode⟩, ?_, ?_⟩
  · intro y hy _
    rw [places_cons, List.mem_cons, not_or] at hy
    exact hm y hy.1
  · exact fun y hy => Or.inl (List.mem_cons_of_mem _ hy)
  · intro y hy
    rw [or_iff_left List.not_mem_nil, places_cons, List.mem_cons] at hy
    rcases hy with heq | hrest
    · exact Or.inr (Or.inl (List.mem_singleton.mpr heq))
    · exact Or.inl hrest
  · exact fun y hy => Or.inl (List.mem_singleton.mp hy ▸ List.mem_cons_self)

theorem update_ne {m : Mem n} {x : Fin n} (v : Option (Block n)) :
    ∀ y, y ≠ x → Function.update m x v y = m y :=
  fun _ hy => Function.update_of_ne hy _ _

/-- `qremove` takes the first block off. -/
theorem qremove_spec (h : Has s.mem s.q c) {x : Fin n} (hfirst : s.q.bfirst = some x) :
    ∃ b cs, s.mem x = some b ∧ c = cell (x, b) :: cs ∧ x ∉ places cs ∧
      ∃ s', qremove s = some (some x, s') ∧ Settles [x] [] s c s' cs ∧ s'.mem x = some (b.link none) := by
  obtain ⟨b, cs, hmem, rfl, hx, hpop⟩ := h.moves_pop hfirst
  refine ⟨b, cs, hmem, rfl, hx, ⟨Function.update s.mem x (some (b.link none)), { s.q with
    bfirst := b.next
    len := wrap (s.q.len - BALLOC b)
    dlen := wrap (s.q.dlen - BLEN b) }⟩, ?_, ?_, ?_⟩
  · simp only [qremove, hfirst, hmem, Option.bind_eq_bind, Option.bind_some, Option.pure_def]
  · exact hpop (update_ne _) rfl rfl rfl rfl rfl
  · exact Function.update_self _ _ _

theorem qget_spec (h : Has s.mem s.q c) :
    ∃ r s', qget s = some (r, s') ∧ Settles r.toList [] s c s' c.tail ∧
      ∀ y ∈ r, y ∉ places c.tail ∧ s'.mem y ≠ none := by
  cases hfirst : s.q.bfirst with
  | none =>
    have hc := h.empty hfirst
    refine ⟨none, { s with q := { s.q with starve := true } }, by simp only [qget, hfirst], ?_, nofun⟩
    rw [hc] at h ⊢
    exact (Settles.refl h []).flags rfl rfl rfl rfl rfl
  | some x =>
    obtain ⟨b, cs, hmem, rfl, hx, hpop⟩ := h.moves_pop hfirst
    refine ⟨some x, ⟨Function.update s.mem x (some (b.link none)), unflow { s.q with
      bfirst := b.next
      len := wrap (s.q.len - BALLOC b)
      dlen := wrap (s.q.dlen - BLEN b) }⟩, ?_, ?_, ?_⟩
    · simp only [qget, hfirst, hmem, Option.bind_eq_bind, Option.bind_some, Option.pure_def]
    · apply Settles.unflow
      exact hpop (update_ne _) rfl rfl rfl rfl rfl
    · intro y hy
      cases hy
      refine ⟨hx, ?_⟩
      dsimp only
      rw [Function.update_self]
      exact nofun

/-- The first bytes of the first block go. -/
theorem Has.moves_advance (h : Has s.mem s.q c) {x : Fin n} (hfirst : s.q.bfirst = some x)
    {b : Block n} (hmem : s.mem x = some b) {k : ℕ} (hk : k ≤ BLEN b) (q' : Queue n)
    (hdlen : q'.dlen = wrap (s.q.dlen - k)) (hfirst' : q'.bfirst = s.q.bfirst)
    (hlast : q'.blast = s.q.blast) (hlen : q'.len = s.q.len) (hmode : q'.mode = s.q.mode) :
    Settles [] [] s c ⟨Function.update s.mem x (some (b.advance k)), q'⟩
      (cell (x, b.advance k) :: c.tail) := by
  obtain ⟨b', cs, hmem', rfl, hx, -⟩ := h.pop hfirst
  have hb : b' = b := by
    rw [hmem] at hmem'
    exact (Option.some.inj hmem').symm
  subst hb
  refine ⟨⟨h.advance hk hmem hdlen hfirst' hlast hlen, ?_, ?_, hmode⟩, ?_, nofun⟩
  · intro y hy _
    rw [places_cons, List.mem_cons, not_or] at hy
    exact Function.update_of_ne hy.1 _ _
  · exact fun y hy => Or.inl hy
  · exact fun y hy => hy.imp_right nofun

theorem discard_spec (len : ℤ) (fuel : ℕ) (sofar : ℤ) (h : Has s.mem s.q c)
    (hfuel : c.length < fuel) :
    ∃ r s' c', discard len fuel sofar s = some (r, s') ∧ Settles [] [] s c s' c' := by
  induction fuel generalizing s c sofar with
  | zero => omega
  | succ fuel ih =>
    rw [discard]
    split
    · cases hfirst : s.q.bfirst with
      | none => exact ⟨sofar, s, c, rfl, Settles.refl h []⟩
      | some x =>
        obtain ⟨b, cs, hmem, rfl, -, hpop⟩ := h.moves_pop hfirst
        simp only [hmem, Option.bind_eq_bind, Option.bind_some, freeb_eq hmem]
        split
        · have hmoves := @hpop (Function.update s.mem x none) { s.q with
            bfirst := b.next
            len := wrap (s.q.len - BALLOC b)
            dlen := wrap (s.q.dlen - BLEN b) } (update_ne none) rfl rfl rfl rfl rfl
          have hfreed := hmoves.gone fun y hy => by
            rw [List.mem_singleton.mp hy]
            exact Function.update_self _ _ _
          obtain ⟨r, s', c', hloop, hmoves'⟩ := ih (sofar + BLEN b) hmoves.has
            (by rw [List.length_cons] at hfuel; omega)
          exact ⟨r, s', c', hloop, hfreed.trans hmoves' nofun nofun⟩
        · rename_i hlong
          have hk : (len - sofar).toNat ≤ BLEN b := by omega
          have hcast : ((len - sofar).toNat : ℤ) = len - sofar := by omega
          have hmoves := h.moves_advance hfirst hmem hk
            { s.q with dlen := wrap (s.q.dlen - (len - sofar)) } (by rw [hcast]) rfl rfl rfl rfl
          -- The next turn ends the loop: `sofar` is `len`.
          cases fuel with
          | zero => simp at hfuel
          | succ fuel =>
            refine ⟨sofar + (len - sofar), _, _, ?_, hmoves⟩
            rw [discard, if_neg (by omega)]
    · exact ⟨sofar, s, c, rfl, Settles.refl h []⟩

theorem Has.length_le (h : Has s.mem s.q c) : c.length ≤ n := by
  obtain ⟨l, hl, rfl⟩ := h.chain
  have hlen := hl.length_le
  rw [Fintype.card_fin] at hlen
  rwa [cells, List.length_map]

theorem qdiscard_spec (h : Has s.mem s.q c) (len : ℤ) :
    ∃ r s' c', qdiscard s len = some (r, s') ∧ Settles [] [] s c s' c' := by
  obtain ⟨r, s', c', hloop, hmoves⟩ := discard_spec len (n + 2) 0 h
    (by have := h.length_le; omega)
  refine ⟨r, { s' with q := Qio.unflow s'.q }, c', ?_, hmoves.unflow⟩
  rw [qdiscard, hloop]
  rfl

/-- `qconsume` passes empty blocks and links them into a list of its own. -/
theorem skipempty_spec (fuel : ℕ) {t : Option (Fin n)} {k : List (Fin n × Block n)}
    (h : Has s.mem s.q c) (hk : Chain Block.next s.mem t k) (hdisj : ∀ y ∈ places c, y ∉ addrs k)
    (hfuel : c.length < fuel) :
    ∃ found t' s' c' k', skipempty fuel t s = some (found, t', s') ∧
      Settles (addrs k') (addrs k) s c s' c' ∧ Chain Block.next s'.mem t' k' ∧
      (∀ y ∈ places c', y ∉ addrs k') ∧ (∀ y ∈ addrs k', y ∈ places c ∨ y ∈ addrs k) ∧
      (∀ x b, found = some (x, b) → s'.q.bfirst = some x ∧ s'.mem x = some b) ∧
      (found = none → ∀ z ∈ c, z.data = []) := by
  induction fuel generalizing s c t k with
  | zero => omega
  | succ fuel ih =>
    rw [skipempty]
    cases hfirst : s.q.bfirst with
    | none =>
      refine ⟨none, t, s, c, k, rfl, Settles.refl h _, hk, hdisj, fun y hy => Or.inr hy, (by intros; contradiction), fun _ => ?_⟩
      rw [h.empty hfirst]
      intros; contradiction
    | some x =>
      obtain ⟨b, cs, hmem, rfl, hx, hpop⟩ := h.moves_pop hfirst
      simp only [hmem, Option.bind_eq_bind, Option.bind_some, Option.pure_def]
      split
      · refine ⟨some (x, b), t, s, _, k, rfl, Settles.refl h _, hk, hdisj,
          fun y hy => Or.inr hy, ?_, (by intros; contradiction)⟩
        intro x' b' heq
        cases heq
        exact ⟨hfirst, hmem⟩
      · rename_i hempty
        have hzero : BLEN b = 0 := by omega
        have hmoves := @hpop (Function.update s.mem x (some (b.link t))) { s.q with
          bfirst := b.next
          len := wrap (s.q.len - BALLOC b) } (update_ne _) rfl rfl rfl
          (by rw [hzero, h.dlen]; simp) rfl
        have hxk : x ∉ addrs k := hdisj x List.mem_cons_self
        have hk' : Chain Block.next (Function.update s.mem x (some (b.link t))) (some x)
            ((x, b.link t) :: k) :=
          ⟨rfl, Function.update_self _ _ _, hk.update hxk _⟩
        have hdisj' : ∀ y ∈ places cs, y ∉ addrs ((x, b.link t) :: k) := by
          intro y hy hmem'
          rcases List.mem_cons.mp hmem' with heq | htail
          · rw [heq] at hy
            exact hx hy
          · exact hdisj y (List.mem_cons_of_mem _ hy) htail
        have hlisted : ∀ y ∈ addrs ((x, b.link t) :: k),
            y ∈ places (cell (x, b) :: cs) ∨ y ∈ addrs k := by
          intro y hy
          rcases List.mem_cons.mp hy with heq | htail
          · rw [heq]
            exact Or.inl List.mem_cons_self
          · exact Or.inr htail
        obtain ⟨found, t', s', c', k', hloop, hmoves', hchain, hdisj'', hsub, hfound, hnone⟩ :=
          ih hmoves.has hk' hdisj' (by rw [List.length_cons] at hfuel; omega)
        refine ⟨found, t', s', c', k', hloop, ?_, hchain, hdisj'', ?_, hfound, ?_⟩
        · exact (hmoves.widen (addrs k)).trans hmoves' hlisted fun y hy => hy
        · intro y hy
          rcases hsub y hy with hcs | htail
          · exact Or.inl (List.mem_cons_of_mem _ hcs)
          · exact hlisted y htail
        · intro heq
          exact List.forall_mem_cons.mpr ⟨List.eq_nil_of_length_eq_zero hzero, hnone heq⟩

/-- Blocks that are not the queue's are freed. -/
theorem Settles.free {r e : List (Fin n)} {c' : List (Cell n)} {t : Option (Fin n)}
    {k : List (Fin n × Block n)} (h : Settles r e s c s' c') (hk : Chain Block.next s'.mem t k)
    (hdisj : ∀ y ∈ places c', y ∉ addrs k) (hsub : ∀ y ∈ addrs k, y ∈ places c ∨ y ∈ e)
    (hout : ∀ y ∈ r, y ∈ addrs k) :
    ∃ m, freeblist s'.mem t = some m ∧ Settles [] e s c ⟨m, s'.q⟩ c' := by
  obtain ⟨m, hfree, hframe, hfreed⟩ := freeblist_eq hk
  refine ⟨m, hfree, ?_⟩
  have hmoves : Settles [] (addrs k) s' c' ⟨m, s'.q⟩ c' :=
    ⟨⟨h.has.congr (fun y hy => hframe y (hdisj y hy)) rfl rfl rfl rfl,
      fun y _ hy => hframe y hy, fun y hy => Or.inl hy, rfl⟩, fun y hy => hy.imp_right fun hk => Or.inr (hfreed y hk),
      nofun⟩
  exact h.trans hmoves hsub hout

theorem qconsume_spec (h : Has s.mem s.q c) (len : ℕ) :
    ∃ r s' c' e, qconsume s len = some (r, s') ∧ Settles e [] s c s' c' ∧
      (c = [] ∨ (∃ z ∈ c, z.data ≠ []) → e = []) := by
  obtain ⟨found, t, s₁, c₁, k, hskip, hmoves, hk, hdisj, hsub, hfound, hnone⟩ :=
    skipempty_spec (n + 1) h (show Chain Block.next s.mem none [] from rfl) (fun _ _ => nofun)
      (by have := h.length_le; omega)
  rw [addrs_nil] at hmoves hsub
  simp only [qconsume, hskip, Option.bind_eq_bind, Option.bind_some, Option.pure_def]
  cases found with
  | none =>
    refine ⟨none, _, c₁, addrs k, rfl, hmoves.flags rfl rfl rfl rfl rfl, ?_⟩
    rintro (rfl | ⟨z, hz, hdata⟩)
    · rw [List.eq_nil_iff_forall_not_mem]
      intro y hy
      rcases hsub y hy with hc | hnil
      · cases hc
      · cases hnil
    · exact absurd (hnone rfl z hz) hdata
  | some xb =>
    obtain ⟨x, b⟩ := xb
    obtain ⟨hfirst, hmem⟩ := hfound x b rfl
    dsimp only
    generalize hkdef : (if BLEN b < len then BLEN b else len) = k₀
    have hk₀ : k₀ ≤ BLEN b := by
      split at hkdef <;> omega
    obtain ⟨b', cs, hmem', rfl, hx, hpop⟩ := hmoves.has.moves_pop hfirst
    obtain rfl : b' = b := Option.some.inj (hmem'.symm.trans hmem)
    have hxk : x ∉ addrs k := hdisj x List.mem_cons_self
    have hxc : x ∈ places c := (hmoves.sub x List.mem_cons_self).resolve_right nofun
    split
    · -- The block is done with: it goes to the front of the blocks to free.
      have hdone := @hpop (Function.update s₁.mem x (some ((b'.advance k₀).link t))) { s₁.q with
        bfirst := b'.next
        len := wrap (s₁.q.len - BALLOC b')
        dlen := wrap (wrap (s₁.q.dlen - k₀) - BLEN (b'.advance k₀)) } (update_ne _) rfl rfl rfl
        (by
          simp only [wrap_wrap_sub, BLEN, Block.advance, List.length_drop] at hk₀ ⊢
          congr 1
          omega) rfl
      have htofree : Chain Block.next (Function.update s₁.mem x (some ((b'.advance k₀).link t)))
          (some x) ((x, (b'.advance k₀).link t) :: k) :=
        ⟨rfl, Function.update_self _ _ _, hk.update hxk _⟩
      obtain ⟨m, hfree, hfreed⟩ := (hmoves.trans (hdone.widen (addrs k)) hsub fun y hy => hy).free htofree
        (by
          intro y hy hmem'
          rcases List.mem_cons.mp hmem' with heq | htail
          · rw [heq] at hy
            exact hx hy
          · exact hdisj y (List.mem_cons_of_mem _ hy) htail)
        (by
          intro y hy
          rcases List.mem_cons.mp hy with heq | htail
          · rw [heq]
            exact Or.inl hxc
          · exact hsub y htail)
        fun y hy => hy
      dsimp only at hfree
      rw [hfree]
      exact ⟨_, _, cs, [], rfl, hfreed.unflow, fun _ => rfl⟩
    · have hpart := hmoves.has.moves_advance hfirst hmem hk₀
        { s₁.q with dlen := wrap (s₁.q.dlen - k₀) } rfl rfl rfl rfl rfl
      obtain ⟨m, hfree, hfreed⟩ := (hmoves.trans (hpart.widen (addrs k)) hsub fun y hy => hy).free
        (hk.update hxk _) hdisj hsub fun y hy => hy
      dsimp only at hfree
      rw [hfree]
      exact ⟨_, _, _, [], rfl, hfreed.unflow, fun _ => rfl⟩

end Removing

section Adding

variable {x : Fin n} {k : List (Fin n × Block n)}

theorem Has.fresh (h : Has s.mem s.q c) {y : Fin n} (hy : s.mem y = none) : y ∉ places c := by
  obtain ⟨l, hl, rfl⟩ := h.chain
  rw [places_cells]
  intro hmem
  obtain ⟨z, hz, rfl⟩ := List.mem_map.mp hmem
  rw [Seg.lookup hl hz] at hy
  cases hy

/-- A block that is not the queue's changes. -/
theorem Has.moves_update (h : Has s.mem s.q c) (hx : x ∉ places c) (v : Option (Block n)) :
    Settles [x] [x] s c ⟨Function.update s.mem x v, s.q⟩ c := by
  refine ⟨⟨h.congr (fun y hy => update_ne _ y ?_) rfl rfl rfl rfl, ?_, fun y hy => Or.inl hy, rfl⟩,
    fun y hy => hy.imp_right Or.inl, fun y hy => Or.inr hy⟩
  · intro heq
    rw [heq] at hy
    exact hx hy
  · intro y _ hy
    rw [List.mem_singleton] at hy
    exact update_ne _ y hy

/-- A block that is not the queue's is freed. -/
theorem Has.moves_freeb (h : Has s.mem s.q c) (hx : x ∉ places c) :
    Settles [] [x] s c ⟨Function.update s.mem x none, s.q⟩ c := by
  refine (h.moves_update hx none).gone ?_
  intro y hy
  rw [List.mem_singleton.mp hy]
  exact Function.update_self _ _ _

theorem addbuffer_spec (h : Has s.mem s.q c) (hk : Chain Block.next s.mem (some x) k)
    (hdisj : ∀ y ∈ addrs k, y ∉ places c) :
    ∃ r s', addbuffer s x = some (r, s') ∧ Settles [] (addrs k) s c s' (c ++ cells k) := by
  obtain ⟨s₁, hattach, hq, hframe, hadd⟩ := attach_spec h x
  have hk₁ : Chain Block.next s₁.mem (some x) k :=
    Seg.frame hk fun y hy => hframe y (hdisj y hy)
  have hlen : s₁.q.len = s.q.len := by rw [hq]
  have hdlen : s₁.q.dlen = s.q.dlen := by rw [hq]
  have hmode : s₁.q.mode = s.q.mode := by rw [hq]; rfl
  simp only [addbuffer, show attach s x = some s₁ from hattach, blocks_eq hk₁,
    Option.bind_eq_bind, Option.bind_some, Option.pure_def]
  have hplaces : ∀ y, y ∈ places (c ++ cells k) ↔ y ∈ places c ∨ y ∈ addrs k := by
    intro y
    rw [places_append, List.mem_append, places_cells]
  have hmoves : Settles [] (addrs k) s c ⟨s₁.mem, { s₁.q with
      blast := k.getLast?.map Prod.fst
      len := wrap (s₁.q.len + blockalloclen k)
      dlen := wrap (s₁.q.dlen + blocklen k) }⟩ (c ++ cells k) := by
    refine ⟨⟨hadd hk₁ (fun _ _ => rfl) rfl rfl ?_ ?_, fun y hy _ => hframe y hy,
      fun y hy => (hplaces y).mp hy, hmode⟩, fun y hy => Or.inl ((hplaces y).mpr hy), nofun⟩
    · rw [hlen, blockalloclen_eq, wrap_add_wrap]
    · rw [hdlen, blocklen_eq, wrap_add_wrap]
  refine ⟨_, _, rfl, hmoves.flags ?_ ?_ ?_ ?_ ?_⟩
  all_goals split <;> rfl

theorem dropbuffer_spec (h : Has s.mem s.q c) (hk : Chain Block.next s.mem (some x) k)
    (hdisj : ∀ y ∈ addrs k, y ∉ places c) :
    ∃ r s', dropbuffer s x = some (r, s') ∧ Settles [] (addrs k) s c s' c := by
  obtain ⟨m, hfree, hmoves⟩ := (Settles.refl h (addrs k)).free hk
    (fun y hy hmem => hdisj y hmem hy) (fun _ hy => Or.inr hy) fun _ hy => hy
  cases k with
  | nil => cases hk
  | cons z k =>
    obtain ⟨hz, hmem, -⟩ := hk
    have hx : s.mem x = some z.2 := by
      rw [Option.some.inj hz]
      exact hmem
    refine ⟨wrap (BALLOC z.2), _, ?_, hmoves⟩
    simp only [dropbuffer, hx, hfree, Option.bind_eq_bind, Option.bind_some, Option.pure_def]

theorem qpass_spec (h : Has s.mem s.q c) (hk : Chain Block.next s.mem (some x) k)
    (hdisj : ∀ y ∈ addrs k, y ∉ places c) :
    ∃ r s', qpass s x = some (r, s') ∧
      Settles [] (addrs k) s c s' (if s.q.limit ≤ s.q.len ∨ s.q.closed then c else c ++ cells k) := by
  rw [qpass]
  by_cases hfull : s.q.limit ≤ s.q.len
  · rw [if_pos hfull, if_pos (Or.inl hfull)]
    obtain ⟨m, hfree, hmoves⟩ := (Settles.refl h (addrs k)).free hk
      (fun y hy hmem => hdisj y hmem hy) (fun _ hy => Or.inr hy) fun _ hy => hy
    refine ⟨-1, _, ?_, hmoves⟩
    simp only [hfree, Option.bind_eq_bind, Option.bind_some, Option.pure_def]
  · rw [if_neg hfull]
    by_cases hclosed : s.q.closed
    · rw [if_pos hclosed, if_pos (Or.inr hclosed)]
      exact dropbuffer_spec h hk hdisj
    · rw [if_neg hclosed, if_neg (not_or.mpr ⟨hfull, hclosed⟩)]
      exact addbuffer_spec h hk hdisj

theorem qpassnolim_spec (h : Has s.mem s.q c) (hk : Chain Block.next s.mem (some x) k)
    (hdisj : ∀ y ∈ addrs k, y ∉ places c) :
    ∃ r s', qpassnolim s x = some (r, s') ∧
      Settles [] (addrs k) s c s' (if s.q.closed then c else c ++ cells k) := by
  rw [qpassnolim]
  split
  · exact dropbuffer_spec h hk hdisj
  · exact addbuffer_spec h hk hdisj

theorem alloc_eq {m : Mem n} {r : Room n} {data : List UInt8} (h : r.Fits m data.length) :
    ∃ b : Block n, b.next = none ∧ b.alloc = r.alloc ∧ b.data = data ∧
      alloc m r data = some (Function.update m r.addr (some b)) := by
  obtain ⟨hfree, hroom⟩ := h
  refine ⟨⟨none, r.alloc, data, hroom.1, hroom.2⟩, rfl, rfl, rfl, ?_⟩
  simp only [alloc, hfree, dif_pos hroom]

/-- One new block is linked behind the last one. -/
theorem Has.attach_block (h : Has s.mem s.q c) {b : Block n} (hx : x ∉ places c)
    (hb : s.mem x = some b) :
    ∃ s₁, attach s x = some s₁ ∧ s₁.mem x = some b ∧ s₁.q = { s.q with bfirst := s₁.q.bfirst } ∧
      ∀ {m : Mem n} {q : Queue n}, m x = some (b.link none) → (∀ y, y ≠ x → m y = s₁.mem y) →
        q.bfirst = s₁.q.bfirst → q.blast = some x → q.len = wrap (s.q.len + BALLOC b) →
        q.dlen = wrap (s.q.dlen + BLEN b) → q.mode = s.q.mode →
        Settles [] [x] s c ⟨m, q⟩ (c ++ [cell (x, b)]) := by
  obtain ⟨s₁, hattach, hq, hframe, hadd⟩ := attach_spec h x
  refine ⟨s₁, hattach, by rw [hframe x hx, hb], hq, ?_⟩
  intro m q hmem hm hfirst hlast hlen hdlen hmode
  have hne : ∀ y ∈ places c, y ≠ x := fun y hy heq => hx (heq ▸ hy)
  have hchain : Chain Block.next m (some x) [(x, b.link none)] := ⟨rfl, hmem, rfl⟩
  have hhas := hadd hchain (fun y hy => hm y (hne y hy)) hfirst hlast
    (by rw [hlen]; simp [cells, cell, allocs, Block.link, BALLOC])
    (by rw [hdlen]; simp [cells, cell, lens, Block.link, BLEN])
  refine ⟨⟨hhas, ?_, ?_, hmode⟩, ?_, (by intros; contradiction)⟩
  · intro y hy hyx
    rw [List.mem_singleton] at hyx
    exact (hm y hyx).trans (hframe y hy)
  · intro y hy
    rw [places_append, List.mem_append] at hy
    exact hy
  · intro y hy
    rw [places_append, List.mem_append]
    exact Or.inl hy

/-- A block that `malloc` gave stands outside the queue. -/
theorem Has.alloc (h : Has s.mem s.q c) {r : Room n} {data : List UInt8}
    (hr : r.Fits s.mem data.length) :
    ∃ b : Block n, b.next = none ∧ b.alloc = r.alloc ∧ b.data = data ∧
      Qio.alloc s.mem r data = some (Function.update s.mem r.addr (some b)) ∧
      r.addr ∉ places c ∧
      Settles [r.addr] [r.addr] s c ⟨Function.update s.mem r.addr (some b), s.q⟩ c := by
  obtain ⟨b, hnext, halloc, hdata, heq⟩ := alloc_eq hr
  have hx := h.fresh hr.1
  exact ⟨b, hnext, halloc, hdata, heq, hx, h.moves_update hx _⟩

theorem link_none {b : Block n} (h : b.next = none) : b.link none = b := by
  cases b
  cases h
  rfl

/-- The block that `qproduce` makes. -/
def produced (q : Queue n) (r : Option (Room n)) : List (Fin n) :=
  if q.limit ≤ q.len then [] else (r.map Room.addr).toList

theorem qproduce_spec (h : Has s.mem s.q c) (p : List UInt8) (r : Option (Room n))
    (hr : ∀ r' ∈ r, r'.Fits s.mem p.length) :
    ∃ v s' c', qproduce s p r = some (v, s') ∧ Settles [] (produced s.q r) s c s' c' ∧
      (∀ y ∈ produced s.q r, s.mem y = none) ∧
      c'.map Cell.data =
        c.map Cell.data ++ (if s.q.limit ≤ s.q.len ∨ r.isNone then [] else [p]) := by
  unfold qproduce produced
  by_cases hfull : s.q.limit ≤ s.q.len
  · rw [if_pos hfull, if_pos hfull, if_pos (Or.inl hfull)]
    exact ⟨_, _, c, rfl, (Settles.refl h []).flags rfl rfl rfl rfl rfl, nofun, by simp⟩
  · rw [if_neg hfull, if_neg hfull]
    cases r with
    | none => exact ⟨0, s, c, rfl, Settles.refl h [], nofun, by simp⟩
    | some r =>
      have hfits := hr r rfl
      obtain ⟨b, hnext, halloc, hdata, heq, hx, hmoves⟩ := h.alloc hfits
      obtain ⟨s₁, hattach, hmem, hq, hadd⟩ :=
        hmoves.has.attach_block hx (Function.update_self r.addr (some b) s.mem)
      have hlen : s₁.q.len = s.q.len := by rw [hq]
      have hdlen : s₁.q.dlen = s.q.dlen := by rw [hq]
      have hmode : s₁.q.mode = s.q.mode := by rw [hq]; rfl
      have hadded := @hadd s₁.mem { s₁.q with
        blast := some r.addr
        len := wrap (s₁.q.len + BALLOC b)
        dlen := wrap (s₁.q.dlen + BLEN b) } (by rw [hmem, link_none hnext]) (fun _ _ => rfl) rfl rfl
        (by rw [hlen]) (by rw [hdlen]) hmode
      simp only [heq, hattach, hmem, Option.bind_eq_bind, Option.bind_some, Option.pure_def]
      refine ⟨_, _, c ++ [cell (r.addr, b)], rfl, ?_, ?_, ?_⟩
      · refine (hmoves.trans hadded (fun y hy => Or.inr hy) fun y hy => hy).flags ?_ ?_ ?_ ?_ ?_
        all_goals split <;> rfl
      · intro y hy
        rw [List.mem_singleton.mp hy]
        exact hfits.1
      · rw [if_neg (by simp [hfull]), List.map_append]
        simp [cell, hdata]

/-- The section of `qbwrite`, for a block that is not the queue's. -/
theorem qbwrite_spec (h : Has s.mem s.q c) {b : Block n} (hb : s.mem x = some b)
    (hx : x ∉ places c) :
    ∃ w s' c', qbwrite s x = some (w, s') ∧ Settles [] [x] s c s' c' ∧
      c'.map Cell.data = c.map Cell.data ++ (if w = .queued then [b.data] else []) ∧
      (s.q.closed = false → s.q.noblock = false → w = .queued) := by
  have hfreed := h.moves_freeb hx
  simp only [qbwrite, hb, freeb_eq hb, Option.bind_eq_bind, Option.bind_some, Option.pure_def]
  split
  · rename_i hclosed
    exact ⟨.error, _, c, rfl, hfreed, by simp, fun hopen => by simp [hopen] at hclosed⟩
  · split
    · rename_i hfull
      exact ⟨.dropped, _, c, rfl, hfreed, by simp, fun _ hblock => by simp [hblock] at hfull⟩
    · obtain ⟨s₁, hattach, hmem, hq, hadd⟩ := h.attach_block hx hb
      have hlen : s₁.q.len = s.q.len := by rw [hq]
      have hdlen : s₁.q.dlen = s.q.dlen := by rw [hq]
      have hmode : s₁.q.mode = s.q.mode := by rw [hq]; rfl
      have hadded := @hadd (Function.update s₁.mem x (some (b.link none))) { s₁.q with
        blast := some x
        len := wrap (s₁.q.len + BALLOC b)
        dlen := wrap (s₁.q.dlen + BLEN b)
        starve := false } (Function.update_self _ _ _) (update_ne _) rfl rfl
        (by rw [hlen]) (by rw [hdlen]) hmode
      refine ⟨.queued, _, _, ?_, hadded, by simp [cell], fun _ _ => rfl⟩
      simp only [hattach, hmem, Option.bind_some]

theorem qiwrite_spec (h : Has s.mem s.q c) {b : Block n} (hb : s.mem x = some b)
    (hnext : b.next = none) (hx : x ∉ places c) :
    ∃ w s' c', qiwrite s x = some (w, s') ∧ Settles [] [x] s c s' c' := by
  simp only [qiwrite, hb, freeb_eq hb, Option.bind_eq_bind, Option.bind_some, Option.pure_def]
  split
  · exact ⟨false, _, c, rfl, h.moves_freeb hx⟩
  · obtain ⟨s₁, hattach, hmem, hq, hadd⟩ := h.attach_block hx hb
    have hlen : s₁.q.len = s.q.len := by rw [hq]
    have hdlen : s₁.q.dlen = s.q.dlen := by rw [hq]
    have hmode : s₁.q.mode = s.q.mode := by rw [hq]; rfl
    have hadded := @hadd s₁.mem { s₁.q with
      blast := some x
      len := wrap (s₁.q.len + BALLOC b)
      dlen := wrap (s₁.q.dlen + BLEN b)
      starve := false } (by rw [hmem, link_none hnext]) (fun _ _ => rfl) rfl rfl
      (by rw [hlen]) (by rw [hdlen]) hmode
    refine ⟨true, _, _, ?_, hadded⟩
    simp only [hattach, Option.bind_some]

end Adding

end Petele.Qio
