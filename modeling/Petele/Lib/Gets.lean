import Petele.Lib.Cursor

namespace Petele.Lib

open LittleEndian

variable {α β γ δ : Type}

/-- `m` reads the format `F` at the cursor, given that at least `n` bytes are left: it gives
up where `F` does not decode, and otherwise returns some `a` that stands for the decoded
value in every buffer that agrees with the present one up to the new cursor. -/
def Gets (n : ℕ) (F : Format β) (V : List UInt8 → α → β → Prop) (m : Cursor α) : Prop :=
  ∀ pre todo, n ≤ todo.length →
    (F.dec todo = none → ∃ buf, buf.length = (pre ++ todo).length ∧
      m.run pre.length (pre ++ todo) = .quit buf) ∧
    (∀ b rest, F.dec todo = some (b, rest) → ∃ a mid, mid.length = (F.enc b).length ∧
      m.run pre.length (pre ++ todo) = .ok a (pre.length + mid.length) (pre ++ (mid ++ rest)) ∧
      ∀ post, V (pre ++ (mid ++ post)) a b)

namespace Gets

variable {n k : ℕ} {F : Format β} {G : Format δ} {V : List UInt8 → α → β → Prop} {m : Cursor α}

theorem mono (h : Gets n F V m) (hk : n ≤ k) : Gets k F V m :=
  fun pre todo hlen ↦ h pre todo (hk.trans hlen)

theorem nothing (a : α) : Gets n Format.empty (fun _ r _ ↦ r = a) (pure a) := by
  intro pre todo _
  constructor
  · intro h
    cases h
  · intro b rest h
    cases h
    exact ⟨a, [], rfl, rfl, fun _ ↦ rfl⟩

theorem map (h : Gets n F V m) (g : α → γ) :
    Gets n F (fun buf r b ↦ ∃ a, V buf a b ∧ r = g a) (do let a ← m; return g a) := by
  intro pre todo hlen
  obtain ⟨hnone, hsome⟩ := h pre todo hlen
  constructor
  · intro hd
    obtain ⟨buf, hbuf, hrun⟩ := hnone hd
    exact ⟨buf, hbuf, Cursor.bind_quit _ hrun⟩
  · intro b rest hd
    obtain ⟨a, mid, hmid, hrun, hV⟩ := hsome b rest hd
    refine ⟨g a, mid, hmid, ?_, fun post ↦ ⟨a, hV post, rfl⟩⟩
    rw [Cursor.bind_ok _ hrun]
    rfl

/-- After a successful read of `mid`, the rest of a pass goes on as it would alone. -/
theorem resume {W : List UInt8 → γ → δ → Prop} {c : α → Cursor γ} {a : α} {pre todo mid rest : List UInt8}
    (hrun : m.run pre.length (pre ++ todo) = .ok a (pre.length + mid.length) (pre ++ (mid ++ rest)))
    (hc : Gets k G W (c a)) (hk : k ≤ rest.length) :
    (G.dec rest = none → ∃ buf, buf.length = (pre ++ (mid ++ rest)).length ∧
      (m >>= c).run pre.length (pre ++ todo) = .quit buf) ∧
    (∀ b rest', G.dec rest = some (b, rest') → ∃ r mid', mid'.length = (G.enc b).length ∧
      (m >>= c).run pre.length (pre ++ todo) =
        .ok r (pre.length + (mid ++ mid').length) (pre ++ ((mid ++ mid') ++ rest')) ∧
      ∀ post, W (pre ++ ((mid ++ mid') ++ post)) r b) := by
  have h := hc (pre ++ mid) rest hk
  rw [List.append_assoc, List.length_append] at h
  rw [Cursor.bind_ok _ hrun]
  simpa only [List.length_append, List.append_assoc, Nat.add_assoc] using h

/-- Reading two formats in a row. Of the `n` bytes known to be left, `k` remain known
after the first one when it is not longer than the difference. -/
theorem andThen {W : α → List UInt8 → γ → δ → Prop} {c : α → Cursor γ} (hm : Gets n F V m)
    (hk : k = 0 ∨ ∀ b, (F.enc b).length + k ≤ n) (hc : ∀ a, Gets k G (W a) (c a)) :
    Gets n (F.pair G) (fun buf r x ↦ ∃ a, V buf a x.1 ∧ W a buf r x.2) (m >>= c) := by
  intro pre todo hlen
  obtain ⟨hnone, hsome⟩ := hm pre todo hlen
  cases hF : F.dec todo with
  | none =>
    obtain ⟨buf, hbuf, hrun⟩ := hnone hF
    refine ⟨fun _ ↦ ⟨buf, hbuf, Cursor.bind_quit _ hrun⟩, fun b rest hd ↦ ?_⟩
    simp [Format.pair, hF] at hd
  | some x =>
    obtain ⟨b, rest⟩ := x
    obtain ⟨a, mid, hmid, hrun, hV⟩ := hsome b rest hF
    obtain ⟨-, rfl⟩ := F.enc_dec _ _ _ hF
    have hleft : k ≤ rest.length := by
      rcases hk with rfl | hk
      · exact Nat.zero_le _
      · have h := hk b
        rw [List.length_append] at hlen
        omega
    obtain ⟨hnone', hsome'⟩ := resume hrun (hc a) hleft
    constructor
    · intro hd
      have hG : G.dec rest = none := by
        cases hG : G.dec rest with
        | none => rfl
        | some y => simp [Format.pair, hF, hG] at hd
      obtain ⟨buf, hbuf, hrun'⟩ := hnone' hG
      exact ⟨buf, by simp only [hbuf, List.length_append, hmid], hrun'⟩
    · intro x r hd
      simp only [Format.pair, hF, Option.bind_eq_bind, Option.bind_some, Option.bind_eq_some_iff,
        Prod.exists, Option.pure_def, Option.some.injEq, Prod.mk.injEq] at hd
      obtain ⟨b', rest', hG, rfl, rfl⟩ := hd
      obtain ⟨a', mid', hmid', hrun', hW⟩ := hsome' b' rest' hG
      refine ⟨a', mid ++ mid', ?_, hrun', fun post ↦ ⟨a, ?_, hW post⟩⟩
      · simp only [List.length_append, hmid, hmid', Format.pair]
      · simpa only [List.append_assoc] using hV (mid' ++ post)

/-- A format of exactly `w` bytes, and then the rest. -/
theorem fixed {W : α → List UInt8 → γ → δ → Prop} {c : α → Cursor γ} (hm : Gets n F V m)
    (hF : ∀ b, (F.enc b).length = n) (hc : ∀ a, Gets k G (W a) (c a)) :
    Gets (k + n) (F.pair G) (fun buf r x ↦ ∃ a, V buf a x.1 ∧ W a buf r x.2) (m >>= c) :=
  (hm.mono (Nat.le_add_left _ _)).andThen (Or.inr (fun b ↦ by rw [hF, Nat.add_comm])) hc

/-- A format of any length, after which nothing is known to be left. -/
theorem free {W : α → List UInt8 → γ → δ → Prop} {c : α → Cursor γ} (hm : Gets n F V m)
    (hc : ∀ a, Gets 0 G (W a) (c a)) :
    Gets n (F.pair G) (fun buf r x ↦ ∃ a, V buf a x.1 ∧ W a buf r x.2) (m >>= c) :=
  hm.andThen (Or.inl rfl) hc

theorem iso {f : β → δ} {g : δ → β} {hgf : ∀ a, g (f a) = a} {hfg : ∀ b, f (g b) = b}
    (h : Gets n F V m) : Gets n (F.iso f g hgf hfg) (fun buf a d ↦ V buf a (g d)) m := by
  intro pre todo hlen
  obtain ⟨hnone, hsome⟩ := h pre todo hlen
  constructor
  · intro hd
    exact hnone (by simpa [Format.iso] using hd)
  · intro d rest hd
    simp only [Format.iso, Option.map_eq_some_iff, Prod.exists, Prod.mk.injEq] at hd
    obtain ⟨b, r, hb, rfl, rfl⟩ := hd
    simpa only [Format.iso, hgf] using hsome b r hb

theorem weaken {W : List UInt8 → α → β → Prop} (h : Gets n F V m)
    (hVW : ∀ buf a b, V buf a b → W buf a b) : Gets n F W m := by
  intro pre todo hlen
  obtain ⟨hnone, hsome⟩ := h pre todo hlen
  refine ⟨hnone, fun b rest hd ↦ ?_⟩
  obtain ⟨a, mid, hmid, hrun, hV⟩ := hsome b rest hd
  exact ⟨a, mid, hmid, hrun, fun post ↦ hVW _ _ _ (hV post)⟩

/-- A count `a` of `w` bytes, and then the format it selects, or giving up when the count
is above the limit. -/
theorem counted {w : ℕ} (M : ℕ) (B : ℕ → Format δ) (size : δ → ℕ)
    (hsize : ∀ n b, (B n).ok b → size b = n) {num : α → ℕ} {W : α → List UInt8 → γ → δ → Prop}
    {c : α → Cursor γ} (hm : Gets n (Format.count w (256 ^ w)) (fun _ a v ↦ num a = v) m)
    (hc : ∀ a, num a ≤ M → Gets 0 (B (num a)) (W a) (c a))
    (hq : ∀ a, M < num a → ∀ p buf, (c a).run p buf = .quit buf) :
    Gets n (Format.counted (Format.count w M) B size hsize)
      (fun buf r b ↦ ∃ a, num a = size b ∧ W a buf r b) (m >>= c) := by
  intro pre todo hlen
  obtain ⟨hnone, hsome⟩ := hm pre todo hlen
  by_cases hw : w ≤ todo.length
  · have hval : leVal (todo.take w) ≤ 256 ^ w := by
      have h := leVal_lt (todo.take w)
      rw [List.length_take, Nat.min_eq_left hw] at h
      omega
    have hA : (Format.count w (256 ^ w)).dec todo = some (leVal (todo.take w), todo.drop w) := by
      simp [Format.count, hw, hval]
    obtain ⟨a, mid, hmid, hrun, hV⟩ := hsome _ _ hA
    have ha : num a = leVal (todo.take w) := hV []
    have hmid' : mid.length = (todo.take w).length := by
      rw [hmid, List.length_take, Nat.min_eq_left hw]
      exact leBytes_length _ _
    have hdec : (Format.counted (Format.count w M) B size hsize).dec todo =
        if num a ≤ M then (B (num a)).dec (todo.drop w) else none := by
      by_cases hM : num a ≤ M
      · simp [Format.counted, Format.count, hw, ← ha, hM]
      · simp [Format.counted, Format.count, hw, ← ha, hM]
    by_cases hM : num a ≤ M
    · obtain ⟨hnone', hsome'⟩ := resume hrun (hc a hM) (Nat.zero_le _)
      rw [hdec, if_pos hM]
      constructor
      · intro hd
        obtain ⟨buf, hbuf, hrun'⟩ := hnone' hd
        refine ⟨buf, ?_, hrun'⟩
        rw [hbuf, List.length_append, List.length_append, hmid', ← List.length_append,
          List.take_append_drop, List.length_append]
      · intro b r hd
        obtain ⟨a', mid', hlen', hrun', hW⟩ := hsome' b r hd
        have hb := hsize _ _ ((B (num a)).enc_dec _ _ _ hd).1
        refine ⟨a', mid ++ mid', ?_, hrun', fun post ↦ ⟨a, hb.symm, hW post⟩⟩
        simp only [List.length_append, hmid, hlen', Format.counted, hb, Format.count, leBytes_length]
    · rw [hdec, if_neg hM, Cursor.bind_ok _ hrun]
      refine ⟨fun _ ↦ ⟨_, ?_, hq a (by omega) _ _⟩, fun b r hd ↦ by cases hd⟩
      rw [List.length_append, List.length_append, hmid', ← List.length_append, List.take_append_drop,
        List.length_append]
  · have hA : (Format.count w (256 ^ w)).dec todo = none := by simp [Format.count, hw]
    have hdec : (Format.counted (Format.count w M) B size hsize).dec todo = none := by
      simp [Format.counted, Format.count, hw]
    obtain ⟨buf, hbuf, hrun⟩ := hnone hA
    rw [hdec]
    exact ⟨fun _ ↦ ⟨buf, hbuf, Cursor.bind_quit _ hrun⟩, fun b r hd ↦ by cases hd⟩

/-- Checking for `n` bytes first, when no value of the format is shorter. -/
theorem room (h : Gets n F V m) (hn : ∀ b, F.ok b → n ≤ (F.enc b).length) :
    Gets 0 F V (do Cursor.room n; m) := by
  intro pre todo _
  by_cases hlen : n ≤ todo.length
  · have hrun := Cursor.run_room pre todo n
    rw [if_pos hlen] at hrun
    rw [Cursor.bind_ok _ hrun]
    exact h pre todo hlen
  · have hrun := Cursor.run_room pre todo n
    rw [if_neg hlen] at hrun
    rw [Cursor.bind_quit _ hrun]
    refine ⟨fun _ ↦ ⟨_, rfl, rfl⟩, fun b rest hd ↦ ?_⟩
    obtain ⟨hok, rfl⟩ := F.enc_dec _ _ _ hd
    have hb := hn b hok
    rw [List.length_append] at hlen
    omega

theorem run_word {get : List UInt8 → β} {pre bs rest : List UInt8} {w : ℕ} (hw : bs.length = w) :
    (do let bs ← Cursor.peek 0 w; Cursor.advance w; return get bs : Cursor β).run pre.length
      (pre ++ (bs ++ rest)) = .ok (get bs) (pre.length + w) (pre ++ (bs ++ rest)) := by
  have hpeek : (Cursor.peek 0 w).run pre.length (pre ++ (bs ++ rest)) =
      .ok bs pre.length (pre ++ (bs ++ rest)) := @Cursor.run_peek pre [] bs rest 0 w rfl hw.symm
  rw [Cursor.bind_ok _ hpeek]
  rfl

theorem run_word_leBytes {w : ℕ} {toNat : β → ℕ} {ofNat : ℕ → β} {get : List UInt8 → β}
    (hget : ∀ bs : List UInt8, bs.length = w → get bs = ofNat (leVal bs)) (pre rest : List UInt8) {a : β}
    (hlt : toNat a < 256 ^ w) (hof : ofNat (toNat a) = a) :
    (do let bs ← Cursor.peek 0 w; Cursor.advance w; return get bs : Cursor β).run pre.length
      (pre ++ (leBytes w (toNat a) ++ rest)) =
      .ok a (pre.length + w) (pre ++ (leBytes w (toNat a) ++ rest)) := by
  have ha : get (leBytes w (toNat a)) = a := by
    rw [hget _ (leBytes_length _ _), leVal_leBytes, Nat.mod_eq_of_lt hlt, hof]
  have h := @run_word _ get pre (leBytes w (toNat a)) rest w (leBytes_length _ _)
  rwa [ha] at h

/-- A word read byte by byte. -/
theorem word {w : ℕ} {toNat : β → ℕ} {ofNat : ℕ → β} {hlt : ∀ a, toNat a < 256 ^ w}
    {hof : ∀ a, ofNat (toNat a) = a} {hto : ∀ k, k < 256 ^ w → toNat (ofNat k) = k}
    {get : List UInt8 → β} (hget : ∀ bs : List UInt8, bs.length = w → get bs = ofNat (leVal bs)) :
    Gets w (Format.word w toNat ofNat hlt hof hto) (fun _ a b ↦ a = b)
      (do let bs ← Cursor.peek 0 w; Cursor.advance w; return get bs) := by
  intro pre todo hlen
  have hw : (todo.take w).length = w := by rw [List.length_take]; omega
  have hrun := @run_word _ get pre (todo.take w) (todo.drop w) w hw
  rw [List.take_append_drop] at hrun
  refine ⟨fun hd ↦ ?_, fun b rest hd ↦ ?_⟩
  · simp [Format.word, hlen] at hd
  · simp only [Format.word, if_pos hlen, Option.some.injEq, Prod.mk.injEq] at hd
    obtain ⟨rfl, rfl⟩ := hd
    refine ⟨get (todo.take w), todo.take w, ?_, ?_, fun _ ↦ hget _ hw⟩
    · rw [hw]
      exact (leBytes_length _ _).symm
    · rw [hrun, hw, List.take_append_drop]

end Gets

namespace Cursor

/-- `get` for the entries `i`, ..., `i + n - 1` of an array. -/
def getAll (get : Cursor α) : ℕ → ℕ → (ℕ → α) → Cursor (ℕ → α)
  | 0, _, w => pure w
  | n + 1, i, w => do
    let a ← get
    getAll get n (i + 1) (Function.update w i a)

end Cursor

theorem Gets.getAll {F : Format β} {V : List UInt8 → α → β → Prop} {get : Cursor α} (h : Gets 0 F V get)
    (n i : ℕ) (w : ℕ → α) :
    Gets 0 (F.rep n)
      (fun buf w' l ↦ (∀ j, j < i → w' j = w j) ∧ ∀ j b, l[j]? = some b → V buf (w' (i + j)) b)
      (Cursor.getAll get n i w) := by
  induction n generalizing i w with
  | zero =>
    intro pre todo _
    constructor
    · intro hd
      cases hd
    · intro b rest hd
      cases hd
      exact ⟨w, [], rfl, rfl, fun _ ↦ ⟨fun _ _ ↦ rfl, fun j b hb ↦ by simp at hb⟩⟩
  | succ n ih =>
    have hstep := h.andThen (Or.inl rfl) (fun a ↦ ih (i + 1) (Function.update w i a))
    intro pre todo hlen
    obtain ⟨hnone, hsome⟩ := hstep pre todo hlen
    have hdec : (F.rep (n + 1)).dec todo =
        ((F.pair (F.rep n)).dec todo).map (fun x ↦ (x.1.1 :: x.1.2, x.2)) := by
      simp only [Format.rep, Format.decRep, Format.pair, Option.bind_eq_bind]
      cases F.dec todo with
      | none => rfl
      | some x => cases hx : F.decRep n x.2 <;> simp [hx]
    rw [hdec]
    constructor
    · intro hd
      exact hnone (by simpa using hd)
    · intro l rest hd
      rw [Option.map_eq_some_iff] at hd
      obtain ⟨⟨⟨b, l'⟩, r⟩, hx, he⟩ := hd
      cases he
      obtain ⟨w', mid, hmid, hrun, hV⟩ := hsome _ _ hx
      refine ⟨w', mid, by rw [hmid]; rfl, hrun, fun post ↦ ?_⟩
      obtain ⟨a, ha, hold, hnew⟩ := hV post
      constructor
      · intro j hj
        rw [hold j (by omega), Function.update_of_ne (by omega)]
      · intro j c hc
        cases j with
        | zero =>
          obtain rfl : b = c := by simpa using hc
          have h₀ := hold i (by omega)
          rw [Function.update_self] at h₀
          rw [Nat.add_zero, h₀]
          exact ha
        | succ j =>
          have hj := hnew j c (by simpa using hc)
          rwa [Nat.add_right_comm, Nat.add_assoc] at hj

end Petele.Lib
