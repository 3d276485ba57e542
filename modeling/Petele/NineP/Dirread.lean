import Petele.NineP.Stat

namespace Petele.NineP

open Lib Cursor

/-! ### `dirread.c` -/

/-- The loop of `statcheck` in a buffer that is said to end at `ebuf`. -/
def skipStatsAt (ebuf : ℕ) : ℕ → Cursor Unit
  | 0 => return ()
  | n + 1 => do
    let p ← here
    if p + BIT16SZ > ebuf then quit
    else
      let bs ← peek 0 BIT16SZ
      advance (BIT16SZ + (GBIT16 bs).toNat)
      skipStatsAt ebuf n

/-- `statcheck` of `nbuf` bytes at the cursor, whether or not they are there; `quit` is `return -1`. -/
def statcheckAt (nbuf : ℕ) : Cursor Unit := do
  let buf ← here
  if nbuf < STATFIXLEN then quit
  else
    let bs ← peek 0 BIT16SZ
    if nbuf ≠ BIT16SZ + (GBIT16 bs).toNat then quit
    else
      advance (STATFIXLEN - 4 * BIT16SZ)
      skipStatsAt (buf + nbuf) 4
      let p ← here
      if p ≠ buf + nbuf then quit else return ()

/-- `GBIT16(&mem[a])` -/
def word (mem : List UInt8) (a : ℕ) : ℕ := (GBIT16 ((mem.drop a).take BIT16SZ)).toNat

/-- The first loop of `dirpackage` over the `ts` bytes at `b`: the size of the strings and the number of the entries, where `i` has
come to. A `long` has 32 bits: past them `i` is negative, and the next byte is in front of the buffer. -/
def dirsizes (mem : List UInt8) (b ts i ss n : ℕ) : Outcome (ℕ × ℕ) :=
  if i < ts then
    if b + i + BIT16SZ ≤ mem.length then
      match (statcheckAt (BIT16SZ + word mem (b + i))).run (b + i) mem with
      | .fault => .fault
      | .quit _ => .ok (ss, n) i mem
      | .ok _ _ _ =>
        if i + (BIT16SZ + word mem (b + i)) < 2 ^ 31 then
          dirsizes mem b ts (i + (BIT16SZ + word mem (b + i))) (ss + (BIT16SZ + word mem (b + i))) (n + 1)
        else .fault
    else .fault
  else .ok (ss, n) i mem
termination_by ts - i
decreasing_by
  simp only [BIT16SZ]
  omega

/-- The second loop, where the strings go to `s`. -/
def dirfill (b ts n : ℕ) (nullstring : Str) (mem : List UInt8) (i nn s : ℕ) : Outcome (List (Dir Str)) :=
  if i < ts then
    if b + i + BIT16SZ ≤ mem.length then
      if n ≤ nn then .quit mem
      else
        match convM2D (b + i) (BIT16SZ + word mem (b + i)) (some s) nullstring mem with
        | .fault => .fault
        | .quit mem' => .quit mem'
        | .ok (m, d) _ mem' =>
          if m ≠ BIT16SZ + word mem (b + i) then .quit mem'
          else if i + (BIT16SZ + word mem (b + i)) < 2 ^ 31 then
            match dirfill b ts n nullstring mem' (i + (BIT16SZ + word mem (b + i))) (nn + 1) (s + (BIT16SZ + word mem (b + i))) with
            | .fault => .fault
            | .quit mem'' => .quit mem''
            | .ok ds p mem'' => .ok (d :: ds) p mem''
          else .fault
    else .fault
  else .ok [] i mem
termination_by ts - i
decreasing_by
  simp only [BIT16SZ]
  omega

/-- `malloc` gives a place for `n` entries and behind them, where it says, for the `ss` bytes of their strings. `quit` is
`return -1`. -/
def dirpackage (mem : List UInt8) (b ts : ℕ) (malloc : ℕ → ℕ → Option ℕ) (nullstring : Str) : Outcome (List (Dir Str)) :=
  if ts = 0 then .ok [] 0 mem
  else
    match dirsizes mem b ts 0 0 0 with
    | .fault => .fault
    | .quit mem => .quit mem
    | .ok (ss, n) i _ =>
      if i ≠ ts then .quit mem
      else
        match malloc n ss with
        | none => .quit mem
        | some s => dirfill b ts n nullstring mem 0 0 s

/-! ### The strings of an entry -/

section Strings

variable {mem mem' : List UInt8} {ebuf p n : ℕ}

/-- Where `n` strings end that start at `p`, if `statcheck` can go over them. -/
def skip (mem : List UInt8) (ebuf : ℕ) : ℕ → ℕ → Option ℕ
  | 0, p => some p
  | n + 1, p => if p + BIT16SZ > ebuf then none else skip mem ebuf n (p + (BIT16SZ + word mem p))

/-- Where they end, if `convM2D` can. -/
def walk (mem : List UInt8) (ebuf : ℕ) : ℕ → ℕ → Option ℕ
  | 0, p => some p
  | n + 1, p =>
    if p + BIT16SZ > ebuf then none
    else if p + BIT16SZ + word mem p > ebuf then none else walk mem ebuf n (p + (BIT16SZ + word mem p))

theorem skip_ge {q : ℕ} (h : skip mem ebuf n p = some q) : p ≤ q := by
  induction n generalizing p with
  | zero => exact Nat.le_of_eq (Option.some.inj h)
  | succ n ih =>
    rw [skip] at h
    split at h
    · exact nomatch h
    · have := ih h
      omega

theorem walk_ge {q : ℕ} (h : walk mem ebuf n p = some q) : p ≤ q := by
  induction n generalizing p with
  | zero => exact Nat.le_of_eq (Option.some.inj h)
  | succ n ih =>
    rw [walk] at h
    split at h
    · exact nomatch h
    · split at h
      · exact nomatch h
      · have := ih h
        omega

/-- The one looks before a string and the other behind it, so that they agree on what ends where it should. -/
theorem skip_iff_walk (mem : List UInt8) (ebuf n p : ℕ) : skip mem ebuf n p = some ebuf ↔ walk mem ebuf n p = some ebuf := by
  induction n generalizing p with
  | zero => rfl
  | succ n ih =>
    rw [skip, walk]
    split
    · rfl
    · rename_i hp
      rw [ih]
      split
      · rename_i hover
        refine ⟨fun h ↦ ?_, nofun⟩
        have := skip_ge ((ih _).mpr h)
        omega
      · rfl

theorem run_peek_word (h : p + BIT16SZ ≤ mem.length) :
    (peek 0 BIT16SZ).run p mem = .ok ((mem.drop p).take BIT16SZ) p mem := if_pos h

/-- The lengths of the strings that `statcheck` comes to are in memory. -/
def headers (mem : List UInt8) (ebuf : ℕ) : ℕ → ℕ → Bool
  | 0, _ => true
  | n + 1, p => decide (ebuf < p + BIT16SZ) || (decide (p + BIT16SZ ≤ mem.length) && headers mem ebuf n (p + (BIT16SZ + word mem p)))

/-- `statcheck` reads no further than where the buffer is said to end. -/
theorem headers_of_le (h : ebuf ≤ mem.length) (n p : ℕ) : headers mem ebuf n p = true := by
  induction n generalizing p with
  | zero => rfl
  | succ n ih =>
    rw [headers, ih, Bool.and_true, Bool.or_eq_true, decide_eq_true_eq, decide_eq_true_eq]
    omega

theorem run_skipStatsAt (mem : List UInt8) (ebuf n p : ℕ) :
    (skipStatsAt ebuf n).run p mem =
      if headers mem ebuf n p then
        match skip mem ebuf n p with
        | none => .quit mem
        | some q => .ok () q mem
      else .fault := by
  induction n generalizing p with
  | zero => rfl
  | succ n ih =>
    rw [skipStatsAt, skip, headers, bind_ok _ (run_here _ _)]
    by_cases hp : p + BIT16SZ > ebuf
    · rw [if_pos hp, if_pos hp, decide_eq_true hp, Bool.true_or, if_pos rfl]
      rfl
    · rw [if_neg hp, if_neg hp, decide_eq_false hp, Bool.false_or]
      by_cases hin : p + BIT16SZ ≤ mem.length
      · rw [decide_eq_true hin, Bool.true_and, bind_ok _ (run_peek_word hin), bind_ok _ (run_advance _ _ _)]
        exact ih _
      · have hpeek : (peek 0 BIT16SZ).run p mem = .fault := if_neg hin
        rw [decide_eq_false hin, Bool.false_and, run_bind, hpeek]
        rfl

theorem word_congr (h : ∀ j, p ≤ j → j < p + BIT16SZ → mem'[j]? = mem[j]?) : word mem' p = word mem p := by
  have heq : (mem'.drop p).take BIT16SZ = (mem.drop p).take BIT16SZ := by
    apply List.ext_getElem?
    intro j
    by_cases hj : j < BIT16SZ
    · rw [List.getElem?_take_of_lt hj, List.getElem?_take_of_lt hj, List.getElem?_drop, List.getElem?_drop, h _ (by omega) (by omega)]
    · rw [List.getElem?_take_eq_none (by omega), List.getElem?_take_eq_none (by omega)]
  rw [word, word, heq]

theorem walk_congr (h : ∀ j, p ≤ j → j < ebuf → mem'[j]? = mem[j]?) : walk mem' ebuf n p = walk mem ebuf n p := by
  induction n generalizing p with
  | zero => rfl
  | succ n ih =>
    rw [walk, walk]
    split
    · rfl
    · rename_i hp
      rw [word_congr fun j hj hlt ↦ h j hj (by omega), ih fun j hj ↦ h j (by omega)]

theorem run_gbit16 (h : p + BIT16SZ ≤ mem.length) :
    gbit16.run p mem = .ok (GBIT16 ((mem.drop p).take BIT16SZ)) (p + BIT16SZ) mem := by
  rw [gbit16, bind_ok _ (run_peek_word h), bind_ok _ (run_advance _ _ _)]
  rfl

/-- Strings with their NULs, one behind the other. -/
structure Filled (s e : ℕ) (sv : List Str) : Prop where
  inside : ∀ r ∈ sv, s ≤ r.p ∧ r.p + r.n + 1 ≤ e
  apart : sv.Pairwise fun a b ↦ a.p + a.n + 1 ≤ b.p

theorem Filled.nil (s e : ℕ) : Filled s e [] := ⟨nofun, .nil⟩

theorem Filled.append {s t e : ℕ} {sv sv' : List Str} (h : Filled s t sv) (h' : Filled t e sv') (hs : s ≤ t) (he : t ≤ e) :
    Filled s e (sv ++ sv') := by
  refine ⟨fun r hr ↦ ?_, List.pairwise_append.mpr ⟨h.apart, h'.apart, fun a ha b hb ↦ ?_⟩⟩
  · rcases List.mem_append.mp hr with hr | hr
    · have := h.inside r hr
      omega
    · have := h'.inside r hr
      omega
  · have := h.inside a ha
    have := h'.inside b hb
    omega

theorem Filled.one (s n : ℕ) : Filled s (s + n + 1) [⟨s, n⟩] := ⟨by simp, List.pairwise_singleton _ _⟩

theorem Filled.cons {s n e : ℕ} {sv : List Str} (h : Filled (s + n + 1) e sv) (he : s + n + 1 ≤ e) : Filled s e (⟨s, n⟩ :: sv) :=
  Filled.append (Filled.one s n) h (by omega) he

theorem Filled.mono {s e e' : ℕ} {sv : List Str} (h : Filled s e sv) (he : e ≤ e') : Filled s e' sv :=
  ⟨fun r hr ↦ ⟨(h.inside r hr).1, (h.inside r hr).2.trans he⟩, h.apart⟩

/-- What the loop of `convM2D` leaves at `s`, up to `e`. -/
structure Leaves (mem : List UInt8) (s e n : ℕ) (sv : List Str) (mem' : List UInt8) : Prop where
  length : mem'.length = mem.length
  frame : ∀ j, j < s ∨ e ≤ j → mem'[j]? = mem[j]?
  number : sv.length = n
  filled : Filled s e sv

/-- The loop of `convM2D`, when the strings go in front of what is still to be read, or behind the message. -/
theorem getStats_some {s : ℕ} (hebuf : ebuf ≤ mem.length) (hs : s + (ebuf - p) ≤ mem.length) (hsep : s ≤ p ∨ ebuf ≤ s) :
    match walk mem ebuf n p with
    | none => ∃ mem', (getStats ebuf n (some s)).run p mem = .quit mem'
    | some q => ∃ sv mem', (getStats ebuf n (some s)).run p mem = .ok sv q mem' ∧ Leaves mem s (s + (q - p)) n sv mem' := by
  induction n generalizing mem p s with
  | zero => exact ⟨[], mem, rfl, rfl, fun _ _ ↦ rfl, rfl, Filled.nil _ _⟩
  | succ n ih =>
    rw [walk, getStats, bind_ok _ (run_here _ _)]
    by_cases hp : p + BIT16SZ > ebuf
    · rw [if_pos hp, if_pos hp]
      exact ⟨mem, rfl⟩
    · rw [if_neg hp, if_neg hp, bind_ok _ (run_gbit16 (by omega)), bind_ok _ (run_here _ _), ← word]
      by_cases hns : p + BIT16SZ + word mem p > ebuf
      · rw [if_pos hns, if_pos hns]
        exact ⟨mem, rfl⟩
      · rw [if_neg hns, if_neg hns]
        generalize word mem p = ns at hns ⊢
        have hpeek : (peek 0 ns).run (p + BIT16SZ) mem = .ok ((mem.drop (p + BIT16SZ)).take ns) (p + BIT16SZ) mem := if_pos (by omega)
        have hlen : ((mem.drop (p + BIT16SZ)).take ns).length = ns := by
          rw [List.length_take, List.length_drop]
          omega
        simp only [BIT16SZ] at hp hns
        obtain ⟨mem₁, hrun₁, hlen₁, -, hframe₁⟩ := @run_pokeAt mem ((mem.drop (p + BIT16SZ)).take ns) s (by omega) (p + BIT16SZ)
        obtain ⟨mem₂, hrun₂, hlen₂, -, hframe₂⟩ := @run_pokeAt mem₁ [0] (s + ns) (by simp only [List.length_singleton]; omega) (p + BIT16SZ)
        rw [hlen] at hframe₁
        rw [List.length_singleton] at hframe₂
        have hframe : ∀ j, j < s ∨ s + ns + 1 ≤ j → mem₂[j]? = mem[j]? := by
          intro j hj
          rw [hframe₂ j (by omega), hframe₁ j (by omega)]
        simp only
        rw [bind_ok _ hpeek, bind_ok _ hrun₁, bind_ok _ hrun₂, bind_ok _ (run_advance _ _ _), Nat.add_assoc p]
        have hcongr : walk mem₂ ebuf n (p + (BIT16SZ + ns)) = walk mem ebuf n (p + (BIT16SZ + ns)) :=
          walk_congr fun j hj hlt ↦ hframe j (by simp only [BIT16SZ] at hj; omega)
        have hrest := @ih mem₂ (p + (BIT16SZ + ns)) (s + ns + 1) (by omega) (by simp only [BIT16SZ]; omega) (by simp only [BIT16SZ]; omega)
        rw [hcongr] at hrest
        cases hw : walk mem ebuf n (p + (BIT16SZ + ns)) with
        | none =>
          rw [hw] at hrest
          obtain ⟨mem', hrun⟩ := hrest
          exact ⟨mem', bind_quit _ hrun⟩
        | some q =>
          rw [hw] at hrest
          obtain ⟨sv, mem', hrun, hleaves⟩ := hrest
          have hq := walk_ge hw
          simp only [BIT16SZ] at hq
          have hend : s + ns + 1 + (q - (p + (BIT16SZ + ns))) ≤ s + (q - p) := by
            simp only [BIT16SZ]
            omega
          refine ⟨⟨s, ns⟩ :: sv, mem', bind_ok _ hrun, hleaves.length.trans (hlen₂.trans hlen₁), fun j hj ↦ ?_, ?_, ?_⟩
          · rw [hleaves.frame j (by omega), hframe j (by omega)]
          · rw [List.length_cons, hleaves.number]
          · exact (hleaves.filled.mono hend).cons (by omega)

theorem getStats_none (hebuf : ebuf ≤ mem.length) :
    (getStats ebuf n none).run p mem = match walk mem ebuf n p with
      | none => .quit mem
      | some q => .ok [] q mem := by
  induction n generalizing p with
  | zero => rfl
  | succ n ih =>
    rw [walk, getStats, bind_ok _ (run_here _ _)]
    split
    · rfl
    · rename_i hp
      rw [bind_ok _ (run_gbit16 (by omega)), bind_ok _ (run_here _ _), ← word]
      split
      · rfl
      · rw [bind_ok _ (run_advance _ _ _), Nat.add_assoc p]
        exact ih

end Strings

/-! ### `statcheck` and `convM2D` -/

section Entries

variable {mem mem' : List UInt8} {b nbuf p : ℕ}

/-- An entry that says its own length and whose strings end where it does. -/
def Entry (mem : List UInt8) (b nbuf : ℕ) : Prop :=
  STATFIXLEN ≤ nbuf ∧ nbuf = BIT16SZ + word mem b ∧ walk mem (b + nbuf) 4 (b + (STATFIXLEN - 4 * BIT16SZ)) = some (b + nbuf)

instance (mem : List UInt8) (b nbuf : ℕ) : Decidable (Entry mem b nbuf) :=
  inferInstanceAs (Decidable (_ ∧ _))

theorem run_statcheckAt (h : b + nbuf ≤ mem.length) :
    (statcheckAt nbuf).run b mem = if Entry mem b nbuf then .ok () (b + nbuf) mem else .quit mem := by
  rw [statcheckAt, bind_ok _ (run_here _ _)]
  by_cases hfix : nbuf < STATFIXLEN
  · rw [if_pos hfix, if_neg fun hentry ↦ Nat.not_lt.mpr hentry.1 hfix]
    rfl
  · have hlong : 49 ≤ nbuf := Nat.not_lt.mp hfix
    rw [if_neg hfix, bind_ok _ (run_peek_word (by simp only [BIT16SZ]; omega)), ← word]
    by_cases hsize : nbuf ≠ BIT16SZ + word mem b
    · rw [if_pos hsize, if_neg fun hentry ↦ hsize hentry.2.1]
      rfl
    · rw [if_neg hsize, bind_ok _ (run_advance _ _ _)]
      have hskip := run_skipStatsAt mem (b + nbuf) 4 (b + (STATFIXLEN - 4 * BIT16SZ))
      rw [if_pos (headers_of_le h _ _)] at hskip
      have hentry : Entry mem b nbuf ↔ skip mem (b + nbuf) 4 (b + (STATFIXLEN - 4 * BIT16SZ)) = some (b + nbuf) := by
        rw [skip_iff_walk]
        exact ⟨fun he ↦ he.2.2, fun hw ↦ ⟨Nat.not_lt.mp hfix, not_not.mp hsize, hw⟩⟩
      simp only [hentry]
      cases hs : skip mem (b + nbuf) 4 (b + (STATFIXLEN - 4 * BIT16SZ)) with
      | none =>
        rw [hs] at hskip
        rw [bind_quit _ hskip, if_neg (by simp)]
      | some q =>
        rw [hs] at hskip
        rw [bind_ok _ hskip, bind_ok _ (run_here _ _)]
        by_cases hq : q = b + nbuf
        · rw [if_neg (not_not.mpr hq), if_pos (congrArg some hq), hq]
          rfl
        · rw [if_pos hq, if_neg fun heq ↦ hq (Option.some.inj heq)]
          rfl

/-- The same as `statcheck` of a buffer. -/
theorem statcheckAt_eq (buf : List UInt8) : (statcheckAt buf.length).run 0 buf = statcheck buf := by
  have hloop : ∀ n p, (skipStatsAt buf.length n).run p buf = (skipStats n).run p buf := by
    intro n
    induction n with
    | zero => exact fun _ ↦ rfl
    | succ n ih =>
      intro p
      rw [skipStatsAt, skipStats, bind_ok _ (run_here _ _)]
      by_cases hp : p + BIT16SZ > buf.length
      · have hroom : (room BIT16SZ).run p buf = .quit buf := if_neg (Nat.not_le.mpr hp)
        rw [if_pos hp, bind_quit _ hroom]
        rfl
      · have hroom : (room BIT16SZ).run p buf = .ok () p buf := if_pos (Nat.not_lt.mp hp)
        have hpeek := run_peek_word (Nat.not_lt.mp hp)
        rw [if_neg hp, bind_ok _ hroom, bind_ok _ hpeek, bind_ok _ hpeek, bind_ok _ (run_advance _ _ _), bind_ok _ (run_advance _ _ _)]
        exact ih _
  rw [statcheckAt, statcheck, bind_ok _ (run_here _ _)]
  simp only [Nat.zero_add]
  split
  · rfl
  · rename_i hfix
    have hlong : 49 ≤ buf.length := Nat.not_lt.mp hfix
    have hpeek := @run_peek_word buf 0 (by simp only [BIT16SZ]; omega)
    rw [bind_ok _ hpeek, bind_ok _ hpeek]
    split
    · rfl
    · rw [bind_ok _ (run_advance _ _ _), bind_ok _ (run_advance _ _ _), run_bind, run_bind, hloop]

theorem run_getFixed_any (h : p + 39 ≤ mem.length) :
    ∃ k, getFixed.run p mem = .ok k (p + 39) mem ∧ ∀ sv null, (k sv null).sv = [sv.getD 0 null, sv.getD 1 null, sv.getD 2 null, sv.getD 3 null] := by
  have h₁ : ∀ {q} (_ : q + 1 ≤ mem.length), gbit8.run q mem = .ok (GBIT8 ((mem.drop q).take 1)) (q + 1) mem := by
    intro q hq
    have hpeek : (peek 0 BIT8SZ).run q mem = .ok ((mem.drop q).take 1) q mem := if_pos hq
    rw [gbit8, bind_ok _ hpeek, bind_ok _ (run_advance _ _ _)]
    rfl
  have h₄ : ∀ {q} (_ : q + 4 ≤ mem.length), gbit32.run q mem = .ok (GBIT32 ((mem.drop q).take 4)) (q + 4) mem := by
    intro q hq
    have hpeek : (peek 0 BIT32SZ).run q mem = .ok ((mem.drop q).take 4) q mem := if_pos hq
    rw [gbit32, bind_ok _ hpeek, bind_ok _ (run_advance _ _ _)]
    rfl
  have h₈ : ∀ {q} (_ : q + 8 ≤ mem.length), gbit64.run q mem = .ok (GBIT64 ((mem.drop q).take 8)) (q + 8) mem := by
    intro q hq
    have hpeek : (peek 0 BIT64SZ).run q mem = .ok ((mem.drop q).take 8) q mem := if_pos hq
    rw [gbit64, bind_ok _ hpeek, bind_ok _ (run_advance _ _ _)]
    rfl
  have h₂ := @run_gbit16 mem p (by simp only [BIT16SZ]; omega)
  simp only [BIT16SZ] at h₂
  rw [getFixed, bind_ok _ h₂, bind_ok _ (h₄ (by omega)), bind_ok _ (h₁ (by omega)), bind_ok _ (h₄ (by omega)), bind_ok _ (h₈ (by omega)),
    bind_ok _ (h₄ (by omega)), bind_ok _ (h₄ (by omega)), bind_ok _ (h₄ (by omega)), bind_ok _ (h₈ (by omega))]
  exact ⟨_, rfl, fun _ _ ↦ rfl⟩

theorem list_four {sv : List Str} (h : sv.length = 4) (null : Str) : [sv.getD 0 null, sv.getD 1 null, sv.getD 2 null, sv.getD 3 null] = sv := by
  match sv, h with
  | [_, _, _, _], _ => rfl

/-- What `convM2D` does with an entry, and whether it is all of it. -/
theorem convM2D_some {s : ℕ} (null : Str) (h : b + nbuf ≤ mem.length) (hs : s + nbuf ≤ mem.length) (hsep : s ≤ b ∨ b + nbuf ≤ s)
    (hfix : STATFIXLEN ≤ nbuf) :
    match walk mem (b + nbuf) 4 (b + (STATFIXLEN - 4 * BIT16SZ)) with
    | none => ∃ mem', convM2D b nbuf (some s) null mem = .quit mem'
    | some q => ∃ d mem', convM2D b nbuf (some s) null mem = .ok (q - b, d) q mem' ∧ Leaves mem s (s + (q - b)) 4 d.sv mem' := by
  have hlong : 49 ≤ nbuf := hfix
  have hfix' : STATFIXLEN - 4 * BIT16SZ = BIT16SZ + 39 := rfl
  obtain ⟨k, hk, hsv⟩ := @run_getFixed_any mem (b + BIT16SZ) (by simp only [BIT16SZ]; omega)
  have hstats := @getStats_some mem (b + nbuf) (b + (STATFIXLEN - 4 * BIT16SZ)) 4 s h (by omega) (by omega)
  rw [hfix', ← Nat.add_assoc] at hstats ⊢
  simp only [convM2D]
  rw [if_neg (Nat.not_lt.mpr hfix), bind_ok _ (run_advance _ _ _), bind_ok _ hk]
  cases hw : walk mem (b + nbuf) 4 (b + BIT16SZ + 39) with
  | none =>
    rw [hw] at hstats
    obtain ⟨mem', hrun⟩ := hstats
    exact ⟨mem', bind_quit _ hrun⟩
  | some q =>
    rw [hw] at hstats
    obtain ⟨sv, mem', hrun, hleaves⟩ := hstats
    have hq := walk_ge hw
    refine ⟨k sv null, mem', ?_, hleaves.length, fun j hj ↦ hleaves.frame j (by omega), ?_, ?_⟩
    · refine (bind_ok _ hrun).trans ?_
      rw [bind_ok _ (run_here _ _)]
      rfl
    · rw [hsv]
      rfl
    · rw [hsv, list_four hleaves.number]
      exact hleaves.filled.mono (by omega)

theorem convM2D_none (null : Str) (h : b + nbuf ≤ mem.length) (hfix : STATFIXLEN ≤ nbuf) :
    match walk mem (b + nbuf) 4 (b + (STATFIXLEN - 4 * BIT16SZ)) with
    | none => convM2D b nbuf none null mem = .quit mem
    | some q => ∃ d, convM2D b nbuf none null mem = .ok (q - b, d) q mem := by
  have hlong : 49 ≤ nbuf := hfix
  have hfix' : STATFIXLEN - 4 * BIT16SZ = BIT16SZ + 39 := rfl
  obtain ⟨k, hk, -⟩ := @run_getFixed_any mem (b + BIT16SZ) (by simp only [BIT16SZ]; omega)
  have hstats := @getStats_none mem (b + nbuf) (b + (STATFIXLEN - 4 * BIT16SZ)) 4 h
  rw [hfix', ← Nat.add_assoc] at hstats ⊢
  simp only [convM2D]
  rw [if_neg (Nat.not_lt.mpr hfix), bind_ok _ (run_advance _ _ _), bind_ok _ hk]
  cases hw : walk mem (b + nbuf) 4 (b + BIT16SZ + 39) with
  | none =>
    rw [hw] at hstats
    exact bind_quit _ hstats
  | some q =>
    rw [hw] at hstats
    exact ⟨k [] null, (bind_ok _ hstats).trans rfl⟩

/-- Both parsers take the same entries. -/
theorem statcheckAt_iff {strs : Option ℕ} (null : Str) (h : b + nbuf ≤ mem.length)
    (hs : ∀ s, strs = some s → s + nbuf ≤ mem.length ∧ (s ≤ b ∨ b + nbuf ≤ s)) :
    (∃ p m, (statcheckAt nbuf).run b mem = .ok () p m) ↔
      nbuf = BIT16SZ + word mem b ∧ ∃ d p m, convM2D b nbuf strs null mem = .ok (nbuf, d) p m := by
  have hleft : (∃ p m, (statcheckAt nbuf).run b mem = .ok () p m) ↔ Entry mem b nbuf := by
    rw [run_statcheckAt h]
    split
    · exact ⟨fun _ ↦ ‹_›, fun _ ↦ ⟨_, _, rfl⟩⟩
    · exact ⟨(by simp), fun he ↦ absurd he ‹_›⟩
  have hright : (∃ d p m, convM2D b nbuf strs null mem = .ok (nbuf, d) p m) ↔
      STATFIXLEN ≤ nbuf ∧ walk mem (b + nbuf) 4 (b + (STATFIXLEN - 4 * BIT16SZ)) = some (b + nbuf) := by
    by_cases hfix : STATFIXLEN ≤ nbuf
    · have hw : match walk mem (b + nbuf) 4 (b + (STATFIXLEN - 4 * BIT16SZ)) with
          | none => ∃ m, convM2D b nbuf strs null mem = .quit m
          | some q => ∃ d m, convM2D b nbuf strs null mem = .ok (q - b, d) q m := by
        cases strs with
        | none =>
          have hnone := convM2D_none null h hfix
          split at hnone
          · exact ⟨mem, hnone⟩
          · obtain ⟨d, hrun⟩ := hnone
            exact ⟨d, mem, hrun⟩
        | some s =>
          have hsome := convM2D_some null h (hs s rfl).1 (hs s rfl).2 hfix
          split at hsome
          · exact hsome
          · obtain ⟨d, m, hrun, -⟩ := hsome
            exact ⟨d, m, hrun⟩
      simp only [hfix, true_and]
      cases hwalk : walk mem (b + nbuf) 4 (b + (STATFIXLEN - 4 * BIT16SZ)) with
      | none =>
        rw [hwalk] at hw
        obtain ⟨m, hrun⟩ := hw
        rw [hrun]
        exact ⟨(by simp), (by simp)⟩
      | some q =>
        rw [hwalk] at hw
        obtain ⟨d, m, hrun⟩ := hw
        have hge := walk_ge hwalk
        rw [hrun, Option.some.injEq]
        constructor
        · rintro ⟨d', p, m', heq⟩
          simp only [Outcome.ok.injEq, Prod.mk.injEq] at heq
          omega
        · intro hq
          exact ⟨d, q, m, by rw [hq, Nat.add_sub_cancel_left]⟩
    · have hquit : convM2D b nbuf strs null mem = .quit mem := by
        simp only [convM2D]
        rw [if_pos (Nat.not_le.mp hfix)]
        rfl
      rw [hquit]
      exact ⟨(by simp), fun hc ↦ absurd hc.1 hfix⟩
  rw [hleft, hright, Entry]
  exact and_left_comm

end Entries

/-! ### `dirpackage` -/

section Directories

variable {mem mem' : List UInt8} {b ts i ss n : ℕ}

theorem dirsizes_le {ss' n' e : ℕ} {m : List UInt8} (h : dirsizes mem b ts i ss n = .ok (ss', n') e m) :
    i ≤ e ∧ ss' = ss + (e - i) ∧ n ≤ n' := by
  fun_induction dirsizes mem b ts i ss n with
  | case1 => cases h
  | case2 i ss n =>
    cases h
    omega
  | case3 i ss n hlt hin _ _ _ hrun hlong ih =>
    have hnext := ih h
    simp only [BIT16SZ] at hnext
    omega
  | case4 => cases h
  | case5 => cases h
  | case6 i ss n hlt =>
    cases h
    omega

theorem Entry.congr {nbuf : ℕ} (h : Entry mem b nbuf) (hagree : ∀ j, b ≤ j → j < b + nbuf → mem'[j]? = mem[j]?) : Entry mem' b nbuf := by
  obtain ⟨hfix, hsize, hwalk⟩ := h
  have hlong : 49 ≤ nbuf := hfix
  refine ⟨hfix, ?_, ?_⟩
  · rw [word_congr fun j hj hlt ↦ hagree j hj (by simp only [BIT16SZ] at hlt; omega)]
    exact hsize
  · rw [walk_congr fun j hj hlt ↦ hagree j (by omega) hlt]
    exact hwalk

/-- The entries that the first loop has gone over, the second one converts, into the bytes behind each other at `s`. -/
theorem dirfill_ok {ss' n' s : ℕ} {m : List UInt8} (null : Str) (hlen : b + ts ≤ mem.length) (h : dirsizes mem b ts i ss n = .ok (ss', n') ts m)
    (hmem : mem'.length = mem.length) (hagree : ∀ j, b ≤ j → j < b + ts → mem'[j]? = mem[j]?) (hs : s + (ts - i) ≤ mem.length)
    (hsep : s + (ts - i) ≤ b ∨ b + ts ≤ s) :
    ∃ ds mem'', dirfill b ts n' null mem' i n s = .ok ds ts mem'' ∧ ds.length = n' - n ∧
      Filled s (s + (ts - i)) (ds.flatMap Dir.sv) ∧ ∀ j, j < s ∨ s + (ts - i) ≤ j → mem''[j]? = mem'[j]? := by
  fun_induction dirsizes mem b ts i ss n generalizing mem' s with
  | case1 => cases h
  | case2 i ss n hlt =>
    cases h
    omega
  | case3 i ss n hlt hin _ _ _ hrun hlong ih =>
    obtain ⟨hle, -, hn⟩ := dirsizes_le h
    have hword : word mem' (b + i) = word mem (b + i) :=
      word_congr fun j hj hj' ↦ hagree j (by omega) (by simp only [BIT16SZ] at hle hj'; omega)
    generalize hm : BIT16SZ + word mem (b + i) = m at *
    have hpos : 0 < m := by
      simp only [BIT16SZ] at hm
      omega
    have hentry : Entry mem' (b + i) m := by
      rw [run_statcheckAt (by omega)] at hrun
      split at hrun
      · rename_i he
        exact he.congr fun j hj hj' ↦ hagree j (by omega) (by omega)
      · cases hrun
    have hconv := @convM2D_some mem' (b + i) m s null (by omega) (by omega) (by omega) hentry.1
    rw [hentry.2.2] at hconv
    obtain ⟨d, mem₁, hrun₁, hleaves⟩ := hconv
    rw [Nat.add_sub_cancel_left] at hrun₁ hleaves
    obtain ⟨ds, mem₂, hrun₂, hnum, hfilled, hframe⟩ := @ih mem₁ (s + m) h (hleaves.length.trans hmem)
      (fun j hj hj' ↦ (hleaves.frame j (by omega)).trans (hagree j hj hj')) (by omega) (by omega)
    have hend : s + m + (ts - (i + m)) = s + (ts - i) := by omega
    rw [hend] at hfilled hframe
    refine ⟨d :: ds, mem₂, ?_, ?_, ?_, fun j hj ↦ ?_⟩
    · rw [dirfill, if_pos hlt, if_pos (by omega), if_neg (by omega), hword, hm, hrun₁]
      simp only [ne_eq, not_true, if_false, if_pos hlong, hrun₂]
    · rw [List.length_cons, hnum]
      omega
    · rw [List.flatMap_cons]
      exact hleaves.filled.append hfilled (by omega) (by omega)
    · rw [hframe j (by omega), hleaves.frame j (by omega)]
  | case4 => cases h
  | case5 => cases h
  | case6 i ss n hlt =>
    cases h
    refine ⟨[], mem', ?_, by simp, Filled.nil _ _, fun _ _ ↦ rfl⟩
    rw [dirfill, if_neg hlt]

/-- `statcheck` and `convM2D` agree on every buffer. So `dirpackage` can convert all that it has counted, and the strings of the
entries go behind each other into the bytes it has reserved. -/
theorem statcheck_convM2D (mem : List UInt8) (b : ℕ) (null : Str) :
    (∀ nbuf strs, b + nbuf ≤ mem.length → (∀ s, strs = some s → s + nbuf ≤ mem.length ∧ (s ≤ b ∨ b + nbuf ≤ s)) →
      ((∃ p m, (statcheckAt nbuf).run b mem = .ok () p m) ↔
        nbuf = BIT16SZ + word mem b ∧ ∃ d p m, convM2D b nbuf strs null mem = .ok (nbuf, d) p m)) ∧
    ∀ ts ss n s malloc, b + ts ≤ mem.length → dirsizes mem b ts 0 0 0 = .ok (ss, n) ts mem → malloc n ss = some s →
      s + ss ≤ mem.length → (s + ss ≤ b ∨ b + ts ≤ s) →
      ∃ ds mem', dirpackage mem b ts malloc null = .ok ds ts mem' ∧ ds.length = n ∧ Filled s (s + ss) (ds.flatMap Dir.sv) ∧
        ∀ j, j < s ∨ s + ss ≤ j → mem'[j]? = mem[j]? := by
  refine ⟨fun nbuf strs h hs ↦ statcheckAt_iff null h hs, fun ts ss n s malloc hlen hsizes hmalloc hs hsep ↦ ?_⟩
  obtain ⟨-, hss, -⟩ := dirsizes_le hsizes
  rw [Nat.zero_add] at hss
  obtain ⟨ds, mem', hfill, hnum, hfilled, hframe⟩ := dirfill_ok null hlen hsizes rfl (fun _ _ _ ↦ rfl) (s := s) (by omega) (by omega)
  rw [← hss] at hfilled hframe
  refine ⟨ds, mem', ?_, hnum, hfilled, hframe⟩
  rw [dirpackage]
  split
  · rename_i hzero
    subst hzero
    rw [dirfill, if_neg (Nat.lt_irrefl 0)] at hfill
    exact hfill
  · simp only [hsizes, ne_eq, not_true, if_false, hmalloc]
    exact hfill

/-- An entry with four empty strings, and as many bytes behind it. -/
def emptyEntry : List UInt8 := 47 :: List.replicate 97 0

theorem emptyEntry_sizes : dirsizes emptyEntry 0 49 0 0 0 = .ok (49, 1) 49 emptyEntry := by
  have hword : word emptyEntry 0 = 47 := by decide
  have hrun : (statcheckAt 49).run 0 emptyEntry = .ok () 49 emptyEntry := by
    rw [run_statcheckAt (by decide), if_pos (by decide)]
  rw [dirsizes, if_pos (by decide), if_pos (by decide)]
  simp only [Nat.zero_add, hword, BIT16SZ, hrun]
  rw [if_pos (by decide), dirsizes, if_neg (by decide)]

theorem statcheck_convM2D_emptyEntry :
    (∃ d p m, convM2D 0 49 none ⟨0, 0⟩ emptyEntry = .ok (49, d) p m) ∧
      ∃ ds mem', dirpackage emptyEntry 0 49 (fun _ _ ↦ some 49) ⟨0, 0⟩ = .ok ds 49 mem' ∧ ds.length = 1 := by
  obtain ⟨hagree, hpackage⟩ := statcheck_convM2D emptyEntry 0 ⟨0, 0⟩
  refine ⟨((hagree 49 none (by decide) nofun).mp ?_).2, ?_⟩
  · rw [run_statcheckAt (by decide), if_pos (by decide)]
    exact ⟨_, _, rfl⟩
  · obtain ⟨ds, mem', hrun, hnum, -⟩ := hpackage 49 49 1 49 (fun _ _ ↦ some 49) (by decide) emptyEntry_sizes rfl (by decide) (.inr (by decide))
    exact ⟨ds, mem', hrun, hnum⟩

/-- Where the entries end that are whole. -/
def whole (mem : List UInt8) (b ts i : ℕ) : ℕ :=
  if i + (BIT16SZ + word mem (b + i)) ≤ ts ∧ Entry mem (b + i) (BIT16SZ + word mem (b + i)) then
    whole mem b ts (i + (BIT16SZ + word mem (b + i)))
  else i
termination_by ts - i
decreasing_by
  simp only [BIT16SZ] at *
  omega

/-- What is left at `r` does not lead out of the buffer: it has a length, and either all the bytes that this promises, or all the
lengths of strings among them. If it is taken for an entry all the same, its end is still a `long`. -/
def Harmless (mem : List UInt8) (b ts r : ℕ) : Prop :=
  r = ts ∨ r + BIT16SZ ≤ ts ∧
    let m := BIT16SZ + word mem (b + r)
    m < STATFIXLEN ∨ r + m ≤ ts ∨ headers mem (b + r + m) 4 (b + r + (STATFIXLEN - 4 * BIT16SZ)) = true ∧
      (skip mem (b + r + m) 4 (b + r + (STATFIXLEN - 4 * BIT16SZ)) = some (b + r + m) → r + m < 2 ^ 31)

theorem run_statcheckAt_word (hin : b + BIT16SZ ≤ mem.length) (hfix : STATFIXLEN ≤ BIT16SZ + word mem b) :
    (statcheckAt (BIT16SZ + word mem b)).run b mem =
      if headers mem (b + (BIT16SZ + word mem b)) 4 (b + (STATFIXLEN - 4 * BIT16SZ)) then
        if skip mem (b + (BIT16SZ + word mem b)) 4 (b + (STATFIXLEN - 4 * BIT16SZ)) = some (b + (BIT16SZ + word mem b)) then
          .ok () (b + (BIT16SZ + word mem b)) mem
        else .quit mem
      else .fault := by
  have hskip := run_skipStatsAt mem (b + (BIT16SZ + word mem b)) 4 (b + (STATFIXLEN - 4 * BIT16SZ))
  rw [statcheckAt, bind_ok _ (run_here _ _), if_neg (Nat.not_lt.mpr hfix), bind_ok _ (run_peek_word hin), ← word, if_neg (by simp),
    bind_ok _ (run_advance _ _ _)]
  by_cases hh : headers mem (b + (BIT16SZ + word mem b)) 4 (b + (STATFIXLEN - 4 * BIT16SZ)) = true
  · rw [if_pos hh] at hskip ⊢
    cases hs : skip mem (b + (BIT16SZ + word mem b)) 4 (b + (STATFIXLEN - 4 * BIT16SZ)) with
    | none =>
      rw [hs] at hskip
      rw [bind_quit _ hskip, if_neg nofun]
    | some q =>
      rw [hs] at hskip
      rw [bind_ok _ hskip, bind_ok _ (run_here _ _)]
      by_cases hq : q = b + (BIT16SZ + word mem b)
      · rw [if_neg (not_not.mpr hq), if_pos (congrArg some hq), hq]
        rfl
      · rw [if_pos hq, if_neg fun heq ↦ hq (Option.some.inj heq)]
        rfl
  · rw [if_neg hh] at hskip ⊢
    rw [run_bind, hskip]

/-- The first loop gets past the whole entries, so that what counts is the rest. -/
theorem dirsizes_inside (hlen : mem.length = b + ts) (hts : ts < 2 ^ 31) (hi : i ≤ ts) :
    dirsizes mem b ts i ss n ≠ .fault ↔ Harmless mem b ts (whole mem b ts i) := by
  fun_induction whole mem b ts i generalizing ss n with
  | case1 i h ih =>
    obtain ⟨hle, hentry⟩ := h
    have hlong : 49 ≤ BIT16SZ + word mem (b + i) := hentry.1
    rw [dirsizes, if_pos (by omega), if_pos (by simp only [BIT16SZ]; omega), run_statcheckAt (by omega), if_pos hentry]
    simp only
    rw [if_pos (by omega)]
    exact ih hle
  | case2 i h =>
    rw [dirsizes, Harmless]
    simp only
    by_cases hlt : i < ts
    · rw [if_pos hlt]
      by_cases hin : b + i + BIT16SZ ≤ mem.length
      · rw [if_pos hin]
        have hin' : i + BIT16SZ ≤ ts := by omega
        by_cases hfix : BIT16SZ + word mem (b + i) < STATFIXLEN
        · rw [statcheckAt, bind_ok _ (run_here _ _), if_pos hfix]
          exact ⟨fun _ ↦ .inr ⟨hin', .inl hfix⟩, fun _ ↦ (by simp)⟩
        · by_cases hle : i + (BIT16SZ + word mem (b + i)) ≤ ts
          · rw [run_statcheckAt (by omega), if_neg fun he ↦ h ⟨hle, he⟩]
            exact ⟨fun _ ↦ .inr ⟨hin', .inr (.inl hle)⟩, fun _ ↦ (by simp)⟩
          · rw [run_statcheckAt_word hin (Nat.not_lt.mp hfix)]
            have hcond : (i = ts ∨ i + BIT16SZ ≤ ts ∧ (BIT16SZ + word mem (b + i) < STATFIXLEN ∨ i + (BIT16SZ + word mem (b + i)) ≤ ts ∨
                headers mem (b + i + (BIT16SZ + word mem (b + i))) 4 (b + i + (STATFIXLEN - 4 * BIT16SZ)) = true ∧
                (skip mem (b + i + (BIT16SZ + word mem (b + i))) 4 (b + i + (STATFIXLEN - 4 * BIT16SZ)) =
                  some (b + i + (BIT16SZ + word mem (b + i))) → i + (BIT16SZ + word mem (b + i)) < 2 ^ 31))) ↔
                headers mem (b + i + (BIT16SZ + word mem (b + i))) 4 (b + i + (STATFIXLEN - 4 * BIT16SZ)) = true ∧
                (skip mem (b + i + (BIT16SZ + word mem (b + i))) 4 (b + i + (STATFIXLEN - 4 * BIT16SZ)) =
                  some (b + i + (BIT16SZ + word mem (b + i))) → i + (BIT16SZ + word mem (b + i)) < 2 ^ 31) := by
              constructor
              · rintro (heq | ⟨-, hsmall | hfits | hh⟩)
                · omega
                · exact absurd hsmall hfix
                · exact absurd hfits hle
                · exact hh
              · exact fun hh ↦ .inr ⟨hin', .inr (.inr hh)⟩
            rw [hcond]
            split
            · rename_i hrun
              split at hrun
              · split at hrun <;> cases hrun
              · rename_i hh
                exact ⟨fun h ↦ absurd rfl h, fun hc ↦ absurd hc.1 hh⟩
            · rename_i hrun
              split at hrun
              · rename_i hh
                split at hrun
                · cases hrun
                · rename_i hs
                  exact ⟨fun _ ↦ ⟨hh, fun heq ↦ absurd heq hs⟩, fun _ ↦ (by simp)⟩
              · cases hrun
            · rename_i hrun
              split at hrun
              · rename_i hh
                split at hrun
                · rename_i hs
                  split
                  · rename_i hlong
                    refine ⟨fun _ ↦ ⟨hh, fun _ ↦ hlong⟩, fun _ ↦ ?_⟩
                    -- the end is behind the buffer, so that the loop stops here
                    rw [dirsizes, if_neg (by omega)]
                    simp
                  · rename_i hlong
                    exact ⟨fun h ↦ absurd rfl h, fun hc ↦ absurd (hc.2 hs) hlong⟩
                · cases hrun
              · cases hrun
      · rw [if_neg hin]
        refine ⟨fun h ↦ absurd rfl h, ?_⟩
        rintro (heq | ⟨hle, -⟩) <;> omega
    · rw [if_neg hlt]
      exact ⟨fun _ ↦ .inl (by omega), fun _ ↦ (by simp)⟩

/-- A buffer at the end of memory is read outside just when what is left behind its whole entries leads there. -/
theorem dirpackage_inside {malloc : ℕ → ℕ → Option ℕ} (null : Str) (hlen : mem.length = b + ts) (hts : ts < 2 ^ 31)
    (hmalloc : ∀ n ss s, malloc n ss = some s → s + ss ≤ b) :
    dirpackage mem b ts malloc null ≠ .fault ↔ Harmless mem b ts (whole mem b ts 0) := by
  rw [← @dirsizes_inside mem b ts 0 0 0 hlen hts (Nat.zero_le _), dirpackage]
  by_cases hzero : ts = 0
  · rw [if_pos hzero, dirsizes, if_neg (by omega)]
    exact ⟨fun _ ↦ (by simp), fun _ ↦ (by simp)⟩
  · rw [if_neg hzero]
    cases hsizes : dirsizes mem b ts 0 0 0 with
    | fault => exact ⟨fun h ↦ absurd rfl h, fun h ↦ absurd rfl h⟩
    | quit m => exact ⟨fun _ ↦ (by simp), fun _ ↦ (by simp)⟩
    | ok x e m =>
      obtain ⟨ss, n⟩ := x
      refine ⟨fun _ ↦ (by simp), fun _ ↦ ?_⟩
      simp only
      split
      · simp
      · rename_i he
        rw [ne_eq, not_not] at he
        subst he
        split
        · simp
        · rename_i s hs
          have harea := hmalloc n ss s hs
          obtain ⟨-, hss, -⟩ := dirsizes_le hsizes
          obtain ⟨ds, mem', hfill, -⟩ := dirfill_ok null (Nat.le_of_eq hlen.symm) hsizes rfl (fun _ _ _ ↦ rfl) (s := s) (by omega) (by omega)
          rw [hfill]
          simp

/-- Two bytes that say there is nothing behind them. -/
theorem dirpackage_inside_two : dirpackage [0, 0] 0 2 (fun _ _ ↦ none) ⟨0, 0⟩ ≠ .fault := by
  have hmalloc : ∀ n ss s : ℕ, (fun _ _ ↦ none : ℕ → ℕ → Option ℕ) n ss = some s → s + ss ≤ 0 := fun _ _ _ hs ↦ nomatch hs
  apply (dirpackage_inside ⟨0, 0⟩ rfl (by decide) hmalloc).mpr
  rw [whole, if_neg (by decide)]
  exact .inr ⟨by decide, .inl (by decide)⟩

/-- Of a buffer with one byte the second is read. -/
theorem dirpackage_outside : ¬ ∀ (mem : List UInt8) (b ts : ℕ) (malloc : ℕ → ℕ → Option ℕ) (null : Str), mem.length = b + ts → 0 < ts →
    ts < 2 ^ 31 → (∀ n ss s, malloc n ss = some s → s + ss ≤ b) → dirpackage mem b ts malloc null ≠ .fault := by
  intro h
  apply h [0] 0 1 (fun _ _ ↦ none) ⟨0, 0⟩ rfl (by decide) (by decide) (fun _ _ _ hs ↦ nomatch hs)
  rw [dirpackage, if_neg (by decide), dirsizes, if_pos (by decide), if_neg (by decide)]

end Directories

end Petele.NineP
