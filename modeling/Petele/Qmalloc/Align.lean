import Mathlib.Data.Nat.Bitwise
import Petele.Qmalloc.Take

namespace Petele.Qmalloc

open Petele.Lib

section Mask

variable {e h v t q : ℕ}

/-- The low bits of a `uintptr` are cleared. -/
theorem and_mask (he : e ≤ 64) (hv : v < 2 ^ 64) : v &&& (2 ^ 64 - 2 ^ e) = v / 2 ^ e * 2 ^ e := by
  have hmask : 2 ^ 64 - 2 ^ e = (2 ^ (64 - e) - 1) <<< e := by
    rw [Nat.shiftLeft_eq, Nat.sub_mul, ← Nat.pow_add, Nat.sub_add_cancel he, Nat.one_mul]
  rw [hmask, ← Nat.shiftRight_eq_div_pow, ← Nat.shiftLeft_eq]
  apply Nat.eq_of_testBit_eq
  intro i
  simp only [Nat.testBit_and, Nat.testBit_shiftLeft, Nat.testBit_shiftRight, Nat.testBit_two_pow_sub_one]
  by_cases hi : e ≤ i
  · by_cases hlt : i < 64
    · have : i - e < 64 - e := by omega
      simp [hi, this, Nat.add_sub_cancel' hi]
    · have hbit : v.testBit i = false := Nat.testBit_lt_two_pow (Nat.lt_of_lt_of_le hv (Nat.pow_le_pow_right (by decide) (by omega)))
      simp [hi, hbit, Nat.add_sub_cancel' hi]
  · simp [hi]

/-- What passes the test of `qmallocalign` and is more than eight is sixteen times a power of two. -/
theorem align_cases {align : ℕ} (hpow : ISPOWEROF2 align = true) (hbig : ¬ align ≤ 8) : ∃ e, align = 2 ^ (e + 4) := by
  simp only [ISPOWEROF2, decide_eq_true_eq] at hpow
  obtain ⟨j, rfl⟩ := (Nat.and_sub_one_eq_zero_iff_isPowerOfTwo (by omega)).mp hpow
  have hj : 3 < j := by
    by_contra hj
    have : 2 ^ j ≤ 2 ^ 3 := Nat.pow_le_pow_right (by decide) (by omega)
    omega
  exact ⟨j - 4, by rw [Nat.sub_add_cancel hj]⟩

theorem ALIGNED_iff : ALIGNED h (2 ^ (e + 4)) = true ↔ 2 ^ e ∣ h := by
  rw [ALIGNED, decide_eq_true_eq, Nat.and_two_pow_sub_one_eq_mod, ← Nat.dvd_iff_mod_eq_zero, Nat.pow_add, Nat.mul_comm]
  exact Nat.mul_dvd_mul_iff_left (by decide)

theorem naligned_eq (he : e < 60) : NUNITS (2 ^ (e + 4)) - 1 = 2 ^ e := by
  have hle : 2 ^ e ≤ 2 ^ 59 := Nat.pow_le_pow_right (by decide) (by omega)
  rw [NUNITS, HOWMANY, Nat.add_sub_cancel, Nat.pow_add, Unitsz, Nat.mod_eq_of_lt (by omega)]
  omega

/-- The next aligned unit, or 0 when there is none below the end of the address space. -/
theorem ALIGNHDR_eq (he : e < 60) (hh : h < 2 ^ 60) :
    ALIGNHDR h (2 ^ (e + 4)) = if h + 2 ^ e ≤ 2 ^ 60 then (h + (2 ^ e - 1)) / 2 ^ e * 2 ^ e else 0 := by
  have hle : 2 ^ e ≤ 2 ^ 59 := Nat.pow_le_pow_right (by decide) (by omega)
  have hpos : 0 < 2 ^ e := Nat.two_pow_pos e
  rw [ALIGNHDR, and_mask (by omega) (Nat.mod_lt _ (by decide)), Nat.pow_add, Unitsz]
  have hmul : ∀ x, x * (2 ^ e * 2 ^ 4) / 16 = x * 2 ^ e := by
    intro x
    rw [show (2 : ℕ) ^ 4 = 16 from rfl, ← Nat.mul_assoc]
    exact Nat.mul_div_cancel _ (by decide)
  rw [hmul]
  split
  · rename_i hroom
    have hlt : 16 * h + (2 ^ e * 2 ^ 4 - 1) < 2 ^ 64 := by omega
    rw [Nat.mod_eq_of_lt hlt, Nat.mul_comm (2 ^ e) (2 ^ 4), ← Nat.div_div_eq_div_mul]
    congr 2
    omega
  · rename_i hroom
    have hsmall : (16 * h + (2 ^ e * 2 ^ 4 - 1)) % 2 ^ 64 < 2 ^ e * 2 ^ 4 := by omega
    rw [Nat.div_eq_of_lt hsmall, Nat.zero_mul]

/-- The next aligned unit, where there is one. -/
theorem ALIGNHDR_spec (he : e < 60) (hroom : h + 2 ^ e ≤ 2 ^ 60) :
    2 ^ e ∣ ALIGNHDR h (2 ^ (e + 4)) ∧ h ≤ ALIGNHDR h (2 ^ (e + 4)) ∧ ALIGNHDR h (2 ^ (e + 4)) < h + 2 ^ e := by
  have hpos : 0 < 2 ^ e := Nat.two_pow_pos e
  have hdm := Nat.div_add_mod (h + (2 ^ e - 1)) (2 ^ e)
  have hmod := Nat.mod_lt (h + (2 ^ e - 1)) hpos
  rw [ALIGNHDR_eq he (by omega), if_pos hroom]
  rw [Nat.mul_comm] at hdm
  exact ⟨Nat.dvd_mul_left _ _, by omega, by omega⟩

end Mask

section Runt

variable {k : Kernel} {s : Arena} {B : Blocks} {e q n : ℕ}

theorem runt_cases (s : Arena) (q : ℕ) :
    runt s q = ((Unitsz * ((q : ℤ) - s.tailptr) % 2 ^ 64 / Unitsz - 1) % 2 ^ 64).toNat ∧ Unitsz * ((q : ℤ) - s.tailptr) % 2 ^ 64 < 2 ^ 63 ∨
      runt s q = (((Unitsz * ((q : ℤ) - s.tailptr) % 2 ^ 64 - 2 ^ 64) / Unitsz - 1) % 2 ^ 64).toNat ∧
        2 ^ 63 ≤ Unitsz * ((q : ℤ) - s.tailptr) % 2 ^ 64 := by
  rw [runt, Int.bmod]
  split
  · rename_i hlt
    exact .inl ⟨rfl, by omega⟩
  · rename_i hge
    exact .inr ⟨rfl, by omega⟩

/-- A runt that is short reaches from the tail to the aligned unit. -/
theorem runt_reach (hq : q < 2 ^ 60) (hroom : s.tailptr + runt s q + 1 < 2 ^ 60) : q = s.tailptr + 1 + runt s q := by
  have hcases := runt_cases s q
  rw [Unitsz] at hcases
  omega

theorem runt_eq (hlt : s.tailptr < q) (hnear : q - s.tailptr < 2 ^ 59) : runt s q = q - (s.tailptr + 1) := by
  have hcases := runt_cases s q
  rw [Unitsz] at hcases
  omega

end Runt

section Cut

variable {k : Kernel} {s s' : Arena} {B B₀ : Blocks} {e p q n m nunits : ℕ}

/-- The running operation has the block `p`, and no other; only the size in its header is in order. -/
structure Has (k : Kernel) (B₀ : Blocks) (n p : ℕ) (s : Arena) (B : Blocks) : Prop where
  inv : Inv k s B
  block : B p = some (.held, n)
  size : (s.mem p).size = n
  held : ∀ a j, B a = some (.held, j) → a = p
  live : ∀ a j, B a = some (.live, j) ↔ B₀ a = some (.live, j)

theorem Has.got (h : Has k B₀ n p s B) :
    Got k B₀ n p { s with mem := Function.update s.mem p { s.mem p with next := k.checkval } } B := by
  refine ⟨h.inv.write_held h.block _, h.block, ?_, h.held, h.live⟩
  dsimp only
  rw [Function.update_self, h.size]

/-- The blocks once the block of the operation is cut. -/
def halves (B : Blocks) (p m n : ℕ) : Blocks :=
  Function.update (Function.update B p (some (.held, m))) (p + m) (some (.held, n - m))

theorem halves_front (B : Blocks) (hm : 0 < m) : halves B p m n p = some (.held, m) := by
  rw [halves, Function.update_of_ne (by omega), Function.update_self]

theorem halves_back (B : Blocks) : halves B p m n (p + m) = some (.held, n - m) := Function.update_self _ _ _

theorem Has.halves_held (h : Has k B₀ n p s B) {a j : ℕ} (ha : halves B p m n a = some (.held, j)) : a = p ∨ a = p + m := by
  rw [halves, Function.update_apply] at ha
  split at ha
  · exact .inr ‹_›
  · rw [Function.update_apply] at ha
    split at ha
    · exact .inl ‹_›
    · exact .inl (h.held a j ha)

theorem Has.halves_live (h : Has k B₀ n p s B) (a j : ℕ) :
    halves B p m n a = some (.live, j) ↔ a ≠ p ∧ a ≠ p + m ∧ B₀ a = some (.live, j) := by
  rw [halves, update_iff (some_ne (by simp) _), update_iff (some_ne (by simp) _), h.live a j]
  tauto

theorem Has.away (h : Has k B₀ n p s B) (hm : 0 < m) (hmn : m < n) {a j : ℕ} (ha : B₀ a = some (.live, j)) : a ≠ p ∧ a ≠ p + m := by
  have hB := (h.live a j).mpr ha
  constructor
  · rintro rfl
    exact place_ne h.block (by simp) j hB
  · rintro rfl
    have := h.inv.carved.apart h.block hB (by omega)
    omega

/-- The front of the block goes back. -/
theorem Has.front (h : Has k B₀ n p s B) (hm : 0 < m) (hmn : m < n) (w : Header) (hw : w.size = n - m) :
    ∃ s' B', qfreeinternal k { s with mem := Function.update (Function.update s.mem (p + m) w) p ⟨k.checkval, m⟩ } (p + 1) = some s' ∧
      Has k B₀ (n - m) (p + m) s' B' := by
  have hne : p + m ≠ p := by omega
  have hcut : Inv k s (halves B p m n) := h.inv.cut h.block hm hmn
  have hwrite := (hcut.write_held (halves_back B) w).write_held (halves_front B hm) ⟨k.checkval, m⟩
  obtain ⟨s', B', hrun, hfreed⟩ := qfreeinternal_spec hwrite (halves_front B hm) (Function.update_self _ _ _)
  refine ⟨s', B', hrun, hfreed.inv, (hfreed.held _ _).mpr ⟨hne, halves_back B⟩, ?_, fun a j ha => ?_, fun a j => ?_⟩
  · rw [hfreed.mem _ _ hne (.inl (halves_back B))]
    dsimp only
    rw [Function.update_of_ne hne, Function.update_self]
    exact hw
  · obtain ⟨hap, ha⟩ := (hfreed.held a j).mp ha
    exact (h.halves_held ha).resolve_left hap
  · rw [hfreed.live, h.halves_live]
    exact ⟨fun ha => ha.2.2.2, fun ha => ⟨(h.away hm hmn ha).1, (h.away hm hmn ha).1, (h.away hm hmn ha).2, ha⟩⟩

/-- The back of the block goes back. -/
theorem Has.back (h : Has k B₀ n p s B) (hm : 0 < m) (hmn : m < n) :
    ∃ s' B', qfreeinternal k { s with mem := Function.update s.mem (p + m) ⟨k.checkval, n - m⟩ } (p + m + 1) = some s' ∧
      Has k B₀ m p { s' with mem := Function.update s'.mem p { s'.mem p with size := m } } B' := by
  have hne : p ≠ p + m := by omega
  have hcut : Inv k s (halves B p m n) := h.inv.cut h.block hm hmn
  have hwrite := hcut.write_held (halves_back B) ⟨k.checkval, n - m⟩
  obtain ⟨s', B', hrun, hfreed⟩ := qfreeinternal_spec hwrite (halves_back B) (Function.update_self _ _ _)
  have hblock : B' p = some (.held, m) := (hfreed.held _ _).mpr ⟨hne, halves_front B hm⟩
  refine ⟨s', B', hrun, hfreed.inv.write_held hblock _, hblock, ?_, fun a j ha => ?_, fun a j => ?_⟩
  · dsimp only
    rw [Function.update_self]
  · obtain ⟨hap, ha⟩ := (hfreed.held a j).mp ha
    exact (h.halves_held ha).resolve_right hap
  · rw [hfreed.live, h.halves_live]
    exact ⟨fun ha => ha.2.2.2, fun ha => ⟨(h.away hm hmn ha).2, (h.away hm hmn ha).1, (h.away hm hmn ha).2, ha⟩⟩

/-- The runt in front of the alignment. -/
theorem Has.cutfront (h : Has k B₀ n p s B) (he : e < 60) (hn : nunits ≤ n) (hserve : 2 ^ e ∣ p + 1 ∨ nunits + 2 ^ e ≤ n) :
    ∃ s' p' n' B', Qmalloc.cutfront k s (2 ^ (e + 4)) p = some (s', p') ∧ Has k B₀ n' p' s' B' ∧ nunits ≤ n' ∧ 2 ^ e ∣ p' + 1 := by
  rw [Qmalloc.cutfront]
  by_cases haligned : 2 ^ e ∣ p + 1
  · rw [if_pos (ALIGNED_iff.mpr haligned)]
    exact ⟨s, p, n, B, rfl, h, hn, haligned⟩
  · rw [if_neg fun hc => haligned (ALIGNED_iff.mp hc)]
    have hroom := hserve.resolve_left haligned
    have hbounds := h.inv.carved.bounds h.block
    have htotal := h.inv.total
    have htop := k.top
    obtain ⟨hdvd, hle, hlt⟩ := ALIGNHDR_spec (h := p + 1) he (by omega)
    have hne : ALIGNHDR (p + 1) (2 ^ (e + 4)) ≠ p + 1 := by
      intro heq
      rw [heq] at hdvd
      exact haligned hdvd
    obtain ⟨m, hm⟩ : ∃ m, ALIGNHDR (p + 1) (2 ^ (e + 4)) = p + m + 1 := ⟨ALIGNHDR (p + 1) (2 ^ (e + 4)) - 1 - p, by omega⟩
    rw [hm] at hdvd hlt hne ⊢
    obtain ⟨s', B', hrun, hhas⟩ := h.front (m := m) (by omega) (by omega) { s.mem (p + m) with size := n - m } rfl
    simp only [Nat.add_sub_cancel, Nat.add_sub_cancel_left, h.size, hrun, Option.map_some]
    exact ⟨s', p + m, n - m, B', rfl, hhas, by omega, hdvd⟩

/-- The residue behind the aligned block. -/
theorem Has.cutback (h : Has k B₀ n p s B) (hpos : 0 < nunits) (hn : nunits ≤ n) :
    ∃ s' B', Qmalloc.cutback k s nunits p = some s' ∧ Has k B₀ nunits p s' B' := by
  rw [Qmalloc.cutback, h.size]
  by_cases hmore : n > nunits
  · obtain ⟨s', B', hrun, hhas⟩ := h.back hpos hmore
    simp only [if_pos hmore, hrun, Option.map_some]
    exact ⟨_, B', rfl, hhas⟩
  · rw [if_neg hmore]
    obtain rfl : n = nunits := by omega
    exact ⟨s, B, rfl, h⟩

end Cut

section Calls

/-- `aligntail` makes a call of `morecore` of the kind `P`. -/
def Tailcalls (P : Call) (s : Arena) (nunits align : ℕ) : Prop :=
  ALIGNHDR (s.tailptr + 1) align ≠ s.tailptr + 1 ∧ s.tailsize < nunits + (NUNITS align - 1) ∧
    P (runt s (ALIGNHDR (s.tailptr + 1) align) + nunits) (NUNITS align - 1) s

def Aligncalls (P : Call) (k : Kernel) (s : Arena) (nunits align : ℕ) : Prop :=
  if nunits > s.tailsize then
    misc k s (alignserves s.mem nunits align) = some none ∧
      (P nunits nunits s ∨
        (morecore nunits s).2 ≠ 0 ∧ Tailcalls P (growtail (morecore nunits s).1 (morecore nunits s).2) nunits align)
  else Tailcalls P s nunits align

def Qaligncalls (P : Call) (k : Kernel) (s : Arena) (nbytes align : ℕ) (offset : ℤ) (span : ℕ) : Prop :=
  ¬ (nbytes = 0 ∨ offset ≠ 0 ∨ span ≠ 0) ∧ ISPOWEROF2 align = true ∧
    if align ≤ 8 then Qcalls P k s nbytes
    else (NUNITS nbytes ≤ NQUICK → quickfind s.mem align k.turns none (s.quicklist (NUNITS nbytes)) = some none) ∧
      Aligncalls P k s (NUNITS nbytes) align

end Calls

section Align

variable {k : Kernel} {s s' : Arena} {B B₀ : Blocks} {mem : Mem} {e p q n m nunits i : ℕ} {l : List ℕ}

theorem aligntake_spec (h : Inv k s B) (hquiet : Quiet B) (he : e < 60) (hn : 0 < nunits) (hrover : s.rover ≠ 0)
    (hq : OnRing k s.rover B q) (hp : OnRing k s.rover B p) (hnext : (s.mem q).next = p)
    (hserve : alignserves s.mem nunits (2 ^ (e + 4)) p = true) :
    ∃ s' p' B', aligntake k s nunits (2 ^ (e + 4)) q p = some (s', p' + 1) ∧ Got k B nunits p' s' B' ∧ 2 ^ e ∣ p' + 1 := by
  simp only [alignserves, Bool.and_eq_true, Bool.or_eq_true, decide_eq_true_eq, ALIGNED_iff, naligned_eq he] at hserve
  obtain ⟨hsize, hserve⟩ := hserve
  obtain ⟨n, hB, hsz⟩ := h.served hp hrover (by omega)
  rw [hsz] at hsize hserve
  have hpq := h.next_ne hq hnext hB
  have hunlink := (h.reenter hrover hq).unlink (h.node_pos hq) rfl hnext hB
  have hhas : Has k B n p { s with mem := Function.update s.mem q { s.mem q with next := (s.mem p).next }, rover := q }
      (Function.update B p (some (.held, n))) := by
    refine ⟨hunlink, Function.update_self _ _ _, ?_, fun a j ha => ?_, update_place (place_ne hB (by simp)) (some_ne (by simp) _)⟩
    · dsimp only
      rw [Function.update_of_ne hpq]
      exact hsz
    · rw [Function.update_apply] at ha
      split at ha
      · assumption
      · exact absurd ha (hquiet a j)
  obtain ⟨s₁, p', n', B₁, hfront, hhas₁, hn', hdvd⟩ := hhas.cutfront he hsize hserve
  obtain ⟨s₂, B₂, hback, hhas₂⟩ := hhas₁.cutback hn hn'
  refine ⟨_, p', B₂, ?_, hhas₂.got, hdvd⟩
  simp only [aligntake, hfront, hback, Option.bind_some, Option.map_some]

/-- The aligned block and the runt come from a tail that is long enough for both. -/
theorem aligncut_spec (h : Inv k s B) (hquiet : Quiet B) (hn : 0 < nunits) (hpos : 0 < runt s q) (hle : runt s q + nunits ≤ s.tailsize) :
    ∃ s' B', aligncut k s nunits q = some (s', s.tailptr + runt s q + 1) ∧ Got k B nunits (s.tailptr + runt s q) s' B' := by
  obtain ⟨heq₁, hinv₁⟩ := h.tailalloc hpos (by omega)
  rw [heq₁] at hinv₁
  obtain ⟨heq₂, hinv₂⟩ := hinv₁.tailalloc hn (by dsimp only; omega)
  rw [heq₂] at hinv₂
  dsimp only at heq₂ hinv₂
  have hne : s.tailptr ≠ s.tailptr + runt s q := by omega
  have hgap : ∀ t j, B s.tailptr ≠ some (t, j) ∧ B (s.tailptr + runt s q) ≠ some (t, j) := by
    intro t j
    constructor <;> intro hj <;> have := h.carved.bounds hj <;> omega
  obtain ⟨s', B', hrun, hfreed⟩ := qfreeinternal_spec hinv₂
    (by rw [Function.update_of_ne hne, Function.update_self]) (by dsimp only; rw [Function.update_of_ne hne, Function.update_self])
  refine ⟨s', B', ?_, hfreed.inv, (hfreed.held _ _).mpr ⟨hne.symm, Function.update_self _ _ _⟩, ?_, fun a j ha => ?_, fun a j => ?_⟩
  · simp only [aligncut, heq₁, heq₂, hrun, Option.map_some]
  · rw [hfreed.mem _ _ hne.symm (.inl (Function.update_self _ _ _))]
    exact Function.update_self _ _ _
  · obtain ⟨hat, ha⟩ := (hfreed.held a j).mp ha
    rw [Function.update_apply] at ha
    split at ha
    · assumption
    · rw [Function.update_of_ne hat] at ha
      exact absurd ha (hquiet a j)
  · rw [hfreed.live, update_iff (some_ne (by simp) _), update_iff (some_ne (by simp) _)]
    refine ⟨fun ha => ha.2.2.2, fun ha => ⟨?_, ?_, ?_, ha⟩⟩
    · rintro rfl
      exact (hgap _ _).1 ha
    · rintro rfl
      exact (hgap _ _).2 ha
    · rintro rfl
      exact (hgap _ _).1 ha

/-- What `aligntail` needs of the tail when it is long enough for any alignment. -/
theorem runt_lt (h : Inv k s B) (he : e < 60) (hroom : 2 ^ e ≤ s.tailsize + s.availnunits) :
    s.tailptr + 1 + runt s (ALIGNHDR (s.tailptr + 1) (2 ^ (e + 4))) = ALIGNHDR (s.tailptr + 1) (2 ^ (e + 4)) ∧
      runt s (ALIGNHDR (s.tailptr + 1) (2 ^ (e + 4))) < 2 ^ e := by
  have htotal := h.total
  have htop := k.top
  have hhalf := k.half
  have hbase := h.base
  obtain ⟨-, hle, hlt⟩ := ALIGNHDR_spec (h := s.tailptr + 1) he (by omega)
  rw [runt_eq (by omega) (by omega)]
  omega

/-- The runt is as long as it has to be, unless the address space ends before the next aligned unit. -/
theorem runt_fits (h : Inv k s B) (he : e < 60) (hn : 0 < nunits)
    (hle : runt s (ALIGNHDR (s.tailptr + 1) (2 ^ (e + 4))) + nunits ≤ s.tailsize + s.availnunits) :
    s.tailptr + 1 + runt s (ALIGNHDR (s.tailptr + 1) (2 ^ (e + 4))) = ALIGNHDR (s.tailptr + 1) (2 ^ (e + 4)) ∧
      runt s (ALIGNHDR (s.tailptr + 1) (2 ^ (e + 4))) < 2 ^ e ∧ 2 ^ e ∣ ALIGNHDR (s.tailptr + 1) (2 ^ (e + 4)) := by
  have htotal := h.total
  have htop := k.top
  have hq := ALIGNHDR_eq (h := s.tailptr + 1) he (by omega)
  by_cases hroom : s.tailptr + 1 + 2 ^ e ≤ 2 ^ 60
  · obtain ⟨hdvd, hlow, hlt⟩ := ALIGNHDR_spec (h := s.tailptr + 1) he hroom
    have hreach := runt_reach (s := s) (q := ALIGNHDR (s.tailptr + 1) (2 ^ (e + 4))) (by omega) (by omega)
    exact ⟨hreach.symm, by omega, hdvd⟩
  · rw [if_neg hroom] at hq
    have hreach := runt_reach (s := s) (q := ALIGNHDR (s.tailptr + 1) (2 ^ (e + 4))) (by omega) (by omega)
    omega

theorem aligntail_spec (h : Inv k s B) (hquiet : Quiet B) (he : e < 60) (hn : 0 < nunits) (hle : nunits ≤ s.tailsize)
    (hcalls : ¬ Tailcalls Lacks s nunits (2 ^ (e + 4))) :
    ∃ s' v, aligntail k s nunits (2 ^ (e + 4)) = some (s', v) ∧ Done k s B nunits s' v ∧ 2 ^ e ∣ v := by
  have hpos := Nat.two_pow_pos e
  have htotal := h.total
  have htop := k.top
  rw [aligntail]
  by_cases hq : ALIGNHDR (s.tailptr + 1) (2 ^ (e + 4)) = s.tailptr + 1
  · obtain ⟨B', hgot, hv⟩ := tailtake_spec h hquiet hn hle
    have hdvd : 2 ^ e ∣ s.tailptr + 1 := by
      have heq := ALIGNHDR_eq (h := s.tailptr + 1) he (by omega)
      rw [hq] at heq
      rw [heq]
      split
      · exact Nat.dvd_mul_left _ _
      · exact Nat.dvd_zero _
    simp only [if_pos hq]
    exact ⟨_, _, rfl, .inr ⟨_, B', hv, hgot⟩, hv ▸ hdvd⟩
  · simp only [if_neg hq, naligned_eq he]
    by_cases hshort : s.tailsize < nunits + 2 ^ e
    · rw [if_pos hshort]
      have hlacks : ¬ Lacks (runt s (ALIGNHDR (s.tailptr + 1) (2 ^ (e + 4))) + nunits) (2 ^ e) s := fun hl =>
        hcalls ⟨hq, by rw [naligned_eq he]; exact hshort, by rw [naligned_eq he]; exact hl⟩
      have hfits : 0 < s.availnunits → _ := fun ha => runt_fits h he hn (by
        rw [Lacks] at hlacks
        omega)
      obtain ⟨hgrown, hzero, henough⟩ := morecore_spec h (fun ha => by
        have := hfits ha
        omega) hlacks
      by_cases h0 : (morecore (2 ^ e) s).2 = 0
      · rw [if_pos h0]
        exact ⟨_, _, rfl, .inl ⟨rfl, hzero h0⟩, Nat.dvd_zero _⟩
      · rw [if_neg h0]
        obtain ⟨hreach, -, hdvd⟩ := hfits (by
          rw [Nat.pos_iff_ne_zero]
          intro h0'
          exact h0 (morecore_none h0' _))
        have hptr := hgrown.tailptr
        have hrunt : ∀ q, runt (growtail (morecore (2 ^ e) s).1 (morecore (2 ^ e) s).2) q = runt s q := fun _ => rfl
        obtain ⟨s', B', hrun, hgot⟩ := aligncut_spec (q := ALIGNHDR (s.tailptr + 1) (2 ^ (e + 4))) (h.nil hgrown) hquiet hn (by
          rw [hrunt]
          omega) (by
          rw [hrunt]
          exact henough h0)
        rw [hptr, hrunt] at hrun hgot
        refine ⟨_, _, hrun, .inr ⟨_, B', rfl, hgot⟩, ?_⟩
        rw [Nat.add_right_comm, hreach]
        exact hdvd
    · rw [if_neg hshort]
      obtain ⟨hreach, hlt⟩ := runt_lt h he (by omega)
      obtain ⟨-, -, hdvd⟩ := runt_fits h he hn (by omega)
      obtain ⟨s', B', hrun, hgot⟩ := aligncut_spec (q := ALIGNHDR (s.tailptr + 1) (2 ^ (e + 4))) h hquiet hn (by omega) (by omega)
      refine ⟨_, _, hrun, .inr ⟨_, B', rfl, hgot⟩, ?_⟩
      rw [Nat.add_right_comm, hreach]
      exact hdvd

theorem Nil.trans {s'' : Arena} (h : Nil s s') (h' : Nil s' s'') : Nil s s'' :=
  ⟨h'.mem.trans h.mem, h'.quicklist.trans h.quicklist, h'.rover.trans h.rover, h'.tailptr.trans h.tailptr, h'.total.trans h.total,
    h.grown.trans h'.grown⟩

theorem Done.nil {v : ℕ} {s'' : Arena} (hn : Nil s s') (h : Done k s' B nunits s'' v) : Done k s B nunits s'' v :=
  h.imp (fun h => ⟨h.1, hn.trans h.2⟩) id

theorem hardalign_spec (h : Inv k s B) (hquiet : Quiet B) (he : e < 60) (hn : 0 < nunits)
    (hcalls : ¬ Aligncalls Lacks k s nunits (2 ^ (e + 4))) :
    ∃ s' v, hardalign k s nunits (2 ^ (e + 4)) = some (s', v) ∧ Done k s B nunits s' v ∧ 2 ^ e ∣ v := by
  rw [hardalign]
  rw [Aligncalls] at hcalls
  by_cases htail : nunits > s.tailsize
  · rw [if_pos htail] at hcalls ⊢
    rcases h.misc (alignserves s.mem nunits (2 ^ (e + 4))) with ⟨q, p, hrun, hrover, hq, hp, hnext, hserve⟩ | hrun
    · obtain ⟨s', p', B', htake, hgot, hdvd⟩ := aligntake_spec h hquiet he hn hrover hq hp hnext hserve
      rw [hrun]
      exact ⟨s', p' + 1, htake, .inr ⟨p', B', rfl, hgot⟩, hdvd⟩
    · simp only [hrun, true_and, not_or, not_and] at hcalls
      obtain ⟨hgrown, hzero, henough⟩ := morecore_spec h (fun _ => Nat.le_add_left nunits s.tailsize) hcalls.1
      rw [hrun]
      simp only [Option.bind_some]
      by_cases h0 : (morecore nunits s).2 = 0
      · rw [if_pos h0]
        exact ⟨_, _, rfl, .inl ⟨rfl, hzero h0⟩, Nat.dvd_zero _⟩
      · rw [if_neg h0]
        obtain ⟨s', v, hrun, hdone, hdvd⟩ := aligntail_spec (h.nil hgrown) hquiet he hn (henough h0) (hcalls.2 h0)
        exact ⟨s', v, hrun, hdone.nil hgrown, hdvd⟩
  · rw [if_neg htail] at hcalls ⊢
    exact aligntail_spec h hquiet he hn (Nat.not_lt.mp htail) hcalls

/-- The loop over the rest of a quicklist: `pp` is where the link to that rest is. -/
theorem quickfind_rest {align fuel pp : ℕ} (hpath : Path (link mem) (mem pp).next l 0) (hl : ∀ x ∈ l, x ≠ 0) (hfuel : l.length < fuel) :
    quickfind mem align fuel (some pp) (mem pp).next = some none ∨
      ∃ q p, quickfind mem align fuel (some pp) (mem pp).next = some (some (some q, p)) ∧ (q = pp ∨ q ∈ l) ∧ p ∈ l ∧ (mem q).next = p ∧
        ALIGNED (p + 1) align = true := by
  induction l generalizing pp fuel with
  | nil =>
    have hend : (mem pp).next = 0 := hpath
    obtain ⟨fuel, rfl⟩ := Nat.exists_eq_succ_of_ne_zero (Nat.ne_of_gt hfuel)
    exact .inl (by rw [quickfind, if_pos hend])
  | cons x l ih =>
    obtain ⟨hx, hpath⟩ := hpath
    obtain ⟨fuel, rfl⟩ := Nat.exists_eq_succ_of_ne_zero (Nat.ne_of_gt (Nat.zero_lt_of_lt hfuel))
    rw [hx, quickfind, if_neg (hl x List.mem_cons_self)]
    by_cases haligned : ALIGNED (x + 1) align = true
    · exact .inr ⟨pp, x, by rw [if_pos haligned], .inl rfl, List.mem_cons_self, hx, haligned⟩
    · rw [if_neg haligned]
      rcases ih hpath (fun y hy => hl y (List.mem_cons_of_mem _ hy)) (Nat.lt_of_succ_lt_succ hfuel) with hnone | ⟨q, p, hrun, hq, hp, hnext, hal⟩
      · exact .inl hnone
      · refine .inr ⟨q, p, hrun, .inr ?_, List.mem_cons_of_mem _ hp, hnext, hal⟩
        exact hq.elim (fun heq => heq ▸ List.mem_cons_self) (List.mem_cons_of_mem _)

/-- The loop over a quicklist comes to its end, or finds a block there. -/
theorem Inv.quickfind (h : Inv k s B) (hi : i ≤ NQUICK) (align : ℕ) :
    Qmalloc.quickfind s.mem align k.turns none (s.quicklist i) = some none ∨
      ∃ pp p, Qmalloc.quickfind s.mem align k.turns none (s.quicklist i) = some (some (pp, p)) ∧ B p = some (.quick i, i) ∧
        (s.mem p).size = i ∧ pp ≠ some p ∧ Inv k (quicktake k s i pp p) (Function.update B p (some (.held, i))) ∧
        ALIGNED (p + 1) align = true := by
  obtain ⟨l, hl⟩ := (h.quick i hi).list
  have hblock : ∀ x ∈ l, B x = some (.quick i, i) ∧ (s.mem x).size = i ∧ x ≠ 0 := by
    intro x hx
    obtain ⟨n, hn⟩ := (hl.mem_iff x).mp hx
    obtain ⟨rfl, hsize⟩ := (h.quick _ hi).size hn
    have := h.pos hn
    exact ⟨hn, hsize, by omega⟩
  have hlen := h.list_length hl.nodup fun x hx => .inr ⟨_, _, (hblock x hx).1⟩
  have hfuel : l.length < k.turns := by
    rw [Kernel.turns]
    omega
  obtain ⟨fuel, hturns⟩ := Nat.exists_eq_succ_of_ne_zero (Nat.ne_of_gt (Nat.zero_lt_of_lt hfuel))
  rw [hturns] at hfuel ⊢
  cases l with
  | nil =>
    have hend : s.quicklist i = 0 := hl.path
    exact .inl (by rw [Qmalloc.quickfind, if_pos hend])
  | cons x l =>
    obtain ⟨hx, hpath⟩ := hl.path
    obtain ⟨hB, hsize, hx0⟩ := hblock x List.mem_cons_self
    rw [hx, Qmalloc.quickfind, if_neg hx0]
    by_cases haligned : ALIGNED (x + 1) align = true
    · rw [if_pos haligned]
      exact .inr ⟨none, x, rfl, hB, hsize, (by simp), h.quicktake_head hi hB hx, haligned⟩
    · rw [if_neg haligned]
      rcases quickfind_rest hpath (fun y hy => (hblock y (List.mem_cons_of_mem _ hy)).2.2) (Nat.lt_of_succ_lt_succ hfuel) with
        hnone | ⟨q, p, hrun, hq, hp, hnext, hal⟩
      · exact .inl hnone
      · obtain ⟨hBp, hsp, hp0⟩ := hblock p (List.mem_cons_of_mem _ hp)
        have hq : q ∈ x :: l := hq.elim (fun heq => heq ▸ List.mem_cons_self) (List.mem_cons_of_mem _)
        refine .inr ⟨some q, p, hrun, hBp, hsp, ?_, h.quicktake_next hi (hblock q hq).1 hBp hnext, hal⟩
        intro heq
        obtain rfl := Option.some.inj heq
        have hadj := hl.adjacent ((hl.mem_iff q).mp hq) (by rw [link, hnext]; exact hp0)
        obtain ⟨l₁, l₂, heq⟩ := hadj
        have hnodup := hl.nodup
        rw [heq, link, hnext] at hnodup
        exact (List.nodup_cons.mp (List.nodup_append.mp hnodup).2.1).1 List.mem_cons_self

/-- `qmallocalign` comes to an end unless the alignment is not a power of two, and the answer is aligned. -/
theorem qmallocalign_spec {nbytes align span : ℕ} {offset : ℤ} (h : Inv k s B) (hquiet : Quiet B) (halign : align < 2 ^ 64)
    (hpow : ISPOWEROF2 align = true) (hcalls : ¬ Qaligncalls Lacks k s nbytes align offset span) :
    ∃ s' v, qmallocalign k s nbytes align offset span = some (s', v) ∧ Done k s B (NUNITS nbytes) s' v ∧
      (align ≠ 0 → align ∣ Unitsz * v) := by
  rw [qmallocalign]
  rw [Qaligncalls] at hcalls
  by_cases h0 : nbytes = 0 ∨ offset ≠ 0 ∨ span ≠ 0
  · rw [if_pos h0]
    exact ⟨s, 0, rfl, .inl ⟨rfl, Nil.refl s⟩, fun _ => Nat.dvd_zero _⟩
  · simp only [h0, not_false_eq_true, true_and, hpow] at hcalls
    rw [if_neg h0, if_neg (by rw [hpow]; decide)]
    by_cases hsmall : align ≤ 8
    · rw [if_pos hsmall] at hcalls ⊢
      obtain ⟨s', v, hrun, hdone⟩ := qmalloc_spec h hquiet hcalls
      refine ⟨s', v, hrun, hdone, fun hne => Dvd.dvd.mul_right ?_ v⟩
      simp only [ISPOWEROF2, decide_eq_true_eq] at hpow
      obtain ⟨j, rfl⟩ := (Nat.and_sub_one_eq_zero_iff_isPowerOfTwo hne).mp hpow
      have hj : j ≤ 3 := (Nat.pow_le_pow_iff_right (by decide)).mp hsmall
      exact Nat.pow_dvd_pow 2 (Nat.le_succ_of_le hj)
    · rw [if_neg hsmall] at hcalls ⊢
      obtain ⟨e, rfl⟩ := align_cases hpow hsmall
      have he : e < 60 := by
        have := (Nat.pow_lt_pow_iff_right (by decide : 1 < 2)).mp halign
        omega
      have hunits : ∀ v, 2 ^ e ∣ v → 2 ^ (e + 4) ∣ Unitsz * v := by
        intro v hv
        rw [Nat.pow_add, Nat.mul_comm]
        exact Nat.mul_dvd_mul_left _ hv
      have hhard : ¬ Aligncalls Lacks k s (NUNITS nbytes) (2 ^ (e + 4)) → ∃ s' v, hardalign k s (NUNITS nbytes) (2 ^ (e + 4)) = some (s', v) ∧
          Done k s B (NUNITS nbytes) s' v ∧ (2 ^ (e + 4) ≠ 0 → 2 ^ (e + 4) ∣ Unitsz * v) := by
        intro hc
        obtain ⟨s', v, hrun, hdone, hdvd⟩ := hardalign_spec h hquiet he (NUNITS_pos nbytes) hc
        exact ⟨s', v, hrun, hdone, fun _ => hunits v hdvd⟩
      by_cases hquick : NUNITS nbytes ≤ NQUICK
      · rw [if_pos hquick]
        rcases h.quickfind hquick (2 ^ (e + 4)) with hnone | ⟨pp, p, hrun, hB, hsize, hpp, hinv, hal⟩
        · rw [hnone]
          exact hhard fun hc => hcalls ⟨fun _ => hnone, hc⟩
        · rw [hrun]
          exact ⟨_, p + 1, rfl, .inr ⟨p, _, rfl, got_quick hquiet hB hsize hpp hinv⟩, fun _ => hunits _ (ALIGNED_iff.mp hal)⟩
      · rw [if_neg hquick]
        exact hhard fun hc => hcalls ⟨fun hle => absurd hle hquick, hc⟩

end Align

section Exceeds

variable {k : Kernel} {s : Arena} {B : Blocks} {e nunits nbytes align span : ℕ} {offset : ℤ}

theorem Hardcalls.exceeds (h : Hardcalls Lacks k s nunits) : Hardcalls Exceeds k s nunits := by
  obtain ⟨htail, hrun, -, hless⟩ := h
  exact ⟨htail, hrun, Nat.lt_of_le_of_lt (Nat.le_add_left _ _) hless⟩

theorem Qcalls.exceeds (h : Qcalls Lacks k s nbytes) : Qcalls Exceeds k s nbytes := ⟨h.1, h.2.1, h.2.2.exceeds⟩

/-- With enough for any alignment there is enough. -/
theorem Tailcalls.exceeds (h : Tailcalls Lacks s nunits (2 ^ (e + 4))) (hinv : Inv k s B) (he : e < 60) (hle : nunits ≤ s.tailsize) :
    Tailcalls Exceeds s nunits (2 ^ (e + 4)) := by
  obtain ⟨hq, hshort, -, hless⟩ := h
  refine ⟨hq, hshort, ?_⟩
  rw [Exceeds, naligned_eq he]
  by_contra hge
  have := (runt_lt hinv he (by omega)).2
  omega

theorem Aligncalls.exceeds (h : Aligncalls Lacks k s nunits (2 ^ (e + 4))) (hinv : Inv k s B) (he : e < 60) :
    Aligncalls Exceeds k s nunits (2 ^ (e + 4)) := by
  rw [Aligncalls] at *
  split
  · rename_i htail
    rw [if_pos htail] at h
    obtain ⟨hrun, h⟩ := h
    refine ⟨hrun, ?_⟩
    by_cases hlacks : Lacks nunits nunits s
    · exact .inl (Nat.lt_of_le_of_lt (Nat.le_add_left _ _) hlacks.2)
    · obtain ⟨h0, hcalls⟩ := h.resolve_left hlacks
      obtain ⟨hgrown, -, henough⟩ := morecore_spec hinv (fun _ => Nat.le_add_left nunits s.tailsize) hlacks
      exact .inr ⟨h0, hcalls.exceeds (hinv.nil hgrown) he (henough h0)⟩
  · rename_i htail
    rw [if_neg htail] at h
    exact h.exceeds hinv he (Nat.not_lt.mp htail)

theorem Qaligncalls.exceeds (h : Qaligncalls Lacks k s nbytes align offset span) (hinv : Inv k s B) (halign : align < 2 ^ 64) :
    Qaligncalls Exceeds k s nbytes align offset span := by
  obtain ⟨h0, hpow, h⟩ := h
  refine ⟨h0, hpow, ?_⟩
  split
  · rename_i hsmall
    rw [if_pos hsmall] at h
    exact h.exceeds
  · rename_i hsmall
    rw [if_neg hsmall] at h
    obtain ⟨e, rfl⟩ := align_cases hpow hsmall
    have he := (Nat.pow_lt_pow_iff_right (by decide : 1 < 2)).mp halign
    exact ⟨h.1, h.2.exceeds hinv (by omega)⟩

end Exceeds

end Petele.Qmalloc
