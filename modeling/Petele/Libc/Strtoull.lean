import Mathlib.Data.List.TakeWhile
import Petele.Libc.Strtoul

namespace Petele.Libc

/-- `1LL<<63`, which is signed. -/
def UVLONGMAX : ℤ := -2 ^ 63

def uvlong (x : ℤ) : ℕ := (x % 2 ^ 64).toNat

/-- The sequence of digits, and the text after it. -/
def vdigits (base m : ℕ) : Digits → List Char → Digits × List Char
  | d, [] => (d, [])
  | d, c :: p =>
    let v := digit base c
    if v ≥ base then (d, c :: p)
    else
      let nn := (d.n * base + v) % 2 ^ 64
      vdigits base m ⟨nn, d.ovfl || d.n > m || nn < d.n, d.ndig + 1⟩ p

/-- `0x` is skipped, whatever follows it. -/
def vbase (base : ℤ) (p : List Char) : ℤ × List Char :=
  match p with
  | '0' :: x :: q =>
    if x = 'x' ∨ x = 'X' then if base = 0 ∨ base = 16 then (16, q) else (base, p)
    else (if base = 0 then 8 else base, p)
  | '0' :: _ => (if base = 0 then 8 else base, p)
  | _ => (if base = 0 then 10 else base, p)

/-- The number, and the text after it. -/
def strtoull (nptr : List Char) (base : ℤ) : ℕ × List Char :=
  let (neg, p) := ulsign (nptr.dropWhile space)
  let (base, p) := vbase base p
  if base < 0 ∨ 36 < base then (0, nptr)
  else
    let (d, p) := vdigits base.toNat (uvlong (UVLONGMAX.tdiv base)) ⟨0, false, 0⟩ p
    (if d.ovfl then uvlong UVLONGMAX else if neg then uvlong (-d.n) else d.n,
      if d.ndig = 0 then nptr else p)

/-- What the text denotes: a sign, a base, and digits up to the rest. -/
structure Numeral where
  neg : Bool
  base : ℕ
  digits : List Char
  rest : List Char

def numeral (nptr : List Char) (base : ℤ) : Numeral :=
  let (neg, p) := ulsign (nptr.dropWhile space)
  let (base, p) := vbase base p
  ⟨neg, base.toNat, p.takeWhile (digit base.toNat · < base.toNat),
    p.dropWhile (digit base.toNat · < base.toNat)⟩

namespace Numeral

def magnitude (x : Numeral) : ℕ := value x.base 0 x.digits

/-- The number modulo `2 ^ 64` if its magnitude fits, and the largest one otherwise. -/
def saturated (x : Numeral) : ℕ :=
  if x.magnitude < 2 ^ 64 then if x.neg then (2 ^ 64 - x.magnitude) % 2 ^ 64 else x.magnitude
  else 2 ^ 64 - 1

/-- No digit shows that the magnitude has wrapped. -/
def Unnoticed (x : Numeral) : Prop :=
  ∀ i < x.digits.length,
    value x.base 0 (x.digits.take i) % 2 ^ 64 ≤ 2 ^ 64 - 2 ^ 63 / x.base ∧
      value x.base 0 (x.digits.take i) % 2 ^ 64 ≤ value x.base 0 (x.digits.take (i + 1)) % 2 ^ 64

/-- The magnitude fits, or it wraps unnoticed to what stands for the largest number. -/
def Honest (x : Numeral) : Prop :=
  x.magnitude < 2 ^ 64 ∨ x.Unnoticed ∧ x.magnitude % 2 ^ 64 = if x.neg then 1 else 2 ^ 64 - 1

end Numeral

section Digits

variable {base m : ℕ}

/-- The digits are evaluated modulo `2 ^ 64`, and the flag tells a prefix that was too large or that wrapped. -/
theorem vdigits_append {ds : List Char} (hds : ∀ c ∈ ds, digit base c < base) {tail : List Char}
    (htail : ∀ c ∈ tail.head?, base ≤ digit base c) (n k : ℕ) (o : Bool) :
    ∃ ovfl, vdigits base m ⟨n % 2 ^ 64, o, k⟩ (ds ++ tail) =
        (⟨value base n ds % 2 ^ 64, ovfl, k + ds.length⟩, tail) ∧
      (ovfl = false ↔ o = false ∧ ∀ i < ds.length,
        value base n (ds.take i) % 2 ^ 64 ≤ m ∧
          value base n (ds.take i) % 2 ^ 64 ≤ value base n (ds.take (i + 1)) % 2 ^ 64) := by
  induction ds generalizing n k o with
  | nil =>
    refine ⟨o, ?_, by simp⟩
    cases tail with
    | nil => rfl
    | cons c tail => rw [List.nil_append, vdigits, if_pos (htail c rfl)]; rfl
  | cons c ds ih =>
    rw [List.forall_mem_cons] at hds
    have hnn : (n % 2 ^ 64 * base + digit base c) % 2 ^ 64 = (n * base + digit base c) % 2 ^ 64 := by
      rw [Nat.add_mod, Nat.mod_mul_mod, ← Nat.add_mod]
    obtain ⟨ovfl, hrun, hovfl⟩ := ih hds.2 (n * base + digit base c) (k + 1)
      (o || decide (n % 2 ^ 64 > m) || decide ((n * base + digit base c) % 2 ^ 64 < n % 2 ^ 64))
    refine ⟨ovfl, ?_, ?_⟩
    · rw [List.cons_append, vdigits, if_neg (by omega), hnn]
      simp only [hrun, List.length_cons]
      rw [Nat.add_right_comm, Nat.add_assoc]
      rfl
    · rw [hovfl, List.length_cons, Nat.forall_lt_succ_left]
      simp only [Bool.or_eq_false_iff, decide_eq_false_iff_not, gt_iff_lt, not_lt, and_assoc]
      rfl

/-- A magnitude that fits is never taken for one that does not. -/
theorem Numeral.unnoticed_of_fits {x : Numeral} (hbase : 1 < x.base) (hfit : x.magnitude < 2 ^ 64) :
    x.Unnoticed := by
  intro i hi
  have happ : ∀ ds es : List Char, value x.base 0 (ds ++ es) = value x.base (value x.base 0 ds) es :=
    fun ds es => List.foldl_append
  have hstep : value x.base 0 (x.digits.take (i + 1)) =
      value x.base 0 (x.digits.take i) * x.base + digit x.base x.digits[i] := by
    rw [List.take_succ_eq_append_getElem hi, happ]
    rfl
  have hall : value x.base 0 (x.digits.take (i + 1)) ≤ x.magnitude := by
    rw [Numeral.magnitude]
    conv_rhs => rw [← List.take_append_drop (i + 1) x.digits, happ]
    exact le_value hbase _ _
  set u := value x.base 0 (x.digits.take i)
  have hu : u * 2 ≤ u * x.base := Nat.mul_le_mul_left u hbase
  have hdiv : 2 ^ 63 / x.base ≤ 2 ^ 63 / 2 := Nat.div_le_div_left hbase (by decide)
  rw [Nat.mod_eq_of_lt (show u < 2 ^ 64 by omega),
    Nat.mod_eq_of_lt (show value x.base 0 (x.digits.take (i + 1)) < 2 ^ 64 by omega)]
  omega

theorem head_dropWhile {p : List Char} {c : Char}
    (hc : c ∈ (p.dropWhile (digit base · < base)).head?) : base ≤ digit base c := by
  have h := List.head?_dropWhile_not (fun c => decide (digit base c < base)) p
  rw [Option.mem_def] at hc
  rw [hc] at h
  simpa using h

end Digits

theorem vbase_range {base : ℤ} (hbase : base = 0 ∨ 2 ≤ base ∧ base ≤ 36) (p : List Char) :
    2 ≤ (vbase base p).1 ∧ (vbase base p).1 ≤ 36 := by
  unfold vbase
  split
  · split_ifs
    all_goals omega
  all_goals
    dsimp only
    split_ifs <;> omega

/-- The quotient of the signed bound is far above the quotient of the largest number. -/
theorem uvlong_quotient {b : ℕ} (hlow : 2 ≤ b) (hhigh : b ≤ 36) :
    uvlong (UVLONGMAX.tdiv b) = 2 ^ 64 - 2 ^ 63 / b := by
  have hq : UVLONGMAX.tdiv (b : ℤ) = -((2 ^ 63 / b : ℕ) : ℤ) := by
    rw [UVLONGMAX, Int.neg_tdiv]
    rfl
  have hle : 2 ^ 63 / b ≤ 2 ^ 63 := Nat.div_le_self _ _
  have hpos : 0 < 2 ^ 63 / b := Nat.div_pos (by omega) (by omega)
  rw [hq, uvlong]
  omega

/-- One run of `strtoull`, told by the numeral. -/
theorem strtoull_run (nptr : List Char) {base : ℤ} (hbase : base = 0 ∨ 2 ≤ base ∧ base ≤ 36) :
    ∃ ovfl : Bool, (ovfl = false ↔ (numeral nptr base).Unnoticed) ∧
      strtoull nptr base =
        (if ovfl then 2 ^ 63
          else if (numeral nptr base).neg then uvlong (-((numeral nptr base).magnitude % 2 ^ 64 : ℕ))
          else (numeral nptr base).magnitude % 2 ^ 64,
        if (numeral nptr base).digits = [] then nptr else (numeral nptr base).rest) := by
  obtain ⟨neg, p, hsign⟩ : ∃ neg p, ulsign (nptr.dropWhile space) = (neg, p) := ⟨_, _, rfl⟩
  obtain ⟨hlow, hhigh⟩ := vbase_range hbase p
  obtain ⟨b, q, hb⟩ : ∃ (b : ℕ) (q : List Char), vbase base p = ((b : ℤ), q) :=
    ⟨(vbase base p).1.toNat, (vbase base p).2, Prod.ext (by dsimp only; omega) rfl⟩
  rw [hb] at hlow hhigh
  have hnum : numeral nptr base =
      ⟨neg, b, q.takeWhile (digit b · < b), q.dropWhile (digit b · < b)⟩ := by
    simp only [numeral, hsign, hb, Int.toNat_natCast]
  have hds : ∀ c ∈ q.takeWhile (digit b · < b), digit b c < b := fun c hc => by
    simpa using List.mem_takeWhile_imp hc
  obtain ⟨ovfl, hrun, hovfl⟩ := @vdigits_append b (2 ^ 64 - 2 ^ 63 / b) _ hds
    (q.dropWhile (digit b · < b)) (fun c => head_dropWhile) 0 0 false
  rw [List.takeWhile_append_dropWhile, Nat.zero_mod, Nat.zero_add] at hrun
  refine ⟨ovfl, ?_, ?_⟩
  · rw [hovfl, hnum, Numeral.Unnoticed]
    exact and_iff_right rfl
  · rw [hnum, Numeral.magnitude]
    simp only [strtoull, hsign, hb, Int.toNat_natCast]
    rw [if_neg (by omega), uvlong_quotient (by omega) (by omega), hrun]
    simp only [List.length_eq_zero_iff]
    rfl

theorem uvlong_neg {n : ℕ} (hn : n < 2 ^ 64) : uvlong (-(n : ℤ)) = (2 ^ 64 - n) % 2 ^ 64 := by
  rw [uvlong]
  omega

/-- What `strtoull` promises for a numeral. -/
def Exact (nptr : List Char) (base : ℤ) : Prop :=
  strtoull nptr base =
    ((numeral nptr base).saturated, if (numeral nptr base).digits = [] then nptr else (numeral nptr base).rest)

theorem numeral_base (nptr : List Char) {base : ℤ} (hbase : base = 0 ∨ 2 ≤ base ∧ base ≤ 36) :
    1 < (numeral nptr base).base := by
  have h := vbase_range hbase (ulsign (nptr.dropWhile space)).2
  show 1 < (vbase base (ulsign (nptr.dropWhile space)).2).1.toNat
  omega

/-- A numeral is evaluated exactly if its magnitude fits. Else the largest number comes out only if no
digit shows the overflow and the residue is that number. -/
theorem strtoull_exact_iff (nptr : List Char) {base : ℤ} (hbase : base = 0 ∨ 2 ≤ base ∧ base ≤ 36) :
    Exact nptr base ↔ (numeral nptr base).Honest := by
  obtain ⟨ovfl, hovfl, hrun⟩ := strtoull_run nptr hbase
  have hone := numeral_base nptr hbase
  rw [Exact, hrun, Prod.mk.injEq, and_iff_left rfl]
  generalize numeral nptr base = x at *
  rw [Numeral.saturated, Numeral.Honest]
  by_cases hfit : x.magnitude < 2 ^ 64
  · have hno : ovfl = false := hovfl.mpr (Numeral.unnoticed_of_fits hone hfit)
    rw [if_pos hfit, hno, if_neg Bool.false_ne_true, Nat.mod_eq_of_lt hfit, uvlong_neg hfit]
    exact iff_of_true rfl (.inl hfit)
  · rw [if_neg hfit, or_iff_right hfit]
    cases ovfl with
    | true =>
      rw [if_pos rfl]
      exact iff_of_false (by decide) fun h => absurd (hovfl.mpr h.1) Bool.noConfusion
    | false =>
      have hlt : x.magnitude % 2 ^ 64 < 2 ^ 64 := Nat.mod_lt _ (by decide)
      rw [if_neg Bool.false_ne_true, and_iff_right (hovfl.mp rfl), uvlong_neg hlt]
      split_ifs
      · omega
      · exact Iff.rfl

/-- The largest number is read. -/
theorem strtoull_exact_iff_largest :
    (10 = (0 : ℤ) ∨ 2 ≤ (10 : ℤ) ∧ (10 : ℤ) ≤ 36) ∧
      (Exact "18446744073709551615".toList 10 ↔ (numeral "18446744073709551615".toList 10).Honest) :=
  ⟨by decide, strtoull_exact_iff _ (by decide)⟩

/-- The number after the largest one is taken for `2 ^ 63`. -/
theorem strtoull_wraps : ¬ Exact "18446744073709551616".toList 10 := by
  unfold Exact
  decide

end Petele.Libc
