import Mathlib.Algebra.Order.Group.Nat
import Mathlib.Data.List.Basic
import Mathlib.Tactic.Common
import Mathlib.Tactic.IntervalCases

namespace Petele.Libc

def ULONGMAX : ℕ := 4294967295

def space (c : Char) : Bool :=
  c = ' ' || c = '\t' || c = '\n' || c = '\x0c' || c = '\r' || c = '\x0b'

/-- The value of a digit, or the base. -/
def digit (base : ℕ) (c : Char) : ℕ :=
  if '0' ≤ c ∧ c ≤ '9' then c.toNat - '0'.toNat
  else if 'a' ≤ c ∧ c ≤ 'z' then c.toNat - 'a'.toNat + 10
  else if 'A' ≤ c ∧ c ≤ 'Z' then c.toNat - 'A'.toNat + 10
  else base

structure Digits where
  n : ℕ
  ovfl : Bool
  ndig : ℕ

/-- The sequence of digits, and the text after it. -/
def digitloop (base : ℕ) : Digits → List Char → Digits × List Char
  | d, [] => (d, [])
  | d, c :: p =>
    let v := digit base c
    if v ≥ base then (d, c :: p)
    else
      let nn := (d.n * base + v) % 2 ^ 32
      digitloop base ⟨nn, d.ovfl || d.n > ULONGMAX / base || nn < d.n, d.ndig + 1⟩ p

def ulsign : List Char → Bool × List Char
  | '-' :: p => (true, p)
  | '+' :: p => (false, p)
  | p => (false, p)

def ulbase : List Char → ℕ
  | '0' :: c :: _ => if c = 'x' ∨ c = 'X' then 16 else 8
  | '0' :: _ => 8
  | _ => 10

/-- `0x` before a digit is skipped. -/
def skiphex : List Char → List Char
  | '0' :: x :: c :: p =>
    if (x = 'x' ∨ x = 'X') ∧ ('0' ≤ c ∧ c ≤ '9' ∨ 'a' ≤ c ∧ c ≤ 'f' ∨ 'A' ≤ c ∧ c ≤ 'F') then c :: p
    else '0' :: x :: c :: p
  | p => p

/-- The number, and the text after it. -/
def strtoul (nptr : List Char) (base : ℕ) : ℕ × List Char :=
  let (neg, p) := ulsign (nptr.dropWhile space)
  let base := if base = 0 then ulbase p else base
  if base < 2 ∨ 36 < base then (0, nptr)
  else
    let (d, p) := digitloop base ⟨0, false, 0⟩ (if base = 16 then skiphex p else p)
    (if d.ovfl then ULONGMAX else if neg then (2 ^ 32 - d.n) % 2 ^ 32 else d.n,
      if d.ndig = 0 then nptr else p)

section Read

variable {base : ℕ}

def value (base : ℕ) (n : ℕ) (ds : List Char) : ℕ := ds.foldl (fun n c => n * base + digit base c) n

theorem le_value (hbase : 1 < base) (n : ℕ) (ds : List Char) : n ≤ value base n ds := by
  induction ds generalizing n with
  | nil => exact le_rfl
  | cons c ds ih =>
    refine le_trans ?_ (ih (n * base + digit base c))
    exact le_trans (Nat.le_mul_of_pos_right n (by omega)) (Nat.le_add_right _ _)

/-- Digits of a number that fits are all taken. -/
theorem digitloop_append (hbase : 1 < base) {ds : List Char} (hds : ∀ c ∈ ds, digit base c < base)
    (tail : List Char) {n k : ℕ} (hfit : value base n ds < 2 ^ 32) :
    digitloop base ⟨n, false, k⟩ (ds ++ tail) =
      digitloop base ⟨value base n ds, false, k + ds.length⟩ tail := by
  induction ds generalizing n k with
  | nil => rfl
  | cons c ds ih =>
    rw [List.forall_mem_cons] at hds
    have hle : n * base + digit base c < 2 ^ 32 :=
      Nat.lt_of_le_of_lt (le_value hbase (n * base + digit base c) ds) hfit
    have hn : n ≤ n * base := Nat.le_mul_of_pos_right n (by omega)
    have hdiv : n ≤ ULONGMAX / base := by
      rw [Nat.le_div_iff_mul_le (by omega), ULONGMAX]
      omega
    rw [List.cons_append, digitloop, if_neg (by omega), Nat.mod_eq_of_lt hle]
    have hflag : (false || decide (n > ULONGMAX / base) || decide (n * base + digit base c < n)) = false := by
      rw [Bool.false_or, Bool.or_eq_false_iff, decide_eq_false_iff_not, decide_eq_false_iff_not]
      omega
    simp only [hflag]
    rw [ih hds.2 hfit, List.length_cons, Nat.add_assoc, Nat.add_comm 1]
    rfl

theorem digitloop_stop {d : Digits} {tail : List Char} (htail : ∀ c ∈ tail.head?, base ≤ digit base c) :
    digitloop base d tail = (d, tail) := by
  cases tail with
  | nil => rfl
  | cons c tail => rw [digitloop, if_pos (htail c rfl)]

theorem digit_digitChar {j : ℕ} (hj : j < 16) : digit base (Nat.digitChar j) = j := by
  interval_cases j
  all_goals rfl

/-- The digits that are printed have the value of the number. -/
theorem value_toDigits (hlow : 1 < base) (hhigh : base ≤ 16) (n : ℕ) :
    (∀ c ∈ Nat.toDigits base n, ∃ j < base, c = Nat.digitChar j) ∧
      value base 0 (Nat.toDigits base n) = n := by
  induction n using Nat.strong_induction_on with
  | _ n ih =>
    by_cases hsmall : n < base
    · rw [Nat.toDigits_of_lt_base hsmall]
      refine ⟨fun c hc => ⟨n, hsmall, List.mem_singleton.mp hc⟩, ?_⟩
      rw [value, List.foldl_cons, List.foldl_nil, Nat.zero_mul, Nat.zero_add, digit_digitChar (by omega)]
    · obtain ⟨hmem, hval⟩ := ih (n / base) (Nat.div_lt_self (by omega) hlow)
      have hmod : n % base < base := Nat.mod_lt n (by omega)
      rw [Nat.toDigits_of_base_le hlow (by omega)]
      refine ⟨fun c hc => ?_, ?_⟩
      · rcases List.mem_append.mp hc with hc | hc
        · exact hmem c hc
        · exact ⟨n % base, hmod, List.mem_singleton.mp hc⟩
      · rw [value] at hval
        rw [value, List.foldl_append, hval, List.foldl_cons, List.foldl_nil, digit_digitChar (by omega)]
        exact Nat.div_add_mod' n base

theorem toDigits_head (hlow : 1 < base) {n : ℕ} (hn : 0 < n) :
    ∃ j ds, 0 < j ∧ j < base ∧ Nat.toDigits base n = Nat.digitChar j :: ds := by
  induction n using Nat.strong_induction_on with
  | _ n ih =>
    by_cases hsmall : n < base
    · exact ⟨n, [], hn, hsmall, Nat.toDigits_of_lt_base hsmall⟩
    · obtain ⟨j, ds, hpos, hlt, hds⟩ := ih (n / base) (Nat.div_lt_self hn hlow)
        (Nat.div_pos (by omega) (by omega))
      rw [Nat.toDigits_of_base_le hlow (by omega), hds]
      exact ⟨j, _, hpos, hlt, rfl⟩

/-- What ends a number, in any base. -/
def Stops (tail : List Char) : Prop := ∀ c ∈ tail.head?, ∀ base, digit base c = base

theorem digitloop_toDigits (hlow : 1 < base) (hhigh : base ≤ 16) {n : ℕ} (hn : n < 2 ^ 32) {tail : List Char}
    (htail : Stops tail) :
    digitloop base ⟨0, false, 0⟩ (Nat.toDigits base n ++ tail) =
      (⟨n, false, (Nat.toDigits base n).length⟩, tail) := by
  obtain ⟨hmem, hval⟩ := value_toDigits hlow hhigh n
  rw [digitloop_append hlow (fun c hc => ?_) tail (by rw [hval]; exact hn), hval, Nat.zero_add,
    digitloop_stop fun c hc => (htail c hc base).ge]
  obtain ⟨j, hj, rfl⟩ := hmem c hc
  rw [digit_digitChar (by omega)]
  exact hj

theorem ulsign_digit {j : ℕ} (hj : j < 16) (ds : List Char) :
    ulsign (((Nat.digitChar j :: ds)).dropWhile space) = (false, Nat.digitChar j :: ds) := by
  interval_cases j
  all_goals rfl

theorem skiphex_toDigits (hlow : 1 < base) (hhigh : base ≤ 16) (n : ℕ) {tail : List Char}
    (htail : Stops tail) :
    skiphex (Nat.toDigits base n ++ tail) = Nat.toDigits base n ++ tail := by
  rcases Nat.eq_zero_or_pos n with rfl | hn
  · rw [Nat.toDigits_zero]
    rcases tail with _ | ⟨x, _ | ⟨c, tail⟩⟩
    · rfl
    · rfl
    · show skiphex ('0' :: x :: c :: tail) = '0' :: x :: c :: tail
      rw [skiphex, if_neg]
      rintro ⟨rfl | rfl, -⟩
      · exact absurd (htail 'x' rfl 10) (by decide)
      · exact absurd (htail 'X' rfl 10) (by decide)
  · obtain ⟨j, ds, hpos, hlt, hds⟩ := toDigits_head hlow hn
    have hj : j < 16 := by omega
    rw [hds]
    interval_cases j
    all_goals rfl

theorem ulsign_toDigits (hlow : 1 < base) (hhigh : base ≤ 16) (n : ℕ) (tail : List Char) :
    ulsign ((Nat.toDigits base n ++ tail).dropWhile space) = (false, Nat.toDigits base n ++ tail) := by
  obtain ⟨c, ds, hds⟩ := List.exists_cons_of_ne_nil (@Nat.toDigits_ne_nil n base)
  obtain ⟨j, hj, rfl⟩ := (value_toDigits hlow hhigh n).1 c (hds ▸ List.mem_cons_self)
  rw [hds]
  exact ulsign_digit (by omega) _

/-- A number in hexadecimal is read as it was printed. -/
theorem strtoul_hex {n : ℕ} (hn : n < 2 ^ 32) {tail : List Char} (htail : Stops tail) :
    strtoul (Nat.toDigits 16 n ++ tail) 16 = (n, tail) := by
  have hpos : (Nat.toDigits 16 n).length ≠ 0 := Nat.ne_of_gt Nat.length_toDigits_pos
  simp only [strtoul, ulsign_toDigits (show 1 < 16 by decide) le_rfl,
    skiphex_toDigits (show 1 < 16 by decide) le_rfl n htail]
  simp [digitloop_toDigits (show 1 < 16 by decide) le_rfl hn htail, hpos]

/-- A number in decimal is read as it was printed, if the base is told by the text. -/
theorem strtoul_dec {n : ℕ} (hn : n < 2 ^ 32) {tail : List Char} (htail : Stops tail) :
    strtoul (Nat.toDigits 10 n ++ tail) 0 = (n, tail) := by
  rcases Nat.eq_zero_or_pos n with rfl | hpos
  · have hloop : digitloop 8 ⟨0, false, 0⟩ ('0' :: tail) = (⟨0, false, 1⟩, tail) :=
      digitloop_stop fun c hc => (htail c hc 8).ge
    have hbase : ulbase ('0' :: tail) = 8 := by
      rcases tail with _ | ⟨c, tail⟩
      · rfl
      · rw [ulbase, if_neg]
        rintro (rfl | rfl)
        · exact absurd (htail 'x' rfl 10) (by decide)
        · exact absurd (htail 'X' rfl 10) (by decide)
    have hsign : ulsign (('0' :: tail).dropWhile space) = (false, '0' :: tail) := rfl
    rw [Nat.toDigits_zero, List.singleton_append]
    simp only [strtoul, hsign, hbase, if_true]
    simp [hloop]
  · obtain ⟨j, ds, hj, hlt, hds⟩ := toDigits_head (show 1 < 10 by decide) hpos
    have hbase : ulbase (Nat.toDigits 10 n ++ tail) = 10 := by
      rw [hds]
      interval_cases j
      all_goals rfl
    have hlen : (Nat.toDigits 10 n).length ≠ 0 := Nat.ne_of_gt Nat.length_toDigits_pos
    simp only [strtoul, ulsign_toDigits (show 1 < 10 by decide) (by decide), hbase, if_true]
    simp [digitloop_toDigits (show 1 < 10 by decide) (by decide) hn htail, hlen]

theorem digitloop_rest {ds : List Char} (hds : ∀ c ∈ ds, digit base c < base) {tail : List Char}
    (htail : Stops tail) (d : Digits) :
    (digitloop base d (ds ++ tail)).2 = tail ∧ (digitloop base d (ds ++ tail)).1.ndig = d.ndig + ds.length := by
  induction ds generalizing d with
  | nil =>
    rw [List.nil_append, digitloop_stop fun c hc => (htail c hc base).ge]
    exact ⟨rfl, rfl⟩
  | cons c ds ih =>
    rw [List.forall_mem_cons] at hds
    rw [List.cons_append, digitloop, if_neg (by omega), List.length_cons, Nat.add_comm ds.length,
      ← Nat.add_assoc]
    exact ih hds.2 _

/-- A number in decimal is passed over in hexadecimal. -/
theorem strtoul_hex_dec (n : ℕ) {tail : List Char} (htail : Stops tail) :
    (strtoul (Nat.toDigits 10 n ++ tail) 16).2 = tail := by
  have hds : ∀ c ∈ Nat.toDigits 10 n, digit 16 c < 16 := fun c hc => by
    obtain ⟨j, hj, rfl⟩ := (value_toDigits (by decide) (by decide) n).1 c hc
    rw [digit_digitChar (by omega)]
    omega
  obtain ⟨hrest, hlen⟩ := digitloop_rest hds htail ⟨0, false, 0⟩
  have hpos : (Nat.toDigits 10 n).length ≠ 0 := Nat.ne_of_gt Nat.length_toDigits_pos
  simp only [strtoul, ulsign_toDigits (show 1 < 10 by decide) (by decide),
    skiphex_toDigits (show 1 < 10 by decide) (by decide) n htail]
  simp [hrest, hlen, hpos]

theorem strtoul_empty {base : ℕ} (hlow : 1 < base) (hhigh : base ≤ 36) {tail : List Char} (htail : Stops tail)
    (hsign : ulsign (tail.dropWhile space) = (false, tail)) (hhex : skiphex tail = tail) :
    strtoul tail base = (0, tail) := by
  have hloop : digitloop base ⟨0, false, 0⟩ tail = (⟨0, false, 0⟩, tail) :=
    digitloop_stop fun c hc => (htail c hc base).ge
  simp only [strtoul, hsign, hhex, ite_self, if_neg (show base ≠ 0 by omega), hloop,
    if_neg (show ¬ (base < 2 ∨ 36 < base) by omega)]
  rfl

end Read

end Petele.Libc
