import Petele.Libc.Strtoul
import Petele.Lib.CInt

namespace Petele.Libc

open Lib

def LONGMAX : ℤ := 2147483647

structure Ldigits where
  n : ℤ
  ovfl : Bool
  ndig : ℕ

/-! The text is what memory holds from the pointer on. To read past its end is `none`. -/

/-- The sequence of digits, and the text after it. -/
def ldigits (base : ℕ) : Ldigits → List Char → Option (Ldigits × List Char)
  | _, [] => none
  | d, c :: p =>
    let v := digit base c
    if v ≥ base then some (d, c :: p)
    else
      let nn := wrap (d.n * base + v)
      ldigits base ⟨nn, d.ovfl || LONGMAX / base < d.n || nn < d.n, d.ndig + 1⟩ p

/-- The base that the text tells. -/
def lbase : List Char → Option (ℕ × List Char)
  | [] => none
  | c :: p =>
    if c = '0' then
      match p with
      | [] => none
      | x :: q => if x = 'x' ∨ x = 'X' then some (16, q) else some (8, c :: p)
    else some (10, c :: p)

/-- `strtol(nptr, &e, 0)`: the number, and the text from `e` on. -/
def strtol (nptr : List Char) : Option (ℤ × List Char) := do
  let p := nptr.dropWhile space
  let c ← p.head?
  let (base, p) ← lbase (if c = '-' ∨ c = '+' then p.tail else p)
  let (d, p) ← ldigits base ⟨0, false, 0⟩ p
  let n := if d.ovfl then (if c = '-' then -LONGMAX - 1 else LONGMAX) else if c = '-' then -d.n else d.n
  return (n, if d.ndig = 0 then nptr else p)

section Read

variable {base : ℕ}

/-- Digits of a number that fits are all taken. -/
theorem ldigits_append (hbase : 1 < base) {ds : List Char} (hds : ∀ c ∈ ds, digit base c < base)
    (tail : List Char) {n k : ℕ} (hfit : value base n ds < 2 ^ 31) :
    ldigits base ⟨n, false, k⟩ (ds ++ tail) = ldigits base ⟨value base n ds, false, k + ds.length⟩ tail := by
  induction ds generalizing n k with
  | nil => rfl
  | cons c ds ih =>
    rw [List.forall_mem_cons] at hds
    have hle : n * base + digit base c < 2 ^ 31 :=
      Nat.lt_of_le_of_lt (le_value hbase (n * base + digit base c) ds) hfit
    have hn : n ≤ n * base := Nat.le_mul_of_pos_right n (by omega)
    have hwrap : wrap ((n : ℤ) * base + digit base c) = ((n * base + digit base c : ℕ) : ℤ) := by
      have hpos : (0 : ℤ) ≤ (n : ℤ) * base + digit base c := by positivity
      rw [wrap_of_range (le_trans (by decide) hpos) (by exact_mod_cast hle)]
      push_cast
      rfl
    have hdiv : (n : ℤ) ≤ LONGMAX / base := by
      rw [Int.le_ediv_iff_mul_le (by omega), LONGMAX]
      exact_mod_cast (show n * base ≤ 2147483647 by omega)
    rw [List.cons_append, ldigits, if_neg (by omega), hwrap]
    have hflag : (false || decide (LONGMAX / (base : ℤ) < n) ||
        decide (((n * base + digit base c : ℕ) : ℤ) < n)) = false := by
      rw [Bool.false_or, Bool.or_eq_false_iff, decide_eq_false_iff_not, decide_eq_false_iff_not]
      omega
    simp only [hflag]
    rw [ih hds.2 hfit, List.length_cons, Nat.add_assoc, Nat.add_comm 1]
    rfl

theorem ldigits_stop {d : Ldigits} {c : Char} (tail : List Char) (hc : base ≤ digit base c) :
    ldigits base d (c :: tail) = some (d, c :: tail) := by
  rw [ldigits, if_pos hc]

theorem ldigits_toDigits (hlow : 1 < base) (hhigh : base ≤ 16) {n : ℕ} (hn : n < 2 ^ 31) {c : Char}
    (hc : base ≤ digit base c) (tail : List Char) :
    ldigits base ⟨0, false, 0⟩ (Nat.toDigits base n ++ c :: tail) =
      some (⟨n, false, (Nat.toDigits base n).length⟩, c :: tail) := by
  obtain ⟨hmem, hval⟩ := value_toDigits hlow hhigh n
  have hloop := @ldigits_append base hlow (Nat.toDigits base n) (fun c hc => ?_) (c :: tail) 0 0
    (by rw [hval]; exact hn)
  · rw [hval, Nat.zero_add, ldigits_stop tail hc] at hloop
    exact hloop
  · obtain ⟨j, hj, rfl⟩ := hmem c hc
    rw [digit_digitChar (by omega)]
    exact hj

/-- A decimal number behind a blank is read as it was printed. -/
theorem strtol_dec {n : ℕ} (hn : n < 2 ^ 31) {c : Char} (hc : ∀ base, digit base c = base) (tail : List Char) :
    strtol (' ' :: (Nat.toDigits 10 n ++ c :: tail)) = some ((n : ℤ), c :: tail) := by
  rcases Nat.eq_zero_or_pos n with rfl | hpos
  · have hx : ¬ (c = 'x' ∨ c = 'X') := by
      rintro (rfl | rfl)
      · exact absurd (hc 10) (by decide)
      · exact absurd (hc 10) (by decide)
    have hdrop : (' ' :: ('0' :: c :: tail)).dropWhile space = '0' :: c :: tail := rfl
    have hloop := @ldigits_toDigits 8 (by decide) (by decide) 0 (by decide) c (hc 8).ge tail
    rw [Nat.toDigits_zero, List.singleton_append] at hloop ⊢
    simp only [strtol, hdrop, List.head?_cons, Option.bind_eq_bind, Option.bind_some]
    rw [if_neg (by decide), lbase, if_pos rfl]
    simp only [if_neg hx, Option.bind_some, hloop]
    rfl
  · obtain ⟨j, ds, hj, hlt, hds⟩ := toDigits_head (show 1 < 10 by decide) hpos
    have hloop := @ldigits_toDigits 10 (by decide) (by decide) n hn c (hc 10).ge tail
    have hlen : (Nat.toDigits 10 n).length ≠ 0 := Nat.ne_of_gt Nat.length_toDigits_pos
    have hdrop : (' ' :: (Nat.toDigits 10 n ++ c :: tail)).dropWhile space = Nat.toDigits 10 n ++ c :: tail := by
      rw [hds]
      interval_cases j <;> rfl
    have hhead : ∃ x, (Nat.toDigits 10 n ++ c :: tail).head? = some x ∧ ¬ (x = '-' ∨ x = '+') ∧
        lbase (Nat.toDigits 10 n ++ c :: tail) = some (10, Nat.toDigits 10 n ++ c :: tail) := by
      rw [hds]
      refine ⟨Nat.digitChar j, rfl, ?_, ?_⟩
      · interval_cases j <;> decide
      · interval_cases j <;> rfl
    obtain ⟨x, hx, hsign, hbase⟩ := hhead
    simp only [strtol, hdrop, hx, Option.bind_eq_bind, Option.bind_some]
    rw [if_neg hsign, hbase]
    simp only [Option.bind_some, hloop]
    rw [if_neg (by simp), if_neg (fun h => hsign (.inl h)), if_neg hlen]
    rfl

end Read

end Petele.Libc
