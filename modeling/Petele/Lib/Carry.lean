import Mathlib.Data.Nat.ModEq
import Mathlib.Algebra.BigOperators.Group.List.Basic
import Mathlib.Algebra.Group.Nat.Even
import Mathlib.Tactic.Ring
import Mathlib.Data.List.Induction

/-! Sums with an end-around carry: numbers below `β` modulo `β - 1`, where 0 stands for nothing but 0. -/

namespace Petele.Lib.Carry

section Residue

variable {β : ℕ}

def add (β x y : ℕ) : ℕ := if x + y < β then x + y else x + y - (β - 1)

/-- The number below `β` that stands for `n`. -/
def rep (β n : ℕ) : ℕ := if n = 0 then 0 else (n - 1) % (β - 1) + 1

theorem rep_eq_zero {n : ℕ} : rep β n = 0 ↔ n = 0 := by
  rw [rep]
  split <;> simp_all

theorem rep_lt (hβ : 2 ≤ β) (n : ℕ) : rep β n < β := by
  have := Nat.mod_lt (n - 1) (show 0 < β - 1 by omega)
  rw [rep]
  split <;> omega

theorem rep_modEq (n : ℕ) : rep β n ≡ n [MOD β - 1] := by
  rw [rep]
  split
  · next h => rw [h]
  · next h =>
    have : (n - 1) % (β - 1) + 1 ≡ n - 1 + 1 [MOD β - 1] := (Nat.mod_modEq _ _).add_right 1
    rwa [Nat.sub_add_cancel (by omega)] at this

theorem rep_congr {m n : ℕ} (h : m ≡ n [MOD β - 1]) (h0 : m = 0 ↔ n = 0) : rep β m = rep β n := by
  rw [rep, rep]
  by_cases hm : m = 0
  · rw [if_pos hm, if_pos (h0.mp hm)]
  · rw [if_neg hm, if_neg (mt h0.mpr hm)]
    congr 1
    refine Nat.ModEq.add_right_cancel' 1 ?_
    rwa [Nat.sub_add_cancel (by omega), Nat.sub_add_cancel (by omega)]

theorem rep_of_lt {n : ℕ} (h : n < β) : rep β n = n := by
  rw [rep]
  split
  · next h0 => exact h0.symm
  · rw [Nat.mod_eq_of_lt (by omega)]
    omega

/-- What is above the lower digits is added to them. -/
theorem rep_carry (hβ : 2 ≤ β) (n : ℕ) : rep β (n / β + n % β) = rep β n := by
  have hn := Nat.div_add_mod n β
  refine rep_congr ?_ ?_
  · have : β * (n / β) ≡ 1 * (n / β) [MOD β - 1] :=
      (((Nat.modEq_iff_dvd' (by omega)).mpr dvd_rfl).symm).mul_right _
    rw [one_mul] at this
    calc n / β + n % β ≡ β * (n / β) + n % β [MOD β - 1] := this.symm.add_right _
      _ = n := hn
  · constructor
    · intro h
      obtain ⟨hd, hm⟩ := Nat.add_eq_zero_iff.mp h
      rw [← hn, hd, hm, mul_zero]
    · rintro rfl
      simp

theorem add_rep (hβ : 2 ≤ β) {n : ℕ} (h : n < β) (m : ℕ) : add β (rep β m) n = rep β (m + n) := by
  have hm := rep_lt hβ m
  have hsum : rep β m + n ≡ m + n [MOD β - 1] := (rep_modEq m).add_right n
  have hzero := rep_eq_zero (β := β) (n := m)
  have hlt : add β (rep β m) n < β := by
    rw [add]
    split <;> omega
  rw [← rep_of_lt hlt]
  refine rep_congr ?_ ?_
  · rw [add]
    split
    · exact hsum
    · refine Nat.ModEq.trans ?_ hsum
      exact (Nat.modEq_iff_dvd' (Nat.sub_le _ _)).mpr ⟨1, by omega⟩
  · rw [add]
    split <;> omega

theorem foldl_add (hβ : 2 ≤ β) {l : List ℕ} (h : ∀ n ∈ l, n < β) (m : ℕ) :
    l.foldl (add β) (rep β m) = rep β (m + l.sum) := by
  induction l generalizing m with
  | nil => rfl
  | cons n l ih =>
    rw [List.foldl_cons, add_rep hβ (h n List.mem_cons_self), ih fun k hk => h k (List.mem_cons_of_mem n hk),
      List.sum_cons, add_assoc]

end Residue

/-! Words of two digits to the base `b`. -/

variable {b : ℕ}

/-- The words of a list of digits, the last one filled up with 0. -/
def words (b : ℕ) : List ℕ → List ℕ
  | [] => []
  | [x] => [b * x]
  | x :: y :: l => (b * x + y) :: words b l

attribute [local simp] words

/-- `n` is `b ^ k` times the sum of the words of `l`, up to end-around carries. -/
structure Stands (b k n : ℕ) (l : List ℕ) : Prop where
  sum : n ≡ b ^ k * (words b l).sum [MOD b * b - 1]
  zero : n = 0 ↔ ∀ x ∈ l, x = 0

/-- The digits change places. -/
def swap (b n : ℕ) : ℕ := n / b + n % b * b

theorem words_lt {l : List ℕ} (hb : 0 < b) (h : ∀ x ∈ l, x < b) : ∀ n ∈ words b l, n < b * b := by
  have hstep : ∀ x < b, ∀ y < b, b * x + y < b * b := fun x hx y hy => by
    calc b * x + y < b * x + b := by omega
      _ = b * (x + 1) := by ring
      _ ≤ b * b := Nat.mul_le_mul_left _ hx
  induction l using List.twoStepInduction with
  | nil => exact fun _ hn => absurd hn List.not_mem_nil
  | singleton x =>
    intro n hn
    rw [words, List.mem_singleton] at hn
    simpa [hn] using hstep x (h x List.mem_cons_self) 0 hb
  | cons_cons x y l ih =>
    intro n hn
    rw [words, List.mem_cons] at hn
    obtain rfl | hn := hn
    · exact hstep x (h x (by simp)) y (h y (by simp))
    · exact ih (fun z hz => h z (by simp [hz])) n hn

theorem sq_modEq (hb : 0 < b) : b * b ≡ 1 [MOD b * b - 1] :=
  ((Nat.modEq_iff_dvd' (Nat.mul_pos hb hb)).mpr dvd_rfl).symm

theorem swap_modEq (hb : 0 < b) (n : ℕ) : swap b n ≡ b * n [MOD b * b - 1] := by
  have h := (sq_modEq hb).symm.mul_right (n / b)
  rw [one_mul] at h
  calc swap b n ≡ b * b * (n / b) + n % b * b [MOD b * b - 1] := h.add_right _
    _ = b * (b * (n / b) + n % b) := by ring
    _ = b * n := by rw [Nat.div_add_mod]

theorem swap_eq_zero (hb : 0 < b) {n : ℕ} : swap b n = 0 ↔ n = 0 := by
  have hn := Nat.div_add_mod n b
  constructor
  · intro h
    rw [swap, Nat.add_eq_zero_iff, Nat.mul_eq_zero] at h
    rw [← hn, h.1, h.2.resolve_right (by omega), mul_zero]
  · rintro rfl
    simp [swap]

namespace Stands

variable {k m n : ℕ} {l l' : List ℕ}

theorem nil : Stands b k 0 [] where
  sum := by simp [words, Nat.ModEq.refl]
  zero := by simp

theorem swap (hb : 0 < b) (h : Stands b k n l) : Stands b (k + 1) (swap b n) l where
  sum := by
    refine (swap_modEq hb n).trans ?_
    rw [pow_succ, mul_comm (b ^ k) b, mul_assoc]
    exact h.sum.mul_left b
  zero := (swap_eq_zero hb).trans h.zero

theorem mul (hb : 0 < b) (h : Stands b k n l) : Stands b (k + 1) (b * n) l where
  sum := by
    rw [pow_succ, mul_comm (b ^ k) b, mul_assoc]
    exact h.sum.mul_left b
  zero := by
    rw [Nat.mul_eq_zero, ← h.zero]
    omega

/-- Digits that change places twice are where they were. -/
theorem twice (hb : 0 < b) : Stands b (k + 2) n l ↔ Stands b k n l := by
  have hk : b ^ (k + 2) * (words b l).sum ≡ b ^ k * (words b l).sum [MOD b * b - 1] := by
    have := (sq_modEq hb).mul_left (b ^ k * (words b l).sum)
    rw [mul_one] at this
    rwa [show b ^ (k + 2) * (words b l).sum = b ^ k * (words b l).sum * (b * b) by ring]
  exact ⟨fun h => ⟨h.sum.trans hk, h.zero⟩, fun h => ⟨h.sum.trans hk.symm, h.zero⟩⟩

theorem single (x : ℕ) (hb : 0 < b) : Stands b 1 x [x] where
  sum := by
    have := (sq_modEq hb).symm.mul_right x
    rw [one_mul, mul_assoc] at this
    simpa [words] using this
  zero := by simp

theorem pair (hb : 0 < b) (x y : ℕ) : Stands b 0 (b * x + y) [x, y] where
  sum := by simp [words, Nat.ModEq.refl]
  zero := by
    have : b ≠ 0 := by omega
    simp [this]

theorem words_append (hl : Even l.length) : words b (l ++ l') = words b l ++ words b l' := by
  induction l using List.twoStepInduction with
  | nil => rfl
  | singleton x => simp at hl
  | cons_cons x y l ih =>
    have : Even l.length := by simpa [Nat.even_add_one] using hl
    rw [List.cons_append, List.cons_append, words, words, ih this]
    rfl

/-- The first digit of what follows a half word fills that up. -/
theorem words_append_odd (hb : 0 < b) (hl : Odd l.length) :
    (words b (l ++ l')).sum ≡ (words b l).sum + b * (words b l').sum [MOD b * b - 1] := by
  induction l using List.twoStepInduction with
  | nil => simp at hl
  | singleton x =>
    clear hl
    induction l' using List.twoStepInduction generalizing x with
    | nil => simp [words, Nat.ModEq.refl]
    | singleton y =>
      have := (sq_modEq hb).symm.mul_right y
      rw [one_mul, mul_assoc] at this
      simpa [words] using this.add_left (b * x)
    | cons_cons y z l ih =>
      have hz := ih z
      have hy := (sq_modEq hb).symm.mul_right y
      rw [one_mul] at hy
      simp only [words, List.singleton_append, List.sum_cons, List.sum_nil, add_zero] at hz ⊢
      calc b * x + y + (words b (z :: l)).sum
          ≡ b * x + b * b * y + (b * z + b * (words b l).sum) [MOD b * b - 1] := (hy.add_left _).add hz
        _ = b * x + b * (b * y + z + (words b l).sum) := by ring
  | cons_cons x y l ih =>
    have : Odd l.length := by
      rw [List.length_cons, List.length_cons] at hl
      rwa [Nat.odd_add_one, Nat.not_odd_iff_even, Nat.even_add_one, Nat.not_even_iff_odd] at hl
    rw [List.cons_append, List.cons_append, words, words, List.sum_cons, List.sum_cons, add_assoc (b * x + y)]
    exact (ih this).add_left _

theorem zero_append (hm : m = 0 ↔ ∀ x ∈ l, x = 0) (hn : n = 0 ↔ ∀ x ∈ l', x = 0) :
    m + n = 0 ↔ ∀ x ∈ l ++ l', x = 0 := by
  rw [Nat.add_eq_zero_iff, hm, hn]
  simp only [List.mem_append, or_imp, forall_and]

theorem append (hl : Even l.length) (hm : Stands b k m l) (hn : Stands b k n l') : Stands b k (m + n) (l ++ l') where
  sum := by
    rw [words_append hl, List.sum_append, mul_add]
    exact hm.sum.add hn.sum
  zero := zero_append hm.zero hn.zero

theorem append_odd (hb : 0 < b) (hl : Odd l.length) (hm : Stands b k m l) (hn : Stands b (k + 1) n l') :
    Stands b k (m + n) (l ++ l') where
  sum := by
    refine (hm.sum.add hn.sum).trans ?_
    rw [pow_succ, mul_assoc, ← mul_add]
    exact ((words_append_odd hb hl).mul_left _).symm
  zero := zero_append hm.zero hn.zero

theorem words_zero (hb : 0 < b) : (words b l).sum = 0 ↔ ∀ x ∈ l, x = 0 := by
  induction l using List.twoStepInduction with
  | nil => simp [words]
  | singleton x =>
    have : b ≠ 0 := by omega
    simp [words, this]
  | cons_cons x y l ih =>
    have : b ≠ 0 := by omega
    rw [words, List.sum_cons, Nat.add_eq_zero_iff, ih]
    simp [this, and_assoc]

theorem rep_eq (hb : 0 < b) (h : Stands b 0 n l) : rep (b * b) n = rep (b * b) (words b l).sum := by
  refine rep_congr ?_ (h.zero.trans (words_zero hb).symm)
  simpa using h.sum

end Stands

end Petele.Lib.Carry
