import Mathlib.Algebra.Order.Ring.Int
import Mathlib.Algebra.Order.Ring.Abs
import Mathlib.Algebra.Ring.Divisibility.Basic
import Mathlib.Tactic.Ring
import Mathlib.Tactic.Linarith

namespace Petele.Lib.Horner

/-- The value at `b` of the polynomial with the given coefficients, constant term first. -/
def eval (b : ℤ) : List ℤ → ℤ
  | [] => 0
  | c :: cs => c + b * eval b cs

variable {b : ℤ}

attribute [local simp] eval

theorem eval_append (cs ds : List ℤ) :
    eval b (cs ++ ds) = eval b cs + b ^ cs.length * eval b ds := by
  induction cs with
  | nil => simp [eval]
  | cons c cs ih =>
    rw [List.cons_append, eval, ih, eval, List.length_cons, pow_succ]
    ring

theorem eval_zeros (n : ℕ) : eval b (List.replicate n 0) = 0 := by
  induction n with
  | zero => rfl
  | succ n ih => rw [List.replicate_succ, eval, ih, mul_zero, add_zero]

/-- Small coefficients give a value little above that of the leading term. -/
theorem abs_eval_le {k : ℤ} {cs : List ℤ} (hb : 1 ≤ b) (h : ∀ c ∈ cs, |c| ≤ k) :
    |eval b cs| * (b - 1) ≤ k * (b ^ cs.length - 1) := by
  induction cs with
  | nil => simp [eval]
  | cons c cs ih =>
    have hc := h c List.mem_cons_self
    have hcs := ih fun x hx => h x (List.mem_cons_of_mem c hx)
    have htri : |c + b * eval b cs| ≤ |c| + b * |eval b cs| := by
      refine (abs_add_le _ _).trans ?_
      rw [abs_mul, abs_of_nonneg (show 0 ≤ b by linarith)]
    rw [eval, List.length_cons]
    calc |c + b * eval b cs| * (b - 1)
        ≤ (|c| + b * |eval b cs|) * (b - 1) := mul_le_mul_of_nonneg_right htri (by linarith)
      _ = |c| * (b - 1) + b * (|eval b cs| * (b - 1)) := by ring
      _ ≤ k * (b - 1) + b * (k * (b ^ cs.length - 1)) :=
          add_le_add (mul_le_mul_of_nonneg_right hc (by linarith))
            (mul_le_mul_of_nonneg_left hcs (by linarith))
      _ = k * (b ^ (cs.length + 1) - 1) := by ring

/-- Small coefficients are known from a value that is a multiple of the leading power. -/
theorem eq_of_eval {n : ℕ} {cs : List ℤ} {v : ℤ} (hlen : cs.length = n + 1)
    (h : ∀ c ∈ cs, |c| < b) (hv : eval b cs = v * b ^ n) : cs = List.replicate n 0 ++ [v] := by
  induction n generalizing cs with
  | zero =>
    obtain ⟨c, rfl⟩ := List.length_eq_one_iff.mp hlen
    simpa [eval] using hv
  | succ n ih =>
    cases cs with
    | nil => simp at hlen
    | cons c cs =>
      have hc := h c List.mem_cons_self
      have hpos : 0 < b := (abs_nonneg c).trans_lt hc
      have hdvd : b ∣ c := by
        refine (dvd_add_left (dvd_mul_right b (eval b cs))).mp ?_
        rw [← eval, hv, pow_succ, ← mul_assoc]
        exact dvd_mul_left _ _
      have hzero : c = 0 := Int.eq_zero_of_abs_lt_dvd hdvd hc
      rw [eval, hzero, zero_add, pow_succ', mul_left_comm] at hv
      have hrest := ih (by simpa using hlen) (fun x hx => h x (List.mem_cons_of_mem c hx))
        (mul_left_cancel₀ hpos.ne' hv)
      rw [hzero, hrest, List.replicate_succ, List.cons_append]

end Petele.Lib.Horner
