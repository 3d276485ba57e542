import Mathlib.Data.Nat.Bitwise
import Mathlib.Data.List.Basic

namespace Petele.Lib

/-- The low `n` bits of a number, from the highest down. -/
def bits : ℕ → ℕ → List Bool
  | 0, _ => []
  | n + 1, v => v.testBit n :: bits n v

/-- The bits of bytes. -/
def bytebits (l : List UInt8) : List Bool := l.flatMap fun b => bits 8 b.toNat

variable {n m k u v x : ℕ} {rest t : List Bool}

@[simp] theorem length_bits (n v : ℕ) : (bits n v).length = n := by
  induction n with
  | zero => rfl
  | succ n ih => rw [bits, List.length_cons, ih]

@[simp] theorem bytebits_append (l₁ l₂ : List UInt8) : bytebits (l₁ ++ l₂) = bytebits l₁ ++ bytebits l₂ :=
  List.flatMap_append

theorem bytebits_single (b : UInt8) : bytebits [b] = bits 8 b.toNat := List.append_nil _

theorem bytebits_cons (b : UInt8) (l : List UInt8) : bytebits (b :: l) = bits 8 b.toNat ++ bytebits l := rfl

theorem length_bytebits (l : List UInt8) : (bytebits l).length = 8 * l.length := by
  induction l with
  | nil => rfl
  | cons b l ih =>
    rw [bytebits_cons, List.length_append, length_bits, ih, List.length_cons]
    omega

theorem bits_congr (h : ∀ i, i < n → u.testBit i = v.testBit i) : bits n u = bits n v := by
  induction n with
  | zero => rfl
  | succ n ih => rw [bits, bits, h n (Nat.lt_succ_self n), ih fun i hi => h i (by omega)]

theorem bits_mod (h : n ≤ k) (v : ℕ) : bits n (v % 2 ^ k) = bits n v := by
  apply bits_congr
  intro i hi
  rw [Nat.testBit_mod_two_pow, decide_eq_true (by omega), Bool.true_and]

theorem bits_add (n m v : ℕ) : bits (n + m) v = bits n (v / 2 ^ m) ++ bits m v := by
  induction n with
  | zero => rw [Nat.zero_add, bits, List.nil_append]
  | succ n ih => rw [Nat.add_right_comm, bits, ih, bits, List.cons_append, Nat.testBit_div_two_pow, Nat.add_comm n m]

theorem bits_zero (n : ℕ) : bits n 0 = List.replicate n false := by
  induction n with
  | zero => rfl
  | succ n ih => rw [bits, ih, Nat.zero_testBit, List.replicate_succ]

/-- Bits are put behind others. -/
theorem bits_push (n v : ℕ) (hx : x < 2 ^ m) : bits (n + m) (v <<< m ||| x) = bits n v ++ bits m x := by
  have hor : v <<< m ||| x = v * 2 ^ m + x := by
    rw [← Nat.shiftLeft_add_eq_or_of_lt hx, Nat.shiftLeft_eq]
  have hdiv : (v * 2 ^ m + x) / 2 ^ m = v := by
    rw [Nat.add_comm, Nat.add_mul_div_right _ _ (Nat.two_pow_pos m), Nat.div_eq_of_lt hx, Nat.zero_add]
  have hmod : bits m (v * 2 ^ m + x) = bits m x := by
    rw [← bits_mod le_rfl, Nat.add_comm, Nat.add_mul_mod_self_right, bits_mod le_rfl]
  rw [hor, bits_add, hdiv, hmod]

theorem bits_inj (h : bits n u = bits n v) : u % 2 ^ n = v % 2 ^ n := by
  apply Nat.eq_of_testBit_eq
  intro i
  rw [Nat.testBit_mod_two_pow, Nat.testBit_mod_two_pow]
  by_cases hi : i < n
  · congr 1
    induction n with
    | zero => omega
    | succ n ih =>
      rw [bits, bits] at h
      obtain ⟨htop, hrest⟩ := List.cons.inj h
      rcases Nat.lt_succ_iff_lt_or_eq.mp hi with hlt | rfl
      · exact ih hrest hlt
      · exact htop
  · rw [decide_eq_false hi]
    rfl

/-- The first of the bits that follow are read. -/
theorem bits_read (h : bits n u ++ rest = bits k v ++ t) (hk : k ≤ n) (hv : v < 2 ^ k) :
    u / 2 ^ (n - k) % 2 ^ k = v ∧ bits (n - k) u ++ rest = t := by
  have hsplit : bits n u = bits k (u / 2 ^ (n - k)) ++ bits (n - k) u := by
    rw [← bits_add, Nat.add_sub_cancel' hk]
  rw [hsplit, List.append_assoc] at h
  obtain ⟨htop, hrest⟩ := List.append_inj h (by rw [length_bits, length_bits])
  refine ⟨?_, hrest⟩
  rw [bits_inj htop, Nat.mod_eq_of_lt hv]

end Petele.Lib
