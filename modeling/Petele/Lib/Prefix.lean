import Mathlib.Algebra.Order.Ring.Nat
import Mathlib.Data.Nat.Bitwise
import Mathlib.Tactic.Ring
import Petele.Lib.Nest

namespace Petele.Lib

/-- The ranges of `w` bits with the same bits above the lowest `k`. -/
structure IsPrefix (w lo hi : ℕ) : Prop where
  exists_eq : ∃ k q, lo = q * 2 ^ k ∧ hi = q * 2 ^ k + (2 ^ k - 1)
  hi_lt : hi < 2 ^ w

namespace IsPrefix

variable {w lo hi lo' hi' : ℕ}

theorem nested_of_le {k j q p : ℕ} (h : k ≤ j) :
    q * 2 ^ k + (2 ^ k - 1) < p * 2 ^ j ∨ p * 2 ^ j + (2 ^ j - 1) < q * 2 ^ k ∨
      p * 2 ^ j ≤ q * 2 ^ k ∧ q * 2 ^ k + (2 ^ k - 1) ≤ p * 2 ^ j + (2 ^ j - 1) := by
  obtain ⟨c, rfl⟩ := Nat.exists_eq_add_of_le h
  have hk : 0 < 2 ^ k := Nat.two_pow_pos k
  have hc : 0 < 2 ^ c := Nat.two_pow_pos c
  have hend : ∀ x n, 0 < n → x * n + (n - 1) + 1 = (x + 1) * n := fun x n hn => by
    rw [Nat.add_mul, Nat.one_mul]
    omega
  have hpow : ∀ x, x * 2 ^ (k + c) = x * 2 ^ c * 2 ^ k := fun x => by ring
  have hq := hend q (2 ^ k) hk
  have hp := hend p (2 ^ (k + c)) (Nat.two_pow_pos _)
  rw [hpow, hpow] at hp
  rw [hpow]
  by_cases hlt : q < p * 2 ^ c
  · have := Nat.mul_le_mul_right (2 ^ k) (Nat.succ_le_of_lt hlt)
    rw [Nat.succ_eq_add_one] at this
    omega
  · by_cases hge : (p + 1) * 2 ^ c ≤ q
    · have := Nat.mul_le_mul_right (2 ^ k) hge
      omega
    · have h1 := Nat.mul_le_mul_right (2 ^ k) (Nat.le_of_not_lt hlt)
      have h2 := Nat.mul_le_mul_right (2 ^ k) (Nat.succ_le_of_lt (Nat.lt_of_not_le hge))
      rw [Nat.succ_eq_add_one] at h2
      omega

/-- Prefixes are apart, or one is in the other. -/
theorem nested {β : Type} [Ranged β ℕ] {x y : β} (hx : IsPrefix w (Ranged.lo x) (Ranged.hi x))
    (hy : IsPrefix w (Ranged.lo y) (Ranged.hi y)) : Ranged.Nested x y := by
  obtain ⟨⟨k, q, hlo, hhi⟩, -⟩ := hx
  obtain ⟨⟨j, p, hlo', hhi'⟩, -⟩ := hy
  unfold Ranged.Nested Ranged.Before Ranged.Within
  rw [hlo, hhi, hlo', hhi']
  rcases Nat.le_total k j with h | h
  · have := @nested_of_le k j q p h
    tauto
  · have := @nested_of_le j k p q h
    tauto

/-- Some bits in the middle of a number do not leave those of the ends of its prefix. -/
theorem middle {a n m : ℕ} (h : IsPrefix w lo hi) (hlo : lo ≤ a) (hhi : a ≤ hi) :
    lo % 2 ^ m / 2 ^ n ≤ a % 2 ^ m / 2 ^ n ∧ a % 2 ^ m / 2 ^ n ≤ hi % 2 ^ m / 2 ^ n := by
  obtain ⟨⟨k, q, rfl, rfl⟩, -⟩ := h
  have hk : 0 < 2 ^ k := Nat.two_pow_pos k
  rcases Nat.le_total k m with hkm | hmk
  · obtain ⟨c, rfl⟩ := Nat.exists_eq_add_of_le hkm
    have hdiv : ∀ b, q * 2 ^ k ≤ b → b ≤ q * 2 ^ k + (2 ^ k - 1) → b / 2 ^ (k + c) = q / 2 ^ c := fun b h1 h2 => by
      have : b / 2 ^ k = q := by
        rw [Nat.div_eq_iff hk]
        omega
      rw [pow_add, ← Nat.div_div_eq_div_mul, this]
    have hmod : ∀ b b', b ≤ b' → b / 2 ^ (k + c) = b' / 2 ^ (k + c) → b % 2 ^ (k + c) ≤ b' % 2 ^ (k + c) :=
      fun b b' hb he => by
        have h1 := Nat.div_add_mod b (2 ^ (k + c))
        have h2 := Nat.div_add_mod b' (2 ^ (k + c))
        rw [he] at h1
        omega
    have ha := hdiv a hlo hhi
    exact ⟨Nat.div_le_div_right (hmod _ _ hlo ((hdiv _ le_rfl (by omega)).trans ha.symm)),
      Nat.div_le_div_right (hmod _ _ hhi (ha.trans (hdiv _ (by omega) le_rfl).symm))⟩
  · obtain ⟨c, rfl⟩ := Nat.exists_eq_add_of_le hmk
    have hm : 0 < 2 ^ m := Nat.two_pow_pos m
    have hc : 0 < 2 ^ c := Nat.two_pow_pos c
    have hzero : q * 2 ^ (m + c) % 2 ^ m = 0 := by
      rw [pow_add, ← Nat.mul_assoc, Nat.mul_right_comm]
      exact Nat.mul_mod_left _ _
    have hones : (q * 2 ^ (m + c) + (2 ^ (m + c) - 1)) % 2 ^ m = 2 ^ m - 1 := by
      have hsplit : 2 ^ (m + c) - 1 = (2 ^ c - 1) * 2 ^ m + (2 ^ m - 1) := by
        have : (2 ^ c - 1) * 2 ^ m + 2 ^ m = 2 ^ (m + c) := by
          rw [← Nat.succ_mul, Nat.succ_eq_add_one, Nat.sub_add_cancel hc, pow_add, Nat.mul_comm]
        omega
      rw [Nat.add_mod, hzero, hsplit, Nat.zero_add, Nat.mod_mod, Nat.mul_add_mod_self_right]
      exact Nat.mod_eq_of_lt (by omega)
    rw [hzero, hones]
    have := Nat.mod_lt a hm
    exact ⟨by simp, Nat.div_le_div_right (by omega)⟩

end IsPrefix

/-- The masks of prefixes. -/
structure Mask (w : ℕ) where
  bits : BitVec w
  zeros : ℕ
  contiguous : bits = BitVec.allOnes w <<< zeros

namespace Mask

variable {w : ℕ}

theorem testBit (m : Mask w) (i : ℕ) : m.bits.toNat.testBit i = (decide (i < w) && decide (m.zeros ≤ i)) := by
  rw [BitVec.testBit_toNat, m.contiguous, BitVec.getLsbD_shiftLeft, BitVec.getLsbD_allOnes]
  by_cases hi : i < w <;> by_cases hz : m.zeros ≤ i <;> simp [hi, hz]
  omega

/-- An address with the bits of a mask, and with ones for the others. -/
theorem isPrefix (a : BitVec w) (m : Mask w) :
    IsPrefix w (a &&& m.bits).toNat (a &&& m.bits ||| ~~~ m.bits).toNat := by
  have hbits : ∀ i, (a &&& m.bits).toNat.testBit i = (decide (min m.zeros w ≤ i) && a.toNat.testBit i) := fun i => by
    rw [BitVec.toNat_and, Nat.testBit_and, m.testBit]
    by_cases hi : i < w
    · simp [hi, Nat.not_le.mpr hi, Bool.and_comm]
    · rw [Nat.testBit_lt_two_pow (lt_of_lt_of_le a.isLt (Nat.pow_le_pow_right (by decide) (Nat.le_of_not_lt hi)))]
      simp
  have hlo : (a &&& m.bits).toNat = a.toNat / 2 ^ min m.zeros w * 2 ^ min m.zeros w := by
    apply Nat.eq_of_testBit_eq
    intro i
    rw [hbits, Nat.testBit_mul_two_pow, Nat.testBit_div_two_pow]
    by_cases hi : min m.zeros w ≤ i
    · rw [Nat.sub_add_cancel hi]
    · simp [hi]
  have hnot : (~~~ m.bits).toNat = 2 ^ min m.zeros w - 1 := by
    apply Nat.eq_of_testBit_eq
    intro i
    rw [BitVec.testBit_toNat, BitVec.getLsbD_not, ← BitVec.testBit_toNat, m.testBit, Nat.testBit_two_pow_sub_one]
    by_cases hi : i < w <;> by_cases hz : m.zeros ≤ i <;> simp [hi, hz]
    omega
  refine ⟨⟨min m.zeros w, a.toNat / 2 ^ min m.zeros w, hlo, ?_⟩, (a &&& m.bits ||| ~~~ m.bits).isLt⟩
  rw [BitVec.toNat_or, hlo, hnot, Nat.mul_comm, Nat.two_pow_add_eq_or_of_lt]
  exact Nat.sub_lt (Nat.two_pow_pos _) (by decide)

theorem or_not (a m : BitVec w) : a ||| ~~~ m = a &&& m ||| ~~~ m := by
  ext i hi
  simp only [BitVec.getElem_or, BitVec.getElem_and, BitVec.getElem_not]
  cases a[i] <;> cases m[i] <;> rfl

end Mask

end Petele.Lib
