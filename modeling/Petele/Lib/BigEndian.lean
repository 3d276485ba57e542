import Petele.Lib.LittleEndian

namespace Petele.Lib.BigEndian

/-- The number whose bytes, most significant first, are given. -/
def beVal : List UInt8 → ℕ
  | [] => 0
  | b :: bs => b.toNat * 256 ^ bs.length + beVal bs

theorem beVal_nil : beVal [] = 0 := rfl

theorem beVal_cons (b : UInt8) (bs : List UInt8) : beVal (b :: bs) = b.toNat * 256 ^ bs.length + beVal bs := rfl

theorem beVal_lt (bs : List UInt8) : beVal bs < 256 ^ bs.length := by
  induction bs with
  | nil => simp [beVal_nil]
  | cons b bs ih =>
    have hb := b.toNat_lt
    rw [beVal_cons, List.length_cons, Nat.pow_succ]
    have hle : b.toNat * 256 ^ bs.length ≤ 255 * 256 ^ bs.length :=
      Nat.mul_le_mul_right _ (by omega)
    omega

theorem beVal_append (bs cs : List UInt8) :
    beVal (bs ++ cs) = beVal bs * 256 ^ cs.length + beVal cs := by
  induction bs with
  | nil => simp [beVal_nil]
  | cons b bs ih =>
    rw [List.cons_append, beVal_cons, beVal_cons, ih, List.length_append, Nat.pow_add]
    ring

theorem beVal_reverse (bs : List UInt8) : beVal bs.reverse = LittleEndian.leVal bs := by
  induction bs with
  | nil => rfl
  | cons b bs ih =>
    rw [List.reverse_cons, beVal_append, ih, LittleEndian.leVal]
    simp only [beVal_cons, beVal_nil, List.length_singleton, List.length_nil, Nat.pow_zero, Nat.pow_one]
    ring

theorem beVal_zeros (n : ℕ) : beVal (List.replicate n 0) = 0 := by
  induction n with
  | zero => rfl
  | succ n ih =>
    rw [List.replicate_succ, beVal_cons, ih]
    simp

theorem beVal_take (bs : List UInt8) (i : ℕ) :
    beVal (bs.take i) = beVal bs / 256 ^ (bs.length - i) := by
  have happend := beVal_append (bs.take i) (bs.drop i)
  have hlt := beVal_lt (bs.drop i)
  rw [List.take_append_drop] at happend
  rw [happend, List.length_drop] at *
  rw [Nat.mul_comm, Nat.mul_add_div (Nat.pow_pos (by omega)), Nat.div_eq_of_lt hlt, Nat.add_zero]

theorem beVal_injective {as bs : List UInt8} (hlen : as.length = bs.length)
    (h : beVal as = beVal bs) : as = bs := by
  induction as generalizing bs with
  | nil => exact (List.eq_nil_of_length_eq_zero hlen.symm).symm
  | cons a as ih =>
    cases bs with
    | nil => simp at hlen
    | cons b bs =>
      have hlen' : as.length = bs.length := by simpa using hlen
      have ha := beVal_lt as
      have hb := beVal_lt bs
      rw [beVal_cons, beVal_cons, hlen'] at h
      rw [hlen'] at ha
      have hdiv : ∀ x y : ℕ, y < 256 ^ bs.length →
          (x * 256 ^ bs.length + y) / 256 ^ bs.length = x := by
        intro x y hy
        rw [Nat.mul_comm, Nat.mul_add_div (Nat.pow_pos (by omega)), Nat.div_eq_of_lt hy,
          Nat.add_zero]
      have hhead : a.toNat = b.toNat := by
        rw [← hdiv a.toNat _ ha, h, hdiv _ _ hb]
      rw [hhead] at h
      rw [UInt8.toNat_inj.mp hhead, ih hlen' (Nat.add_left_cancel h)]

/-- The order of two byte strings: the first bytes that differ decide. -/
def compareBytes : List UInt8 → List UInt8 → ℤ
  | a :: as, b :: bs => if a = b then compareBytes as bs else if b < a then 1 else -1
  | _, _ => 0

theorem compareBytes_spec {as bs : List UInt8} (hlen : as.length = bs.length) :
    (compareBytes as bs < 0 ↔ beVal as < beVal bs) ∧
      (compareBytes as bs = 0 ↔ beVal as = beVal bs) := by
  induction as generalizing bs with
  | nil =>
    have hbs := List.eq_nil_of_length_eq_zero hlen.symm
    subst hbs
    simp [compareBytes]
  | cons a as ih =>
    cases bs with
    | nil => simp at hlen
    | cons b bs =>
      have hlen' : as.length = bs.length := by simpa using hlen
      have ha := beVal_lt as
      have hb := beVal_lt bs
      rw [hlen'] at ha
      rw [compareBytes, beVal_cons, beVal_cons, hlen']
      split
      · rename_i heq
        obtain ⟨hneg, hzero⟩ := ih hlen'
        rw [hneg, hzero, heq]
        omega
      · rename_i hne
        have hne' : a.toNat ≠ b.toNat := fun h => hne (UInt8.toNat_inj.mp h)
        -- the leading byte outweighs all that follows it
        split
        · rename_i hlt
          have hlt' : b.toNat + 1 ≤ a.toNat := UInt8.lt_iff_toNat_lt.mp hlt
          have hmul := Nat.mul_le_mul_right (256 ^ bs.length) hlt'
          rw [Nat.add_mul] at hmul
          omega
        · rename_i hnot
          have hlt' : a.toNat + 1 ≤ b.toNat := by
            have hle := mt UInt8.lt_iff_toNat_lt.mpr hnot
            omega
          have hmul := Nat.mul_le_mul_right (256 ^ bs.length) hlt'
          rw [Nat.add_mul] at hmul
          omega

end Petele.Lib.BigEndian
