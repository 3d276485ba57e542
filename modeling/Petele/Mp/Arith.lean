import Petele.Mp.Vec

namespace Petele.Mp

open Lib Limbs

section Digits

theorem toNat_truth (p : Prop) [Decidable p] : (truth p).toNat = if p then 1 else 0 := by
  unfold truth
  split
  all_goals rfl

theorem truth_le (p : Prop) [Decidable p] : (truth p).toNat ≤ 1 := by
  rw [toNat_truth]
  split
  all_goals omega

/-- A sum that has wrapped round is below what was added. -/
theorem add_carry (x y : UInt32) :
    (x + y).toNat + 2 ^ 32 * (truth (x + y < y)).toNat = x.toNat + y.toNat := by
  have hx := x.toNat_lt
  have hy := y.toNat_lt
  simp only [toNat_truth, UInt32.lt_iff_toNat_lt, UInt32.toNat_add]
  split
  all_goals omega

/-- A difference that has wrapped round is above what was taken from. -/
theorem sub_borrow (x y : UInt32) :
    (x - y).toNat + y.toNat = x.toNat + 2 ^ 32 * (truth (x < x - y)).toNat := by
  have hx := x.toNat_lt
  have hy := y.toNat_lt
  simp only [toNat_truth, UInt32.lt_iff_toNat_lt, UInt32.toNat_sub]
  split
  all_goals omega

theorem sub_borrow_lt (x y : UInt32) :
    (x - y).toNat + y.toNat = x.toNat + 2 ^ 32 * (truth (x < y)).toNat := by
  have hx := x.toNat_lt
  have hy := y.toNat_lt
  simp only [toNat_truth, UInt32.lt_iff_toNat_lt, UInt32.toNat_sub]
  split
  all_goals omega

theorem add_truth {c : UInt32} (hc : c.toNat ≤ 2) (p : Prop) [Decidable p] :
    (c + truth p).toNat = c.toNat + (truth p).toNat := by
  have hp := truth_le p
  rw [UInt32.toNat_add]
  omega

theorem toNat_LO (x : UInt32) : (LO x).toNat = x.toNat % 2 ^ 16 := by
  rw [LO, UInt32.toNat_and, show (0xffff : UInt32).toNat = 2 ^ 16 - 1 from rfl,
    Nat.and_two_pow_sub_one_eq_mod]

theorem toNat_HI (x : UInt32) : (HI x).toNat = x.toNat / 2 ^ 16 := by
  rw [HI, UInt32.toNat_shiftRight, Nat.shiftRight_eq_div_pow]
  rfl

theorem toNat_up (x : UInt32) : (x <<< 16).toNat = x.toNat % 2 ^ 16 * 2 ^ 16 := by
  rw [UInt32.toNat_shiftLeft, Nat.shiftLeft_eq, show (16 : UInt32).toNat % 32 = 16 from rfl]
  omega

theorem toNat_halves_mul {x y : UInt32} (hx : x.toNat < 2 ^ 16) (hy : y.toNat < 2 ^ 16) :
    (x * y).toNat = x.toNat * y.toNat ∧ x.toNat * y.toNat ≤ (2 ^ 16 - 1) * (2 ^ 16 - 1) := by
  have hle : x.toNat * y.toNat ≤ (2 ^ 16 - 1) * (2 ^ 16 - 1) :=
    Nat.mul_le_mul (by omega) (by omega)
  refine ⟨?_, hle⟩
  rw [UInt32.toNat_mul]
  omega

theorem mpdigmul_val (a b : UInt32) :
    (mpdigmul a b).1.toNat + 2 ^ 32 * (mpdigmul a b).2.toNat = a.toNat * b.toNat := by
  have ha := a.toNat_lt
  have hb := b.toNat_lt
  have hloa := toNat_LO a
  have hlob := toNat_LO b
  have hhia := toNat_HI a
  have hhib := toNat_HI b
  obtain ⟨h1, hle1⟩ := toNat_halves_mul (x := HI a) (y := LO b) (by omega) (by omega)
  obtain ⟨h2, hle2⟩ := toNat_halves_mul (x := HI b) (y := LO a) (by omega) (by omega)
  obtain ⟨h3, hle3⟩ := toNat_halves_mul (x := LO b) (y := LO a) (by omega) (by omega)
  obtain ⟨h4, hle4⟩ := toNat_halves_mul (x := HI a) (y := HI b) (by omega) (by omega)
  have hprod : a.toNat * b.toNat = 2 ^ 32 * ((HI a).toNat * (HI b).toNat) +
      2 ^ 16 * ((HI a).toNat * (LO b).toNat + (HI b).toNat * (LO a).toNat) +
      (LO b).toNat * (LO a).toNat := by
    have hsa : a.toNat = (LO a).toNat + 2 ^ 16 * (HI a).toNat := by omega
    have hsb : b.toNat = (LO b).toNat + 2 ^ 16 * (HI b).toNat := by omega
    rw [hsa, hsb]
    ring
  have hlt : a.toNat * b.toNat < 2 ^ 32 * 2 ^ 32 := Nat.mul_lt_mul'' ha hb
  -- the two carries into the high digit
  have hc1 := add_carry (LO b * LO a) ((HI a * LO b) <<< 16)
  have hc2 := add_carry (LO b * LO a + (HI a * LO b) <<< 16) ((HI b * LO a) <<< 16)
  have ht1 := truth_le (LO b * LO a + (HI a * LO b) <<< 16 < (HI a * LO b) <<< 16)
  have hsum := add_truth (Nat.le_succ_of_le ht1)
    (LO b * LO a + (HI a * LO b) <<< 16 + (HI b * LO a) <<< 16 < (HI b * LO a) <<< 16)
  have ht2 := truth_le
    (LO b * LO a + (HI a * LO b) <<< 16 + (HI b * LO a) <<< 16 < (HI b * LO a) <<< 16)
  rw [toNat_up, h1, h3] at hc1
  rw [toNat_up, h2] at hc2
  have hh1 := toNat_HI (HI a * LO b)
  have hh2 := toNat_HI (HI b * LO a)
  rw [h1] at hh1
  rw [h2] at hh2
  unfold mpdigmul
  dsimp only
  generalize truth (LO b * LO a + (HI a * LO b) <<< 16 < (HI a * LO b) <<< 16) +
    truth (LO b * LO a + (HI a * LO b) <<< 16 + (HI b * LO a) <<< 16 <
      (HI b * LO a) <<< 16) = carry at *
  have htop := UInt32.toNat_add (HI a * HI b) (carry + HI (HI a * LO b) + HI (HI b * LO a))
  have htop' := UInt32.toNat_add (carry + HI (HI a * LO b)) (HI (HI b * LO a))
  have htop'' := UInt32.toNat_add carry (HI (HI a * LO b))
  rw [h4] at htop
  generalize (HI a).toNat * (LO b).toNat = p1 at *
  generalize (HI b).toNat * (LO a).toNat = p2 at *
  generalize (LO b).toNat * (LO a).toNat = p3 at *
  generalize (HI a).toNat * (HI b).toNat = p4 at *
  omega

end Digits

section Sums

theorem addloop_val (a b : Vec) (c : UInt32) (h : b.length ≤ a.length) :
    val (addloop a b c) = val a + val b + c.toNat := by
  induction a generalizing b c with
  | nil =>
    have hb : b = [] := List.eq_nil_of_length_eq_zero (Nat.le_zero.mp h)
    subst hb
    simp [addloop]
  | cons x a ih =>
    cases b with
    | nil =>
      have hc := add_carry x c
      rw [addloop]
      rw [val_cons, val_cons, ih [] _ (Nat.zero_le _), val_nil]
      omega
    | cons y b =>
      have hc := add_carry x c
      have hc' := add_carry (x + c) y
      have hsum := add_truth (Nat.le_succ_of_le (truth_le (x + c < c))) (x + c + y < y)
      rw [addloop]
      rw [val_cons, val_cons, val_cons, ih b _ (by simpa using h), hsum]
      omega

theorem addloop_length (a b : Vec) (c : UInt32) : (addloop a b c).length = a.length + 1 := by
  induction a generalizing b c with
  | nil => rfl
  | cons x a ih =>
    cases b with
    | nil => simp only [addloop, List.length_cons, ih]
    | cons y b => simp only [addloop, List.length_cons, ih]

theorem mpvecadd_spec {a b : Vec} (h : b.length ≤ a.length) :
    ∃ s, mpvecadd a b = some s ∧ s.length = a.length + 1 ∧ val s = val a + val b := by
  refine ⟨addloop a b 0, if_pos h, addloop_length a b 0, ?_⟩
  rw [addloop_val a b 0 h]
  rfl

theorem subloop_val (a b : Vec) (c : UInt32) (h : b.length ≤ a.length) :
    ∃ k, val (subloop a b c) + (val b + c.toNat) = val a + (2 ^ 32) ^ a.length * k := by
  induction a generalizing b c with
  | nil =>
    have hb : b = [] := List.eq_nil_of_length_eq_zero (Nat.le_zero.mp h)
    subst hb
    exact ⟨c.toNat, by simp [subloop]⟩
  | cons x a ih =>
    cases b with
    | nil =>
      have hc := sub_borrow x c
      obtain ⟨k, hk⟩ := ih [] (truth (x < x - c)) (Nat.zero_le _)
      refine ⟨k, ?_⟩
      rw [subloop]
      rw [val_cons, val_cons, List.length_cons, radix_succ, Nat.mul_assoc]
      rw [val_nil] at hk ⊢
      omega
    | cons y b =>
      have hc := add_carry y c
      have hc' := sub_borrow_lt x (y + c)
      have hsum := add_truth (Nat.le_succ_of_le (truth_le (y + c < c))) (x < y + c)
      obtain ⟨k, hk⟩ := ih b (truth (y + c < c) + truth (x < y + c)) (by simpa using h)
      refine ⟨k, ?_⟩
      rw [subloop]
      rw [hsum] at hk
      rw [val_cons, val_cons, val_cons, List.length_cons, radix_succ, Nat.mul_assoc]
      omega

theorem subloop_length (a b : Vec) (c : UInt32) : (subloop a b c).length = a.length := by
  induction a generalizing b c with
  | nil => rfl
  | cons x a ih =>
    cases b with
    | nil => simp only [subloop, List.length_cons, ih]
    | cons y b => simp only [subloop, List.length_cons, ih]

/-- The difference modulo the digits of `a`. -/
theorem mpvecsub_wraps {a b : Vec} (h : b.length ≤ a.length) :
    ∃ s k, mpvecsub a b = some s ∧ s.length = a.length ∧
      val s + val b = val a + (2 ^ 32) ^ a.length * k := by
  obtain ⟨k, hk⟩ := subloop_val a b 0 h
  exact ⟨subloop a b 0, k, if_pos h, subloop_length a b 0, hk⟩

theorem mpvecsub_spec {a b : Vec} (h : b.length ≤ a.length) (hle : val b ≤ val a) :
    ∃ s, mpvecsub a b = some s ∧ s.length = a.length ∧ val s + val b = val a := by
  obtain ⟨s, k, hsub, hlen, hval⟩ := mpvecsub_wraps h
  refine ⟨s, hsub, hlen, ?_⟩
  have hlt := val_lt s
  rw [hlen] at hlt
  have hk : k = 0 := by
    by_contra hne
    have hmul := Nat.mul_le_mul_left ((2 ^ 32) ^ a.length) (Nat.pos_of_ne_zero hne)
    omega
  rw [hk] at hval
  omega

end Sums

section Order

theorem cmploop_spec (a b : Vec) (h : a.length = b.length) :
    (cmploop a b < 0 ↔ val a.reverse < val b.reverse) ∧
      (cmploop a b = 0 ↔ val a.reverse = val b.reverse) := by
  induction a generalizing b with
  | nil =>
    have hb : b = [] := List.eq_nil_of_length_eq_zero h.symm
    subst hb
    simp [cmploop]
  | cons x a ih =>
    cases b with
    | nil => simp at h
    | cons y b =>
      have hlen : a.length = b.length := by simpa using h
      have ha := val_lt a.reverse
      have hb := val_lt b.reverse
      have hx := x.toNat_lt
      have hy := y.toNat_lt
      have hsub := UInt32.toNat_sub x y
      rw [List.length_reverse] at ha hb
      simp only [List.reverse_cons, val_append, val_singleton, List.length_reverse]
      rw [cmploop, ← hlen]
      rw [← hlen] at hb
      by_cases heq : x = y
      · subst heq
        rw [if_pos (by simp), (ih b hlen).1, (ih b hlen).2]
        omega
      · have hne : x.toNat ≠ y.toNat := fun h => heq (UInt32.toNat_inj.mp h)
        have hdiff : x - y ≠ 0 := by
          intro hzero
          rw [hzero] at hsub
          have : (0 : UInt32).toNat = 0 := rfl
          omega
        rw [if_neg hdiff]
        -- the digit on top outweighs all below it
        rcases Nat.lt_or_gt_of_ne hne with hlt | hlt
        · have hmul := Nat.mul_le_mul_left ((2 ^ 32) ^ a.length) hlt
          rw [Nat.mul_succ] at hmul
          rw [if_pos (UInt32.lt_iff_toNat_lt.mpr (by omega))]
          omega
        · have hmul := Nat.mul_le_mul_left ((2 ^ 32) ^ a.length) hlt
          rw [Nat.mul_succ] at hmul
          rw [if_neg (fun hlt => by have := UInt32.lt_iff_toNat_lt.mp hlt; omega)]
          omega

theorem val_eq_zero_of_not_any {ds : Vec} (h : ¬ ds.any (· != 0) = true) : val ds = 0 := by
  induction ds with
  | nil => rfl
  | cons d ds ih =>
    simp only [List.any_cons, Bool.or_eq_true, bne_iff_ne, not_or, not_not] at h
    rw [val_cons, ih h.2, h.1]
    rfl

theorem val_pos_of_any {ds : Vec} (h : ds.any (· != 0) = true) : 0 < val ds := by
  by_contra hnot
  have hzero : val ds = 0 := by omega
  rw [eq_zeros_of_val hzero] at h
  simp at h

theorem mpveccmp_spec (a b : Vec) :
    (mpveccmp a b < 0 ↔ val a < val b) ∧ (mpveccmp a b = 0 ↔ val a = val b) := by
  have hva := val_split a b.length
  have hvb := val_split b a.length
  have hta := val_lt (a.take b.length)
  have htb := val_lt (b.take a.length)
  rw [List.length_take] at hta htb
  unfold mpveccmp
  split
  · rename_i hany
    have hpos := val_pos_of_any hany
    have hlong : ¬ a.length ≤ b.length := fun hle => by
      rw [List.drop_of_length_le hle] at hpos
      exact Nat.lt_irrefl 0 hpos
    have hb := val_lt b
    have hmul := Nat.mul_le_mul_left ((2 ^ 32) ^ b.length) hpos
    omega
  · rename_i hnone
    have hzero := val_eq_zero_of_not_any hnone
    split
    · rename_i hany
      have hpos := val_pos_of_any hany
      have hlong : ¬ b.length ≤ a.length := fun hle => by
        rw [List.drop_of_length_le hle] at hpos
        exact Nat.lt_irrefl 0 hpos
      have ha := val_lt a
      have hmul := Nat.mul_le_mul_left ((2 ^ 32) ^ a.length) hpos
      omega
    · rename_i hnone'
      have hzero' := val_eq_zero_of_not_any hnone'
      have hlen : (a.take b.length).reverse.length = (b.take a.length).reverse.length := by
        simp only [List.length_reverse, List.length_take]
        omega
      have hspec := cmploop_spec _ _ hlen
      rw [List.reverse_reverse, List.reverse_reverse] at hspec
      rw [hzero, Nat.mul_zero, Nat.add_zero] at hva
      rw [hzero', Nat.mul_zero, Nat.add_zero] at hvb
      rwa [← hva, ← hvb] at hspec

end Order

section Products

/-- All but the last carry of the product is kept. -/
theorem muladdloop_val (m : UInt32) (b p : Vec) (part carry : UInt32) (h : b.length = p.length)
    (hcarry : carry.toNat ≤ 3) :
    ∃ k, val (muladdloop m b p part carry) + (2 ^ 32) ^ (b.length + 1) * k =
      val p + m.toNat * val b + part.toNat + carry.toNat := by
  induction b generalizing p part carry with
  | nil =>
    have hp : p = [] := List.eq_nil_of_length_eq_zero h.symm
    have hsum := add_carry part carry
    subst hp
    refine ⟨(truth (part + carry < carry)).toNat, ?_⟩
    rw [muladdloop, val_singleton, val_nil, List.length_nil, Nat.zero_add, Nat.pow_one]
    · omega
    · intro b bs y p hb
      cases hb
  | cons b bs ih =>
    cases p with
    | nil => simp at h
    | cons y p =>
      have hmul := mpdigmul_val b m
      have hc1 := add_carry part carry
      have hc2 := add_carry (part + carry) (mpdigmul b m).1
      have hc3 := add_carry (part + carry + (mpdigmul b m).1) y
      have ht1 := truth_le (part + carry < carry)
      have ht2 := truth_le (part + carry + (mpdigmul b m).1 < (mpdigmul b m).1)
      have ht3 := truth_le (part + carry + (mpdigmul b m).1 + y < y)
      have hs1 := add_truth (Nat.le_succ_of_le ht1)
        (part + carry + (mpdigmul b m).1 < (mpdigmul b m).1)
      have hs2 := add_truth (c := truth (part + carry < carry) +
        truth (part + carry + (mpdigmul b m).1 < (mpdigmul b m).1)) (by omega)
        (part + carry + (mpdigmul b m).1 + y < y)
      obtain ⟨k, hk⟩ := ih p (mpdigmul b m).2 (truth (part + carry < carry) +
        truth (part + carry + (mpdigmul b m).1 < (mpdigmul b m).1) +
        truth (part + carry + (mpdigmul b m).1 + y < y)) (by simpa using h) (by omega)
      refine ⟨k, ?_⟩
      have hdist : m.toNat * (b.toNat + 2 ^ 32 * val bs) =
          b.toNat * m.toNat + 2 ^ 32 * (m.toNat * val bs) := by ring
      rw [muladdloop, val_cons, val_cons, val_cons, List.length_cons, radix_succ, Nat.mul_assoc,
        hdist]
      rw [hs2, hs1] at hk
      omega

theorem muladdloop_length (m : UInt32) (b p : Vec) (part carry : UInt32)
    (h : b.length = p.length) : (muladdloop m b p part carry).length = b.length + 1 := by
  induction b generalizing p part carry with
  | nil =>
    have hp : p = [] := List.eq_nil_of_length_eq_zero h.symm
    subst hp
    rfl
  | cons b bs ih =>
    cases p with
    | nil => simp at h
    | cons y p =>
      rw [muladdloop, List.length_cons, List.length_cons, ih _ _ _ (by simpa using h)]

/-- A digit times a number, and a number more, fit in one digit more. -/
theorem mul_add_lt (m : UInt32) (b p : Vec) (h : b.length = p.length) :
    val p + m.toNat * val b < (2 ^ 32) ^ (b.length + 1) := by
  have hm := m.toNat_lt
  have hb := val_lt b
  have hp := val_lt p
  have hle : m.toNat * val b ≤ (2 ^ 32 - 1) * ((2 ^ 32) ^ b.length - 1) :=
    Nat.mul_le_mul (by omega) (by omega)
  have hexp : (2 ^ 32 - 1) * ((2 ^ 32) ^ b.length - 1) + (2 ^ 32 - 1) + (2 ^ 32) ^ b.length =
      2 ^ 32 * (2 ^ 32) ^ b.length := by
    have hpos : 1 ≤ (2 ^ 32) ^ b.length := Nat.pow_pos (by decide)
    generalize (2 ^ 32) ^ b.length = n at *
    omega
  rw [radix_succ]
  rw [← h] at hp
  omega

theorem muladdloop_eq (m : UInt32) (b p : Vec) (h : b.length = p.length) :
    val (muladdloop m b p 0 0) = val p + m.toNat * val b := by
  obtain ⟨k, hk⟩ := muladdloop_val m b p 0 0 h (by decide)
  have hlt := mul_add_lt m b p h
  have hzero : (0 : UInt32).toNat = 0 := rfl
  have hk0 : k = 0 := by
    by_contra hne
    have hmul := Nat.mul_le_mul_left ((2 ^ 32) ^ (b.length + 1)) (Nat.pos_of_ne_zero hne)
    omega
  rw [hk0] at hk
  omega

theorem mpvecdigmuladd_spec {b y : Vec} (front back : Vec) (old m : UInt32)
    (h : y.length = b.length) :
    ∃ ds, mpvecdigmuladd b m (front ++ (y ++ (old :: back))) front.length =
        some (front ++ (ds ++ back)) ∧
      ds.length = b.length + 1 ∧ val ds = val y + m.toNat * val b := by
  have hlen := muladdloop_length m b y 0 0 h.symm
  refine ⟨muladdloop m b y 0 0, ?_, hlen, muladdloop_eq m b y h.symm⟩
  rw [mpvecdigmuladd, slice_eq rfl rfl h.symm]
  exact store_eq (o := y ++ [old]) (by simp) rfl (by simp [hlen, h])

/-- What the loop of `mpvecdigmulsub` leaves to be taken from the digit on top. -/
theorem mulsubloop_val (m : UInt32) (b p : Vec) (x part borrow : UInt32) (h : b.length = p.length)
    (hborrow : borrow.toNat ≤ 3) :
    ∃ (low : Vec) (part' borrow' : UInt32),
      mulsubloop m b (p ++ [x]) part borrow = (low ++ [x - borrow' - part'],
        if x < x - borrow' - part' then -1 else 1) ∧
      low.length = b.length ∧ borrow'.toNat ≤ 3 ∧
      val low + m.toNat * val b + part.toNat + borrow.toNat =
        val p + (2 ^ 32) ^ b.length * (part'.toNat + borrow'.toNat) := by
  induction b generalizing p part borrow with
  | nil =>
    have hp : p = [] := List.eq_nil_of_length_eq_zero h.symm
    subst hp
    exact ⟨[], part, borrow, rfl, rfl, hborrow, by simp⟩
  | cons b bs ih =>
    cases p with
    | nil => simp at h
    | cons y p =>
      have hmul := mpdigmul_val b m
      have hc1 := sub_borrow y borrow
      have hc2 := add_carry part (mpdigmul b m).1
      have hc3 := sub_borrow (y - borrow) (part + (mpdigmul b m).1)
      have ht1 := truth_le (y < y - borrow)
      have ht2 := truth_le (part + (mpdigmul b m).1 < (mpdigmul b m).1)
      have ht3 := truth_le (y - borrow < y - borrow - (part + (mpdigmul b m).1))
      have hs1 := add_truth (Nat.le_succ_of_le ht1) (part + (mpdigmul b m).1 < (mpdigmul b m).1)
      have hs2 := add_truth (c := truth (y < y - borrow) +
        truth (part + (mpdigmul b m).1 < (mpdigmul b m).1)) (by omega)
        (y - borrow < y - borrow - (part + (mpdigmul b m).1))
      obtain ⟨low, part', borrow', hloop, hlen, hle, hval⟩ := ih p (mpdigmul b m).2
        (truth (y < y - borrow) + truth (part + (mpdigmul b m).1 < (mpdigmul b m).1) +
          truth (y - borrow < y - borrow - (part + (mpdigmul b m).1))) (by simpa using h) (by omega)
      refine ⟨(y - borrow - (part + (mpdigmul b m).1)) :: low, part', borrow', ?_, by simp [hlen], hle,
        ?_⟩
      · rw [List.cons_append, mulsubloop, hloop]
        rfl
      · have hdist : m.toNat * (b.toNat + 2 ^ 32 * val bs) =
            b.toNat * m.toNat + 2 ^ 32 * (m.toNat * val bs) := by ring
        rw [val_cons, val_cons, val_cons, List.length_cons, radix_succ, Nat.mul_assoc, hdist]
        rw [hs2, hs1] at hval
        omega

/-- `p - b*m`, or what it is modulo the digits of `p` if it is negative, as the sign says. -/
theorem mpvecdigmulsub_spec {b p : Vec} (m : UInt32) (h : p.length = b.length + 1) :
    ∃ ds sign, mpvecdigmulsub b m p = some (ds, sign) ∧ ds.length = b.length + 1 ∧
      ((sign = 1 ∧ val ds + m.toNat * val b = val p) ∨
        (sign = -1 ∧ val ds + m.toNat * val b = val p + (2 ^ 32) ^ (b.length + 1))) := by
  obtain ⟨q, x, hp⟩ := List.eq_nil_or_concat p |>.resolve_left (by
    intro hnil
    simp [hnil] at h)
  rw [List.concat_eq_append] at hp
  have hq : b.length = q.length := by
    rw [hp] at h
    simpa using h.symm
  obtain ⟨low, part, borrow, hloop, hlen, hle, hval⟩ := mulsubloop_val m b q x 0 0 hq (by decide)
  have hzero : (0 : UInt32).toNat = 0 := rfl
  have hlow := val_lt low
  have hfit := mul_add_lt m b low hlen.symm
  rw [hlen] at hlow
  -- so little is left that one borrow shows in the comparison
  have htop : part.toNat + borrow.toNat < 2 ^ 32 := by
    refine Nat.lt_of_mul_lt_mul_left (a := (2 ^ 32) ^ b.length) ?_
    rw [radix_succ, Nat.mul_comm (2 ^ 32)] at hfit
    omega
  have hx := x.toNat_lt
  have hd1 := UInt32.toNat_sub x borrow
  have hd2 := UInt32.toNat_sub (x - borrow) part
  refine ⟨low ++ [x - borrow - part], if x < x - borrow - part then -1 else 1, ?_, ?_, ?_⟩
  · rw [mpvecdigmulsub, if_pos h, hp, hloop]
  · simp [hlen]
  · rw [val_append, val_singleton, hlen, hp, val_append, val_singleton, ← hq]
    simp only [UInt32.lt_iff_toNat_lt]
    by_cases hless : x.toNat < part.toNat + borrow.toNat
    · have hdiff : (x - borrow - part).toNat + (part.toNat + borrow.toNat) = x.toNat + 2 ^ 32 := by
        omega
      refine .inr ⟨if_pos (by omega), ?_⟩
      have hmul := congrArg ((2 ^ 32) ^ b.length * ·) hdiff
      simp only [Nat.mul_add] at hmul hval ⊢
      rw [radix_succ, Nat.mul_comm (2 ^ 32)]
      omega
    · have hdiff : (x - borrow - part).toNat + (part.toNat + borrow.toNat) = x.toNat := by omega
      refine .inl ⟨if_neg (by omega), ?_⟩
      have hmul := congrArg ((2 ^ 32) ^ b.length * ·) hdiff
      simp only [Nat.mul_add] at hmul hval ⊢
      omega

end Products

end Petele.Mp
