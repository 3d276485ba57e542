import Petele.Mp.Mul

namespace Petele.Mp

open Lib Limbs

/-- `mul` stores the product of two vectors of at most `n` digits in a zeroed place. -/
def Multiplies (mul : Vec → Vec → Vec → ℕ → Option Vec) (n : ℕ) : Prop :=
  ∀ a b front back : Vec, a.length ≤ n → b.length ≤ n →
    ∃ ds, mul a b (front ++ (List.replicate (a.length + b.length) 0 ++ back)) front.length =
        some (front ++ (ds ++ back)) ∧
      ds.length = a.length + b.length ∧ val ds = val a * val b

section Differences

variable {x y : Vec}

/-- A greater number can be the shorter vector: the other one is cut to its length. -/
theorem cut_sub (hlen : y.length ≤ x.length) (hle : val x ≤ val y) :
    ∃ d, ((slice x 0 y.length).bind fun z => mpvecsub y z) = some d ∧ d.length = y.length ∧
      val d + val x = val y := by
  have hcut : val (x.take y.length) = val x := by
    rw [val_take, Nat.mod_eq_of_lt (hle.trans_lt (val_lt y))]
  have hslice : slice x 0 y.length = some (x.take y.length) :=
    slice_eq (f := []) (List.take_append_drop _ x).symm rfl (by simp [hlen])
  obtain ⟨d, hd, hdlen, hdval⟩ := mpvecsub_spec (a := y) (b := x.take y.length)
    (by simp) (by rw [hcut]; exact hle)
  refine ⟨d, ?_, hdlen, ?_⟩
  · rw [hslice, Option.bind_some, hd]
  · rw [← hcut]
    exact hdval

/-- `|y - x|` where `x` is the longer vector. -/
theorem diff_spec (hlen : y.length ≤ x.length) :
    ∃ d, (if mpveccmp y x < 0 then mpvecsub x y
        else (slice x 0 y.length).bind fun z => mpvecsub y z) = some d ∧ d.length ≤ x.length ∧
      ((mpveccmp y x < 0 ∧ val d + val y = val x) ∨
        (¬ mpveccmp y x < 0 ∧ val d + val x = val y)) := by
  obtain ⟨hneg, -⟩ := mpveccmp_spec y x
  by_cases h : mpveccmp y x < 0
  · obtain ⟨d, hd, hdlen, hdval⟩ := mpvecsub_spec hlen (hneg.mp h).le
    exact ⟨d, by rw [if_pos h, hd], hdlen.le, .inl ⟨h, hdval⟩⟩
  · obtain ⟨d, hd, hdlen, hdval⟩ := cut_sub hlen (Nat.le_of_not_lt (mt hneg.mpr h))
    exact ⟨d, by rw [if_neg h, hd], by omega, .inr ⟨h, hdval⟩⟩

theorem diff_spec' (hlen : y.length ≤ x.length) :
    ∃ d, (if mpveccmp x y < 0 then (slice x 0 y.length).bind fun z => mpvecsub y z
        else mpvecsub x y) = some d ∧ d.length ≤ x.length ∧
      ((mpveccmp x y < 0 ∧ val d + val x = val y) ∨
        (¬ mpveccmp x y < 0 ∧ val d + val y = val x)) := by
  obtain ⟨hneg, -⟩ := mpveccmp_spec x y
  by_cases h : mpveccmp x y < 0
  · obtain ⟨d, hd, hdlen, hdval⟩ := cut_sub hlen (hneg.mp h).le
    exact ⟨d, by rw [if_pos h, hd], by omega, .inl ⟨h, hdval⟩⟩
  · obtain ⟨d, hd, hdlen, hdval⟩ := mpvecsub_spec hlen (Nat.le_of_not_lt (mt hneg.mpr h))
    exact ⟨d, by rw [if_neg h, hd], hdlen.le, .inr ⟨h, hdval⟩⟩

end Differences

section Buffer

variable {f r y : Vec} {k s : ℕ}

theorem cut_result (f r : Vec) (k : ℕ) :
    f ++ (r ++ [0]) = (f ++ r.take k) ++ (r.drop k ++ [0]) := by
  rw [List.append_assoc, ← List.append_assoc (r.take k), List.take_append_drop]

/-- Adding into the result: `f` is the buffer before it, and its last digit takes no carry. -/
theorem addinto_spec (hk : k ≤ r.length) (hsrc : slice (f ++ (r ++ [0])) s y.length = some y)
    (hlen : y.length ≤ r.length - k) (hfit : val r + (2 ^ 32) ^ k * val y < (2 ^ 32) ^ r.length) :
    ∃ r', addinto (f ++ (r ++ [0])) (f.length + k) (r.length - k) s y.length =
        some (f ++ (r' ++ [0])) ∧
      r'.length = r.length ∧ val r' = val r + (2 ^ 32) ^ k * val y := by
  have hsplit := val_split r k
  have hhi : slice (f ++ (r ++ [0])) (f.length + k) (r.length - k) = some (r.drop k) :=
    slice_eq (cut_result f r k) (by simp [hk]) (by simp)
  obtain ⟨s, hs, hslen, hsval⟩ := mpvecadd_spec (a := r.drop k) (b := y) (by simpa using hlen)
  rw [List.length_drop] at hslen
  -- the carry is zero, as the sum fits
  have hpow : (2 ^ 32) ^ k * (2 ^ 32) ^ (r.length - k) = (2 ^ 32) ^ r.length := by
    rw [← Nat.pow_add, Nat.add_sub_cancel' hk]
  have hsum : val s < (2 ^ 32) ^ (r.length - k) := by
    refine Nat.lt_of_mul_lt_mul_left (a := (2 ^ 32) ^ k) ?_
    rw [hpow, hsval, Nat.mul_add]
    omega
  have hlast : val (s.drop (r.length - k)) = 0 := by
    rw [val_drop, Nat.div_eq_of_lt hsum]
  have hzero : s.drop (r.length - k) = [0] := by
    rw [eq_zeros_of_val hlast]
    simp [hslen]
  refine ⟨r.take k ++ s.take (r.length - k), ?_, ?_, ?_⟩
  · rw [addinto, hhi, hsrc]
    show (mpvecadd (r.drop k) y).bind _ = _
    rw [hs, Option.bind_some, store_eq (o := r.drop k ++ [0]) (g := [])
      (by rw [List.append_nil]; exact cut_result f r k) (by simp [hk]) (by simp [hslen])]
    conv_lhs => rw [← List.take_append_drop (r.length - k) s, hzero]
    simp
  · simp only [List.length_append, List.length_take, hslen]
    omega
  · have htake : val (s.take (r.length - k)) = val s := by
      rw [val_take, Nat.mod_eq_of_lt hsum]
    rw [val_append, htake, List.length_take_of_le hk, hsval, Nat.mul_add]
    omega

theorem subfrom_spec (hk : k ≤ r.length)
    (hsrc : slice (f ++ (r ++ [0])) s y.length = some y) (hlen : y.length ≤ r.length - k)
    (hle : (2 ^ 32) ^ k * val y ≤ val r) :
    ∃ r', subfrom (f ++ (r ++ [0])) (f.length + k) (r.length - k) s y.length =
        some (f ++ (r' ++ [0])) ∧
      r'.length = r.length ∧ val r' + (2 ^ 32) ^ k * val y = val r := by
  have hsplit := val_split r k
  have hhi : slice (f ++ (r ++ [0])) (f.length + k) (r.length - k) = some (r.drop k) :=
    slice_eq (cut_result f r k) (by simp [hk]) (by simp)
  have hge : val y ≤ val (r.drop k) := by
    rw [val_drop, Nat.le_div_iff_mul_le (Nat.pow_pos (by decide)), Nat.mul_comm]
    exact hle
  obtain ⟨s, hs, hslen, hsval⟩ := mpvecsub_spec (a := r.drop k) (b := y) (by simpa using hlen) hge
  rw [List.length_drop] at hslen
  refine ⟨r.take k ++ s, ?_, ?_, ?_⟩
  · rw [subfrom, hhi, hsrc]
    show (mpvecsub (r.drop k) y).bind _ = _
    rw [hs, Option.bind_some, store_eq (cut_result f r k) (by simp [hk]) (by simp [hslen])]
    simp
  · simp only [List.length_append, List.length_take, hslen]
    omega
  · rw [← hsval, Nat.mul_add] at hsplit
    rw [val_append, List.length_take_of_le hk]
    omega

end Buffer

section Halves

variable {mul : Vec → Vec → Vec → ℕ → Option Vec} {n : ℕ}

theorem Multiplies.padded (hmul : Multiplies mul n) {a b f g : Vec} {i m : ℕ}
    (ha : a.length ≤ n) (hb : b.length ≤ n) (hi : i = f.length) (hm : a.length + b.length ≤ m) :
    ∃ ds, mul a b (f ++ (List.replicate m 0 ++ g)) i = some (f ++ (pad m ds ++ g)) ∧
      ds.length = a.length + b.length ∧ val ds = val a * val b := by
  obtain ⟨ds, hds, hlen, hval⟩ := hmul a b f
    (List.replicate (m - (a.length + b.length)) 0 ++ g) ha hb
  refine ⟨ds, ?_, hlen, hval⟩
  rw [zeros_split hm, List.append_assoc, hi, hds, pad, hlen, List.append_assoc]

/-- The buffer with the products in their places, and nothing in the result. -/
def filled (n : ℕ) (p0 p1 dp : Vec) : Vec :=
  pad (2 * n + 1) p0 ++ (pad (2 * n + 1) p1 ++ (pad (2 * n + 1) dp ++
    List.replicate (2 * (2 * n + 1)) 0))

variable (u0 u1 v0 v1 : Vec)

theorem halfproducts_spec (hmul : Multiplies mul n) (hu0 : u0.length = n)
    (hu1 : u1.length ≤ n) (hv0 : v0.length ≤ n) (hv1 : v1.length ≤ v0.length) :
    ∃ sign p0 p1 dp, halfproducts mul n u0 u1 v0 v1 = some (filled n p0 p1 dp, sign) ∧
      p0.length = u0.length + v0.length ∧ p1.length = u1.length + v1.length ∧
      dp.length = u0.length + v0.length ∧
      val p0 = val u0 * val v0 ∧ val p1 = val u1 * val v1 ∧
      ((sign < 0 ∧ val u0 * val v0 + val u1 * val v1 = val u0 * val v1 + val u1 * val v0 + val dp) ∨
        (¬ sign < 0 ∧
          val u0 * val v0 + val u1 * val v1 + val dp = val u0 * val v1 + val u1 * val v0)) := by
  obtain ⟨d, hd, hdlen, hdval⟩ := diff_spec (x := u0) (y := u1) (by omega)
  obtain ⟨e, he, helen, heval⟩ := diff_spec' (x := v0) (y := v1) hv1
  -- the buffer as it is cut into its places
  have hbuf : List.replicate (5 * (2 * n + 1)) (0 : UInt32) = List.replicate (2 * n + 1) 0 ++
      (List.replicate (2 * n + 1) 0 ++ (List.replicate (2 * n + 1) 0 ++
      List.replicate (2 * (2 * n + 1)) 0)) := by
    simp only [List.replicate_append_replicate]
    congr 1
    omega
  have htwo : List.replicate (2 * (2 * n + 1)) (0 : UInt32) =
      List.replicate (2 * n + 1) 0 ++ List.replicate (2 * n + 1) 0 := by
    rw [List.replicate_append_replicate, Nat.two_mul]
  have hpd := pad_length (m := 2 * n + 1) (x := d) (by omega)
  have hpe := pad_length (m := 2 * n + 1) (x := e) (by omega)
  -- the differences, in the first two places
  have ht1 := store_pad (f := []) (i := 0) (x := d) (m := 2 * n + 1)
    (g := List.replicate (2 * n + 1) 0 ++ (List.replicate (2 * n + 1) 0 ++
      List.replicate (2 * (2 * n + 1)) 0)) rfl (by omega)
  have ht2 := store_pad (f := pad (2 * n + 1) d) (i := 2 * n + 1) (x := e) (m := 2 * n + 1)
    (g := List.replicate (2 * n + 1) 0 ++ List.replicate (2 * (2 * n + 1)) 0) hpd.symm (by omega)
  have hx := slice_pad (f := []) (i := 0) (x := d) (k := u0.length) (m := 2 * n + 1)
    (g := pad (2 * n + 1) e ++ (List.replicate (2 * n + 1) 0 ++
      List.replicate (2 * (2 * n + 1)) 0)) rfl (by omega) (by omega)
  have hy := slice_pad (f := pad (2 * n + 1) d) (i := 2 * n + 1) (x := e) (k := v0.length)
    (m := 2 * n + 1) (g := List.replicate (2 * n + 1) 0 ++
      List.replicate (2 * (2 * n + 1)) 0) hpd.symm helen (by omega)
  -- the three products
  obtain ⟨dp, hdp, hdplen, hdpval⟩ := hmul.padded (a := pad u0.length d) (b := pad v0.length e)
    (f := pad (2 * n + 1) d ++ pad (2 * n + 1) e) (i := 2 * (2 * n + 1)) (m := 2 * n + 1)
    (g := List.replicate (2 * (2 * n + 1)) 0) (by rw [pad_length hdlen]; omega)
    (by rw [pad_length helen]; omega) (by rw [List.length_append, hpd, hpe]; omega)
    (by rw [pad_length hdlen, pad_length helen]; omega)
  rw [pad_length hdlen, pad_length helen] at hdplen
  rw [val_pad, val_pad] at hdpval
  have ht4 : store (pad (2 * n + 1) d ++ pad (2 * n + 1) e ++ (pad (2 * n + 1) dp ++
      List.replicate (2 * (2 * n + 1)) 0)) 0 (List.replicate (2 * (2 * n + 1)) 0) =
      some (List.replicate (2 * n + 1) 0 ++ (List.replicate (2 * n + 1) 0 ++
        (pad (2 * n + 1) dp ++ List.replicate (2 * (2 * n + 1)) 0))) := by
    refine (store_eq (f := []) (o := pad (2 * n + 1) d ++ pad (2 * n + 1) e) rfl rfl
      (by rw [List.length_append, hpd, hpe, List.length_replicate]; omega)).trans ?_
    nth_rewrite 1 [htwo]
    rw [List.nil_append, List.append_assoc]
  obtain ⟨p1, hp1, hp1len, hp1val⟩ : ∃ p1, (if 0 < v1.length then mul u1 v1
        (List.replicate (2 * n + 1) 0 ++ (List.replicate (2 * n + 1) 0 ++
          (pad (2 * n + 1) dp ++ List.replicate (2 * (2 * n + 1)) 0))) (2 * n + 1)
        else some (List.replicate (2 * n + 1) 0 ++ (List.replicate (2 * n + 1) 0 ++
          (pad (2 * n + 1) dp ++ List.replicate (2 * (2 * n + 1)) 0)))) =
      some (List.replicate (2 * n + 1) 0 ++ (pad (2 * n + 1) p1 ++
          (pad (2 * n + 1) dp ++ List.replicate (2 * (2 * n + 1)) 0))) ∧
      p1.length = u1.length + v1.length ∧ val p1 = val u1 * val v1 := by
    by_cases hl : 0 < v1.length
    · rw [if_pos hl]
      exact hmul.padded hu1 (by omega) (by simp) (by omega)
    · have hnil : v1 = [] := List.eq_nil_of_length_eq_zero (by omega)
      refine ⟨List.replicate u1.length 0, ?_, by simp [hnil], by simp [hnil]⟩
      rw [if_neg hl, pad_zeros (by omega)]
  obtain ⟨p0, hp0, hp0len, hp0val⟩ := hmul.padded (a := u0) (b := v0) (f := []) (i := 0)
    (m := 2 * n + 1) (g := pad (2 * n + 1) p1 ++ (pad (2 * n + 1) dp ++
      List.replicate (2 * (2 * n + 1)) 0)) hu0.le hv0 rfl (by omega)
  refine ⟨if mpveccmp v0 v1 < 0 then -(if mpveccmp u1 u0 < 0 then -1 else 1)
    else if mpveccmp u1 u0 < 0 then -1 else 1, p0, p1, dp, ?_, hp0len, hp1len, hdplen, hp0val, hp1val, ?_⟩
  · simp only [List.append_assoc] at hdp ht4
    simp only [List.nil_append] at ht1 hx hp0
    simp only [halfproducts, Option.bind_eq_bind, hd, he, hbuf, ht1, ht2, hx, hy, hdp, ht4, hp1, hp0,
      Option.bind_some, filled]
  · rw [hdpval]
    rcases hdval with ⟨hu, hdval⟩ | ⟨hu, hdval⟩
    all_goals rcases heval with ⟨hv, heval⟩ | ⟨hv, heval⟩
    all_goals simp only [hu, hv, if_true, if_false, ← hdval, ← heval]
    · exact .inr ⟨by decide, by ring⟩
    · exact .inl ⟨by decide, by ring⟩
    · exact .inl ⟨by decide, by ring⟩
    · exact .inr ⟨by decide, by ring⟩

/-- The products and what is done with them fit in the result. -/
theorem sum_lt {N P0 P1 D : ℕ} (hN : 1 ≤ N) (hP0 : P0 ≤ N * N) (hP1 : P1 ≤ N * N)
    (hD : D ≤ N * N) : P0 + N * P0 + N * P1 + N * N * P1 + N * D < 2 ^ 32 * (N * N * (N * N)) := by
  have hN2 : N * N ≤ N * N * (N * N) := Nat.le_mul_of_pos_right _ (Nat.mul_pos hN hN)
  have hN3 : N * (N * N) ≤ N * N * (N * N) := Nat.mul_le_mul_right _ (Nat.le_mul_of_pos_right _ hN)
  have h0 := Nat.mul_le_mul_left N hP0
  have h1 := Nat.mul_le_mul_left N hP1
  have h2 := Nat.mul_le_mul_left (N * N) hP1
  have h3 := Nat.mul_le_mul_left N hD
  have hpos : 0 < N * N * (N * N) := Nat.mul_pos (Nat.mul_pos hN hN) (Nat.mul_pos hN hN)
  omega

end Halves

section Sum

variable (n u0len u1len v0len v1len : ℕ) (p0 p1 dp : Vec) (sign : ℤ)

theorem sumproducts_spec (hu0 : u0len = n) (hu1 : u1len ≤ n) (hv0 : v0len ≤ n) (hv1 : v1len ≤ n)
    (hp0 : p0.length = u0len + v0len) (hp1 : p1.length = u1len + v1len)
    (hdp : dp.length = u0len + v0len) (hp1zero : v1len = 0 → val p1 = 0)
    (hsign : sign < 0 → val dp ≤ val p0 + val p1) :
    ∃ front r, sumproducts n u0len u1len v0len v1len (filled n p0 p1 dp) sign =
        some (front ++ (r ++ [0])) ∧ front.length = 3 * (2 * n + 1) ∧ r.length = 4 * n + 1 ∧
      ((sign < 0 ∧ val r + (2 ^ 32) ^ n * val dp = val p0 + (2 ^ 32) ^ n * val p0 +
          (2 ^ 32) ^ n * val p1 + (2 ^ 32) ^ (2 * n) * val p1) ∨
        (¬ sign < 0 ∧ val r = val p0 + (2 ^ 32) ^ n * val p0 + (2 ^ 32) ^ n * val p1 +
          (2 ^ 32) ^ (2 * n) * val p1 + (2 ^ 32) ^ n * val dp)) := by
  -- the buffer before the result, and the products in it
  obtain ⟨front, hfront⟩ : ∃ front, front = pad (2 * n + 1) p0 ++ (pad (2 * n + 1) p1 ++
    pad (2 * n + 1) dp) := ⟨_, rfl⟩
  have hl0 := pad_length (m := 2 * n + 1) (x := p0) (by omega)
  have hl1 := pad_length (m := 2 * n + 1) (x := p1) (by omega)
  have hld := pad_length (m := 2 * n + 1) (x := dp) (by omega)
  have hlen : front.length = 3 * (2 * n + 1) := by
    rw [hfront, List.length_append, List.length_append, hl0, hl1, hld]
    omega
  have hpad : ∀ ds : Vec, pad ds.length ds = ds := by
    intro ds
    rw [pad, Nat.sub_self, List.replicate_zero, List.append_nil]
  have hs0 : ∀ rest, slice (front ++ rest) 0 p0.length = some p0 := by
    intro rest
    have h := slice_pad (f := []) (i := 0) (x := p0) (k := p0.length) (m := 2 * n + 1)
      (g := pad (2 * n + 1) p1 ++ (pad (2 * n + 1) dp ++ rest)) rfl le_rfl (by omega)
    rw [hpad] at h
    rw [hfront]
    simpa only [List.append_assoc, List.nil_append] using h
  have hs1 : ∀ rest, slice (front ++ rest) (2 * n + 1) p1.length = some p1 := by
    intro rest
    have h := slice_pad (f := pad (2 * n + 1) p0) (i := 2 * n + 1) (x := p1)
      (k := p1.length) (m := 2 * n + 1) (g := pad (2 * n + 1) dp ++ rest) hl0.symm le_rfl
      (by omega)
    rw [hpad] at h
    rw [hfront]
    simpa only [List.append_assoc] using h
  have hsd : ∀ rest, slice (front ++ rest) (2 * (2 * n + 1)) dp.length = some dp := by
    intro rest
    have h := slice_pad (f := pad (2 * n + 1) p0 ++ pad (2 * n + 1) p1)
      (i := 2 * (2 * n + 1)) (x := dp) (k := dp.length) (m := 2 * n + 1) (g := rest)
      (by rw [List.length_append, hl0, hl1]; omega) le_rfl (by omega)
    rw [hpad] at h
    rw [hfront]
    simpa only [List.append_assoc] using h
  have hbuf : filled n p0 p1 dp = front ++ (List.replicate (4 * n + 1) 0 ++ [0]) := by
    rw [filled, hfront, zeros_split (k := 4 * n + 1) (m := 2 * (2 * n + 1)) (by omega),
      show 2 * (2 * n + 1) - (4 * n + 1) = 1 by omega]
    simp only [List.append_assoc]
    rfl
  -- no sum on the way overflows
  have hsq : ∀ ds : Vec, ds.length ≤ 2 * n → val ds ≤ (2 ^ 32) ^ n * (2 ^ 32) ^ n := by
    intro ds hds
    rw [← Nat.pow_add, ← Nat.two_mul]
    exact (val_lt ds).le.trans (Nat.pow_le_pow_right (by decide) hds)
  have hpow2 : (2 ^ 32) ^ (2 * n) = (2 ^ 32) ^ n * (2 ^ 32) ^ n := by
    rw [← Nat.pow_add, Nat.two_mul]
  have hpow4 : (2 ^ 32) ^ (4 * n + 1) =
      2 ^ 32 * ((2 ^ 32) ^ n * (2 ^ 32) ^ n * ((2 ^ 32) ^ n * (2 ^ 32) ^ n)) := by
    rw [radix_succ, ← Nat.pow_add, ← Nat.pow_add]
    congr 2
    omega
  have hfit := sum_lt (N := (2 ^ 32) ^ n) (Nat.pow_pos (by decide)) (hsq p0 (by omega))
    (hsq p1 (by omega)) (hsq dp (by omega))
  rw [← hpow4, ← hpow2] at hfit
  have hadd : ∀ (r y : Vec) (k src : ℕ), r.length = 4 * n + 1 → k ≤ 2 * n → y.length ≤ 2 * n →
      (∀ rest, slice (front ++ rest) src y.length = some y) →
      val r + (2 ^ 32) ^ k * val y < (2 ^ 32) ^ (4 * n + 1) →
      ∃ r', addinto (front ++ (r ++ [0])) (3 * (2 * n + 1) + k) (4 * n + 1 - k) src y.length =
          some (front ++ (r' ++ [0])) ∧
        r'.length = 4 * n + 1 ∧ val r' = val r + (2 ^ 32) ^ k * val y := by
    intro r y k src hr hk hy hsrc hlt
    have h := addinto_spec (f := front) (r := r) (y := y) (k := k) (s := src) (by omega)
      (hsrc _) (by omega) (by rw [hr]; exact hlt)
    rwa [hr, hlen] at h
  obtain ⟨r1, h1, hr1, hv1'⟩ := hadd (List.replicate (4 * n + 1) 0) p0 0 0 (by simp) (by omega)
    (by omega) hs0 (by rw [val_zeros, Nat.pow_zero]; omega)
  rw [val_zeros, Nat.pow_zero, Nat.zero_add, Nat.one_mul] at hv1'
  obtain ⟨r2, h2, hr2, hv2⟩ := hadd r1 p0 n 0 hr1 (by omega) (by omega) hs0 (by omega)
  obtain ⟨r3, h3, hr3, hv3⟩ : ∃ r3, (if 0 < v1len then addinto (front ++ (r2 ++ [0]))
      (3 * (2 * n + 1) + n) (4 * n + 1 - n) (2 * n + 1) (u1len + v1len)
      else some (front ++ (r2 ++ [0]))) = some (front ++ (r3 ++ [0])) ∧ r3.length = 4 * n + 1 ∧
      val r3 = val r2 + (2 ^ 32) ^ n * val p1 := by
    by_cases hl : 0 < v1len
    · rw [if_pos hl, ← hp1]
      exact hadd r2 p1 n _ hr2 (by omega) (by omega) hs1 (by omega)
    · rw [if_neg hl]
      exact ⟨r2, rfl, hr2, by rw [hp1zero (by omega), Nat.mul_zero, Nat.add_zero]⟩
  obtain ⟨r4, h4, hr4, hv4⟩ : ∃ r4, (if 0 < v1len then addinto (front ++ (r3 ++ [0]))
      (3 * (2 * n + 1) + 2 * n) (4 * n + 1 - 2 * n) (2 * n + 1) (u1len + v1len)
      else some (front ++ (r3 ++ [0]))) = some (front ++ (r4 ++ [0])) ∧ r4.length = 4 * n + 1 ∧
      val r4 = val r3 + (2 ^ 32) ^ (2 * n) * val p1 := by
    by_cases hl : 0 < v1len
    · rw [if_pos hl, ← hp1]
      exact hadd r3 p1 (2 * n) _ hr3 (by omega) (by omega) hs1 (by omega)
    · rw [if_neg hl]
      exact ⟨r3, rfl, hr3, by rw [hp1zero (by omega), Nat.mul_zero, Nat.add_zero]⟩
  simp only [hp0, Nat.add_zero, Nat.sub_zero] at h1
  rw [hp0] at h2
  by_cases hs : sign < 0
  · have hle : (2 ^ 32) ^ n * val dp ≤ val r4 := by
      have hmul := Nat.mul_le_mul_left ((2 ^ 32) ^ n) (hsign hs)
      rw [Nat.mul_add] at hmul
      omega
    obtain ⟨r5, h5, hr5, hv5⟩ := subfrom_spec (f := front) (r := r4) (y := dp) (k := n)
      (s := 2 * (2 * n + 1)) (by omega) (hsd _) (by omega) hle
    rw [hr4, hlen, hdp] at h5
    refine ⟨front, r5, ?_, hlen, by omega, .inl ⟨hs, by omega⟩⟩
    simp only [sumproducts, Option.bind_eq_bind, hbuf, h1, h2, h3, h4, Option.bind_some, if_pos hs,
      h5]
  · obtain ⟨r5, h5, hr5, hv5⟩ := hadd r4 dp n _ hr4 (by omega) (by omega) hsd (by omega)
    rw [hdp] at h5
    refine ⟨front, r5, ?_, hlen, hr5, .inr ⟨hs, by omega⟩⟩
    simp only [sumproducts, Option.bind_eq_bind, hbuf, h1, h2, h3, h4, Option.bind_some, if_neg hs,
      h5]

end Sum

section Whole

variable {mul : Vec → Vec → Vec → ℕ → Option Vec}

theorem mpkaratsuba_spec {n : ℕ} (hmul : Multiplies mul n) {a b front back : Vec} {off : ℕ}
    (hn : a.length / 2 + a.length % 2 = n) (hb : b.length ≤ a.length) (hoff : off = front.length) :
    ∃ ds, mpkaratsuba mul a b (front ++ (List.replicate (a.length + b.length) 0 ++ back)) off =
        some (front ++ (ds ++ back)) ∧
      ds.length = a.length + b.length ∧ val ds = val a * val b := by
  obtain ⟨k, hk⟩ : ∃ k, (if n < b.length then n else b.length) = k := ⟨_, rfl⟩
  obtain ⟨l, hl⟩ : ∃ l, (if n < b.length then b.length - n else 0) = l := ⟨_, rfl⟩
  have hkl : k + l = b.length ∧ k ≤ n ∧ l ≤ k ∧ (0 < l → k = n) := by
    by_cases hlt : n < b.length
    · rw [if_pos hlt] at hk hl
      omega
    · rw [if_neg hlt] at hk hl
      omega
  -- the halves
  have hu0 : slice a 0 n = some (a.take n) :=
    slice_eq (f := []) (List.take_append_drop n a).symm rfl (by simp; omega)
  have hu1 : slice a n (a.length - n) = some (a.drop n) :=
    slice_eq (f := a.take n) (g := []) (by simp) (by simp; omega) (by simp)
  have hv0 : slice b 0 k = some (b.take k) :=
    slice_eq (f := []) (List.take_append_drop k b).symm rfl (by simp; omega)
  have hv1 : slice b k l = some (b.drop k) :=
    slice_eq (f := b.take k) (g := []) (by simp) (by simp; omega) (by simp; omega)
  have hu0len : (a.take n).length = n := by simp; omega
  have hu1len : (a.drop n).length = a.length - n := List.length_drop
  have hv0len : (b.take k).length = k := by simp; omega
  have hv1len : (b.drop k).length = l := by simp; omega
  obtain ⟨sign, p0, p1, dp, hhalf, hp0len, hp1len, hdplen, hp0, hp1, hcases⟩ :=
    halfproducts_spec (a.take n) (a.drop n) (b.take k) (b.drop k) hmul hu0len (by omega) (by omega)
      (by omega)
  obtain ⟨front', r, hsum, hfront', hrlen, hr⟩ := sumproducts_spec n n (a.length - n) k l
    p0 p1 dp sign rfl (by omega) (by omega) (by omega) (by omega) (by omega) (by omega) (fun hzero => by
      rw [hp1, List.eq_nil_of_length_eq_zero (hv1len.trans hzero), val_nil, Nat.mul_zero])
    (fun hs => by
      rcases hcases with ⟨-, hcase⟩ | ⟨hns, -⟩
      · omega
      · exact absurd hs hns)
  -- the sum is the product
  have ha := val_split a n
  have hbv : val b = val (b.take k) + (2 ^ 32) ^ n * val (b.drop k) := by
    by_cases hpos : 0 < l
    · rw [← hkl.2.2.2 hpos]
      exact val_split b k
    · have hnil : b.drop k = [] := List.eq_nil_of_length_eq_zero (by omega)
      have hsplit := val_split b k
      rw [hnil] at hsplit ⊢
      simpa using hsplit
  have hprod : val a * val b = val (a.take n) * val (b.take k) + (2 ^ 32) ^ n *
      (val (a.take n) * val (b.drop k) + val (a.drop n) * val (b.take k)) +
      (2 ^ 32) ^ (2 * n) * (val (a.drop n) * val (b.drop k)) := by
    rw [ha, hbv, Nat.two_mul, Nat.pow_add]
    ring
  have hval : val r = val a * val b := by
    rw [hp0, hp1] at hr
    rw [hprod]
    rcases hcases with ⟨hs, hcase⟩ | ⟨hs, hcase⟩
    · rcases hr with ⟨-, hr⟩ | ⟨hns, -⟩
      · have hmul := congrArg ((2 ^ 32) ^ n * ·) hcase
        simp only [Nat.mul_add] at hmul ⊢
        omega
      · exact absurd hs hns
    · rcases hr with ⟨hns, -⟩ | ⟨-, hr⟩
      · exact absurd hns hs
      · have hmul := congrArg ((2 ^ 32) ^ n * ·) hcase
        simp only [Nat.mul_add] at hmul ⊢
        omega
  have hlt : val a * val b < (2 ^ 32) ^ (a.length + b.length) := by
    rw [Nat.pow_add]
    exact Nat.mul_lt_mul'' (val_lt a) (val_lt b)
  have hres : slice (front' ++ (r ++ [0])) (3 * (2 * n + 1)) (a.length + b.length) =
      some (r.take (a.length + b.length)) :=
    slice_eq (g := r.drop (a.length + b.length) ++ [0])
      (by rw [← List.append_assoc (r.take _), List.take_append_drop]) hfront'.symm (by simp; omega)
  refine ⟨r.take (a.length + b.length), ?_, by simp; omega, ?_⟩
  · have hstore := store_eq (m := front ++ (List.replicate (a.length + b.length) 0 ++ back))
      (x := r.take (a.length + b.length)) rfl hoff (by simp; omega)
    simp only [mpkaratsuba, hn, hk, hl, Option.bind_eq_bind, hu0, hu1, hv0, hv1, hhalf, hsum, hres,
      Option.bind_some, hstore]
  · rw [val_take, hval, Nat.mod_eq_of_lt hlt]

theorem mpvecmuln_multiplies (depth : ℕ) : Multiplies (mpvecmuln (depth + 1)) depth := by
  induction depth with
  | zero =>
    intro x y front back hx hy
    have hx' : x = [] := List.eq_nil_of_length_eq_zero (Nat.le_zero.mp hx)
    have hy' : y = [] := List.eq_nil_of_length_eq_zero (Nat.le_zero.mp hy)
    subst hx' hy'
    exact ⟨[], by simp [mpvecmuln, mulrows, KARATSUBAMIN], rfl, rfl⟩
  | succ depth ih =>
    intro x y front back hx hy
    obtain ⟨a, ha⟩ : ∃ a, (if x.length < y.length then y else x) = a := ⟨_, rfl⟩
    obtain ⟨b, hb⟩ : ∃ b, (if x.length < y.length then x else y) = b := ⟨_, rfl⟩
    have hswap : b.length ≤ a.length ∧ a.length ≤ depth + 1 ∧
        x.length + y.length = a.length + b.length ∧ val x * val y = val a * val b := by
      by_cases hlt : x.length < y.length
      · rw [if_pos hlt] at ha hb
        subst ha hb
        exact ⟨hlt.le, hy, Nat.add_comm _ _, Nat.mul_comm _ _⟩
      · rw [if_neg hlt] at ha hb
        subst ha hb
        exact ⟨by omega, hx, rfl, rfl⟩
    obtain ⟨hle, hbound, hlen, hval⟩ := hswap
    rw [hlen, hval]
    simp only [mpvecmuln, ha, hb]
    by_cases hbig : KARATSUBAMIN ≤ a.length ∧ 1 < b.length
    · have hhalf : Multiplies (mpvecmuln (depth + 1)) (a.length / 2 + a.length % 2) := by
        intro u v f g hu hv
        have hk := hbig.1
        unfold KARATSUBAMIN at hk
        exact ih u v f g (by omega) (by omega)
      rw [if_pos hbig]
      exact mpkaratsuba_spec hhalf rfl hle rfl
    · rw [if_neg hbig, ← List.replicate_append_replicate, List.append_assoc]
      obtain ⟨ds, hds, hdslen, hdsval⟩ := mulrows_spec true a b front back
        (y := List.replicate a.length 0) (by simp)
      exact ⟨ds, hds, hdslen, by rw [hdsval, val_zeros, Nat.zero_add]⟩

theorem mpvectsmul_spec (x y front back : Vec) :
    ∃ ds, mpvectsmul x y (front ++ (List.replicate (x.length + y.length) 0 ++ back)) front.length =
        some (front ++ (ds ++ back)) ∧
      ds.length = x.length + y.length ∧ val ds = val x * val y := by
  have hrows : ∀ a b : Vec, ∃ ds, mulrows false a b
      (front ++ (List.replicate (a.length + b.length) 0 ++ back)) front.length =
        some (front ++ (ds ++ back)) ∧
      ds.length = a.length + b.length ∧ val ds = val a * val b := by
    intro a b
    obtain ⟨ds, hds, hlen, hval⟩ := mulrows_spec false a b front back
      (y := List.replicate a.length 0) (by simp)
    refine ⟨ds, ?_, hlen, by rw [hval, val_zeros, Nat.zero_add]⟩
    rw [← List.replicate_append_replicate, List.append_assoc]
    exact hds
  unfold mpvectsmul
  by_cases hlt : x.length < y.length
  · simp only [if_pos hlt]
    rw [Nat.add_comm x.length, Nat.mul_comm]
    exact hrows y x
  · simp only [if_neg hlt]
    exact hrows x y

theorem mpvecmul_spec (a b front back : Vec) :
    ∃ ds, mpvecmul a b (front ++ (List.replicate (a.length + b.length) 0 ++ back)) front.length =
        some (front ++ (ds ++ back)) ∧
      ds.length = a.length + b.length ∧ val ds = val a * val b :=
  mpvecmuln_multiplies (max a.length b.length) a b front back (Nat.le_max_left _ _)
    (Nat.le_max_right _ _)

/-- Both multiplications leave the product in a zeroed area, and no access on the way is outside
its memory. -/
theorem mpvecmul_exact (a b front back : Vec) :
    ∃ ds : Vec, ds.length = a.length + b.length + 1 ∧ val ds = val a * val b ∧
      mpvecmul a b (front ++ (List.replicate (a.length + b.length + 1) 0 ++ back)) front.length =
        some (front ++ (ds ++ back)) ∧
      mpvectsmul a b (front ++ (List.replicate (a.length + b.length + 1) 0 ++ back)) front.length =
        some (front ++ (ds ++ back)) := by
  have harea : List.replicate (a.length + b.length + 1) (0 : UInt32) ++ back =
      List.replicate (a.length + b.length) 0 ++ (0 :: back) := by
    rw [List.replicate_succ', List.append_assoc]
    rfl
  obtain ⟨ds, hds, hlen, hval⟩ := mpvecmul_spec a b front (0 :: back)
  obtain ⟨ts, hts, htlen, htval⟩ := mpvectsmul_spec a b front (0 :: back)
  have hsame : ts = ds := val_injective (htlen.trans hlen.symm) (htval.trans hval.symm)
  refine ⟨ds ++ [0], by simp [hlen], by simp [val_append, hval], ?_, ?_⟩
  · rw [harea, hds]
    simp
  · rw [harea, hts, hsame]
    simp

end Whole

end Petele.Mp
