import Mathlib.Data.Nat.Digits.Lemmas
import Mathlib.Tactic.Ring

namespace Petele.Lib.Limbs

/-- The number whose digits of 32 bits, least significant first, are given. -/
def val (ds : List UInt32) : ℕ := Nat.ofDigits (2 ^ 32) (ds.map UInt32.toNat)

theorem radix_succ (n : ℕ) : (2 ^ 32) ^ (n + 1) = 2 ^ 32 * (2 ^ 32) ^ n := Nat.pow_succ'

@[simp] theorem val_nil : val [] = 0 := rfl

@[simp] theorem val_cons (d : UInt32) (ds : List UInt32) :
    val (d :: ds) = d.toNat + 2 ^ 32 * val ds := Nat.ofDigits_cons

theorem val_append (ds es : List UInt32) :
    val (ds ++ es) = val ds + (2 ^ 32) ^ ds.length * val es := by
  rw [val, List.map_append, Nat.ofDigits_append, List.length_map, ← val, ← val]

theorem val_lt (ds : List UInt32) : val ds < (2 ^ 32) ^ ds.length := by
  have h := Nat.ofDigits_lt_base_pow_length (b := 2 ^ 32) (l := ds.map UInt32.toNat) (by decide) (by
    intro x hx
    obtain ⟨d, -, rfl⟩ := List.mem_map.mp hx
    exact d.toNat_lt)
  rwa [List.length_map] at h

@[simp] theorem val_zeros (n : ℕ) : val (List.replicate n 0) = 0 := by
  induction n with
  | zero => rfl
  | succ n ih =>
    rw [List.replicate_succ, val_cons, ih]
    rfl

theorem val_singleton (d : UInt32) : val [d] = d.toNat := by
  rw [val_cons, val_nil, Nat.mul_zero, Nat.add_zero]

theorem val_injective {ds es : List UInt32} (hlen : ds.length = es.length)
    (h : val ds = val es) : ds = es := by
  induction ds generalizing es with
  | nil => exact (List.eq_nil_of_length_eq_zero hlen.symm).symm
  | cons d ds ih =>
    cases es with
    | nil => simp at hlen
    | cons e es =>
      have hd := d.toNat_lt
      have he := e.toNat_lt
      rw [val_cons, val_cons] at h
      have hhead : d.toNat = e.toNat := by omega
      rw [UInt32.toNat_inj.mp hhead, ih (by simpa using hlen) (by omega)]

/-- The low digits are the remainder, the high ones the quotient. -/
theorem val_split (ds : List UInt32) (n : ℕ) :
    val ds = val (ds.take n) + (2 ^ 32) ^ n * val (ds.drop n) := by
  by_cases hn : n ≤ ds.length
  · conv_lhs => rw [← List.take_append_drop n ds]
    rw [val_append, List.length_take_of_le hn]
  · rw [List.take_of_length_le (by omega), List.drop_of_length_le (by omega)]
    simp

theorem val_take (ds : List UInt32) (n : ℕ) : val (ds.take n) = val ds % (2 ^ 32) ^ n := by
  have hlt : val (ds.take n) < (2 ^ 32) ^ n :=
    (val_lt _).trans_le (Nat.pow_le_pow_right (by decide) (by simp))
  rw [val_split ds n, Nat.add_mul_mod_self_left, Nat.mod_eq_of_lt hlt]

theorem val_drop (ds : List UInt32) (n : ℕ) : val (ds.drop n) = val ds / (2 ^ 32) ^ n := by
  have hlt : val (ds.take n) < (2 ^ 32) ^ n :=
    (val_lt _).trans_le (Nat.pow_le_pow_right (by decide) (by simp))
  rw [val_split ds n, Nat.add_mul_div_left _ _ (Nat.pow_pos (by decide)), Nat.div_eq_of_lt hlt,
    Nat.zero_add]

/-- Digits above the value are zero. -/
theorem eq_zeros_of_val {ds : List UInt32} (h : val ds = 0) : ds = List.replicate ds.length 0 :=
  val_injective (by simp) (by rw [h, val_zeros])

/-- Memory: `len` digits at `off`, if they are all there. -/
def slice (m : List UInt32) (off len : ℕ) : Option (List UInt32) :=
  if off + len ≤ m.length then some ((m.drop off).take len) else none

/-- The memory with the digits stored at `off`, if there is room for them. -/
def store (m : List UInt32) (off : ℕ) (ds : List UInt32) : Option (List UInt32) :=
  if off + ds.length ≤ m.length then some (m.take off ++ ds ++ m.drop (off + ds.length)) else none

theorem slice_eq {m f x g : List UInt32} {i k : ℕ} (hm : m = f ++ (x ++ g)) (hi : i = f.length)
    (hk : k = x.length) : slice m i k = some x := by
  subst hm hi hk
  rw [slice, if_pos (by simp), List.drop_left, List.take_left]

theorem store_eq {m f o g x : List UInt32} {i : ℕ} (hm : m = f ++ (o ++ g)) (hi : i = f.length)
    (hlen : o.length = x.length) : store m i x = some (f ++ (x ++ g)) := by
  subst hm hi
  rw [store, if_pos (by simp [hlen]), List.take_left, ← List.drop_drop, List.drop_left, ← hlen,
    List.drop_left, List.append_assoc]

/-- The digits in a zeroed place of `m` digits. -/
def pad (m : ℕ) (ds : List UInt32) : List UInt32 := ds ++ List.replicate (m - ds.length) 0

@[simp] theorem val_pad (m : ℕ) (ds : List UInt32) : val (pad m ds) = val ds := by
  rw [pad, val_append, val_zeros, Nat.mul_zero, Nat.add_zero]

section

variable {f x g : List UInt32} {i k m : ℕ}

theorem pad_length (h : x.length ≤ m) : (pad m x).length = m := by
  rw [pad, List.length_append, List.length_replicate, Nat.add_sub_cancel' h]

theorem zeros_split (h : k ≤ m) :
    List.replicate m (0 : UInt32) = List.replicate k 0 ++ List.replicate (m - k) 0 := by
  rw [List.replicate_append_replicate, Nat.add_sub_cancel' h]

theorem pad_zeros (h : k ≤ m) : pad m (List.replicate k 0) = List.replicate m 0 := by
  rw [pad, List.length_replicate, ← zeros_split h]

theorem slice_pad (hi : i = f.length) (hx : x.length ≤ k) (hk : k ≤ m) :
    slice (f ++ (pad m x ++ g)) i k = some (pad k x) := by
  refine slice_eq (g := List.replicate (m - k) 0 ++ g) ?_ hi (pad_length hx).symm
  rw [pad, pad, zeros_split (k := k - x.length) (m := m - x.length) (by omega),
    show m - x.length - (k - x.length) = m - k by omega]
  simp only [List.append_assoc]

theorem store_pad (hi : i = f.length) (hx : x.length ≤ m) :
    store (f ++ (List.replicate m 0 ++ g)) i x = some (f ++ (pad m x ++ g)) := by
  rw [store_eq (o := List.replicate x.length 0) (g := List.replicate (m - x.length) 0 ++ g)
    (by rw [zeros_split hx, List.append_assoc]) hi (by simp), pad, List.append_assoc]

end

end Petele.Lib.Limbs
