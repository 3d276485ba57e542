import Petele.Git.Index
import Mathlib.Data.List.Nodup
import Mathlib.Data.List.TakeWhile
import Mathlib.Tactic.Linarith

namespace Petele.Git

open Lib BigEndian Bisect

section Words

theorem getbe32_cons (a b c d : UInt8) (rest : List UInt8) :
    getbe32 (a :: b :: c :: d :: rest) =
      a.toNat * 2 ^ 24 + (b.toNat * 2 ^ 16 + (c.toNat * 2 ^ 8 + d.toNat)) := by
  have hb := b.toNat_lt
  have hc := c.toNat_lt
  have hd := d.toNat_lt
  show a.toNat <<< 24 ||| b.toNat <<< 16 ||| c.toNat <<< 8 ||| d.toNat = _
  rw [Nat.or_assoc, Nat.or_assoc, ← Nat.shiftLeft_add_eq_or_of_lt (a := c.toNat) (i := 8) hd,
    ← Nat.shiftLeft_add_eq_or_of_lt (a := b.toNat) (i := 16),
    ← Nat.shiftLeft_add_eq_or_of_lt (a := a.toNat) (i := 24)]
  all_goals simp only [Nat.shiftLeft_eq]
  all_goals omega

theorem getbe32_putbe32 (n : ℕ) (rest : List UInt8) :
    getbe32 (putbe32 n ++ rest) = n % 2 ^ 32 := by
  show getbe32 (_ :: _ :: _ :: _ :: rest) = _
  rw [getbe32_cons]
  simp only [UInt8.toNat_ofNat', Nat.shiftRight_eq_div_pow]
  omega

/-- A word of 64 bits is two of 32 bits. -/
theorem getbe64_halves (b : List UInt8) :
    getbe64 b = getbe32 b <<< 32 ||| getbe32 (b.drop 4) := by
  simp only [getbe64, getbe32, Nat.shiftLeft_or_distrib, ← Nat.shiftLeft_add, List.getD_eq_getElem?_getD,
    List.getElem?_drop, Nat.or_assoc]

theorem getbe64_putbe64 (n : ℕ) (rest : List UInt8) :
    getbe64 (putbe64 n ++ rest) = n % 2 ^ 64 := by
  have hhigh : putbe64 n ++ rest = putbe32 (n / 2 ^ 32) ++ (putbe32 n ++ rest) := by
    simp [putbe64, putbe32, Nat.shiftRight_eq_div_pow, Nat.div_div_eq_div_mul]
  have hlow : (putbe64 n ++ rest).drop 4 = putbe32 n ++ rest := rfl
  rw [getbe64_halves, hlow, hhigh, getbe32_putbe32, getbe32_putbe32,
    ← Nat.shiftLeft_add_eq_or_of_lt (Nat.mod_lt _ (by decide)), Nat.shiftLeft_eq]
  omega

@[simp] theorem putbe32_length (n : ℕ) : (putbe32 n).length = 4 := rfl

@[simp] theorem putbe64_length (n : ℕ) : (putbe64 n).length = 8 := rfl

end Words

section Order

/-- The hash as a number. -/
def Hash.val (h : Hash) : ℕ := beVal h.h

/-- The first `n` bits of a hash, as a number. -/
def Hash.bits (h : Hash) (n : ℕ) : ℕ := h.val / 2 ^ (160 - n)

theorem Hash.ext_val {a b : Hash} (h : a.val = b.val) : a = b := by
  have hbytes := beVal_injective (a.len.trans b.len.symm) h
  cases a
  cases b
  simpa using hbytes

theorem Hash.bits_all (h : Hash) : h.bits 160 = h.val := Nat.div_one _

theorem Hash.bits_mono {a b : Hash} (h : a.val ≤ b.val) (n : ℕ) : a.bits n ≤ b.bits n :=
  Nat.div_le_div_right h

theorem Hash.val_take (h : Hash) (i : ℕ) : beVal (h.h.take i) = h.val / 256 ^ (20 - i) := by
  rw [beVal_take, h.len, Hash.val]

/-- The first byte is the first eight bits. -/
theorem Hash.first_eq (h : Hash) : (h.h.getD 0 0).toNat = h.bits 8 := by
  have htake := h.val_take 1
  have hlen := h.len
  cases hh : h.h with
  | nil => simp [hh] at hlen
  | cons b bs =>
    rw [hh] at htake
    simp only [List.take_succ_cons, List.take_zero, beVal, List.length_nil, Nat.pow_zero,
      Nat.mul_one, Nat.add_zero] at htake
    show b.toNat = _
    rw [htake, Hash.bits, show 256 ^ (20 - 1) = 2 ^ (160 - 8) by norm_num]

theorem Hash.bits_eq_of_bits_eq {a b : Hash} {m n : ℕ} (hm : m ≤ n) (hn : n ≤ 160)
    (h : a.bits n = b.bits n) : a.bits m = b.bits m := by
  have hsplit : ∀ x : Hash, x.bits m = x.bits n / 2 ^ (n - m) := by
    intro x
    rw [Hash.bits, Hash.bits, Nat.div_div_eq_div_mul, ← Nat.pow_add]
    congr 2
    omega
  rw [hsplit, hsplit, h]

theorem memcmp_spec (a b : Hash) (i : ℕ) :
    (memcmp a.h b.h i < 0 ↔ beVal (a.h.take i) < beVal (b.h.take i)) ∧
      (memcmp a.h b.h i = 0 ↔ beVal (a.h.take i) = beVal (b.h.take i)) :=
  compareBytes_spec (by simp [a.len, b.len])

/-- The bits of a hash are those of its first bytes and some of the next byte. -/
theorem Hash.bits_split (h : Hash) {nbit : ℕ} (hn : nbit ≤ 160) (hpart : nbit % 8 ≠ 0) :
    h.bits nbit = beVal (h.h.take (nbit / 8)) * 2 ^ (nbit % 8) +
      (h.h.getD (nbit / 8) 0).toNat >>> (8 - nbit % 8) := by
  have hlen := h.len
  have hi : nbit / 8 < h.h.length := by omega
  have hnext : beVal (h.h.take (nbit / 8 + 1)) =
      beVal (h.h.take (nbit / 8)) * 256 + (h.h.getD (nbit / 8) 0).toNat := by
    rw [List.take_succ_eq_append_getElem hi, beVal_append, List.getD_eq_getElem _ _ hi]
    simp [beVal]
  have hpow : 256 = 2 ^ (nbit % 8) * 2 ^ (8 - nbit % 8) := by
    rw [← Nat.pow_add, show nbit % 8 + (8 - nbit % 8) = 8 by omega]
  have hbits : h.bits nbit = beVal (h.h.take (nbit / 8 + 1)) / 2 ^ (8 - nbit % 8) := by
    rw [h.val_take, Nat.div_div_eq_div_mul, show 256 = 2 ^ 8 from rfl, ← Nat.pow_mul, ← Nat.pow_add,
      Hash.bits]
    congr 2
    omega
  rw [hbits, hnext, hpow, ← Nat.mul_assoc, Nat.mul_comm _ (2 ^ (8 - nbit % 8)),
    Nat.mul_add_div (Nat.pow_pos (by omega)), Nat.shiftRight_eq_div_pow]

theorem hashcmp_spec (a b : Hash) {nbit : ℕ} (hn : nbit ≤ 160) :
    (hashcmp a.h b.h nbit < 0 ↔ a.bits nbit < b.bits nbit) ∧
      (hashcmp a.h b.h nbit = 0 ↔ a.bits nbit = b.bits nbit) := by
  obtain ⟨hneg, hzero⟩ := memcmp_spec a b (nbit / 8)
  by_cases hpart : nbit % 8 = 0
  · have hbits : ∀ x : Hash, x.bits nbit = beVal (x.h.take (nbit / 8)) := by
      intro x
      rw [x.val_take, show 256 = 2 ^ 8 from rfl, ← Nat.pow_mul, Hash.bits]
      congr 2
      omega
    simp only [hashcmp, hpart, or_true, if_true, hbits]
    exact ⟨hneg, hzero⟩
  · have hlow : ∀ x : Hash, (x.h.getD (nbit / 8) 0).toNat >>> (8 - nbit % 8) < 2 ^ (nbit % 8) := by
      intro x
      have hbyte := (x.h.getD (nbit / 8) 0).toNat_lt
      rw [Nat.shiftRight_eq_div_pow, Nat.div_lt_iff_lt_mul (Nat.pow_pos (by omega)), ← Nat.pow_add,
        show nbit % 8 + (8 - nbit % 8) = 8 by omega]
      exact hbyte
    have ha := hlow a
    have hb := hlow b
    rw [a.bits_split hn hpart, b.bits_split hn hpart]
    simp only [hashcmp, hpart, or_false]
    generalize (a.h.getD (nbit / 8) 0).toNat >>> (8 - nbit % 8) = x at *
    generalize (b.h.getD (nbit / 8) 0).toNat >>> (8 - nbit % 8) = y at *
    -- the whole bytes decide unless they agree
    rcases Nat.lt_trichotomy (beVal (a.h.take (nbit / 8))) (beVal (b.h.take (nbit / 8)))
      with hlt | heq | hgt
    · have hr := hneg.mpr hlt
      have hmul := Nat.mul_le_mul_right (2 ^ (nbit % 8)) hlt
      rw [if_pos (by omega)]
      rw [Nat.succ_mul] at hmul
      omega
    · have hr := hzero.mpr heq
      rw [if_neg (by omega), heq]
      omega
    · have hr : 0 < memcmp a.h b.h (nbit / 8) := by omega
      have hmul := Nat.mul_le_mul_right (2 ^ (nbit % 8)) hgt
      rw [if_pos (by omega)]
      rw [Nat.succ_mul] at hmul
      omega

theorem objcmp_le (a b : Packed) : objcmp a b ≤ 0 ↔ a.hash.val ≤ b.hash.val := by
  obtain ⟨hneg, hzero⟩ := memcmp_spec a.hash b.hash 20
  rw [List.take_of_length_le (by rw [a.hash.len]), List.take_of_length_le (by rw [b.hash.len])]
    at hneg hzero
  unfold objcmp Hash.val
  omega

/-- The objects stand in the order of their hashes, and no two have the same. -/
def Sorted (obj : List Packed) : Prop := obj.Pairwise fun a b => a.hash.val < b.hash.val

theorem qsort_perm (obj : List Packed) : (qsort obj).Perm obj := List.mergeSort_perm _ _

theorem qsort_sorted {obj : List Packed} (h : (obj.map (·.hash)).Nodup) : Sorted (qsort obj) := by
  have hle : (qsort obj).Pairwise fun a b => a.hash.val ≤ b.hash.val := by
    refine (List.pairwise_mergeSort ?_ ?_ obj).imp fun {a b} hab => (objcmp_le a b).mp (by
      simpa using hab)
    · intro a b c hab hbc
      simp only [decide_eq_true_eq, objcmp_le] at *
      omega
    · intro a b
      simp only [Bool.or_eq_true, decide_eq_true_eq, objcmp_le]
      omega
  have hne : (qsort obj).Pairwise fun a b => a.hash ≠ b.hash := by
    rw [← List.pairwise_map (f := Packed.hash) (R := (· ≠ ·))]
    exact ((qsort_perm obj).map _).nodup_iff.mpr h
  refine (hle.and hne).imp ?_
  intro a b hab
  have hneq : a.hash.val ≠ b.hash.val := fun h => hab.2 (Hash.ext_val h)
  omega

end Order

section Layout

theorem drop_field {field rest : List UInt8} {w : ℕ} (hw : field.length = w) (k : ℕ) :
    (field ++ rest).drop (w * (k + 1)) = rest.drop (w * k) := by
  rw [Nat.mul_succ, Nat.add_comm, ← List.drop_drop, List.drop_left' hw]

/-- Fields of one width stand at the multiples of it. -/
theorem drop_flatMap {α : Type*} {f : α → List UInt8} {w : ℕ} (hw : ∀ x, (f x).length = w)
    {l : List α} {k : ℕ} {x : α} (hk : l[k]? = some x) (rest : List UInt8) :
    ∃ tail, (l.flatMap f ++ rest).drop (w * k) = f x ++ tail := by
  induction l generalizing k with
  | nil => simp at hk
  | cons y l ih =>
    cases k with
    | zero =>
      have hyx : y = x := by simpa using hk
      exact ⟨l.flatMap f ++ rest, by simp [hyx]⟩
    | succ k =>
      obtain ⟨tail, htail⟩ := ih (k := k) (by simpa using hk)
      refine ⟨tail, ?_⟩
      rw [List.flatMap_cons, List.append_assoc, drop_field (hw y), htail]

theorem flatMap_length {α : Type*} {f : α → List UInt8} {w : ℕ} (hw : ∀ x, (f x).length = w)
    (l : List α) : (l.flatMap f).length = w * l.length := by
  induction l with
  | nil => simp
  | cons x l ih =>
    rw [List.flatMap_cons, List.length_append, hw, ih, List.length_cons, Nat.mul_succ, Nat.add_comm]

/-- The number of objects up to the first one whose hash starts with a byte over `i`. -/
def fan (obj : List Packed) (i : ℕ) : ℕ :=
  (obj.takeWhile fun o => (o.hash.h.getD 0 0).toNat ≤ i).length

theorem fanned_eq (i : ℕ) (obj : List Packed) (c : ℕ) : fanned i obj c = c + fan obj i := by
  induction obj generalizing c with
  | nil => rfl
  | cons o obj ih =>
    unfold fan
    rw [fanned, List.takeWhile_cons]
    split
    · rename_i hle
      rw [ih, fan]
      simp only [hle, decide_true, if_true, List.length_cons]
      omega
    · rename_i hnot
      simp only [hnot, decide_false, Bool.false_eq_true, if_false, List.length_nil, Nat.add_zero]

/-- The next entry counts on from where the last one stopped. -/
theorem fan_step {obj : List Packed} {i j : ℕ} (hij : i ≤ j) :
    fan obj i + fan (obj.drop (fan obj i)) j = fan obj j := by
  induction obj with
  | nil => rfl
  | cons o obj ih =>
    unfold fan at *
    rw [List.takeWhile_cons, List.takeWhile_cons]
    by_cases hi : (o.hash.h.getD 0 0).toNat ≤ i
    · have hj : (o.hash.h.getD 0 0).toNat ≤ j := Nat.le_trans hi hij
      simp only [hi, hj, decide_true, if_true, List.length_cons, List.drop_succ_cons]
      omega
    · simp only [hi, decide_false, Bool.false_eq_true, if_false, List.length_nil, List.drop_zero,
        List.takeWhile_cons, Nat.zero_add]

theorem fanout_length (obj : List Packed) (n i c : ℕ) : (fanout obj n i c).length = 4 * n := by
  induction n generalizing i c with
  | zero => rfl
  | succ n ih =>
    rw [fanout, List.length_append, putbe32_length, ih]
    omega

theorem fanout_entry {obj : List Packed} {n i c j : ℕ} (hc : ∀ k, i ≤ k → c + fan (obj.drop c) k = fan obj k)
    (hj : j < n) (rest : List UInt8) :
    ∃ tail, (fanout obj n i c ++ rest).drop (4 * j) = putbe32 (fan obj (i + j)) ++ tail := by
  induction n generalizing i c j with
  | zero => omega
  | succ n ih =>
    have hnext : fanned i (obj.drop c) c = fan obj i := by rw [fanned_eq, hc i le_rfl]
    rw [fanout]
    simp only [hnext]
    cases j with
    | zero => exact ⟨_, by rw [List.append_assoc]; rfl⟩
    | succ j =>
      obtain ⟨tail, htail⟩ := ih (i := i + 1) (c := fan obj i) (j := j)
        (fun k hk => fan_step (by omega)) (by omega)
      refine ⟨tail, ?_⟩
      rw [List.append_assoc, drop_field (putbe32_length _), htail,
        show i + 1 + j = i + (j + 1) by omega]

/-- The number of large offsets. -/
def nbig (obj : List Packed) : ℕ := obj.countP fun o => 1 <<< 31 ≤ o.off

theorem offsets_length (obj : List Packed) (n : ℕ) : (offsets obj n).length = 4 * obj.length := by
  induction obj generalizing n with
  | nil => rfl
  | cons o obj ih =>
    rw [offsets]
    split
    all_goals
      rw [List.length_append, putbe32_length, ih, List.length_cons]
      omega

theorem offsets_entry {obj : List Packed} {k n : ℕ} {o : Packed} (hk : obj[k]? = some o)
    (rest : List UInt8) : ∃ tail, (offsets obj n ++ rest).drop (4 * k) =
      putbe32 (if o.off < 1 <<< 31 then o.off else 1 <<< 31 ||| (n + nbig (obj.take k))) ++ tail := by
  induction obj generalizing k n with
  | nil => simp at hk
  | cons x obj ih =>
    cases k with
    | zero =>
      have hxo : x = o := by simpa using hk
      subst hxo
      rw [offsets]
      split
      all_goals exact ⟨_, by rw [List.append_assoc]; rfl⟩
    | succ k =>
      have hk' : obj[k]? = some o := by simpa using hk
      rw [offsets, List.take_succ_cons, nbig, List.countP_cons, ← nbig]
      by_cases hx : x.off < 1 <<< 31
      · obtain ⟨tail, htail⟩ := ih (n := n) hk'
        refine ⟨tail, ?_⟩
        rw [if_pos hx, List.append_assoc, drop_field (putbe32_length _), htail,
          if_neg (c := decide _ = true) (by simpa using hx), Nat.add_zero]
      · obtain ⟨tail, htail⟩ := ih (n := n + 1) hk'
        refine ⟨tail, ?_⟩
        rw [if_neg hx, List.append_assoc, drop_field (putbe32_length _), htail,
          if_pos (c := decide _ = true) (by simpa using hx), Nat.add_assoc,
          Nat.add_comm 1 (nbig _)]

theorem bigoffsets_length (obj : List Packed) : (bigoffsets obj).length = 8 * nbig obj := by
  induction obj with
  | nil => rfl
  | cons o obj ih =>
    rw [bigoffsets, nbig, List.countP_cons, ← nbig]
    by_cases hbig : 1 <<< 31 ≤ o.off
    · rw [if_pos hbig, if_pos (decide_eq_true hbig), List.length_append, putbe64_length, ih]
      omega
    · rw [if_neg hbig, if_neg (by simpa using hbig), ih, Nat.add_zero]

theorem bigoffsets_entry {obj : List Packed} {k : ℕ} {o : Packed} (hk : obj[k]? = some o)
    (hbig : 1 <<< 31 ≤ o.off) (rest : List UInt8) : ∃ tail,
      (bigoffsets obj ++ rest).drop (8 * nbig (obj.take k)) = putbe64 o.off ++ tail := by
  induction obj generalizing k with
  | nil => simp at hk
  | cons x obj ih =>
    cases k with
    | zero =>
      have hxo : x = o := by simpa using hk
      subst hxo
      rw [bigoffsets, if_pos hbig]
      exact ⟨_, by rw [List.append_assoc]; rfl⟩
    | succ k =>
      obtain ⟨tail, htail⟩ := ih (k := k) (by simpa using hk)
      refine ⟨tail, ?_⟩
      rw [bigoffsets, List.take_succ_cons, nbig, List.countP_cons, ← nbig]
      by_cases hx : 1 <<< 31 ≤ x.off
      · rw [if_pos hx, if_pos (decide_eq_true hx), List.append_assoc, drop_field (putbe64_length _),
          htail]
      · rw [if_neg hx, if_neg (by simpa using hx), Nat.add_zero, htail]

theorem drop_past {front rest : List UInt8} {n : ℕ} (h : front.length = n) (k : ℕ) :
    (front ++ rest).drop (n + k) = rest.drop k := by
  rw [← List.drop_drop, List.drop_left' h]

variable {obj : List Packed} {ph : Hash} {t : List UInt8} {k : ℕ} {o : Packed}

theorem hash_length (o : Packed) : o.hash.h.length = 20 := o.hash.len

theorem magic_length : ([0xff, 0x74, 0x4f, 0x63, 0, 0, 0, 2] : List UInt8).length = 8 := rfl

theorem indexbody_length (obj : List Packed) (ph : Hash) :
    (indexbody obj ph).length = 1052 + 28 * obj.length + 8 * nbig obj := by
  simp only [indexbody, List.length_append, magic_length, fanout_length, flatMap_length hash_length,
    flatMap_length (f := fun o : Packed => putbe32 o.crc.toNat) (fun _ => putbe32_length _),
    offsets_length, bigoffsets_length, ph.len]
  omega

theorem indexpack_length (sha1 : List UInt8 → Hash) (obj : List Packed) (ph : Hash) :
    (indexpack sha1 obj ph).length = 1072 + 28 * obj.length + 8 * nbig obj := by
  have hperm := qsort_perm obj
  rw [indexpack, List.length_append, indexbody_length, Hash.len, hperm.length_eq, nbig,
    hperm.countP_eq, ← nbig]
  omega

theorem index_fan {j : ℕ} (hj : j < 256) :
    getbe32 ((indexbody obj ph ++ t).drop (8 + 4 * j)) = fan obj j % 2 ^ 32 := by
  simp only [indexbody, List.append_assoc]
  rw [drop_past magic_length]
  obtain ⟨tail, htail⟩ := fanout_entry (n := 256) (i := 0) (c := 0) (j := j)
    (fun k _ => Nat.zero_add (fan obj k)) hj _
  rw [htail, getbe32_putbe32, Nat.zero_add]

theorem index_hash (hk : obj[k]? = some o) :
    ((indexbody obj ph ++ t).drop (8 + 256 * 4 + 20 * k)).take 20 = o.hash.h := by
  simp only [indexbody, List.append_assoc]
  rw [Nat.add_assoc, drop_past magic_length, Nat.mul_comm 256, drop_past (fanout_length obj 256 0 0)]
  obtain ⟨tail, htail⟩ := drop_flatMap hash_length hk _
  rw [htail, List.take_left' o.hash.len]

theorem index_offset (hk : obj[k]? = some o) :
    getbe32 ((indexbody obj ph ++ t).drop
      (8 + 256 * 4 + 20 * obj.length + 4 * obj.length + 4 * k)) =
      (if o.off < 1 <<< 31 then o.off else 1 <<< 31 ||| nbig (obj.take k)) % 2 ^ 32 := by
  simp only [indexbody, List.append_assoc]
  rw [show 8 + 256 * 4 + 20 * obj.length + 4 * obj.length + 4 * k =
      8 + (4 * 256 + (20 * obj.length + (4 * obj.length + 4 * k))) by omega,
    drop_past magic_length, drop_past (fanout_length obj 256 0 0),
    drop_past (flatMap_length hash_length obj),
    drop_past (flatMap_length (fun _ => putbe32_length _) obj)]
  obtain ⟨tail, htail⟩ := offsets_entry (n := 0) hk _
  rw [htail, getbe32_putbe32, Nat.zero_add]

theorem index_bigoffset (hk : obj[k]? = some o) (hbig : 1 <<< 31 ≤ o.off) :
    getbe64 ((indexbody obj ph ++ t).drop (8 + 256 * 4 + 20 * obj.length + 4 * obj.length +
      4 * obj.length + 8 * nbig (obj.take k))) = o.off % 2 ^ 64 := by
  simp only [indexbody, List.append_assoc]
  rw [show 8 + 256 * 4 + 20 * obj.length + 4 * obj.length + 4 * obj.length +
        8 * nbig (obj.take k) = 8 + (4 * 256 + (20 * obj.length + (4 * obj.length +
        (4 * obj.length + 8 * nbig (obj.take k))))) by omega,
    drop_past magic_length, drop_past (fanout_length obj 256 0 0),
    drop_past (flatMap_length hash_length obj),
    drop_past (flatMap_length (fun _ => putbe32_length _) obj),
    drop_past (offsets_length obj 0)]
  obtain ⟨tail, htail⟩ := bigoffsets_entry hk hbig _
  rw [htail, getbe64_putbe64]

end Layout

section Search

variable {obj : List Packed} {ph : Hash} {t : List UInt8} {k : ℕ} {o : Packed}

/-- The fanout table bounds the objects with a given first byte. -/
theorem lt_fan_iff (hsorted : Sorted obj) (hk : obj[k]? = some o) (i : ℕ) :
    k < fan obj i ↔ o.hash.bits 8 ≤ i := by
  unfold fan
  induction obj generalizing k with
  | nil => simp at hk
  | cons x obj ih =>
    obtain ⟨hx, hrest⟩ := List.pairwise_cons.mp hsorted
    rw [List.takeWhile_cons, Hash.first_eq]
    cases k with
    | zero =>
      have hxo : x = o := by simpa using hk
      subst hxo
      by_cases hle : x.hash.bits 8 ≤ i
      · simp [hle]
      · simp only [hle, decide_false, Bool.false_eq_true, if_false, List.length_nil, lt_self_iff_false]
    | succ k =>
      have hk' : obj[k]? = some o := by simpa using hk
      by_cases hle : x.hash.bits 8 ≤ i
      · simp only [hle, decide_true, if_true, List.length_cons, Nat.add_lt_add_iff_right]
        exact ih hrest hk'
      · have hmono := Hash.bits_mono (hx o (List.mem_of_getElem? hk')).le 8
        simp only [hle, decide_false, Bool.false_eq_true, if_false, List.length_nil]
        omega

theorem fan_le (obj : List Packed) (i : ℕ) : fan obj i ≤ obj.length :=
  (List.takeWhile_prefix _).length_le

theorem fan_last (hsorted : Sorted obj) : fan obj 255 = obj.length := by
  by_contra hne
  have hle := fan_le obj 255
  have hlt : fan obj 255 < obj.length := by omega
  obtain ⟨o, ho⟩ : ∃ o, obj[fan obj 255]? = some o := ⟨_, List.getElem?_eq_getElem hlt⟩
  have hbyte := (o.hash.h.getD 0 0).toNat_lt
  have hfirst := (lt_fan_iff hsorted ho 255).mpr (by rw [← Hash.first_eq]; omega)
  omega

theorem sorted_le (hsorted : Sorted obj) {i j : ℕ} {a b : Packed} (hij : i ≤ j)
    (ha : obj[i]? = some a) (hb : obj[j]? = some b) : a.hash.val ≤ b.hash.val := by
  obtain ⟨hi, rfl⟩ := List.getElem?_eq_some_iff.mp ha
  obtain ⟨hj, rfl⟩ := List.getElem?_eq_some_iff.mp hb
  rcases Nat.lt_or_eq_of_le hij with hlt | rfl
  · exact (List.pairwise_iff_getElem.mp hsorted i j hi hj hlt).le
  · exact le_rfl

theorem hashat_index (hsmall : obj.length < 2 ^ 27) (hk : obj[k]? = some o) :
    hashat (indexbody obj ph ++ t) k = o.hash.h := by
  obtain ⟨hlt, -⟩ := List.getElem?_eq_some_iff.mp hk
  rw [hashat, Nat.mod_eq_of_lt (by omega), Nat.mul_comm k, index_hash hk]

/-- The loop of `searchindex` is a bisection as long as the bounds add up without overflow. -/
theorem searchloop_eq (idx : List UInt8) (h : Hash) (npfx fuel : ℕ) {lo hi : ℕ}
    (hbound : hi + hi < 2 ^ 32) : searchloop idx h npfx fuel lo hi =
      bisect (fun k => hashcmp h.h (hashat idx k) npfx) fuel lo hi := by
  induction fuel generalizing lo hi with
  | zero => rfl
  | succ fuel ih =>
    rw [searchloop, bisect]
    by_cases hlt : lo < hi
    · rw [if_pos hlt, if_pos hlt]
      have hmod : (hi + lo) % 2 ^ 32 = hi + lo := Nat.mod_eq_of_lt (by omega)
      simp only [hmod]
      rw [ih (by omega), ih (by omega)]
    · rw [if_neg hlt, if_neg hlt]

theorem nbig_lt (hk : obj[k]? = some o) (hbig : 1 <<< 31 ≤ o.off) :
    nbig (obj.take k) < nbig obj := by
  obtain ⟨hlt, rfl⟩ := List.getElem?_eq_some_iff.mp hk
  have hsplit : nbig obj = nbig (obj.take k) + nbig (obj.drop k) := by
    conv_lhs => rw [← List.take_append_drop k obj]
    exact List.countP_append
  have hpos : 0 < nbig (obj.drop k) := by
    rw [nbig, List.countP_pos_iff]
    exact ⟨obj[k], List.mem_drop_iff_getElem.mpr ⟨0, by omega, by simp⟩, decide_eq_true hbig⟩
  omega

/-- The two tables of offsets give back the offset of an entry. -/
theorem entryoff_index (hsmall : obj.length < 2 ^ 27) (ht : t.length = 20) (hk : obj[k]? = some o)
    (hoff : o.off < 2 ^ 62) :
    entryoff (indexbody obj ph ++ t) (indexbody obj ph ++ t).length obj.length k = o.off := by
  obtain ⟨hlt, -⟩ := List.getElem?_eq_some_iff.mp hk
  have hlen : (indexbody obj ph ++ t).length = 1072 + 28 * obj.length + 8 * nbig obj := by
    rw [List.length_append, indexbody_length, ht]
    omega
  have hmod : 4 * k % 2 ^ 32 = 4 * k := Nat.mod_eq_of_lt (by omega)
  have hnbig : nbig obj ≤ obj.length := List.countP_le_length
  have hword := @index_offset obj ph t k o hk
  have htwo : (1 : ℕ) <<< 31 = 2 ^ 31 := by decide
  rw [entryoff, hmod]
  dsimp only
  rw [if_neg (by rw [hlen]; push_cast; omega), hword]
  by_cases hbig : o.off < 1 <<< 31
  · have hclear : o.off &&& 1 <<< 31 = 0 := by
      rw [htwo] at hbig ⊢
      rw [Nat.and_two_pow, Nat.testBit_eq_false_of_lt hbig]
      rfl
    rw [if_pos hbig, Nat.mod_eq_of_lt (by omega), hclear, if_neg (by simp)]
  · have hj := nbig_lt hk (Nat.le_of_not_lt hbig)
    have hor : 1 <<< 31 ||| nbig (obj.take k) = 2 ^ 31 + nbig (obj.take k) := by
      rw [← Nat.shiftLeft_add_eq_or_of_lt (by omega), htwo]
    have hset : (2 ^ 31 + nbig (obj.take k)) &&& 1 <<< 31 ≠ 0 := by
      rw [htwo, Nat.and_two_pow, Nat.testBit_two_pow_add_eq, Nat.testBit_eq_false_of_lt (by omega)]
      decide
    have hlow : (2 ^ 31 + nbig (obj.take k)) &&& 0x7fffffff = nbig (obj.take k) := by
      rw [show 0x7fffffff = 2 ^ 31 - 1 from rfl, Nat.and_two_pow_sub_one_eq_mod]
      omega
    rw [if_neg hbig, hor, Nat.mod_eq_of_lt (by omega), if_pos hset, hlow,
      if_neg (by rw [hlen]; push_cast; omega), index_bigoffset hk (Nat.le_of_not_lt hbig),
      Nat.mod_eq_of_lt (by omega)]

/-- The two entries of the fanout table that are read bound the entries with the first byte of `h`. -/
theorem fan_range (hsorted : Sorted obj) (hsmall : obj.length < 2 ^ 27) (h : Hash) :
    ∃ lo hi, (if (h.h.getD 0 0).toNat = 0 then 0
        else getbe32 ((indexbody obj ph ++ t).drop (8 + (h.h.getD 0 0).toNat * 4 - 4))) = lo ∧
      (if (h.h.getD 0 0).toNat = 0 then getbe32 ((indexbody obj ph ++ t).drop 8)
        else getbe32 ((indexbody obj ph ++ t).drop (8 + (h.h.getD 0 0).toNat * 4))) = hi ∧
      hi ≤ obj.length ∧ ∀ k o, obj[k]? = some o → (lo ≤ k ∧ k < hi ↔ o.hash.bits 8 = h.bits 8) := by
  have hbyte := (h.h.getD 0 0).toNat_lt
  have hfirst := h.first_eq
  have hfan : ∀ j < 256, getbe32 ((indexbody obj ph ++ t).drop (8 + 4 * j)) = fan obj j := by
    intro j hj
    have hle := fan_le obj j
    rw [index_fan hj, Nat.mod_eq_of_lt (by omega)]
  have hle := fan_le obj (h.h.getD 0 0).toNat
  by_cases hz : (h.h.getD 0 0).toNat = 0
  · rw [if_pos hz, if_pos hz]
    refine ⟨0, fan obj (h.h.getD 0 0).toNat, rfl, ?_, hle, ?_⟩
    · rw [hz]
      exact hfan 0 (by omega)
    · intro k o hk
      have hiff := lt_fan_iff hsorted hk (h.h.getD 0 0).toNat
      omega
  · rw [if_neg hz, if_neg hz]
    refine ⟨fan obj ((h.h.getD 0 0).toNat - 1), fan obj (h.h.getD 0 0).toNat, ?_, ?_, hle, ?_⟩
    · rw [show 8 + (h.h.getD 0 0).toNat * 4 - 4 = 8 + 4 * ((h.h.getD 0 0).toNat - 1) by omega, hfan _ (by omega)]
    · rw [Nat.mul_comm]
      exact hfan _ (by omega)
    · intro k o hk
      have hiff := lt_fan_iff hsorted hk (h.h.getD 0 0).toNat
      have hiff' := lt_fan_iff hsorted hk ((h.h.getD 0 0).toNat - 1)
      omega

/-- Entries further on compare no lower. -/
theorem hashcmp_mono (hsorted : Sorted obj) (hsmall : obj.length < 2 ^ 27) (h : Hash) {npfx : ℕ} (hhigh : npfx ≤ 160)
    {i j : ℕ} (hij : i ≤ j) (hj : j < obj.length) :
    (hashcmp h.h (hashat (indexbody obj ph ++ t) i) npfx < 0 →
      hashcmp h.h (hashat (indexbody obj ph ++ t) j) npfx < 0) ∧
    (0 < hashcmp h.h (hashat (indexbody obj ph ++ t) j) npfx →
      0 < hashcmp h.h (hashat (indexbody obj ph ++ t) i) npfx) := by
  have ha : obj[i]? = some obj[i] := List.getElem?_eq_getElem (by omega)
  have hb : obj[j]? = some obj[j] := List.getElem?_eq_getElem hj
  have hle := Hash.bits_mono (sorted_le hsorted hij ha hb) npfx
  obtain ⟨hnega, hzeroa⟩ := hashcmp_spec h obj[i].hash hhigh
  obtain ⟨hnegb, hzerob⟩ := hashcmp_spec h obj[j].hash hhigh
  rw [hashat_index hsmall ha, hashat_index hsmall hb]
  omega

/-- What a search gives: an entry with the prefix, or no entry has it. -/
theorem searchindex_cases (hsorted : Sorted obj) (hoff : ∀ o ∈ obj, o.off < 2 ^ 62)
    (hsmall : obj.length < 2 ^ 27) (ht : t.length = 20) (h : Hash) {npfx : ℕ} (hlow : 8 ≤ npfx)
    (hhigh : npfx ≤ 160) :
    (∃ o ∈ obj, o.hash.bits npfx = h.bits npfx ∧ searchindex (indexbody obj ph ++ t)
      (indexbody obj ph ++ t).length h npfx = (↑o.off, some o.hash.h)) ∨
    ((∀ o ∈ obj, o.hash.bits npfx ≠ h.bits npfx) ∧ searchindex (indexbody obj ph ++ t)
      (indexbody obj ph ++ t).length h npfx = (-1, none)) := by
  have hlen : (indexbody obj ph ++ t).length = 1072 + 28 * obj.length + 8 * nbig obj := by
    rw [List.length_append, indexbody_length, ht]
    omega
  obtain ⟨lo, hi, hlo, hhi, hhile, hrange⟩ := @fan_range obj ph t hsorted hsmall h
  have hcmp : ∀ k o, obj[k]? = some o → hashcmp h.h (hashat (indexbody obj ph ++ t) k) npfx =
      hashcmp h.h o.hash.h npfx := by
    intro k o hk
    rw [hashat_index hsmall hk]
  have hmissing : (∀ k o, obj[k]? = some o → lo ≤ k → k < hi → o.hash.bits npfx ≠ h.bits npfx) →
      ∀ o ∈ obj, o.hash.bits npfx ≠ h.bits npfx := by
    intro hnone o ho heq
    obtain ⟨k, hk⟩ := List.mem_iff_getElem?.mp ho
    obtain ⟨hlok, hkhi⟩ := (hrange k o hk).mpr (Hash.bits_eq_of_bits_eq hlow hhigh heq)
    exact hnone k o hk hlok hkhi heq
  rw [searchindex, if_neg (by rw [hlen]; push_cast; omega), if_neg (by omega)]
  dsimp only
  rw [hlo, hhi, Int.toNat_natCast, searchloop_eq _ _ _ _ (by omega)]
  by_cases hempty : hi = lo
  · refine .inr ⟨hmissing fun k o _ hlok hkhi => by omega, ?_⟩
    rw [if_pos hempty]
  · rw [if_neg hempty]
    cases hb : bisect (fun k => hashcmp h.h (hashat (indexbody obj ph ++ t) k) npfx) hi lo hi with
    | none =>
      refine .inr ⟨hmissing fun k o hk hlok hkhi heq => ?_, rfl⟩
      refine bisect_missed (fun i j _ hij hj => hashcmp_mono hsorted hsmall h hhigh hij (by omega)) (by omega) hb k hlok
        hkhi ?_
      rw [hcmp k o hk]
      exact (hashcmp_spec h o.hash hhigh).2.mpr heq.symm
    | some k =>
      obtain ⟨-, hkhi, hzero⟩ := bisect_found hb
      have ho : obj[k]? = some obj[k] := List.getElem?_eq_getElem (by omega)
      have hmem := List.mem_of_getElem? ho
      have hnent : getbe32 ((indexbody obj ph ++ t).drop (8 + 255 * 4)) = obj.length := by
        rw [show 255 * 4 = 4 * 255 from rfl, index_fan (by decide), fan_last hsorted, Nat.mod_eq_of_lt (by omega)]
      refine .inl ⟨obj[k], hmem, ?_, ?_⟩
      · rw [hcmp k _ ho] at hzero
        exact ((hashcmp_spec h obj[k].hash hhigh).2.mp hzero).symm
      · rw [hnent]
        show (entryoff _ _ _ k, some (hashat _ k)) = _
        rw [entryoff_index hsmall ht ho (hoff _ hmem), hashat_index hsmall ho]

end Search

section Results

/-- The lookups in the index of a pack give what its objects say. -/
structure Agrees (sha1 : List UInt8 → Hash) (obj : List Packed) (ph : Hash) : Prop where
  present : ∀ o ∈ obj, (searchpack (indexpack sha1 obj ph) o.hash 160).1 = o.off
  absent : ∀ h, h ∉ obj.map (·.hash) → (searchpack (indexpack sha1 obj ph) h 160).1 = -1
  expand : ∀ (h : Hash) (npfx : ℕ), 8 ≤ npfx → npfx ≤ 160 →
    ((searchpack (indexpack sha1 obj ph) h npfx).1 ≠ -1 ↔ ∃ o ∈ obj, o.hash.bits npfx = h.bits npfx)
  hret : ∀ (h : Hash) (npfx : ℕ), 8 ≤ npfx → npfx ≤ 160 →
    (searchpack (indexpack sha1 obj ph) h npfx).1 ≠ -1 → ∃ o ∈ obj, o.hash.bits npfx = h.bits npfx ∧
      searchpack (indexpack sha1 obj ph) h npfx = (↑o.off, some o.hash.h)

variable {obj : List Packed}

/-- An index whose length fits an `int` is searched right. -/
theorem searchindex_indexpack (sha1 : List UInt8 → Hash) (ph : Hash)
    (hdistinct : (obj.map (·.hash)).Nodup) (hoff : ∀ o ∈ obj, o.off < 2 ^ 62)
    (hlen : (indexpack sha1 obj ph).length < 2 ^ 31) : Agrees sha1 obj ph := by
  have hperm := qsort_perm obj
  have hsmall : (qsort obj).length < 2 ^ 27 := by
    rw [indexpack_length] at hlen
    rw [hperm.length_eq]
    omega
  have hcases : ∀ (h : Hash) (npfx : ℕ), 8 ≤ npfx → npfx ≤ 160 →
      (∃ o ∈ obj, o.hash.bits npfx = h.bits npfx ∧
        searchpack (indexpack sha1 obj ph) h npfx = (↑o.off, some o.hash.h)) ∨
      ((∀ o ∈ obj, o.hash.bits npfx ≠ h.bits npfx) ∧
        searchpack (indexpack sha1 obj ph) h npfx = (-1, none)) := by
    intro h npfx hlow hhigh
    have hsearch := @searchindex_cases _ ph _ (qsort_sorted hdistinct)
      (fun o ho => hoff o (hperm.mem_iff.mp ho)) hsmall (sha1 (indexbody (qsort obj) ph)).len h npfx
      hlow hhigh
    rw [searchpack, wrap_of_range (by omega) (by omega)]
    simp only [hperm.mem_iff] at hsearch
    exact hsearch
  have hinj : ∀ a ∈ obj, ∀ b ∈ obj, a.hash.bits 160 = b.hash.bits 160 → a = b := by
    intro a ha b hb hab
    rw [Hash.bits_all, Hash.bits_all] at hab
    exact List.inj_on_of_nodup_map hdistinct ha hb (Hash.ext_val hab)
  refine ⟨?_, ?_, ?_, ?_⟩
  · intro o ho
    rcases hcases o.hash 160 (by omega) le_rfl with ⟨o', ho', hbits, hret⟩ | ⟨hnone, -⟩
    · rw [hinj o' ho' o ho hbits] at hret
      exact congrArg Prod.fst hret
    · exact absurd rfl (hnone o ho)
  · intro h hnot
    rcases hcases h 160 (by omega) le_rfl with ⟨o, ho, hbits, -⟩ | ⟨-, hret⟩
    · rw [Hash.bits_all, Hash.bits_all] at hbits
      exact absurd (List.mem_map.mpr ⟨o, ho, Hash.ext_val hbits⟩) hnot
    · exact congrArg Prod.fst hret
  · intro h npfx hlow hhigh
    rcases hcases h npfx hlow hhigh with ⟨o, ho, hbits, hret⟩ | ⟨hnone, hret⟩
    · rw [hret]
      exact ⟨fun _ => ⟨o, ho, hbits⟩, fun _ => by simp⟩
    · rw [hret]
      exact ⟨fun hne => absurd rfl hne, fun ⟨o, ho, hbits⟩ => absurd hbits (hnone o ho)⟩
  · intro h npfx hlow hhigh hne
    rcases hcases h npfx hlow hhigh with hfound | ⟨-, hret⟩
    · exact hfound
    · rw [hret] at hne
      exact absurd rfl hne

/-- Numbered objects, each a byte behind the other. -/
def numbered (i : ℕ) : Packed := ⟨⟨putbe32 i ++ List.replicate 16 0, rfl⟩, 0, 12 + i⟩

theorem numbered_inj {i j : ℕ} (hi : i < 2 ^ 32) (hj : j < 2 ^ 32)
    (h : (numbered i).hash = (numbered j).hash) : i = j := by
  have hbytes : putbe32 i ++ List.replicate 16 0 = putbe32 j ++ List.replicate 16 0 :=
    congrArg Hash.h h
  have hword := congrArg getbe32 hbytes
  rwa [getbe32_putbe32, getbe32_putbe32, Nat.mod_eq_of_lt hi, Nat.mod_eq_of_lt hj] at hword

theorem numbered_distinct {n : ℕ} (hn : n ≤ 2 ^ 32) :
    (((List.range n).map numbered).map (·.hash)).Nodup := by
  rw [List.map_map]
  refine List.Nodup.map_on ?_ List.nodup_range
  intro i hi j hj hij
  rw [List.mem_range] at hi hj
  exact numbered_inj (by omega) (by omega) hij

theorem searchindex_indexpack_pair :
    Agrees (fun _ => Zhash) ((List.range 2).map numbered) Zhash :=
  searchindex_indexpack _ _ (numbered_distinct (by decide)) (by decide) (by
    rw [indexpack_length]
    decide)

/-- Past `2^31` bytes the length turns negative, and nothing is found. -/
theorem searchpack_negative {idx : List UInt8} (hlow : 2 ^ 31 ≤ idx.length) (hhigh : idx.length < 2 ^ 32)
    (h : Hash) (npfx : ℤ) : searchpack idx h npfx = (-1, none) := by
  have hwrap : wrap idx.length = (idx.length : ℤ) - 2 ^ 32 := by
    rw [wrap, Int.bmod_def]
    omega
  rw [searchpack, searchindex, if_pos (by rw [hwrap]; omega)]

theorem huge_index_misses : (((List.range 80000000).map numbered).map (·.hash)).Nodup ∧
    (∀ o ∈ (List.range 80000000).map numbered, o.off < 2 ^ 62) ∧
    ¬ Agrees (fun _ => Zhash) ((List.range 80000000).map numbered) Zhash := by
  have hoffset : ∀ o ∈ (List.range 80000000).map numbered, o.off < 1 <<< 31 := by
    intro o ho
    obtain ⟨i, hi, rfl⟩ := List.mem_map.mp ho
    rw [List.mem_range] at hi
    show 12 + i < 2147483648
    omega
  refine ⟨numbered_distinct (by omega), fun o ho => ?_, fun hagrees => ?_⟩
  · have hlt := hoffset o ho
    have htwo : (1 : ℕ) <<< 31 = 2 ^ 31 := by decide
    omega
  · have hnone : nbig ((List.range 80000000).map numbered) = 0 := by
      rw [nbig, List.countP_eq_zero]
      intro o ho
      simpa using hoffset o ho
    have hlen := indexpack_length (fun _ => Zhash) ((List.range 80000000).map numbered) Zhash
    rw [hnone, List.length_map, List.length_range] at hlen
    have hmem : numbered 0 ∈ (List.range 80000000).map numbered :=
      List.mem_map.mpr ⟨0, List.mem_range.mpr (by omega), rfl⟩
    have hfound := hagrees.present _ hmem
    rw [searchpack_negative (by rw [hlen]; omega) (by rw [hlen]; omega)] at hfound
    exact absurd hfound (by decide)

end Results

end Petele.Git
