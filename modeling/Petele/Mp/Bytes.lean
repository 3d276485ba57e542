import Petele.Lib.BigEndian
import Petele.Mp.Mpint

namespace Petele.Mp

open Lib Limbs LittleEndian BigEndian

/-- The bytes of the digits, least significant first, as `mptober` goes through them. -/
def lowbytes : Vec → ℕ → List UInt8
  | [], _ => []
  | x :: p, n => if 4 ≤ n then leBytes 4 x.toNat ++ lowbytes p (n - 4) else leBytes n x.toNat

def mptober (b : Mpint) (n : ℕ) : List UInt8 :=
  let m := min n (b.top * 4)
  List.replicate (n - m) 0 ++ (lowbytes b.p m).reverse

/-- The number of bytes that `mptobe` writes. -/
def nbytes (b : Mpint) : ℕ :=
  let m := (mpsignif b + 7) / 8
  if m = 0 then 1 else m

/-- The array with the bytes and their number: a new array, or one of `n` bytes if it is long
enough. -/
def mptobe (b : Mpint) : Option ℕ → Option (List UInt8 × ℕ)
  | none => some (mptober b (nbytes b), nbytes b)
  | some n =>
    if n < nbytes b then none
    else some (mptober b (nbytes b) ++ List.replicate (n - nbytes b) 0, nbytes b)

/-- The loop of `betomp`: the next byte goes to bit `s` of the digit `x`, and the digits above it are
done. -/
def beloop : ℕ → UInt32 → List UInt8 → Vec → Vec
  | _, _, [], d => d
  | s, x, c :: p, d =>
    let x := x ||| UInt32.ofNat c.toNat <<< UInt32.ofNat s
    if s < 8 then beloop 24 0 p (x :: d) else beloop (s - 8) x p d

def betomp (p : List UInt8) : Mpint := mpnorm 1 (beloop ((p.length - 1) * 8 % 32) 0 p [])

section ToBytes

theorem lowbytes_spec (p : Vec) {n : ℕ} (h : n ≤ p.length * 4) :
    (lowbytes p n).length = n ∧ leVal (lowbytes p n) = val p % 256 ^ n := by
  induction p generalizing n with
  | nil =>
    rw [List.length_nil, Nat.zero_mul, Nat.le_zero] at h
    simp [lowbytes, leVal, h]
  | cons x p ih =>
    have hx := x.toNat_lt
    rw [List.length_cons] at h
    rw [lowbytes]
    by_cases hn : 4 ≤ n
    · obtain ⟨hlen, hval⟩ := ih (n := n - 4) (by omega)
      have hpow : 256 ^ n = 2 ^ 32 * 256 ^ (n - 4) := by
        rw [show (2 : ℕ) ^ 32 = 256 ^ 4 from rfl, ← Nat.pow_add, Nat.add_sub_cancel' hn]
      have hlow : (x.toNat + 2 ^ 32 * val p) % 2 ^ 32 = x.toNat % 256 ^ 4 := by omega
      have hhigh : (x.toNat + 2 ^ 32 * val p) / 2 ^ 32 = val p := by omega
      rw [if_pos hn, List.length_append, hlen, leBytes_length, leVal_append, hval, leVal_leBytes,
        leBytes_length, val_cons, hpow, Nat.mod_mul, hlow, hhigh]
      exact ⟨Nat.add_sub_cancel' hn, rfl⟩
    · have hdvd : 256 ^ n ∣ 2 ^ 32 := by
        rw [show (2 : ℕ) ^ 32 = 256 ^ 4 from rfl]
        exact pow_dvd_pow 256 (by omega)
      obtain ⟨k, hk⟩ := hdvd
      rw [if_neg hn, leBytes_length, leVal_leBytes, val_cons, hk, Nat.mul_assoc,
        Nat.add_mul_mod_self_left]
      exact ⟨rfl, rfl⟩

theorem nbytes_pos (b : Mpint) : 0 < nbytes b := by
  unfold nbytes
  dsimp only
  split
  all_goals omega

variable {b : Mpint}

/-- The bytes of a number that is not zero: as many as it needs. -/
theorem nbytes_spec (h : b.p ≠ []) :
    256 ^ (nbytes b - 1) ≤ val b.p ∧ val b.p < 256 ^ nbytes b ∧ nbytes b ≤ b.top * 4 := by
  obtain ⟨hpos, hlow, hhigh⟩ := mpsignif_spec h
  have hn : nbytes b = (mpsignif b + 7) / 8 := if_neg (by omega)
  have hbyte : ∀ n, (256 : ℕ) ^ n = 2 ^ (8 * n) := fun n => by
    rw [show (256 : ℕ) = 2 ^ 8 from rfl, ← Nat.pow_mul]
  have hpow : 256 ^ (nbytes b - 1) * 2 ≤ 2 ^ mpsignif b := by
    rw [hbyte, ← Nat.pow_succ]
    exact Nat.pow_le_pow_right (by decide) (by omega)
  refine ⟨by omega, ?_, ?_⟩
  · rw [hbyte]
    exact hhigh.trans_le (Nat.pow_le_pow_right (by decide) (by omega))
  · have hlt : 2 ^ (mpsignif b - 1) < 2 ^ (32 * b.top) := by
      have hval := val_lt b.p
      rw [radix_pow] at hval
      have hsucc : 2 ^ mpsignif b = 2 ^ (mpsignif b - 1) * 2 := by
        rw [← Nat.pow_succ, Nat.succ_eq_add_one, Nat.sub_add_cancel hpos]
      rw [Mpint.top]
      omega
    rw [Nat.pow_lt_pow_iff_right (by decide)] at hlt
    omega

theorem nbytes_zero (h : b.p = []) : nbytes b = 1 := by
  have hsignif : mpsignif b = 0 := by
    rw [mpsignif, h]
    rfl
  rw [nbytes, hsignif]
  rfl

/-- The bytes that `mptobe` writes. -/
theorem mptober_spec (b : Mpint) :
    (mptober b (nbytes b)).length = nbytes b ∧ beVal (mptober b (nbytes b)) = val b.p := by
  obtain ⟨hlen, hval⟩ := lowbytes_spec b.p (Nat.min_le_right (nbytes b) (b.top * 4))
  have hlt : val b.p < 256 ^ min (nbytes b) (b.top * 4) := by
    by_cases hnil : b.p = []
    · rw [hnil]
      exact Nat.pow_pos (by decide)
    · obtain ⟨-, hhigh, hle⟩ := nbytes_spec hnil
      rwa [Nat.min_eq_left hle]
  unfold mptober
  dsimp only
  rw [List.length_append, List.length_replicate, List.length_reverse, hlen, beVal_append,
    beVal_zeros, beVal_reverse, hval, Nat.mod_eq_of_lt hlt, Nat.zero_mul, Nat.zero_add]
  exact ⟨Nat.sub_add_cancel (Nat.min_le_left _ _), rfl⟩

end ToBytes

section FromBytes

/-- A byte put into a digit at bit `s`. -/
theorem put_byte (x : UInt32) (c : UInt8) {s : ℕ} (hs : s ≤ 24) (hx : 2 ^ (s + 8) ∣ x.toNat) :
    (x ||| UInt32.ofNat c.toNat <<< UInt32.ofNat s).toNat = x.toNat + c.toNat * 2 ^ s := by
  have hc := c.toNat_lt
  have hbyte : (UInt32.ofNat c.toNat).toNat = c.toNat := by
    rw [UInt32.toNat_ofNat', Nat.mod_eq_of_lt (by omega)]
  have hsmall : c.toNat < 2 ^ (32 - s) :=
    hc.trans_le (Nat.pow_le_pow_right (n := 2) (i := 8) (by decide) (by omega))
  have hlt : c.toNat * 2 ^ s < 2 ^ (s + 8) := by
    rw [Nat.pow_add, Nat.mul_comm]
    exact Nat.mul_lt_mul_of_pos_left hc (Nat.two_pow_pos s)
  obtain ⟨k, hk⟩ := hx
  rw [UInt32.toNat_or, toNat_shl _ (by omega), hbyte, Nat.mod_eq_of_lt hsmall, hk, Nat.mul_comm,
    ← Nat.shiftLeft_eq, ← Nat.shiftLeft_add_eq_or_of_lt hlt]

/-- The loop of `betomp`, with the bytes to come in step with the place of the next one. -/
theorem beloop_val (c : UInt8) (p : List UInt8) (s : ℕ) (x : UInt32) (d : Vec)
    (hs : s = p.length % 4 * 8) (hx : 2 ^ (s + 8) ∣ x.toNat) :
    val (beloop s x (c :: p) d) =
      beVal (c :: p) + (2 ^ 32) ^ (p.length / 4) * (x.toNat + 2 ^ 32 * val d) := by
  induction p generalizing c s x d with
  | nil =>
    have hput := put_byte x c (by omega) hx
    rw [List.length_nil] at hs
    rw [beloop, if_pos (by omega), beloop, val_cons, hput, hs]
    simp only [beVal, List.length_nil, Nat.pow_zero]
    ring
  | cons e p ih =>
    have hput := put_byte x c (by omega) hx
    rw [List.length_cons] at hs
    rw [beloop, beVal, List.length_cons]
    -- the byte stands `4 * q + s / 8` bytes above the last one
    have hbyte : 256 ^ (p.length + 1) = (2 ^ 32) ^ ((p.length + 1) / 4) * 2 ^ s := by
      rw [hs, show (256 : ℕ) = 2 ^ 8 from rfl, ← Nat.pow_mul, ← Nat.pow_mul, ← Nat.pow_add]
      congr 1
      omega
    by_cases hfull : s < 8
    · have hzero : s = 0 := by omega
      have hnext : (p.length + 1) / 4 = p.length / 4 + 1 := by omega
      rw [if_pos hfull, ih e 24 0 _ (by omega) (by simp), val_cons, hput, hbyte, hnext, hzero,
        Nat.pow_succ, UInt32.toNat_zero]
      ring
    · have hsame : (p.length + 1) / 4 = p.length / 4 := by omega
      have hdvd : 2 ^ (s - 8 + 8) ∣ x.toNat + c.toNat * 2 ^ s := by
        rw [Nat.sub_add_cancel (by omega)]
        exact Nat.dvd_add (dvd_trans (pow_dvd_pow 2 (by omega)) hx) (Nat.dvd_mul_left _ _)
      rw [if_neg hfull, ih e (s - 8) _ d (by omega) (hput ▸ hdvd), hput, hbyte, hsame]
      ring

theorem betomp_toInt {p : List UInt8} (h : p ≠ []) : (betomp p).toInt = beVal p := by
  obtain ⟨c, p, rfl⟩ := List.exists_cons_of_ne_nil h
  rw [betomp, mpnorm_toInt, List.length_cons, Nat.add_sub_cancel,
    beloop_val c p _ 0 [] (by omega) (by simp)]
  simp

end FromBytes

end Petele.Mp
