import Petele.Lib.LittleEndian
import Mathlib.Data.List.Basic
import Mathlib.Tactic.Common

namespace Petele.Libc

open Lib LittleEndian

def INVAL : ℕ := 255

/-- The decoding table of base 64. -/
def t64d : List ℕ :=
  List.replicate 43 INVAL ++ [62] ++ List.replicate 3 INVAL ++ [63] ++ List.range' 52 10 ++
    List.replicate 7 INVAL ++ List.range' 0 26 ++ List.replicate 6 INVAL ++ List.range' 26 26 ++
    List.replicate 133 INVAL

def t64e : List Char := "ABCDEFGHIJKLMNOPQRSTUVWXYZabcdefghijklmnopqrstuvwxyz0123456789+/".toList

/-- The character of six bits; the string ends with a zero. -/
def char64 (j : ℕ) : Char := t64e.getD j '\x00'

/-- The bytes decoded, with room for `lim` of them; `b24` holds the bits of the last `i` characters. -/
def dec64 : ℕ → ℕ → ℕ → List Char → List UInt8
  | lim, 2, b24, [] => if lim < 1 then [] else [UInt8.ofNat (b24 >>> 16)]
  | lim, 3, b24, [] =>
    if lim < 2 then [] else [UInt8.ofNat (b24 >>> 16), UInt8.ofNat (b24 >>> 8)]
  | _, _, _, [] => []
  | lim, i, b24, ch :: input =>
    let c := t64d.getD ch.toNat INVAL
    if c = INVAL then dec64 lim i b24 input
    else
      match i with
      | 0 => dec64 lim 1 (c <<< 18) input
      | 1 => dec64 lim 2 (b24 ||| c <<< 12) input
      | 2 => dec64 lim 3 (b24 ||| c <<< 6) input
      | _ =>
        if lim < 3 then []
        else
          let b24 := b24 ||| c
          UInt8.ofNat (b24 >>> 16) :: UInt8.ofNat (b24 >>> 8) :: UInt8.ofNat b24 ::
            dec64 (lim - 3) 0 b24 input

/-- The text, without the zero at its end, in a place for `lim` characters; it breaks off where the
place is too short. -/
def enc64 : ℕ → List UInt8 → List Char
  | lim, a :: b :: c :: input =>
    let b24 := a.toNat <<< 16 ||| b.toNat <<< 8 ||| c.toNat
    if lim ≤ 4 then []
    else
      char64 (b24 >>> 18) :: char64 ((b24 >>> 12) &&& 0x3f) :: char64 ((b24 >>> 6) &&& 0x3f) ::
        char64 (b24 &&& 0x3f) :: enc64 (lim - 4) input
  | lim, [a, b] =>
    let b24 := a.toNat <<< 16 ||| b.toNat <<< 8
    if lim ≤ 4 then []
    else
      [char64 (b24 >>> 18), char64 ((b24 >>> 12) &&& 0x3f), char64 ((b24 >>> 6) &&& 0x3f), '=']
  | lim, [a] =>
    let b24 := a.toNat <<< 16
    if lim ≤ 4 then [] else [char64 (b24 >>> 18), char64 ((b24 >>> 12) &&& 0x3f), '=', '=']
  | _, [] => []

/-- The text of `enc64` in a place long enough, but for the padding. -/
def quads : List UInt8 → List Char
  | a :: b :: c :: input =>
    let b24 := a.toNat <<< 16 ||| b.toNat <<< 8 ||| c.toNat
    char64 (b24 >>> 18) :: char64 ((b24 >>> 12) &&& 0x3f) :: char64 ((b24 >>> 6) &&& 0x3f) ::
      char64 (b24 &&& 0x3f) :: quads input
  | [a, b] =>
    let b24 := a.toNat <<< 16 ||| b.toNat <<< 8
    [char64 (b24 >>> 18), char64 ((b24 >>> 12) &&& 0x3f), char64 ((b24 >>> 6) &&& 0x3f)]
  | [a] =>
    let b24 := a.toNat <<< 16
    [char64 (b24 >>> 18), char64 ((b24 >>> 12) &&& 0x3f)]
  | [] => []

/-- Induction over three bytes at a time. -/
theorem quads_induction {P : List UInt8 → Prop} (more : ∀ a b c input, P input → P (a :: b :: c :: input)) (two : ∀ a b, P [a, b])
    (one : ∀ a, P [a]) (nil : P []) : ∀ bs, P bs
  | a :: b :: c :: input => more a b c input (quads_induction more two one nil input)
  | [a, b] => two a b
  | [a] => one a
  | [] => nil

section Bits

/-- Bits taken out of a number, put back below those above them. -/
theorem or_bits (v i k : ℕ) :
    (v >>> (i + k)) <<< (i + k) ||| ((v >>> i) &&& (2 ^ k - 1)) <<< i = (v >>> i) <<< i := by
  have hsplit := Nat.div_add_mod (v >>> i) (2 ^ k)
  have hlt := Nat.mod_lt (v >>> i) (Nat.two_pow_pos k)
  rw [Nat.and_two_pow_sub_one_eq_mod, Nat.or_comm]
  have hpos : (v >>> i % 2 ^ k) <<< i < 2 ^ (i + k) := by
    rw [Nat.shiftLeft_eq, Nat.pow_add, Nat.mul_comm (2 ^ i)]
    exact Nat.mul_lt_mul_of_pos_right hlt (Nat.two_pow_pos i)
  rw [or_shiftLeft hpos, Nat.shiftLeft_eq, Nat.shiftLeft_eq, Nat.shiftRight_add,
    Nat.shiftRight_eq_div_pow (v >>> i) k, Nat.pow_add]
  calc v >>> i % 2 ^ k * 2 ^ i + 2 ^ i * 2 ^ k * (v >>> i / 2 ^ k)
      = (2 ^ k * (v >>> i / 2 ^ k) + v >>> i % 2 ^ k) * 2 ^ i := by ring
    _ = v >>> i * 2 ^ i := by rw [hsplit]

theorem and_lt (v : ℕ) : v &&& 0x3f < 64 := by
  rw [show (0x3f : ℕ) = 2 ^ 6 - 1 from rfl, Nat.and_two_pow_sub_one_eq_mod]
  exact Nat.mod_lt _ (by decide)

theorem b24_eq (a b c : UInt8) : a.toNat <<< 16 ||| b.toNat <<< 8 ||| c.toNat =
    a.toNat * 65536 + b.toNat * 256 + c.toNat := by
  have hb := b.toNat_lt
  have hc := c.toNat_lt
  have hlow : b.toNat <<< 8 ||| c.toNat = c.toNat + 2 ^ 8 * b.toNat := by
    rw [Nat.or_comm, or_shiftLeft hc]
  rw [Nat.or_assoc, hlow, Nat.or_comm, or_shiftLeft (by omega)]
  omega

end Bits

section Round

attribute [local simp] quads enc64 dec64

theorem t64d_char64 : ∀ j < 64, t64d.getD (char64 j).toNat INVAL = j := by
  decide +kernel

variable {lim b24 j v : ℕ} (input : List Char)

theorem dec64_cons (lim i b24 : ℕ) (ch : Char) :
    dec64 lim i b24 (ch :: input) =
      if t64d.getD ch.toNat INVAL = INVAL then dec64 lim i b24 input
      else
        match i with
        | 0 => dec64 lim 1 (t64d.getD ch.toNat INVAL <<< 18) input
        | 1 => dec64 lim 2 (b24 ||| t64d.getD ch.toNat INVAL <<< 12) input
        | 2 => dec64 lim 3 (b24 ||| t64d.getD ch.toNat INVAL <<< 6) input
        | _ =>
          if lim < 3 then []
          else
            UInt8.ofNat ((b24 ||| t64d.getD ch.toNat INVAL) >>> 16) :: UInt8.ofNat ((b24 ||| t64d.getD ch.toNat INVAL) >>> 8) ::
              UInt8.ofNat (b24 ||| t64d.getD ch.toNat INVAL) :: dec64 (lim - 3) 0 (b24 ||| t64d.getD ch.toNat INVAL) input := by
  rcases i with _ | _ | _ | i
  all_goals rw [dec64]
  all_goals first | rfl | omega

theorem dec64_zero (hj : j < 64) :
    dec64 lim 0 b24 (char64 j :: input) = dec64 lim 1 (j <<< 18) input := by
  rw [dec64_cons, t64d_char64 j hj, if_neg (by rw [INVAL]; omega)]
  rfl

theorem dec64_one (hj : j < 64) :
    dec64 lim 1 b24 (char64 j :: input) = dec64 lim 2 (b24 ||| j <<< 12) input := by
  rw [dec64_cons, t64d_char64 j hj, if_neg (by rw [INVAL]; omega)]
  rfl

theorem dec64_two (hj : j < 64) :
    dec64 lim 2 b24 (char64 j :: input) = dec64 lim 3 (b24 ||| j <<< 6) input := by
  rw [dec64_cons, t64d_char64 j hj, if_neg (by rw [INVAL]; omega)]
  rfl

theorem dec64_three (hj : j < 64) (hlim : 3 ≤ lim) :
    dec64 lim 3 b24 (char64 j :: input) =
      UInt8.ofNat ((b24 ||| j) >>> 16) :: UInt8.ofNat ((b24 ||| j) >>> 8) :: UInt8.ofNat (b24 ||| j) ::
        dec64 (lim - 3) 0 (b24 ||| j) input := by
  rw [dec64_cons, t64d_char64 j hj, if_neg (by rw [INVAL]; omega)]
  exact if_neg (by omega)

/-- Two characters hold the bits of `v` from the twelfth on. -/
theorem dec64_pair (hv : v < 2 ^ 24) :
    dec64 lim 0 b24 (char64 (v >>> 18) :: char64 ((v >>> 12) &&& 0x3f) :: input) =
      dec64 lim 2 ((v >>> 12) <<< 12) input := by
  have hhigh : v >>> 18 < 64 := by
    rw [Nat.shiftRight_eq_div_pow]
    omega
  have hjoin : (v >>> 18) <<< 18 ||| ((v >>> 12) &&& 0x3f) <<< 12 = (v >>> 12) <<< 12 := or_bits v 12 6
  rw [dec64_zero _ hhigh, dec64_one _ (and_lt _), hjoin]

theorem dec64_triple (hv : v < 2 ^ 24) :
    dec64 lim 0 b24 (char64 (v >>> 18) :: char64 ((v >>> 12) &&& 0x3f) ::
      char64 ((v >>> 6) &&& 0x3f) :: input) = dec64 lim 3 ((v >>> 6) <<< 6) input := by
  have hjoin : (v >>> 12) <<< 12 ||| ((v >>> 6) &&& 0x3f) <<< 6 = (v >>> 6) <<< 6 := or_bits v 6 6
  rw [dec64_pair _ hv, dec64_two _ (and_lt _), hjoin]

theorem dec64_quad (hv : v < 2 ^ 24) (hlim : 3 ≤ lim) :
    dec64 lim 0 b24 (char64 (v >>> 18) :: char64 ((v >>> 12) &&& 0x3f) ::
      char64 ((v >>> 6) &&& 0x3f) :: char64 (v &&& 0x3f) :: input) =
        UInt8.ofNat (v >>> 16) :: UInt8.ofNat (v >>> 8) :: UInt8.ofNat v ::
          dec64 (lim - 3) 0 v input := by
  have hjoin : (v >>> 6) <<< 6 ||| v &&& 0x3f = v := or_bits v 0 6
  rw [dec64_triple _ hv, dec64_three _ (and_lt _) hlim, hjoin]

/-- What `enc64` makes of bytes decodes to them again. -/
theorem dec64_quads (bs : List UInt8) (h : bs.length ≤ lim) : dec64 lim 0 b24 (quads bs) = bs := by
  induction bs using quads_induction generalizing lim b24 with
  | more a b c input ih =>
    have ha := a.toNat_lt
    have hb := b.toNat_lt
    have hc := c.toNat_lt
    rw [List.length_cons, List.length_cons, List.length_cons] at h
    rw [quads, b24_eq, dec64_quad _ (by omega) (by omega), ih (by omega)]
    simp only [Nat.shiftRight_eq_div_pow, List.cons.injEq, ← UInt8.toNat_inj, UInt8.toNat_ofNat',
      and_true]
    omega
  | two a b =>
    have ha := a.toNat_lt
    have hb := b.toNat_lt
    have hv : a.toNat <<< 16 ||| b.toNat <<< 8 = a.toNat * 65536 + b.toNat * 256 := by
      simpa using b24_eq a b 0
    rw [List.length_cons, List.length_singleton] at h
    rw [quads, hv, dec64_triple _ (by omega), dec64, if_neg (by omega)]
    simp only [Nat.shiftRight_eq_div_pow, Nat.shiftLeft_eq, List.cons.injEq, ← UInt8.toNat_inj,
      UInt8.toNat_ofNat', and_true]
    omega
  | one a =>
    have ha := a.toNat_lt
    rw [List.length_singleton] at h
    rw [quads, dec64_pair _ (by rw [Nat.shiftLeft_eq]; omega), dec64, if_neg (by omega)]
    simp only [Nat.shiftRight_eq_div_pow, Nat.shiftLeft_eq, List.cons.injEq, ← UInt8.toNat_inj,
      UInt8.toNat_ofNat', and_true]
    omega
  | nil => rfl

/-- The text of `enc64` in a place long enough. -/
theorem enc64_quads (bs : List UInt8) (h : 4 * ((bs.length + 2) / 3) < lim) :
    ∃ k, enc64 lim bs = quads bs ++ List.replicate k '=' := by
  induction bs using quads_induction generalizing lim with
  | more a b c input ih =>
    rw [List.length_cons, List.length_cons, List.length_cons] at h
    obtain ⟨k, hk⟩ : ∃ k, enc64 (lim - 4) input = _ := ih (by omega)
    refine ⟨k, ?_⟩
    rw [enc64, if_neg (by omega), hk, quads]
    rfl
  | two a b =>
    rw [List.length_cons, List.length_singleton] at h
    refine ⟨1, ?_⟩
    rw [enc64, if_neg (by omega), quads]
    rfl
  | one a =>
    rw [List.length_singleton] at h
    refine ⟨2, ?_⟩
    rw [enc64, if_neg (by omega), quads]
    rfl
  | nil => exact ⟨0, rfl⟩

theorem quads_length (bs : List UInt8) : bs.length ≤ (quads bs).length := by
  induction bs using quads_induction with
  | more a b c input ih =>
    rw [quads]
    simp only [List.length_cons]
    omega
  | two a b => simp [quads]
  | one a => simp [quads]
  | nil => simp

theorem mem_quads (bs : List UInt8) : ∀ ch ∈ quads bs, ∃ j < 64, ch = char64 j := by
  have hhigh : ∀ a : UInt8, ∀ l < 65536, (a.toNat * 65536 + l) >>> 18 < 64 := fun a l hl => by
    have ha := a.toNat_lt
    rw [Nat.shiftRight_eq_div_pow]
    omega
  induction bs using quads_induction with
  | more a b c input ih =>
    have hb := b.toNat_lt
    have hc := c.toNat_lt
    rw [quads, b24_eq, Nat.add_assoc]
    simp only [List.forall_mem_cons]
    exact ⟨⟨_, hhigh a _ (by omega), rfl⟩, ⟨_, and_lt _, rfl⟩, ⟨_, and_lt _, rfl⟩,
      ⟨_, and_lt _, rfl⟩, ih⟩
  | two a b =>
    have hb := b.toNat_lt
    have hv : a.toNat <<< 16 ||| b.toNat <<< 8 = a.toNat * 65536 + b.toNat * 256 := by
      simpa using b24_eq a b 0
    rw [quads, hv]
    simp only [List.forall_mem_cons]
    exact ⟨⟨_, hhigh a _ (by omega), rfl⟩, ⟨_, and_lt _, rfl⟩, ⟨_, and_lt _, rfl⟩, by simp⟩
  | one a =>
    have hv : a.toNat <<< 16 = a.toNat * 65536 + 0 := by
      rw [Nat.shiftLeft_eq, Nat.add_zero]
    rw [quads, hv]
    simp only [List.forall_mem_cons]
    exact ⟨⟨_, hhigh a 0 (by omega), rfl⟩, ⟨_, and_lt _, rfl⟩, by simp⟩
  | nil => simp [quads]

end Round

end Petele.Libc
