import Petele.Libc.U64

namespace Petele.Libc

open Lib LittleEndian

def tab32 : List Char := "23456789abcdefghijkmnpqrstuvwxyz".toList

/-- The character of five bits; the string ends with a zero. -/
def char32 (j : ℕ) : Char := tab32.getD j '\x00'

/-- The place of a character in the table as `strchr` finds it, the zero at the end included; 0 for
other characters. -/
def index32 (ch : Char) : ℕ :=
  let i := (tab32 ++ ['\x00']).idxOf ch
  if i < 33 then i else 0

/-- Eight characters hold five bytes. -/
def unpack (u0 u1 u2 u3 u4 u5 u6 u7 : ℕ) : List UInt8 :=
  [UInt8.ofNat (u0 <<< 3 ||| (0x7 &&& (u1 >>> 2))),
    UInt8.ofNat ((0x3 &&& u1) <<< 6 ||| u2 <<< 1 ||| (0x1 &&& (u3 >>> 4))),
    UInt8.ofNat ((0xf &&& u3) <<< 4 ||| (0xf &&& (u4 >>> 1))),
    UInt8.ofNat ((0x1 &&& u4) <<< 7 ||| u5 <<< 2 ||| (0x3 &&& (u6 >>> 3))),
    UInt8.ofNat ((0x7 &&& u6) <<< 5 ||| u7)]

/-- The loop of `dec32` and what it does with the characters after the last eight: the bytes stored,
and whether their number is returned and not -1. -/
def dec32loop : List Char → List UInt8 × Bool
  | c0 :: c1 :: c2 :: c3 :: c4 :: c5 :: c6 :: c7 :: src =>
    let r := dec32loop src
    (unpack (index32 c0) (index32 c1) (index32 c2) (index32 c3) (index32 c4) (index32 c5)
      (index32 c6) (index32 c7) ++ r.1, r.2)
  | [c0, c1, c2, c3, c4, c5, c6] => ((unpack (index32 c0) (index32 c1) (index32 c2)
      (index32 c3) (index32 c4) (index32 c5) (index32 c6) 0).take 4, true)
  | [_, _, _, _, _, _] => ([], false)
  | [c0, c1, c2, c3, c4] => ((unpack (index32 c0) (index32 c1) (index32 c2) (index32 c3)
      (index32 c4) 0 0 0).take 3, true)
  | [c0, c1, c2, c3] => ((unpack (index32 c0) (index32 c1) (index32 c2) (index32 c3) 0 0 0
      0).take 2, true)
  | [_, _, _] => ([], false)
  | [c0, c1] => ((unpack (index32 c0) (index32 c1) 0 0 0 0 0 0).take 1, true)
  | [_] => ([], false)
  | [] => ([], true)

def dec32 (ndest : ℕ) (src : List Char) : List UInt8 × Bool :=
  if ndest + 1 < (5 * src.length + 7) / 8 then ([], false) else dec32loop src

/-- The loop of `enc32` and what it does with the bytes after the last five. -/
def enc32loop : List UInt8 → List Char
  | a :: b :: c :: d :: e :: src =>
    char32 (0x1f &&& (a.toNat >>> 3)) ::
    char32 ((0x1c &&& (a.toNat <<< 2)) ||| (0x03 &&& (b.toNat >>> 6))) ::
    char32 (0x1f &&& (b.toNat >>> 1)) ::
    char32 ((0x10 &&& (b.toNat <<< 4)) ||| (0x0f &&& (c.toNat >>> 4))) ::
    char32 ((0x1e &&& (c.toNat <<< 1)) ||| (0x01 &&& (d.toNat >>> 7))) ::
    char32 (0x1f &&& (d.toNat >>> 2)) ::
    char32 ((0x18 &&& (d.toNat <<< 3)) ||| (0x07 &&& (e.toNat >>> 5))) ::
    char32 (0x1f &&& e.toNat) :: enc32loop src
  | [a, b, c, _] =>
    [char32 (0x1f &&& (a.toNat >>> 3)),
      char32 ((0x1c &&& (a.toNat <<< 2)) ||| (0x03 &&& (b.toNat >>> 6))),
      char32 (0x1f &&& (b.toNat >>> 1)),
      char32 ((0x10 &&& (b.toNat <<< 4)) ||| (0x0f &&& (c.toNat >>> 4))),
      char32 (0x1e &&& (c.toNat <<< 1))]
  | [a, b, _] =>
    [char32 (0x1f &&& (a.toNat >>> 3)),
      char32 ((0x1c &&& (a.toNat <<< 2)) ||| (0x03 &&& (b.toNat >>> 6))),
      char32 (0x1f &&& (b.toNat >>> 1)), char32 (0x10 &&& (b.toNat <<< 4))]
  | [a, b] =>
    [char32 (0x1f &&& (a.toNat >>> 3)),
      char32 ((0x1c &&& (a.toNat <<< 2)) ||| (0x03 &&& (b.toNat >>> 6))),
      char32 (0x1f &&& (b.toNat >>> 1))]
  | [a] => [char32 (0x1f &&& (a.toNat >>> 3)), char32 (0x1c &&& (a.toNat <<< 2))]
  | [] => []

/-- The text, without the zero at its end; nothing where `enc32` returns -1. -/
def enc32 (ndest : ℕ) (src : List UInt8) : Option (List Char) :=
  if ndest ≤ (8 * src.length + 4) / 5 then none else some (enc32loop src)

section Bits

variable (x y i k t : ℕ)

theorem and_shr : (2 ^ k - 1) &&& (x >>> t) = x / 2 ^ t % 2 ^ k := by
  rw [Nat.and_comm, Nat.and_two_pow_sub_one_eq_mod, Nat.shiftRight_eq_div_pow]

/-- High bits next to low ones. -/
theorem or_low {x y i : ℕ} (h : y < 2 ^ i) : x <<< i ||| y = x * 2 ^ i + y := by
  rw [Nat.or_comm, or_shiftLeft h]
  ring

theorem or_shr : x <<< i ||| ((2 ^ i - 1) &&& (y >>> t)) = x * 2 ^ i + y / 2 ^ t % 2 ^ i := by
  rw [and_shr, or_low (Nat.mod_lt _ (Nat.two_pow_pos i))]

theorem or_masked : ((2 ^ k - 1) <<< i &&& x <<< i) ||| ((2 ^ i - 1) &&& (y >>> t)) =
    x % 2 ^ k * 2 ^ i + y / 2 ^ t % 2 ^ i := by
  have hmask := and_shr x k 0
  rw [Nat.shiftRight_zero, Nat.pow_zero, Nat.div_one] at hmask
  rw [← Nat.shiftLeft_and_distrib, hmask, or_shr]

/-- The bits of five bytes, five at a time. -/
def fives (a b c d e : ℕ) : List ℕ :=
  [a / 8 % 32, a % 8 * 4 + b / 64 % 4, b / 2 % 32, b % 2 * 16 + c / 16 % 16,
    c % 16 * 2 + d / 128 % 2, d / 4 % 32, d % 4 * 8 + e / 32 % 8, e % 32]

theorem enc32loop_cons (a b c d e : UInt8) (src : List UInt8) :
    enc32loop (a :: b :: c :: d :: e :: src) =
      (fives a.toNat b.toNat c.toNat d.toNat e.toNat).map char32 ++ enc32loop src := by
  have h0 : 0x1f &&& (a.toNat >>> 3) = a.toNat / 8 % 32 := and_shr _ 5 3
  have h1 : (0x1c &&& (a.toNat <<< 2)) ||| (0x03 &&& (b.toNat >>> 6)) =
      a.toNat % 8 * 4 + b.toNat / 64 % 4 := or_masked _ _ 2 3 6
  have h2 : 0x1f &&& (b.toNat >>> 1) = b.toNat / 2 % 32 := and_shr _ 5 1
  have h3 : (0x10 &&& (b.toNat <<< 4)) ||| (0x0f &&& (c.toNat >>> 4)) =
      b.toNat % 2 * 16 + c.toNat / 16 % 16 := or_masked _ _ 4 1 4
  have h4 : (0x1e &&& (c.toNat <<< 1)) ||| (0x01 &&& (d.toNat >>> 7)) =
      c.toNat % 16 * 2 + d.toNat / 128 % 2 := or_masked _ _ 1 4 7
  have h5 : 0x1f &&& (d.toNat >>> 2) = d.toNat / 4 % 32 := and_shr _ 5 2
  have h6 : (0x18 &&& (d.toNat <<< 3)) ||| (0x07 &&& (e.toNat >>> 5)) =
      d.toNat % 4 * 8 + e.toNat / 32 % 8 := or_masked _ _ 3 2 5
  have h7 : 0x1f &&& e.toNat = e.toNat % 32 := by
    have h := and_shr e.toNat 5 0
    rwa [Nat.shiftRight_zero, Nat.pow_zero, Nat.div_one] at h
  rw [enc32loop, h0, h1, h2, h3, h4, h5, h6, h7]
  rfl

theorem unpack_eq {u0 u1 u2 u3 u4 u5 u6 u7 : ℕ} (h2 : u2 < 32) (h5 : u5 < 32) (h7 : u7 < 32) :
    unpack u0 u1 u2 u3 u4 u5 u6 u7 = [UInt8.ofNat (u0 * 8 + u1 / 4 % 8),
      UInt8.ofNat (u1 % 4 * 64 + (u2 * 2 + u3 / 16 % 2)), UInt8.ofNat (u3 % 16 * 16 + u4 / 2 % 16),
      UInt8.ofNat (u4 % 2 * 128 + (u5 * 4 + u6 / 8 % 4)), UInt8.ofNat (u6 % 8 * 32 + u7)] := by
  have hmask : ∀ x k : ℕ, (2 ^ k - 1) &&& x = x % 2 ^ k := fun x k => by
    rw [Nat.and_comm, Nat.and_two_pow_sub_one_eq_mod]
  have e0 : u0 <<< 3 ||| (0x7 &&& (u1 >>> 2)) = u0 * 8 + u1 / 4 % 8 := or_shr u0 u1 3 2
  have e1 : (0x3 &&& u1) <<< 6 ||| u2 <<< 1 ||| (0x1 &&& (u3 >>> 4)) =
      u1 % 4 * 64 + (u2 * 2 + u3 / 16 % 2) := by
    have hlow : u2 <<< 1 ||| (0x1 &&& (u3 >>> 4)) = u2 * 2 + u3 / 16 % 2 := or_shr u2 u3 1 4
    have hhigh : 0x3 &&& u1 = u1 % 4 := hmask u1 2
    rw [Nat.or_assoc, hlow, hhigh]
    exact or_low (i := 6) (by omega)
  have e2 : (0xf &&& u3) <<< 4 ||| (0xf &&& (u4 >>> 1)) = u3 % 16 * 16 + u4 / 2 % 16 := by
    have hhigh : 0xf &&& u3 = u3 % 16 := hmask u3 4
    rw [hhigh]
    exact or_shr (u3 % 16) u4 4 1
  have e3 : (0x1 &&& u4) <<< 7 ||| u5 <<< 2 ||| (0x3 &&& (u6 >>> 3)) =
      u4 % 2 * 128 + (u5 * 4 + u6 / 8 % 4) := by
    have hlow : u5 <<< 2 ||| (0x3 &&& (u6 >>> 3)) = u5 * 4 + u6 / 8 % 4 := or_shr u5 u6 2 3
    have hhigh : 0x1 &&& u4 = u4 % 2 := hmask u4 1
    rw [Nat.or_assoc, hlow, hhigh]
    exact or_low (i := 7) (by omega)
  have e4 : (0x7 &&& u6) <<< 5 ||| u7 = u6 % 8 * 32 + u7 := by
    have hhigh : 0x7 &&& u6 = u6 % 8 := hmask u6 3
    rw [hhigh]
    exact or_low (i := 5) h7
  rw [unpack, e0, e1, e2, e3, e4]

end Bits

section Round

theorem index32_char32 : ∀ j < 32, index32 (char32 j) = j := by
  decide +kernel

theorem dec32loop_cons (a b c d e : UInt8) (text : List Char) :
    dec32loop ((fives a.toNat b.toNat c.toNat d.toNat e.toNat).map char32 ++ text) =
      ([a, b, c, d, e] ++ (dec32loop text).1, (dec32loop text).2) := by
  have ha := a.toNat_lt
  have hb := b.toNat_lt
  have hc := c.toNat_lt
  have hd := d.toNat_lt
  have he := e.toNat_lt
  simp only [fives, List.map_cons, List.map_nil, List.cons_append, List.nil_append]
  rw [dec32loop]
  simp (disch := omega) only [index32_char32]
  rw [unpack_eq (by omega) (by omega) (by omega)]
  have hbytes : ∀ x : UInt8, ∀ n, n = x.toNat → UInt8.ofNat n = x := fun x n hn => by
    rw [hn, UInt8.ofNat_toNat]
  rw [hbytes a _ (by omega), hbytes b _ (by omega), hbytes c _ (by omega), hbytes d _ (by omega),
    hbytes e _ (by omega)]
  rfl

/-- What `enc32` makes of bytes, five at a time, decodes to them again. -/
theorem dec32loop_enc32loop (bs : List UInt8) (h : 5 ∣ bs.length) :
    dec32loop (enc32loop bs) = (bs, true) := by
  induction bs using enc32loop.induct with
  | case1 a b c d e src ih =>
    have hlen : 5 ∣ src.length := by simpa [Nat.add_assoc] using h
    rw [enc32loop_cons, dec32loop_cons, ih hlen]
    rfl
  | case2 a b c d => simp at h
  | case3 a b c => simp at h
  | case4 a b => simp at h
  | case5 a => simp at h
  | case6 => rfl

theorem fives_lt (a b c d e : ℕ) : ∀ j ∈ fives a b c d e, j < 32 := by
  simp only [fives, List.forall_mem_cons]
  refine ⟨by omega, by omega, by omega, by omega, by omega, by omega, by omega, by omega, ?_⟩
  simp

theorem mem_enc32loop (bs : List UInt8) (h : 5 ∣ bs.length) :
    ∀ ch ∈ enc32loop bs, ∃ j < 32, ch = char32 j := by
  induction bs using enc32loop.induct with
  | case1 a b c d e src ih =>
    have hlen : 5 ∣ src.length := by simpa [Nat.add_assoc] using h
    intro ch hch
    rw [enc32loop_cons, List.mem_append, List.mem_map] at hch
    rcases hch with ⟨j, hj, heq⟩ | hch
    · exact ⟨j, fives_lt _ _ _ _ _ j hj, heq.symm⟩
    · exact ih hlen ch hch
  | case2 a b c d => simp at h
  | case3 a b c => simp at h
  | case4 a b => simp at h
  | case5 a => simp at h
  | case6 => simp [enc32loop]

end Round

section Bounds

/-- The bytes come back from either coding, in places long enough. -/
def Lossless (x : List UInt8) : Prop :=
  ∃ large, ∀ m ≥ large, ∀ n ≥ large,
    (∃ text, enc32 m x = some text ∧ dec32 n text = (x, true)) ∧ dec64 n 0 0 (enc64 m x) = x

/-- Nothing is stored beyond the limits; a text has a zero after it. -/
def Bounded (x : List UInt8) (src : List Char) (lim : ℕ) : Prop :=
  (dec32 lim src).1.length ≤ lim ∧ (∀ text, enc32 lim x = some text → text.length + 1 ≤ lim) ∧
    (dec64 lim 0 0 src).length ≤ lim ∧ (enc64 lim x).length + 1 ≤ lim

end Bounds

end Petele.Libc
