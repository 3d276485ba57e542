import Petele.Lib.Bits
import Petele.Venti.Whack
import Mathlib.Tactic.IntervalCases

namespace Petele.Venti

open Lib

section Symbols

/-- What the codes stand for. -/
inductive Sym
  | lit (b : UInt8)
  | copy (len off : ℕ)

/-- Earlier bytes are repeated, one at a time: a copy may reach into itself. -/
def repeats (off : ℕ) : (len : ℕ) → List UInt8 → List UInt8
  | 0, out => out
  | len + 1, out => repeats off len (out ++ [out.getD (out.length - off) 0])

def Sym.write (out : List UInt8) : Sym → List UInt8
  | .lit b => out ++ [b]
  | .copy len off => repeats off len out

def Sym.hist (lithist : ℕ) : Sym → ℕ
  | .lit b => remember lithist b
  | .copy _ _ => lithist

/-- The code of a length. -/
def lencode (len : ℕ) : ℕ × ℕ :=
  if len - MinMatch < MaxFastLen then lentab.getD (len - MinMatch) (0, 0)
  else biglen (len - MinMatch - MaxFastLen) (len - MinMatch - MaxFastLen) BigLenCode BigLenBase BigLenBits

def offbitcode (toff : ℕ) : List Bool :=
  bits (offcode toff).1.1 (offcode toff).1.2 ++ bits (offcode toff).2 toff

def Sym.code (lithist : ℕ) : Sym → List Bool
  | .lit b => bits (litcode (remember lithist b) b).1 (litcode (remember lithist b) b).2
  | .copy len off => bits (lencode len).1 (lencode len).2 ++ offbitcode (off - 1)

structure Copies (out : List UInt8) (len off : ℕ) : Prop where
  least : MinMatch ≤ len
  most : len ≤ MaxLen
  pos : 1 ≤ off
  near : off ≤ WhackMaxOff
  inside : off ≤ out.length

def Sym.Ok (out : List UInt8) : Sym → Prop
  | .lit _ => True
  | .copy len off => Copies out len off

/-- The bits that take the output and the kinds of the last literals to others. -/
inductive Tells : List UInt8 → ℕ → List Bool → List UInt8 → ℕ → Prop
  | done (out : List UInt8) (h : ℕ) : Tells out h [] out h
  | sym {out out' : List UInt8} {h h' : ℕ} {l : List Bool} (s : Sym) (hs : s.Ok out)
      (hl : Tells (s.write out) (s.hist h) l out' h') : Tells out h (s.code h ++ l) out' h'

theorem Tells.snoc {out out' : List UInt8} {h h' : ℕ} {l : List Bool} (hl : Tells out h l out' h') (s : Sym) (hs : s.Ok out') :
    Tells out h (l ++ s.code h') (s.write out') (s.hist h') := by
  induction hl with
  | done out h =>
    rw [List.nil_append, ← List.append_nil (s.code h)]
    exact .sym s hs (.done _ _)
  | sym s' hs' _ ih =>
    rw [List.append_assoc]
    exact .sym s' hs' (ih hs)

theorem length_repeats (off len : ℕ) (out : List UInt8) : (repeats off len out).length = out.length + len := by
  induction len generalizing out with
  | zero => rfl
  | succ len ih =>
    rw [repeats, ih, List.length_append, List.length_singleton]
    omega

/-- Equal parts of a block. -/
theorem repeats_take {src : List UInt8} {s off len : ℕ} (hoff : 1 ≤ off) (hle : off ≤ s) (hlen : s + len ≤ src.length)
    (heq : ∀ k, k < len → src.getD (s + k) 0 = src.getD (s - off + k) 0) :
    repeats off len (src.take s) = src.take (s + len) := by
  induction len generalizing s with
  | zero => rfl
  | succ len ih =>
    have hs : (src.take s).length = s := by
      rw [List.length_take]
      omega
    have hget : (src.take s).getD (s - off) 0 = src.getD s 0 := by
      have h0 := heq 0 (Nat.succ_pos len)
      rw [Nat.add_zero, Nat.add_zero] at h0
      rw [h0, List.getD_eq_getElem?_getD, List.getD_eq_getElem?_getD, List.getElem?_take_of_lt (by omega)]
    have hnext : src.take s ++ [src.getD s 0] = src.take (s + 1) := by
      rw [List.take_add_one, List.getD_eq_getElem?_getD, List.getElem?_eq_getElem (by omega)]
      rfl
    rw [repeats, hs, hget, hnext, ih (by omega) (by omega) fun k hk => ?_]
    · congr 1
      omega
    · have hk' := heq (k + 1) (by omega)
      rw [show s + 1 + k = s + (k + 1) by omega, show s + 1 - off + k = s - off + (k + 1) by omega]
      exact hk'

end Symbols

section Literals

theorem and_thirty (x : ℕ) : (x &&& 0x1e ≠ 0) ↔ (x / 2 % 16 ≠ 0) := by
  have hmod : x &&& 0x1e = (x % 2 ^ 5) &&& 0x1e := by
    have h : (x &&& 0x1e) % 2 ^ 5 = x % 2 ^ 5 &&& 0x1e % 2 ^ 5 := Nat.and_mod_two_pow
    rw [Nat.mod_eq_of_lt (lt_of_le_of_lt Nat.and_le_right (by decide))] at h
    exact h
  have hall : ∀ y < 32, (y &&& 0x1e ≠ 0) ↔ (y / 2 % 16 ≠ 0) := by decide
  have hx := hall (x % 2 ^ 5) (Nat.mod_lt _ (by decide))
  rw [hmod, hx]
  omega

theorem remember_eq (h : ℕ) (b : UInt8) : remember h b = (2 * h + if b < 32 ∨ b > 127 then 1 else 0) % 2 ^ 32 := by
  have hor : h <<< 1 ||| (if b < 32 then 1 else 0) ||| (if b > 127 then 1 else 0) = h <<< 1 ||| if b < 32 ∨ b > 127 then 1 else 0 := by
    rw [Nat.or_assoc]
    congr 1
    by_cases h1 : b < 32 <;> by_cases h2 : b > 127 <;> simp [h1, h2]
  have hlt : (if b < 32 ∨ b > 127 then 1 else 0) < 2 ^ 1 := by split <;> decide
  rw [remember, hor, ← Nat.shiftLeft_add_eq_or_of_lt hlt, Nat.shiftLeft_eq]
  congr 2
  omega

/-- The code of a literal depends on the four before it. -/
theorem litcode_eq (h : ℕ) (b : UInt8) : litcode (remember h b) b =
    if h % 16 ≠ 0 then (9, b.toNat)
    else if b < 32 ∨ b > 127 then
      if (b.toNat + 64) % 256 < 96 then (10, (b.toNat + 64) % 256) else (11, (b.toNat + 64) % 256)
    else (8, b.toNat) := by
  have hfour : (remember h b &&& 0x1e ≠ 0) ↔ (h % 16 ≠ 0) := by
    rw [and_thirty, remember_eq]
    split <;> omega
  have hone : (remember h b &&& 1 ≠ 0) ↔ (b < 32 ∨ b > 127) := by
    rw [Nat.and_one_is_mod, remember_eq]
    by_cases hb : b < 32 ∨ b > 127
    · rw [if_pos hb]
      exact ⟨fun _ => hb, fun _ => by omega⟩
    · rw [if_neg hb]
      exact ⟨fun hc => absurd hc (by omega), fun hc => absurd hc hb⟩
  have hbyte : (b.toNat + 64) &&& 0xff = (b.toNat + 64) % 256 := Nat.and_two_pow_sub_one_eq_mod _ 8
  rw [litcode, hbyte]
  simp only [hfour, hone]

theorem litcode_bound (h : ℕ) (b : UInt8) : 8 ≤ (litcode (remember h b) b).1 ∧ (litcode (remember h b) b).1 ≤ 11 ∧
    (litcode (remember h b) b).2 < 2 ^ ((litcode (remember h b) b).1 - 1) := by
  have hb := b.toNat_lt
  rw [litcode_eq]
  by_cases hfour : h % 16 ≠ 0
  · simp only [if_pos hfour]
    omega
  · simp only [if_neg hfour]
    by_cases hodd : b < 32 ∨ b > 127
    · simp only [if_pos hodd]
      by_cases hlt : (b.toNat + 64) % 256 < 96
      · simp only [if_pos hlt]
        omega
      · simp only [if_neg hlt]
        omega
    · simp only [if_neg hodd]
      have hle := UInt8.le_iff_toNat_le.mp (UInt8.not_lt.mp fun hc => hodd (.inr hc))
      exact ⟨le_rfl, by decide, Nat.lt_succ_of_le hle⟩

end Literals

section Lengths

variable {fuel len code use size : ℕ}

/-- The group of lengths doubles with every second bit. -/
theorem use_next (use size : ℕ) : use <<< ((size &&& 1) ^^^ 1) = if size % 2 = 1 then use else 2 * use := by
  rw [Nat.and_one_is_mod]
  rcases Nat.mod_two_eq_zero_or_one size with h | h
  · rw [h, if_neg (by decide), Nat.shiftLeft_eq, Nat.mul_comm]
    rfl
  · rw [h, if_pos rfl]
    rfl

theorem use_next_pos (huse : 0 < use) (size : ℕ) : 0 < use <<< ((size &&& 1) ^^^ 1) := by
  rw [use_next]
  split <;> omega

theorem biglen_zero : biglen 0 len code use size = (size, code + len) := rfl

theorem biglen_succ : biglen (fuel + 1) len code use size =
    if use ≤ len then biglen fuel (len - use) ((code + use) <<< 1) (use <<< ((size &&& 1) ^^^ 1)) (size + 1)
    else (size, code + len) := rfl

theorem biglen_fuel (hlen : len < fuel + use) (huse : 0 < use) :
    biglen (fuel + 1) len code use size = biglen fuel len code use size := by
  induction fuel generalizing len code use size with
  | zero => rw [biglen_succ, if_neg (by omega), biglen_zero]
  | succ fuel ih =>
    conv_lhs => rw [biglen_succ]
    conv_rhs => rw [biglen_succ]
    split
    · have hpos := use_next_pos huse size
      exact ih (by omega) hpos
    · rfl

/-- The code starts with the code of the group in which the loop is. -/
theorem biglen_head (fuel len code use size : ℕ) : ∃ n c, (biglen fuel len code use size).1 = size + n ∧
    (biglen fuel len code use size).2 / 2 ^ n = code + c := by
  induction fuel generalizing len code use size with
  | zero => exact ⟨0, len, rfl, by rw [Nat.pow_zero, Nat.div_one]; rfl⟩
  | succ fuel ih =>
    rw [biglen_succ]
    split
    · obtain ⟨n, c, hn, hc⟩ := ih (len - use) ((code + use) <<< 1) (use <<< ((size &&& 1) ^^^ 1)) (size + 1)
      refine ⟨n + 1, use + c / 2, by omega, ?_⟩
      rw [Nat.pow_succ, ← Nat.div_div_eq_div_mul, hc, Nat.shiftLeft_eq]
      omega
    · exact ⟨0, len, rfl, by rw [Nat.pow_zero, Nat.div_one]⟩

/-- There is room for three groups more, or four. -/
theorem biglen_bound (hlen : len < fuel + use) (huse : 0 < use) (hroom : code + (if size % 2 = 1 then 3 else 4) * use ≤ 2 ^ size) :
    (biglen fuel len code use size).2 < 2 ^ (biglen fuel len code use size).1 := by
  induction fuel generalizing len code use size with
  | zero =>
    simp only [biglen_zero]
    split at hroom <;> omega
  | succ fuel ih =>
    rw [biglen_succ]
    split
    · have hpos := use_next_pos huse size
      refine ih (by omega) hpos ?_
      rw [use_next, Nat.shiftLeft_eq, Nat.pow_succ]
      split at hroom
      · rw [if_neg (by omega), if_pos (by assumption)]
        omega
      · rw [if_pos (by omega), if_neg (by assumption)]
        omega
    · simp only
      split at hroom <;> omega

/-- Lengths that `p` pairs of groups can hold end before 24 bits. -/
theorem biglen_size {p : ℕ} (hp : p ≤ 12) (hlen : len + 2 * use < 2 * use * 2 ^ p) (hfuel : len < fuel + use) (huse : 0 < use) :
    (biglen fuel len code use (25 - 2 * p)).1 ≤ 24 := by
  induction p generalizing fuel len code use with
  | zero => omega
  | succ p ih =>
    have hodd : (25 - 2 * (p + 1)) % 2 = 1 := by omega
    cases fuel with
    | zero =>
      simp only [biglen_zero]
      omega
    | succ fuel =>
      rw [biglen_succ]
      split
      · rw [use_next, if_pos hodd]
        cases fuel with
        | zero =>
          simp only [biglen_zero]
          omega
        | succ fuel =>
          rw [biglen_succ]
          split
          · rw [use_next, if_neg (by omega), show 25 - 2 * (p + 1) + 1 + 1 = 25 - 2 * p by omega]
            refine ih (by omega) ?_ (by omega) (by omega)
            rw [Nat.pow_succ] at hlen
            have hcalc : 2 * use * (2 ^ p * 2) = 2 * (2 * use) * 2 ^ p := by
              rw [Nat.mul_comm (2 ^ p) 2, ← Nat.mul_assoc, Nat.mul_comm (2 * use) 2]
            omega
          · omega
      · omega

/-- The codes of lengths from seven on go on from six bits. -/
theorem lencode_big {len : ℕ} (hlen : 7 ≤ len) : lencode len = biglen (len - 7) (len - 7) 0x3c 1 6 := by
  by_cases hfast : len < 12
  · interval_cases len <;> decide
  · obtain ⟨k, rfl⟩ : ∃ k, len = k + 12 := ⟨len - 12, by omega⟩
    have h1 : biglen k k BigLenCode BigLenBase BigLenBits = biglen (k + 1 + 1) k BigLenCode BigLenBase BigLenBits := by
      rw [biglen_fuel (by simp only [BigLenBase]; omega) (by decide), biglen_fuel (by simp only [BigLenBase]; omega) (by decide)]
    have h2 : biglen (k + 5) (k + 5) 0x3c 1 6 = biglen (k + 1 + 1) k BigLenCode BigLenBase BigLenBits := by
      have h6 : biglen (k + 5) (k + 5) 0x3c 1 6 = biglen (k + 4) (k + 4) 0x7a 2 7 := by
        rw [biglen_succ, if_pos (by omega)]
        rfl
      have h7 : biglen (k + 4) (k + 4) 0x7a 2 7 = biglen (k + 3) (k + 2) 0xf8 2 8 := by
        rw [biglen_succ, if_pos (by omega)]
        rfl
      rw [h6, h7, biglen_succ, if_pos (by omega)]
      rfl
    have hlarge : ¬ k + 12 - MinMatch < MaxFastLen := by
      simp only [MinMatch, MaxFastLen]
      omega
    rw [lencode, if_neg hlarge, show k + 12 - 7 = k + 5 by omega, h2, ← h1]
    rfl

theorem lencode_bound {len : ℕ} (hmin : MinMatch ≤ len) (hmax : len ≤ MaxLen) :
    (lencode len).2 < 2 ^ (lencode len).1 ∧ (lencode len).1 ≤ 24 ∧ (len - MinMatch < MaxFastLen → (lencode len).1 ≤ 8) := by
  simp only [MinMatch, MaxLen] at hmin hmax
  have hfast : len - MinMatch < MaxFastLen → (lencode len).2 < 2 ^ (lencode len).1 ∧ (lencode len).1 ≤ 8 := by
    intro hlt
    simp only [MinMatch, MaxFastLen] at hlt
    obtain ⟨k, rfl⟩ : ∃ k, len = k + 3 := ⟨len - 3, by omega⟩
    have hk : k < 9 := by omega
    interval_cases k <;> decide
  by_cases hlt : len - MinMatch < MaxFastLen
  · obtain ⟨h1, h2⟩ := hfast hlt
    exact ⟨h1, by omega, fun _ => h2⟩
  · rw [lencode, if_neg hlt]
    simp only [MinMatch, MaxFastLen] at hlt ⊢
    refine ⟨biglen_bound (by simp only [BigLenBase]; omega) (by decide) (by decide), ?_, fun hc => absurd hc hlt⟩
    exact biglen_size (p := 8) (by decide) (by simp only [BigLenBase]; omega) (by simp only [BigLenBase]; omega) (by decide)

end Lengths

section Offsets

theorem offsize_spec {toff fuel size : ℕ} (hlow : size = 6 ∨ 2 ^ (size - 1) ≤ toff) (htop : toff < 2 ^ (size + fuel)) (hsize : 6 ≤ size) :
    6 ≤ offsize toff fuel size ∧ toff < 2 ^ offsize toff fuel size ∧
      (offsize toff fuel size = 6 ∨ 2 ^ (offsize toff fuel size - 1) ≤ toff) := by
  induction fuel generalizing size with
  | zero => exact ⟨hsize, htop, hlow⟩
  | succ fuel ih =>
    rw [offsize]
    split
    · rename_i hle
      rw [Nat.shiftLeft_eq, Nat.one_mul] at hle
      exact ih (.inr hle) (by rw [Nat.add_right_comm]; exact htop) (by omega)
    · rename_i hlt
      rw [Nat.shiftLeft_eq, Nat.one_mul] at hlt
      exact ⟨hsize, Nat.not_le.mp hlt, hlow⟩

/-- The code of an offset by its size. -/
theorem offcode_cases {toff : ℕ} (h : toff < WhackMaxOff) :
    toff < 2 ^ 6 ∧ offcode toff = ((3, 0), 6) ∨
      (∃ n, 6 ≤ n ∧ n < 12 ∧ 2 ^ n ≤ toff ∧ toff < 2 ^ (n + 1) ∧ offcode toff = ((3, n - 5), n)) ∨
      ∃ n, 12 ≤ n ∧ n < 14 ∧ 2 ^ n ≤ toff ∧ toff < 2 ^ (n + 1) ∧ offcode toff = ((4, n + 2), n) := by
  have htop : toff < 2 ^ (6 + toff) := lt_of_lt_of_le Nat.lt_two_pow_self (Nat.pow_le_pow_right (by decide) (by omega))
  obtain ⟨hmin, hlt, hlow⟩ := offsize_spec (.inl rfl) htop le_rfl
  have hmax : offsize toff toff 6 ≤ 14 := by
    rcases hlow with heq | hlow
    · omega
    · by_contra hc
      have hle : 2 ^ 14 ≤ 2 ^ (offsize toff toff 6 - 1) := Nat.pow_le_pow_right (by decide) (by omega)
      simp only [WhackMaxOff] at h
      omega
  have hcode : offcode toff = if offsize toff toff 6 < 13 then
      ((3, offsize toff toff 6 - 6), if offsize toff toff 6 ≠ 6 then offsize toff toff 6 - 1 else offsize toff toff 6)
      else ((4, 0xe ||| (offsize toff toff 6 - 13)), offsize toff toff 6 - 1) := rfl
  generalize offsize toff toff 6 = b at *
  rcases Nat.lt_or_ge 6 b with hb | hb
  · obtain ⟨n, rfl⟩ : ∃ n, b = n + 1 := ⟨b - 1, by omega⟩
    have hn : 2 ^ n ≤ toff := by
      rcases hlow with heq | hlow
      · omega
      · exact hlow
    right
    by_cases hsmall : n + 1 < 13
    · left
      refine ⟨n, by omega, by omega, hn, hlt, ?_⟩
      rw [hcode, if_pos hsmall, if_pos (by omega), Nat.add_sub_cancel]
      congr 2
    · right
      refine ⟨n, by omega, by omega, hn, hlt, ?_⟩
      rw [hcode, if_neg hsmall, Nat.add_sub_cancel]
      have hcase : n = 12 ∨ n = 13 := by omega
      rcases hcase with rfl | rfl <;> rfl
  · obtain rfl : b = 6 := by omega
    exact .inl ⟨hlt, hcode⟩

theorem offcode_bound {toff : ℕ} (h : toff < WhackMaxOff) : (offcode toff).1.2 < 2 ^ (offcode toff).1.1 ∧
    (offcode toff).1.1 + (offcode toff).2 ≤ 17 ∧ 9 ≤ (offcode toff).1.1 + (offcode toff).2 := by
  rcases offcode_cases h with ⟨-, hc⟩ | ⟨n, h6, h12, -, -, hc⟩ | ⟨n, h12, h14, -, -, hc⟩
  · rw [hc]
    decide
  · rw [hc]
    simp only
    omega
  · rw [hc]
    simp only
    omega

end Offsets

end Petele.Venti
