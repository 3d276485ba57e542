import Mathlib
import Petele.Mp.Fmt

namespace Petele.Mp

open Lib Limbs BigEndian Libc

/-- A table of `init`: each character of the set has the value of its last place in it. -/
def table (set : List Char) (value : ℕ → ℕ) (c : Char) : ℕ :=
  set.zipIdx.foldl (fun t x => if x.1 = c then value x.2 else t) INVAL

def t64 : Char → ℕ :=
  table "ABCDEFGHIJKLMNOPQRSTUVWXYZabcdefghijklmnopqrstuvwxyz0123456789+/".toList id

def t32 : Char → ℕ := table "23456789abcdefghijkmnpqrstuvwxyz".toList id

def t16 : Char → ℕ := table "0123456789ABCDEF0123456789abcdef".toList (· % 16)

def t10 : Char → ℕ := table "0123456789".toList id

/-- The digits from values of `s` bits, least significant first; `x` holds the values up to bit `i`. -/
def powloop (s : ℕ) : ℕ → UInt32 → List ℕ → Vec
  | i, x, [] => if i = 0 then [] else [x]
  | i, x, y :: ys =>
    let x := x ||| UInt32.ofNat y <<< UInt32.ofNat i
    if i + s < 32 then powloop s (i + s) x ys else x :: powloop s 0 0 ys

/-- The digits of the number, and the text after it. -/
def frompow2 (a : List Char) (s : ℕ) : Vec × List Char :=
  let number := a.takeWhile fun c => t16 c < 2 ^ s
  (powloop s 0 0 (number.map t16).reverse, a.drop number.length)

/-- The loop of `from8`; `y` goes across a border of digits. -/
def octloop : ℕ → UInt32 → List ℕ → Vec
  | i, x, [] => if 0 < i then [x] else []
  | i, x, y :: ys =>
    let x := x ||| UInt32.ofNat y <<< UInt32.ofNat i
    let i := i + 3
    if 32 ≤ i then x :: octloop (i - 32) (UInt32.ofNat y >>> UInt32.ofNat (3 - (i - 32))) ys
    else octloop i x ys

def from8 (a : List Char) : Vec × List Char :=
  let number := a.takeWhile fun c => t10 c < 8
  (octloop 0 0 (number.map t10).reverse, a.drop number.length)

def mppow10 : List UInt32 :=
  [1, 10, 100, 1000, 10000, 100000, 1000000, 10000000, 100000000, 1000000000]

/-- The group of `i` digits with value `x` is put after the number. -/
def accumulate (b : Mpint) (i x : ℕ) : Mpint :=
  if i = 0 then b else mpadd (mpmul b (uitomp (mppow10.getD i 0))) (uitomp (UInt32.ofNat x))

/-- The loop of `from10`, with `i` digits of a billion in `x`. -/
def from10loop : List Char → ℕ → ℕ → Mpint → Mpint × List Char
  | [], i, x, b => (accumulate b i x, [])
  | c :: a, i, x, b =>
    let y := t10 c
    if y = INVAL then (accumulate b i x, c :: a)
    else
      let x := x * 10 + y
      if i + 1 = 9 then from10loop a 0 0 (accumulate b 9 x) else from10loop a (i + 1) x b

def from10 (a : List Char) : Vec × List Char :=
  let r := from10loop a 0 0 mpzero
  (r.1.p, r.2)

def fromdecx (a : List Char) (tab : Char → ℕ) (dec : ℕ → List Char → List UInt8 × Bool) :
    Vec × List Char :=
  let number := a.takeWhile fun c => tab c ≠ INVAL
  let p := dec number.length number
  (if number.length > 0 ∧ p.2 ∧ p.1.length > 0 then (betomp p.1).p else [], a.drop number.length)

/-- The base that the text tells, if none is given. -/
def tellbase (a : List Char) : ℕ × List Char :=
  match a with
  | '0' :: c :: rest =>
    if c = 'x' ∨ c = 'X' then (16, rest)
    else if c = 'b' ∨ c = 'B' then (2, rest)
    else if '0' ≤ c ∧ c ≤ '7' then (8, c :: rest)
    else (10, a)
  | _ => (10, a)

/-- The digits for a text in a base, and the text after them; nothing for other bases, at which
`strtomp` aborts. -/
def fromtext (base : ℕ) (a : List Char) : Option (Vec × List Char) :=
  match base with
  | 2 => some (frompow2 a 1)
  | 4 => some (frompow2 a 2)
  | 8 => some (from8 a)
  | 10 => some (from10 a)
  | 16 => some (frompow2 a 4)
  | 32 => some (fromdecx a t32 dec32)
  | 64 => some (fromdecx a t64 fun n text => (dec64 n 0 0 text, true))
  | _ => none

/-- The number and the text after it; nothing if no characters are taken. -/
def strtomp (a : List Char) (base : ℕ) : Option (Mpint × List Char) := do
  let a := a.dropWhile fun c => c = ' ' ∨ c = '\t'
  let sign : ℤˣ := (-1) ^ (a.takeWhile (· = '-')).length
  let a := a.dropWhile (· = '-')
  let (base, a) := if base = 0 then tellbase a else (base, a)
  let (p, e) ← fromtext base a
  if e.length = a.length then none else some (mpnorm sign p, e)

section Tables

/-- Each of the four tables turns the characters written for its digits back into the digits, and no
such character is white space or the sign. -/
theorem tables :
    (∀ j < 64, t64 (char64 j) = j) ∧ (∀ j < 32, t32 (char32 j) = j) ∧ (∀ j < 16, t16 (hexchar j) = j) ∧
      (∀ j < 10, t10 (Nat.digitChar j) = j) ∧
      (∀ j < 64, char64 j ≠ ' ' ∧ char64 j ≠ '\t' ∧ char64 j ≠ '-') ∧
      (∀ j < 32, char32 j ≠ ' ' ∧ char32 j ≠ '\t' ∧ char32 j ≠ '-') ∧ t64 '=' = INVAL := by
  decide +kernel

theorem t64_char64 : ∀ j < 64, t64 (char64 j) = j :=
  tables.1

theorem t32_char32 : ∀ j < 32, t32 (char32 j) = j :=
  tables.2.1

theorem t16_hexchar : ∀ j < 16, t16 (hexchar j) = j :=
  tables.2.2.1

theorem t10_digitChar : ∀ j < 10, t10 (Nat.digitChar j) = j :=
  tables.2.2.2.1

theorem char64_plain : ∀ j < 64, char64 j ≠ ' ' ∧ char64 j ≠ '\t' ∧ char64 j ≠ '-' :=
  tables.2.2.2.2.1

theorem char32_plain : ∀ j < 32, char32 j ≠ ' ' ∧ char32 j ≠ '\t' ∧ char32 j ≠ '-' :=
  tables.2.2.2.2.2.1

theorem t64_pad : t64 '=' = INVAL :=
  tables.2.2.2.2.2.2

end Tables

section Values

theorem powloop_val {s : ℕ} (h32 : s ∣ 32) (ys : List ℕ) (hys : ∀ y ∈ ys, y < 2 ^ s) (i : ℕ)
    (hi : i < 32) (hsi : s ∣ i) (x : UInt32) (hx : x.toNat < 2 ^ i) :
    val (powloop s i x ys) = x.toNat + 2 ^ i * Nat.ofDigits (2 ^ s) ys := by
  induction ys generalizing i x with
  | nil =>
    rw [powloop, Nat.ofDigits_nil, Nat.mul_zero, Nat.add_zero]
    split
    · rename_i hzero
      rw [hzero, Nat.pow_zero] at hx
      rw [val_nil]
      omega
    · exact val_singleton x
  | cons y ys ih =>
    rw [List.forall_mem_cons] at hys
    have hfit : i + s ≤ 32 := by
      obtain ⟨a, ha⟩ := hsi
      obtain ⟨c, hc⟩ := h32
      rw [ha, hc] at hi
      have hlt : a < c := Nat.lt_of_mul_lt_mul_left hi
      calc i + s = s * (a + 1) := by rw [ha]; ring
        _ ≤ s * c := Nat.mul_le_mul_left s hlt
        _ = 32 := hc.symm
    have hpow : 2 ^ (i + s) = 2 ^ i * 2 ^ s := Nat.pow_add 2 i s
    have hle : 2 ^ (i + s) ≤ 2 ^ 32 := Nat.pow_le_pow_right (by decide) hfit
    have hyi : 2 ^ i * y + 2 ^ i ≤ 2 ^ (i + s) := by
      rw [hpow, ← Nat.mul_succ]
      exact Nat.mul_le_mul_left _ hys.1
    have hput : (x ||| UInt32.ofNat y <<< UInt32.ofNat i).toNat = x.toNat + 2 ^ i * y := by
      have hy : (UInt32.ofNat y).toNat = y := by
        rw [UInt32.toNat_ofNat', Nat.mod_eq_of_lt]
        exact hys.1.trans_le (Nat.pow_le_pow_right (by decide) (by omega))
      have hsmall : y < 2 ^ (32 - i) := hys.1.trans_le (Nat.pow_le_pow_right (by decide) (by omega))
      rw [UInt32.toNat_or, toNat_shl _ hi, hy, Nat.mod_eq_of_lt hsmall, ← Nat.shiftLeft_eq,
        LittleEndian.or_shiftLeft hx]
    rw [powloop, Nat.ofDigits_cons]
    by_cases hroom : i + s < 32
    · rw [if_pos hroom, ih hys.2 (i + s) hroom (Nat.dvd_add hsi dvd_rfl) _ (by omega), hput, hpow]
      ring
    · have hend : i + s = 32 := by omega
      rw [if_neg hroom, val_cons, ih hys.2 0 (by decide) (dvd_zero s) 0 (by decide), hput, ← hend, hpow,
        UInt32.toNat_zero]
      ring

theorem uitomp_toInt (i : UInt32) : (uitomp i).toInt = i.toNat := by
  rw [uitomp, mpnorm_toInt, val_singleton, Units.val_one, one_mul]

theorem accumulate_toInt (b : Mpint) {i x : ℕ} (hi : i ≤ 9) (hx : x < 10 ^ i) :
    (accumulate b i x).toInt = b.toInt * 10 ^ i + x := by
  have hpow : ∀ i ≤ 9, (mppow10.getD i 0).toNat = 10 ^ i := by decide
  have hlt : x < 2 ^ 32 := hx.trans_le ((Nat.pow_le_pow_right (by decide) hi).trans (by decide))
  rw [accumulate]
  split
  · rename_i hzero
    rw [hzero, Nat.pow_zero] at hx
    rw [hzero, show x = 0 by omega]
    simp
  · rw [mpadd_toInt, mpmul_toInt, uitomp_toInt, uitomp_toInt, hpow i hi, UInt32.toNat_ofNat',
      Nat.mod_eq_of_lt hlt]
    push_cast
    ring

theorem from10loop_spec (a : List Char) (ha : ∀ c ∈ a, t10 c < 10) (i x : ℕ) (b : Mpint) (hi : i < 9)
    (hx : x < 10 ^ i) :
    (from10loop a i x b).2 = [] ∧ (from10loop a i x b).1.toInt =
      a.foldl (fun v c => v * 10 + (t10 c : ℤ)) (b.toInt * 10 ^ i + x) := by
  induction a generalizing i x b with
  | nil => exact ⟨rfl, accumulate_toInt b hi.le hx⟩
  | cons c a ih =>
    rw [List.forall_mem_cons] at ha
    have hnext : x * 10 + t10 c < 10 ^ (i + 1) := by
      rw [Nat.pow_succ]
      omega
    have hvalue : b.toInt * 10 ^ (i + 1) + ((x * 10 + t10 c : ℕ) : ℤ) =
        (b.toInt * 10 ^ i + x) * 10 + t10 c := by
      push_cast
      ring
    rw [from10loop, if_neg (by rw [INVAL]; omega), List.foldl_cons, ← hvalue]
    by_cases hfull : i + 1 = 9
    · rw [if_pos hfull]
      obtain ⟨hrest, hval⟩ := ih ha.2 0 0 (accumulate b 9 (x * 10 + t10 c)) (by decide) (by decide)
      refine ⟨hrest, ?_⟩
      rw [hfull] at hnext ⊢
      rw [hval, accumulate_toInt b le_rfl hnext]
      simp
    · rw [if_neg hfull]
      exact ih ha.2 (i + 1) _ b (by omega) hnext

theorem toDigits_value (n : ℕ) :
    (∀ c ∈ Nat.toDigits 10 n, ∃ j < 10, c = Nat.digitChar j) ∧
      (Nat.toDigits 10 n).foldl (fun v c => v * 10 + (t10 c : ℤ)) 0 = n := by
  induction n using Nat.strongRecOn with
  | ind n ih =>
    by_cases hsmall : n < 10
    · rw [Nat.toDigits_of_lt_base hsmall]
      simp only [List.mem_singleton, forall_eq, List.foldl_cons, List.foldl_nil, t10_digitChar n hsmall,
        zero_mul, zero_add, and_true]
      exact ⟨n, hsmall, rfl⟩
    · obtain ⟨hmem, hval⟩ := ih (n / 10) (by omega)
      have hlast : n % 10 < 10 := Nat.mod_lt n (by decide)
      rw [Nat.toDigits_of_base_le (by decide) (by omega), List.foldl_append, hval]
      constructor
      · intro c hc
        rcases List.mem_append.mp hc with hc | hc
        · exact hmem c hc
        · exact ⟨n % 10, hlast, List.mem_singleton.mp hc⟩
      · rw [List.foldl_cons, List.foldl_nil, t10_digitChar _ hlast]
        omega

end Values

section Round

/-- A text without blanks and signs that is read as a number. -/
def Reads (base : ℕ) (text : List Char) (n : ℕ) : Prop :=
  (∀ c ∈ text, c ≠ ' ' ∧ c ≠ '\t' ∧ c ≠ '-') ∧
    ∃ p e, fromtext base text = some (p, e) ∧ e.length ≠ text.length ∧ val p = n

theorem strtomp_reads {base n : ℕ} {text : List Char} (hbase : base ≠ 0) (h : Reads base text n)
    (sign : ℤˣ) :
    ∃ r e, strtomp (if sign = -1 then '-' :: text else text) base = some (r, e) ∧
      r.toInt = sign * n := by
  obtain ⟨hplain, p, e, hfrom, hlen, hval⟩ := h
  have hblank : text.dropWhile (fun c => c = ' ' ∨ c = '\t') = text := by
    cases text with
    | nil => rfl
    | cons c text =>
      rw [List.forall_mem_cons] at hplain
      exact List.dropWhile_cons_of_neg (by simp [hplain.1])
  have hminus : text.takeWhile (· = '-') = [] ∧ text.dropWhile (· = '-') = text := by
    cases text with
    | nil => exact ⟨rfl, rfl⟩
    | cons c text =>
      rw [List.forall_mem_cons] at hplain
      exact ⟨List.takeWhile_cons_of_neg (by simp [hplain.1]),
        List.dropWhile_cons_of_neg (by simp [hplain.1])⟩
  refine ⟨mpnorm sign p, e, ?_, by rw [mpnorm_toInt, hval]⟩
  rcases Int.units_eq_one_or sign with hs | hs
  · rw [hs, if_neg (by decide), strtomp, hblank, hminus.1, hminus.2, if_neg hbase]
    simp [hfrom, hlen]
  · have hskip : ('-' :: text).dropWhile (fun c => c = ' ' ∨ c = '\t') = '-' :: text :=
      List.dropWhile_cons_of_neg (by decide)
    rw [hs, if_pos rfl, strtomp, hskip, List.takeWhile_cons_of_pos (by decide),
      List.dropWhile_cons_of_pos (by decide), hminus.1, hminus.2, if_neg hbase]
    simp [hfrom, hlen]

theorem to10_reads (b : Mpint) (len : ℕ) (hlen : (Nat.toDigits 10 (val b.p)).length < len) :
    ∃ text, to10 b len = some text ∧ Reads 10 text (val b.p) := by
  obtain ⟨hmem, hvalue⟩ := toDigits_value (val b.p)
  have hplain : ∀ j < 10, Nat.digitChar j ≠ ' ' ∧ Nat.digitChar j ≠ '\t' ∧ Nat.digitChar j ≠ '-' := by
    decide
  obtain ⟨hrest, hsum⟩ := from10loop_spec (Nat.toDigits 10 (val b.p)) (fun c hc => by
    obtain ⟨j, hj, rfl⟩ := hmem c hc
    rw [t10_digitChar j hj]
    exact hj) 0 0 mpzero (by decide) (by decide)
  have hpos := Nat.length_toDigits_pos (b := 10) (n := val b.p)
  refine ⟨_, to10_spec b hlen, fun c hc => ?_, _, _, rfl, ?_, ?_⟩
  · obtain ⟨j, hj, rfl⟩ := hmem c hc
    exact hplain j hj
  · show (from10loop _ 0 0 mpzero).2.length ≠ _
    rw [hrest, List.length_nil]
    omega
  · show val (from10loop _ 0 0 mpzero).1.p = _
    rw [← abs_toInt, hsum, show mpzero.toInt = 0 from rfl]
    simp only [zero_mul, Nat.cast_zero, zero_add, hvalue, Int.natAbs_natCast]

theorem to16_reads (b : Mpint) (len : ℕ) (hlen : 8 * b.top + 1 < len) :
    ∃ text, to16 b len = some text ∧ Reads 16 text (val b.p) := by
  obtain ⟨js, htext, hjs, hne, hval⟩ := to16_spec b hlen
  have hplain : ∀ j < 16, hexchar j ≠ ' ' ∧ hexchar j ≠ '\t' ∧ hexchar j ≠ '-' := by decide
  have hnumber : (js.map hexchar).takeWhile (fun c => t16 c < 2 ^ 4) = js.map hexchar := by
    refine List.takeWhile_eq_self_iff.mpr fun c hc => ?_
    obtain ⟨j, hj, rfl⟩ := List.mem_map.mp hc
    rw [t16_hexchar j (hjs j hj)]
    exact decide_eq_true (hjs j hj)
  have hback : (js.map hexchar).map t16 = js := by
    rw [List.map_map]
    conv_rhs => rw [← List.map_id js]
    exact List.map_congr_left fun j hj => t16_hexchar j (hjs j hj)
  refine ⟨_, htext, fun c hc => ?_, _, _, rfl, ?_, ?_⟩
  · obtain ⟨j, hj, rfl⟩ := List.mem_map.mp hc
    exact hplain j (hjs j hj)
  · show ((js.map hexchar).drop _).length ≠ _
    have hpos := List.length_pos_iff.mpr hne
    rw [hnumber, List.drop_length, List.length_map, List.length_nil]
    omega
  · show val (powloop 4 0 0 _) = _
    rw [hnumber, hback, powloop_val (by decide) _ (fun y hy => hjs y (List.mem_reverse.mp hy)) 0
      (by decide) (dvd_zero 4) 0 (by decide), UInt32.toNat_zero, Nat.zero_add, Nat.pow_zero,
      Nat.one_mul]
    exact hval

/-- Characters that are decoded to bytes. -/
theorem fromdecx_reads (tab : Char → ℕ) (dec : ℕ → List Char → List UInt8 × Bool) {bytes : List UInt8}
    (text rest : List Char) (htab : ∀ c ∈ text, tab c ≠ INVAL) (hrest : ∀ c ∈ rest, tab c = INVAL)
    (hdec : dec text.length text = (bytes, true)) (hbytes : bytes ≠ []) (htext : text ≠ []) :
    ∃ p, fromdecx (text ++ rest) tab dec = (p, rest) ∧ val p = beVal bytes := by
  have hnumber : (text ++ rest).takeWhile (fun c => tab c ≠ INVAL) = text := by
    rw [List.takeWhile_append_of_pos fun c hc => decide_eq_true (htab c hc)]
    have hnone : rest.takeWhile (fun c => tab c ≠ INVAL) = [] := by
      cases rest with
      | nil => rfl
      | cons c rest =>
        refine List.takeWhile_cons_of_neg ?_
        simpa using hrest c List.mem_cons_self
    rw [hnone, List.append_nil]
  unfold fromdecx
  dsimp only
  rw [hnumber, hdec, List.drop_left,
    if_pos ⟨List.length_pos_iff.mpr htext, rfl, List.length_pos_iff.mpr hbytes⟩]
  refine ⟨_, rfl, ?_⟩
  have hval := congrArg Int.natAbs (betomp_toInt hbytes)
  rwa [abs_toInt, Int.natAbs_natCast] at hval

theorem mptober_ne_nil (b : Mpint) : mptober b (nbytes b) ≠ [] := by
  refine List.ne_nil_of_length_pos ?_
  rw [(mptober_spec b).1]
  exact nbytes_pos b

theorem to64_reads (b : Mpint) (len : ℕ) (hlen : 4 * ((nbytes b + 2) / 3) < len) :
    ∃ text, to64 b len = some text ∧ Reads 64 text (val b.p) := by
  obtain ⟨hcount, hvalue⟩ := mptober_spec b
  have hne := mptober_ne_nil b
  rw [← hcount] at hlen
  rw [to64_spec]
  generalize mptober b (nbytes b) = bytes at *
  obtain ⟨k, htext⟩ := enc64_quads bytes hlen
  have hmem := mem_quads bytes
  have hplain := char64_plain
  have hsize := quads_length bytes
  have hpos := List.length_pos_iff.mpr hne
  obtain ⟨p, hfrom, hval⟩ := fromdecx_reads t64 (fun n text => (dec64 n 0 0 text, true)) (quads bytes)
    (List.replicate k '=') (fun c hc => by
      obtain ⟨j, hj, rfl⟩ := hmem c hc
      rw [t64_char64 j hj, INVAL]
      omega) (fun c hc => by
      rw [List.eq_of_mem_replicate hc]
      exact t64_pad) (congrArg (·, true) (dec64_quads bytes hsize)) hne
      (List.ne_nil_of_length_pos (by omega))
  rw [htext]
  refine ⟨_, rfl, ?_, p, List.replicate k '=', congrArg some hfrom, ?_, hval.trans hvalue⟩
  · intro c hc
    rcases List.mem_append.mp hc with hc | hc
    · obtain ⟨j, hj, rfl⟩ := hmem c hc
      exact hplain j hj
    · rw [List.eq_of_mem_replicate hc]
      decide
  · rw [List.length_append]
    omega

/-- The zeros after the bytes stay in the number. -/
theorem to32_reads (b : Mpint) (len : ℕ) (hlen : (8 * (b.top * 4 + 5) + 4) / 5 < len) :
    ∃ text, to32 b len = some text ∧ Reads 32 text (val b.p * 256 ^ padding b) := by
  obtain ⟨hcount, hvalue⟩ := mptober_spec b
  have hdvd : 5 ∣ (mptober b (nbytes b) ++ List.replicate (padding b) (0 : UInt8)).length := by
    rw [List.length_append, List.length_replicate, hcount, padding]
    omega
  have hbytes : beVal (mptober b (nbytes b) ++ List.replicate (padding b) 0) =
      val b.p * 256 ^ padding b := by
    rw [beVal_append, hvalue, beVal_zeros, List.length_replicate, Nat.add_zero]
  have hne : mptober b (nbytes b) ++ List.replicate (padding b) (0 : UInt8) ≠ [] :=
    List.append_ne_nil_of_left_ne_nil (mptober_ne_nil b) _
  rw [to32_spec b hlen]
  generalize mptober b (nbytes b) ++ List.replicate (padding b) (0 : UInt8) = bytes at *
  have hdec := dec32loop_enc32loop bytes hdvd
  have hmem := mem_enc32loop bytes hdvd
  have hplain := char32_plain
  have htext : enc32loop bytes ≠ [] := fun hnil => by
    rw [hnil] at hdec
    exact hne (congrArg Prod.fst hdec).symm
  have hdec32 : dec32 (enc32loop bytes).length (enc32loop bytes) = (bytes, true) := by
    rw [dec32, if_neg (by omega), hdec]
  obtain ⟨p, hfrom, hval⟩ := fromdecx_reads t32 dec32 (enc32loop bytes) [] (fun c hc => by
      obtain ⟨j, hj, rfl⟩ := hmem c hc
      rw [t32_char32 j hj, INVAL]
      omega) (by simp) hdec32 hne htext
  rw [List.append_nil] at hfrom
  refine ⟨_, rfl, ?_, p, [], congrArg some hfrom, ?_, hval.trans hbytes⟩
  · intro c hc
    obtain ⟨j, hj, rfl⟩ := hmem c hc
    exact hplain j hj
  · exact (List.length_pos_iff.mpr htext).ne

theorem toDigits_room (b : Mpint) : (Nat.toDigits 10 (val b.p)).length ≤ 32 * b.top / 3 + 1 := by
  refine Nat.toDigits_length 10 _ _ (by omega) ?_
  calc val b.p < 2 ^ (32 * b.top) := radix_pow b.top ▸ val_lt b.p
    _ ≤ 2 ^ (3 * (32 * b.top / 3 + 1)) := Nat.pow_le_pow_right (by decide) (by omega)
    _ = 8 ^ (32 * b.top / 3 + 1) := Nat.pow_mul 2 3 _
    _ ≤ 10 ^ (32 * b.top / 3 + 1) := Nat.pow_le_pow_left (by decide) _

/-- What `strtomp` reads from the text of `mptoa`. -/
theorem strtomp_mptoa (b : Mpint) {base : ℕ}
    (hbase : base = 10 ∨ base = 16 ∨ base = 32 ∨ base = 64) :
    ∃ text r e, mptoa b base none = some text ∧ strtomp text base = some (r, e) ∧
      r.toInt = b.sign * (val b.p * 256 ^ (if base = 32 then padding b else 0) : ℕ) := by
  have hfew : nbytes b ≤ b.top * 4 + 1 := by
    by_cases hnil : b.p = []
    · rw [nbytes_zero hnil]
      omega
    · have hle := (nbytes_spec hnil).2.2
      omega
  have hdec := toDigits_room b
  rw [mptoa, Option.getD_none, if_neg (by omega)]
  have hlen : ((b.top + 1) * 32 + 2) / 3 ≤
      if b.sign = -1 then ((b.top + 1) * 32 + 2) / 3 + 1 - 1 else ((b.top + 1) * 32 + 2) / 3 + 1 := by
    split <;> omega
  dsimp only
  generalize (if b.sign = -1 then ((b.top + 1) * 32 + 2) / 3 + 1 - 1
    else ((b.top + 1) * 32 + 2) / 3 + 1) = len at *
  have hsigned : ∀ {n : ℕ} {text : List Char}, Reads base text n → ∃ r e,
      strtomp (if b.sign = -1 then '-' :: text else text) base = some (r, e) ∧
        r.toInt = b.sign * n := fun hreads => strtomp_reads (by omega) hreads b.sign
  rcases hbase with rfl | rfl | rfl | rfl
  · obtain ⟨text, htext, hreads⟩ := to10_reads b len (by omega)
    obtain ⟨r, e, hr, hval⟩ := hsigned hreads
    refine ⟨_, r, e, ?_, hr, by simpa using hval⟩
    simp only [htext]
    rfl
  · obtain ⟨text, htext, hreads⟩ := to16_reads b len (by omega)
    obtain ⟨r, e, hr, hval⟩ := hsigned hreads
    refine ⟨_, r, e, ?_, hr, by simpa using hval⟩
    simp only [htext]
    rfl
  · obtain ⟨text, htext, hreads⟩ := to32_reads b len (by omega)
    obtain ⟨r, e, hr, hval⟩ := hsigned hreads
    refine ⟨_, r, e, ?_, hr, by simpa using hval⟩
    simp only [htext]
    rfl
  · obtain ⟨text, htext, hreads⟩ := to64_reads b len (by omega)
    obtain ⟨r, e, hr, hval⟩ := hsigned hreads
    refine ⟨_, r, e, ?_, hr, by simpa using hval⟩
    simp only [htext]
    rfl

/-- A text is read back as the number it was made from, but for the padding of base 32. -/
theorem strtomp_iff (b : Mpint) {base : ℕ}
    (hbase : base = 10 ∨ base = 16 ∨ base = 32 ∨ base = 64) :
    (∃ text r e, mptoa b base none = some text ∧ strtomp text base = some (r, e) ∧
      r.toInt = b.toInt) ↔ base ≠ 32 ∨ b.toInt = 0 ∨ 5 ∣ nbytes b := by
  obtain ⟨text, r, e, htext, hr, hval⟩ := strtomp_mptoa b hbase
  have hrun : (∃ text r e, mptoa b base none = some text ∧ strtomp text base = some (r, e) ∧
      r.toInt = b.toInt) ↔ r.toInt = b.toInt := by
    constructor
    · rintro ⟨text', r', e', htext', hr', heq⟩
      cases htext.symm.trans htext'
      cases hr.symm.trans hr'
      exact heq
    · intro heq
      exact ⟨text, r, e, htext, hr, heq⟩
  have hsign : (b.sign : ℤ) ≠ 0 := Units.ne_zero b.sign
  have hpad : padding b = 0 ↔ 5 ∣ nbytes b := by
    rw [padding]
    omega
  rw [hrun, hval, Mpint.toInt, mul_right_inj' hsign, Nat.cast_inj, ← hpad, mul_eq_zero,
    or_iff_right hsign, Nat.cast_eq_zero]
  by_cases h32 : base = 32
  · rw [if_pos h32, or_iff_right (not_not.mpr h32)]
    constructor
    · intro heq
      refine or_iff_not_imp_left.mpr fun hne => ?_
      have hone : 256 ^ padding b = 1 := (Nat.mul_eq_left hne).mp heq
      exact (Nat.pow_eq_one.mp hone).resolve_left (by decide)
    · rintro (hzero | hzero)
      · rw [hzero, Nat.zero_mul]
      · rw [hzero, Nat.pow_zero, Nat.mul_one]
  · rw [if_neg h32, Nat.pow_zero, Nat.mul_one]
    exact iff_of_true rfl (.inl h32)

/-- The number 255 in base 32. -/
theorem strtomp_iff_byte :
    (∃ text r e, mptoa ⟨1, [255], by decide⟩ 32 none = some text ∧ strtomp text 32 = some (r, e) ∧
      r.toInt = 255) ↔ 32 ≠ 32 ∨ (255 : ℤ) = 0 ∨ 5 ∣ nbytes ⟨1, [255], by decide⟩ :=
  strtomp_iff ⟨1, [255], by decide⟩ (.inr (.inr (.inl rfl)))

/-- The number 1 comes back from base 32 as 2 ^ 32. -/
theorem strtomp_padded :
    mptoa mpone 32 none = some "26222222".toList ∧
      strtomp "26222222".toList 32 = some (⟨1, [0, 1], by decide⟩, []) ∧
      Mpint.toInt ⟨1, [0, 1], by decide⟩ ≠ mpone.toInt := by
  decide +kernel

end Round

end Petele.Mp
