import Petele.Libc.U32
import Petele.Mp.Bytes
import Petele.Mp.Div

namespace Petele.Mp

open Lib Limbs BigEndian Libc

def uitomp (i : UInt32) : Mpint := mpnorm 1 [i]

def to64 (b : Mpint) (len : ℕ) : Option (List Char) := do
  let (p, n) ← mptobe b none
  some (enc64 len (p.take n))

/-- The array has room for a multiple of five bytes. -/
def to32 (b : Mpint) (len : ℕ) : Option (List Char) := do
  let (p, n) ← mptobe b (some (b.top * 4 + 5))
  let n := if n % 5 ≠ 0 then n + (5 - n % 5) else n
  enc32 len (p.take n)

def hexset : List Char := "0123456789ABCDEF".toList

def nibbles (x : UInt32) : List ℕ :=
  [28, 24, 20, 16, 12, 8, 4, 0].map fun i => (0xf &&& (x >>> UInt32.ofNat i)).toNat

/-- The loops of `to16`, over the bits in fours from the highest on. -/
def hexloop (len : ℕ) : List ℕ → List Char → Option (List Char)
  | [], out => some out
  | j :: js, out =>
    if j ≠ 0 ∨ out ≠ [] then
      if len ≤ out.length then none else hexloop len js (out ++ [hexset.getD j '\x00'])
    else hexloop len js out

def to16 (b : Mpint) (len : ℕ) : Option (List Char) :=
  if len < 1 then none
  else do
    let out ← hexloop len (b.p.reverse.flatMap nibbles) []
    let out := if out = [] then ['0'] else out
    if len ≤ out.length then none else some out

/-- The digits are put before those at `out`, which has a zero after it, while there is room. -/
def modbillion (rem len : ℕ) : ℕ → ℕ → List Char → Option (List Char)
  | 0, _, out => some out
  | i + 1, r, out =>
    if len ≤ out.length + 1 then none
    else
      let out := Char.ofNat ('0'.toNat + r % 10) :: out
      if rem = 0 ∧ r / 10 = 0 then some out else modbillion rem len i (r / 10) out

/-- The loop of `to10`. A remainder of zero has a zero at `r->p[0]`, and the signs are not looked
at. -/
def to10loop (len : ℕ) : ℕ → Mpint → List Char → Option (List Char)
  | 0, _, _ => none
  | fuel + 1, d, out => do
    let (q, r) ← mpdiv 0 d.sign d (uitomp 1000000000)
    let out ← modbillion q.top len 9 (r.p.headD 0).toNat out
    if q.top ≠ 0 then to10loop len fuel q out else some out

def to10 (b : Mpint) (len : ℕ) : Option (List Char) :=
  if len < 1 then none else to10loop len (2 * b.top + 1) (mpnorm b.sign b.p) []

/-- The text in a buffer of the given length, or in a new one. -/
def mptoa (b : Mpint) (base : ℕ) (buf : Option ℕ) : Option (List Char) :=
  let len := buf.getD (((b.top + 1) * 32 + 2) / 3 + 1)
  if len < 2 then none
  else do
    let len := if b.sign = -1 then len - 1 else len
    let out ← match base with
      | 64 => to64 b len
      | 32 => to32 b len
      | 10 => to10 b len
      | _ => to16 b len
    some (if b.sign = -1 then '-' :: out else out)

section Decimal

theorem digit_char {d : ℕ} (hd : d < 10) : Char.ofNat ('0'.toNat + d) = Nat.digitChar d := by
  have hall : ∀ d < 10, Char.ofNat ('0'.toNat + d) = Nat.digitChar d := by decide
  exact hall d hd

/-- The last digits, if nothing is above them. -/
theorem modbillion_last (len i : ℕ) (hi : 0 < i) (r : ℕ) (hr : r < 10 ^ i) (out : List Char)
    (hlen : (Nat.toDigits 10 r).length + out.length < len) :
    modbillion 0 len i r out = some (Nat.toDigits 10 r ++ out) := by
  induction i generalizing r out with
  | zero => omega
  | succ i ih =>
    have hpos := Nat.length_toDigits_pos (b := 10) (n := r)
    rw [modbillion, if_neg (by omega), digit_char (Nat.mod_lt r (by decide))]
    by_cases hsmall : r < 10
    · rw [if_pos ⟨rfl, by omega⟩, Nat.toDigits_of_lt_base hsmall, Nat.mod_eq_of_lt hsmall]
      rfl
    · have hdigits := Nat.toDigits_of_base_le (b := 10) (n := r) (by decide) (by omega)
      rw [hdigits, List.length_append, List.length_singleton] at hlen
      have hi' : 0 < i := by
        by_contra hzero
        rw [show i = 0 by omega] at hr
        omega
      rw [if_neg (by omega), ih hi' _ (by rw [Nat.pow_succ] at hr; omega) _ (by
        rw [List.length_cons]
        omega), hdigits, List.append_assoc]
      rfl

/-- A whole group of digits, if something is above them. -/
theorem modbillion_group {rem q : ℕ} (hrem : rem ≠ 0) (hq : 0 < q) (len i r : ℕ) (hr : r < 10 ^ i)
    (out : List Char) (hlen : (Nat.toDigits 10 (r + 10 ^ i * q)).length + out.length < len) :
    ∃ ds, modbillion rem len i r out = some (ds ++ out) ∧
      Nat.toDigits 10 (r + 10 ^ i * q) = Nat.toDigits 10 q ++ ds := by
  induction i generalizing r out with
  | zero =>
    rw [Nat.pow_zero] at hr ⊢
    rw [show r + 1 * q = q by omega]
    exact ⟨[], rfl, (List.append_nil _).symm⟩
  | succ i ih =>
    have hpow : 10 ^ (i + 1) * q = 10 * (10 ^ i * q) := by
      rw [Nat.pow_succ]
      ring
    have hpos : 0 < 10 ^ i * q := Nat.mul_pos (Nat.pow_pos (by decide)) hq
    have hdigits := Nat.toDigits_of_base_le (b := 10) (n := r + 10 ^ (i + 1) * q) (by decide) (by omega)
    rw [show (r + 10 ^ (i + 1) * q) / 10 = r / 10 + 10 ^ i * q by omega,
      show (r + 10 ^ (i + 1) * q) % 10 = r % 10 by omega] at hdigits
    rw [hdigits, List.length_append, List.length_singleton] at hlen
    obtain ⟨ds, hmod, hds⟩ := ih (r / 10) (by rw [Nat.pow_succ] at hr; omega)
      (Nat.digitChar (r % 10) :: out) (by rw [List.length_cons]; omega)
    refine ⟨ds ++ [Nat.digitChar (r % 10)], ?_, ?_⟩
    · rw [modbillion, if_neg (by omega), digit_char (Nat.mod_lt r (by decide)), if_neg fun h => hrem h.1,
        hmod, List.append_assoc]
      rfl
    · rw [hdigits, hds, List.append_assoc]

theorem head_of_small {b : Mpint} (h : val b.p < 2 ^ 32) : (b.p.headD 0).toNat = val b.p := by
  cases hp : b.p with
  | nil => rfl
  | cons x p =>
    rw [hp, val_cons] at h
    rw [List.headD_cons, val_cons]
    omega

theorem to10loop_spec (len fuel : ℕ) (hfuel : 0 < fuel) (d : Mpint) (hd : val d.p < (10 ^ 9) ^ fuel)
    (out : List Char) (hlen : (Nat.toDigits 10 (val d.p)).length + out.length < len) :
    to10loop len fuel d out = some (Nat.toDigits 10 (val d.p) ++ out) := by
  induction fuel generalizing d out with
  | zero => omega
  | succ fuel ih =>
    have hbillion : val (uitomp 1000000000).p = 10 ^ 9 := by decide
    obtain ⟨q, r, hdiv, hq, hr⟩ := mpdiv_spec 0 d.sign (a := d) (b := uitomp 1000000000) (by decide)
    rw [if_neg (fun h => absurd h.2 (by decide)), hbillion] at hr
    rw [hbillion] at hq
    have hrval : val r.p = val d.p % 10 ^ 9 := by
      rw [← abs_toInt r, hr, Int.natAbs_mul, Int.natAbs_natCast, Int.units_natAbs, Nat.one_mul]
    have hrlt : val r.p < 10 ^ 9 := hrval ▸ Nat.mod_lt _ (by decide)
    have hsplit : val d.p = val r.p + 10 ^ 9 * val q.p := by
      rw [hrval, hq, Nat.mod_add_div]
    rw [to10loop, hdiv]
    simp only [Option.bind_eq_bind, Option.bind_some]
    rw [head_of_small (by omega)]
    by_cases hzero : val q.p = 0
    · have htop : q.top = 0 := top_eq_zero.mpr (val_eq_zero.mp hzero)
      rw [hzero, Nat.mul_zero, Nat.add_zero] at hsplit
      rw [hsplit] at hlen ⊢
      rw [htop, modbillion_last len 9 (by decide) _ hrlt out hlen]
      rfl
    · have htop : q.top ≠ 0 := fun h => hzero (val_eq_zero.mpr (top_eq_zero.mp h))
      rw [hsplit] at hlen ⊢
      obtain ⟨ds, hmod, hds⟩ := modbillion_group htop (Nat.pos_of_ne_zero hzero) len 9 _ hrlt out hlen
      rw [hmod]
      simp only [Option.bind_some]
      rw [hds, List.length_append] at hlen
      have hqlt : val q.p < (10 ^ 9) ^ fuel := by
        rw [hq, Nat.div_lt_iff_lt_mul (by decide), ← Nat.pow_succ]
        exact hd
      have hfuel' : 0 < fuel := by
        by_contra hnone
        rw [show fuel = 0 by omega, Nat.pow_zero] at hqlt
        omega
      rw [if_pos htop, ih hfuel' q hqlt _ (by rw [List.length_append]; omega), hds, List.append_assoc]

/-- The text of `to10` is the decimal one, if there is room for it. -/
theorem to10_spec (b : Mpint) {len : ℕ} (hlen : (Nat.toDigits 10 (val b.p)).length < len) :
    to10 b len = some (Nat.toDigits 10 (val b.p)) := by
  have hnorm : val (mpnorm b.sign b.p).p = val b.p := by rw [mpnorm_p, val_strip]
  have hlt : val (mpnorm b.sign b.p).p < (10 ^ 9) ^ (2 * b.top + 1) := by
    rw [hnorm]
    calc val b.p < (2 ^ 32) ^ b.top := val_lt b.p
      _ = (2 ^ 16) ^ (2 * b.top) := by rw [← Nat.pow_mul, ← Nat.pow_mul]; congr 1; ring
      _ ≤ (10 ^ 9) ^ (2 * b.top) := Nat.pow_le_pow_left (by decide) _
      _ ≤ (10 ^ 9) ^ (2 * b.top + 1) := Nat.pow_le_pow_right (by decide) (by omega)
  rw [to10, if_neg (by omega), to10loop_spec len _ (by omega) _ hlt [] (by rw [hnorm]; simpa using hlen),
    hnorm, List.append_nil]

end Decimal

section Hexadecimal

def hexchar (j : ℕ) : Char := hexset.getD j '\x00'

theorem hexloop_rest (len : ℕ) (js : List ℕ) (out : List Char) (hout : out ≠ [])
    (hlen : out.length + js.length ≤ len) : hexloop len js out = some (out ++ js.map hexchar) := by
  induction js generalizing out with
  | nil => rw [hexloop, List.map_nil, List.append_nil]
  | cons j js ih =>
    rw [List.length_cons] at hlen
    rw [hexloop, if_pos (.inr hout), if_neg (by omega), ih _ (by simp) (by
      rw [List.length_append, List.length_singleton]
      omega), List.append_assoc]
    rfl

/-- The zeros in front are left out. -/
theorem hexloop_spec (len : ℕ) (js : List ℕ) (hlen : js.length ≤ len) :
    hexloop len js [] = some ((js.dropWhile (· = 0)).map hexchar) := by
  induction js with
  | nil => rfl
  | cons j js ih =>
    rw [List.length_cons] at hlen
    by_cases hj : j = 0
    · rw [hexloop, if_neg (by simp [hj]), ih (by omega), hj]
      rfl
    · rw [hexloop, if_pos (.inl hj), if_neg (by simp; omega), hexloop_rest _ _ _ (by simp) (by
        simp
        omega), List.dropWhile_cons_of_neg (by simpa using hj)]
      rfl

theorem nibbles_value (x : UInt32) : Nat.ofDigits 16 (nibbles x).reverse = x.toNat := by
  have hx := x.toNat_lt
  have hnib : ∀ i < 32, (0xf &&& (x >>> UInt32.ofNat i)).toNat = x.toNat / 2 ^ i % 16 := by
    intro i hi
    rw [UInt32.toNat_and, toNat_shr x hi, show (0xf : UInt32).toNat = 2 ^ 4 - 1 from rfl, Nat.and_comm,
      Nat.and_two_pow_sub_one_eq_mod]
  simp only [nibbles, List.map_cons, List.map_nil, List.reverse_cons, List.reverse_nil,
    List.nil_append, List.cons_append]
  rw [hnib 28 (by decide), hnib 24 (by decide), hnib 20 (by decide), hnib 16 (by decide),
    hnib 12 (by decide), hnib 8 (by decide), hnib 4 (by decide), hnib 0 (by decide)]
  simp only [Nat.ofDigits_cons, Nat.ofDigits_nil]
  omega

theorem nibbles_lt (x : UInt32) : ∀ j ∈ nibbles x, j < 16 := by
  intro j hj
  obtain ⟨i, -, rfl⟩ := List.mem_map.mp hj
  rw [UInt32.toNat_and, show (0xf : UInt32).toNat = 2 ^ 4 - 1 from rfl, Nat.and_comm,
    Nat.and_two_pow_sub_one_eq_mod]
  exact Nat.mod_lt _ (by decide)

theorem hexdigits_value (p : Vec) : Nat.ofDigits 16 (p.reverse.flatMap nibbles).reverse = val p := by
  rw [List.reverse_flatMap, List.reverse_reverse]
  induction p with
  | nil => rfl
  | cons x p ih =>
    have hlen : (nibbles x).reverse.length = 8 := rfl
    rw [List.flatMap_cons, Function.comp_apply, Nat.ofDigits_append, nibbles_value, ih, val_cons, hlen,
      show (16 : ℕ) ^ 8 = 2 ^ 32 by decide]

/-- The text of `to16`: digits for fours of bits with the value of the number, if there is room. -/
theorem to16_spec (b : Mpint) {len : ℕ} (hlen : 8 * b.top + 1 < len) :
    ∃ js : List ℕ, to16 b len = some (js.map hexchar) ∧ (∀ j ∈ js, j < 16) ∧ js ≠ [] ∧
      Nat.ofDigits 16 js.reverse = val b.p := by
  have hcount : (b.p.reverse.flatMap nibbles).length = 8 * b.top := by
    rw [List.length_flatMap]
    simp [nibbles, Mpint.top, Nat.mul_comm]
  have hall : ∀ j ∈ b.p.reverse.flatMap nibbles, j < 16 := by
    intro j hj
    obtain ⟨x, -, hx⟩ := List.mem_flatMap.mp hj
    exact nibbles_lt x j hx
  have hvalue := hexdigits_value b.p
  rw [to16, if_neg (by omega)]
  generalize b.p.reverse.flatMap nibbles = ks at *
  have hdrop : Nat.ofDigits 16 (ks.dropWhile (· = 0)).reverse = val b.p := by
    have hzeros : ks.takeWhile (· = 0) = List.replicate (ks.takeWhile (· = 0)).length 0 :=
      List.eq_replicate_length.mpr fun j hj => by simpa using List.mem_takeWhile_imp hj
    rw [← hvalue]
    conv_rhs => rw [← List.takeWhile_append_dropWhile (p := (· = 0)) (l := ks)]
    rw [List.reverse_append, hzeros, List.reverse_replicate, Nat.ofDigits_append_replicate_zero]
  have hle : (ks.dropWhile (· = 0)).length ≤ ks.length := (List.dropWhile_sublist _).length_le
  have hloop := hexloop_spec len ks (by omega)
  have hmem : ∀ j ∈ ks.dropWhile (· = 0), j < 16 := fun j hj =>
    hall j ((List.dropWhile_sublist _).subset hj)
  generalize ks.dropWhile (· = 0) = js at *
  rw [hloop]
  simp only [Option.bind_eq_bind, Option.bind_some]
  by_cases hnil : js = []
  · rw [hnil] at hdrop ⊢
    refine ⟨[0], ?_, by simp, by simp, hdrop⟩
    rw [List.map_nil, if_pos rfl, List.length_singleton, if_neg (by omega)]
    rfl
  · refine ⟨js, ?_, hmem, hnil, hdrop⟩
    have hmap : js.map hexchar ≠ [] := by simpa using hnil
    rw [if_neg hmap, List.length_map, if_neg (by omega)]

end Hexadecimal

section Bytes

theorem to64_spec (b : Mpint) (len : ℕ) : to64 b len = some (enc64 len (mptober b (nbytes b))) := by
  obtain ⟨hlen, -⟩ := mptober_spec b
  rw [to64, mptobe]
  simp only [Option.bind_eq_bind, Option.bind_some]
  rw [List.take_of_length_le hlen.le]

/-- The zeros after the bytes, up to a multiple of five. -/
def padding (b : Mpint) : ℕ := (5 - nbytes b % 5) % 5

theorem to32_spec (b : Mpint) {len : ℕ} (hlen : (8 * (b.top * 4 + 5) + 4) / 5 < len) :
    to32 b len = some (enc32loop (mptober b (nbytes b) ++ List.replicate (padding b) 0)) := by
  obtain ⟨hcount, -⟩ := mptober_spec b
  have hfew : nbytes b ≤ b.top * 4 + 1 := by
    by_cases hnil : b.p = []
    · rw [nbytes_zero hnil]
      omega
    · have hle := (nbytes_spec hnil).2.2
      omega
  have hround : (if nbytes b % 5 ≠ 0 then nbytes b + (5 - nbytes b % 5) else nbytes b) =
      nbytes b + padding b := by
    rw [padding]
    split <;> omega
  have hpad : padding b ≤ 4 := by
    rw [padding]
    omega
  rw [to32, mptobe, if_neg (by omega)]
  simp only [Option.bind_eq_bind, Option.bind_some]
  have htake : (mptober b (nbytes b) ++ List.replicate (b.top * 4 + 5 - nbytes b) 0).take
      (nbytes b + padding b) = mptober b (nbytes b) ++ List.replicate (padding b) 0 := by
    rw [List.take_append, hcount, List.take_of_length_le (by omega), Nat.add_sub_cancel_left,
      List.take_replicate, Nat.min_eq_left (by omega)]
  rw [hround, htake, enc32, if_neg]
  rw [List.length_append, List.length_replicate, hcount]
  omega

end Bytes

end Petele.Mp
