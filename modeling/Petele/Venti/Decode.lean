import Petele.Venti.Encode
import Petele.Venti.Unwhack

namespace Petele.Venti

open Lib

variable {src : List UInt8} {ndst : ℕ} {d : Dec}

section Window

structure Sound (src : List UInt8) (d : Dec) : Prop where
  most : d.uwnbits ≤ 32
  inside : d.src ≤ src.length
  whole : d.src < src.length → d.overbits = 0

/-- How many bits of the source are left. After an overrun it is negative. -/
def left (src : List UInt8) (d : Dec) : ℤ := 8 * (src.length - d.src) + d.uwnbits - d.overbits

/-- The bits that are left. -/
def Reads (src : List UInt8) (d : Dec) (l : List Bool) : Prop :=
  bits d.uwnbits d.uwbits ++ bytebits (src.drop d.src) = l ++ List.replicate d.overbits false

theorem Reads.left {l : List Bool} (h : Reads src d l) (hs : Sound src d) : left src d = l.length := by
  have hlen := congrArg List.length h
  rw [List.length_append, List.length_append, length_bits, length_bytebits, List.length_drop, List.length_replicate] at hlen
  have hin := hs.inside
  rw [Venti.left]
  omega

theorem refill_spec (h : Sound src d) : ∃ d', refill src d = some d' ∧ Sound src d' ∧ 25 ≤ d'.uwnbits ∧ d'.out = d.out ∧
    d'.lithist = d.lithist ∧ left src d' = left src d ∧ ∀ l, Reads src d l → Reads src d' l := by
  induction hn : 32 - d.uwnbits using Nat.strongRecOn generalizing d with
  | ind n ih =>
    have hmost := h.most
    have hin := h.inside
    rw [refill]
    split
    · rename_i hlow
      split
      · rename_i hmore
        obtain ⟨b, hb⟩ : ∃ b, src[d.src]? = some b := ⟨_, List.getElem?_eq_getElem hmore⟩
        have hdrop : src.drop d.src = b :: src.drop (d.src + 1) := by
          obtain ⟨hlt, hget⟩ := List.getElem?_eq_some_iff.mp hb
          rw [← hget]
          exact List.drop_eq_getElem_cons hlt
        have hover := h.whole hmore
        have hsound : Sound src { d with
            src := d.src + 1, uwbits := (d.uwbits <<< 8 ||| b.toNat) % 2 ^ 32, uwnbits := d.uwnbits + 8 } :=
          ⟨by simp only; omega, hmore, fun _ => hover⟩
        obtain ⟨d', hd', hs', h25, hout, hhist, hleft, hreads⟩ := ih (32 - (d.uwnbits + 8)) (by omega) hsound rfl
        rw [hb, Option.bind_some]
        refine ⟨d', hd', hs', h25, hout, hhist, ?_, fun l hl => hreads l ?_⟩
        · rw [hleft]
          simp only [left]
          omega
        · rw [Reads] at hl ⊢
          simp only
          rw [hdrop, bytebits_cons, ← List.append_assoc, ← bits_push d.uwnbits d.uwbits b.toNat_lt] at hl
          rw [bits_mod (by omega)]
          exact hl
      · rename_i hmore
        have hsound : Sound src { d with
            uwbits := (d.uwbits <<< 8) % 2 ^ 32, overbits := d.overbits + 8, uwnbits := d.uwnbits + 8 } :=
          ⟨by simp only; omega, hin, fun hc => absurd hc hmore⟩
        obtain ⟨d', hd', hs', h25, hout, hhist, hleft, hreads⟩ := ih (32 - (d.uwnbits + 8)) (by omega) hsound rfl
        refine ⟨d', hd', hs', h25, hout, hhist, ?_, fun l hl => hreads l ?_⟩
        · rw [hleft]
          simp only [left]
          omega
        · rw [Reads] at hl ⊢
          simp only
          have hnil : bytebits (src.drop d.src) = [] := by
            rw [List.drop_eq_nil_of_le (Nat.not_lt.mp hmore)]
            rfl
          have hpush := bits_push d.uwnbits d.uwbits (Nat.two_pow_pos 8)
          rw [Nat.or_zero, bits_zero] at hpush
          rw [hnil, List.append_nil] at hl ⊢
          rw [bits_mod (by omega), hpush, hl, List.append_assoc, List.replicate_append_replicate]
    · exact ⟨d, rfl, h, by omega, rfl, rfl, rfl, fun l hl => hl⟩

/-- Bits are taken from the front. -/
theorem Reads.take {k v : ℕ} {l : List Bool} (h : Reads src d (bits k v ++ l)) (hk : k ≤ d.uwnbits) (hv : v < 2 ^ k) :
    d.uwbits / 2 ^ (d.uwnbits - k) % 2 ^ k = v ∧ Reads src { d with uwnbits := d.uwnbits - k } l := by
  rw [Reads, List.append_assoc] at h
  exact bits_read h hk hv

end Window

section Copies

theorem copy_spec {off len : ℕ} {out : List UInt8} (hpos : 1 ≤ off) (hle : off ≤ out.length) (hfits : out.length + len ≤ ndst) :
    copy ndst off len out = some (repeats off len out) := by
  induction len generalizing out with
  | zero => rfl
  | succ len ih =>
    have hlt : out.length - off < out.length := by omega
    have hget : out.getD (out.length - off) 0 = out[out.length - off] := by
      rw [List.getD_eq_getElem?_getD, List.getElem?_eq_getElem hlt]
      rfl
    rw [copy, if_neg (by omega), List.getElem?_eq_getElem hlt, Option.bind_some, emit, if_pos (by omega), Option.bind_some,
      repeats, hget]
    apply ih
    · rw [List.length_append]
      omega
    · rw [List.length_append, List.length_singleton]
      omega

theorem getoff_spec (d : Dec) : 1 ≤ (getoff d).1 ∧ ∃ n, 5 ≤ n ∧ n ≤ 13 ∧ (getoff d).2 = { d with uwnbits := d.uwnbits - 4 - n } := by
  have hidx : d.uwbits >>> (d.uwnbits - 4) &&& 0xf < 16 := lt_of_le_of_lt Nat.and_le_right (by decide)
  have hall : ∀ i < 16, 5 ≤ offbits.getD i 0 ∧ offbits.getD i 0 ≤ 13 := by decide
  obtain ⟨hlow, htop⟩ := hall _ hidx
  exact ⟨Nat.succ_pos _, _, hlow, htop, rfl⟩

theorem lenloop_le {uwbits n len code use b len' n' : ℕ} (h : lenloop uwbits n len code use b = some (len', n')) : n' ≤ n := by
  induction n generalizing len code use b with
  | zero =>
    rw [lenloop] at h
    split at h
    · cases h
    · exact le_of_eq (Prod.mk.inj (Option.some.inj h)).2.symm
  | succ n ih =>
    rw [lenloop] at h
    split at h
    · exact Nat.le_succ_of_le (ih h)
    · exact le_of_eq (Prod.mk.inj (Option.some.inj h)).2.symm

end Copies

section Safety

/-- What a part of the loop leaves behind. -/
structure After (src : List UInt8) (ndst : ℕ) (d d' : Dec) : Prop where
  sound : Sound src d'
  fits : d'.out.length ≤ ndst
  less : left src d' + 8 ≤ left src d

theorem Sound.drop (h : Sound src d) (k : ℕ) : Sound src { d with uwnbits := d.uwnbits - k } :=
  ⟨le_trans (Nat.sub_le _ _) h.most, h.inside, h.whole⟩

theorem getlit_bits (h : 25 ≤ d.uwnbits) : (getlit d).2 + 8 ≤ d.uwnbits := by
  rw [getlit]
  split
  · simp only
    omega
  · simp only
    split
    · split <;> simp only <;> omega
    · simp only
      omega

/-- The length of a match takes two bits at least, and leaves enough for the offset. -/
theorem getlen_spec (h : Sound src d) (h25 : 25 ≤ d.uwnbits) {i : ℕ} (hi : i < 32) (hlen : lenval.getD i 0 ≠ 0) :
    ∃ r, getlen src d (lenval.getD i 0) = some r ∧ ∀ len d', r = .ok (len, d') →
      Sound src d' ∧ 20 ≤ d'.uwnbits ∧ d'.out = d.out ∧ left src d' + 2 ≤ left src d := by
  have hall : ∀ i < 32, lenval.getD i 0 ≠ 0 → lenval.getD i 0 < 255 →
      2 ≤ lenbits.getD (lenval.getD i 0) 0 ∧ lenbits.getD (lenval.getD i 0) 0 ≤ 5 := by decide
  rw [getlen]
  split
  · rename_i hfast
    obtain ⟨h2, h5⟩ := hall i hi hlen hfast
    refine ⟨_, rfl, fun len d' hr => ?_⟩
    obtain ⟨rfl, rfl⟩ := Prod.mk.inj (Except.ok.inj hr)
    refine ⟨h.drop _, by simp only; omega, rfl, ?_⟩
    simp only [left]
    omega
  · simp only
    split
    · exact ⟨_, rfl, fun len d' hr => nomatch hr⟩
    · rename_i len n hloop
      have hn := lenloop_le hloop
      simp only [DBigLenBits] at hn
      have hmost := h.most
      have hsound : Sound src { d with uwnbits := n } := ⟨by simp only; omega, h.inside, h.whole⟩
      obtain ⟨d₁, hd₁, hs₁, h₁, hout, -, hleft, -⟩ := refill_spec hsound
      rw [hd₁]
      refine ⟨_, rfl, fun len' d' hr => ?_⟩
      obtain ⟨rfl, rfl⟩ := Prod.mk.inj (Except.ok.inj hr)
      refine ⟨hs₁, by omega, hout, ?_⟩
      rw [hleft]
      simp only [left]
      omega

theorem getmatch_safe (h : Sound src d) (h20 : 20 ≤ d.uwnbits) (len : ℕ) :
    ∃ r, getmatch ndst len d = some r ∧ ∀ d', r = .ok d' →
      Sound src d' ∧ d'.out.length ≤ ndst ∧ left src d' + 9 ≤ left src d := by
  obtain ⟨hpos, n, h5, h13, hd⟩ := getoff_spec d
  rw [getmatch]
  simp only [hd]
  split
  · exact ⟨_, rfl, fun d' hr => nomatch hr⟩
  · rename_i hoff
    split
    · exact ⟨_, rfl, fun d' hr => nomatch hr⟩
    · rename_i hfits
      rw [Nat.not_lt] at hoff hfits
      rw [copy_spec hpos hoff hfits]
      refine ⟨_, rfl, fun d' hr => ?_⟩
      obtain rfl := Except.ok.inj hr
      have hmost := h.most
      refine ⟨⟨by simp only; omega, h.inside, h.whole⟩, ?_, ?_⟩
      · simp only [length_repeats]
        exact hfits
      · simp only [left]
        omega

theorem decode_safe (ndst : ℕ) (h : Sound src d) (h25 : 25 ≤ d.uwnbits) :
    ∃ r, decode src ndst d = some r ∧ ∀ d', r = .ok d' → After src ndst d d' := by
  have hidx : d.uwbits >>> (d.uwnbits - 5) &&& 0x1f < 32 := lt_of_le_of_lt Nat.and_le_right (by decide)
  rw [decode]
  simp only
  split
  · split
    · exact ⟨_, rfl, fun d' hr => nomatch hr⟩
    · rename_i hroom
      have hbits := getlit_bits h25
      have hmost := h.most
      rw [emit, if_pos (Nat.not_le.mp hroom)]
      refine ⟨_, rfl, fun d' hr => ?_⟩
      obtain rfl := Except.ok.inj hr
      refine ⟨⟨by simp only; omega, h.inside, h.whole⟩, ?_, ?_⟩
      · simp only [List.length_append, List.length_singleton]
        omega
      · simp only [left]
        omega
  · rename_i hlen
    obtain ⟨r, hr, hok⟩ := getlen_spec h h25 hidx hlen
    rw [hr, Option.bind_some]
    cases r with
    | error e => exact ⟨_, rfl, fun d' hr => nomatch hr⟩
    | ok v =>
      obtain ⟨len, d₁⟩ := v
      obtain ⟨hs₁, h20, hout₁, hleft₁⟩ := hok len d₁ rfl
      obtain ⟨r', hr', hok'⟩ := getmatch_safe hs₁ h20 len
      refine ⟨r', hr', fun d' hd' => ?_⟩
      obtain ⟨hs', hfits, hleft'⟩ := hok' d' hd'
      exact ⟨hs', hfits, by omega⟩

/-- The loop goes on while there is a byte left. -/
theorem Sound.goes (h : Sound src d) : (d.src < src.length ∨ d.uwnbits ≥ d.overbits + MinDecode) ↔ 8 ≤ left src d := by
  have hin := h.inside
  have hwhole := h.whole
  simp only [left, MinDecode]
  constructor
  · rintro (hlt | hge)
    · have hzero := hwhole hlt
      omega
    · omega
  · intro h8
    by_cases hlt : d.src < src.length
    · exact .inl hlt
    · right
      omega

theorem unwhackloop_safe {fuel : ℕ} (h : Sound src d) (hout : d.out.length ≤ ndst) (hpos : 0 < fuel) (hfuel : left src d < 8 * fuel) :
    ∃ r, unwhackloop src ndst fuel d = some r ∧ ∀ out, r = .ok out → out.length ≤ ndst := by
  induction fuel generalizing d with
  | zero => omega
  | succ fuel ih =>
    rw [unwhackloop]
    split
    · rename_i hgo
      have h8 := h.goes.mp hgo
      obtain ⟨d₁, hd₁, hs₁, h25, hout₁, -, hleft₁, -⟩ := refill_spec h
      obtain ⟨r, hr, hok⟩ := decode_safe ndst hs₁ h25
      rw [hd₁, Option.bind_some, hr, Option.bind_some]
      cases r with
      | error e => exact ⟨_, rfl, fun out hr => nomatch hr⟩
      | ok d' =>
        have hafter := hok d' rfl
        have hless := hafter.less
        exact ih hafter.sound hafter.fits (by omega) (by omega)
    · split
      · exact ⟨_, rfl, fun out hr => nomatch hr⟩
      · refine ⟨_, rfl, fun out hr => ?_⟩
        obtain rfl := Except.ok.inj hr
        exact hout

theorem unwhack_safe (src : List UInt8) (ndst : ℕ) :
    ∃ r, unwhack src ndst = some r ∧ ∀ out, r = .ok out → out.length ≤ ndst := by
  refine unwhackloop_safe ⟨Nat.zero_le _, Nat.zero_le _, fun _ => rfl⟩ (Nat.zero_le _) (Nat.succ_pos _) ?_
  simp only [left]
  omega

end Safety

section Literals

theorem div_pow_sub {u n j k : ℕ} (hj : j ≤ k) (hk : k ≤ n) : u / 2 ^ (n - j) = u / 2 ^ (n - k) / 2 ^ (k - j) := by
  rw [Nat.div_div_eq_div_mul, ← Nat.pow_add]
  congr 2
  omega

theorem or_low {x k : ℕ} (a : ℕ) (hx : x < 2 ^ k) : a <<< k ||| x = a * 2 ^ k + x := by
  rw [← Nat.shiftLeft_add_eq_or_of_lt hx, Nat.shiftLeft_eq]

theorem byte_back (b : UInt8) : UInt8.ofNat ((b.toNat + 64) % 256) - 64 = b := by
  have h : UInt8.ofNat ((b.toNat + 64) % 256) = b + 64 := by
    apply UInt8.toNat_inj.mp
    rw [UInt8.toNat_ofNat', UInt8.toNat_add]
    exact Nat.mod_mod _ _
  rw [h]
  exact UInt8.add_sub_cancel b 64

/-- The first five bits of a literal. -/
theorem lenval_lit {k v : ℕ} {l : List Bool} (h : Reads src d (bits k v ++ l)) (hk : 5 ≤ k) (hle : k ≤ d.uwnbits)
    (hv : v < 2 ^ (k - 1)) : lenval.getD (d.uwbits >>> (d.uwnbits - 5) &&& 0x1f) 0 = 0 := by
  have hall : ∀ i < 16, lenval.getD i 0 = 0 := by decide
  have hpow : 2 ^ k = 2 ^ (k - 5) * 2 ^ 5 := by
    rw [← Nat.pow_add, Nat.sub_add_cancel hk]
  have hpow' : 2 ^ (k - 1) = 2 ^ (k - 5) * 2 ^ 4 := by
    rw [← Nat.pow_add, show k - 5 + 4 = k - 1 by omega]
  obtain ⟨hval, -⟩ := h.take hle (lt_of_lt_of_le hv (Nat.pow_le_pow_right (by decide) (by omega)))
  have hidx : d.uwbits >>> (d.uwnbits - 5) &&& 0x1f = v / 2 ^ (k - 5) := by
    rw [Nat.shiftRight_eq_div_pow, show (0x1f : ℕ) = 2 ^ 5 - 1 from rfl, Nat.and_two_pow_sub_one_eq_mod, div_pow_sub hk hle,
      ← hval, hpow, Nat.mod_mul_right_div_self]
  rw [hidx]
  apply hall
  rw [Nat.div_lt_iff_lt_mul (Nat.two_pow_pos _), Nat.mul_comm]
  exact lt_of_lt_of_eq hv hpow'

theorem getlit_spec {b : UInt8} {l : List Bool}
    (h : Reads src d (bits (litcode (remember d.lithist b) b).1 (litcode (remember d.lithist b) b).2 ++ l)) (h25 : 25 ≤ d.uwnbits) :
    getlit d = (b, d.uwnbits - (litcode (remember d.lithist b) b).1) := by
  obtain ⟨-, hmax, hlt⟩ := litcode_bound d.lithist b
  have hlt' := lt_of_lt_of_le hlt (Nat.pow_le_pow_right (by decide : 0 < 2) (Nat.sub_le _ 1))
  obtain ⟨hval, -⟩ := h.take (by omega) hlt'
  have hb := b.toNat_lt
  have hand : ∀ x : ℕ, x &&& 0xf = x % 16 := fun x => Nat.and_two_pow_sub_one_eq_mod x 4
  have hff : ∀ x : ℕ, x &&& 0xff = x % 256 := fun x => Nat.and_two_pow_sub_one_eq_mod x 8
  have h7f : ∀ x : ℕ, x &&& 0x7f = x % 128 := fun x => Nat.and_two_pow_sub_one_eq_mod x 7
  have h3 : ∀ x : ℕ, x &&& 3 = x % 4 := fun x => Nat.and_two_pow_sub_one_eq_mod x 2
  have h7 : ∀ x : ℕ, x &&& 7 = x % 8 := fun x => Nat.and_two_pow_sub_one_eq_mod x 3
  rw [litcode_eq] at hval ⊢
  simp only [getlit, hand, hff, h7f, h3, h7, Nat.shiftRight_eq_div_pow]
  by_cases hfour : d.lithist % 16 ≠ 0
  · simp only [if_pos hfour] at hval ⊢
    rw [show d.uwbits / 2 ^ (d.uwnbits - 9) % 256 = b.toNat by omega, UInt8.ofNat_toNat]
  · simp only [if_neg hfour] at hval ⊢
    by_cases hodd : b < 32 ∨ b > 127
    · have hodd' : b.toNat < 32 ∨ 127 < b.toNat := hodd.imp UInt8.lt_iff_toNat_lt.mp UInt8.lt_iff_toNat_lt.mp
      simp only [if_pos hodd] at hval ⊢
      by_cases hsmall : (b.toNat + 64) % 256 < 96
      · simp only [if_pos hsmall] at hval ⊢
        have hsplit : d.uwbits / 2 ^ (d.uwnbits - 8) = d.uwbits / 2 ^ (d.uwnbits - 10) / 4 := div_pow_sub (by decide) (by omega)
        rw [show d.uwnbits - 8 - 2 = d.uwnbits - 10 by omega, hsplit]
        generalize d.uwbits / 2 ^ (d.uwnbits - 10) = y at hval ⊢
        have hor : (y / 4 % 128) <<< 2 ||| y % 4 = (b.toNat + 64) % 256 := by
          have hy : y % 4 < 2 ^ 2 := Nat.mod_lt y (by decide)
          rw [or_low _ hy]
          omega
        rw [if_pos (by omega), if_pos (by omega), hor, byte_back]
      · simp only [if_neg hsmall] at hval ⊢
        have hsplit : d.uwbits / 2 ^ (d.uwnbits - 8) = d.uwbits / 2 ^ (d.uwnbits - 11) / 8 := div_pow_sub (by decide) (by omega)
        rw [show d.uwnbits - 8 - 3 = d.uwnbits - 11 by omega, hsplit]
        generalize d.uwbits / 2 ^ (d.uwnbits - 11) = y at hval ⊢
        have hor : (y / 8 % 128) <<< 3 ||| y % 8 = (b.toNat + 64) % 256 := by
          have hy : y % 8 < 2 ^ 3 := Nat.mod_lt y (by decide)
          rw [or_low _ hy]
          omega
        rw [if_pos (by omega), if_neg (by omega), hor, byte_back]
    · simp only [if_neg hodd] at hval ⊢
      have hge := UInt8.le_iff_toNat_le.mp (UInt8.not_lt.mp fun hc => hodd (.inl hc))
      have hle := UInt8.le_iff_toNat_le.mp (UInt8.not_lt.mp fun hc => hodd (.inr hc))
      have h32 : (32 : UInt8).toNat = 32 := rfl
      have h127 : (127 : UInt8).toNat = 127 := rfl
      rw [show d.uwbits / 2 ^ (d.uwnbits - 8) % 128 = b.toNat by omega, if_neg (by omega), UInt8.ofNat_toNat]

end Literals

section Lengths

theorem lenloop_stop {uwbits n len code use b : ℕ} (h : code < use) : lenloop uwbits n len code use b = some (len + code, n) := by
  cases n <;> rw [lenloop, if_neg (Nat.not_le.mpr h)]

/-- The decoder goes through the same groups as the encoder. -/
theorem lenloop_spec {fuel len code use size n acc c m C : ℕ} {l : List Bool} (huse : 0 < use) (hlen : len < fuel + use)
    (hC : biglen fuel len code use size = (size + m, C)) (hc : C / 2 ^ m = code + c) (hm : m ≤ n)
    (h : Reads src { d with uwnbits := n } (bits m C ++ l)) :
    lenloop d.uwbits n acc c use ((size &&& 1) ^^^ 1) = some (acc + len, n - m) ∧
      Reads src { d with uwnbits := n - m } l := by
  induction fuel generalizing len code use size n acc c m with
  | zero =>
    rw [biglen_zero] at hC
    obtain ⟨hsize, rfl⟩ := Prod.mk.inj hC
    obtain rfl : m = 0 := by omega
    rw [Nat.pow_zero, Nat.div_one] at hc
    obtain rfl : c = len := by omega
    exact ⟨lenloop_stop (by omega), h⟩
  | succ fuel ih =>
    rw [biglen_succ] at hC
    split at hC
    · rename_i hle
      obtain ⟨m', c', hm', hc'⟩ := biglen_head fuel (len - use) ((code + use) <<< 1) (use <<< ((size &&& 1) ^^^ 1)) (size + 1)
      have hpair : biglen fuel (len - use) ((code + use) <<< 1) (use <<< ((size &&& 1) ^^^ 1)) (size + 1) =
          (size + 1 + m', C) := Prod.ext hm' (by rw [hC])
      rw [hC] at hm' hc'
      obtain rfl : m = m' + 1 := by
        simp only at hm'
        omega
      obtain ⟨n, rfl⟩ : ∃ n', n = n' + 1 := ⟨n - 1, by omega⟩
      -- The next bit is the last one of the code of the next group.
      have hbit : bits (m' + 1) C = bits 1 (C / 2 ^ m' % 2 ^ 1) ++ bits m' C := by
        rw [bits_mod le_rfl, ← bits_add, Nat.add_comm]
      rw [hbit, List.append_assoc] at h
      obtain ⟨hval, hrest⟩ := h.take (Nat.succ_pos n) (Nat.mod_lt _ (by decide))
      simp only [Nat.add_sub_cancel, Nat.pow_one] at hval hrest hc'
      rw [Nat.pow_succ, ← Nat.div_div_eq_div_mul, hc', Nat.shiftLeft_eq] at hc
      rw [hc', Nat.shiftLeft_eq] at hval
      have hnext : (c - use) <<< 1 ||| d.uwbits >>> n &&& 1 = c' := by
        have hlow : d.uwbits / 2 ^ n % 2 < 2 ^ 1 := Nat.mod_lt _ (by decide)
        rw [Nat.shiftRight_eq_div_pow, Nat.and_one_is_mod, or_low _ hlow]
        omega
      have hpar : (size &&& 1) ^^^ 1 ^^^ 1 = ((size + 1) &&& 1) ^^^ 1 := by
        rw [Nat.and_one_is_mod, Nat.and_one_is_mod]
        rcases Nat.mod_two_eq_zero_or_one size with h0 | h0
        · rw [h0, show (size + 1) % 2 = 1 by omega]
          rfl
        · rw [h0, show (size + 1) % 2 = 0 by omega]
          rfl
      have hpos := use_next_pos huse size
      obtain ⟨hloop, hreads⟩ : lenloop d.uwbits n (acc + use) c' _ _ = _ ∧ _ := ih hpos (by omega) hpair hc' (by omega) hrest
      rw [lenloop, if_pos (by omega), hnext, hpar, hloop, Nat.add_sub_add_right]
      exact ⟨by rw [show acc + use + (len - use) = acc + len by omega], hreads⟩
    · obtain ⟨hsize, rfl⟩ := Prod.mk.inj hC
      obtain rfl : m = 0 := by omega
      rw [Nat.pow_zero, Nat.div_one] at hc
      obtain rfl : c = len := by omega
      exact ⟨lenloop_stop (by omega), h⟩

theorem getlen_lens {len : ℕ} {l : List Bool} (hmin : MinMatch ≤ len) (hmax : len ≤ MaxLen) (hs : Sound src d) (h25 : 25 ≤ d.uwnbits)
    (h : Reads src d (bits (lencode len).1 (lencode len).2 ++ l)) :
    lenval.getD (d.uwbits >>> (d.uwnbits - 5) &&& 0x1f) 0 ≠ 0 ∧
      ∃ d', getlen src d (lenval.getD (d.uwbits >>> (d.uwnbits - 5) &&& 0x1f) 0) = some (.ok (len, d')) ∧ Sound src d' ∧
        17 ≤ d'.uwnbits ∧ d'.out = d.out ∧ d'.lithist = d.lithist ∧ Reads src d' l := by
  obtain ⟨hlt, h24, -⟩ := lencode_bound hmin hmax
  obtain ⟨hval, hrest⟩ := h.take (by omega) hlt
  have h1f : d.uwbits >>> (d.uwnbits - 5) &&& 0x1f = d.uwbits / 2 ^ (d.uwnbits - 5) % 32 := by
    rw [Nat.shiftRight_eq_div_pow]
    exact Nat.and_two_pow_sub_one_eq_mod _ 5
  have hidx : d.uwbits >>> (d.uwnbits - 5) &&& 0x1f < 32 := lt_of_le_of_lt Nat.and_le_right (by decide)
  by_cases hbig : 7 ≤ len
  · have hC := lencode_big hbig
    obtain ⟨m, c, hm, hc⟩ := biglen_head (len - 7) (len - 7) 0x3c 1 6
    rw [← hC] at hm hc
    have hm' : (lencode len).1 - 6 = m := by omega
    -- The first six bits are those of the first group.
    have hsix : d.uwbits / 2 ^ (d.uwnbits - 6) % 64 = 0x3c + c := by
      rw [div_pow_sub (show 6 ≤ (lencode len).1 by omega) (by omega), hm', ← hc, ← hval, hm, Nat.pow_add, Nat.mul_comm,
        Nat.mod_mul_right_div_self]
    have hfive : d.uwbits / 2 ^ (d.uwnbits - 5) = d.uwbits / 2 ^ (d.uwnbits - 6) / 2 := div_pow_sub (by decide) (by omega)
    have hall : ∀ i < 32, 30 ≤ i → lenval.getD i 0 = 255 := by decide
    have h255 : lenval.getD (d.uwbits >>> (d.uwnbits - 5) &&& 0x1f) 0 = 255 := by
      apply hall _ hidx
      rw [h1f, hfive]
      omega
    have hsplit : bits (lencode len).1 (lencode len).2 = bits 6 (0x3c + c) ++ bits m (lencode len).2 := by
      rw [← hc, ← bits_add, ← hm]
    rw [hsplit, List.append_assoc] at h
    obtain ⟨-, hreads⟩ := h.take (by omega) (by omega)
    obtain ⟨hloop, hreads'⟩ : lenloop d.uwbits (d.uwnbits - 6) 7 c 1 _ = _ ∧ _ :=
      lenloop_spec (by decide) (by omega) (hC.symm.trans (Prod.ext hm rfl)) hc (by omega) hreads
    have hcode : (d.uwbits >>> (d.uwnbits - DBigLenBits) &&& ((1 <<< DBigLenBits) - 1)) - DBigLenCode = c := by
      have h3f : d.uwbits >>> (d.uwnbits - 6) &&& (2 ^ 6 - 1) = 0x3c + c := by
        rw [Nat.shiftRight_eq_div_pow, Nat.and_two_pow_sub_one_eq_mod]
        exact hsix
      exact Nat.sub_eq_of_eq_add' h3f
    have hsound : Sound src { d with uwnbits := d.uwnbits - 6 - m } := by
      have hmost := hs.most
      exact ⟨by simp only; omega, hs.inside, hs.whole⟩
    obtain ⟨d', hd', hs', h', hout, hhist, -, hreads''⟩ := refill_spec hsound
    rw [h255]
    refine ⟨by decide, d', ?_, hs', by omega, hout, hhist, hreads'' l hreads'⟩
    rw [getlen, if_neg (by decide)]
    simp only [hcode]
    rw [show lenloop d.uwbits (d.uwnbits - DBigLenBits) DMaxFastLen c DBigLenBase ((DBigLenBits &&& 1) ^^^ 1) = _ from hloop]
    simp only
    rw [hd', show 7 + (len - 7) = len by omega]
    rfl
  · have hshort : ∀ len < 7, 3 ≤ len → lenbits.getD len 0 = (lencode len).1 ∧ (lencode len).1 ≤ 5 ∧
        ∀ i < 32, i / 2 ^ (5 - (lencode len).1) = (lencode len).2 → lenval.getD i 0 = len := by decide
    obtain ⟨hbits, h5, hindex⟩ := hshort len (by omega) hmin
    have hlen : lenval.getD (d.uwbits >>> (d.uwnbits - 5) &&& 0x1f) 0 = len := by
      apply hindex _ hidx
      have hpow : 32 = 2 ^ (5 - (lencode len).1) * 2 ^ (lencode len).1 := by
        rw [← Nat.pow_add, Nat.sub_add_cancel h5]
      rw [h1f, hpow, Nat.mod_mul_right_div_self, ← div_pow_sub h5 (by omega)]
      exact hval
    rw [hlen]
    refine ⟨?_, { d with uwnbits := d.uwnbits - (lencode len).1 }, ?_, hs.drop _, by simp only; omega, rfl, rfl, hrest⟩
    · simp only [MinMatch] at hmin
      omega
    · rw [getlen, if_pos (by omega), hbits]

end Lengths

section Offsets

/-- A head of three bits takes the first of the bits of the offset. -/
theorem bits_head {h r x : ℕ} : bits 3 h ++ bits (r + 1) x = bits 4 (2 * h + x / 2 ^ r % 2) ++ bits r x := by
  have hlow : x / 2 ^ r % 2 < 2 ^ 1 := Nat.mod_lt _ (by decide)
  have hfirst : bits 1 (x / 2 ^ r) = bits 1 (x / 2 ^ r % 2 ^ 1) := (bits_mod le_rfl _).symm
  have hpush := bits_push 3 h hlow
  rw [or_low _ hlow] at hpush
  rw [Nat.add_comm r 1, bits_add, hfirst, ← List.append_assoc, Nat.pow_one, ← hpush, Nat.pow_one, Nat.mul_comm]

/-- The tables of the decoder. -/
theorem offbitcode_eq {toff : ℕ} (h : toff < WhackMaxOff) : ∃ i, i < 16 ∧
    offbitcode toff = bits 4 i ++ bits (offbits.getD i 0) toff ∧
    offbase.getD i 0 = toff / 2 ^ offbits.getD i 0 * 2 ^ offbits.getD i 0 := by
  rcases offcode_cases h with ⟨hlt, hc⟩ | ⟨n, h6, h12, hge, hlt, hc⟩ | ⟨n, h12, h14, hge, hlt, hc⟩
  · have hi : toff / 2 ^ 5 % 2 = 0 ∨ toff / 2 ^ 5 % 2 = 1 := Nat.mod_two_eq_zero_or_one _
    have hcode : offbitcode toff = bits 4 (toff / 2 ^ 5 % 2) ++ bits 5 toff := by
      rw [offbitcode, hc]
      simp only
      rw [bits_head, Nat.mul_zero, Nat.zero_add]
    rcases hi with hi | hi
    · rw [hi] at hcode
      exact ⟨0, by decide, hcode, by simp only [offbase, offbits, List.getD_cons_zero]; omega⟩
    · rw [hi] at hcode
      exact ⟨1, by decide, hcode, by simp only [offbase, offbits, List.getD_cons_zero, List.getD_cons_succ]; omega⟩
  · obtain ⟨r, rfl⟩ : ∃ r, n = r + 1 := ⟨n - 1, by omega⟩
    have hcode : offbitcode toff = bits 4 (2 * (r + 1 - 5) + toff / 2 ^ r % 2) ++ bits r toff := by
      rw [offbitcode, hc]
      simp only
      rw [bits_head]
    have htable : ∀ r < 11, 5 ≤ r → ∀ b < 2, 2 * (r + 1 - 5) + b < 16 ∧ offbits.getD (2 * (r + 1 - 5) + b) 0 = r ∧
        offbase.getD (2 * (r + 1 - 5) + b) 0 = (2 + b) * 2 ^ r := by decide
    obtain ⟨hi, hbits, hbase⟩ := htable r (by omega) (by omega) (toff / 2 ^ r % 2) (Nat.mod_lt _ (by decide))
    have htwo : toff / 2 ^ r = 2 + toff / 2 ^ r % 2 := by
      have h2 : 2 ≤ toff / 2 ^ r := by
        rw [Nat.le_div_iff_mul_le (Nat.two_pow_pos r)]
        rw [Nat.pow_succ] at hge
        omega
      have h4 : toff / 2 ^ r < 4 := by
        rw [Nat.div_lt_iff_lt_mul (Nat.two_pow_pos r)]
        rw [Nat.pow_succ, Nat.pow_succ] at hlt
        omega
      omega
    refine ⟨_, hi, by rw [hbits]; exact hcode, ?_⟩
    rw [hbits, hbase, ← htwo]
  · have htable : ∀ n < 14, 12 ≤ n → n + 2 < 16 ∧ offbits.getD (n + 2) 0 = n ∧ offbase.getD (n + 2) 0 = 2 ^ n := by decide
    obtain ⟨hi, hbits, hbase⟩ := htable n h14 h12
    have hone : toff / 2 ^ n = 1 := by
      apply Nat.div_eq_of_lt_le
      · rw [Nat.one_mul]
        exact hge
      · rw [Nat.pow_succ] at hlt
        omega
    refine ⟨n + 2, hi, ?_, ?_⟩
    · rw [hbits, offbitcode, hc]
    · rw [hbits, hbase, hone, Nat.one_mul]

theorem getoff_reads {toff : ℕ} {l : List Bool} (hoff : toff < WhackMaxOff) (h17 : 17 ≤ d.uwnbits)
    (h : Reads src d (offbitcode toff ++ l)) : (getoff d).1 = toff + 1 ∧ Reads src (getoff d).2 l := by
  obtain ⟨i, hi, hcode, hbase⟩ := offbitcode_eq hoff
  have hall : ∀ i < 16, offbits.getD i 0 ≤ 13 := by decide
  have h13 := hall i hi
  rw [hcode, List.append_assoc] at h
  obtain ⟨hval, hrest⟩ := h.take (by omega) (show i < 2 ^ 4 by omega)
  have hlow : bits (offbits.getD i 0) toff = bits (offbits.getD i 0) (toff % 2 ^ offbits.getD i 0) := (bits_mod le_rfl _).symm
  rw [hlow] at hrest
  obtain ⟨hval', hrest'⟩ := hrest.take (by simp only; omega) (Nat.mod_lt _ (Nat.two_pow_pos _))
  have hidx : d.uwbits >>> (d.uwnbits - 4) &&& 0xf = i := by
    rw [Nat.shiftRight_eq_div_pow]
    exact (Nat.and_two_pow_sub_one_eq_mod _ 4).trans hval
  simp only at hval'
  constructor
  · simp only [getoff, hidx]
    rw [Nat.shiftRight_eq_div_pow, Nat.shiftLeft_eq, Nat.one_mul, Nat.and_two_pow_sub_one_eq_mod, hval', hbase, ← Nat.shiftLeft_eq,
      or_low _ (Nat.mod_lt _ (Nat.two_pow_pos _)), Nat.div_add_mod']
  · simp only [getoff, hidx]
    exact hrest'

end Offsets

section Trips

/-- One symbol is decoded. -/
theorem decode_sym {s : Sym} {l : List Bool} (hs : Sound src d) (h25 : 25 ≤ d.uwnbits) (hok : s.Ok d.out)
    (hfits : (s.write d.out).length ≤ ndst) (h : Reads src d (s.code d.lithist ++ l)) :
    ∃ d', decode src ndst d = some (.ok d') ∧ Sound src d' ∧ Reads src d' l ∧ d'.out = s.write d.out ∧
      d'.lithist = s.hist d.lithist := by
  cases s with
  | lit b =>
    obtain ⟨h8, h11, hlt⟩ := litcode_bound d.lithist b
    have hlt' := lt_of_lt_of_le hlt (Nat.pow_le_pow_right (by decide : 0 < 2) (Nat.sub_le _ 1))
    have hroom : d.out.length < ndst := by
      rw [Sym.write, List.length_append, List.length_singleton] at hfits
      exact hfits
    rw [Sym.code] at h
    have hzero := lenval_lit h (by omega) (by omega) hlt
    have hlit := getlit_spec h h25
    obtain ⟨-, hrest⟩ := h.take (by omega) hlt'
    refine ⟨{ d with
      uwnbits := d.uwnbits - (litcode (remember d.lithist b) b).1, out := d.out ++ [b], lithist := remember d.lithist b },
      ?_, ⟨le_trans (Nat.sub_le _ _) hs.most, hs.inside, hs.whole⟩, hrest, rfl, rfl⟩
    rw [decode]
    simp only [hzero, hlit, if_true]
    rw [if_neg (Nat.not_le.mpr hroom), emit, if_pos hroom]
    rfl
  | copy len off =>
    have hpos := hok.pos
    have hnear := hok.near
    rw [Sym.code, List.append_assoc] at h
    obtain ⟨hne, d₁, hd₁, hs₁, h17, hout₁, hhist₁, hreads₁⟩ := getlen_lens hok.least hok.most hs h25 h
    obtain ⟨hoff, hreads₂⟩ := getoff_reads (by omega) h17 hreads₁
    obtain ⟨-, n, -, -, hd₂⟩ := getoff_spec d₁
    rw [Nat.sub_add_cancel hpos] at hoff
    rw [Sym.write, length_repeats] at hfits
    refine ⟨{ (getoff d₁).2 with out := repeats off len d.out }, ?_, ?_, hreads₂, rfl, ?_⟩
    · rw [decode]
      simp only [if_neg hne, hd₁, Option.bind_some]
      rw [getmatch]
      have hout₂ : (getoff d₁).2.out = d.out := by
        rw [hd₂]
        exact hout₁
      simp only [hoff, hout₂]
      rw [if_neg (Nat.not_lt.mpr hok.inside), if_neg (Nat.not_lt.mpr hfits), copy_spec hpos hok.inside hfits]
      rfl
    · rw [hd₂]
      exact ⟨le_trans (Nat.sub_le _ _) (le_trans (Nat.sub_le _ _) hs₁.most), hs₁.inside, hs₁.whole⟩
    · rw [hd₂]
      exact hhist₁

theorem Sym.code_length {s : Sym} {out : List UInt8} (hok : s.Ok out) (h : ℕ) : 8 ≤ (s.code h).length := by
  cases s with
  | lit b =>
    rw [Sym.code, length_bits]
    exact (litcode_bound h b).1
  | copy len off =>
    have hpos := hok.pos
    have hnear := hok.near
    obtain ⟨-, -, h9⟩ := offcode_bound (show off - 1 < WhackMaxOff by omega)
    rw [Sym.code, offbitcode, List.length_append, List.length_append, length_bits, length_bits, length_bits]
    omega

theorem Tells.length_le {out out' : List UInt8} {h h' : ℕ} {l : List Bool} (hl : Tells out h l out' h') : out.length ≤ out'.length := by
  induction hl with
  | done out h => exact le_rfl
  | @sym out _ _ _ _ s hs _ ih =>
    refine le_trans ?_ ih
    cases s with
    | lit b =>
      rw [Sym.write, List.length_append]
      omega
    | copy len off =>
      rw [Sym.write, length_repeats]
      omega

/-- Codes and less than a byte of zeroes are decoded. -/
theorem unwhackloop_spec {out out' : List UInt8} {h h' fuel pad : ℕ} {l : List Bool} (hl : Tells out h l out' h')
    (hs : Sound src d) (hout : d.out = out) (hhist : d.lithist = h) (hpad : pad < 8) (hfits : out'.length ≤ ndst)
    (hreads : Reads src d (l ++ List.replicate pad false)) (hfuel : l.length + pad < 8 * fuel) :
    unwhackloop src ndst fuel d = some (.ok out') := by
  induction hl generalizing d fuel with
  | done out h =>
    obtain ⟨fuel, rfl⟩ : ∃ f, fuel = f + 1 := ⟨fuel - 1, by omega⟩
    have hleft := hreads.left hs
    rw [List.nil_append, List.length_replicate] at hleft
    have hstop : ¬ (d.src < src.length ∨ d.uwnbits ≥ d.overbits + MinDecode) := by
      rw [hs.goes]
      omega
    have hend : ¬ d.uwnbits < d.overbits := by
      have hin := hs.inside
      simp only [left] at hleft
      have hsrc : d.src = src.length := by
        by_contra hne
        exact hstop (.inl (by omega))
      omega
    rw [unwhackloop, if_neg hstop, if_neg hend, hout]
  | @sym out out' h h' l s hok htells ih =>
    have h8 := s.code_length hok h
    obtain ⟨fuel, rfl⟩ : ∃ f, fuel = f + 1 := ⟨fuel - 1, by omega⟩
    have hleft := hreads.left hs
    rw [List.length_append, List.length_append, List.length_replicate] at hleft
    rw [List.length_append] at hfuel
    have hgo : d.src < src.length ∨ d.uwnbits ≥ d.overbits + MinDecode := by
      rw [hs.goes]
      omega
    obtain ⟨d₁, hd₁, hs₁, h25, hout₁, hhist₁, -, hreads₁⟩ := refill_spec hs
    have hsame : d₁.out = out := hout₁.trans hout
    have hreads₂ := hreads₁ _ hreads
    rw [← hhist, ← hhist₁, List.append_assoc] at hreads₂
    have hfits₁ : (s.write d₁.out).length ≤ ndst := by
      rw [hsame]
      exact le_trans htells.length_le hfits
    obtain ⟨d₂, hd₂, hs₂, hr₂, hout₂, hhist₂⟩ := decode_sym hs₁ h25 (by rw [hsame]; exact hok) hfits₁ hreads₂
    rw [unwhackloop, if_pos hgo, hd₁, Option.bind_some, hd₂, Option.bind_some]
    simp only
    apply ih hs₂ (by rw [hout₂, hsame]) (by rw [hhist₂, hhist₁, hhist]) hfits hr₂
    omega

/-- A block that could be compressed comes back, and the decoder is safe for every source. -/
theorem whack_lossless :
    (∀ (src z : List UInt8) (compressblocks : Bool), 3 ≤ src.length → src.length ≤ 65535 →
      whackblock src compressblocks = some z → z.length ≤ src.length ∧ unwhack z src.length = some (.ok src)) ∧
    ∀ (src : List UInt8) (ndst : ℕ), ∃ r, unwhack src ndst = some r ∧ ∀ out, r = .ok out → out.length ≤ ndst := by
  refine ⟨fun src z compressblocks _ hlen hz => ?_, unwhack_safe⟩
  obtain ⟨hroom, l, pad, h, hpad, htells, hbits⟩ := whackblock_spec (by omega) hz
  refine ⟨hroom, ?_⟩
  have hreads : Reads z ⟨0, 0, 0, 0, 2 ^ 32 - 1, []⟩ (l ++ List.replicate pad false) := by
    rw [Reads]
    simp only [bits, List.nil_append, List.drop_zero, List.replicate_zero, List.append_nil]
    exact hbits
  refine unwhackloop_spec htells ⟨Nat.zero_le _, Nat.zero_le _, fun _ => rfl⟩ rfl rfl hpad le_rfl hreads ?_
  have hlength := congrArg List.length hbits
  rw [length_bytebits, List.length_append, List.length_replicate] at hlength
  omega

theorem whack_lossless_twelve : whackblock (List.replicate 12 97) true = some [48, 252, 128, 0] ∧
    unwhack [48, 252, 128, 0] 12 = some (.ok (List.replicate 12 97)) := by
  have hz : whackblock (List.replicate 12 97) true = some [48, 252, 128, 0] := by decide +kernel
  exact ⟨hz, (whack_lossless.1 (List.replicate 12 97) _ true (by decide) (by decide) hz).2⟩

end Trips

end Petele.Venti
