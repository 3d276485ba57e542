import Petele.Git.Deltify
import Petele.Git.Pack
import Petele.Lib.LittleEndian

namespace Petele.Git

open Lib LittleEndian

section Sizes

theorem sizebytes_length (k : ℕ) (c : UInt8) (n : ℕ) (h : n < 128 ^ k) :
    (sizebytes c n).length ≤ k + 1 := by
  induction k generalizing c n with
  | zero =>
    have hn : n = 0 := by simpa using h
    rw [sizebytes, if_pos hn]
    exact Nat.le_refl _
  | succ k ih =>
    rw [sizebytes]
    split
    · simp
    · have hdiv : n >>> 7 < 128 ^ k := by
        rw [Nat.shiftRight_eq_div_pow]
        apply Nat.div_lt_of_lt_mul
        rw [Nat.pow_succ] at h
        omega
      exact Nat.succ_le_succ (ih _ _ hdiv)

theorem last_byte : ∀ c < 128, UInt8.ofNat c &&& 0x80 = 0 ∧ (UInt8.ofNat c).toNat &&& 0x7f = c := by
  decide

theorem more_byte : ∀ c < 128, (UInt8.ofNat c ||| 0x80) &&& 0x80 ≠ 0 ∧
    (UInt8.ofNat c ||| 0x80).toNat &&& 0x7f = c := by
  decide

/-- `readvint` takes back what the size loop of `encodedelta` wrote. -/
theorem readvint_sizebytes (n c s acc : ℕ) (rest : List UInt8) (hc : c < 128)
    (hacc : acc < 2 ^ s) (hfit : 2 ^ s * (c + 128 * n) < 2 ^ 56) :
    readvint s acc (sizebytes (UInt8.ofNat c) n ++ rest) =
      some (acc + 2 ^ s * (c + 128 * n), rest) := by
  induction n using Nat.strongRecOn generalizing c s acc with
  | ind n ih =>
    rw [sizebytes]
    split
    · rename_i hn
      obtain ⟨hlast, hlow⟩ := last_byte c hc
      rw [List.singleton_append, readvint, hlow, or_shiftLeft hacc]
      simp [hlast, hn]
    · rename_i hn
      obtain ⟨hmore, hlow⟩ := more_byte c hc
      have hs : s + 7 < 56 := by
        have hpow : 2 ^ (s + 7) < 2 ^ 56 := by
          refine Nat.lt_of_le_of_lt ?_ hfit
          rw [Nat.pow_add]
          exact Nat.mul_le_mul_left _ (by omega)
        exact (Nat.pow_lt_pow_iff_right (by decide)).mp hpow
      have hmod : n &&& 0x7f = n % 128 := Nat.and_two_pow_sub_one_eq_mod n 7
      have hdiv : n >>> 7 = n / 128 := Nat.shiftRight_eq_div_pow n 7
      have hsplit : n % 128 + 128 * (n / 128) = n := Nat.mod_add_div n 128
      have hpow : 2 ^ (s + 7) = 2 ^ s * 128 := Nat.pow_add 2 s 7
      have hacc' : acc + 2 ^ s * c < 2 ^ (s + 7) := by
        rw [hpow]
        have hle : 2 ^ s * (c + 1) ≤ 2 ^ s * 128 := Nat.mul_le_mul_left _ hc
        rw [Nat.mul_add] at hle
        omega
      have hfit' : 2 ^ (s + 7) * (n % 128 + 128 * (n / 128)) < 2 ^ 56 := by
        rw [hsplit, hpow, Nat.mul_assoc]
        exact Nat.lt_of_le_of_lt (Nat.mul_le_mul_left _ (Nat.le_add_left _ _)) hfit
      rw [List.cons_append, readvint, hlow, or_shiftLeft hacc, hmod, hdiv]
      simp only [hmore, show s + 7 < 63 by omega, ne_eq, not_false_eq_true, and_self, if_true]
      rw [ih (n / 128) (by omega) (n % 128) (s + 7) _ (by omega) hacc' hfit', hsplit, hpow]
      congr 2
      ring

theorem encodesize_length {n : ℕ} (h : n < 2 ^ 30) : (encodesize n).length ≤ 5 := by
  have hdiv : n >>> 7 < 128 ^ 4 := by
    rw [Nat.shiftRight_eq_div_pow]
    omega
  exact sizebytes_length 4 _ _ hdiv

theorem readvint_encodesize {n : ℕ} (h : n < 2 ^ 30) (rest : List UInt8) :
    readvint 0 0 (encodesize n ++ rest) = some (n, rest) := by
  have hmod : n &&& 0x7f = n % 128 := Nat.and_two_pow_sub_one_eq_mod n 7
  have hdiv : n >>> 7 = n / 128 := Nat.shiftRight_eq_div_pow n 7
  have hsplit : n % 128 + 128 * (n / 128) = n := Nat.mod_add_div n 128
  rw [encodesize, hmod, hdiv, readvint_sizebytes _ _ _ _ _ (by omega) (by decide) (by omega),
    hsplit]
  simp

end Sizes

section Copies

/-- The opcode of a copy with `k` bytes of offset and `m` of length. -/
def opcode (k m : ℕ) : UInt8 :=
  (0x80 : UInt8) ||| UInt8.ofNat (2 ^ k - 1) ||| UInt8.ofNat ((2 ^ m - 1) <<< 4)

theorem opcode_off : ∀ k ≤ 4, ∀ m ≤ 3, ∀ i < 4,
    (opcode k m &&& UInt8.ofNat (1 <<< i) = 0 ↔ k ≤ i) := by
  decide

theorem opcode_len : ∀ k ≤ 4, ∀ m ≤ 3, ∀ i < 3,
    (opcode k m &&& UInt8.ofNat (1 <<< (i + 4)) = 0 ↔ m ≤ i) := by
  decide

theorem opcode_copy : ∀ k ≤ 4, ∀ m ≤ 3, opcode k m &&& 0x80 ≠ 0 := by
  decide

theorem ofNat_and_ff (n : ℕ) : UInt8.ofNat (n &&& 0xff) = UInt8.ofNat n := by
  apply UInt8.toNat_inj.mp
  have hmod : n &&& 0xff = n % 256 := Nat.and_two_pow_sub_one_eq_mod n 8
  rw [hmod, UInt8.toNat_ofNat', UInt8.toNat_ofNat']
  omega

theorem opcode_succ_off : ∀ k < 4, opcode k 0 ||| UInt8.ofNat (1 <<< k) = opcode (k + 1) 0 := by
  decide

theorem opcode_succ_len : ∀ k ≤ 4, ∀ m < 3,
    opcode k m ||| UInt8.ofNat (1 <<< (m + 4)) = opcode k (m + 1) := by
  decide

/-- From byte `i` on, the loop over an offset sets the bits of the bytes it writes. -/
theorem offbytes_from (j i fuel n : ℕ) (op : UInt8) (hi : i + j = 3)
    (hop : op ||| UInt8.ofNat (1 <<< i) = opcode (i + 1) 0) (hn : n < 256 ^ (j + 1))
    (hfuel : j < fuel) :
    ∃ k, k ≤ j + 1 ∧ n < 256 ^ k ∧ offbytes fuel i op n = (opcode (i + k) 0, leBytes k n) := by
  induction j generalizing i fuel n op with
  | zero =>
    obtain ⟨fuel, rfl⟩ : ∃ f, fuel = f + 1 := ⟨fuel - 1, by omega⟩
    have hlast : n >>> 8 = 0 := by
      rw [Nat.shiftRight_eq_div_pow]
      omega
    exact ⟨1, Nat.le_refl _, hn, by simp only [offbytes, hlast, if_true, hop, ofNat_and_ff, leBytes]⟩
  | succ j ih =>
    obtain ⟨fuel, rfl⟩ : ∃ f, fuel = f + 1 := ⟨fuel - 1, by omega⟩
    have hdiv : n >>> 8 = n / 256 := Nat.shiftRight_eq_div_pow n 8
    by_cases hlast : n / 256 = 0
    · refine ⟨1, by omega, by omega, ?_⟩
      simp only [offbytes, hdiv, hlast, if_true, hop, ofNat_and_ff, leBytes]
    · have hnext : n / 256 < 256 ^ (j + 1) := by
        apply Nat.div_lt_of_lt_mul
        rwa [Nat.pow_succ, Nat.mul_comm] at hn
      obtain ⟨k, hk, hlt, hrest⟩ := ih (i + 1) fuel (n / 256) (opcode (i + 1) 0) (by omega)
        (opcode_succ_off _ (by omega)) hnext (by omega)
      refine ⟨k + 1, by omega, ?_, ?_⟩
      · rw [Nat.pow_succ]
        omega
      · simp only [offbytes, hdiv, if_neg hlast, hop, ofNat_and_ff, hrest, leBytes,
          Nat.add_assoc, Nat.add_comm 1 k]

theorem offbytes_spec {off : ℕ} (h : off < 2 ^ 32) :
    ∃ k, k ≤ 4 ∧ off < 256 ^ k ∧ offbytes sizeofbuf 0 0x81 off = (opcode k 0, leBytes k off) := by
  obtain ⟨k, hk, hlt, hoff⟩ :=
    offbytes_from 3 0 sizeofbuf off 0x81 rfl (by decide) h (by decide)
  exact ⟨k, hk, hlt, by rwa [Nat.zero_add] at hoff⟩

/-- From byte `i` on, the loop over a length sets the bits of the bytes it writes. -/
theorem lenbytes_from {k : ℕ} (hk : k ≤ 4) (j i fuel n : ℕ) (op : UInt8) (hi : i + j = 3)
    (hop : n = 0 ∧ op = opcode k i ∨
      n ≠ 0 ∧ op ||| UInt8.ofNat (1 <<< (i + 4)) = opcode k (i + 1))
    (hn : n < 256 ^ j) (hfuel : j < fuel) :
    ∃ m, m ≤ j ∧ n < 256 ^ m ∧ lenbytes fuel i op n = (opcode k (i + m), leBytes m n) := by
  induction j generalizing i fuel n op with
  | zero =>
    have hzero : n = 0 := by simpa using hn
    rcases hop with ⟨-, rfl⟩ | ⟨hne, -⟩
    · obtain ⟨fuel, rfl⟩ : ∃ f, fuel = f + 1 := ⟨fuel - 1, by omega⟩
      exact ⟨0, Nat.le_refl _, hn, by simp only [lenbytes, hzero, if_true, leBytes, Nat.add_zero]⟩
    · exact absurd hzero hne
  | succ j ih =>
    obtain ⟨fuel, rfl⟩ : ∃ f, fuel = f + 1 := ⟨fuel - 1, by omega⟩
    rcases hop with ⟨hzero, rfl⟩ | ⟨hne, hop⟩
    · exact ⟨0, Nat.zero_le _, by simp [hzero],
        by simp only [lenbytes, hzero, if_true, leBytes, Nat.add_zero]⟩
    · have hdiv : n >>> 8 = n / 256 := Nat.shiftRight_eq_div_pow n 8
      have hnext : n / 256 < 256 ^ j := by
        apply Nat.div_lt_of_lt_mul
        rwa [Nat.pow_succ, Nat.mul_comm] at hn
      have hop' : n / 256 = 0 ∧ opcode k (i + 1) = opcode k (i + 1) ∨ n / 256 ≠ 0 ∧
          opcode k (i + 1) ||| UInt8.ofNat (1 <<< (i + 1 + 4)) = opcode k (i + 1 + 1) := by
        rcases Nat.eq_zero_or_pos (n / 256) with hz | hpos
        · exact Or.inl ⟨hz, rfl⟩
        · have hj : j ≠ 0 := by
            intro hj
            rw [hj] at hnext
            omega
          exact Or.inr ⟨by omega, opcode_succ_len k hk _ (by omega)⟩
      obtain ⟨m, hm, hlt, hrest⟩ := ih (i + 1) fuel (n / 256) _ (by omega) hop' hnext (by omega)
      refine ⟨m + 1, by omega, ?_, ?_⟩
      · rw [Nat.pow_succ]
        omega
      · simp only [lenbytes, if_neg hne, hdiv, hop, hrest, ofNat_and_ff, leBytes,
          Nat.add_assoc, Nat.add_comm 1 m]

theorem lenbytes_spec {k len : ℕ} (hk : k ≤ 4) (hpos : 0 < len) (h : len < 2 ^ 24) :
    ∃ m, m ≤ 3 ∧ len < 256 ^ m ∧
      lenbytes (sizeofbuf - 4) 0 (opcode k 0 ||| 0x10) len = (opcode k m, leBytes m len) := by
  have hop : ∀ k ≤ 4,
      opcode k 0 ||| (0x10 : UInt8) ||| UInt8.ofNat (1 <<< (0 + 4)) = opcode k (0 + 1) := by
    decide
  obtain ⟨m, hm, hlt, hlen⟩ := lenbytes_from hk 3 0 (sizeofbuf - 4) len _ rfl
    (Or.inr ⟨by omega, hop k hk⟩) h (by decide)
  exact ⟨m, hm, hlt, by rwa [Nat.zero_add] at hlen⟩

/-- One line of the decoder: where the opcode has a bit for each of the bytes `bs`, byte `i` is
read if there is one. -/
theorem optbyte_step {c bit : UInt8} {bs : List UInt8} {i : ℕ}
    (hflag : c &&& bit = 0 ↔ bs.length ≤ i) (d : List UInt8) :
    optbyte c bit (8 * i) (leVal (bs.take i), bs.drop i ++ d) =
      (leVal (bs.take (i + 1)), bs.drop (i + 1) ++ d) := by
  rcases Nat.lt_or_ge i bs.length with hlt | hge
  · have hset : c &&& bit ≠ 0 := fun h => Nat.not_le.mpr hlt (hflag.mp h)
    have hlow : leVal (bs.take i) < 2 ^ (8 * i) := by
      have hval := leVal_lt (bs.take i)
      rw [List.length_take, Nat.min_eq_left (Nat.le_of_lt hlt)] at hval
      rwa [Nat.pow_mul]
    have hval : leVal (bs.take (i + 1)) = leVal (bs.take i) ||| bs[i].toNat <<< (8 * i) := by
      rw [List.take_succ_eq_append_getElem hlt, leVal_append, or_shiftLeft hlow, Nat.pow_mul,
        List.length_take, Nat.min_eq_left (Nat.le_of_lt hlt)]
      rfl
    rw [List.drop_eq_getElem_cons hlt, hval]
    simp only [optbyte, List.cons_append, if_pos hset]
  · have hunset : ¬ c &&& bit ≠ 0 := not_not.mpr (hflag.mpr hge)
    rw [List.take_of_length_le hge, List.take_of_length_le (by omega),
      List.drop_eq_nil_of_le hge, List.drop_eq_nil_of_le (by omega), optbyte]
    split
    · rfl
    · rw [if_neg hunset]

/-- The offset is read back from its bytes. -/
theorem copyoff_bytes {m : ℕ} (hm : m ≤ 3) (bs d : List UInt8) (hbs : bs.length ≤ 4) :
    copyoff (opcode bs.length m) (bs ++ d) = (leVal bs, d) := by
  have flag := opcode_off bs.length hbs m hm
  have h0 := optbyte_step (flag 0 (by decide)) d
  have h1 := optbyte_step (flag 1 (by decide)) d
  have h2 := optbyte_step (flag 2 (by decide)) d
  have h3 := optbyte_step (flag 3 (by decide)) d
  calc copyoff (opcode bs.length m) (bs ++ d)
    _ = (leVal (bs.take 4), bs.drop 4 ++ d) := by
      rw [copyoff]
      exact h3 ▸ h2 ▸ h1 ▸ h0 ▸ rfl
    _ = (leVal bs, d) := by
      rw [List.take_of_length_le hbs, List.drop_eq_nil_of_le hbs, List.nil_append]

/-- The length is read back from its bytes; no bytes stand for `0x10000`. -/
theorem copylen_bytes {k : ℕ} (hk : k ≤ 4) (bs d : List UInt8) (hbs : bs.length ≤ 3) :
    copylen (opcode k bs.length) (bs ++ d) = (if leVal bs = 0 then 0x10000 else leVal bs, d) := by
  have flag := opcode_len k hk bs.length hbs
  have h0 := optbyte_step (flag 0 (by decide)) d
  have h1 := optbyte_step (flag 1 (by decide)) d
  have h2 := optbyte_step (flag 2 (by decide)) d
  have hread : optbyte (opcode k bs.length) 0x40 16 (optbyte (opcode k bs.length) 0x20 8
      (optbyte (opcode k bs.length) 0x10 0 (0, bs ++ d))) = (leVal bs, d) := by
    calc _
      _ = (leVal (bs.take 3), bs.drop 3 ++ d) := h2 ▸ h1 ▸ h0 ▸ rfl
      _ = (leVal bs, d) := by
        rw [List.take_of_length_le hbs, List.drop_eq_nil_of_le hbs, List.nil_append]
  simp only [copylen, hread]

end Copies

section Commands

/-- The commands `w` write `piece` behind what is there, whatever commands follow. -/
def Applies (base w piece : List UInt8) : Prop :=
  ∀ nr r rest, r.length + piece.length ≤ nr →
    applycmds base nr r (w ++ rest) = applycmds base nr (r ++ piece) rest

theorem Applies.nil (base : List UInt8) : Applies base [] [] := by
  intro nr r rest _
  rw [List.nil_append, List.append_nil]

theorem Applies.append {base w w' piece piece' : List UInt8} (h : Applies base w piece)
    (h' : Applies base w' piece') : Applies base (w ++ w') (piece ++ piece') := by
  intro nr r rest hroom
  rw [List.length_append] at hroom
  rw [List.append_assoc, h nr r _ (by omega), h' nr _ rest (by rw [List.length_append]; omega),
    List.append_assoc]

theorem applies_copy {base : List UInt8} {off len k : ℕ} (hbase : base.length < 2 ^ 31)
    (h : off + len ≤ base.length) (hk : k ≤ 4) (hoff : off < 256 ^ k) (ls : List UInt8)
    (hls : ls.length ≤ 3) (hlen : len = if leVal ls = 0 then 0x10000 else leVal ls) :
    Applies base (opcode k ls.length :: (leBytes k off ++ ls)) (bytes base off len) := by
  intro nr r rest hroom
  rw [bytes_length h] at hroom
  have hcopyoff : copyoff (opcode k ls.length) (leBytes k off ++ (ls ++ rest)) =
      (off, ls ++ rest) := by
    have hread := copyoff_bytes hls (leBytes k off) (ls ++ rest) (by rwa [leBytes_length])
    rwa [leBytes_length, leVal_leBytes, Nat.mod_eq_of_lt hoff] at hread
  have hcopylen := copylen_bytes hk ls rest hls
  rw [← hlen] at hcopylen
  rw [List.cons_append, List.append_assoc, applycmds, if_pos (opcode_copy k hk _ hls)]
  simp only [hcopyoff, hcopylen]
  rw [if_neg (by omega)]

/-- `encodedelta` writes a command that makes the copy. -/
theorem copycmd_spec {base : List UInt8} {off len : ℕ} (hbase : base.length < 2 ^ 31)
    (h : off + len ≤ base.length) (hpos : 0 < len) (hlen : len < 2 ^ 24) :
    ∃ w, copycmd off len = some w ∧ w.length ≤ 8 ∧ Applies base w (bytes base off len) := by
  obtain ⟨k, hk, hoff, hoffbytes⟩ := @offbytes_spec off (by omega)
  have h32 : off < 1 <<< 32 := by
    rw [Nat.shiftLeft_eq]
    omega
  have h24 : len < 1 <<< 24 := by
    rw [Nat.shiftLeft_eq]
    omega
  rw [copycmd, if_pos h32]
  simp only [hoffbytes, if_pos h24]
  by_cases hspecial : len = 0x10000
  · -- No length bytes: the decoder's zero is this length.
    refine ⟨opcode k 0 :: leBytes k off, by simp [hspecial], by simp; omega, ?_⟩
    have happlies := applies_copy hbase h hk hoff [] (by decide) hspecial
    simpa using happlies
  · obtain ⟨m, hm, hlt, hlenbytes⟩ := lenbytes_spec hk hpos hlen
    have hval : leVal (leBytes m len) = len := by
      rw [leVal_leBytes, Nat.mod_eq_of_lt hlt]
    have happlies := applies_copy hbase h hk hoff (leBytes m len) (by rwa [leBytes_length])
      (by rw [hval, if_neg (by omega)])
    rw [leBytes_length] at happlies
    refine ⟨opcode k m :: (leBytes k off ++ leBytes m len), ?_, by simp; omega, happlies⟩
    rw [if_pos hspecial, hlenbytes]

theorem applies_inline {base seg : List UInt8} (h : seg.length < 128) :
    Applies base (UInt8.ofNat seg.length :: seg) seg := by
  intro nr r rest hroom
  obtain ⟨hflag, -⟩ := last_byte seg.length h
  have hc : (UInt8.ofNat seg.length).toNat = seg.length := by
    rw [UInt8.toNat_ofNat']
    omega
  rw [List.cons_append, applycmds, if_neg (not_not.mpr hflag), hc, if_neg, List.take_left,
    List.drop_left]
  rw [List.length_append]
  omega

end Commands

section Encoder

theorem regrow_ok {need sz : ℕ} (hneed : 3 * need < 2 ^ 32) (hsz : 2 ≤ sz) :
    ∃ sz', regrow need sz = some sz' ∧ 2 ≤ sz' := by
  induction sz using regrow.induct need with
  | case1 sz h => exact ⟨sz, by rw [regrow, if_pos h], hsz⟩
  | case2 sz h hstop => omega
  | case3 sz h hstop ih =>
    obtain ⟨sz', hgrow, hsz'⟩ := ih (by omega)
    exact ⟨sz', by rw [regrow, if_neg h, if_neg hstop, hgrow], hsz'⟩

/-- The buffer grows as long as one and a half times its contents is an `int`. -/
theorem append_ok {out : Outbuf} {seg : List UInt8} (hsz : 2 ≤ out.sz)
    (h : 3 * (out.p.length + seg.length) < 2 ^ 32) :
    ∃ sz, append out seg = some ⟨out.p ++ seg, sz⟩ ∧ 2 ≤ sz := by
  obtain ⟨sz, hgrow, hsz'⟩ := regrow_ok h hsz
  exact ⟨sz, by rw [append, if_neg (by omega), hgrow]; rfl, hsz'⟩

/-- `f` appends commands for `piece`, at most `cost` bytes of them. -/
def Emits (base : List UInt8) (f : Outbuf → Option Outbuf) (piece : List UInt8) (cost : ℕ) :
    Prop :=
  ∀ out : Outbuf, 2 ≤ out.sz → 3 * (out.p.length + cost) < 2 ^ 32 →
    ∃ w sz, f out = some ⟨out.p ++ w, sz⟩ ∧ 2 ≤ sz ∧ w.length ≤ cost ∧ Applies base w piece

theorem Emits.bind {base piece piece' : List UInt8} {f g : Outbuf → Option Outbuf}
    {cost cost' : ℕ} (hf : Emits base f piece cost) (hg : Emits base g piece' cost') :
    Emits base (fun out => (f out).bind g) (piece ++ piece') (cost + cost') := by
  intro out hsz hroom
  obtain ⟨w, sz, hout, hsz', hw, happ⟩ := hf out hsz (by omega)
  obtain ⟨w', sz', hout', hsz'', hw', happ'⟩ :=
    hg ⟨out.p ++ w, sz⟩ hsz' (by rw [List.length_append]; omega)
  refine ⟨w ++ w', sz', ?_, hsz'', by rw [List.length_append]; omega, happ.append happ'⟩
  dsimp only
  rw [hout, Option.bind_some, hout', List.append_assoc]

theorem emits_nothing (base : List UInt8) : Emits base some [] 0 := by
  intro out hsz _
  exact ⟨[], out.sz, by rw [List.append_nil], hsz, Nat.le_refl _, Applies.nil base⟩

/-- One chunk of inline data, written by two calls of `append`. -/
theorem emits_inline {base seg : List UInt8} (h : seg.length < 128) :
    Emits base (fun out => (append out [UInt8.ofNat seg.length]).bind fun out => append out seg)
      seg (seg.length + 1) := by
  intro out hsz hroom
  obtain ⟨sz, hout, hsz'⟩ := @append_ok out [UInt8.ofNat seg.length] hsz
    (by rw [List.length_singleton]; omega)
  obtain ⟨sz', hout', hsz''⟩ :=
    @append_ok ⟨out.p ++ [UInt8.ofNat seg.length], sz⟩ seg hsz'
      (by rw [List.length_append, List.length_singleton]; omega)
  refine ⟨UInt8.ofNat seg.length :: seg, sz', ?_, hsz'', Nat.le_refl _, applies_inline h⟩
  dsimp only
  rw [hout, Option.bind_some, hout', List.append_assoc, List.singleton_append]

theorem inlinecmds_emits (base : List UInt8) {data : List UInt8} {d : Delta}
    (h : d.off + d.len ≤ data.length) (fuel n : ℕ) (hn : n ≤ d.len) (hfuel : d.len < fuel + n) :
    Emits base (inlinecmds data d fuel n) (bytes data (d.off + n) (d.len - n))
      ((128 * (d.len - n) + 126) / 127) := by
  induction fuel generalizing n with
  | zero => omega
  | succ fuel ih =>
    by_cases hdone : n = d.len
    · have hcmds : inlinecmds data d (fuel + 1) n = some := by
        funext out
        rw [inlinecmds, if_pos hdone]
      rw [hcmds, hdone, Nat.sub_self]
      exact emits_nothing base
    · generalize hc : (if d.len - n < 127 then d.len - n else 127) = c
      have hc0 : 0 < c ∧ c ≤ 127 ∧ c ≤ d.len - n ∧ (c = 127 ∨ c = d.len - n) := by
        split at hc <;> omega
      have hseg : (bytes data (d.off + n) c).length = c := bytes_length (by omega)
      have hchunk := @emits_inline base (bytes data (d.off + n) c) (by omega)
      rw [hseg] at hchunk
      have hrest := ih (n + c) (by omega) (by omega)
      have hboth := hchunk.bind hrest
      have hcmds : inlinecmds data d (fuel + 1) n = fun out =>
          ((append out [UInt8.ofNat c]).bind fun out =>
            append out (bytes data (d.off + n) c)).bind (inlinecmds data d fuel (n + c)) := by
        funext out
        rw [inlinecmds, if_neg hdone, hc, Option.bind_assoc]
        rfl
      have hpiece : bytes data (d.off + n) c ++ bytes data (d.off + (n + c)) (d.len - (n + c)) =
          bytes data (d.off + n) (d.len - n) := by
        rw [← Nat.add_assoc, bytes_append]
        congr 1
        omega
      rw [hcmds, ← hpiece]
      intro out hsz hroom
      obtain ⟨w, sz, hout, hsz', hw, happ⟩ := hboth out hsz (by omega)
      exact ⟨w, sz, hout, hsz', by omega, happ⟩

theorem encodecmd_emits {base data : List UInt8} (hbase : base.length < 2 ^ 31) {d : Delta}
    (h : d.Ok base data) :
    Emits base (fun out => encodecmd data out d) (d.piece base data)
      ((128 * d.len + 126) / 127 + 8) := by
  intro out hsz hroom
  cases hc : d.cpy with
  | true =>
    obtain ⟨hoff, hlen⟩ := h.copy hc
    obtain ⟨w, hcmd, hw, happ⟩ := copycmd_spec hbase hoff h.pos hlen
    obtain ⟨sz, hout, hsz'⟩ := @append_ok out w hsz (by omega)
    refine ⟨w, sz, ?_, hsz', by omega, ?_⟩
    · dsimp only
      rw [encodecmd, if_pos hc, hcmd, Option.bind_some, hout]
    · rwa [Delta.piece, if_pos hc]
  | false =>
    have hemit := inlinecmds_emits base (h.inline hc) (d.len + 1) 0 (Nat.zero_le _) (by omega)
    obtain ⟨w, sz, hout, hsz', hw, happ⟩ := hemit out hsz (by omega)
    refine ⟨w, sz, ?_, hsz', by omega, ?_⟩
    · dsimp only
      rw [encodecmd, hc, if_neg (by decide), hout]
    · rwa [Delta.piece, hc, if_neg (by decide)]

/-- The bytes `encodedelta` may take for the commands. -/
def cost (ds : List Delta) : ℕ := (ds.map fun d => (128 * d.len + 126) / 127 + 8).sum

theorem encodecmds_emit {base data : List UInt8} (hbase : base.length < 2 ^ 31)
    (ds : List Delta) (h : ∀ d ∈ ds, d.Ok base data) :
    Emits base (fun out => ds.foldlM (encodecmd data) out) (ds.flatMap (Delta.piece base data))
      (cost ds) := by
  induction ds with
  | nil => exact emits_nothing base
  | cons d ds ih =>
    have hrest := ih fun a ha => h a (List.mem_cons_of_mem _ ha)
    have hcmd := encodecmd_emits hbase (h d List.mem_cons_self)
    exact hcmd.bind hrest

theorem cost_le (ds : List Delta) :
    127 * cost ds ≤ 128 * (ds.map Delta.len).sum + 1142 * ds.length := by
  induction ds with
  | nil => exact Nat.le_refl _
  | cons d ds ih =>
    simp only [cost, List.map_cons, List.sum_cons, List.length_cons] at *
    omega

theorem Describes.sum_len {base data : List UInt8} {ds : List Delta} {o : ℕ}
    (h : Describes base data ds o) : (ds.map Delta.len).sum = o := by
  have hlen := congrArg List.length h.pieces
  have hmap : ds.map (fun d => (d.piece base data).length) = ds.map Delta.len :=
    List.map_congr_left fun d hd => (h.ok d hd).piece_length
  rw [List.length_flatMap, hmap, List.length_take, Nat.min_eq_left h.chunks.inside] at hlen
  exact hlen

/-- The deltas of a target below `2 ^ 30` bytes leave the buffer room to grow. -/
theorem Describes.cost_lt {base data : List UInt8} {ds : List Delta}
    (h : Describes base data ds data.length) (hsize : data.length < 2 ^ 30) :
    3 * (10 + cost ds) < 2 ^ 32 := by
  have hcost := cost_le ds
  have hbound := h.chunks.bound
  rw [h.sum_len] at hcost
  simp only [Minchunk] at hbound
  omega

end Encoder

/-- `applydelta` undoes `encodedelta`: the deltas that `deltify` finds for a target against the
table of a base rebuild the target from the base. -/
theorem applydelta_encodedelta (b o : Object) (hb : b.size < 2 ^ 30) (ho : o.size < 2 ^ 30) :
    ∃ dt ds p o', dtinit b = some dt ∧ deltify o dt = some ds ∧
      encodedelta ds o b = some p ∧ p.length < 2 ^ 31 ∧
      applydelta b p = .ok o' ∧ o'.data = o.data ∧ o'.size = o.size := by
  obtain ⟨dt, hdt, hok, hbase⟩ := dtinit_ok b hb
  obtain ⟨ds, hds, hdescribes⟩ := deltify_ok hok o ho
  rw [hbase] at hdescribes
  have hcost := hdescribes.cost_lt ho
  have hlenb := encodesize_length hb
  have hleno := encodesize_length ho
  obtain ⟨sz₁, hout₁, hsz₁⟩ := @append_ok ⟨[], 128⟩ (encodesize b.size)
    (by decide) (by simp only [List.length_nil]; omega)
  obtain ⟨sz₂, hout₂, hsz₂⟩ := @append_ok ⟨[] ++ encodesize b.size, sz₁⟩
    (encodesize o.size) hsz₁ (by simp only [List.nil_append]; omega)
  obtain ⟨w, sz₃, hout₃, -, hw, happlies⟩ := encodecmds_emit (Nat.lt_trans hb (by decide)) ds
    hdescribes.ok ⟨[] ++ encodesize b.size ++ encodesize o.size, sz₂⟩ hsz₂
    (by simp only [List.nil_append, List.length_append]; omega)
  refine ⟨dt, ds, encodesize b.size ++ (encodesize o.size ++ w),
    ⟨b.type, header b.type o.size ++ o.data, o.data⟩, hdt, hds, ?_, ?_, ?_, rfl, rfl⟩
  · simp only [List.nil_append] at hout₁ hout₂ hout₃
    rw [← List.append_assoc]
    simp only [encodedelta, hout₁, hout₂, hout₃, Option.bind_eq_bind, Option.bind_some,
      Option.pure_def]
  · simp only [List.length_append]
    omega
  · have hcmds : applycmds b.data o.size [] w = .ok o.data := by
      have hend := happlies o.size [] [] (by simp [hdescribes.pieces, Object.size])
      rw [List.append_nil, hdescribes.pieces, List.nil_append, Object.size, List.take_length]
        at hend
      rw [Object.size, hend, applycmds, if_neg (not_not.mpr rfl)]
    have h31b : ¬ (1 <<< 31 ≤ b.size ∨ b.size ≠ b.size) := by
      rw [Nat.shiftLeft_eq]
      omega
    have h31o : ¬ 1 <<< 31 ≤ o.size := by
      rw [Nat.shiftLeft_eq]
      omega
    simp only [applydelta, readvint_encodesize hb, readvint_encodesize ho, if_neg h31b,
      if_neg h31o, hcmds]
    rfl

/-- Two files that share no chunk, the second with a byte more. -/
theorem applydelta_encodedelta_blob :
    let b : Object := ⟨.GBlob, header .GBlob 2 ++ [104, 105], [104, 105]⟩
    let o : Object := ⟨.GBlob, header .GBlob 3 ++ [104, 105, 33], [104, 105, 33]⟩
    ∃ dt ds p o', dtinit b = some dt ∧ deltify o dt = some ds ∧
      encodedelta ds o b = some p ∧ p.length < 2 ^ 31 ∧
      applydelta b p = .ok o' ∧ o'.data = o.data ∧ o'.size = o.size := by
  intro b o
  exact applydelta_encodedelta b o (by decide) (by decide)

end Petele.Git
