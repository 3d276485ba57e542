import Petele.Git.DeltaTrip

namespace Petele.Git

open Lib LittleEndian

/-- The header of an entry of a pack: the type and the length of the object. The loop is the one
of `encodedelta`'s sizes. -/
def packhdr (ty len : ℕ) : List UInt8 :=
  sizebytes (UInt8.ofNat (ty <<< 4) ||| UInt8.ofNat (len &&& 0xf)) (len >>> 4)

/-- The loop of `readpacked` over a header, after the byte `c`. `l` is a `vlong`. -/
def readlen (l s : ℕ) (c : UInt8) : List UInt8 → Option (ℕ × List UInt8)
  | [] => if c &&& 0x80 ≠ 0 then none else some (l, [])
  | c' :: f =>
    if c &&& 0x80 ≠ 0 then readlen ((l ||| (c'.toNat &&& 0x7f) <<< s) % 2 ^ 64) (s + 7) c' f
    else some (l, c' :: f)

/-- `readpacked` up to its switch: the type and the length, and the input behind them. The
failures carry the text given to `werrstr`. -/
def readhdr : List UInt8 → Except String (ℕ × ℕ × List UInt8)
  | [] => .error ""
  | c :: f =>
    let t := (c.toNat >>> 4) &&& 0x7
    if t = 0 then .error "unknown type for byte %x at %lld"
    else
      match readlen (c.toNat &&& 0xf) 4 c f with
      | none => .error ""
      | some (l, f) => if 1 <<< 32 ≤ l then .error "object too big" else .ok (t, l, f)

/-- `rbuf` of `packoff` from its second byte on. -/
def offgroups (off : ℕ) : List UInt8 :=
  if off >>> 7 = 0 then []
  else (UInt8.ofNat ((off >>> 7 - 1) &&& 0x7f) ||| 0x80) :: offgroups (off >>> 7 - 1)
termination_by off
decreasing_by
  rw [Nat.shiftRight_eq_div_pow] at *
  omega

/-- The offset of a delta's base; it fails where `rbuf` overflows. -/
def packoff (off : ℕ) : Option (List UInt8) :=
  let rbuf := UInt8.ofNat (off &&& 0x7f) :: offgroups off
  if rbuf.length ≤ 8 then some rbuf.reverse else none

/-- The loop of `readodelta`, after the byte `c`. -/
def readoffloop (r : ℕ) (c : UInt8) : List UInt8 → Option (ℕ × List UInt8)
  | [] => if c &&& 0x80 ≠ 0 ∧ r < 1 <<< 56 then none else some (r, [])
  | c' :: f =>
    if c &&& 0x80 ≠ 0 ∧ r < 1 <<< 56 then
      readoffloop ((r + 1) <<< 7 ||| (c'.toNat &&& 0x7f)) c' f
    else some (r, c' :: f)

def readoff : List UInt8 → Option (ℕ × List UInt8)
  | [] => none
  | c :: f => readoffloop (c.toNat &&& 0x7f) c f

section Header

theorem readlen_done {c : UInt8} (h : c &&& 0x80 = 0) (l s : ℕ) (f : List UInt8) :
    readlen l s c f = some (l, f) := by
  cases f with
  | nil => rw [readlen, if_neg (not_not.mpr h)]
  | cons c' f => rw [readlen, if_neg (not_not.mpr h)]

/-- The loop takes the bytes back that carry `n`, behind a byte that says that there are more. -/
theorem readlen_sizebytes (n c s l : ℕ) (b : UInt8) (f : List UInt8) (hb : b &&& 0x80 ≠ 0)
    (hc : c < 128) (hl : l < 2 ^ s) (hfit : l + 2 ^ s * (c + 128 * n) < 2 ^ 56) :
    readlen l s b (sizebytes (UInt8.ofNat c) n ++ f) = some (l + 2 ^ s * (c + 128 * n), f) := by
  induction n using Nat.strongRecOn generalizing c s l b with
  | ind n ih =>
    have hpow : 2 ^ (s + 7) = 2 ^ s * 128 := Nat.pow_add 2 s 7
    have hsplit : n % 128 + 128 * (n / 128) = n := Nat.mod_add_div n 128
    have hle : 2 ^ s * c ≤ 2 ^ s * (c + 128 * n) := Nat.mul_le_mul_left _ (by omega)
    have hword : (l + 2 ^ s * c) % 2 ^ 64 = l + 2 ^ s * c := Nat.mod_eq_of_lt (by omega)
    rw [sizebytes]
    split
    · rename_i hn
      obtain ⟨hlast, hlow⟩ := last_byte c hc
      rw [List.singleton_append, readlen, if_pos hb, hlow, or_shiftLeft hl, hword,
        readlen_done hlast, hn]
      rfl
    · obtain ⟨hmore, hlow⟩ := more_byte c hc
      have hmod : n &&& 0x7f = n % 128 := Nat.and_two_pow_sub_one_eq_mod n 7
      have hdiv : n >>> 7 = n / 128 := Nat.shiftRight_eq_div_pow n 7
      have hval : l + 2 ^ s * c + 2 ^ (s + 7) * (n % 128 + 128 * (n / 128)) =
          l + 2 ^ s * (c + 128 * n) := by
        rw [hsplit, hpow]
        ring
      have hl' : l + 2 ^ s * c < 2 ^ (s + 7) := by
        have := Nat.mul_le_mul_left (2 ^ s) (show c + 1 ≤ 128 by omega)
        rw [Nat.mul_add] at this
        omega
      rw [List.cons_append, readlen, if_pos hb, hlow, or_shiftLeft hl, hword, hmod, hdiv,
        ih (n / 128) (by omega) (n % 128) (s + 7) _ _ hmore (Nat.mod_lt _ (by decide)) hl'
          (by rw [hval]; exact hfit), hval]

/-- The first byte of a header: whether more follow, the type and the low bits. -/
theorem first_byte : ∀ t < 8, ∀ c < 16,
    (UInt8.ofNat (t <<< 4) ||| UInt8.ofNat c) &&& 0x80 = 0 ∧
    ((UInt8.ofNat (t <<< 4) ||| UInt8.ofNat c).toNat >>> 4) &&& 0x7 = t ∧
    (UInt8.ofNat (t <<< 4) ||| UInt8.ofNat c).toNat &&& 0xf = c ∧
    (UInt8.ofNat (t <<< 4) ||| UInt8.ofNat c ||| 0x80) &&& 0x80 ≠ 0 ∧
    ((UInt8.ofNat (t <<< 4) ||| UInt8.ofNat c ||| 0x80).toNat >>> 4) &&& 0x7 = t ∧
    (UInt8.ofNat (t <<< 4) ||| UInt8.ofNat c ||| 0x80).toNat &&& 0xf = c := by
  decide

theorem readhdr_packhdr {t len : ℕ} (ht : t ≠ 0) (ht8 : t < 8) (hlen : len < 2 ^ 31)
    (f : List UInt8) : readhdr (packhdr t len ++ f) = .ok (t, len, f) := by
  have hmod : len &&& 0xf = len % 16 := Nat.and_two_pow_sub_one_eq_mod len 4
  have hdiv : len >>> 4 = len / 16 := Nat.shiftRight_eq_div_pow len 4
  have hlt : len % 16 < 2 ^ 4 := Nat.mod_lt _ (by decide)
  obtain ⟨hlast, htype, hlow, hmore, htype', hlow'⟩ := first_byte t ht8 (len % 16) hlt
  have h32 : ¬ 1 <<< 32 ≤ len := by
    rw [Nat.shiftLeft_eq]
    omega
  rw [packhdr, hmod, hdiv, sizebytes]
  split
  · rename_i hn
    have hval : len % 16 = len := Nat.mod_eq_of_lt (by omega)
    rw [List.singleton_append, readhdr]
    simp only [htype, hlow, if_neg ht, readlen_done hlast]
    rw [hval, if_neg h32]
  · have hval : len % 16 + 2 ^ 4 * (len / 16 % 128 + 128 * (len / 16 / 128)) = len := by omega
    have hmod' : len / 16 &&& 0x7f = len / 16 % 128 := Nat.and_two_pow_sub_one_eq_mod _ 7
    have hdiv' : (len / 16) >>> 7 = len / 16 / 128 := Nat.shiftRight_eq_div_pow _ 7
    have hread := readlen_sizebytes (len / 16 / 128) (len / 16 % 128) 4 (len % 16) _ f hmore
      (Nat.mod_lt _ (by decide)) hlt (by rw [hval]; omega)
    rw [hval] at hread
    rw [List.cons_append, readhdr]
    simp only [htype', hlow', if_neg ht, hmod', hdiv', hread, if_neg h32]

end Header

section Offset

theorem readoffloop_done {c : UInt8} (h : c &&& 0x80 = 0) (r : ℕ) (f : List UInt8) :
    readoffloop r c f = some (r, f) := by
  cases f with
  | nil => rw [readoffloop, if_neg (fun hc => hc.1 h)]
  | cons c' f => rw [readoffloop, if_neg (fun hc => hc.1 h)]

theorem readoffloop_more {c : UInt8} (h : c &&& 0x80 ≠ 0) {r : ℕ} (hr : r < 2 ^ 56) (c' : UInt8)
    (f : List UInt8) :
    readoffloop r c (c' :: f) = readoffloop ((r + 1) <<< 7 ||| (c'.toNat &&& 0x7f)) c' f := by
  rw [readoffloop, if_pos ⟨h, by rwa [Nat.shiftLeft_eq, Nat.one_mul]⟩]

/-- A group of seven bits behind the number `m`. -/
theorem next_group {n : ℕ} (h : n >>> 7 ≠ 0) : (n >>> 7 - 1 + 1) <<< 7 ||| n % 128 = n := by
  have hdiv : n >>> 7 = n / 128 := Nat.shiftRight_eq_div_pow n 7
  have hlt : n % 128 < 2 ^ 7 := Nat.mod_lt n (by decide)
  rw [hdiv] at h ⊢
  rw [Nat.or_comm, or_shiftLeft hlt]
  omega

/-- All groups of `m` marked, as `packoff` writes them in front of the last. -/
def marked (m : ℕ) : List UInt8 := (UInt8.ofNat (m % 128) ||| 0x80) :: offgroups m

theorem offgroups_eq_marked {off : ℕ} (h : off >>> 7 ≠ 0) :
    offgroups off = marked (off >>> 7 - 1) := by
  have hmod : (off >>> 7 - 1) &&& 0x7f = (off >>> 7 - 1) % 128 :=
    Nat.and_two_pow_sub_one_eq_mod _ 7
  rw [offgroups, if_neg h, hmod, marked]

/-- After the marked groups of `m` the loop has read `m` and goes on. -/
theorem readoff_marked (m : ℕ) (hm : m < 2 ^ 56) (f : List UInt8) :
    readoff ((marked m).reverse ++ f) = readoffloop m (UInt8.ofNat (m % 128) ||| 0x80) f := by
  induction m using Nat.strongRecOn generalizing f with
  | ind m ih =>
    obtain ⟨hmore, hlow⟩ := more_byte (m % 128) (Nat.mod_lt _ (by decide))
    have hdiv : m >>> 7 = m / 128 := Nat.shiftRight_eq_div_pow m 7
    rw [marked, List.reverse_cons, List.append_assoc, List.singleton_append]
    by_cases hz : m >>> 7 = 0
    · have hval : m % 128 = m := Nat.mod_eq_of_lt (by omega)
      rw [offgroups, if_pos hz, List.reverse_nil, List.nil_append, readoff, hlow, hval]
    · obtain ⟨hmore', -⟩ := more_byte ((m >>> 7 - 1) % 128) (Nat.mod_lt _ (by decide))
      rw [offgroups_eq_marked hz, ih (m >>> 7 - 1) (by omega) (by omega),
        readoffloop_more hmore' (by omega), hlow, next_group hz]

theorem offgroups_length (k off : ℕ) (h : off < 128 ^ (k + 1)) : (offgroups off).length ≤ k := by
  have hdiv : off >>> 7 = off / 128 := Nat.shiftRight_eq_div_pow off 7
  induction k generalizing off with
  | zero =>
    have hz : off >>> 7 = 0 := by
      rw [hdiv]
      exact Nat.div_eq_of_lt (by simpa using h)
    rw [offgroups, if_pos hz]
    exact Nat.le_refl 0
  | succ k ih =>
    rw [offgroups]
    split
    · exact Nat.zero_le _
    · have hlt : off / 128 < 128 ^ (k + 1) := Nat.div_lt_of_lt_mul (by rwa [Nat.pow_succ'] at h)
      exact Nat.succ_le_succ (ih (off >>> 7 - 1) (by omega) (Nat.shiftRight_eq_div_pow _ 7))

theorem packoff_ok {off : ℕ} (h : off < 2 ^ 56) :
    ∃ w, packoff off = some w ∧ w.length ≤ 8 ∧ ∀ f, readoff (w ++ f) = some (off, f) := by
  have hlen := offgroups_length 7 off (by simpa using h)
  have hmod : off &&& 0x7f = off % 128 := Nat.and_two_pow_sub_one_eq_mod off 7
  have hdiv : off >>> 7 = off / 128 := Nat.shiftRight_eq_div_pow off 7
  obtain ⟨hlast, hlow⟩ := last_byte (off % 128) (Nat.mod_lt _ (by decide))
  refine ⟨(UInt8.ofNat (off % 128) :: offgroups off).reverse, ?_, ?_, ?_⟩
  · rw [packoff, hmod]
    exact if_pos (Nat.succ_le_succ hlen)
  · rw [List.length_reverse, List.length_cons]
    omega
  · intro f
    rw [List.reverse_cons, List.append_assoc, List.singleton_append]
    by_cases hz : off >>> 7 = 0
    · have hval : off % 128 = off := Nat.mod_eq_of_lt (by omega)
      rw [offgroups, if_pos hz, List.reverse_nil, List.nil_append, readoff, hlow,
        readoffloop_done hlast, hval]
    · obtain ⟨hmore, -⟩ := more_byte ((off >>> 7 - 1) % 128) (Nat.mod_lt _ (by decide))
      rw [offgroups_eq_marked hz, readoff_marked _ (by omega), readoffloop_more hmore (by omega),
        hlow, next_group hz, readoffloop_done hlast]

end Offset

/-- What `packhdr` and `packoff` write is read back by the loops of `readpacked` and `readodelta`,
to the last byte, and an encoded offset stands for one offset only. -/
theorem entry_roundtrip :
    (∀ t len f, 1 ≤ t → t ≤ 7 → len < 2 ^ 31 →
      readhdr (packhdr t len ++ f) = .ok (t, len, f)) ∧
    (∀ off, 0 < off → off < 2 ^ 56 →
      ∃ w, packoff off = some w ∧ w.length ≤ 8 ∧ ∀ f, readoff (w ++ f) = some (off, f)) ∧
    ∀ off off', 0 < off → off < 2 ^ 56 → 0 < off' → off' < 2 ^ 56 → packoff off = packoff off' →
      off = off' := by
  refine ⟨?_, ?_, ?_⟩
  · intro t len f h1 h7 hlen
    exact readhdr_packhdr (by omega) (by omega) hlen f
  · intro off _ h
    exact packoff_ok h
  · intro off off' _ h _ h' heq
    obtain ⟨w, hw, -, hread⟩ := packoff_ok h
    obtain ⟨w', hw', -, hread'⟩ := packoff_ok h'
    have hww : w = w' := by
      rw [hw, hw'] at heq
      exact Option.some.inj heq
    have hboth := hread []
    rw [hww, hread' []] at hboth
    exact (Prod.mk.inj (Option.some.inj hboth)).1.symm

/-- The longest header and the smallest offset of two bytes. -/
theorem entry_roundtrip_small :
    readhdr (packhdr 3 (2 ^ 31 - 1) ++ [7]) = .ok (3, 2 ^ 31 - 1, [7]) ∧
    ∃ w, packoff 128 = some w ∧ w.length ≤ 8 ∧ ∀ f, readoff (w ++ f) = some (128, f) :=
  ⟨entry_roundtrip.1 3 (2 ^ 31 - 1) [7] (by decide) (by decide) (by decide),
    entry_roundtrip.2.1 128 (by decide) (by decide)⟩

end Petele.Git
