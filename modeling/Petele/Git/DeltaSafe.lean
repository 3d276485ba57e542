import Petele.Git.Pack
import Mathlib.Data.Int.Notation

namespace Petele.Git

/-! `applydelta` once more, with its pointers as offsets into the delta, the data of the base and the
buffer it allocates. An access outside one of these, and a loop that does not end, is `none`. -/

/-- The bytes `memmove` reads, from offset `i` of `s` on. -/
def load (s : List UInt8) (i n : ℤ) : Option (List UInt8) :=
  if 0 ≤ i ∧ 0 ≤ n ∧ i + n ≤ s.length then some (bytes s i.toNat n.toNat) else none

/-- `memmove` to offset `i` of `buf`. -/
def store (buf : List UInt8) (i : ℕ) (src : List UInt8) : Option (List UInt8) :=
  if i + src.length ≤ buf.length then some (buf.take i ++ src ++ buf.drop (i + src.length)) else none

/-- `readvint` from offset `p` on; `-1` is the inner `none`. The first argument bounds the turns. -/
def readvintat (d : List UInt8) : ℕ → ℕ → ℕ → ℕ → Option (Option (ℕ × ℕ))
  | 0, _, _, _ => none
  | fuel + 1, s, n, p =>
    if p = d.length then some none
    else do
      let c ← d[p]?
      let n := n ||| (c.toNat &&& 0x7f) <<< s
      if c &&& 0x80 ≠ 0 ∧ s + 7 < 63 then readvintat d fuel (s + 7) n (p + 1) else some (some (n, p + 1))

/-- One line that reads an optional byte of an offset or a length. The byte is shifted as an `int`,
and its sign is that of the `vlong`. -/
def optat (d : List UInt8) (c bit : UInt8) (s : ℕ) (v : BitVec 64 × ℕ) : Option (BitVec 64 × ℕ) :=
  if v.2 ≠ d.length ∧ c &&& bit ≠ 0 then do
    let x ← d[v.2]?
    return (v.1 ||| ((x.toBitVec.setWidth 32) <<< s).signExtend 64, v.2 + 1)
  else some v

def copyoffat (d : List UInt8) (c : UInt8) (p : ℕ) : Option (ℤ × ℕ) := do
  let v ← optat d c 0x01 0 (0, p)
  let v ← optat d c 0x02 8 v
  let v ← optat d c 0x04 16 v
  let v ← optat d c 0x08 24 v
  return (v.1.toInt, v.2)

def copylenat (d : List UInt8) (c : UInt8) (p : ℕ) : Option (ℤ × ℕ) := do
  let v ← optat d c 0x10 0 (0, p)
  let v ← optat d c 0x20 8 v
  let v ← optat d c 0x40 16 v
  return (if v.1.toInt = 0 then 0x10000 else v.1.toInt, v.2)

/-- The loop over the commands from offset `p` on, with the offsets `r` and `er` into the buffer. -/
def applyat (base d : List UInt8) (er : ℕ) : ℕ → ℕ → ℕ → List UInt8 → Option (Except String (List UInt8))
  | 0, _, _, _ => none
  | fuel + 1, p, r, buf =>
    if p = d.length then some (if r ≠ er then .error "truncated delta" else .ok buf)
    else do
      let c ← d[p]?
      let p := p + 1
      if c &&& 0x80 ≠ 0 then
        let (o, p) ← copyoffat d c p
        let (l, p) ← copylenat d c p
        if o < 0 ∨ l < 0 ∨ (er : ℤ) - r < l ∨ base.length < o + l then
          some (.error "garbled delta: out of bounds copy")
        else
          let src ← load base o l
          let buf ← store buf r src
          applyat base d er fuel p (r + l.toNat) buf
      else if (d.length : ℤ) - p < c.toNat ∨ (er : ℤ) - r < c.toNat then
        some (.error "garbled delta: write past object")
      else
        let src ← load d p c.toNat
        let buf ← store buf r src
        applyat base d er fuel (p + c.toNat) (r + c.toNat) buf

/-- `snprint(r, 64, "%T %lld", type, size)` and the NUL behind the text. -/
def snprint (type : Otype) (size : ℕ) : List UInt8 :=
  ((Tfmt type ++ " " ++ toString size).toUTF8.data.toList).take 63 ++ [0]

def applydeltaat (base : Object) (d : List UInt8) : Option (Except String Object) := do
  match ← readvintat d 9 0 0 0 with
  | none => some (.error "mismatched source size")
  | some (n, p) =>
    if 1 <<< 31 ≤ n ∨ n ≠ base.size then some (.error "mismatched source size")
    else
      match ← readvintat d 9 0 0 p with
      | none => some (.error "invalid pack: %r")
      | some (nr, p) =>
        if 1 <<< 31 ≤ nr then some (.error "invalid pack: %r")
        else
          let text := snprint base.type nr
          let buf ← store (List.replicate (nr + 64) 0) 0 text
          let n := text.length
          let res ← applyat base.data d (n + nr) (d.length + 1) p n buf
          return res.map fun buf => ⟨base.type, buf.take (n + nr), bytes buf n nr⟩

/-- The bytes that copy and insert commands produce from a base. -/
inductive Produces (base : List UInt8) : List UInt8 → List UInt8 → Prop
  | done : Produces base [] []
  | copy {c : UInt8} {d out : List UInt8} (hc : c &&& 0x80 ≠ 0)
      (hbound : (copyoff c d).1 + (copylen c (copyoff c d).2).1 ≤ base.length)
      (hrest : Produces base (copylen c (copyoff c d).2).2 out) :
    Produces base (c :: d) (bytes base (copyoff c d).1 (copylen c (copyoff c d).2).1 ++ out)
  | insert {c : UInt8} {d out : List UInt8} (hc : c &&& 0x80 = 0) (hbound : c.toNat ≤ d.length)
      (hrest : Produces base (d.drop c.toNat) out) : Produces base (c :: d) (d.take c.toNat ++ out)

section Reading

variable {d : List UInt8} {p : ℕ}

theorem drop_eq_cons (hp : p < d.length) : ∃ c, d[p]? = some c ∧ d.drop p = c :: d.drop (p + 1) :=
  ⟨d[p], List.getElem?_eq_getElem hp, List.drop_eq_getElem_cons hp⟩

/-- A number is read inside the delta, as from the list of its bytes. -/
theorem readvintat_spec (fuel s n : ℕ) (hp : p ≤ d.length) (hfuel : 63 ≤ s + 7 * fuel) (hpos : 0 < fuel) :
    (readvint s n (d.drop p) = none ∧ readvintat d fuel s n p = some none) ∨
    ∃ v p', readvint s n (d.drop p) = some (v, d.drop p') ∧ p' ≤ d.length ∧
      readvintat d fuel s n p = some (some (v, p')) := by
  induction fuel generalizing s n p with
  | zero => omega
  | succ fuel ih =>
    rw [readvintat]
    by_cases hend : p = d.length
    · rw [if_pos hend, hend, List.drop_length]
      exact .inl ⟨rfl, rfl⟩
    · obtain ⟨c, hc, hdrop⟩ := drop_eq_cons (show p < d.length by omega)
      rw [if_neg hend, hdrop, hc, readvint]
      simp only [Option.bind_eq_bind, Option.bind_some]
      split
      · rename_i hmore
        exact ih (s + 7) _ (by omega) (by omega) (by omega)
      · exact .inr ⟨_, p + 1, rfl, by omega, rfl⟩

/-- An offset or length in the making: the `vlong` is the number's sign extension. -/
def Same (d : List UInt8) (v : BitVec 64 × ℕ) (r : ℕ × List UInt8) : Prop :=
  v.1 = (BitVec.ofNat 32 r.1).signExtend 64 ∧ v.2 ≤ d.length ∧ r.2 = d.drop v.2

theorem optat_spec (c bit : UInt8) (s : ℕ) {v : BitVec 64 × ℕ} {r : ℕ × List UInt8} (h : Same d v r) :
    ∃ v', optat d c bit s v = some v' ∧ Same d v' (optbyte c bit s r) := by
  obtain ⟨hv, hp, hr⟩ := h
  rw [optat, optbyte, hr]
  by_cases hend : v.2 = d.length
  · rw [if_neg (fun h => h.1 hend), hend, List.drop_length]
    exact ⟨v, rfl, hv, hp, by rw [hr]⟩
  · obtain ⟨x, hx, hdrop⟩ := drop_eq_cons (show v.2 < d.length by omega)
    rw [hdrop, hx]
    simp only [Option.bind_eq_bind, Option.bind_some]
    by_cases hbit : c &&& bit ≠ 0
    · rw [if_pos ⟨hend, hbit⟩, if_pos hbit]
      refine ⟨_, rfl, ?_, by dsimp only; omega, rfl⟩
      dsimp only
      rw [hv, ← BitVec.signExtend_or]
      congr 1
      apply BitVec.eq_of_toNat_eq
      simp
    · rw [if_neg (fun h => hbit h.2), if_neg hbit]
      exact ⟨v, rfl, hv, hp, hr⟩

theorem optbyte_lt {k : ℕ} (c bit : UInt8) (s : ℕ) {r : ℕ × List UInt8} (h : r.1 < 2 ^ k) (hk : s + 8 ≤ k) :
    (optbyte c bit s r).1 < 2 ^ k := by
  rw [optbyte]
  split
  · exact h
  · split
    · rename_i x _ _ _
      have hx : x.toNat <<< s < 2 ^ k := by
        rw [Nat.shiftLeft_eq]
        calc x.toNat * 2 ^ s
          _ < 2 ^ 8 * 2 ^ s := Nat.mul_lt_mul_of_pos_right x.toNat_lt (Nat.two_pow_pos s)
          _ = 2 ^ (s + 8) := by rw [← Nat.pow_add, Nat.add_comm]
          _ ≤ 2 ^ k := Nat.pow_le_pow_right (by decide) hk
      exact Nat.or_lt_two_pow h hx
    · exact h

theorem toInt_same {v : BitVec 64 × ℕ} {r : ℕ × List UInt8} (h : Same d v r) (hr : r.1 < 2 ^ 32) :
    v.1.toInt = if r.1 < 2 ^ 31 then (r.1 : ℤ) else r.1 - 2 ^ 32 := by
  have hmod : r.1 % 2 ^ 32 = r.1 := Nat.mod_eq_of_lt hr
  rw [h.1, BitVec.toInt_signExtend_of_le (by decide), BitVec.toInt_eq_toNat_cond, BitVec.toNat_ofNat, hmod]
  split <;> split <;> omega

/-- The offset of a copy comes out as in the list, but for the sign of the `int`. -/
theorem copyoffat_spec (c : UInt8) (hp : p ≤ d.length) :
    ∃ p', p' ≤ d.length ∧ (copyoff c (d.drop p)).2 = d.drop p' ∧ p ≤ p' ∧
      (copyoff c (d.drop p)).1 < 2 ^ 32 ∧ copyoffat d c p = some (if (copyoff c (d.drop p)).1 < 2 ^ 31 then
        ((copyoff c (d.drop p)).1 : ℤ) else (copyoff c (d.drop p)).1 - 2 ^ 32, p') := by
  have h₀ : Same d (0, p) (0, d.drop p) := ⟨rfl, hp, rfl⟩
  obtain ⟨v₁, h₁, hs₁⟩ := optat_spec c 0x01 0 h₀
  obtain ⟨v₂, h₂, hs₂⟩ := optat_spec c 0x02 8 hs₁
  obtain ⟨v₃, h₃, hs₃⟩ := optat_spec c 0x04 16 hs₂
  obtain ⟨v₄, h₄, hs₄⟩ := optat_spec c 0x08 24 hs₃
  have hlt : (copyoff c (d.drop p)).1 < 2 ^ 32 := by
    apply optbyte_lt _ _ _ _ (by decide)
    apply optbyte_lt _ _ _ _ (by decide)
    apply optbyte_lt _ _ _ _ (by decide)
    exact optbyte_lt _ _ _ (Nat.two_pow_pos _) (by decide)
  have hle : (copyoff c (d.drop p)).2.length ≤ (d.drop p).length := copyoff_length c (d.drop p)
  have hrest : (copyoff c (d.drop p)).2 = d.drop v₄.2 := hs₄.2.2
  refine ⟨v₄.2, hs₄.2.1, hrest, ?_, hlt, ?_⟩
  · have hbound := hs₄.2.1
    rw [hrest, List.length_drop, List.length_drop] at hle
    omega
  · rw [copyoffat]
    simp only [h₁, h₂, h₃, h₄, Option.bind_eq_bind, Option.bind_some, Option.pure_def]
    rw [toInt_same hs₄ hlt]
    rfl

theorem copylenat_spec (c : UInt8) (hp : p ≤ d.length) :
    ∃ p', p' ≤ d.length ∧ (copylen c (d.drop p)).2 = d.drop p' ∧ p ≤ p' ∧
      copylenat d c p = some (((copylen c (d.drop p)).1 : ℤ), p') := by
  have h₀ : Same d (0, p) (0, d.drop p) := ⟨rfl, hp, rfl⟩
  obtain ⟨v₁, h₁, hs₁⟩ := optat_spec c 0x10 0 h₀
  obtain ⟨v₂, h₂, hs₂⟩ := optat_spec c 0x20 8 hs₁
  obtain ⟨v₃, h₃, hs₃⟩ := optat_spec c 0x40 16 hs₂
  have hlt : (optbyte c 0x40 16 (optbyte c 0x20 8 (optbyte c 0x10 0 (0, d.drop p)))).1 < 2 ^ 24 := by
    apply optbyte_lt _ _ _ _ (by decide)
    apply optbyte_lt _ _ _ _ (by decide)
    exact optbyte_lt _ _ _ (Nat.two_pow_pos _) (by decide)
  have hint := toInt_same hs₃ (by omega)
  rw [if_pos (by omega)] at hint
  have hle : (copylen c (d.drop p)).2.length ≤ (d.drop p).length := copylen_length c (d.drop p)
  have hrest : (copylen c (d.drop p)).2 = d.drop v₃.2 := hs₃.2.2
  refine ⟨v₃.2, hs₃.2.1, hrest, ?_, ?_⟩
  · have hbound := hs₃.2.1
    rw [hrest, List.length_drop, List.length_drop] at hle
    omega
  · rw [copylenat]
    simp only [h₁, h₂, h₃, Option.bind_eq_bind, Option.bind_some, Option.pure_def, hint, copylen]
    split
    · rename_i hz
      rw [if_pos (by exact_mod_cast hz)]
      rfl
    · rename_i hz
      rw [if_neg (by exact_mod_cast hz)]

end Reading

section Text

theorem ascii_size (l : List Char) (h : ∀ c ∈ l, c.utf8Size = 1) : l.utf8Encode.size = l.length := by
  induction l with
  | nil => simp
  | cons c l ih =>
    have hrest := ih fun x hx => h x (List.mem_cons_of_mem _ hx)
    rw [List.utf8Encode_cons, ByteArray.size_append, hrest, List.utf8Encode_singleton, List.length_cons,
      Nat.add_comm]
    simp [h c List.mem_cons_self]

theorem digit_utf8Size {size : ℕ} {c : Char} (hc : c ∈ Nat.toDigits 10 size) : c.utf8Size = 1 := by
  have hdigit := Nat.isDigit_of_mem_toDigits (by decide) (by decide) hc
  rw [Char.utf8Size_eq_one_iff]
  simp only [Char.isDigit, ge_iff_le, Bool.and_eq_true, decide_eq_true_eq] at hdigit
  exact Nat.le_trans (UInt32.le_iff_toNat_le.mp hdigit.2) (by decide)

theorem digits_size {size k : ℕ} (hk : 0 < k) (h : size < 10 ^ k) : (toString size).utf8ByteSize ≤ k := by
  rw [Nat.toString_eq_repr, Nat.repr_eq_ofList_toDigits, ← String.size_toByteArray,
    String.toByteArray_ofList, ascii_size]
  · exact (Nat.length_toDigits_le_iff (by decide) hk).mpr h
  · exact fun c hc => digit_utf8Size hc

/-- The text in front of an object with a size of `k` digits. -/
theorem text_length (type : Otype) {size k : ℕ} (hk : 0 < k) (h : size < 10 ^ k) :
    ((Tfmt type ++ " " ++ toString size).toUTF8.data.toList).length ≤ 7 + k := by
  have htype : (Tfmt type).utf8ByteSize ≤ 6 := by cases type <;> decide
  have hlen : ((Tfmt type ++ " " ++ toString size).toUTF8.data.toList).length =
      (Tfmt type).utf8ByteSize + 1 + (toString size).utf8ByteSize := by
    rw [Array.length_toList]
    show (Tfmt type ++ " " ++ toString size).utf8ByteSize = _
    rw [String.utf8ByteSize_append, String.utf8ByteSize_append]
    rfl
  have hdigits := digits_size hk h
  omega

/-- The header is not cut. -/
theorem snprint_eq (type : Otype) {size : ℕ} (h : size < 2 ^ 32) : snprint type size = header type size := by
  rw [snprint, header, List.take_of_length_le (Nat.le_trans (text_length type (k := 10) (by decide) (by omega))
    (by decide))]

theorem header_length (type : Otype) {size : ℕ} (h : size < 2 ^ 32) : (header type size).length ≤ 18 := by
  rw [header, List.length_append, List.length_singleton]
  exact Nat.succ_le_succ (text_length type (k := 10) (by decide) (by omega))

end Text

section Loop

variable {base d : List UInt8} {nr : ℕ}

theorem load_eq {s : List UInt8} {i n : ℕ} (h : i + n ≤ s.length) : load s i n = some (bytes s i n) := by
  rw [load, if_pos ⟨by omega, by omega, by exact_mod_cast h⟩, Int.toNat_natCast, Int.toNat_natCast]

/-- What is stored behind the bytes written so far stands behind them. -/
theorem store_behind {front junk src : List UInt8} (h : src.length ≤ junk.length) :
    store (front ++ junk) front.length src = some (front ++ src ++ junk.drop src.length) := by
  rw [store, if_pos (by rw [List.length_append]; omega), List.take_left, List.drop_append,
    List.drop_of_length_le (by omega), Nat.add_sub_cancel_left, List.nil_append]

/-- The loop keeps inside the delta, the base and the buffer, comes to its end, and does what it does
on the list of commands. -/
theorem applyat_spec (text : List UInt8) (fuel p : ℕ) (r junk : List UInt8) (hp : p ≤ d.length)
    (hfuel : d.length - p < fuel) (hr : r.length ≤ nr) (hroom : nr ≤ r.length + junk.length) :
    (∃ e, applycmds base nr r (d.drop p) = .error e ∧
      applyat base d (text.length + nr) fuel p (text ++ r).length (text ++ r ++ junk) = some (.error e)) ∨
    ∃ r' junk', applycmds base nr r (d.drop p) = .ok r' ∧
      applyat base d (text.length + nr) fuel p (text ++ r).length (text ++ r ++ junk) =
        some (.ok (text ++ r' ++ junk')) := by
  induction fuel generalizing p r junk with
  | zero => omega
  | succ fuel ih =>
    -- Bytes that a command produces go behind those written, and the loop goes on at `p'`.
    have hnext : ∀ (src : List UInt8) (p' : ℕ), p' ≤ d.length → p < p' → src.length ≤ nr - r.length →
        (∃ e, applycmds base nr (r ++ src) (d.drop p') = .error e ∧
          ((store (text ++ r ++ junk) (text ++ r).length src).bind fun buf =>
            applyat base d (text.length + nr) fuel p' ((text ++ r).length + src.length) buf) =
              some (.error e)) ∨
        ∃ r' junk', applycmds base nr (r ++ src) (d.drop p') = .ok r' ∧
          ((store (text ++ r ++ junk) (text ++ r).length src).bind fun buf =>
            applyat base d (text.length + nr) fuel p' ((text ++ r).length + src.length) buf) =
              some (.ok (text ++ r' ++ junk')) := by
      intro src p' hp' hlt hsrc
      have hlen : (r ++ src).length = r.length + src.length := List.length_append
      have hstep := ih p' (r ++ src) (junk.drop src.length) hp' (by omega) (by omega) (by
        rw [hlen, List.length_drop]
        omega)
      rw [store_behind (by omega), Option.bind_some]
      simp only [List.length_append, List.append_assoc, Nat.add_assoc] at hstep ⊢
      exact hstep
    rw [applyat]
    by_cases hend : p = d.length
    · rw [if_pos hend, hend, List.drop_length, applycmds]
      by_cases hfull : r.length = nr
      · rw [if_neg (by rw [not_not]; exact hfull), if_neg (by rw [List.length_append]; omega)]
        exact .inr ⟨r, junk, rfl, rfl⟩
      · rw [if_pos hfull, if_pos (by rw [List.length_append]; omega)]
        exact .inl ⟨_, rfl, rfl⟩
    · obtain ⟨c, hc, hdrop⟩ := drop_eq_cons (show p < d.length by omega)
      rw [if_neg hend, hdrop, hc, applycmds]
      simp only [Option.bind_eq_bind, Option.bind_some]
      by_cases hcopy : c &&& 0x80 ≠ 0
      · obtain ⟨p₁, hp₁, hd₁, hle₁, hlt, ho⟩ := copyoffat_spec c (show p + 1 ≤ d.length by omega)
        obtain ⟨p₂, hp₂, hd₂, hle₂, hl⟩ := copylenat_spec c hp₁
        rw [if_pos hcopy, if_pos hcopy, ho, hd₁]
        simp only [Option.bind_some, hl, hd₂]
        generalize (copyoff c (d.drop (p + 1))).1 = o at *
        generalize (copylen c (d.drop p₁)).1 = l at *
        by_cases hbad : 2 ^ 31 ≤ o ∨ nr - r.length < l ∨ base.length < o + l
        · rw [if_pos hbad, if_pos (by
            rw [List.length_append]
            split <;> omega)]
          exact .inl ⟨_, rfl, rfl⟩
        · have hlow : o < 2 ^ 31 := by omega
          have hin : o + l ≤ base.length := by omega
          have hlen := bytes_length hin
          rw [if_neg hbad, if_pos hlow, if_neg (by
            rw [List.length_append]
            omega), load_eq hin]
          simp only [Option.bind_some, Int.toNat_natCast]
          have hdone := hnext (bytes base o l) p₂ hp₂ (by omega) (by omega)
          rwa [hlen] at hdone
      · rw [if_neg hcopy, if_neg hcopy, List.length_drop]
        by_cases hbad : d.length - (p + 1) < c.toNat ∨ nr - r.length < c.toNat
        · rw [if_pos hbad, if_pos (by
            rw [List.length_append]
            omega)]
          exact .inl ⟨_, rfl, rfl⟩
        · have hin : p + 1 + c.toNat ≤ d.length := by omega
          have hlen := bytes_length hin
          rw [if_neg hbad, if_neg (by
            rw [List.length_append]
            omega), load_eq hin, List.drop_drop]
          have hdone := hnext (bytes d (p + 1) c.toNat) (p + 1 + c.toNat) hin (by omega) (by omega)
          rwa [hlen] at hdone

theorem applycmds_produces {r d r' : List UInt8} (h : applycmds base nr r d = .ok r') :
    ∃ out, Produces base d out ∧ r' = r ++ out ∧ r'.length = nr := by
  induction r, d using applycmds.induct base nr with
  | case1 r hlen =>
    rw [applycmds, if_pos hlen] at h
    cases h
  | case2 r hlen =>
    rw [applycmds, if_neg hlen] at h
    cases h
    exact ⟨[], .done, (List.append_nil _).symm, Decidable.not_not.mp hlen⟩
  | case3 r c d hc o l hbad =>
    rw [applycmds, if_pos hc, if_pos hbad] at h
    cases h
  | case4 r c d hc o l hok ih =>
    rw [applycmds, if_pos hc, if_neg hok] at h
    obtain ⟨out, hout, rfl, hlen⟩ := ih h
    refine ⟨_, .copy hc (Nat.not_lt.mp fun hlt => hok (.inr (.inr hlt))) hout, ?_, hlen⟩
    exact List.append_assoc _ _ _
  | case5 r c d hc hbad =>
    rw [applycmds, if_neg hc, if_pos hbad] at h
    cases h
  | case6 r c d hc hok ih =>
    rw [applycmds, if_neg hc, if_neg hok] at h
    obtain ⟨out, hout, rfl, hlen⟩ := ih h
    exact ⟨_, .insert (Decidable.not_not.mp hc) (by omega) hout, List.append_assoc _ _ _, hlen⟩

/-- `applydelta` makes no access outside its delta, its base and its buffer, and it ends; what it
computes is what it computes on lists. -/
theorem applydeltaat_eq (base : Object) (d : List UInt8) :
    applydeltaat base d = some (applydelta base d) := by
  rw [applydeltaat, applydelta]
  rcases readvintat_spec 9 0 0 (Nat.zero_le d.length) (by decide) (by decide) with
    ⟨hnone, hat⟩ | ⟨n, p, hsome, hp, hat⟩
  · rw [List.drop_zero] at hnone
    rw [hnone, hat]
    rfl
  rw [List.drop_zero] at hsome
  rw [hsome, hat]
  simp only [Option.bind_eq_bind, Option.bind_some]
  split
  · rfl
  rcases readvintat_spec 9 0 0 hp (by decide) (by decide) with ⟨hnone, hat⟩ | ⟨nr, p', hsome, hp', hat⟩
  · rw [hnone, hat]
    rfl
  rw [hsome, hat]
  simp only [Option.bind_some]
  split
  · rfl
  · rename_i hnr
    have hsmall : nr < 2 ^ 31 := by
      rw [Nat.shiftLeft_eq] at hnr
      omega
    have hlen := header_length base.type (show nr < 2 ^ 32 by omega)
    have hstore := @store_behind [] (List.replicate (nr + 64) 0) (header base.type nr) (by rw [List.length_replicate]; omega)
    rw [List.nil_append, List.nil_append, List.length_nil] at hstore
    rw [snprint_eq base.type (by omega), hstore, Option.bind_some]
    rcases @applyat_spec base.data _ nr (header base.type nr) (d.length + 1) p' []
      ((List.replicate (nr + 64) 0).drop (header base.type nr).length) hp' (by omega) (Nat.zero_le nr) (by
        rw [List.length_drop, List.length_replicate, List.length_nil]
        omega) with ⟨e, hcmds, hat⟩ | ⟨r, junk, hcmds, hat⟩
    · rw [List.append_nil] at hat
      rw [hcmds, hat]
      rfl
    · rw [List.append_nil] at hat
      obtain ⟨-, -, -, hr⟩ := applycmds_produces hcmds
      rw [hcmds, hat]
      simp only [Option.bind_some, Option.pure_def, Except.map]
      rw [bytes, List.append_assoc, List.drop_left, ← hr, List.take_left, ← List.append_assoc,
        ← List.length_append, List.take_left]

/-- Whatever the delta and the base, `applydelta` reads only bytes of the delta and of the base's data,
writes only into the buffer of `nr + 64` bytes it allocates, and ends; and it succeeds only if the
commands produce exactly the `nr` bytes the delta declares. -/
theorem applydelta_safe (base : Object) (d : List UInt8) :
    ∃ res, applydeltaat base d = some res ∧ ∀ o, res = .ok o →
      ∃ n nr rest cmds, readvint 0 0 d = some (n, rest) ∧ readvint 0 0 rest = some (nr, cmds) ∧
        Produces base.data cmds o.data ∧ o.data.length = nr := by
  refine ⟨applydelta base d, applydeltaat_eq base d, ?_⟩
  intro o ho
  rw [applydelta] at ho
  split at ho
  · cases ho
  rename_i n rest hn
  split at ho
  · cases ho
  split at ho
  · cases ho
  rename_i nr cmds hnr
  split at ho
  · cases ho
  cases hcmds : applycmds base.data nr [] cmds with
  | error e =>
    rw [hcmds] at ho
    cases ho
  | ok r =>
    rw [hcmds] at ho
    cases ho
    obtain ⟨out, hout, rfl, hlen⟩ := applycmds_produces hcmds
    exact ⟨n, nr, rest, cmds, hn, hnr, hout, hlen⟩

end Loop

end Petele.Git
