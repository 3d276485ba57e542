import Petele.Lib.Carry
import Petele.Tcp.Seq
import Petele.Ip.Reassemble

namespace Petele.Ip.Checksum

open Lib Tcp

/-- `struct Block`: the address of its data, and the data. -/
structure Block where
  rp : ℕ
  data : List UInt8
  deriving DecidableEq

def Block.BLEN (b : Block) : ℕ := b.data.length

/-! `little` is `LITTLE`, the byte order of the machine. -/

/-- `*(ushort*)(addr + i)`. -/
def ushortat (little : Bool) (addr : List UInt8) (i : ℕ) : ℕ :=
  if little then (addr.getD (i + 1) 0).toNat * 256 + (addr.getD i 0).toNat
  else (addr.getD i 0).toNat * 256 + (addr.getD (i + 1) 0).toNat

/-- `while(len >= 16)`. -/
def by16 (little : Bool) : ℕ → List UInt8 → ℕ → ℕ × List UInt8 × ℕ
  | len + 16, addr, mdsum =>
    let t1 := ushortat little addr 0
    let t2 := ushortat little addr 2
    let mdsum := ulong (mdsum + t1)
    let t1 := ushortat little addr 4
    let mdsum := ulong (mdsum + t2)
    let t2 := ushortat little addr 6
    let mdsum := ulong (mdsum + t1)
    let t1 := ushortat little addr 8
    let mdsum := ulong (mdsum + t2)
    let t2 := ushortat little addr 10
    let mdsum := ulong (mdsum + t1)
    let t1 := ushortat little addr 12
    let mdsum := ulong (mdsum + t2)
    let t2 := ushortat little addr 14
    let mdsum := ulong (mdsum + t1)
    by16 little len (addr.drop 16) (ulong (mdsum + t2))
  | len, addr, mdsum => (len, addr, mdsum)

/-- `while(len >= 2)`. -/
def by2 (little : Bool) : ℕ → List UInt8 → ℕ → ℕ × List UInt8 × ℕ
  | len + 2, addr, mdsum => by2 little len (addr.drop 2) (ulong (mdsum + ushortat little addr 0))
  | len, addr, mdsum => (len, addr, mdsum)

/-- `losum += hisum >> 8; losum += (hisum & 0xff) << 8`. -/
def merge (losum hisum : ℕ) : ℕ := ulong (ulong (losum + hisum / 2 ^ 8) + hisum % 2 ^ 8 * 2 ^ 8)

/-- The loop that folds `losum`; what it adds, `losum >> 16`, is a `ushort` in any case. -/
def fold (losum : ℕ) : ℕ :=
  if h : losum / 2 ^ 16 = 0 then losum else fold (losum / 2 ^ 16 + losum % 2 ^ 16)
termination_by losum
decreasing_by omega

/-- `ptclbsum`; `p` is what is at `addr`. -/
def ptclbsum (little : Bool) (addr : ℕ) (p : List UInt8) (len : ℕ) : ℕ :=
  let x := addr % 2 = 1
  let hisum := if x ∧ len ≠ 0 then (p.getD 0 0).toNat else 0
  let (len, p) := if x ∧ len ≠ 0 then (len - 1, p.drop 1) else (len, p)
  let (len, p, mdsum) := by16 little len p 0
  let (len, p, mdsum) := by2 little len p mdsum
  let last := if len ≠ 0 then (p.getD 0 0).toNat else 0
  let (losum, hisum) :=
    if x then if little then (ulong (last + mdsum), hisum) else (last, ulong (hisum + mdsum))
    else if little then (0, ulong (ulong (hisum + last) + mdsum)) else (mdsum, ulong (hisum + last))
  fold (merge losum hisum) % 2 ^ 16

/-- `~v & 0xffff`. -/
def complement (v : ℕ) : ℕ := ushort (-v - 1)

/-- To the block with the byte at `offset`. -/
def front : List Block → ℕ → List Block × ℕ
  | [], offset => ([], offset)
  | bp :: next, offset =>
    if offset ≠ 0 ∧ bp.BLEN ≤ offset then front next (offset - bp.BLEN) else (bp :: next, offset)

/-- `while(len)`, at `addr` with the bytes `p` of a block; the results are `losum` and `hisum`. -/
def overblocks (little : Bool) (addr : ℕ) (p : List UInt8) (next : List Block) (len odd losum hisum : ℕ) : ℕ × ℕ :=
  if len = 0 then (losum, hisum)
  else
    let x := if len < p.length then len else p.length
    let csum := ptclbsum little addr p x
    let hisum := if odd ≠ 0 then ulong (hisum + csum) else hisum
    let losum := if odd ≠ 0 then losum else ulong (losum + csum)
    match next with
    | [] => (losum, hisum)
    | bp :: next => overblocks little bp.rp bp.data next (len - x) ((odd + x) % 2) losum hisum

def ptclcsum (little : Bool) (bp : List Block) (offset len : ℕ) : ℕ :=
  match front bp offset with
  | ([], _) => 0
  | ([bp], offset) =>
    let blocklen := bp.BLEN - offset
    complement (ptclbsum little (bp.rp + offset) (bp.data.drop offset) (if blocklen < len then blocklen else len))
  | (bp :: next, offset) =>
    let (losum, hisum) := overblocks little (bp.rp + offset) (bp.data.drop offset) next len 0 0 0
    complement (fold (merge losum hisum))

/-- The one's-complement sum of 16-bit words in network order, the last one filled up with 0. -/
def onesum (p : List UInt8) : ℕ :=
  (Carry.words 256 (p.map UInt8.toNat)).foldl (Carry.add (256 * 256)) 0

def digits (p : List UInt8) : List ℕ := p.map UInt8.toNat

variable (little : Bool)

/-- The unrolled loop adds what the plain one would. -/
theorem by2_by16 (len : ℕ) (p : List UInt8) (mdsum : ℕ) :
    (fun r => by2 little r.1 r.2.1 r.2.2) (by16 little len p mdsum) = by2 little len p mdsum := by
  induction len, p, mdsum using by16.induct little with
  | case1 mdsum len p t1 t2 m1 t3 m2 t4 m3 t5 m4 t6 m5 t7 m6 t8 m7 ih =>
    rw [by16, ih]
    simp only [by2, ushortat, List.drop_drop, List.getD_eq_getElem?_getD, List.getElem?_drop]
    rfl
  | case2 len p mdsum h => rw [by16.eq_2 _ _ _ _ h]

/-- How often the digits of words read by the machine change places. -/
def turns (little : Bool) : ℕ := if little then 1 else 0

theorem stands_ushortat (x y : UInt8) (p : List UInt8) :
    Carry.Stands 256 (turns little) (ushortat little (x :: y :: p) 0) (digits [x, y]) := by
  have h := Carry.Stands.pair (show 0 < 256 by omega) x.toNat y.toNat
  cases little
  · rw [Nat.mul_comm] at h
    exact h
  · have hswap := h.swap (by omega)
    have : Carry.swap 256 (256 * x.toNat + y.toNat) = y.toNat * 256 + x.toNat := by
      have := y.toNat_lt
      rw [Carry.swap]
      omega
    rwa [this] at hswap

theorem ushortat_lt (p : List UInt8) (i : ℕ) : ushortat little p i ≤ 65535 := by
  have := (p.getD i 0).toNat_lt
  have := (p.getD (i + 1) 0).toNat_lt
  rw [ushortat]
  split <;> omega

attribute [local simp] digits ptclbsum

/-- Pairs of bytes are added up in the machine's order. -/
theorem by2_spec (len : ℕ) (p : List UInt8) (mdsum : ℕ) (hlen : len ≤ p.length)
    (hmd : mdsum + 65535 * (len / 2) < 2 ^ 32) {l : List ℕ} (hl : Even l.length)
    (hk : Carry.Stands 256 (turns little) mdsum l) :
    ∃ m, by2 little len p mdsum = (len % 2, p.drop (len / 2 * 2), m) ∧ m ≤ mdsum + 65535 * (len / 2) ∧
      Carry.Stands 256 (turns little) m (l ++ digits (p.take (len / 2 * 2))) := by
  induction len, p, mdsum using by2.induct little generalizing l with
  | case1 len p mdsum ih =>
    obtain ⟨x, y, q, rfl⟩ : ∃ x y q, p = x :: y :: q := by
      match p, hlen with
      | x :: y :: q, _ => exact ⟨x, y, q, rfl⟩
    have hword := ushortat_lt little (x :: y :: q) 0
    have hadd : ulong ((mdsum : ℤ) + ushortat little (x :: y :: q) 0) = mdsum + ushortat little (x :: y :: q) 0 := by
      exact_mod_cast ulong_eq_self (n := mdsum + ushortat little (x :: y :: q) 0) (by omega)
    rw [List.length_cons, List.length_cons] at hlen
    obtain ⟨m, hm, hle, hstands⟩ := ih (l := l ++ digits [x, y]) (by simpa using hlen) (by rw [hadd]; omega)
      (by rw [List.length_append, digits, List.length_map]; exact hl.add even_two)
      (by rw [hadd]; exact hk.append hl (stands_ushortat little x y q))
    have htwice : (len + 2) / 2 * 2 = len / 2 * 2 + 2 := by omega
    refine ⟨m, ?_, by omega, ?_⟩
    · rw [by2, hm, htwice, show len.succ.succ % 2 = len % 2 by omega]
      rfl
    · rw [htwice]
      rw [List.append_assoc] at hstands
      exact hstands
  | case2 len p mdsum h =>
    have hlen : len = 0 ∨ len = 1 := by
      match len, h with
      | 0, _ => exact .inl rfl
      | 1, _ => exact .inr rfl
      | k + 2, h => exact absurd rfl (h k)
    refine ⟨mdsum, ?_, by omega, ?_⟩
    · rw [by2.eq_2 _ _ _ _ h, show len / 2 * 2 = 0 by omega, show len % 2 = len by omega, List.drop_zero]
    · rw [show len / 2 * 2 = 0 by omega]
      simpa [digits] using hk

/-- The two loops, from 0. -/
theorem pairs_spec {k : ℕ} {q : List UInt8} (hk : k ≤ q.length) (hsize : k ≤ 65575) :
    ∃ m, (fun r => by2 little r.1 r.2.1 r.2.2) (by16 little k q 0) = (k % 2, q.drop (k / 2 * 2), m) ∧
      m ≤ 65535 * (k / 2) ∧ Carry.Stands 256 (turns little) m (digits (q.take (k / 2 * 2))) := by
  obtain ⟨m, hm, hle, hstands⟩ := by2_spec little k q 0 hk (by omega) (l := []) ⟨0, rfl⟩
    ⟨by simp [Carry.words, Nat.ModEq.refl], by simp⟩
  exact ⟨m, by rw [by2_by16, hm], by omega, hstands⟩

theorem stands_last (k : ℕ) (q : List UInt8) (hk : k < 2) (hlen : k ≤ q.length) :
    Carry.Stands 256 1 (if k ≠ 0 then (q.getD 0 0).toNat else 0) (digits (q.take k)) := by
  obtain rfl | rfl : k = 0 ∨ k = 1 := by omega
  · simpa [digits] using (Carry.Stands.nil (b := 256) (k := 1))
  · match q, hlen with
    | x :: q, _ => exact Carry.Stands.single x.toNat (by omega)

theorem fold_eq (n : ℕ) : fold n = Carry.rep (256 * 256) n := by
  induction n using fold.induct with
  | case1 n h =>
    rw [fold, dif_pos h, Carry.rep_of_lt]
    omega
  | case2 n h ih =>
    rw [fold, dif_neg h, ih]
    exact Carry.rep_carry (by omega) n

theorem merge_eq {losum hisum : ℕ} (h : losum + hisum / 256 + 65536 ≤ 2 ^ 32) :
    merge losum hisum = losum + Carry.swap 256 hisum := by
  have h1 : ulong ((losum : ℤ) + (hisum : ℤ) / 2 ^ 8) = losum + hisum / 256 := by
    have := ulong_eq_self (n := losum + hisum / 256) (by omega)
    rw [← this]
    congr 1
  have h2 : hisum % 256 * 256 < 65536 := by omega
  rw [merge, h1, Carry.swap, ← Nat.add_assoc]
  have := ulong_eq_self (n := losum + hisum / 256 + hisum % 256 * 256) (by omega)
  rw [← this]
  congr 1

theorem digits_append (p q : List UInt8) : digits (p ++ q) = digits p ++ digits q := List.map_append

theorem even_take {k : ℕ} {q : List UInt8} (hk : k ≤ q.length) : Even (digits (q.take (k / 2 * 2))).length := by
  rw [digits, List.length_map, List.length_take, Nat.min_eq_left (by omega)]
  exact even_two.mul_left _

theorem take_split (k : ℕ) (q : List UInt8) :
    q.take k = q.take (k / 2 * 2) ++ (q.drop (k / 2 * 2)).take (k % 2) := by
  rw [← List.take_add]
  congr 1
  omega

theorem ulong_add {m n : ℕ} (h : m + n < 2 ^ 32) : ulong ((m : ℤ) + n) = m + n := by
  exact_mod_cast ulong_eq_self (n := m + n) h

theorem byte_lt (b : Prop) [Decidable b] (l : List UInt8) : (if b then (l.getD 0 0).toNat else 0) < 256 := by
  have := (l.getD 0 0).toNat_lt
  split <;> omega

theorem fold_merge {losum hisum : ℕ} {l : List ℕ} (h : losum + hisum / 256 + 65536 ≤ 2 ^ 32)
    (hs : Carry.Stands 256 0 (losum + Carry.swap 256 hisum) l) :
    fold (merge losum hisum) = Carry.rep (256 * 256) (Carry.words 256 l).sum := by
  rw [merge_eq h, fold_eq, hs.rep_eq (by omega)]

theorem rep_mod (n : ℕ) : Carry.rep (256 * 256) n % 2 ^ 16 = Carry.rep (256 * 256) n :=
  Nat.mod_eq_of_lt (Carry.rep_lt (by omega) n)

theorem ptclbsum_even {addr len : ℕ} {p : List UInt8} (hx : ¬ addr % 2 = 1) (hlen : len ≤ p.length)
    (hsize : len ≤ 65575) :
    ptclbsum little addr p len = Carry.rep (256 * 256) (Carry.words 256 (digits (p.take len))).sum := by
  obtain ⟨m, hpairs, hm, hstands⟩ := pairs_spec little hlen hsize
  have heven := even_take hlen
  have hlast := stands_last (len % 2) (p.drop (len / 2 * 2)) (by omega) (by rw [List.length_drop]; omega)
  have hbyte := byte_lt (len % 2 ≠ 0) (p.drop (len / 2 * 2))
  rcases hr : by16 little len p 0 with ⟨k, q, mdsum⟩
  rw [hr] at hpairs
  simp only at hpairs
  simp only [ptclbsum, hx, hr, if_false, false_and, hpairs]
  generalize (if len % 2 ≠ 0 then ((p.drop (len / 2 * 2)).getD 0 0).toNat else 0) = last at hlast hbyte ⊢
  rw [take_split len p, digits_append, ulong_add (m := 0) (by omega), Nat.zero_add, ← rep_mod]
  congr 1
  cases little
  · refine fold_merge (by simp; omega) ?_
    exact hstands.append heven ((Carry.Stands.twice (by omega)).mp (hlast.swap (by omega)))
  · rw [if_pos rfl, ulong_add (by omega)]
    refine fold_merge (by simp; omega) ?_
    rw [Nat.zero_add, Nat.add_comm last]
    exact (Carry.Stands.twice (by omega)).mp ((hstands.append heven hlast).swap (by omega))

/-- The first byte from an odd address is the first half of a word, and every other word is split. -/
theorem ptclbsum_odd {addr k : ℕ} {a : UInt8} {q : List UInt8} (hx : addr % 2 = 1) (hlen : k ≤ q.length)
    (hsize : k ≤ 65575) :
    ptclbsum little addr (a :: q) (k + 1) = Carry.rep (256 * 256) (Carry.words 256 (digits (a :: q.take k))).sum := by
  obtain ⟨m, hpairs, hm, hstands⟩ := pairs_spec little hlen hsize
  have heven := even_take hlen
  have hlast := stands_last (k % 2) (q.drop (k / 2 * 2)) (by omega) (by rw [List.length_drop]; omega)
  have hbyte := byte_lt (k % 2 ≠ 0) (q.drop (k / 2 * 2))
  have ha := a.toNat_lt
  have hfirst := Carry.Stands.single a.toNat (show 0 < 256 by omega)
  rcases hr : by16 little k q 0 with ⟨k', q', mdsum⟩
  rw [hr] at hpairs
  simp only at hpairs
  simp only [ptclbsum, hx, hr, eq_true (Nat.succ_ne_zero k), and_self, if_true, Nat.add_sub_cancel,
    List.drop_succ_cons, List.drop_zero, hpairs, List.getD_cons_zero]
  generalize (if k % 2 ≠ 0 then ((q.drop (k / 2 * 2)).getD 0 0).toNat else 0) = last at hlast hbyte ⊢
  rw [take_split k q, ← List.singleton_append, digits_append, digits_append, ulong_add (by omega), ulong_add (by omega),
    ← rep_mod]
  congr 1
  cases little
  · refine fold_merge (by simp; omega) ?_
    have hpair := (hfirst.append_odd (by omega) odd_one ((Carry.Stands.twice (by omega)).mpr hstands)).swap (by omega)
    have hodd := heven.one_add
    rw [← List.append_assoc]
    change Carry.Stands 256 0 (last + Carry.swap 256 (a.toNat + m)) _
    rw [Nat.add_comm last]
    refine ((Carry.Stands.twice (by omega)).mp hpair).append_odd (by omega) ?_ hlast
    rwa [List.length_append]
  · refine fold_merge (by simp; omega) ?_
    have hrest := hstands.append heven hlast
    rw [Nat.add_comm last, Nat.add_comm]
    exact ((Carry.Stands.twice (by omega)).mp (hfirst.swap (by omega))).append_odd (by omega) odd_one hrest

theorem ptclbsum_zero (addr : ℕ) (p : List UInt8) : ptclbsum little addr p 0 = 0 := by
  cases little <;> simp [ptclbsum, by16, by2, merge, fold, ulong]

theorem ptclbsum_spec (addr : ℕ) {len : ℕ} {p : List UInt8} (hlen : len ≤ p.length) (hsize : len ≤ 65575) :
    ptclbsum little addr p len = Carry.rep (256 * 256) (Carry.words 256 (digits (p.take len))).sum := by
  by_cases hx : addr % 2 = 1
  · match len, p, hlen with
    | 0, p, _ => rw [ptclbsum_zero]; rfl
    | k + 1, a :: q, hlen =>
      rw [List.length_cons] at hlen
      exact ptclbsum_odd little hx (by omega) (by omega)
  · exact ptclbsum_even little hx hlen hsize

/-- The bytes of a chain. -/
def flat (bp : List Block) : List UInt8 := bp.flatMap Block.data

theorem front_eq {bp : List Block} {offset : ℕ} (h : offset < (flat bp).length ∨ offset = 0 ∧ bp ≠ []) :
    ∃ b next o, front bp offset = (b :: next, o) ∧ o ≤ b.BLEN ∧
      (flat bp).drop offset = b.data.drop o ++ flat next := by
  induction bp generalizing offset with
  | nil => simp [flat] at h
  | cons b next ih =>
    have hflat : flat (b :: next) = b.data ++ flat next := rfl
    rw [front]
    by_cases hgo : offset ≠ 0 ∧ b.BLEN ≤ offset
    · rw [if_pos hgo]
      have hlen : offset < b.BLEN + (flat next).length := by
        simpa [hflat, Block.BLEN, hgo.1] using h
      obtain ⟨b', next', o, hf, ho, hdrop⟩ := @ih (offset - b.BLEN) (.inl (by omega))
      refine ⟨b', next', o, hf, ho, ?_⟩
      rw [hflat, List.drop_append, List.drop_eq_nil_of_le hgo.2]
      exact hdrop
    · rw [if_neg hgo]
      have ho : offset ≤ b.data.length := by
        rw [Block.BLEN] at hgo
        omega
      exact ⟨b, next, offset, rfl, ho, by rw [hflat, List.drop_append_of_le_length ho]⟩

/-- The accumulators once `d` has been added up: they hold its words at even and at odd places. -/
structure Summed (d : List ℕ) (odd losum hisum : ℕ) : Prop where
  parity : odd = d.length % 2
  stands : Carry.Stands 256 0 (losum + 256 * hisum) d
  low : 2 * losum ≤ 65535 * (d.length + odd)
  high : 2 * hisum + 65535 * odd ≤ 65535 * d.length

theorem Summed.nil : Summed [] 0 0 0 where
  parity := rfl
  stands := Carry.Stands.nil
  low := Nat.le_refl _
  high := Nat.le_refl _

theorem stands_rep (l : List ℕ) : Carry.Stands 256 0 (Carry.rep (256 * 256) (Carry.words 256 l).sum) l where
  sum := by
    rw [pow_zero, one_mul]
    exact Carry.rep_modEq _
  zero := Carry.rep_eq_zero.trans (Carry.Stands.words_zero (by omega))

/-- One block, in the accumulator of the place it starts at. -/
theorem Summed.block {d l : List ℕ} {odd losum hisum : ℕ} (h : Summed d odd losum hisum)
    (hsize : d.length + l.length ≤ 65575) :
    Summed (d ++ l) ((odd + l.length) % 2)
      (if odd ≠ 0 then losum else ulong (losum + Carry.rep (256 * 256) (Carry.words 256 l).sum))
      (if odd ≠ 0 then ulong (hisum + Carry.rep (256 * 256) (Carry.words 256 l).sum) else hisum) := by
  have hl := stands_rep l
  have hrep := Carry.rep_lt (show 2 ≤ 256 * 256 by omega) (Carry.words 256 l).sum
  generalize Carry.rep (256 * 256) (Carry.words 256 l).sum = csum at hl hrep
  have hempty : l.length = 0 → csum = 0 := fun h0 => by
    rw [List.length_eq_zero_iff] at h0
    exact hl.zero.mpr (by simp [h0])
  have hparity := h.parity
  have hlow := h.low
  have hhigh := h.high
  have hlen : (d ++ l).length = d.length + l.length := List.length_append
  by_cases ho : odd = 0
  · simp only [ho, ne_eq, not_true_eq_false, if_false]
    rw [ulong_add (by omega)]
    refine ⟨by omega, ?_, by omega, by omega⟩
    have := h.stands.append (Nat.even_iff.mpr (by omega)) hl
    rwa [Nat.add_right_comm] at this
  · rw [if_pos ho, if_pos ho, ulong_add (by omega)]
    refine ⟨by omega, ?_, by omega, by omega⟩
    have := h.stands.append_odd (by omega) (Nat.odd_iff.mpr (by omega)) (hl.mul (by omega))
    rwa [Nat.add_assoc, ← Nat.mul_add] at this

theorem overblocks_spec (addr : ℕ) (p : List UInt8) (next : List Block) (len odd losum hisum : ℕ) {d : List ℕ}
    (h : Summed d odd losum hisum) (hsize : d.length + len ≤ 65575) :
    ∃ odd', Summed (d ++ digits ((p ++ flat next).take len)) odd' (overblocks little addr p next len odd losum hisum).1
      (overblocks little addr p next len odd losum hisum).2 := by
  induction next generalizing addr p len odd losum hisum d with
  | nil =>
    rw [overblocks]
    by_cases h0 : len = 0
    · rw [if_pos h0, h0]
      exact ⟨odd, by simpa [digits] using h⟩
    · have hx : (if len < p.length then len else p.length) = min len p.length := by split <;> omega
      have hlen : (digits (p.take len)).length = min len p.length := by rw [digits, List.length_map, List.length_take]
      have hsum := ptclbsum_spec little addr (Nat.min_le_right len p.length) (by omega)
      rw [← List.take_eq_take_min] at hsum
      have := h.block (l := digits (p.take len)) (by omega)
      rw [if_neg h0]
      simp only [hx, hsum, flat, List.flatMap_nil, List.append_nil]
      exact ⟨_, this⟩
  | cons bp next ih =>
    rw [overblocks]
    by_cases h0 : len = 0
    · rw [if_pos h0, h0]
      exact ⟨odd, by simpa [digits] using h⟩
    · have hx : (if len < p.length then len else p.length) = min len p.length := by split <;> omega
      have hlen : (digits (p.take len)).length = min len p.length := by rw [digits, List.length_map, List.length_take]
      have hsum := ptclbsum_spec little addr (Nat.min_le_right len p.length) (by omega)
      rw [← List.take_eq_take_min] at hsum
      have hblock := h.block (l := digits (p.take len)) (by omega)
      have hrest : digits ((p ++ flat (bp :: next)).take len) =
          digits (p.take len) ++ digits ((bp.data ++ flat next).take (len - min len p.length)) := by
        rw [List.take_append, digits_append, show len - min len p.length = len - p.length by omega]
        rfl
      rw [if_neg h0, hrest, ← List.append_assoc]
      simp only [hx, hsum]
      rw [hlen] at hblock
      exact ih bp.rp bp.data _ _ _ _ hblock (by rw [List.length_append, hlen]; omega)

/-- The sum is 0 for zeros only, and otherwise not. -/
theorem onesum_eq (p : List UInt8) : onesum p = Carry.rep (256 * 256) (Carry.words 256 (digits p)).sum := by
  have hlt : ∀ n ∈ Carry.words 256 (digits p), n < 256 * 256 := by
    refine Carry.words_lt (by omega) fun x hx => ?_
    obtain ⟨y, -, rfl⟩ := List.mem_map.mp hx
    exact y.toNat_lt
  have := Carry.foldl_add (show 2 ≤ 256 * 256 by omega) hlt 0
  rwa [Nat.zero_add] at this

theorem onesum_eq_zero (p : List UInt8) : onesum p = 0 ↔ ∀ x ∈ p, x = 0 := by
  rw [onesum_eq, Carry.rep_eq_zero, Carry.Stands.words_zero (by omega), digits, List.forall_mem_map]
  refine forall₂_congr fun x _ => ?_
  exact ⟨fun h => UInt8.toNat_inj.mp h, fun h => by rw [h]; rfl⟩

theorem onesum_lt (p : List UInt8) : onesum p < 2 ^ 16 := by
  rw [onesum_eq]
  exact Carry.rep_lt (by omega) _

theorem complement_eq {v : ℕ} (h : v < 2 ^ 16) : complement v = 0xffff - v := by
  rw [complement, ushort]
  omega

/-- The checksum is that of the bytes in a row, whatever blocks hold them and wherever these are. -/
theorem ptclcsum_flat (little : Bool) (bp : List Block) (offset len : ℕ)
    (hoffset : offset < (flat bp).length ∨ offset = 0 ∧ bp ≠ []) (hlen : len ≤ 65575) :
    ptclcsum little bp offset len = 0xffff - onesum (((flat bp).drop offset).take len) ∧
      (onesum (((flat bp).drop offset).take len) = 0 ↔ ∀ x ∈ ((flat bp).drop offset).take len, x = 0) := by
  refine ⟨?_, onesum_eq_zero _⟩
  obtain ⟨b, next, o, hfront, ho, hdrop⟩ := front_eq hoffset
  rw [← complement_eq (onesum_lt _), hdrop, onesum_eq, ptclcsum, hfront]
  match next with
  | [] =>
    have hx : (if b.BLEN - o < len then b.BLEN - o else len) = min len (b.data.drop o).length := by
      rw [List.length_drop, Block.BLEN]
      split <;> omega
    simp only [hx, flat, List.flatMap_nil, List.append_nil]
    rw [ptclbsum_spec _ _ (Nat.min_le_right _ _) (by omega), ← List.take_eq_take_min]
  | b' :: next =>
    obtain ⟨odd, h⟩ := overblocks_spec little (b.rp + o) (b.data.drop o) (b' :: next) len 0 0 0 Summed.nil
      (by simpa using hlen)
    have hlow := h.low
    have hhigh := h.high
    have hodd := h.parity
    have hsize : ([] ++ digits ((b.data.drop o ++ flat (b' :: next)).take len)).length ≤ 65575 := by
      rw [List.nil_append, digits, List.length_map, List.length_take]
      omega
    simp only
    rw [merge_eq (by omega), fold_eq]
    congr 1
    refine (Carry.Stands.rep_eq (by omega) ⟨?_, ?_⟩)
    · exact ((Carry.swap_modEq (by omega) _).add_left _).trans h.stands.sum
    · rw [Nat.add_eq_zero_iff, Carry.swap_eq_zero (by omega)]
      have := h.stands.zero
      rw [Nat.add_eq_zero_iff, Nat.mul_eq_zero] at this
      simpa using this

theorem ptclcsum_flat_odd :
    ptclcsum true [⟨3, [1, 2, 3]⟩, ⟨8, []⟩, ⟨4, [4, 5]⟩] 1 65575 = 0xffff - onesum [2, 3, 4, 5] ∧
      (onesum [2, 3, 4, 5] = 0 ↔ ∀ x ∈ [(2 : UInt8), 3, 4, 5], x = 0) :=
  ptclcsum_flat true [⟨3, [1, 2, 3]⟩, ⟨8, []⟩, ⟨4, [4, 5]⟩] 1 65575 (by decide) (by decide)

end Petele.Ip.Checksum
