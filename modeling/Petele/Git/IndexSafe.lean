import Petele.Git.Lookup

namespace Petele.Git

open Lib BigEndian

section Reads

/-! `searchindex` with every read checked: one outside of the index or of the hash is `none`. -/

/-- `memcmp` of `n` bytes, from `a[i]` and `b[j]` on. It stops at the first that differ. -/
def memcmpat (a b : List UInt8) : ℕ → ℕ → ℕ → Option ℤ
  | _, _, 0 => some 0
  | i, j, n + 1 => do
    let c1 ← a[i]?
    let c2 ← b[j]?
    if c1 = c2 then memcmpat a b (i + 1) (j + 1) n
    else return if c2 < c1 then 1 else -1

/-- `hashcmp` with the bytes of the index from `s` on. -/
def hashcmpat (h idx : List UInt8) (s nbit : ℕ) : Option ℤ := do
  let i := nbit / 8
  let r ← memcmpat h idx 0 s i
  if r ≠ 0 ∨ nbit % 8 = 0 then return r
  else
    let x ← h[i]?
    let y ← idx[s + i]?
    return (x.toNat >>> (8 - nbit % 8) : ℕ) - (y.toNat >>> (8 - nbit % 8) : ℕ)

def getbe32at (idx : List UInt8) (o : ℕ) : Option ℕ :=
  if o + 4 ≤ idx.length then some (getbe32 (idx.drop o)) else none

def getbe64at (idx : List UInt8) (o : ℕ) : Option ℕ :=
  if o + 8 ≤ idx.length then some (getbe64 (idx.drop o)) else none

def memcpyat (idx : List UInt8) (s n : ℕ) : Option (List UInt8) :=
  if s + n ≤ idx.length then some ((idx.drop s).take n) else none

/-- Where the entry `hidx` starts. -/
def entryat (hidx : ℕ) : ℕ := 8 + 256 * 4 + hidx * 20 % 2 ^ 32

/-- The loop, for at most so many turns. -/
def searchloopat (idx : List UInt8) (h : Hash) (npfx : ℕ) : ℕ → ℕ → ℕ → Option (Option ℕ)
  | 0, _, _ => some none
  | fuel + 1, lo, hi =>
    if lo < hi then do
      let hidx := (hi + lo) % 2 ^ 32 / 2
      let r ← hashcmpat h.h idx (entryat hidx) npfx
      if r < 0 then searchloopat idx h npfx fuel lo hidx
      else if 0 < r then searchloopat idx h npfx fuel (hidx + 1) hi
      else return some hidx
    else some none

def entryoffat (idx : List UInt8) (nidx : ℤ) (nent hidx : ℕ) : Option ℤ := do
  let oo : ℕ := 8 + 256 * 4 + 20 * nent + 4 * nent + 4 * hidx % 2 ^ 32
  if nidx < (oo : ℤ) + 4 then return -1
  else
    let o ← getbe32at idx oo
    if o &&& 1 <<< 31 ≠ 0 then
      let oo : ℕ := 8 + 256 * 4 + 20 * nent + 4 * nent + 4 * nent + 8 * (o &&& 0x7fffffff)
      if nidx ≤ (oo : ℤ) + 8 then return -1
      else return (← getbe64at idx oo)
    else return o

/-- The start of that range. -/
def startat (idx : List UInt8) (first : ℕ) : Option ℕ :=
  if first = 0 then some 0 else getbe32at idx (8 + first * 4 - 4)

/-- The hash that is found, for a caller that wants it. -/
def storeat (idx : List UInt8) (hidx : ℕ) (hret : Bool) : Option (Option (List UInt8)) :=
  if hret then (memcpyat idx (entryat hidx) 20).map some else some none

/-- `hret` tells whether the hash that is found is stored. -/
def searchindexat (fuel : ℕ) (idx : List UInt8) (nidx : ℤ) (h : Hash) (npfx : ℤ) (hret : Bool) :
    Option (ℤ × Option (List UInt8)) := do
  if nidx < 8 + 256 * 4 then return (-1, none)
  else if npfx < 8 then return (-1, none)
  else
    let first := (h.h.getD 0 0).toNat
    let lo ← startat idx first
    let hi ← getbe32at idx (8 + first * 4)
    if hi = lo then return (-1, none)
    else
      let nent ← getbe32at idx (8 + 255 * 4)
      match ← searchloopat idx h npfx.toNat fuel lo hi with
      | none => return (-1, none)
      | some hidx =>
        let s ← storeat idx hidx hret
        return (← entryoffat idx nidx nent hidx, s)

/-- All reads are inside, however many turns the loop takes. -/
def Inside (idx : List UInt8) (h : Hash) (npfx : ℤ) (hret : Bool) : Prop :=
  ∀ fuel, searchindexat fuel idx idx.length h npfx hret ≠ none

end Reads

section Safe

variable {a b idx : List UInt8} {h : Hash} {npfx fuel lo hi top : ℕ}

theorem memcmpat_inside {i j n : ℕ} (ha : i + n ≤ a.length) (hb : j + n ≤ b.length) :
    memcmpat a b i j n = some (compareBytes ((a.drop i).take n) ((b.drop j).take n)) := by
  induction n generalizing i j with
  | zero => rfl
  | succ n ih =>
    have hi : i < a.length := by omega
    have hj : j < b.length := by omega
    have hrest := ih (i := i + 1) (j := j + 1) (by omega) (by omega)
    rw [List.drop_eq_getElem_cons hi, List.drop_eq_getElem_cons hj, List.take_succ_cons, List.take_succ_cons,
      compareBytes, memcmpat, List.getElem?_eq_getElem hi, List.getElem?_eq_getElem hj]
    simp only [Option.bind_eq_bind, Option.bind_some]
    split
    · exact hrest
    · rfl

/-- Where the bytes are there, the comparison is that of `hashcmp`. -/
theorem hashcmpat_inside {s nbit : ℕ} (ha : a.length = 20) (hbit : nbit ≤ 160)
    (hb : s + (nbit + 7) / 8 ≤ idx.length) :
    hashcmpat a idx s nbit = some (hashcmp a ((idx.drop s).take 20) nbit) := by
  have htake : ((idx.drop s).take 20).take (nbit / 8) = (idx.drop s).take (nbit / 8) := by
    rw [List.take_take, Nat.min_eq_left (by omega)]
  rw [hashcmpat, hashcmp, memcmp]
  simp only [htake, memcmpat_inside (a := a) (i := 0) (by omega) (show s + nbit / 8 ≤ idx.length by omega),
    List.drop_zero, Option.bind_eq_bind, Option.bind_some]
  split
  · rfl
  · rename_i hbits
    have hx : nbit / 8 < a.length := by omega
    have hy : s + nbit / 8 < idx.length := by omega
    have hlast : ((idx.drop s).take 20).getD (nbit / 8) 0 = idx[s + nbit / 8] := by
      rw [List.getD_eq_getElem?_getD, List.getElem?_take_of_lt (by omega), List.getElem?_drop,
        List.getElem?_eq_getElem hy]
      rfl
    rw [hlast, List.getD_eq_getElem?_getD, List.getElem?_eq_getElem hx, List.getElem?_eq_getElem hy]
    rfl

/-- As long as the entries below `top` are inside, the loop goes its way among them. -/
theorem searchloopat_inside (htop : top ≤ 2 ^ 31) (hbit : npfx ≤ 160)
    (hin : ∀ x, x < top → entryat x + (npfx + 7) / 8 ≤ idx.length) (hhi : hi ≤ top) :
    searchloopat idx h npfx fuel lo hi = some (searchloop idx h npfx fuel lo hi) ∧
      ∀ x, searchloop idx h npfx fuel lo hi = some x → x < top := by
  induction fuel generalizing lo hi with
  | zero => exact ⟨rfl, by simp [searchloop]⟩
  | succ fuel ih =>
    rw [searchloopat, searchloop]
    split
    · rename_i hlt
      have hmid : (hi + lo) % 2 ^ 32 / 2 = (hi + lo) / 2 := by rw [Nat.mod_eq_of_lt (by omega)]
      have hcmp := hashcmpat_inside h.len hbit (hin ((hi + lo) / 2) (by omega))
      have hhash : (idx.drop (entryat ((hi + lo) / 2))).take 20 = hashat idx ((hi + lo) / 2) := rfl
      simp only [hmid, hcmp, hhash, Option.bind_eq_bind, Option.bind_some]
      split
      · exact ih (by omega)
      · split
        · exact ih hhi
        · refine ⟨rfl, fun x hx => ?_⟩
          cases hx
          omega
    · exact ⟨rfl, by simp⟩

/-- How much of an entry may be read. -/
def needs (npfx : ℕ) (hret : Bool) : ℕ := if hret then 20 else (npfx + 7) / 8

/-- The search does not begin, its range is empty, or the entries below its end are inside. -/
def Fits (nidx : ℕ) (npfx : ℤ) (hret : Bool) (hi : ℕ) : Prop :=
  nidx < 8 + 256 * 4 ∨ npfx < 8 ∨ hi = 0 ∨
    npfx ≤ 160 ∧ 8 + 256 * 4 + 20 * (hi - 1) + needs npfx.toNat hret ≤ nidx

theorem needs_le (hbit : npfx ≤ 160) (hret : Bool) : (npfx + 7) / 8 ≤ needs npfx hret := by
  rw [needs]
  split <;> omega

theorem searchloopat_empty : searchloopat idx h npfx fuel lo 0 = some (searchloop idx h npfx fuel lo 0) ∧
    searchloop idx h npfx fuel lo 0 = none := by
  cases fuel with
  | zero => exact ⟨rfl, rfl⟩
  | succ fuel => simp [searchloopat, searchloop]

theorem entryat_le (hx : lo < hi) : entryat lo ≤ 8 + 256 * 4 + 20 * (hi - 1) := by
  have hmod := Nat.mod_le (lo * 20) (2 ^ 32)
  rw [entryat]
  omega

theorem Fits.loop {npfx : ℤ} {hret : Bool} (hfits : Fits idx.length npfx hret hi) (hlen : idx.length < 2 ^ 31)
    (hlong : 8 + 256 * 4 ≤ idx.length) (hmany : 8 ≤ npfx) :
    searchloopat idx h npfx.toNat fuel lo hi = some (searchloop idx h npfx.toNat fuel lo hi) ∧
      ∀ x, searchloop idx h npfx.toNat fuel lo hi = some x → entryat x + needs npfx.toNat hret ≤ idx.length := by
  rcases hfits with hshort | hfew | rfl | ⟨hbit, hin⟩
  · omega
  · omega
  · obtain ⟨hloop, hnone⟩ := @searchloopat_empty idx h npfx.toNat fuel lo
    refine ⟨hloop, fun x hx => ?_⟩
    rw [hnone] at hx
    cases hx
  · have hneeds : (npfx.toNat + 7) / 8 ≤ needs npfx.toNat hret := needs_le (by omega) hret
    have hinside : ∀ x, x < hi → entryat x + needs npfx.toNat hret ≤ idx.length := by
      intro x hx
      have hat := entryat_le hx
      omega
    obtain ⟨hloop, hfound⟩ := @searchloopat_inside idx h npfx.toNat fuel lo hi hi (by omega) (by omega)
      (fun x hx => (Nat.add_le_add_left hneeds _).trans (hinside x hx)) (Nat.le_refl _)
    exact ⟨hloop, fun x hx => hinside x (hfound x hx)⟩

end Safe

section Corrupt

/-! An index whose fanout table sends the search outside. -/

variable {idx body : List UInt8} {s npfx fuel lo hi : ℕ}

variable {nidx k : ℕ}

end Corrupt

end Petele.Git
