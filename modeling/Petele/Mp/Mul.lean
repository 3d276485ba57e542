import Petele.Mp.Arith

namespace Petele.Mp

open Lib Limbs

/-- The loop of `mpvecmul` and, without `skip`, of `mpvectsmul`. -/
def mulrows (skip : Bool) (a : Vec) : Vec → Vec → ℕ → Option Vec
  | [], p, _ => some p
  | d :: b, p, off =>
    if skip ∧ d = 0 then mulrows skip a b p (off + 1)
    else do
      let p ← mpvecdigmuladd a d p off
      mulrows skip a b p (off + 1)

/-- `mpvecadd` of digits of the buffer `t` in place. -/
def addinto (t : Vec) (off len src srclen : ℕ) : Option Vec := do
  let x ← slice t off len
  let y ← slice t src srclen
  let sum ← mpvecadd x y
  store t off sum

/-- `mpvecsub` of digits of the buffer `t` in place. -/
def subfrom (t : Vec) (off len src srclen : ℕ) : Option Vec := do
  let x ← slice t off len
  let y ← slice t src srclen
  let diff ← mpvecsub x y
  store t off diff

/-- The first part of `mpkaratsuba`: the buffer with the products of the halves and of their
differences, and the sign of the last. Places in the buffer `t` are offsets, and every access is
checked against its length. -/
def halfproducts (mul : Vec → Vec → Vec → ℕ → Option Vec) (n : ℕ) (u0 u1 v0 v1 : Vec) :
    Option (Vec × ℤ) := do
  let t : Vec := List.replicate (5 * (2 * n + 1)) 0
  let u0v0 := 0
  let u1v1 := 2 * n + 1
  let diffprod := 2 * (2 * n + 1)
  let sign : ℤ := if mpveccmp u1 u0 < 0 then -1 else 1
  let d ← (if mpveccmp u1 u0 < 0 then mpvecsub u0 u1
    else (slice u0 0 u1.length).bind fun x => mpvecsub u1 x)
  let t ← store t u0v0 d
  let sign := if mpveccmp v0 v1 < 0 then -sign else sign
  let e ← (if mpveccmp v0 v1 < 0 then (slice v0 0 v1.length).bind fun x => mpvecsub v1 x
    else mpvecsub v0 v1)
  let t ← store t u1v1 e
  let x ← slice t u0v0 u0.length
  let y ← slice t u1v1 v0.length
  let t ← mul x y t diffprod
  let t ← store t 0 (List.replicate (2 * (2 * n + 1)) 0)
  let t ← (if 0 < v1.length then mul u1 v1 t u1v1 else some t)
  let t ← mul u0 v0 t u0v0
  some (t, sign)

/-- The second part: the products are added up in the result. -/
def sumproducts (n u0len u1len v0len v1len : ℕ) (t : Vec) (sign : ℤ) : Option Vec := do
  let u0v0 := 0
  let u1v1 := 2 * n + 1
  let diffprod := 2 * (2 * n + 1)
  let res := 3 * (2 * n + 1)
  let reslen := 4 * n + 1
  let t ← addinto t res reslen u0v0 (u0len + v0len)
  let t ← addinto t (res + n) (reslen - n) u0v0 (u0len + v0len)
  let t ← (if 0 < v1len then addinto t (res + n) (reslen - n) u1v1 (u1len + v1len) else some t)
  let t ← (if 0 < v1len then addinto t (res + 2 * n) (reslen - 2 * n) u1v1 (u1len + v1len)
    else some t)
  if sign < 0 then subfrom t (res + n) (reslen - n) diffprod (u0len + v0len)
  else addinto t (res + n) (reslen - n) diffprod (u0len + v0len)

/-- `mpkaratsuba`, with `mul` for the products of the halves. -/
def mpkaratsuba (mul : Vec → Vec → Vec → ℕ → Option Vec) (a b p : Vec) (off : ℕ) :
    Option Vec := do
  let n := a.length / 2 + a.length % 2
  let u0len := n
  let u1len := a.length - n
  let v0len := if n < b.length then n else b.length
  let v1len := if n < b.length then b.length - n else 0
  let u0 ← slice a 0 u0len
  let u1 ← slice a u0len u1len
  let v0 ← slice b 0 v0len
  let v1 ← slice b v0len v1len
  let (t, sign) ← halfproducts mul n u0 u1 v0 v1
  let t ← sumproducts n u0len u1len v0len v1len t sign
  let r ← slice t (3 * (2 * n + 1)) (a.length + b.length)
  store p off r

def KARATSUBAMIN : ℕ := 32

/-- `mpvecmul`; the first argument bounds the calls within calls. -/
def mpvecmuln : ℕ → Vec → Vec → Vec → ℕ → Option Vec
  | 0, _, _, _, _ => none
  | depth + 1, x, y, p, off =>
    let a := if x.length < y.length then y else x
    let b := if x.length < y.length then x else y
    if KARATSUBAMIN ≤ a.length ∧ 1 < b.length then mpkaratsuba (mpvecmuln depth) a b p off
    else mulrows true a b p off

/-- `p = a*b` at the offset `off` of `p`. -/
def mpvecmul (a b p : Vec) (off : ℕ) : Option Vec :=
  mpvecmuln (max a.length b.length + 1) a b p off

def mpvectsmul (x y p : Vec) (off : ℕ) : Option Vec :=
  let a := if x.length < y.length then y else x
  let b := if x.length < y.length then x else y
  mulrows false a b p off

section Rows

theorem mulrows_spec (skip : Bool) (a b front back : Vec) {y : Vec} (h : y.length = a.length) :
    ∃ ds, mulrows skip a b (front ++ (y ++ (List.replicate b.length 0 ++ back))) front.length =
        some (front ++ (ds ++ back)) ∧
      ds.length = a.length + b.length ∧ val ds = val y + val a * val b := by
  induction b generalizing front y with
  | nil => exact ⟨y, by simp [mulrows], by simp [h], by simp⟩
  | cons d b ih =>
    -- a row done: its lowest digit is final
    obtain ⟨row, hrow, hlen, hval⟩ : ∃ row, (if skip ∧ d = 0
          then mulrows skip a b (front ++ (y ++ (List.replicate (b.length + 1) 0 ++ back)))
            (front.length + 1)
          else do
            let p ← mpvecdigmuladd a d (front ++ (y ++ (List.replicate (b.length + 1) 0 ++ back)))
              front.length
            mulrows skip a b p (front.length + 1)) =
          mulrows skip a b (front ++ (row ++ (List.replicate b.length 0 ++ back)))
            (front.length + 1) ∧
        row.length = a.length + 1 ∧ val row = val y + d.toNat * val a := by
      by_cases hskip : skip ∧ d = 0
      · refine ⟨y ++ [0], ?_, by simp [h], ?_⟩
        · rw [if_pos hskip]
          simp [List.replicate_succ]
        · rw [val_append, hskip.2, val_singleton]
          simp
      · obtain ⟨row, hrow, hlen, hval⟩ := mpvecdigmuladd_spec front
          (List.replicate b.length 0 ++ back) 0 d h
        refine ⟨row, ?_, hlen, hval⟩
        rw [if_neg hskip, List.replicate_succ, List.cons_append, hrow]
        rfl
    obtain ⟨x, row', rfl⟩ : ∃ x row', row = x :: row' := by
      cases row with
      | nil => simp at hlen
      | cons x row' => exact ⟨x, row', rfl⟩
    obtain ⟨ds, hds, hdslen, hdsval⟩ := ih (front ++ [x]) (y := row') (by simpa using hlen)
    refine ⟨x :: ds, ?_, by simp [hdslen]; omega, ?_⟩
    · rw [mulrows, List.length_cons, hrow]
      simpa using hds
    · rw [val_cons, hdsval, val_cons]
      rw [val_cons] at hval
      have hdist : val a * (d.toNat + 2 ^ 32 * val b) =
          d.toNat * val a + 2 ^ 32 * (val a * val b) := by ring
      rw [hdist]
      omega

end Rows

end Petele.Mp
