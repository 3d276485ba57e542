import Petele.Mp.Field
import Petele.Lib.CInt
import Petele.Lib.Horner

namespace Petele.Mp

open Lib Limbs

/-- A modulus with the rows of `indx` to add and those to subtract. -/
structure GMfield where
  n : Mpint
  m2 : Mpint
  adds : List (List ℕ)
  subs : List (List ℕ)

def GMfield.nsub (g : GMfield) : ℕ := g.subs.length

def itomp (i : ℤ) : Mpint := mpnorm (if i < 0 then -1 else 1) [UInt32.ofNat i.natAbs]

/-- The first loop of `gmfield`: the entries of `C` from `C[d - i]` down, if all digits are small or
small negative ones. The digits of `M` above its top are zero. -/
def coefficients : ℕ → ℕ → Mpint → Option (List ℤ)
  | 0, _, _ => some []
  | fuel + 1, i, M =>
    let x := M.p.getD i 0
    if x >>> 8 ≠ 0 ∧ ~~~x >>> 8 ≠ 0 then none
    else
      let j := wrap x.toNat
      let T := mpleft (itomp j) (i * 32)
      (coefficients fuel (i + 1) (mpsub M T)).map (-j :: ·)

/-- The row of `X` behind the given one: times the radix, with the term that leaves the row replaced
by `C`. -/
def nextrow (C row : List ℤ) : List ℤ :=
  List.zipWith (fun x c => wrap (x + row.getLastD 0 * c)) (0 :: row.dropLast) C

def rows (C : List ℤ) : ℕ → List ℤ → List (List ℤ)
  | 0, _ => []
  | n + 1, row => row :: rows C n (nextrow C row)

/-- The innermost loop that fills `indx`: the first entry of the row with the sign `σ` whose place in
`x` is free. -/
def place (σ : ℤ) (src : ℕ) : List ℤ → List ℕ → Option (List ℤ × List ℕ)
  | v :: row, y :: x =>
    if 0 < σ * v ∧ y = 0 then some ((v - σ) :: row, src :: x)
    else (place σ src row x).map fun r => (v :: r.1, y :: r.2)
  | _, _ => none

/-- The loop over the rows of `X`, one place for each of them; the flag is `s`. -/
def fillrow (σ : ℤ) : ℕ → List (List ℤ) → List ℕ → Bool → List (List ℤ) × List ℕ × Bool
  | _, [], x, s => ([], x, s)
  | src, row :: X, x, s =>
    match place σ src row x with
    | some (row', x') =>
      let r := fillrow σ (src + 1) X x' true
      (row' :: r.1, r.2)
    | none =>
      let r := fillrow σ (src + 1) X x s
      (row :: r.1, r.2)

/-- The loop that fills `indx` with room for so many rows: the rows, what is left of `X`, the room
left and `s`. -/
def fill (σ : ℤ) (d : ℕ) : ℕ → List (List ℤ) → Bool → List (List ℕ) × List (List ℤ) × ℕ × Bool
  | 0, X, s => ([], X, 0, s)
  | room + 1, X, _ =>
    let r := fillrow σ d X (List.replicate d 0) false
    if r.2.2 then
      let t := fill σ d room r.1 true
      (r.2.1 :: t.1, t.2)
    else ([], r.1, room + 1, false)

def gmfield (N : Mpint) : Option GMfield :=
  let d := N.top
  if d ≤ 2 ∨ MAXDIG / 2 < d ∨ mpsignif N % 32 ≠ 0 then none
  else do
    let C ← coefficients (d + 1) 0 N
    let C := C.take d
    let a := fill 1 d (256 / d) (rows C d C) false
    let b := fill (-1) d a.2.2.1 a.2.1 a.2.2.2
    if b.2.2.2 then none
    else some { n := N, m2 := mpmul N N, adds := a.1, subs := b.1 }

/-- The digits a row of `indx` gathers from the high digits in `t`; an index is 0, for none, or that
of a high digit. -/
def gather (d : ℕ) (hi : Vec) (x : List ℕ) : Vec :=
  let t := List.replicate d 0 ++ hi
  x.map fun i => t.getD i 0

def gmreduce (g : GMfield) (a : Mpint) : Reduction :=
  if 0 ≤ mpmagcmp a g.m2 then .refused
  else
    let d := g.n.top
    let p := pad (2 * d + 2) a.p
    let hi := (p.drop d).take d
    let r := p.take d
    let r := if 0 < g.nsub then muladdloop (UInt32.ofNat g.nsub) g.n.p r 0 0 else r ++ [0]
    let r := g.adds.foldl (fun r x => (addloop r (gather d hi x) 0).take (d + 1)) r
    let r := g.subs.foldl (fun r x => subloop r (gather d hi x) 0) r
    let r := (mulsubloop (r.getD d 0) g.n.p r 0 0).1.take d
    let u := subloop (r ++ [0]) g.n.p 0
    .reduced (mpnorm 1 (mask (u.getD d 0) r (u.take d)))

section Coefficients

theorem getD_toNat (p : Vec) (i : ℕ) : (p.getD i 0).toNat = val p / (2 ^ 32) ^ i % 2 ^ 32 := by
  rw [← val_drop]
  cases hd : p.drop i with
  | nil =>
    have hle : p.length ≤ i := List.drop_eq_nil_iff.mp hd
    rw [List.getD_eq_getElem?_getD, List.getElem?_eq_none hle, val_nil]
    rfl
  | cons x t =>
    rw [getD_of_drop hd, val_cons, Nat.add_mul_mod_self_left, Nat.mod_eq_of_lt x.toNat_lt]

theorem itomp_toInt {i : ℤ} (h : i.natAbs < 2 ^ 32) : (itomp i).toInt = i := by
  rw [itomp, mpnorm_toInt, val_singleton, UInt32.toNat_ofNat', Nat.mod_eq_of_lt h]
  split
  · rw [Units.val_neg, Units.val_one]
    omega
  · rw [Units.val_one]
    omega

/-- A digit that passes the test of `gmfield`, as a signed number. -/
theorem small_digit {x : UInt32} (h : ¬ (x >>> 8 ≠ 0 ∧ ~~~x >>> 8 ≠ 0)) :
    |wrap x.toNat| ≤ 256 ∧ (2 ^ 32 : ℤ) ∣ x.toNat - wrap x.toNat ∧
      wrap x.toNat ≤ x.toNat := by
  have hx := x.toNat_lt
  have hshr : ∀ y : UInt32, y >>> 8 ≠ 0 ↔ 256 ≤ y.toNat := by
    intro y
    rw [ne_eq, ← UInt32.toNat_inj, show (8 : UInt32) = UInt32.ofNat 8 from rfl,
      toNat_shr y (by decide), UInt32.toNat_zero]
    omega
  have hnot : (~~~x).toNat = 2 ^ 32 - 1 - x.toNat := by
    rw [UInt32.toNat_not]
    rfl
  rw [hshr, hshr, hnot] at h
  rcases Nat.lt_or_ge x.toNat 256 with hlow | hhigh
  · rw [wrap_of_range (by omega) (by omega)]
    refine ⟨?_, by simp, le_rfl⟩
    rw [abs_of_nonneg (by omega)]
    omega
  · have hneg : wrap x.toNat = (x.toNat : ℤ) - 2 ^ 32 := by
      have hshift := wrap_of_range (z := (x.toNat : ℤ) - 2 ^ 32) (by omega) (by omega)
      rw [← hshift]
      exact (Int.sub_bmod_right (x.toNat : ℤ) (2 ^ 32)).symm
    rw [hneg]
    refine ⟨?_, by simp, by omega⟩
    rw [abs_of_nonpos (by omega)]
    omega

/-- The coefficients make up the number, up to a multiple of the next power of the radix. -/
theorem coefficients_spec (fuel i : ℕ) {M : Mpint} {C : List ℤ} (h : coefficients fuel i M = some C)
    {q : ℕ} (hM : M.toInt = (2 ^ 32) ^ i * q) :
    C.length = fuel ∧ ∀ k ≤ fuel, (∀ c ∈ C.take k, |c| ≤ 256) ∧
      ∃ q : ℕ, M.toInt + (2 ^ 32) ^ i * Horner.eval (2 ^ 32) (C.take k) = (2 ^ 32) ^ (i + k) * q := by
  induction fuel generalizing i M C q with
  | zero =>
    cases h
    refine ⟨rfl, fun k hk => ?_⟩
    rw [Nat.le_zero.mp hk]
    exact ⟨by simp, q, by simpa [Horner.eval] using hM⟩
  | succ fuel ih =>
    rw [coefficients] at h
    dsimp only at h
    split at h
    · cases h
    · rename_i hsmall
      obtain ⟨C', hC', rfl⟩ := Option.map_eq_some_iff.mp h
      obtain ⟨habs, hdvd, hle⟩ := small_digit hsmall
      have hval : val M.p = (2 ^ 32) ^ i * q := by
        have hpos : 0 ≤ M.toInt := by
          rw [hM]
          positivity
        have hint := toInt_of_nonneg hpos
        rw [hM] at hint
        exact_mod_cast hint.symm
      have hdigit : (M.p.getD i 0).toNat = q % 2 ^ 32 := by
        rw [getD_toNat, hval, Nat.mul_div_cancel_left _ (Nat.pow_pos (by decide))]
      generalize M.p.getD i 0 = x at *
      generalize wrap x.toNat = j at *
      -- what is left of the number is a multiple of the next power
      obtain ⟨e, he⟩ := hdvd
      have hrest : (q : ℤ) - j = 2 ^ 32 * ((q / 2 ^ 32 : ℕ) + e) := by omega
      obtain ⟨q', hq'⟩ : ∃ q' : ℕ, (q / 2 ^ 32 : ℕ) + e = (q' : ℤ) :=
        ⟨((q / 2 ^ 32 : ℕ) + e).toNat, (Int.toNat_of_nonneg (by omega)).symm⟩
      have hsucc : (2 ^ 32 : ℤ) ^ (i + 1) = (2 ^ 32) ^ i * 2 ^ 32 := pow_succ _ _
      have hsub : (mpsub M (mpleft (itomp j) (i * 32))).toInt = (2 ^ 32) ^ (i + 1) * q' := by
        have hpow : (2 : ℤ) ^ (i * 32) = (2 ^ 32) ^ i := by rw [Nat.mul_comm, pow_mul]
        rw [mpsub_toInt, mpleft_toInt, itomp_toInt (by rw [abs_le] at habs; omega), hM, hpow,
          hsucc, mul_assoc, ← hq', ← hrest]
        ring
      obtain ⟨hlen, hC⟩ := ih (i + 1) hC' hsub
      refine ⟨by rw [List.length_cons, hlen], fun k hk => ?_⟩
      cases k with
      | zero => exact ⟨by simp, q, by simpa [Horner.eval] using hM⟩
      | succ k =>
        obtain ⟨hbound, q'', hq''⟩ := hC k (by omega)
        refine ⟨?_, q'', ?_⟩
        · intro c hc
          rw [List.take_succ_cons, List.mem_cons] at hc
          rcases hc with rfl | hc
          · rwa [abs_neg]
          · exact hbound c hc
        · rw [List.take_succ_cons, Horner.eval, show i + (k + 1) = i + 1 + k by omega, ← hq'', hsub,
            ← hq', hsucc, hM, mul_assoc, ← hrest]
          ring

/-- Significant bits in whole digits mean that the highest bit of the top digit is set. -/
theorem signif_top {N : Mpint} (hN : N.p ≠ []) (h : mpsignif N % 32 = 0) :
    2 ^ 31 * (2 ^ 32) ^ (N.top - 1) ≤ val N.p := by
  obtain ⟨ds, d, hp, hd⟩ := exists_top hN
  obtain ⟨hsignif, hpos, hle, -, hlow⟩ := mpsignif_eq hp hd
  have hall : digitbits d 32 = 32 := by omega
  rw [hall] at hlow
  rw [Mpint.top, hp, List.length_append, List.length_singleton, Nat.add_sub_cancel, val_append,
    val_singleton, Nat.mul_comm]
  have hmul := Nat.mul_le_mul_left ((2 ^ 32) ^ ds.length) (show 2 ^ 31 ≤ d.toNat by omega)
  omega

/-- The coefficients are those of the power of the radix less the modulus. -/
theorem coefficients_eval {N : Mpint} {C : List ℤ} (hpos : 0 < N.toInt) (hd : 2 < N.top)
    (hbits : mpsignif N % 32 = 0) (hC : coefficients (N.top + 1) 0 N = some C) :
    (C.take N.top).length = N.top ∧
      Horner.eval (2 ^ 32) (C.take N.top) = (2 ^ 32) ^ N.top - val N.p := by
  have hint := toInt_of_nonneg hpos.le
  obtain ⟨hlen, hspec⟩ := coefficients_spec _ 0 hC (q := val N.p) (by rw [hint, pow_zero, one_mul])
  obtain ⟨hbound, q, hq⟩ := hspec N.top (by omega)
  have htake : (C.take N.top).length = N.top := by
    rw [List.length_take, hlen]
    omega
  refine ⟨htake, ?_⟩
  have habs := Horner.abs_eval_le (b := 2 ^ 32) (by norm_num) hbound
  rw [htake] at habs
  rw [hint, pow_zero, one_mul, Nat.zero_add] at hq
  have hlow := signif_top (N := N) (fun hnil => by
    rw [top_eq_zero.mpr hnil] at hd
    omega) hbits
  have hhigh := val_lt N.p
  have hk : (2 ^ 32 : ℕ) ^ N.top = 2 ^ 32 * (2 ^ 32) ^ (N.top - 1) := by
    rw [← radix_succ]
    congr 1
    omega
  have hcast : ((2 ^ 32 : ℤ)) ^ N.top = ((2 ^ 32) ^ N.top : ℕ) := by
    push_cast
    rfl
  rw [show N.p.length = N.top from rfl] at hhigh
  rw [hcast] at habs hq ⊢
  generalize Horner.eval (2 ^ 32) (C.take N.top) = e at *
  rw [hk] at hhigh habs hq ⊢
  generalize (2 ^ 32) ^ (N.top - 1) = y at *
  have hbounds : -(257 * (y : ℤ)) ≤ e ∧ e ≤ 257 * y := by
    constructor
    · have hneg := neg_abs_le e
      push_cast at habs
      omega
    · have hself := le_abs_self e
      push_cast at habs
      omega
  rw [← Nat.cast_mul] at hq
  have hone : q = 1 := by
    rcases Nat.lt_trichotomy q 1 with h | h | h
    · rw [show q = 0 by omega] at hq
      omega
    · exact h
    · have hmul := Nat.mul_le_mul_left (2 ^ 32 * y) h
      omega
  rw [hone] at hq
  omega

end Coefficients

section Rows

/-- No entry is beyond `k`. -/
def Bounded (k : ℤ) (X : List (List ℤ)) : Prop := ∀ row ∈ X, ∀ v ∈ row, |v| ≤ k

/-- The entries of an accepted field are too small to overflow. -/
theorem small_wrap {x l c : ℤ} (hx : |x| ≤ 85) (hl : |l| ≤ 85) (hc : |c| ≤ 85) :
    wrap (x + l * c) = x + l * c := by
  have hmul : |l * c| ≤ 85 * 85 := by
    rw [abs_mul]
    exact mul_le_mul hl hc (abs_nonneg c) (by norm_num)
  rw [abs_le] at hx hmul
  exact wrap_of_range (by omega) (by omega)

theorem zip_eval {l : ℤ} (hl : |l| ≤ 85) (xs C : List ℤ) (hlen : xs.length = C.length)
    (hx : ∀ x ∈ xs, |x| ≤ 85) (hC : ∀ c ∈ C, |c| ≤ 85) :
    Horner.eval (2 ^ 32) (List.zipWith (fun x c => wrap (x + l * c)) xs C) =
      Horner.eval (2 ^ 32) xs + l * Horner.eval (2 ^ 32) C := by
  induction xs generalizing C with
  | nil =>
    rw [List.eq_nil_of_length_eq_zero hlen.symm]
    simp [Horner.eval]
  | cons x xs ih =>
    cases C with
    | nil => simp at hlen
    | cons c C =>
      rw [List.forall_mem_cons] at hx hC
      rw [List.zipWith_cons_cons, Horner.eval, Horner.eval, Horner.eval,
        ih C (by simpa using hlen) hx.2 hC.2, small_wrap hx.1 hl hC.1]
      ring

theorem abs_getLastD {row : List ℤ} {k : ℤ} (hk : 0 ≤ k) (h : ∀ v ∈ row, |v| ≤ k) :
    |row.getLastD 0| ≤ k := by
  rcases List.eq_nil_or_concat row with rfl | ⟨ds, v, rfl⟩
  · simpa using hk
  · rw [List.concat_eq_append, List.getLastD_concat]
    exact h v (by simp)

variable {C row : List ℤ}

/-- The entries that go into the next row. -/
theorem shifted_bound (h : ∀ v ∈ row, |v| ≤ 85) : ∀ v ∈ 0 :: row.dropLast, |v| ≤ 85 := by
  intro v hv
  rcases List.mem_cons.mp hv with rfl | hv
  · simp
  · exact h v (List.mem_of_mem_dropLast hv)

/-- The next row stands for the radix times the given one, modulo what `C` says of the power. -/
theorem nextrow_eval (hne : row ≠ []) (hlen : row.length = C.length) (hrow : ∀ v ∈ row, |v| ≤ 85)
    (hC : ∀ c ∈ C, |c| ≤ 85) :
    Horner.eval (2 ^ 32) (nextrow C row) = 2 ^ 32 * Horner.eval (2 ^ 32) row -
      row.getLastD 0 * ((2 ^ 32) ^ C.length - Horner.eval (2 ^ 32) C) := by
  have hpos : 0 < row.length := List.length_pos_iff.mpr hne
  rw [nextrow, zip_eval (abs_getLastD (by norm_num) hrow) _ _
    (by rw [List.length_cons, List.length_dropLast]; omega) (shifted_bound hrow) hC, ← hlen]
  obtain ⟨ds, v, rfl⟩ := List.eq_nil_or_concat row |>.resolve_left hne
  rw [List.concat_eq_append, List.dropLast_concat, List.getLastD_concat, Horner.eval_append,
    Horner.eval, Horner.eval, Horner.eval, List.length_append, List.length_singleton, pow_succ]
  ring

theorem nextrow_length (hne : row ≠ []) (hlen : row.length = C.length) :
    (nextrow C row).length = C.length := by
  have hpos : 0 < row.length := List.length_pos_iff.mpr hne
  rw [nextrow, List.length_zipWith, List.length_cons, List.length_dropLast]
  omega

/-- No negative coefficient brings about another one. -/
theorem nextrow_nonneg (hrow : ∀ v ∈ row, |v| ≤ 85) (hC : ∀ c ∈ C, |c| ≤ 85)
    (hrow' : ∀ v ∈ row, 0 ≤ v) (hC' : ∀ c ∈ C, 0 ≤ c) : ∀ v ∈ nextrow C row, 0 ≤ v := by
  have hlast : 0 ≤ row.getLastD 0 := by
    rcases List.eq_nil_or_concat row with rfl | ⟨ds, v, rfl⟩
    · simp
    · rw [List.concat_eq_append, List.getLastD_concat]
      exact hrow' v (by simp)
  intro v hv
  rw [nextrow, ← List.map_uncurry_zip_eq_zipWith] at hv
  obtain ⟨⟨x, c⟩, hmem, rfl⟩ := List.mem_map.mp hv
  obtain ⟨hx, hc⟩ := List.of_mem_zip hmem
  have hx0 : 0 ≤ x := by
    rcases List.mem_cons.mp hx with rfl | hx
    · exact le_rfl
    · exact hrow' x (List.mem_of_mem_dropLast hx)
  rw [Function.uncurry, small_wrap (shifted_bound hrow x hx) (abs_getLastD (by norm_num) hrow) (hC c hc)]
  exact add_nonneg hx0 (mul_nonneg hlast (hC' c hc))

/-- The rows of `X` weighted with digits `t`. -/
def weighted (t : ℕ → UInt32) : ℕ → List (List ℤ) → ℤ
  | _, [] => 0
  | src, row :: X => (t src).toNat * Horner.eval (2 ^ 32) row + weighted t (src + 1) X

theorem weighted_rows (t : ℕ → UInt32) {m : ℤ} (hm : Horner.eval (2 ^ 32) C = (2 ^ 32) ^ C.length - m)
    (hC : ∀ c ∈ C, |c| ≤ 85) (n src : ℕ) (hne : row ≠ []) (hlen : row.length = C.length)
    (hX : Bounded 85 (rows C n row)) :
    weighted t src (rows C n row) ≡
      Horner.eval (2 ^ 32) row * val ((List.range' src n).map t) [ZMOD m] := by
  induction n generalizing src row with
  | zero => simp [rows, weighted]
  | succ n ih =>
    rw [rows, Bounded, List.forall_mem_cons] at hX
    have hnext := nextrow_eval hne hlen hX.1 hC
    have hnlen := nextrow_length hne hlen
    have hnne : nextrow C row ≠ [] := List.ne_nil_of_length_pos (by
      rw [hnlen, ← hlen]
      exact List.length_pos_iff.mpr hne)
    have hrest := ih (src + 1) hnne hnlen hX.2
    rw [rows, weighted, List.range'_succ, List.map_cons, val_cons]
    have hshift : Horner.eval (2 ^ 32) (nextrow C row) ≡ 2 ^ 32 * Horner.eval (2 ^ 32) row [ZMOD m] := by
      rw [hnext, hm]
      refine (Int.modEq_iff_dvd.mpr ⟨row.getLastD 0, ?_⟩)
      ring
    have hsplit : Horner.eval (2 ^ 32) row *
        (((t src).toNat + 2 ^ 32 * val ((List.range' (src + 1) n).map t) : ℕ) : ℤ) =
          (t src).toNat * Horner.eval (2 ^ 32) row +
            2 ^ 32 * Horner.eval (2 ^ 32) row * val ((List.range' (src + 1) n).map t) := by
      push_cast
      ring
    rw [hsplit]
    exact Int.ModEq.add_left _ (hrest.trans (hshift.mul_right _))

theorem rows_nonneg (hC : ∀ c ∈ C, |c| ≤ 85) (hC' : ∀ c ∈ C, 0 ≤ c) (n : ℕ)
    (hrow : ∀ v ∈ row, 0 ≤ v) (hX : Bounded 85 (rows C n row)) :
    ∀ x ∈ rows C n row, ∀ v ∈ x, 0 ≤ v := by
  induction n generalizing row with
  | zero => simp [rows]
  | succ n ih =>
    rw [rows, Bounded, List.forall_mem_cons] at hX
    rw [rows, List.forall_mem_cons]
    exact ⟨hrow, ih (nextrow_nonneg hX.1 hC hrow hC') hX.2⟩

end Rows

section Fill

variable {σ : ℤ} {t : ℕ → UInt32}

theorem exists_of_mem {α β : Type} {R : α → β → Prop} {xs : List α} {ys : List β} {y : β}
    (h : List.Forall₂ R xs ys) (hy : y ∈ ys) : ∃ x ∈ xs, R x y := by
  induction h with
  | nil => cases hy
  | cons hR hrest ih =>
    rcases List.mem_cons.mp hy with rfl | hy
    · exact ⟨_, List.mem_cons_self, hR⟩
    · obtain ⟨x, hx, hxy⟩ := ih hy
      exact ⟨x, List.mem_cons_of_mem _ hx, hxy⟩

/-- An entry is left as it is or brought one closer to zero. -/
def Moved (σ v w : ℤ) : Prop := w = v ∨ 0 < σ * v ∧ w = v - σ

theorem place_spec {src : ℕ} {row row' : List ℤ} {x x' : List ℕ}
    (h : place σ src row x = some (row', x')) :
    x'.length = x.length ∧ List.Forall₂ (Moved σ) row row' ∧
      ∃ j, Horner.eval (2 ^ 32) row = Horner.eval (2 ^ 32) row' + σ * (2 ^ 32) ^ j ∧
        ∀ t : ℕ → UInt32, t 0 = 0 →
          (val (x'.map t) : ℤ) = val (x.map t) + (t src).toNat * (2 ^ 32) ^ j := by
  induction row generalizing x row' x' with
  | nil => cases h
  | cons v row ih =>
    cases x with
    | nil => cases h
    | cons y x =>
      rw [place] at h
      split at h
      · rename_i hfree
        cases h
        refine ⟨rfl, .cons (.inr ⟨hfree.1, rfl⟩) (List.forall₂_same.mpr fun v _ => .inl rfl), 0, ?_, ?_⟩
        · rw [Horner.eval, Horner.eval, pow_zero]
          ring
        · intro t ht
          rw [List.map_cons, List.map_cons, val_cons, val_cons, hfree.2, ht, UInt32.toNat_zero, pow_zero]
          push_cast
          ring
      · obtain ⟨⟨row₁, x₁⟩, hplace, heq⟩ := Option.map_eq_some_iff.mp h
        cases heq
        obtain ⟨hlen, hmoved, j, heval, hval⟩ := ih hplace
        refine ⟨by rw [List.length_cons, List.length_cons, hlen], .cons (.inl rfl) hmoved, j + 1, ?_, ?_⟩
        · rw [Horner.eval, Horner.eval, heval, pow_succ]
          ring
        · intro t ht
          rw [List.map_cons, List.map_cons, val_cons, val_cons, pow_succ]
          push_cast
          rw [hval t ht]
          ring

theorem place_none {src : ℕ} {row : List ℤ} {d : ℕ} (hlen : row.length ≤ d) :
    place σ src row (List.replicate d 0) = none ↔ ∀ v ∈ row, σ * v ≤ 0 := by
  induction row generalizing d with
  | nil => simp [place]
  | cons v row ih =>
    cases d with
    | zero => simp at hlen
    | succ d =>
      rw [List.replicate_succ, place, List.forall_mem_cons, ← ih (d := d) (by simpa using hlen)]
      by_cases hv : 0 < σ * v
      · rw [if_pos ⟨hv, rfl⟩]
        simp [hv]
      · rw [if_neg fun h => hv h.1, Option.map_eq_none_iff]
        exact (and_iff_right (not_lt.mp hv)).symm

theorem fillrow_nil (src : ℕ) (x : List ℕ) (s : Bool) : fillrow σ src [] x s = ([], x, s) := rfl

theorem fillrow_cons (src : ℕ) (row : List ℤ) (X : List (List ℤ)) (x : List ℕ) (s : Bool) :
    fillrow σ src (row :: X) x s =
      match place σ src row x with
      | some (row', x') =>
        ((row' :: (fillrow σ (src + 1) X x' true).1), (fillrow σ (src + 1) X x' true).2)
      | none => (row :: (fillrow σ (src + 1) X x s).1, (fillrow σ (src + 1) X x s).2) :=
  rfl

theorem fillrow_spec (ht : t 0 = 0) (src : ℕ) (X : List (List ℤ)) (x : List ℕ) (s : Bool) :
    (fillrow σ src X x s).2.1.length = x.length ∧
      List.Forall₂ (List.Forall₂ (Moved σ)) X (fillrow σ src X x s).1 ∧
      weighted t src X = weighted t src (fillrow σ src X x s).1 +
        σ * (val ((fillrow σ src X x s).2.1.map t) - val (x.map t)) := by
  induction X generalizing src x s with
  | nil => exact ⟨rfl, .nil, by rw [fillrow_nil]; simp [weighted]⟩
  | cons row X ih =>
    rw [fillrow_cons]
    split
    · rename_i row' x' hplace
      obtain ⟨hlen, hmoved, j, heval, hval⟩ := place_spec hplace
      obtain ⟨hlen', hmoved', hsum⟩ := ih (src + 1) x' true
      refine ⟨by dsimp only; rw [hlen', hlen], .cons hmoved hmoved', ?_⟩
      rw [weighted, weighted, heval, hsum, hval t ht]
      ring
    · obtain ⟨hlen', hmoved', hsum⟩ := ih (src + 1) x s
      refine ⟨hlen', .cons (List.forall₂_same.mpr fun v _ => .inl rfl) hmoved', ?_⟩
      rw [weighted, weighted, hsum]
      ring

theorem fillrow_flag (src : ℕ) (X : List (List ℤ)) (x : List ℕ) :
    (fillrow σ src X x true).2.2 = true := by
  induction X generalizing src x with
  | nil => rfl
  | cons row X ih =>
    rw [fillrow_cons]
    split
    all_goals exact ih _ _

/-- A row that stays empty means that no entry has the sign. -/
theorem fillrow_idle {d : ℕ} (src : ℕ) (X : List (List ℤ)) (hX : ∀ row ∈ X, row.length ≤ d) :
    (fillrow σ src X (List.replicate d 0) false).2.2 = false ↔ ∀ row ∈ X, ∀ v ∈ row, σ * v ≤ 0 := by
  induction X generalizing src with
  | nil => simp [fillrow_nil]
  | cons row X ih =>
    rw [List.forall_mem_cons] at hX ⊢
    rw [fillrow_cons]
    split
    · rename_i row' x' hplace
      have hsome : ¬ ∀ v ∈ row, σ * v ≤ 0 := fun hall => by
        rw [(place_none hX.1).mpr hall] at hplace
        cases hplace
      dsimp only
      rw [fillrow_flag]
      exact iff_of_false (by decide) fun h => hsome h.1
    · rename_i hnone
      dsimp only
      rw [ih (src + 1) hX.2]
      exact (and_iff_right ((place_none hX.1).mp hnone)).symm

theorem fillrow_same {src : ℕ} {X : List (List ℤ)} {x : List ℕ} {s : Bool}
    (h : (fillrow σ src X x s).2.2 = false) : (fillrow σ src X x s).1 = X := by
  induction X generalizing src x s with
  | nil => rfl
  | cons row X ih =>
    rw [fillrow_cons] at h ⊢
    split at h
    · rw [fillrow_flag] at h
      cases h
    · exact congrArg _ (ih h)

variable {d : ℕ}

theorem fill_zero (X : List (List ℤ)) (s : Bool) : fill σ d 0 X s = ([], X, 0, s) := rfl

theorem fill_succ (room : ℕ) (X : List (List ℤ)) (s : Bool) :
    fill σ d (room + 1) X s =
      if (fillrow σ d X (List.replicate d 0) false).2.2 then
        ((fillrow σ d X (List.replicate d 0) false).2.1 ::
            (fill σ d room (fillrow σ d X (List.replicate d 0) false).1 true).1,
          (fill σ d room (fillrow σ d X (List.replicate d 0) false).1 true).2)
      else ([], (fillrow σ d X (List.replicate d 0) false).1, room + 1, false) :=
  rfl

/-- What each pass of the loop keeps, going forward, holds at its end. -/
theorem fill_forward {Q : List (List ℤ) → Prop}
    (hstep : ∀ X Y, List.Forall₂ (List.Forall₂ (Moved σ)) X Y → Q X → Q Y) (room : ℕ)
    {X : List (List ℤ)} (s : Bool) (h : Q X) : Q (fill σ d room X s).2.1 := by
  induction room generalizing X s with
  | zero => exact h
  | succ room ih =>
    have hpass := hstep _ _
      (fillrow_spec (σ := σ) (t := fun _ => 0) rfl d X (List.replicate d 0) false).2.1 h
    rw [fill_succ]
    split
    · exact ih true hpass
    · exact hpass

/-- What each pass of the loop adds to, going back, is known of its beginning. -/
theorem fill_backward {P : ℕ → List (List ℤ) → Prop}
    (hstep : ∀ n X Y, List.Forall₂ (List.Forall₂ (Moved σ)) X Y → P n Y → P (n + 1) X) (room n : ℕ)
    {X : List (List ℤ)} (s : Bool) (h : P n (fill σ d room X s).2.1) :
    P (n + (fill σ d room X s).1.length) X := by
  induction room generalizing X s with
  | zero => exact h
  | succ room ih =>
    have hpass := fillrow_spec (σ := σ) (t := fun _ => 0) rfl d X (List.replicate d 0) false
    rw [fill_succ] at h ⊢
    split at h
    · rename_i hflag
      rw [if_pos hflag]
      exact hstep _ _ _ hpass.2.1 (ih true h)
    · rename_i hflag
      rw [if_neg hflag]
      rwa [fillrow_same (Bool.not_eq_true _ ▸ hflag)] at h

theorem fill_rows (room : ℕ) (X : List (List ℤ)) (s : Bool) :
    (fill σ d room X s).1.length + (fill σ d room X s).2.2.1 = room ∧
      ∀ x ∈ (fill σ d room X s).1, x.length = d := by
  induction room generalizing X s with
  | zero => exact ⟨rfl, by simp [fill_zero]⟩
  | succ room ih =>
    have hpass := fillrow_spec (σ := σ) (t := fun _ => 0) rfl d X (List.replicate d 0) false
    rw [fill_succ]
    split
    · obtain ⟨hlen, hrows⟩ := ih (fillrow σ d X (List.replicate d 0) false).1 true
      refine ⟨?_, ?_⟩
      · dsimp only
        rw [List.length_cons]
        omega
      dsimp only
      rw [List.forall_mem_cons]
      exact ⟨by rw [hpass.1, List.length_replicate], hrows⟩
    · exact ⟨by simp, by simp⟩

/-- The rows take from `X` what they add up to. -/
theorem fill_weighted (ht : t 0 = 0) (room : ℕ) (X : List (List ℤ)) (s : Bool) :
    weighted t d X = weighted t d (fill σ d room X s).2.1 +
      σ * ((fill σ d room X s).1.map fun x => (val (x.map t) : ℤ)).sum := by
  induction room generalizing X s with
  | zero => simp [fill_zero]
  | succ room ih =>
    have hpass : weighted t d X = weighted t d (fillrow σ d X (List.replicate d 0) false).1 +
        σ * (val ((fillrow σ d X (List.replicate d 0) false).2.1.map t) - val ((List.replicate d 0).map t)) :=
      (fillrow_spec ht d X (List.replicate d 0) false).2.2
    rw [List.map_replicate, ht, val_zeros, Nat.cast_zero, sub_zero] at hpass
    rw [fill_succ]
    split
    · rw [hpass, ih _ true, List.map_cons, List.sum_cons]
      ring
    · rename_i hflag
      rw [fillrow_same (Bool.not_eq_true _ ▸ hflag), List.map_nil, List.sum_nil, mul_zero, add_zero]

theorem moved_length (X Y : List (List ℤ)) (h : List.Forall₂ (List.Forall₂ (Moved σ)) X Y)
    (hX : ∀ row ∈ X, row.length ≤ d) : ∀ row ∈ Y, row.length ≤ d := by
  intro row hrow
  obtain ⟨row', hmem, hmoved⟩ := exists_of_mem h hrow
  rw [← hmoved.length_eq]
  exact hX row' hmem

/-- A loop that ends before the room does leaves no entry with the sign. -/
theorem fill_done {room : ℕ} {X : List (List ℤ)} {s : Bool} (hX : ∀ row ∈ X, row.length ≤ d)
    (hroom : 0 < room) (h : (fill σ d room X s).2.2.2 = false) :
    0 < (fill σ d room X s).2.2.1 ∧ ∀ row ∈ (fill σ d room X s).2.1, ∀ v ∈ row, σ * v ≤ 0 := by
  induction room generalizing X s with
  | zero => omega
  | succ room ih =>
    have hpass := fillrow_spec (σ := σ) (t := fun _ => 0) rfl d X (List.replicate d 0) false
    rw [fill_succ] at h ⊢
    split at h
    · rename_i hflag
      rw [if_pos hflag]
      cases room with
      | zero => cases h
      | succ room =>
        exact ih (moved_length _ _ hpass.2.1 hX) (Nat.succ_pos room) h
    · rename_i hflag
      rw [if_neg hflag]
      refine ⟨Nat.succ_pos room, ?_⟩
      rw [fillrow_same (Bool.not_eq_true _ ▸ hflag)]
      exact (fillrow_idle d X hX).mp (Bool.not_eq_true _ ▸ hflag)

theorem fill_full {room : ℕ} {X : List (List ℤ)} {s : Bool} (h : (fill σ d room X s).2.2.2 = true) :
    (fill σ d room X s).2.2.1 = 0 := by
  induction room generalizing X s with
  | zero => rfl
  | succ room ih =>
    rw [fill_succ] at h ⊢
    split at h
    · rename_i hflag
      rw [if_pos hflag]
      exact ih h
    · cases h

theorem fill_idle {room : ℕ} {X : List (List ℤ)} {s : Bool} (hX : ∀ row ∈ X, row.length ≤ d)
    (h : ∀ row ∈ X, ∀ v ∈ row, σ * v ≤ 0) : (fill σ d room X s).1 = [] := by
  cases room with
  | zero => rfl
  | succ room =>
    rw [fill_succ, (fillrow_idle d X hX).mpr h]
    rfl

/-- Each pass brings the entries closer to zero by one. -/
theorem moved_bounded (hσ : σ = 1 ∨ σ = -1) (n : ℕ) (X Y : List (List ℤ))
    (h : List.Forall₂ (List.Forall₂ (Moved σ)) X Y) (hY : Bounded n Y) : Bounded (n + 1 : ℕ) X := by
  intro row hrow v hv
  obtain ⟨row', hrow', hmoved⟩ := exists_of_mem h.flip hrow
  obtain ⟨w, hw, hvw⟩ := exists_of_mem (List.Forall₂.flip hmoved) hv
  have hbound := hY row' hrow' w hw
  rw [abs_le] at hbound ⊢
  push_cast
  rcases hvw with rfl | ⟨-, rfl⟩
  · omega
  · rcases hσ with rfl | rfl
    all_goals omega

/-- No entry changes its sign. -/
theorem moved_sign {τ : ℤ} (hτ : τ = 1 ∨ τ = -1) (hσ : σ = 1 ∨ σ = -1) (X Y : List (List ℤ))
    (h : List.Forall₂ (List.Forall₂ (Moved σ)) X Y) (hX : ∀ row ∈ X, ∀ v ∈ row, τ * v ≤ 0) :
    ∀ row ∈ Y, ∀ v ∈ row, τ * v ≤ 0 := by
  intro row hrow w hw
  obtain ⟨row', hmem, hmoved⟩ := exists_of_mem h hrow
  obtain ⟨v, hv, hvw⟩ := exists_of_mem hmoved hw
  have hle := hX row' hmem v hv
  rcases hvw with rfl | ⟨hpos, rfl⟩
  · exact hle
  · rcases hτ with rfl | rfl
    all_goals rcases hσ with rfl | rfl
    all_goals omega

theorem weighted_zero (src : ℕ) (X : List (List ℤ)) (h : ∀ row ∈ X, ∀ v ∈ row, v = 0) :
    weighted t src X = 0 := by
  induction X generalizing src with
  | nil => rfl
  | cons row X ih =>
    rw [List.forall_mem_cons] at h
    rw [weighted, ih (src + 1) h.2, List.eq_replicate_length.mpr h.1, Horner.eval_zeros, mul_zero,
      add_zero]

theorem rows_length {C row : List ℤ} (n : ℕ) (hne : row ≠ []) (hlen : row.length = C.length) :
    ∀ x ∈ rows C n row, x.length = C.length := by
  induction n generalizing row with
  | zero => simp [rows]
  | succ n ih =>
    have hnlen := nextrow_length hne hlen
    rw [rows, List.forall_mem_cons]
    refine ⟨hlen, ih (List.ne_nil_of_length_pos ?_) hnlen⟩
    rw [hnlen, ← hlen]
    exact List.length_pos_iff.mpr hne

/-- Both loops together: the rows to add and the rows to subtract make up all of `X`. -/
theorem tables_spec {room : ℕ} {X : List (List ℤ)} {a b : List (List ℕ) × List (List ℤ) × ℕ × Bool}
    (hX : ∀ row ∈ X, row.length ≤ d) (hroom : 0 < room) (ha : fill 1 d room X false = a)
    (hb : fill (-1) d a.2.2.1 a.2.1 a.2.2.2 = b) (h : b.2.2.2 = false) :
    a.1.length + b.1.length ≤ room ∧ (∀ x ∈ a.1 ++ b.1, x.length = d) ∧
      Bounded (a.1.length + b.1.length : ℕ) X ∧
      (∀ t : ℕ → UInt32, t 0 = 0 → weighted t d X = (a.1.map fun x => (val (x.map t) : ℤ)).sum -
        (b.1.map fun x => (val (x.map t) : ℤ)).sum) ∧
      ((∀ row ∈ X, ∀ v ∈ row, 0 ≤ v) → b.1 = []) := by
  have haflag : a.2.2.2 = false := by
    by_contra hflag
    rw [Bool.not_eq_false] at hflag
    have hleft : a.2.2.1 = 0 := by
      rw [← ha] at hflag ⊢
      exact fill_full hflag
    rw [hleft, hflag, fill_zero] at hb
    rw [← hb] at h
    cases h
  obtain ⟨hleft, hnonpos⟩ : 0 < a.2.2.1 ∧ ∀ row ∈ a.2.1, ∀ v ∈ row, 1 * v ≤ 0 := by
    rw [← ha] at haflag ⊢
    exact fill_done hX hroom haflag
  have hXa : ∀ row ∈ a.2.1, row.length ≤ d := by
    rw [← ha]
    exact fill_forward (Q := fun X => ∀ row ∈ X, row.length ≤ d) moved_length room false hX
  -- what is left after both loops is neither positive nor negative
  have hzero : ∀ row ∈ b.2.1, ∀ v ∈ row, v = 0 := by
    have hkept : ∀ row ∈ b.2.1, ∀ v ∈ row, 1 * v ≤ 0 := by
      rw [← hb]
      exact fill_forward (Q := fun X => ∀ row ∈ X, ∀ v ∈ row, 1 * v ≤ 0)
        (moved_sign (.inl rfl) (.inr rfl)) _ _ hnonpos
    have hdone : ∀ row ∈ b.2.1, ∀ v ∈ row, -1 * v ≤ 0 := by
      rw [← hb] at h ⊢
      exact (fill_done hXa hleft h).2
    intro row hrow v hv
    have hle := hkept row hrow v hv
    have hge := hdone row hrow v hv
    omega
  obtain ⟨hlena, hwida⟩ := fill_rows (σ := 1) (d := d) room X false
  obtain ⟨hlenb, hwidb⟩ := fill_rows (σ := -1) (d := d) a.2.2.1 a.2.1 a.2.2.2
  rw [ha] at hlena hwida
  rw [hb] at hlenb hwidb
  refine ⟨by omega, ?_, ?_, fun t ht => ?_, fun hnonneg => ?_⟩
  · intro x hx
    rcases List.mem_append.mp hx with hx | hx
    · exact hwida x hx
    · exact hwidb x hx
  · have hend : Bounded (0 : ℕ) b.2.1 := fun row hrow v hv => by
      rw [hzero row hrow v hv]
      simp
    have hmid : Bounded (0 + b.1.length : ℕ) a.2.1 := by
      rw [← hb] at hend ⊢
      exact fill_backward (P := fun n X => Bounded n X) (moved_bounded (.inr rfl)) _ 0 _ hend
    rw [Nat.zero_add] at hmid
    rw [Nat.add_comm]
    rw [← ha] at hmid ⊢
    exact fill_backward (P := fun n X => Bounded n X) (moved_bounded (.inl rfl)) _ _ _ hmid
  · have hsuma := fill_weighted (σ := 1) (d := d) ht room X false
    have hsumb := fill_weighted (σ := -1) (d := d) ht a.2.2.1 a.2.1 a.2.2.2
    rw [ha] at hsuma
    rw [hb, weighted_zero d _ hzero] at hsumb
    rw [hsuma, hsumb]
    ring
  · rw [← hb]
    refine fill_idle hXa ?_
    rw [← ha]
    refine fill_forward (Q := fun X => ∀ row ∈ X, ∀ v ∈ row, -1 * v ≤ 0)
      (moved_sign (.inr rfl) (.inl rfl)) room false fun row hrow v hv => ?_
    have hge := hnonneg row hrow v hv
    omega

end Fill

section Accepted

/-- What rows of `indx` add up to. -/
def rowsum (d : ℕ) (hi : Vec) (xs : List (List ℕ)) : ℤ :=
  (xs.map fun x => (val (gather d hi x) : ℤ)).sum

/-- What the tables of a positive modulus are good for. -/
structure GMfield.Mersenne (g : GMfield) : Prop where
  sign : g.n.sign = 1
  big : 2 < g.n.top
  square : g.m2 = mpmul g.n g.n
  few : g.adds.length + g.subs.length ≤ 85
  width : ∀ x ∈ g.adds ++ g.subs, x.length = g.n.top
  near : (2 ^ 32) ^ g.n.top < val g.n.p + 86 * (2 ^ 32) ^ (g.n.top - 1)
  folds : ∀ hi : Vec, hi.length = g.n.top →
    rowsum g.n.top hi g.adds - rowsum g.n.top hi g.subs ≡ (2 ^ 32) ^ g.n.top * val hi [ZMOD val g.n.p]
  unsigned : ∀ v : ℕ, val g.n.p + v * (2 ^ 32) ^ (g.n.top - 1) = (2 ^ 32) ^ g.n.top → g.subs = []

theorem range_gather {d : ℕ} {hi : Vec} (h : hi.length = d) :
    (List.range' d d).map (fun i => (List.replicate d 0 ++ hi).getD i 0) = hi := by
  refine List.ext_getElem (by simp [h]) fun i h₁ h₂ => ?_
  rw [List.getElem_map, List.getElem_range', List.getD_eq_getElem?_getD,
    List.getElem?_append_right (by simp), List.length_replicate, Nat.one_mul, Nat.add_sub_cancel_left,
    List.getElem?_eq_getElem h₂]
  rfl

theorem gmfield_cases {N : Mpint} {g : GMfield} (h : gmfield N = some g) :
    ∃ C a b, 2 < N.top ∧ N.top ≤ 16 ∧ mpsignif N % 32 = 0 ∧ coefficients (N.top + 1) 0 N = some C ∧
      fill 1 N.top (256 / N.top) (rows (C.take N.top) N.top (C.take N.top)) false = a ∧
      fill (-1) N.top a.2.2.1 a.2.1 a.2.2.2 = b ∧ b.2.2.2 = false ∧ g = ⟨N, mpmul N N, a.1, b.1⟩ := by
  have hMAX : MAXDIG / 2 = 16 := rfl
  unfold gmfield at h
  dsimp only at h
  split at h
  · cases h
  · obtain ⟨C, hC, hrest⟩ := Option.bind_eq_some_iff.mp h
    split at hrest
    · cases hrest
    · rename_i hflag
      cases hrest
      exact ⟨C, _, _, by omega, by omega, by omega, hC, rfl, rfl, Bool.not_eq_true _ ▸ hflag, rfl⟩

theorem gmfield_spec {N : Mpint} {g : GMfield} (h : gmfield N = some g) (hpos : 0 < N.toInt) :
    g.Mersenne := by
  obtain ⟨C, a, b, hbig, hsmall, hbits, hC, ha, hb, hflag, rfl⟩ := gmfield_cases h
  obtain ⟨hlen, heval⟩ := coefficients_eval hpos hbig hbits hC
  generalize C.take N.top = C at *
  have hne : C ≠ [] := List.ne_nil_of_length_pos (by omega)
  have hroom : 0 < 256 / N.top := Nat.div_pos (by omega) (by omega)
  obtain ⟨hfew, hwidth, hbound, hsum, hunsigned⟩ := tables_spec (fun row hrow => by
    rw [rows_length N.top hne rfl row hrow, hlen]) hroom ha hb hflag
  have hroom' : 256 / N.top ≤ 85 := by
    rw [Nat.div_le_iff_le_mul_add_pred (by omega)]
    omega
  have hX : Bounded 85 (rows C N.top C) := fun row hrow v hv =>
    (hbound row hrow v hv).trans (by exact_mod_cast hfew.trans hroom')
  have hCb : ∀ c ∈ C, |c| ≤ 85 := by
    refine hX C ?_
    rw [show N.top = N.top - 1 + 1 by omega, rows]
    exact List.mem_cons_self
  have hk : (2 ^ 32 : ℕ) ^ N.top = 2 ^ 32 * (2 ^ 32) ^ (N.top - 1) := by
    rw [← radix_succ]
    congr 1
    omega
  have hcast : (2 ^ 32 : ℤ) ^ N.top = ((2 ^ 32) ^ N.top : ℕ) := by
    push_cast
    rfl
  refine ⟨sign_of_pos hpos, hbig, rfl, hfew.trans hroom', hwidth, ?_, fun hi hhi => ?_, fun v hv => ?_⟩
  · have habs := Horner.abs_eval_le (b := 2 ^ 32) (by norm_num) hCb
    have hself := le_abs_self (Horner.eval (2 ^ 32) C)
    rw [hlen, hcast, hk] at habs
    rw [heval, hcast, hk] at hself
    rw [heval, hcast, hk] at habs
    change (2 ^ 32) ^ N.top < val N.p + 86 * (2 ^ 32) ^ (N.top - 1)
    rw [hk]
    generalize (2 ^ 32) ^ (N.top - 1) = y at *
    push_cast at habs hself
    omega
  · have hdigits := hsum (fun i => (List.replicate N.top 0 ++ hi).getD i 0) (by
      rw [show N.top = N.top - 1 + 1 by omega, List.replicate_succ]
      rfl)
    have hfold := weighted_rows (fun i => (List.replicate N.top 0 ++ hi).getD i 0)
      (heval.trans (by rw [hlen])) hCb N.top N.top hne rfl hX
    rw [hdigits, range_gather hhi] at hfold
    refine Int.ModEq.trans hfold (Int.ModEq.mul_right _ ?_)
    rw [heval]
    exact Int.modEq_iff_dvd.mpr ⟨1, by ring⟩
  · have hform : C = List.replicate (N.top - 1) 0 ++ [(v : ℤ)] := by
      refine Horner.eq_of_eval (b := 2 ^ 32) (by omega) (fun c hc => (hCb c hc).trans_lt (by norm_num)) ?_
      rw [heval, hcast, ← hv]
      push_cast
      ring
    have hnonneg : ∀ c ∈ C, 0 ≤ c := by
      intro c hc
      rw [hform] at hc
      rcases List.mem_append.mp hc with hc | hc
      · rw [List.eq_of_mem_replicate hc]
      · rw [List.mem_singleton.mp hc]
        exact Int.natCast_nonneg v
    exact hunsigned (rows_nonneg hCb hnonneg N.top hnonneg hX)

end Accepted

end Petele.Mp
