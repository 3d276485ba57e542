import Petele.Git.DeltaSafe
import Petele.Lib.CInt

namespace Petele.Git

open Lib

/-- `realloc`: what it returns is as long as it was asked for and begins with what was there. -/
structure Realloc where
  realloc : Option (List UInt8) → ℕ → Option (List UInt8)
  len : ∀ p n q, realloc p n = some q → q.length = n
  keeps : ∀ p n q, realloc p n = some q → (p.getD []).take n <+: q

def HistorySize : ℕ := 32 * 1024

/-- What `inflatezlib` writes, one call of its writer after the other, and what it returns. It writes
its history when that is full, and the rest of it at the end. -/
structure Stream where
  pieces : List (List UInt8)
  code : ℤ
  full : ∀ c ∈ pieces.dropLast, c.length = HistorySize
  le : ∀ c ∈ pieces, c.length ≤ HistorySize

/-- `len` and `sz` are `int`s; `data` is what is allocated. -/
structure Buf where
  len : ℤ
  sz : ℤ
  data : Option (List UInt8)

/-- The loop of `bappend`, and whether it got the room. A negative size is passed on as one that no
memory has. -/
def grow (A : Realloc) (need : ℤ) : ℕ → Buf → Option (Bool × Buf)
  | 0, _ => none
  | fuel + 1, b =>
    if b.sz ≤ need then
      let sz := wrap (b.sz * 2 + 64)
      if sz < 0 then some (false, { b with sz := sz })
      else
        match A.realloc b.data sz.toNat with
        | none => some (false, { b with sz := sz })
        | some n => grow A need fuel { b with sz := sz, data := some n }
    else some (true, b)

/-- The returned value and the buffer. To write outside of what is allocated is `none`. -/
def bappend (A : Realloc) (b : Buf) (src : List UInt8) : Option (ℤ × Buf) := do
  let (ok, b) ← grow A (wrap (b.len + src.length)) 64 b
  if ok = true then
    if b.len < 0 then none
    else
      let data ← store (b.data.getD []) b.len.toNat src
      return (src.length, { b with data := some data, len := wrap (b.len + src.length) })
  else return (-1, b)

/-- The calls of `bappend`, up to the first that fails, and whether none did. -/
def inflatezlib (A : Realloc) : Buf → List (List UInt8) → Option (Bool × Buf)
  | b, [] => some (true, b)
  | b, c :: cs => do
    let (r, b) ← bappend A b c
    if r = c.length then inflatezlib A b cs else return (false, b)

/-- The bytes that `bappend` takes. -/
def taken (A : Realloc) : Buf → List (List UInt8) → List UInt8
  | _, [] => []
  | b, c :: cs =>
    match bappend A b c with
    | none => []
    | some (r, b) => if r = c.length then c ++ taken A b cs else []

def FlateOutputFail : ℤ := -3

/-- `-1` is the inner `none`. -/
def bdecompress (A : Realloc) (d : Buf) (z : Stream) : Option (Option Buf) := do
  let (ok, d) ← inflatezlib A d z.pieces
  if (if ok = true then z.code else FlateOutputFail) = -1 ∨ d.data = none then return none
  else return some d

def decompress (A : Realloc) (z : Stream) : Option (Option Buf) := bdecompress A ⟨0, 0, none⟩ z

section Buffer

variable {A : Realloc} {b b' : Buf} {need : ℤ} {ok : Bool} {fuel k : ℕ} {src : List UInt8}

theorem taken_cons {c : List UInt8} {cs : List (List UInt8)} {r : ℤ} (h : bappend A b c = some (r, b'))
    (hr : r = c.length) : taken A b (c :: cs) = c ++ taken A b' cs := by
  rw [taken, h]
  exact if_pos hr

/-- Nothing is taken behind a call that fails. -/
theorem taken_fail {c : List UInt8} {cs : List (List UInt8)} {r : ℤ} (h : bappend A b c = some (r, b'))
    (hr : r ≠ c.length) : taken A b (c :: cs) = [] := by
  rw [taken, h]
  exact if_neg hr

/-- `sz` is the number of bytes allocated. -/
structure Buf.Sized (b : Buf) : Prop where
  pos : 0 ≤ b.sz
  eq : b.sz = (b.data.getD []).length
  int : b.sz < 2 ^ 31

/-- A property of the sizes that the loop goes through. -/
def Grows (P : ℤ → Prop) : Prop := ∀ sz, 0 ≤ sz → sz < 2 ^ 31 → P sz → 0 ≤ wrap (sz * 2 + 64) → P (wrap (sz * 2 + 64))

/-- The loop ends with the room that is needed, or fails. -/
theorem grow_sized {P : ℤ → Prop} (hP : Grows P) (hb : b.Sized) (hsz : P b.sz)
    (h : grow A need fuel b = some (ok, b')) :
    b'.len = b.len ∧ (ok = true → b'.Sized ∧ P b'.sz ∧ need < b'.sz) := by
  induction fuel generalizing b with
  | zero => cases h
  | succ fuel ih =>
    rw [grow] at h
    split at h
    · dsimp only at h
      split at h
      · cases h
        exact ⟨rfl, by simp⟩
      · rename_i hneg
        split at h
        · cases h
          exact ⟨rfl, by simp⟩
        · rename_i n hn
          have hlen := A.len _ _ _ hn
          have hsized : Buf.Sized { b with sz := wrap (b.sz * 2 + 64), data := some n } := by
            refine ⟨by dsimp only; omega, ?_, wrap_lt _⟩
            rw [Option.getD_some, hlen, Int.toNat_of_nonneg (by omega)]
          have hrest := ih hsized (hP _ hb.pos hb.int hsz (by omega)) h
          exact hrest
    · rename_i hmore
      cases h
      exact ⟨rfl, fun _ => ⟨hb, hsz, by omega⟩⟩

/-- The bytes in the buffer stay as long as its size does not come round to a small one. -/
theorem grow_keeps (hb : b.Sized) (hneed : need ≤ b.sz + HistorySize) (hsmall : b.sz < 2 ^ 31 - 32 ∨ need < b.sz)
    (h : grow A need fuel b = some (ok, b')) : b.data.getD [] <+: b'.data.getD [] := by
  induction fuel generalizing b with
  | zero => cases h
  | succ fuel ih =>
    rw [HistorySize] at hneed
    rw [grow] at h
    split at h
    · dsimp only at h
      split at h
      · cases h
        exact List.prefix_refl _
      · rename_i hneg
        have hpos := hb.pos
        have hwrap : wrap (b.sz * 2 + 64) = b.sz * 2 + 64 := by
          by_cases hbig : b.sz * 2 + 64 < 2 ^ 31
          · exact wrap_of_range (by omega) hbig
          · rw [wrap_past (by omega) (by omega)] at hneg
            omega
        have hlt := wrap_lt (b.sz * 2 + 64)
        rw [hwrap] at h hneg hlt
        split at h
        · cases h
          exact List.prefix_refl _
        · rename_i n hn
          have hlen := A.len _ _ _ hn
          have hkeeps := A.keeps _ _ _ hn
          have heq := hb.eq
          rw [List.take_of_length_le (by omega)] at hkeeps
          have hsized : Buf.Sized { b with sz := b.sz * 2 + 64, data := some n } := by
            refine ⟨by dsimp only; omega, ?_, hlt⟩
            rw [Option.getD_some, hlen, Int.toNat_of_nonneg (by omega)]
          refine hkeeps.trans (ih hsized ?_ ?_ h)
          · rw [HistorySize]
            dsimp only
            omega
          · dsimp only
            omega
    · cases h
      exact List.prefix_refl _

/-- A size that is no longer known to be right is made good by the first turn of the loop. -/
theorem grow_negative {P : ℤ → Prop} (hP : Grows P) (hneg : b.sz < 0) (hneed : 0 ≤ need)
    (hsz : 0 ≤ wrap (b.sz * 2 + 64) → P (wrap (b.sz * 2 + 64))) (h : grow A need (fuel + 1) b = some (ok, b')) :
    b'.len = b.len ∧ (ok = true → b'.Sized ∧ P b'.sz ∧ need < b'.sz) := by
  rw [grow, if_pos (by omega)] at h
  dsimp only at h
  split at h
  · cases h
    exact ⟨rfl, by simp⟩
  · rename_i hpos
    split at h
    · cases h
      exact ⟨rfl, by simp⟩
    · rename_i n hn
      have hlen := A.len _ _ _ hn
      have hsized : Buf.Sized { b with sz := wrap (b.sz * 2 + 64), data := some n } := by
        refine ⟨by dsimp only; omega, ?_, wrap_lt _⟩
        rw [Option.getD_some, hlen, Int.toNat_of_nonneg (by omega)]
      have hrest := grow_sized hP hsized (hsz (by omega)) h
      exact hrest

/-- What the loop of `bappend` comes to. -/
def Comes (A : Realloc) (b : Buf) (need : ℤ) (P : ℤ → Prop) : Prop :=
  ∀ ok b', grow A need 64 b = some (ok, b') → b'.len = b.len ∧ (ok = true → b'.Sized ∧ P b'.sz ∧ need < b'.sz)

theorem Buf.Sized.comes {P : ℤ → Prop} (hb : b.Sized) (hP : Grows P) (hsz : P b.sz) (need : ℤ) : Comes A b need P :=
  fun _ _ h => grow_sized hP hb hsz h

/-- Either there is no room, or the bytes go behind those in the buffer. -/
theorem bappend_cases {P : ℤ → Prop} (hcomes : Comes A b (wrap (b.len + src.length)) P) (hlen : b.len = k)
    {r : ℤ} (h : bappend A b src = some (r, b')) :
    (r = -1 ∧ grow A (wrap (b.len + src.length)) 64 b = some (false, b')) ∨
      ∃ b₁, grow A ((k + src.length : ℕ) : ℤ) 64 b = some (true, b₁) ∧ k + src.length < 2 ^ 31 ∧
        k + src.length ≤ (b₁.data.getD []).length ∧ r = src.length ∧
        b' = ⟨(k + src.length : ℕ), b₁.sz,
          some ((b₁.data.getD []).take k ++ src ++ (b₁.data.getD []).drop (k + src.length))⟩ := by
  rw [bappend] at h
  obtain ⟨⟨ok, b₁⟩, hgrow, h⟩ := Option.bind_eq_some_iff.mp h
  obtain ⟨hlen₁, hok⟩ := hcomes _ _ hgrow
  cases ok with
  | false =>
    cases h
    exact .inl ⟨rfl, hgrow⟩
  | true =>
    right
    dsimp only at h
    rw [if_pos rfl, if_neg (by omega), hlen₁, hlen, Int.toNat_natCast] at h
    obtain ⟨data, hdata, h⟩ := Option.bind_eq_some_iff.mp h
    rw [store] at hdata
    split at hdata
    · rename_i hroom
      cases hdata
      have hfits : k + src.length < 2 ^ 31 := by
        have hsized := (hok rfl).1
        have := hsized.eq
        have := hsized.int
        omega
      have hsum : wrap ((k : ℤ) + src.length) = ((k + src.length : ℕ) : ℤ) := by
        rw [wrap_of_range (by omega) (by omega)]
        rfl
      rw [hlen, hsum] at hgrow
      rw [hsum] at h
      cases h
      exact ⟨b₁, hgrow, hfits, hroom, rfl, rfl⟩
    · cases hdata

theorem bappend_sized {P : ℤ → Prop} (hcomes : Comes A b (wrap (b.len + src.length)) P) (hlen : b.len = k)
    {r : ℤ} (h : bappend A b src = some (r, b')) :
    (r = -1 ∧ b'.len = k) ∨
      r = src.length ∧ b'.len = (k + src.length : ℕ) ∧ b'.Sized ∧ P b'.sz ∧ ((k + src.length : ℕ) : ℤ) < b'.sz := by
  rcases bappend_cases hcomes hlen h with ⟨hr, hgrow⟩ | ⟨b₁, hgrow, hfits, hroom, hr, rfl⟩
  · exact .inl ⟨hr, ((hcomes _ _ hgrow).1).trans hlen⟩
  · have hsum : wrap (b.len + src.length) = ((k + src.length : ℕ) : ℤ) := by
      rw [hlen, wrap_of_range (by omega) (by omega)]
      rfl
    rw [hsum] at hcomes
    obtain ⟨-, hok⟩ := hcomes _ _ hgrow
    obtain ⟨hsized, hsz', hneed⟩ := hok rfl
    refine .inr ⟨hr, rfl, ⟨hsized.pos, ?_, hsized.int⟩, hsz', hneed⟩
    rw [hsized.eq, Option.getD_some]
    simp only [List.length_append, List.length_take, List.length_drop]
    omega

/-- The text in the buffer stays and grows by the bytes that are taken. -/
theorem bappend_keeps (hb : b.Sized) (hlen : b.len = k) (hk : (k : ℤ) ≤ b.sz) (hsrc : src.length ≤ HistorySize)
    (hsmall : b.sz < 2 ^ 31 - 32 ∨ ((k + src.length : ℕ) : ℤ) < b.sz) {r : ℤ} (h : bappend A b src = some (r, b'))
    {text : List UInt8} (htext : text.length = k) (hfront : text <+: b.data.getD []) :
    (r = -1 → text <+: b'.data.getD []) ∧ (r = src.length → text ++ src <+: b'.data.getD []) := by
  have htrue : Grows fun _ => True := fun _ _ _ _ _ => trivial
  have hint := hb.int
  rw [HistorySize] at hsrc
  rcases bappend_cases (hb.comes htrue trivial _) hlen h with ⟨rfl, hgrow⟩ | ⟨b₁, hgrow, hfits, hroom, rfl, rfl⟩
  · refine ⟨fun _ => ?_, fun hr => by omega⟩
    -- a sum past the end of an `int` is negative, and the loop is not entered
    by_cases hfits : k + src.length < 2 ^ 31
    · rw [hlen, wrap_of_range (by omega) (by omega)] at hgrow
      refine hfront.trans (grow_keeps hb ?_ ?_ hgrow)
      · rw [HistorySize]
        omega
      · omega
    · have hpos := hb.pos
      rw [hlen, wrap_past (by omega) (by omega), grow, if_neg (by omega)] at hgrow
      cases hgrow
  · refine ⟨fun hr => by omega, fun _ => ?_⟩
    have hdata := hfront.trans (grow_keeps hb (by rw [HistorySize]; omega) (by omega) hgrow)
    have htake : (b₁.data.getD []).take k = text := by
      rw [← htext]
      exact (List.prefix_iff_eq_take.mp hdata).symm
    rw [Option.getD_some, htake]
    exact List.prefix_append _ _

/-- `len` counts the bytes taken, and there was room for them. -/
theorem taken_sized {P : ℤ → Prop} (hP : Grows P) {cs : List (List UInt8)} (hb : b.Sized) (hsz : P b.sz)
    (hlen : b.len = k) (h : inflatezlib A b cs = some (ok, b')) :
    b'.len = (k + (taken A b cs).length : ℕ) ∧
      (taken A b cs = [] ∨ ∃ sz, P sz ∧ sz < 2 ^ 31 ∧ ((k + (taken A b cs).length : ℕ) : ℤ) < sz) := by
  induction cs generalizing b k with
  | nil =>
    cases h
    exact ⟨by simpa [taken] using hlen, .inl rfl⟩
  | cons c cs ih =>
    rw [inflatezlib] at h
    obtain ⟨⟨r, b₁⟩, happend, h⟩ := Option.bind_eq_some_iff.mp h
    dsimp only at h
    rcases bappend_sized (hb.comes hP hsz _) hlen happend with ⟨hr, hlen₁⟩ | ⟨hr, hlen₁, hsized, hsz₁, hroom⟩
    · have hne : r ≠ c.length := by omega
      have htaken := @taken_fail A b b₁ c cs r happend hne
      rw [if_neg hne] at h
      cases h
      rw [htaken]
      exact ⟨by simpa using hlen₁, .inl rfl⟩
    · have htaken := @taken_cons A b b₁ c cs r happend hr
      rw [if_pos hr] at h
      obtain ⟨hlen', hbound⟩ := ih hsized hsz₁ hlen₁ h
      rw [htaken, List.length_append, ← Nat.add_assoc]
      refine ⟨hlen', .inr ?_⟩
      rcases hbound with hnil | hbound
      · rw [hnil]
        exact ⟨b₁.sz, hsz₁, hsized.int, hroom⟩
      · exact hbound

/-- Sizes that are multiples of 64 do not come round. -/
theorem grows_even : Grows fun sz => 64 ∣ sz := by
  intro sz hpos hint hdvd hsize
  obtain ⟨j, rfl⟩ := hdvd
  by_cases hbig : 64 * j * 2 + 64 < 2 ^ 31
  · rw [wrap_of_range (by omega) hbig]
    omega
  · rw [wrap_past (by omega) (by omega)] at hsize
    omega

/-- In a buffer that began as nil, all bytes taken stand one behind the other. -/
theorem taken_keeps {cs : List (List UInt8)} {text : List UInt8} (hb : b.Sized) (hsz : 64 ∣ b.sz)
    (hlen : b.len = text.length) (hk : (text.length : ℤ) ≤ b.sz) (hle : ∀ c ∈ cs, c.length ≤ HistorySize)
    (htext : text <+: b.data.getD []) (h : inflatezlib A b cs = some (ok, b')) :
    text ++ taken A b cs <+: b'.data.getD [] := by
  induction cs generalizing b text with
  | nil =>
    cases h
    rwa [taken, List.append_nil]
  | cons c cs ih =>
    rw [List.forall_mem_cons] at hle
    rw [inflatezlib] at h
    obtain ⟨⟨r, b₁⟩, happend, h⟩ := Option.bind_eq_some_iff.mp h
    dsimp only at h
    have hint := hb.int
    obtain ⟨hfail, hmore⟩ := bappend_keeps hb hlen hk hle.1 (.inl (by omega)) happend rfl htext
    rcases bappend_sized (hb.comes grows_even hsz _) hlen happend with ⟨hr, -⟩ | ⟨hr, hlen₁, hsized, hsz₁, hroom⟩
    · have hne : r ≠ c.length := by omega
      have htaken := @taken_fail A b b₁ c cs r happend hne
      rw [if_neg hne] at h
      cases h
      rw [htaken, List.append_nil]
      exact hfail hr
    · have htaken := @taken_cons A b b₁ c cs r happend hr
      rw [if_pos hr] at h
      rw [htaken, ← List.append_assoc]
      refine ih hsized hsz₁ ?_ ?_ hle.2 (hmore hr) h
      · rw [hlen₁, List.length_append]
      · rw [List.length_append]
        exact hroom.le

/-- What `decompress` returns is the length of the bytes taken, which stand in front of what is
allocated. -/
theorem decompress_spec {z : Stream} {d : Buf} (h : decompress A z = some (some d)) :
    ∃ mem, d.data = some mem ∧ d.len = (taken A ⟨0, 0, none⟩ z.pieces).length ∧ d.len < 2 ^ 31 ∧
      taken A ⟨0, 0, none⟩ z.pieces <+: mem := by
  have hnil : Buf.Sized ⟨0, 0, none⟩ := ⟨Int.le_refl _, rfl, by decide⟩
  rw [decompress, bdecompress] at h
  obtain ⟨⟨ok, b⟩, hinflate, h⟩ := Option.bind_eq_some_iff.mp h
  obtain ⟨hlen, hbound⟩ := @taken_sized A _ _ _ 0 _ grows_even _ hnil (by decide) rfl hinflate
  rw [Nat.zero_add] at hlen hbound
  have hint : b.len < 2 ^ 31 := by
    rcases hbound with hnone | ⟨sz, -, hsz, hroom⟩
    · rw [hlen, hnone]
      decide
    · omega
  have hkeeps := @taken_keeps A _ _ _ _ [] hnil (by decide) rfl (by decide) z.le (List.nil_prefix) hinflate
  dsimp only at h
  by_cases hcode : (if ok = true then z.code else FlateOutputFail) = -1 ∨ b.data = none
  · rw [if_pos hcode] at h
    cases h
  · rw [if_neg hcode] at h
    cases h
    cases hdata : d.data with
    | none => exact absurd (.inr hdata) hcode
    | some mem =>
      rw [hdata] at hkeeps
      exact ⟨mem, rfl, hlen, hint, hkeeps⟩

end Buffer

end Petele.Git
