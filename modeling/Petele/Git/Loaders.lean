import Petele.Git.Inflate
import Petele.Git.Entry
import Petele.Git.Objset
import Petele.Libc.Strtol

namespace Petele.Git

open Lib Libc

/-- What a loader leaves in an `Object`: what is allocated at `all`, `data` as an offset into it, and
`size`. -/
structure Loaded where
  type : Otype
  all : List UInt8
  data : ℕ
  size : ℤ

/-- `all` begins with the header for the size, `data` is just past the header, and `size` bytes
follow. -/
def Consistent (o : Loaded) : Prop :=
  ∃ n : ℕ, o.size = n ∧ header o.type n <+: o.all ∧ o.data = (header o.type n).length ∧ o.data + n ≤ o.all.length

/-- What `applydelta` leaves. -/
def Object.loaded (o : Object) : Loaded := ⟨o.type, o.all, o.all.length - o.data.length, o.data.length⟩

/-- The object as `applydelta` takes it for a base: it refuses one whose size is negative, and reads
outside of one that has fewer bytes than its size. -/
def Loaded.object (o : Loaded) : Option (Except String Object) :=
  if o.size < 0 then some (.error "mismatched source size")
  else if o.data + o.size.toNat ≤ o.all.length then some (.ok ⟨o.type, o.all, bytes o.all o.data o.size.toNat⟩)
  else none

section Packed

/-- The buffer of `readpacked` with the header in it. A header that does not fit is `none`. -/
def packbuf (t : Otype) (l : ℕ) : Option Buf := do
  let data ← store (List.replicate ((64 + l) % 2 ^ 32) 0) 0 (snprint t l)
  return ⟨(snprint t l).length, wrap (64 + l), some data⟩

/-- The cases of `readpacked` that are not deltas. -/
def readwhole (A : Realloc) (t : Otype) (l : ℕ) (z : Stream) : Option (Except String Loaded) := do
  let b ← packbuf t l
  match ← bdecompress A b z with
  | none => return .error ""
  | some b => return .ok ⟨t, b.data.getD [], (snprint t l).length, wrap (b.len - (snprint t l).length)⟩

/-- The types that `readpacked` knows, by their numbers. -/
def entrytype : ℕ → Option Otype
  | 1 => some .GCommit
  | 2 => some .GTree
  | 3 => some .GBlob
  | 4 => some .GTag
  | 6 => some .GOdelta
  | 7 => some .GRdelta
  | _ => none

/-- The end of `readodelta` and `readrdelta`: a delta of `nd` bytes against the base. -/
def loaddelta (A : Realloc) (z : Stream) (nd : ℤ) (base : Option (Except String Loaded)) :
    Option (Except String Loaded) := do
  match ← decompress A z with
  | none => return .error ""
  | some d =>
    if d.len ≠ nd then return .error ""
    else
      match ← base with
      | .error e => return .error e
      | .ok b =>
        match ← b.object with
        | .error e => return .error e
        | .ok b => return (applydelta b ((d.data.getD []).take d.len.toNat)).map Object.loaded

/-- `readpacked` at offset `p` of the pack `f`. `inflate` is what the bytes from an offset on inflate
to, `lookup` is `readidxobject`, and `self` the hash of the object that is read. The failures carry the
text given to `werrstr`. -/
def readpacked (A : Realloc) (inflate : List UInt8 → Stream) (lookup : Hash → Option (Except String Loaded))
    (f : List UInt8) : ℕ → Hash → ℕ → Option (Except String Loaded)
  | 0, _, _ => none
  | fuel + 1, self, p =>
    match readhdr (f.drop p) with
    | .error e => some (.error e)
    | .ok (t, l, rest) =>
      match entrytype t with
      | none => some (.error "invalid object at %lld")
      | some .GOdelta =>
        match readoff rest with
        | none => some (.error "")
        | some (r, rest) =>
          if p < r ∨ 1 <<< 56 ≤ r then some (.error "junk offset -%lld (from %lld)")
          else loaddelta A (inflate rest) l (readpacked A inflate lookup f fuel Zhash (p - r))
      | some .GRdelta =>
        if h : 20 ≤ rest.length then
          let base : Hash := ⟨rest.take 20, by rw [List.length_take]; omega⟩
          if base = self then some (.error "")
          else loaddelta A (inflate (rest.drop 20)) (wrap l) (lookup base)
        else some (.error "")
      | some t => readwhole A t l (inflate rest)

variable {A : Realloc} {b b' : Buf} {ok : Bool} {t : Otype} {l n k : ℕ} {src : List UInt8}

theorem packbuf_spec (hl : l < 2 ^ 32) (h : packbuf t l = some b) :
    (header t l).length ≤ (64 + l) % 2 ^ 32 ∧ b.len = (header t l).length ∧ b.sz = wrap (64 + l) ∧
      (b.data.getD []).length = (64 + l) % 2 ^ 32 ∧ header t l <+: b.data.getD [] := by
  rw [packbuf, snprint_eq t hl] at h
  obtain ⟨data, hdata, h⟩ := Option.bind_eq_some_iff.mp h
  rw [store] at hdata
  split at hdata
  · rename_i hroom
    cases hdata
    cases h
    rw [List.length_replicate, Nat.zero_add] at hroom
    rw [List.take_zero, List.nil_append]
    refine ⟨hroom, rfl, ?_, ?_, List.prefix_append _ _⟩
    · dsimp only
    · simp only [Option.getD_some, List.length_append, List.length_drop, List.length_replicate]
      omega
  · cases hdata

/-- The buffer of a header that fits. -/
theorem packbuf_isSome (hl : l < 2 ^ 32) : (packbuf t l).isSome ↔ (header t l).length ≤ (64 + l) % 2 ^ 32 := by
  constructor
  · intro h
    obtain ⟨b, hb⟩ := Option.isSome_iff_exists.mp h
    exact (packbuf_spec hl hb).1
  · intro h
    rw [packbuf, snprint_eq t hl, store, if_pos (by rw [List.length_replicate]; omega)]
    rfl

/-- Bytes for which there is room are taken without a call of `realloc`. -/
theorem bappend_room (hlen : b.len = k) (hb : b.Sized) (hroom : ((k + src.length : ℕ) : ℤ) < b.sz) :
    bappend A b src = some ((src.length : ℤ), ⟨(k + src.length : ℕ), b.sz,
      some ((b.data.getD []).take k ++ src ++ (b.data.getD []).drop (k + src.length))⟩) := by
  have hint := hb.int
  have heq := hb.eq
  have hsum : wrap ((k : ℤ) + src.length) = ((k + src.length : ℕ) : ℤ) := by
    rw [wrap_of_range (by omega) (by omega)]
    rfl
  rw [bappend, hlen, hsum, grow, if_neg (by omega)]
  simp only [Option.bind_eq_bind, Option.bind_some, if_true, hlen]
  rw [if_neg (by omega), Int.toNat_natCast, store, if_pos (by omega), Option.bind_some, hsum]
  rfl

/-- As long as no more than `l` bytes are taken, the buffer that was made for them is not changed; and
behind that there is room for one more call of `realloc` that fails. -/
theorem exact_keeps {cs : List (List UInt8)} {text : List UInt8} (hb : b.Sized) (hsz : b.sz = 64 + l)
    (hlen : b.len = text.length) (htext : text <+: b.data.getD []) (hn : n < 64)
    (hsum : text.length + (taken A b cs).length = n + l) (hfull : ∀ c ∈ cs.dropLast, c.length = HistorySize)
    (hle : ∀ c ∈ cs, c.length ≤ HistorySize) (hmul : cs ≠ [] → HistorySize ∣ text.length - n ∧ n ≤ text.length)
    (h : inflatezlib A b cs = some (ok, b')) : text ++ taken A b cs <+: b'.data.getD [] := by
  induction cs generalizing b text with
  | nil =>
    cases h
    rwa [taken, List.append_nil]
  | cons c cs ih =>
    have htrue : Grows fun _ => True := fun _ _ _ _ _ => trivial
    have hint := hb.int
    have heq := hb.eq
    obtain ⟨⟨j, hj⟩, hnle⟩ := hmul (by simp)
    rw [List.forall_mem_cons] at hle
    have hc := hle.1
    rw [HistorySize] at hc hj
    rw [inflatezlib] at h
    obtain ⟨⟨r, b₁⟩, happend, h⟩ := Option.bind_eq_some_iff.mp h
    dsimp only at h
    rcases bappend_sized (hb.comes htrue trivial _) hlen happend with ⟨hr, -⟩ | ⟨hr, -, -, -, -⟩
    · have hne : r ≠ c.length := by omega
      have htaken := @taken_fail A b b₁ c cs r happend hne
      rw [htaken, List.length_nil] at hsum
      rw [if_neg hne] at h
      cases h
      rw [htaken, List.append_nil]
      exact (bappend_keeps hb hlen (by omega) hle.1 (.inl (by omega)) happend rfl htext).1 hr
    · have htaken := @taken_cons A b b₁ c cs r happend hr
      rw [htaken, List.length_append] at hsum
      have hroom : ((text.length + c.length : ℕ) : ℤ) < b.sz := by omega
      have hmore := (bappend_keeps hb hlen (by omega) hle.1 (.inr hroom) happend rfl htext).2 hr
      rw [bappend_room hlen hb hroom] at happend
      cases happend
      rw [if_pos rfl] at h
      rw [htaken, ← List.append_assoc]
      refine ih ⟨hb.pos, ?_, hint⟩ hsz ?_ hmore ?_ ?_ hle.2 ?_ h
      · rw [heq, Option.getD_some]
        simp only [List.length_append, List.length_take, List.length_drop]
        omega
      · rw [List.length_append]
      · rw [List.length_append]
        omega
      · intro x hx
        refine hfull x ?_
        cases cs with
        | nil => cases hx
        | cons d cs => exact List.mem_cons_of_mem _ hx
      · intro hcs
        have hcfull : c.length = HistorySize := by
          refine hfull c ?_
          cases cs with
          | nil => exact absurd rfl hcs
          | cons d cs => exact List.mem_cons_self
        rw [HistorySize] at hcfull
        rw [List.length_append, HistorySize]
        exact ⟨⟨j + 1, by omega⟩, by omega⟩

/-- The sizes of a buffer that is made for a little less than `2 ^ 31` bytes pass that number by. -/
theorem no_size {j e : ℕ} (he : e < 64) (hlow : 2 ^ 31 < 2 ^ j * (e + 64)) : 2 ^ 31 + 64 ≤ 2 ^ j * (e + 64) := by
  by_cases hj : j ≤ 24
  · have hpow : 2 ^ j ≤ 2 ^ 24 := Nat.pow_le_pow_right (by decide) hj
    have hle : 2 ^ j * (e + 64) ≤ 2 ^ 24 * 127 := Nat.mul_le_mul hpow (by omega)
    omega
  · have hpow : 2 ^ j = 2 ^ 25 * 2 ^ (j - 25) := by rw [← Nat.pow_add, Nat.add_sub_of_le (by omega)]
    rw [hpow, Nat.mul_assoc] at hlow ⊢
    omega

/-- The sizes of that buffer. -/
def Reached (l : ℕ) (sz : ℤ) : Prop :=
  2 ^ 31 ≤ l + 64 → l < 2 ^ 31 → ∃ j : ℕ, sz + 64 = (2 ^ j * (l + 64 - 2 ^ 31 + 64) : ℕ)

theorem grows_reached (l : ℕ) : Grows (Reached l) := by
  intro sz hpos hint hsz hsize hlow hhigh
  obtain ⟨j, hj⟩ := hsz hlow hhigh
  by_cases hbig : sz * 2 + 64 < 2 ^ 31
  · rw [wrap_of_range (by omega) hbig]
    refine ⟨j + 1, ?_⟩
    rw [Nat.pow_succ, Nat.mul_comm (2 ^ j) 2, Nat.mul_assoc]
    omega
  · rw [wrap_past (by omega) (by omega)] at hsize
    have hpast := @no_size j (l + 64 - 2 ^ 31) (by omega) (by omega)
    omega

/-- Where `sz` starts as a negative number. -/
theorem reached_first (h : b.sz = 64 + l - 2 ^ 32) : Reached l (wrap (b.sz * 2 + 64)) := by
  intro hlow hhigh
  have hround : wrap (b.sz * 2 + 64) = 2 * (l + 64 - 2 ^ 31) + 64 := by
    have hshift : b.sz * 2 + 64 = 2 * (l + 64 - 2 ^ 31) + 64 - 2 ^ 32 := by omega
    rw [hshift, wrap_sub_period, wrap_of_range (by omega) (by omega)]
  refine ⟨1, ?_⟩
  rw [hround]
  omega

/-- `len` counts the header and the bytes taken, however `sz` came out. -/
theorem packed_len {cs : List (List UInt8)} (hl : l < 2 ^ 32) (hb : packbuf t l = some b)
    (hle : ∀ c ∈ cs, c.length ≤ HistorySize) (h : inflatezlib A b cs = some (ok, b')) :
    b'.len = ((header t l).length + (taken A b cs).length : ℕ) ∧
      (taken A b cs = [] ∨ ∃ sz, Reached l sz ∧ sz < 2 ^ 31 ∧
        (((header t l).length + (taken A b cs).length : ℕ) : ℤ) < sz) := by
  obtain ⟨hfits, hlen, hsz, hroom, -⟩ := packbuf_spec hl hb
  have hsmall := header_length t hl
  by_cases hneg : 2 ^ 31 ≤ 64 + l ∧ 64 + l < 2 ^ 32
  · rw [wrap_past (by omega) (by omega)] at hsz
    cases cs with
    | nil =>
      cases h
      exact ⟨hlen, .inl rfl⟩
    | cons c cs =>
      rw [List.forall_mem_cons] at hle
      have hc := hle.1
      rw [HistorySize] at hc
      have hcomes : Comes A b (wrap (b.len + c.length)) (Reached l) := by
        intro ok b₁ hgrow
        refine grow_negative (grows_reached l) (by omega) ?_ (fun _ => reached_first hsz) hgrow
        rw [hlen, wrap_of_range (by omega) (by omega)]
        omega
      rw [inflatezlib] at h
      obtain ⟨⟨r, b₁⟩, happend, h⟩ := Option.bind_eq_some_iff.mp h
      dsimp only at h
      rcases bappend_sized hcomes hlen happend with ⟨hr, hlen₁⟩ | ⟨hr, hlen₁, hsized, hsz₁, hmore⟩
      · have hne : r ≠ c.length := by omega
        have htaken := @taken_fail A b b₁ c cs r happend hne
        rw [if_neg hne] at h
        cases h
        rw [htaken]
        exact ⟨hlen₁, .inl rfl⟩
      · have htaken := @taken_cons A b b₁ c cs r happend hr
        rw [if_pos hr] at h
        obtain ⟨hlen', hbound⟩ := taken_sized (grows_reached l) hsized hsz₁ hlen₁ h
        rw [htaken, List.length_append, ← Nat.add_assoc]
        refine ⟨hlen', .inr ?_⟩
        rcases hbound with hnil | hbound
        · rw [hnil]
          exact ⟨b₁.sz, hsz₁, hsized.int, hmore⟩
        · exact hbound
  · have hvalue : b.sz = ((64 + l) % 2 ^ 32 : ℕ) := by
      by_cases hbig : 64 + l < 2 ^ 31
      · rw [hsz, wrap_of_range (by omega) (by omega), Nat.mod_eq_of_lt (by omega)]
        rfl
      · rw [hsz, wrap_past (by omega) (by omega)]
        omega
    have hsized : b.Sized := ⟨by omega, by rw [hvalue, hroom], by omega⟩
    exact taken_sized (grows_reached l) hsized (fun hlow hhigh => by omega) hlen h

/-- As many bytes as were declared are taken only if an `int` can hold them with the header. -/
theorem packed_small {cs : List (List UInt8)} (hl : l < 2 ^ 32) (hb : packbuf t l = some b)
    (hle : ∀ c ∈ cs, c.length ≤ HistorySize) (h : inflatezlib A b cs = some (ok, b'))
    (htaken : (taken A b cs).length = l) : 64 + l < 2 ^ 31 := by
  by_contra hbig
  rcases (packed_len hl hb hle h).2 with hnil | ⟨sz, hreached, hint, hroom⟩
  · rw [hnil] at htaken
    simp only [List.length_nil] at htaken
    omega
  · rw [htaken] at hroom
    obtain ⟨j, hj⟩ := hreached (by omega) (by omega)
    have hpast := @no_size j (l + 64 - 2 ^ 31) (by omega) (by omega)
    omega

/-- The buffer of `readpacked` with `body` behind the header. -/
def filled (t : Otype) (l : ℕ) (body : List UInt8) : Buf :=
  ⟨((header t l).length + body.length : ℕ), 64 + l,
    some (header t l ++ body ++ List.replicate (64 + l - ((header t l).length + body.length)) 0)⟩

/-- There is no room in the buffer for what comes next, and `realloc` gives none. -/
def Refuses (A : Realloc) (b : Buf) (cs : List (List UInt8)) : Prop :=
  ∃ c ∈ cs.head?, ∃ b', bappend A b c = some (-1, b')

/-- `l` bytes come, and behind them there are no more, or none for which there is room. The `int` that
counts them with the header does not overflow. -/
def Inflates (A : Realloc) (t : Otype) (l : ℕ) (cs : List (List UInt8)) : Prop :=
  64 + l < 2 ^ 31 ∧ ∃ cs₁ cs₂, cs = cs₁ ++ cs₂ ∧ cs₁.flatten.length = l ∧
    (cs₂ = [] ∨ Refuses A (filled t l cs₁.flatten) cs₂)

theorem not_refuses {c : List UInt8} {cs : List (List UInt8)} (h : bappend A b c = some ((c.length : ℤ), b')) :
    ¬ Refuses A b (c :: cs) := by
  rintro ⟨x, hx, b₁, hrefused⟩
  cases hx
  rw [h] at hrefused
  have hcode := congrArg Prod.fst (Option.some.inj hrefused)
  dsimp only at hcode
  omega

theorem packbuf_filled (hl : 64 + l < 2 ^ 31) : packbuf t l = some (filled t l []) := by
  have hlen := header_length t (show l < 2 ^ 32 by omega)
  rw [packbuf, snprint_eq t (by omega), store,
    if_pos (by rw [List.length_replicate, Nat.mod_eq_of_lt (by omega)]; omega), filled]
  rw [wrap_of_range (by omega) (by omega), Nat.mod_eq_of_lt (by omega)]
  simp only [List.take_zero, List.nil_append, List.drop_replicate, List.append_nil, List.length_nil, Nat.add_zero,
    Nat.zero_add, Option.bind_eq_bind, Option.bind_some, Option.pure_def]

theorem filled_sized {body : List UInt8} (hl : 64 + l < 2 ^ 31) (hbody : body.length ≤ l) : (filled t l body).Sized := by
  have hlen := header_length t (show l < 2 ^ 32 by omega)
  refine ⟨?_, ?_, ?_⟩
  · rw [filled]
    dsimp only
    omega
  · rw [filled, Option.getD_some]
    simp only [List.length_append, List.length_replicate]
    omega
  · rw [filled]
    dsimp only
    omega

/-- Bytes up to the declared length go into the buffer as it is. -/
theorem bappend_filled {body : List UInt8} (hl : 64 + l < 2 ^ 31) (hbody : body.length + src.length ≤ l) :
    bappend A (filled t l body) src = some ((src.length : ℤ), filled t l (body ++ src)) := by
  have hlen := header_length t (show l < 2 ^ 32 by omega)
  have hroom : (((header t l).length + body.length + src.length : ℕ) : ℤ) < (filled t l body).sz := by
    rw [filled]
    dsimp only
    omega
  have hdata : ((filled t l body).data.getD []).take ((header t l).length + body.length) = header t l ++ body := by
    rw [filled, Option.getD_some, ← List.length_append, List.take_left]
  have hrest : ((filled t l body).data.getD []).drop ((header t l).length + body.length + src.length) =
      List.replicate (64 + l - ((header t l).length + (body ++ src).length)) 0 := by
    rw [filled, Option.getD_some, ← List.drop_drop, ← List.length_append, List.drop_left, List.drop_replicate,
      List.length_append, List.length_append]
    congr 1
    omega
  rw [bappend_room rfl (filled_sized hl (by omega)) hroom, hdata, hrest, filled, filled, List.length_append,
    Nat.add_assoc]
  simp only [List.append_assoc]

/-- With `body` in the buffer, the pieces come to `l` bytes and stop there. -/
def Stops (A : Realloc) (t : Otype) (l : ℕ) (body : List UInt8) (cs : List (List UInt8)) : Prop :=
  ∃ cs₁ cs₂, cs = cs₁ ++ cs₂ ∧ (body ++ cs₁.flatten).length = l ∧
    (cs₂ = [] ∨ Refuses A (filled t l (body ++ cs₁.flatten)) cs₂)

theorem stops_nil {body : List UInt8} : Stops A t l body [] ↔ body.length = l := by
  constructor
  · rintro ⟨cs₁, cs₂, heq, hlen, -⟩
    rwa [(List.nil_eq_append_iff.mp heq).1, List.flatten_nil, List.append_nil] at hlen
  · intro hlen
    refine ⟨[], [], rfl, ?_, .inl rfl⟩
    rwa [List.flatten_nil, List.append_nil]

/-- They stop in front of the first piece or behind it. -/
theorem stops_cons {body c : List UInt8} {cs : List (List UInt8)} :
    Stops A t l body (c :: cs) ↔
      body.length = l ∧ Refuses A (filled t l body) (c :: cs) ∨ Stops A t l (body ++ c) cs := by
  constructor
  · rintro ⟨cs₁, cs₂, heq, hlen, hend⟩
    rcases List.cons_eq_append_iff.mp heq with ⟨rfl, rfl⟩ | ⟨cs₁, rfl, rfl⟩
    · rw [List.flatten_nil, List.append_nil] at hlen hend
      exact .inl ⟨hlen, hend.resolve_left (List.cons_ne_nil c cs)⟩
    · rw [List.flatten_cons, ← List.append_assoc] at hlen hend
      exact .inr ⟨cs₁, cs₂, rfl, hlen, hend⟩
  · rintro (⟨hlen, hrefused⟩ | ⟨cs₁, cs₂, rfl, hlen, hend⟩)
    · refine ⟨[], c :: cs, rfl, ?_, .inr ?_⟩
      · rwa [List.flatten_nil, List.append_nil]
      · rwa [List.flatten_nil, List.append_nil]
    · rw [List.append_assoc] at hlen hend
      exact ⟨c :: cs₁, cs₂, rfl, hlen, hend⟩

theorem Stops.length_le {body : List UInt8} {cs : List (List UInt8)} (h : Stops A t l body cs) : body.length ≤ l := by
  obtain ⟨cs₁, cs₂, -, hlen, -⟩ := h
  rw [List.length_append] at hlen
  omega

/-- The bytes taken come to the declared length just when the stream is that long, or the room for the
rest of it is refused. -/
theorem filled_taken {cs : List (List UInt8)} {body : List UInt8} (hl : 64 + l < 2 ^ 31) (hbody : body.length ≤ l)
    (h : (inflatezlib A (filled t l body) cs).isSome) :
    body.length + (taken A (filled t l body) cs).length = l ↔ Stops A t l body cs := by
  induction cs generalizing body with
  | nil =>
    rw [taken, List.length_nil, Nat.add_zero]
    exact stops_nil.symm
  | cons c cs ih =>
    rw [inflatezlib] at h
    rw [stops_cons]
    by_cases hmore : body.length + c.length ≤ l
    · -- there is room for all of the piece
      have happend := @bappend_filled A t l c body hl hmore
      have htaken := @taken_cons _ _ _ _ cs _ happend rfl
      rw [happend] at h
      simp only [Option.bind_eq_bind, Option.bind_some, if_true] at h
      rw [htaken, List.length_append, ← Nat.add_assoc, ← List.length_append,
        ih (by rw [List.length_append]; exact hmore) h]
      exact (or_iff_right fun hstop => not_refuses happend hstop.2).symm
    · -- a piece that is taken takes the count past the length
      have hpast : ¬ Stops A t l (body ++ c) cs := by
        intro hstops
        have hle := hstops.length_le
        rw [List.length_append] at hle
        omega
      obtain ⟨⟨r, b₁⟩, happend⟩ : ∃ v, bappend A (filled t l body) c = some v := by
        rw [← Option.isSome_iff_exists]
        by_contra hnone
        rw [Option.not_isSome_iff_eq_none] at hnone
        rw [hnone] at h
        cases h
      have htrue : Grows fun _ => True := fun _ _ _ _ _ => trivial
      have hlen : (filled t l body).len = ((header t l).length + body.length : ℕ) := by rw [filled]
      rcases bappend_sized ((filled_sized hl hbody).comes htrue trivial _) hlen happend with ⟨rfl, -⟩ | ⟨rfl, -⟩
      · have htaken := @taken_fail _ _ _ _ cs _ happend (by omega)
        rw [htaken, List.length_nil, Nat.add_zero, or_iff_left hpast]
        exact (and_iff_left ⟨c, rfl, b₁, happend⟩).symm
      · have htaken := @taken_cons _ _ _ _ cs _ happend rfl
        rw [htaken, List.length_append, or_iff_left hpast]
        constructor
        · omega
        · intro hstop
          exact absurd hstop.2 (not_refuses happend)

theorem inflates_iff {cs : List (List UInt8)} (hl : 64 + l < 2 ^ 31)
    (h : (inflatezlib A (filled t l []) cs).isSome) :
    (taken A (filled t l []) cs).length = l ↔ Inflates A t l cs := by
  have htaken := @filled_taken A t l cs [] hl (Nat.zero_le l) h
  rw [List.length_nil, Nat.zero_add] at htaken
  rw [htaken, Inflates]
  exact (and_iff_right hl).symm

/-- What `readpacked` makes of an entry that is no delta. -/
theorem readwhole_spec {z : Stream} {o : Loaded} (hl : l < 2 ^ 32) (h : readwhole A t l z = some (.ok o)) :
    ∃ b b' ok, packbuf t l = some b ∧ inflatezlib A b z.pieces = some (ok, b') ∧
      o = ⟨t, b'.data.getD [], (header t l).length, (taken A b z.pieces).length⟩ := by
  rw [readwhole] at h
  obtain ⟨b, hb, h⟩ := Option.bind_eq_some_iff.mp h
  obtain ⟨res, hres, h⟩ := Option.bind_eq_some_iff.mp h
  rw [bdecompress] at hres
  obtain ⟨⟨ok, b'⟩, hinflate, hres⟩ := Option.bind_eq_some_iff.mp hres
  dsimp only at hres
  refine ⟨b, b', ok, hb, hinflate, ?_⟩
  obtain ⟨hlen, hbound⟩ := packed_len hl hb z.le hinflate
  have hsize : wrap (b'.len - (header t l).length) = (taken A b z.pieces).length := by
    have hdiff : b'.len - (header t l).length = (taken A b z.pieces).length := by omega
    rw [hdiff]
    rcases hbound with hnil | ⟨sz, -, hint, hroom⟩
    · rw [hnil]
      rfl
    · exact wrap_of_range (by omega) (by omega)
  by_cases hfail : (if ok = true then z.code else FlateOutputFail) = -1 ∨ b'.data = none
  · rw [if_pos hfail] at hres
    cases hres
    cases h
  · rw [if_neg hfail] at hres
    cases hres
    rw [snprint_eq t hl] at h
    cases h
    rw [← hsize]

theorem readwhole_iff {z : Stream} {o : Loaded} (hl : l < 2 ^ 32) (h : readwhole A t l z = some (.ok o)) :
    Consistent o ∧ o.size = l ↔ Inflates A t l z.pieces := by
  obtain ⟨b, b', ok, hb, hinflate, rfl⟩ := readwhole_spec hl h
  constructor
  · rintro ⟨-, hsize⟩
    have htaken : (taken A b z.pieces).length = l := Int.ofNat_inj.mp hsize
    have hsmall := packed_small hl hb z.le hinflate htaken
    rw [packbuf_filled hsmall] at hb
    cases hb
    exact (inflates_iff hsmall (by rw [hinflate]; rfl)).mp htaken
  · intro hinflates
    have hsmall := hinflates.1
    have hlen := header_length t hl
    rw [packbuf_filled hsmall] at hb
    cases hb
    have htaken := (inflates_iff hsmall (by rw [hinflate]; rfl)).mpr hinflates
    have hfront : header t l ++ taken A (filled t l []) z.pieces <+: b'.data.getD [] := by
      refine @exact_keeps A _ _ _ l (header t l).length _ _ (filled_sized hsmall (Nat.zero_le l)) ?_ ?_ ?_ (by omega) ?_
        z.full z.le ?_ hinflate
      · rw [filled]
      · rw [filled, List.length_nil, Nat.add_zero]
      · rw [filled, Option.getD_some, List.append_nil]
        exact List.prefix_append _ _
      · rw [htaken]
      · intro _
        exact ⟨by rw [Nat.sub_self]; exact dvd_zero _, Nat.le_refl _⟩
    have hroom := hfront.length_le
    rw [List.length_append, htaken] at hroom
    refine ⟨⟨l, ?_, (List.prefix_append _ _).trans hfront, rfl, hroom⟩, ?_⟩
    · dsimp only
      rw [htaken]
    · dsimp only
      rw [htaken]

/-- A stream of one piece that is not longer than declared. -/
theorem readwhole_piece {z : Stream} {c : List UInt8} (hl : 64 + l < 2 ^ 31) (hc : c.length ≤ l)
    (hz : z.pieces = [c]) (hcode : z.code ≠ -1) :
    readwhole A t l z = some (.ok ⟨t, (filled t l c).data.getD [], (header t l).length, c.length⟩) := by
  have happend := @bappend_filled A t l c [] hl (by rw [List.length_nil]; omega)
  have hsome : (filled t l c).data ≠ none := by simp [filled]
  have hsize : wrap ((filled t l c).len - (header t l).length) = c.length := by
    have hdiff : (filled t l c).len - (header t l).length = c.length := by
      rw [filled]
      dsimp only
      omega
    rw [hdiff, wrap_of_range (by omega) (by omega)]
  rw [List.nil_append] at happend
  rw [readwhole, packbuf_filled hl, Option.bind_eq_bind, Option.bind_some, bdecompress, hz, inflatezlib, happend]
  simp only [Option.bind_eq_bind, Option.bind_some, if_true, inflatezlib]
  rw [if_neg (by simp [hcode, hsome]), snprint_eq t (by omega)]
  simp only [Option.pure_def, Option.bind_some, hsize]

/-- The header fits, but for lengths from where `64 + l` comes round and the room is the rest. -/
theorem header_fits (hl : l < 2 ^ 32) :
    (packbuf t l).isSome ↔ l < 2 ^ 32 - 64 ∨ 2 ^ 32 - 64 + (header t l).length ≤ l := by
  have hlen := header_length t hl
  rw [packbuf_isSome hl]
  omega

end Packed

section Delta

/-- The length in the header of an entry fits in 32 bits. -/
theorem readhdr_lt {f rest : List UInt8} {t l : ℕ} (h : readhdr f = .ok (t, l, rest)) : l < 2 ^ 32 := by
  cases f with
  | nil => cases h
  | cons c f =>
    rw [readhdr] at h
    split at h
    · cases h
    · split at h
      · cases h
      · rename_i l' f' hlen
        split at h
        · cases h
        · rename_i hsmall
          cases h
          rw [Nat.shiftLeft_eq] at hsmall
          omega

/-- What `applydelta` makes is consistent, whatever the base was. -/
theorem applydelta_consistent {base o : Object} {d : List UInt8} (h : applydelta base d = .ok o) :
    Consistent o.loaded := by
  rw [applydelta] at h
  split at h
  · cases h
  split at h
  · cases h
  split at h
  · cases h
  rename_i nr cmds hnr
  split at h
  · cases h
  cases hcmds : applycmds base.data nr [] cmds with
  | error e =>
    rw [hcmds] at h
    cases h
  | ok r =>
    rw [hcmds] at h
    cases h
    obtain ⟨-, -, -, hlen⟩ := applycmds_produces hcmds
    refine ⟨r.length, rfl, ?_, ?_, ?_⟩
    · rw [Object.loaded, hlen]
      exact List.prefix_append _ _
    · simp only [Object.loaded, List.length_append, hlen, Nat.add_sub_cancel]
    · simp only [Object.loaded, List.length_append]
      omega

variable {A : Realloc}

theorem loaddelta_consistent {z : Stream} {nd : ℤ} {base : Option (Except String Loaded)} {o : Loaded}
    (h : loaddelta A z nd base = some (.ok o)) : Consistent o := by
  rw [loaddelta] at h
  obtain ⟨d, hd, h⟩ := Option.bind_eq_some_iff.mp h
  cases d with
  | none => cases h
  | some d =>
    dsimp only at h
    by_cases hlen : d.len ≠ nd
    · rw [if_pos hlen] at h
      cases h
    · rw [if_neg hlen] at h
      obtain ⟨b, hb, h⟩ := Option.bind_eq_some_iff.mp h
      cases b with
      | error e => cases h
      | ok b =>
        obtain ⟨b', hb', h⟩ := Option.bind_eq_some_iff.mp h
        cases b' with
        | error e => cases h
        | ok b' =>
          cases ho : applydelta b' ((d.data.getD []).take d.len.toNat) with
          | error e =>
            simp only [ho] at h
            cases h
          | ok o' =>
            simp only [ho] at h
            cases h
            exact applydelta_consistent ho

/-- A delta, or an entry whose stream is as long as its header declares. -/
def Declared (A : Realloc) (inflate : List UInt8 → Stream) (f : List UInt8) : Prop :=
  ∀ t l rest, readhdr f = .ok (t, l, rest) → ∀ type, entrytype t = some type →
    type = .GOdelta ∨ type = .GRdelta ∨ Inflates A type l (inflate rest).pieces

/-- The size of an entry that is no delta is the declared one. -/
def Sizes (f : List UInt8) (o : Loaded) : Prop :=
  ∀ t l rest, readhdr f = .ok (t, l, rest) → t ≤ 4 → o.size = l

theorem entrytype_delta {t : ℕ} (h : entrytype t = some .GOdelta ∨ entrytype t = some .GRdelta) : 4 < t := by
  by_contra hsmall
  interval_cases t <;> simp [entrytype] at h

theorem entrytype_whole {t : ℕ} {type : Otype} (h : entrytype t = some type) (hodelta : type ≠ .GOdelta)
    (hrdelta : type ≠ .GRdelta) : t ≤ 4 := by
  unfold entrytype at h
  split at h
  all_goals first | omega | cases h
  · exact absurd rfl hodelta
  · exact absurd rfl hrdelta

/-- The switch of `readpacked`. -/
theorem readpacked_switch {inflate : List UInt8 → Stream} {lookup : Hash → Option (Except String Loaded)}
    {f rest : List UInt8} {fuel p t l : ℕ} {self : Hash} {o : Loaded} (hhdr : readhdr (f.drop p) = .ok (t, l, rest))
    (h : readpacked A inflate lookup f fuel self p = some (.ok o)) :
    (4 < t ∧ (entrytype t = some .GOdelta ∨ entrytype t = some .GRdelta) ∧ Consistent o) ∨
      ∃ type, t ≤ 4 ∧ entrytype t = some type ∧ type ≠ .GOdelta ∧ type ≠ .GRdelta ∧
        readwhole A type l (inflate rest) = some (.ok o) := by
  cases fuel with
  | zero => cases h
  | succ fuel =>
    rw [readpacked, hhdr] at h
    dsimp only at h
    split at h
    · cases h
    · rename_i htype
      refine .inl ⟨entrytype_delta (.inl htype), .inl htype, ?_⟩
      split at h
      · cases h
      · split at h
        · cases h
        · exact loaddelta_consistent h
    · rename_i htype
      refine .inl ⟨entrytype_delta (.inr htype), .inr htype, ?_⟩
      split at h
      · split at h
        · cases h
        · exact loaddelta_consistent h
      · cases h
    · rename_i type hodelta hrdelta htype
      refine .inr ⟨type, entrytype_whole htype hodelta hrdelta, htype, hodelta, hrdelta, h⟩

theorem readpacked_iff {inflate : List UInt8 → Stream} {lookup : Hash → Option (Except String Loaded)} {f : List UInt8}
    {fuel p : ℕ} {self : Hash} {o : Loaded} (h : readpacked A inflate lookup f fuel self p = some (.ok o)) :
    Consistent o ∧ Sizes (f.drop p) o ↔ Declared A inflate (f.drop p) := by
  cases hhdr : readhdr (f.drop p) with
  | error e =>
    cases fuel with
    | zero => cases h
    | succ fuel =>
      rw [readpacked, hhdr] at h
      cases h
  | ok v =>
    obtain ⟨t, l, rest⟩ := v
    rw [Sizes, Declared, hhdr]
    rcases readpacked_switch hhdr h with ⟨ht, htype, hcons⟩ | ⟨type, ht, htype, hodelta, hrdelta, hwhole⟩
    · refine iff_of_true ⟨hcons, ?_⟩ ?_
      · intro t' l' rest' heq hsmall
        cases heq
        omega
      · intro t' l' rest' heq type' htype'
        cases heq
        rcases htype with htype | htype
        · rw [htype] at htype'
          exact .inl (Option.some.inj htype').symm
        · rw [htype] at htype'
          exact .inr (.inl (Option.some.inj htype').symm)
    · have hiff := readwhole_iff (readhdr_lt hhdr) hwhole
      constructor
      · rintro ⟨hcons, hsize⟩ t' l' rest' heq type' htype'
        cases heq
        rw [htype] at htype'
        cases htype'
        exact .inr (.inr (hiff.mp ⟨hcons, hsize t l rest rfl ht⟩))
      · intro hall
        rcases hall t l rest rfl type htype with hdelta | hdelta | hinflates
        · exact absurd hdelta hodelta
        · exact absurd hdelta hrdelta
        · obtain ⟨hcons, hsize⟩ := hiff.mpr hinflates
          refine ⟨hcons, ?_⟩
          intro t' l' rest' heq _
          cases heq
          exact hsize

end Delta

end Petele.Git
