import Petele.Git.Loaders

namespace Petele.Git

open Lib Libc

/-! `readloose` reads the memory that `decompress` left as text. To read past its end is `none`. -/

def types : List (String × Otype) := [("blob", .GBlob), ("tree", .GTree), ("commit", .GCommit), ("tag", .GTag)]

/-- `strncmp(s, tag, strlen(tag)) == 0`. -/
def strncmp : List Char → List Char → Option Bool
  | _, [] => some true
  | [], _ :: _ => none
  | c :: s, x :: tag => if c = x then strncmp s tag else some false

/-- The first tag that the text begins with: its type and its length. -/
def findtype (s : List Char) : List (String × Otype) → Option (Option (Otype × ℕ))
  | [] => some none
  | (tag, type) :: ps => do
    if ← strncmp s tag.toList then return some (type, tag.length) else findtype s ps

/-- `while(s != ed && !isspace(*s)) s++`, from offset `p` on. -/
def skipword (ed : ℤ) : ℕ → List Char → Option (List Char)
  | p, [] => if (p : ℤ) = ed then some [] else none
  | p, c :: s => if (p : ℤ) = ed ∨ space c then some (c :: s) else skipword ed (p + 1) s

/-- `readloose` behind `decompress`, which left `n` bytes at `d`. -/
def parseloose (n : ℤ) (d : List UInt8) : Option (Except String Loaded) := do
  let text := d.map fun b => Char.ofNat b.toNat
  match ← findtype text types with
  | none => return .error ""
  | some (type, l) =>
    let s ← skipword n l (text.drop l)
    let (sz, e) ← strtol s
    if e.length = s.length then return .error "malformed object header"
    else
      let c ← e.head?
      if c ≠ '\x00' then return .error "malformed object header"
      else
        let data := text.length - e.tail.length
        if sz ≠ n - data then return .error "mismatched sizes"
        else return .ok ⟨type, d, data, sz⟩

def readloose (A : Realloc) (z : Stream) : Option (Except String Loaded) := do
  match ← decompress A z with
  | none => return .error ""
  | some d => parseloose d.len (d.data.getD [])

section Text

/-- The bytes of ASCII text read as characters. -/
theorem ascii_chars (l : List Char) (h : ∀ c ∈ l, c.utf8Size = 1) :
    l.utf8Encode.data.toList.map (fun b => Char.ofNat b.toNat) = l := by
  induction l with
  | nil => rfl
  | cons c l ih =>
    have hc := h c List.mem_cons_self
    have hrest := ih fun x hx => h x (List.mem_cons_of_mem _ hx)
    have hbyte : Char.ofNat c.val.toUInt8.toNat = c := by
      have hval := UInt32.le_iff_toNat_le.mp (Char.utf8Size_eq_one_iff.mp hc)
      rw [UInt32.toNat_toUInt8, Nat.mod_eq_of_lt (Nat.lt_of_le_of_lt hval (by decide))]
      exact Char.ofNat_toNat c
    rw [List.utf8Encode_cons, List.utf8Encode_singleton, String.utf8EncodeChar_eq_singleton hc,
      ByteArray.data_append, Array.toList_append, List.map_append, hrest]
    exact congrArg (· :: l) hbyte

theorem header_ascii (t : Otype) (k : ℕ) : ∀ c ∈ (Tfmt t).toList ++ ' ' :: Nat.toDigits 10 k, c.utf8Size = 1 := by
  intro c hc
  rcases List.mem_append.mp hc with htype | hrest
  · have hall : (Tfmt t).toList.all (fun c => c.utf8Size == 1) = true := by cases t <;> rfl
    exact beq_iff_eq.mp (List.all_eq_true.mp hall c htype)
  · rcases List.mem_cons.mp hrest with rfl | hdigit
    · decide
    · exact digit_utf8Size hdigit

/-- The characters of a header. -/
theorem header_chars (t : Otype) (k : ℕ) :
    (header t k).map (fun b => Char.ofNat b.toNat) = (Tfmt t).toList ++ ' ' :: (Nat.toDigits 10 k ++ ['\x00']) := by
  have hlist : (Tfmt t ++ " " ++ toString k).toList = (Tfmt t).toList ++ ' ' :: Nat.toDigits 10 k := by
    rw [String.toList_append, String.toList_append, Nat.toString_eq_repr, Nat.repr_eq_ofList_toDigits,
      List.append_assoc, String.toList_ofList, String.toList_ofList, List.singleton_append]
  have hutf : (Tfmt t ++ " " ++ toString k).toUTF8 = ((Tfmt t).toList ++ ' ' :: Nat.toDigits 10 k).utf8Encode := by
    rw [← hlist, ← String.toByteArray_ofList, String.ofList_toList]
    rfl
  rw [header, hutf, List.map_append, ascii_chars _ (header_ascii t k), List.append_assoc]
  rfl

end Text

section Loose

/-- The tag of a type is found, and a text that begins with the name of a type that has none is refused. -/
theorem findtype_Tfmt (t : Otype) (tail : List Char) :
    findtype ((Tfmt t).toList ++ ' ' :: tail) types = some (some (t, (Tfmt t).toList.length)) ∨
      findtype ((Tfmt t).toList ++ ' ' :: tail) types = some none := by
  cases t with
  | GNone => exact .inr rfl
  | GCommit => exact .inl rfl
  | GTree => exact .inl rfl
  | GBlob => exact .inl rfl
  | GTag => exact .inl rfl
  | GOdelta => exact .inr rfl
  | GRdelta => exact .inr rfl

theorem digit_nul (base : ℕ) : digit base '\x00' = base := by
  rw [digit, if_neg (by decide), if_neg (by decide), if_neg (by decide)]

/-- A header as it is written is read for what it is. -/
theorem parseloose_header {t : Otype} {n : ℤ} {body junk : List UInt8} {o : Loaded}
    (hn : n = ((header t body.length).length + body.length : ℕ)) (hint : n < 2 ^ 31)
    (h : parseloose n (header t body.length ++ (body ++ junk)) = some (.ok o)) :
    o = ⟨t, header t body.length ++ (body ++ junk), (header t body.length).length, body.length⟩ := by
  obtain ⟨tail, htail⟩ : ∃ tail, tail = (body ++ junk).map fun b => Char.ofNat b.toNat := ⟨_, rfl⟩
  have htext : (header t body.length ++ (body ++ junk)).map (fun b => Char.ofNat b.toNat) =
      (Tfmt t).toList ++ ' ' :: (Nat.toDigits 10 body.length ++ '\x00' :: tail) := by
    rw [List.map_append, header_chars, ← htail]
    simp only [List.append_assoc, List.cons_append, List.nil_append]
  have hlen : ((Tfmt t).toList ++ ' ' :: (Nat.toDigits 10 body.length ++ '\x00' :: tail)).length - tail.length =
      (header t body.length).length := by
    rw [← htext, List.length_map, List.length_append, htail, List.length_map, Nat.add_sub_cancel]
  have hstrtol := strtol_dec (show body.length < 2 ^ 31 by omega) digit_nul tail
  rw [parseloose, htext] at h
  rcases findtype_Tfmt t (Nat.toDigits 10 body.length ++ '\x00' :: tail) with htype | htype
  · simp only [htype, Option.bind_eq_bind, Option.bind_some] at h
    rw [List.drop_left, skipword, if_pos (.inr rfl), Option.bind_some, hstrtol, Option.bind_some] at h
    rw [if_neg (by simp only [List.length_cons, List.length_append]; omega), List.head?_cons, Option.bind_some,
      if_neg (by simp), List.tail_cons, hlen, if_neg (by omega)] at h
    cases h
    rfl
  · simp only [htype, Option.bind_eq_bind, Option.bind_some] at h
    cases h

theorem parseloose_size {n : ℤ} {d : List UInt8} {o : Loaded} (h : parseloose n d = some (.ok o)) :
    o.all = d ∧ o.size = n - o.data := by
  rw [parseloose] at h
  obtain ⟨p, hp, h⟩ := Option.bind_eq_some_iff.mp h
  cases p with
  | none => cases h
  | some p =>
    obtain ⟨type, l⟩ := p
    obtain ⟨s, hs, h⟩ := Option.bind_eq_some_iff.mp h
    obtain ⟨⟨sz, e⟩, he, h⟩ := Option.bind_eq_some_iff.mp h
    dsimp only at h
    split at h
    · cases h
    · obtain ⟨c, hc, h⟩ := Option.bind_eq_some_iff.mp h
      split at h
      · cases h
      · split at h
        · cases h
        · rename_i hsize
          cases h
          exact ⟨rfl, not_ne_iff.mp hsize⟩

/-- The text of an object: the header for the bytes that follow it. -/
def Canonical (text : List UInt8) : Prop := ∃ t body, text = header t body.length ++ body

/-- A loose object is consistent just when its text is as it would have been written. -/
theorem readloose_iff {A : Realloc} {z : Stream} {o : Loaded} (h : readloose A z = some (.ok o)) :
    Consistent o ↔ Canonical (taken A ⟨0, 0, none⟩ z.pieces) := by
  rw [readloose] at h
  obtain ⟨d, hd, h⟩ := Option.bind_eq_some_iff.mp h
  cases d with
  | none => cases h
  | some d =>
    obtain ⟨mem, hmem, hlen, hint, htext⟩ := decompress_spec hd
    dsimp only at h
    rw [hmem, Option.getD_some] at h
    obtain ⟨junk, rfl⟩ := htext
    obtain ⟨text, heq⟩ : ∃ text, text = taken A ⟨0, 0, none⟩ z.pieces := ⟨_, rfl⟩
    rw [← heq] at h hlen ⊢
    constructor
    · rintro ⟨k, hk, hheader, hdata, hroom⟩
      obtain ⟨hall, hsize⟩ := parseloose_size h
      rw [hall] at hheader
      have hshort : (header o.type k).length ≤ text.length := by omega
      obtain ⟨body, hbody⟩ := List.prefix_of_prefix_length_le hheader (List.prefix_append _ _) hshort
      have hcount := congrArg List.length hbody
      rw [List.length_append] at hcount
      have hk' : body.length = k := by omega
      exact ⟨o.type, body, by rw [hk', hbody]⟩
    · rintro ⟨t, body, rfl⟩
      rw [List.append_assoc] at h
      rw [List.length_append] at hlen
      rw [parseloose_header hlen hint h]
      refine ⟨body.length, rfl, List.prefix_append _ _, rfl, ?_⟩
      dsimp only
      simp only [List.length_append]
      omega

/-- When a loaded object is consistent. `applydelta` makes no other, and the header it writes fits. An
entry of a pack that is no delta is consistent and of the declared size just when its stream inflates
to that many bytes, and the room for its header is short for some lengths of `2 ^ 32 - 64` and more. A
loose object is consistent just when the inflated text is a header as it would have been written with
as many bytes behind it as it tells. -/
theorem loaders_consistent_iff (A : Realloc) :
    (∀ base d, ∃ res, applydeltaat base d = some res ∧ ∀ o, res = .ok o → Consistent o.loaded) ∧
    (∀ inflate lookup f fuel self p o, readpacked A inflate lookup f fuel self p = some (.ok o) →
      (Consistent o ∧ Sizes (f.drop p) o ↔ Declared A inflate (f.drop p))) ∧
    (∀ t l, l < 2 ^ 32 → ((packbuf t l).isSome ↔ l < 2 ^ 32 - 64 ∨ 2 ^ 32 - 64 + (header t l).length ≤ l)) ∧
    ∀ z o, readloose A z = some (.ok o) → (Consistent o ↔ Canonical (taken A ⟨0, 0, none⟩ z.pieces)) := by
  refine ⟨?_, ?_, ?_, ?_⟩
  · intro base d
    refine ⟨applydelta base d, applydeltaat_eq base d, ?_⟩
    intro o ho
    exact applydelta_consistent ho
  · intro inflate lookup f fuel self p o h
    exact readpacked_iff h
  · intro t l hl
    exact header_fits hl
  · intro z o h
    exact readloose_iff h

/-- A `realloc` that never fails. -/
def plenty : Realloc where
  realloc p n := some ((p.getD []).take n ++ List.replicate (n - (p.getD []).length) 0)
  len p n q h := by
    cases h
    rw [List.length_append, List.length_take, List.length_replicate]
    omega
  keeps p n q h := by
    cases h
    exact List.prefix_append _ _

/-- A stream that inflates to one byte. -/
def oneByte : Stream := ⟨[[65]], 0, by simp, by simp [HistorySize]⟩

theorem readpacked_oneByte (A : Realloc) {l : ℕ} (hl : 64 + l < 2 ^ 31) (hpos : 1 ≤ l) {f rest : List UInt8}
    (h : readhdr f = .ok (3, l, rest)) :
    readpacked A (fun _ => oneByte) (fun _ => none) f 1 Zhash 0 =
      some (.ok ⟨.GBlob, (filled .GBlob l [65]).data.getD [], (header .GBlob l).length, 1⟩) := by
  rw [readpacked, List.drop_zero, h]
  exact readwhole_piece hl hpos rfl (by decide)

theorem loaders_consistent_iff_oneByte :
    ∃ o, readpacked plenty (fun _ => oneByte) (fun _ => none) [0x31] 1 Zhash 0 = some (.ok o) ∧
      Consistent o ∧ Sizes [0x31] o := by
  have hhdr : readhdr [0x31] = .ok (3, 1, []) := rfl
  have hread := readpacked_oneByte plenty (by decide) (by decide) hhdr
  refine ⟨_, hread, ((loaders_consistent_iff plenty).2.1 _ _ _ _ _ _ _ hread).mpr ?_⟩
  intro t l rest h type htype
  cases hhdr.symm.trans h
  cases htype
  exact .inr (.inr ⟨by decide, [[65]], [], rfl, rfl, .inl rfl⟩)

/-- A blob that declares five bytes and inflates to one is loaded, with a header that tells five and a
size of one. -/
theorem readpacked_short :
    ∃ o, readpacked plenty (fun _ => oneByte) (fun _ => none) [0x35] 1 Zhash 0 = some (.ok o) ∧
      o.size = 1 ∧ ¬ Consistent o ∧ ¬ Sizes [0x35] o := by
  have hhdr : readhdr [0x35] = .ok (3, 5, []) := rfl
  have hread := readpacked_oneByte plenty (by decide) (by decide) hhdr
  refine ⟨_, hread, rfl, ?_, ?_⟩
  · rintro ⟨n, hn, hheader, -⟩
    cases Int.ofNat_inj.mp hn
    rw [filled, Option.getD_some, List.append_assoc] at hheader
    have hsame := List.prefix_of_prefix_length_le hheader (List.prefix_append _ _) (by decide)
    exact absurd (hsame.eq_of_length (by decide)) (by decide)
  · intro hsizes
    exact absurd (hsizes 3 5 [] hhdr (by decide)) (by decide)

end Loose

end Petele.Git
