import Petele.Lib.LittleEndian

namespace Petele.Lib

open LittleEndian

/-- A wire format: an encoder, a decoder that leaves the rest of its input,
and the two laws that make each the inverse of the other. -/
structure Format (α : Type) where
  enc : α → List UInt8
  dec : List UInt8 → Option (α × List UInt8)
  ok : α → Prop
  dec_enc : ∀ a r, ok a → dec (enc a ++ r) = some (a, r)
  enc_dec : ∀ bs a r, dec bs = some (a, r) → ok a ∧ bs = enc a ++ r

namespace Format

variable {α β : Type}

/-- No bytes at all. -/
def empty : Format Unit where
  enc _ := []
  dec bs := some ((), bs)
  ok _ := True
  dec_enc _ _ _ := rfl
  enc_dec _ _ _ h := by cases h; exact ⟨trivial, rfl⟩

/-- Exactly `n` bytes, as they stand. -/
def blob (n : ℕ) : Format (List UInt8) where
  enc bs := bs
  dec bs := if n ≤ bs.length then some (bs.take n, bs.drop n) else none
  ok bs := bs.length = n
  dec_enc a r h := by
    subst h
    simp
  enc_dec bs a r h := by
    split at h
    · cases h
      simp_all
    · cases h

/-- A word of `n` little-endian bytes held in a type of numbers below `256 ^ n`. -/
def word (n : ℕ) (toNat : α → ℕ) (ofNat : ℕ → α) (hlt : ∀ a, toNat a < 256 ^ n)
    (hof : ∀ a, ofNat (toNat a) = a) (hto : ∀ k, k < 256 ^ n → toNat (ofNat k) = k) : Format α where
  enc a := leBytes n (toNat a)
  dec bs := if n ≤ bs.length then some (ofNat (leVal (bs.take n)), bs.drop n) else none
  ok _ := True
  dec_enc a r _ := by
    have hn : n ≤ (leBytes n (toNat a) ++ r).length := by simp
    have htake : (leBytes n (toNat a) ++ r).take n = leBytes n (toNat a) := by simp
    have hdrop : (leBytes n (toNat a) ++ r).drop n = r := by simp
    rw [if_pos hn, htake, hdrop, leVal_leBytes, Nat.mod_eq_of_lt (hlt a), hof]
  enc_dec bs a r h := by
    split at h
    case isTrue hn =>
      cases h
      have hlen : (bs.take n).length = n := by simp [hn]
      have hval := leVal_lt (bs.take n)
      rw [hlen] at hval
      have hbytes := leBytes_leVal (bs.take n)
      rw [hlen] at hbytes
      rw [hto _ hval, hbytes, List.take_append_drop]
      exact ⟨trivial, rfl⟩
    case isFalse => cases h

/-- One format after the other. -/
def pair (A : Format α) (B : Format β) : Format (α × β) where
  enc x := A.enc x.1 ++ B.enc x.2
  dec bs := do
    let (a, r) ← A.dec bs
    let (b, r) ← B.dec r
    return ((a, b), r)
  ok x := A.ok x.1 ∧ B.ok x.2
  dec_enc x r h := by
    rw [List.append_assoc, A.dec_enc _ _ h.1]
    change (do let (b, r) ← B.dec (B.enc x.2 ++ r); pure ((x.1, b), r)) = _
    rw [B.dec_enc _ _ h.2]
    rfl
  enc_dec bs x r h := by
    simp only [Option.bind_eq_bind, Option.bind_eq_some_iff, Prod.exists] at h
    obtain ⟨a, r', ha, b, r'', hb, hx⟩ := h
    cases hx
    obtain ⟨hoka, rfl⟩ := A.enc_dec _ _ _ ha
    obtain ⟨hokb, rfl⟩ := B.enc_dec _ _ _ hb
    exact ⟨⟨hoka, hokb⟩, by simp⟩

def decRep (A : Format α) : ℕ → List UInt8 → Option (List α × List UInt8)
  | 0, bs => some ([], bs)
  | n + 1, bs => do
    let (a, r) ← A.dec bs
    let (l, r) ← decRep A n r
    return (a :: l, r)

theorem decRep_flatMap (A : Format α) (l : List α) (r : List UInt8) (h : ∀ a ∈ l, A.ok a) :
    A.decRep l.length (l.flatMap A.enc ++ r) = some (l, r) := by
  induction l with
  | nil => rfl
  | cons a l ih =>
    have hl := ih (fun b hb ↦ h b (List.mem_cons_of_mem _ hb))
    rw [List.length_cons, decRep, List.flatMap_cons, List.append_assoc, A.dec_enc _ _ (h a List.mem_cons_self)]
    simp [hl]

theorem decRep_sound (A : Format α) (n : ℕ) (bs : List UInt8) (l : List α) (r : List UInt8)
    (h : A.decRep n bs = some (l, r)) : (l.length = n ∧ ∀ a ∈ l, A.ok a) ∧ bs = l.flatMap A.enc ++ r := by
  induction n generalizing bs l with
  | zero => cases h; simp
  | succ n ih =>
    simp only [decRep, Option.bind_eq_bind, Option.bind_eq_some_iff, Prod.exists] at h
    obtain ⟨a, r', ha, l', r'', hl, hx⟩ := h
    cases hx
    obtain ⟨hoka, rfl⟩ := A.enc_dec _ _ _ ha
    obtain ⟨⟨hlen, hok⟩, rfl⟩ := ih _ _ hl
    refine ⟨⟨by rw [List.length_cons, hlen], ?_⟩, by simp⟩
    intro b hb
    rcases List.mem_cons.mp hb with rfl | hb
    · exact hoka
    · exact hok b hb

/-- `n` items in a row. -/
def rep (A : Format α) (n : ℕ) : Format (List α) where
  enc l := l.flatMap A.enc
  dec := A.decRep n
  ok l := l.length = n ∧ ∀ a ∈ l, A.ok a
  dec_enc l r h := by
    obtain ⟨rfl, hok⟩ := h
    exact decRep_flatMap A l r hok
  enc_dec := decRep_sound A n

/-- A count and then what it counts: `B n` holds only values of size `n`. -/
def counted (A : Format ℕ) (B : ℕ → Format β) (size : β → ℕ)
    (hsize : ∀ n b, (B n).ok b → size b = n) : Format β where
  enc b := A.enc (size b) ++ (B (size b)).enc b
  dec bs := do
    let (n, r) ← A.dec bs
    (B n).dec r
  ok b := A.ok (size b) ∧ (B (size b)).ok b
  dec_enc b r h := by
    rw [List.append_assoc, A.dec_enc _ _ h.1]
    exact (B (size b)).dec_enc _ _ h.2
  enc_dec bs b r h := by
    simp only [Option.bind_eq_bind, Option.bind_eq_some_iff, Prod.exists] at h
    obtain ⟨n, r', hn, hb⟩ := h
    obtain ⟨hokn, rfl⟩ := A.enc_dec _ _ _ hn
    obtain ⟨hokb, rfl⟩ := (B n).enc_dec _ _ _ hb
    rw [hsize n b hokb]
    exact ⟨⟨hokn, hokb⟩, by simp⟩

/-- The numbers of `n` little-endian bytes that are at most `m`. -/
def count (n m : ℕ) : Format ℕ where
  enc v := leBytes n v
  dec bs :=
    if n ≤ bs.length then
      if leVal (bs.take n) ≤ m then some (leVal (bs.take n), bs.drop n) else none
    else none
  ok v := v < 256 ^ n ∧ v ≤ m
  dec_enc v r h := by
    have hn : n ≤ (leBytes n v ++ r).length := by simp
    have htake : (leBytes n v ++ r).take n = leBytes n v := by simp
    have hdrop : (leBytes n v ++ r).drop n = r := by simp
    rw [if_pos hn, htake, hdrop, leVal_leBytes, Nat.mod_eq_of_lt h.1, if_pos h.2]
  enc_dec bs v r h := by
    split at h
    case isTrue hn =>
      split at h
      case isTrue hm =>
        cases h
        have hlen : (bs.take n).length = n := by simp [hn]
        have hval := leVal_lt (bs.take n)
        rw [hlen] at hval
        have hbytes := leBytes_leVal (bs.take n)
        rw [hlen] at hbytes
        exact ⟨⟨hval, hm⟩, by rw [hbytes, List.take_append_drop]⟩
      case isFalse => cases h
    case isFalse => cases h

/-- The same bytes for another type. -/
def iso (F : Format α) (f : α → β) (g : β → α) (hgf : ∀ a, g (f a) = a) (hfg : ∀ b, f (g b) = b) :
    Format β where
  enc b := F.enc (g b)
  dec bs := (F.dec bs).map (fun x ↦ (f x.1, x.2))
  ok b := F.ok (g b)
  dec_enc b r h := by rw [F.dec_enc _ _ h, Option.map_some, hfg]
  enc_dec bs b r h := by
    rw [Option.map_eq_some_iff] at h
    obtain ⟨⟨a, r'⟩, ha, hx⟩ := h
    cases hx
    rw [hgf]
    exact F.enc_dec _ _ _ ha

end Format

end Petele.Lib
