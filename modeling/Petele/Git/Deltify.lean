import Petele.Git.Delta
import Mathlib.Algebra.BigOperators.Group.List.Basic

namespace Petele.Git

open Lib Probe

theorem take_append_bytes (s : List UInt8) (o n : ℕ) :
    s.take o ++ bytes s o n = s.take (o + n) := by
  rw [bytes, List.take_add]

theorem bytes_append (s : List UInt8) (o m n : ℕ) :
    bytes s o m ++ bytes s (o + m) n = bytes s o (m + n) := by
  rw [bytes, bytes, bytes, List.take_add, List.drop_drop]

section Chunks

theorem gear_le (gh : UInt32) (p : List UInt8) : gear gh p ≤ p.length := by
  induction p generalizing gh with
  | nil => exact Nat.le_refl 0
  | cons c p ih =>
    simp only [gear, List.length_cons]
    split
    · omega
    · exact Nat.succ_le_succ (ih _)

attribute [local simp] nextblk addblk

theorem nextblk_short {s : List UInt8} (h : s.length < Minchunk) : nextblk s = s.length :=
  if_pos h

theorem nextblk_long {s : List UInt8} (h : ¬ s.length < Minchunk) : Minchunk ≤ nextblk s := by
  rw [nextblk, if_neg h]
  exact Nat.le_add_right _ _

theorem nextblk_le (s : List UInt8) : nextblk s ≤ s.length := by
  by_cases h : s.length < Minchunk
  · exact Nat.le_of_eq (nextblk_short h)
  · have hgear := gear_le 0 ((s.take Maxchunk).drop Minchunk)
    rw [List.length_drop, List.length_take] at hgear
    rw [nextblk, if_neg h]
    simp only [Minchunk, Maxchunk] at *
    omega

theorem nextblk_max (s : List UInt8) : nextblk s ≤ Maxchunk := by
  by_cases h : s.length < Minchunk
  · rw [nextblk_short h]
    simp only [Minchunk, Maxchunk] at *
    omega
  · have hgear := gear_le 0 ((s.take Maxchunk).drop Minchunk)
    rw [List.length_drop, List.length_take] at hgear
    rw [nextblk, if_neg h]
    simp only [Minchunk, Maxchunk] at *
    omega

theorem nextblk_pos {s : List UInt8} (h : 0 < s.length) : 0 < nextblk s := by
  by_cases hs : s.length < Minchunk
  · rwa [nextblk_short hs]
  · have hlong := nextblk_long hs
    simp only [Minchunk] at hlong
    omega

/-- A loop over chunks stands at offset `o` after `k` of them: every chunk but the one that ends
the data has at least `Minchunk` bytes. -/
structure Chunked (size k o : ℕ) : Prop where
  inside : o ≤ size
  full : o < size → Minchunk * k ≤ o
  bound : Minchunk * k ≤ o + Minchunk

theorem Chunked.start (size : ℕ) : Chunked size 0 0 :=
  ⟨Nat.zero_le _, fun _ => Nat.le_refl _, Nat.zero_le _⟩

theorem Chunked.step {s : List UInt8} {k k' o n : ℕ} (h : Chunked s.length k o)
    (ho : o ≠ s.length) (hk : k' ≤ k + 1) (hn : nextblk (s.drop o) ≤ n)
    (hlen : o + n ≤ s.length) : Chunked s.length k' (o + n) := by
  have hlt : o < s.length := Nat.lt_of_le_of_ne h.inside ho
  have hfull := h.full hlt
  refine ⟨hlen, fun hmore => ?_, ?_⟩
  · have hlong := nextblk_long (s := s.drop o) fun hs => by
      have heq := nextblk_short hs
      rw [List.length_drop] at heq
      omega
    simp only [Minchunk] at *
    omega
  · simp only [Minchunk] at *
    omega

end Chunks

section Table

/-- An entry of the table is a chunk of the base. -/
def Dblock.Within (base : List UInt8) (d : Dblock) : Prop :=
  d.buf = d.off ∧ d.off + d.len ≤ base.length

/-- The table is at most half full and holds chunks of the base. -/
structure Dtab.Ok (dt : Dtab) : Prop where
  count : entries dt.b = dt.nb
  load : 2 * dt.nb ≤ dt.sz
  size : 128 ≤ dt.sz
  within : ∀ d, some d ∈ dt.b → d.Within dt.base

theorem Dtab.Ok.probe_ends {dt : Dtab} (hok : dt.Ok) (hit : Dblock → Bool) (h : ℕ) :
    ∃ k, probe hit dt.b dt.sz (h % dt.sz) = some k := by
  have hsize := hok.size
  have hload := hok.load
  have hcount := hok.count
  apply Probe.probe_ends
  · simp only [Dtab.sz] at *
    omega
  · exact Nat.mod_lt _ (by omega)

theorem Dtab.Ok.set {dt : Dtab} (hok : dt.Ok) {d : Dblock} (hd : d.Within dt.base) {k : ℕ}
    (hk : dt.b[k]? = some none) (hload : 2 * (dt.nb + 1) ≤ dt.sz) :
    Dtab.Ok { dt with b := dt.b.set k (some d), nb := dt.nb + 1 } where
  count := by rw [entries_set hk, hok.count]
  load := by simpa [Dtab.sz] using hload
  size := by simpa [Dtab.sz] using hok.size
  within := by
    intro a ha
    rcases mem_set ha with rfl | hmem
    · exact hd
    · exact hok.within a hmem

/-- An entry is put into the first empty slot, and the table then doubles if it has to. -/
theorem addblk_empty {dt : Dtab} {d : Dblock} {k : ℕ}
    (hk : probe (sameblk dt d) dt.b dt.sz (d.hash.toNat % dt.sz) = some k)
    (hslot : dt.b[k]? = some none) (depth : ℕ) :
    addblk (depth + 1) dt d =
      if dt.sz < 2 * (dt.nb + 1) then
        doubletab (addblk depth) ⟨dt.base, dt.b.set k (some d), dt.nb + 1⟩
      else some ⟨dt.base, dt.b.set k (some d), dt.nb + 1⟩ := by
  have hsz : Dtab.sz ⟨dt.base, dt.b.set k (some d), dt.nb + 1⟩ = dt.sz := List.length_set
  simp only [addblk, hk, hslot, hsz]

/-- What an addition to a table does where it does not make the table grow. -/
theorem addblk_fits {dt : Dtab} (hok : dt.Ok) {d : Dblock} (hd : d.Within dt.base)
    (hload : 2 * (dt.nb + 1) ≤ dt.sz) (depth : ℕ) :
    ∃ dt', addblk (depth + 1) dt d = some dt' ∧ dt'.Ok ∧ dt'.base = dt.base ∧
      dt'.sz = dt.sz ∧ dt'.nb ≤ dt.nb + 1 := by
  obtain ⟨k, hk⟩ := hok.probe_ends (sameblk dt d) d.hash.toNat
  rcases probe_slot hk with hslot | ⟨a, hslot, -⟩
  · refine ⟨_, ?_, hok.set hd hslot hload, rfl, List.length_set, Nat.le_refl _⟩
    rw [addblk_empty hk hslot, if_neg (Nat.not_lt.mpr hload)]
  · refine ⟨dt, ?_, hok, rfl, rfl, Nat.le_succ _⟩
    simp only [addblk, hk, hslot]

/-- The slots of the old table go into the new one without making it grow again. -/
theorem readd_fits (depth : ℕ) (l : List (Option Dblock)) {dt : Dtab} (hok : dt.Ok)
    (hl : ∀ d, some d ∈ l → d.Within dt.base) (hload : 2 * (dt.nb + entries l) ≤ dt.sz) :
    ∃ dt', l.foldlM (readd (addblk (depth + 1))) dt = some dt' ∧
      dt'.Ok ∧ dt'.base = dt.base ∧ dt'.nb ≤ dt.nb + entries l := by
  induction l generalizing dt with
  | nil => exact ⟨dt, rfl, hok, rfl, Nat.le_refl _⟩
  | cons slot l ih =>
    have hrest : ∀ d, some d ∈ l → d.Within dt.base :=
      fun d hd => hl d (List.mem_cons_of_mem _ hd)
    rw [List.foldlM_cons]
    cases slot with
    | none =>
      have hcount : entries (none :: l) = entries l := by simp [entries]
      rw [hcount] at hload ⊢
      exact ih hok hrest hload
    | some d =>
      have hcount : entries (some d :: l) = entries l + 1 := by simp [entries]
      rw [hcount] at hload ⊢
      obtain ⟨dt₁, hadd, hok₁, hbase₁, hsz₁, hnb₁⟩ :=
        addblk_fits hok (hl d List.mem_cons_self) (by omega) depth
      obtain ⟨dt₂, hfold, hok₂, hbase₂, hnb₂⟩ :=
        ih hok₁ (by rwa [hbase₁]) (by omega)
      refine ⟨dt₂, ?_, hok₂, hbase₂.trans hbase₁, by omega⟩
      rw [readd, hadd]
      exact hfold

theorem doubletab_ok (depth : ℕ) {dt : Dtab} (hsize : 128 ≤ dt.sz)
    (hcount : entries dt.b = dt.nb) (hload : dt.nb ≤ dt.sz) (halloc : 48 * dt.sz < 2 ^ 30)
    (hwithin : ∀ d, some d ∈ dt.b → d.Within dt.base) :
    ∃ dt', doubletab (addblk (depth + 1)) dt = some dt' ∧ dt'.Ok ∧ dt'.base = dt.base ∧
      dt'.nb ≤ dt.nb := by
  have hlen : Dtab.sz ⟨dt.base, List.replicate (2 * dt.sz) none, 0⟩ = 2 * dt.sz :=
    List.length_replicate
  have hempty : Dtab.Ok ⟨dt.base, List.replicate (2 * dt.sz) none, 0⟩ := by
    refine ⟨entries_replicate _, Nat.zero_le _, by omega, ?_⟩
    intro d hd
    cases List.eq_of_mem_replicate hd
  obtain ⟨dt', hfold, hok', hbase, hnb⟩ :=
    readd_fits depth dt.b hempty hwithin (by dsimp only; omega)
  refine ⟨dt', ?_, hok', hbase, by dsimp only at hnb; omega⟩
  have hmem : eamalloc (2 * dt.sz) sizeofDblock = some () := by
    rw [eamalloc, if_neg (by simp only [sizeofDblock]; omega)]
  rw [doubletab, hmem]
  exact hfold

/-- An addition keeps the table sound. `eamalloc` would refuse the table of a base of `2 ^ 30`
bytes. -/
theorem addblk_ok {dt : Dtab} (hok : dt.Ok) {d : Dblock} (hd : d.Within dt.base)
    (hnb : 96 * (dt.nb + 1) < 2 ^ 30) (depth : ℕ) :
    ∃ dt', addblk (depth + 2) dt d = some dt' ∧ dt'.Ok ∧ dt'.base = dt.base ∧
      dt'.nb ≤ dt.nb + 1 := by
  have hload := hok.load
  have hsize := hok.size
  by_cases hfit : 2 * (dt.nb + 1) ≤ dt.sz
  · obtain ⟨dt', hadd, hok', hbase, -, hnb'⟩ := addblk_fits hok hd hfit (depth + 1)
    exact ⟨dt', hadd, hok', hbase, hnb'⟩
  · obtain ⟨k, hk⟩ := hok.probe_ends (sameblk dt d) d.hash.toNat
    rcases probe_slot hk with hslot | ⟨a, hslot, -⟩
    · have hsz : Dtab.sz ⟨dt.base, dt.b.set k (some d), dt.nb + 1⟩ = dt.sz := List.length_set
      have hcount : entries (dt.b.set k (some d)) = dt.nb + 1 := by
        rw [entries_set hslot, hok.count]
      have hslots : ∀ a, some a ∈ dt.b.set k (some d) → a.Within dt.base := by
        intro a ha
        rcases mem_set ha with rfl | hmem
        · exact hd
        · exact hok.within a hmem
      rw [addblk_empty hk hslot, if_pos (by omega)]
      exact doubletab_ok depth (by omega) hcount (by dsimp only; omega) (by omega) hslots
    · exact ⟨dt, by simp only [addblk, hk, hslot], hok, rfl, Nat.le_succ _⟩

theorem lookup_ok {dt : Dtab} (hok : dt.Ok) (p : List UInt8) (n : ℕ) :
    ∃ b, lookup dt p n = some b ∧
      ∀ d, b = some d → d.off + n ≤ dt.base.length ∧ bytes dt.base d.off n = p := by
  obtain ⟨k, hk⟩ := hok.probe_ends
    (fun a => a.hash == hash p && n == a.len && p == bytes dt.base a.buf n) (hash p).toNat
  refine ⟨dt.b.getD k none, by simp only [lookup, hk, Option.map_some], ?_⟩
  intro d hd
  rcases probe_slot hk with hslot | ⟨a, hslot, hhit⟩
  · rw [List.getD_eq_getElem?_getD, hslot] at hd
    cases hd
  · rw [List.getD_eq_getElem?_getD, hslot] at hd
    cases hd
    obtain ⟨hbuf, hoff⟩ := hok.within d (List.mem_of_getElem? hslot)
    simp only [Bool.and_eq_true, beq_iff_eq] at hhit
    obtain ⟨⟨-, hlen⟩, hbytes⟩ := hhit
    rw [← hbuf]
    exact ⟨by omega, hbytes.symm⟩

theorem dtfill_ok (fuel : ℕ) {dt : Dtab} (hok : dt.Ok) {o : ℕ}
    (hsize : dt.base.length < 2 ^ 30) (hfuel : dt.base.length < fuel + o)
    (hchunks : Chunked dt.base.length dt.nb o) :
    ∃ dt', dtfill fuel dt o = some dt' ∧ dt'.Ok ∧ dt'.base = dt.base := by
  have hinside := hchunks.inside
  induction fuel generalizing dt o with
  | zero => omega
  | succ fuel ih =>
    rw [dtfill]
    split
    · exact ⟨dt, rfl, hok, rfl⟩
    · rename_i ho
      have hle := nextblk_le (dt.base.drop o)
      have hpos := nextblk_pos (s := dt.base.drop o)
      rw [List.length_drop] at hle hpos
      have hpos := hpos (by omega)
      have hfull := hchunks.full (by omega)
      generalize hn : nextblk (dt.base.drop o) = n at hle hpos
      obtain ⟨dt₁, hadd, hok₁, hbase₁, hnb₁⟩ := addblk_ok hok
        (d := ⟨o, n, o, hash (bytes dt.base o n)⟩) ⟨rfl, by dsimp only; omega⟩
        (by simp only [Minchunk] at hfull; omega) 30
      have hchunks₁ : Chunked dt₁.base.length dt₁.nb (o + n) := by
        rw [hbase₁]
        exact hchunks.step ho hnb₁ (Nat.le_of_eq hn) (by omega)
      obtain ⟨dt₂, hfill, hok₂, hbase₂⟩ :=
        ih hok₁ (by rwa [hbase₁]) (by rw [hbase₁]; omega) hchunks₁ hchunks₁.inside
      refine ⟨dt₂, ?_, hok₂, hbase₂.trans hbase₁⟩
      simp only [maxdepth, hadd, Option.bind_some]
      exact hfill

/-- `dtinit` ends, with a sound table of the base. -/
theorem dtinit_ok (b : Object) (hsize : b.size < 2 ^ 30) :
    ∃ dt, dtinit b = some dt ∧ dt.Ok ∧ dt.base = b.data := by
  have hempty : Dtab.Ok ⟨b.data, List.replicate 128 none, 0⟩ := by
    refine ⟨entries_replicate _, Nat.zero_le _, ?_, ?_⟩
    · simp only [Dtab.sz, List.length_replicate, Nat.le_refl]
    · intro a ha
      cases List.eq_of_mem_replicate ha
  exact dtfill_ok _ hempty hsize (Nat.lt_succ_self _) (Chunked.start _)

end Table

section Matches

/-- `stretch` stops at the first difference, at either end, or at the greatest length a copy has. -/
theorem extend_spec (n : ℕ) (p q : List UInt8) :
    ∃ m, extend n p q = n + m ∧ m ≤ p.length ∧ m ≤ q.length ∧ p.take m = q.take m ∧
      (n < 2 ^ 24 → n + m < 2 ^ 24) := by
  induction p generalizing n q with
  | nil => exact ⟨0, by simp [extend], Nat.zero_le _, Nat.zero_le _, by simp, by simp⟩
  | cons x p ih =>
    cases q with
    | nil => exact ⟨0, by simp [extend], Nat.zero_le _, Nat.zero_le _, by simp, by simp⟩
    | cons y q =>
      rw [extend]
      split
      · exact ⟨0, rfl, Nat.zero_le _, Nat.zero_le _, by simp, by simp⟩
      · rename_i hlimit
        split
        · exact ⟨0, rfl, Nat.zero_le _, Nat.zero_le _, by simp, by simp⟩
        · rename_i hxy
          obtain ⟨m, hm, hp, hq, htake, hlt⟩ := ih (n + 1) q
          have hxy : x = y := not_not.mp hxy
          refine ⟨m + 1, by omega, Nat.succ_le_succ hp, Nat.succ_le_succ hq, ?_, ?_⟩
          · rw [List.take_succ_cons, List.take_succ_cons, hxy, htake]
          · intro _
            have hlimit : ¬ 16777215 ≤ n := hlimit
            have := hlt (by omega)
            omega

/-- What a match found in the table is worth after `stretch`. -/
theorem stretch_spec {dt : Dtab} {d : Dblock} {data : List UInt8} {o n : ℕ}
    (hdata : o + n ≤ data.length) (hbase : d.off + n ≤ dt.base.length) (hn : n ≤ Maxchunk)
    (hbytes : bytes dt.base d.off n = bytes data o n) :
    ∃ m, stretch dt (some d) (data.drop o) n = n + m ∧ o + (n + m) ≤ data.length ∧
      d.off + (n + m) ≤ dt.base.length ∧ n + m < 2 ^ 24 ∧
      bytes dt.base d.off (n + m) = bytes data o (n + m) := by
  obtain ⟨m, hm, hp, hq, htake, hlt⟩ :=
    extend_spec n ((data.drop o).drop n) (dt.base.drop (d.off + n))
  rw [List.length_drop, List.length_drop] at hp
  rw [List.length_drop] at hq
  refine ⟨m, hm, by omega, by omega, hlt (by simp only [Maxchunk] at hn; omega), ?_⟩
  rw [← bytes_append, ← bytes_append, hbytes, bytes, bytes, bytes, ← htake, List.drop_drop]

/-- The bytes a delta stands for. -/
def Delta.piece (base data : List UInt8) (d : Delta) : List UInt8 :=
  if d.cpy then bytes base d.off d.len else bytes data d.off d.len

/-- A delta that `encodedelta` can write: a copy lies in the base and fits in three bytes of
length, an insertion lies in the target. -/
structure Delta.Ok (base data : List UInt8) (d : Delta) : Prop where
  pos : 0 < d.len
  copy : d.cpy = true → d.off + d.len ≤ base.length ∧ d.len < 2 ^ 24
  inline : d.cpy = false → d.off + d.len ≤ data.length

theorem Delta.Ok.piece_length {base data : List UInt8} {d : Delta} (h : d.Ok base data) :
    (d.piece base data).length = d.len := by
  rw [piece]
  cases hc : d.cpy with
  | true => exact bytes_length (h.copy hc).1
  | false => exact bytes_length (h.inline hc)

/-- The deltas stand for the first `o` bytes of the target. -/
structure Describes (base data : List UInt8) (pd : List Delta) (o : ℕ) : Prop where
  pieces : pd.flatMap (Delta.piece base data) = data.take o
  ok : ∀ d ∈ pd, Delta.Ok base data d
  chunks : Chunked data.length pd.length o

theorem Describes.snoc {base data : List UInt8} {pd : List Delta} {o : ℕ}
    (h : Describes base data pd o) (ho : o ≠ data.length) {d : Delta} (hd : d.Ok base data)
    (hpiece : d.piece base data = bytes data o d.len) (hn : nextblk (data.drop o) ≤ d.len)
    (hlen : o + d.len ≤ data.length) : Describes base data (pd ++ [d]) (o + d.len) where
  pieces := by
    rw [List.flatMap_append, h.pieces, List.flatMap_singleton, hpiece, take_append_bytes]
  ok := by
    intro a ha
    rcases List.mem_append.mp ha with hmem | hlast
    · exact h.ok a hmem
    · rw [List.mem_singleton.mp hlast]
      exact hd
  chunks := h.chunks.step ho (Nat.le_of_eq (List.length_append.trans rfl)) hn hlen

theorem emitdelta_ok {size o : ℕ} {pd : List Delta} (h : Chunked size pd.length o)
    (hsize : size < 2 ^ 30) (cpy : Bool) (off len : ℕ) :
    emitdelta pd cpy off len = some (pd ++ [⟨cpy, off, len⟩]) := by
  have hbound := h.bound
  have hinside := h.inside
  have halloc : eamalloc (pd.length + 1) sizeofDelta = some () := by
    rw [eamalloc, if_neg]
    simp only [sizeofDelta, Minchunk] at *
    omega
  rw [emitdelta, halloc]
  rfl

/-- One turn of the loop of `deltify`. -/
theorem deltify_step {dt : Dtab} (hok : dt.Ok) {data : List UInt8} {pd : List Delta} {o : ℕ}
    (h : Describes dt.base data pd o) (ho : o ≠ data.length) (hsize : data.length < 2 ^ 30)
    (fuel : ℕ) :
    ∃ d, Describes dt.base data (pd ++ [d]) (o + d.len) ∧ 0 < d.len ∧
      deltifyLoop data dt (fuel + 1) pd o = deltifyLoop data dt fuel (pd ++ [d]) (o + d.len) := by
  have hinside := h.chunks.inside
  have hle := nextblk_le (data.drop o)
  have hpos := nextblk_pos (s := data.drop o)
  have hmax := nextblk_max (data.drop o)
  rw [List.length_drop] at hle hpos
  have hpos := hpos (by omega)
  rw [deltifyLoop, if_neg ho]
  generalize hn : nextblk (data.drop o) = n at hle hpos hmax
  obtain ⟨b, hlookup, hb⟩ := lookup_ok hok (bytes data o n) n
  dsimp only
  rw [hlookup]
  cases b with
  | none =>
    -- Nothing matched: the chunk goes into the delta as it is.
    refine ⟨⟨false, o, n⟩, ?_, hpos, ?_⟩
    · refine h.snoc ho ⟨hpos, by simp, fun _ => by dsimp only; omega⟩ rfl ?_ ?_
      · exact Nat.le_of_eq hn
      · dsimp only
        omega
    · simp [stretch, emitdelta_ok h.chunks hsize]
  | some d =>
    obtain ⟨hoff, hbytes⟩ := hb d rfl
    obtain ⟨m, hm, hdata, hbase, hlt, heq⟩ := stretch_spec (by omega) hoff hmax hbytes
    refine ⟨⟨true, d.off, n + m⟩, ?_, by dsimp only; omega, ?_⟩
    · refine h.snoc ho ⟨by dsimp only; omega, fun _ => ⟨hbase, hlt⟩, by simp⟩ heq ?_ hdata
      dsimp only
      omega
    · simp [hm, emitdelta_ok h.chunks hsize]

theorem deltifyLoop_ok {dt : Dtab} (hok : dt.Ok) {data : List UInt8}
    (hsize : data.length < 2 ^ 30) (fuel : ℕ) {pd : List Delta} {o : ℕ}
    (h : Describes dt.base data pd o) (hfuel : data.length < fuel + o) :
    ∃ ds, deltifyLoop data dt fuel pd o = some ds ∧ Describes dt.base data ds data.length := by
  induction fuel generalizing pd o with
  | zero =>
    have hinside := h.chunks.inside
    omega
  | succ fuel ih =>
    by_cases ho : o = data.length
    · rw [ho] at h
      exact ⟨pd, by rw [deltifyLoop, if_pos ho], h⟩
    · obtain ⟨d, hd, hpos, hstep⟩ := deltify_step hok h ho hsize fuel
      rw [hstep]
      exact ih hd (by omega)

/-- `deltify` ends, with deltas that stand for the target. -/
theorem deltify_ok {dt : Dtab} (hok : dt.Ok) (o : Object) (hsize : o.size < 2 ^ 30) :
    ∃ ds, deltify o dt = some ds ∧ Describes dt.base o.data ds o.size := by
  have hstart : Describes dt.base o.data [] 0 :=
    ⟨rfl, fun _ hd => absurd hd List.not_mem_nil, Chunked.start _⟩
  exact deltifyLoop_ok hok hsize _ hstart (Nat.lt_succ_self _)

end Matches

end Petele.Git
