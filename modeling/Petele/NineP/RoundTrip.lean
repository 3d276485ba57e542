import Petele.NineP.Encode
import Petele.NineP.Decode

namespace Petele.NineP

open Lib Lib.LittleEndian

/-- The bytes of a C string: up to the first NUL. -/
def cstring (buf : List UInt8) (s : Str) : List UInt8 := (buf.drop s.p).takeWhile (· ≠ 0)

/-- What a decoded `Fcall` is to its reader: its pointers followed into the buffer. -/
def Fcall.deref (buf : List UInt8) (g : Fcall Str ℕ) : Fcall CStr (List UInt8) :=
  { g with
    version := some (cstring buf g.version)
    ename := some (cstring buf g.ename)
    uname := some (cstring buf g.uname)
    aname := some (cstring buf g.aname)
    name := some (cstring buf g.name)
    wname := fun i ↦ some (cstring buf (g.wname i))
    data := buf.drop g.data
    stat := buf.drop g.stat }

/-- The counted bytes of a decoded string hold no NUL. -/
def Str.Clean (buf : List UInt8) (s : Str) : Prop := (0 : UInt8) ∉ (buf.drop s.p).take s.n

theorem StrAt.clean {buf bs : List UInt8} {s : Str} (h : StrAt buf s bs) : s.Clean buf ↔ (0 : UInt8) ∉ bs := by
  obtain ⟨hn, hs⟩ := h
  have htake : (buf.drop s.p).take s.n = bs := by
    have h := congrArg (List.take s.n) hs
    rwa [List.take_take, Nat.min_eq_left (Nat.le_succ _), List.take_left' hn.symm] at h
  rw [Str.Clean, htake]

theorem StrAt.cstring_eq {buf bs : List UInt8} {s : Str} (h : StrAt buf s bs) (hc : (0 : UInt8) ∉ bs) :
    cstring buf s = bs := by
  obtain ⟨hn, hs⟩ := h
  have hbuf : buf.drop s.p = bs ++ (0 :: (buf.drop s.p).drop (s.n + 1)) := by
    rw [← List.singleton_append, ← List.append_assoc, ← hs, List.take_append_drop]
  have hall : ∀ x ∈ bs, decide (x ≠ 0) = true := by
    intro x hx
    simp only [ne_eq, decide_not, Bool.not_eq_true', decide_eq_false_iff_not]
    rintro rfl
    exact hc hx
  rw [cstring, hbuf, List.takeWhile_append_of_pos hall]
  simp

/-- In a buffer where `g` stands for `b` and no string holds a NUL, reading `g` gives `b`. -/
theorem Fcall.Holds.body_eq {buf : List UInt8} {g : Fcall Str ℕ} {t : MsgType} {b : Body t}
    (h : g.Holds buf t b) (hc : ∀ s ∈ g.strings t, s.Clean buf) : (g.deref buf).body t = b := by
  have read {s : Str} {bs : List UInt8} (h : StrAt buf s bs) (hs : s ∈ g.strings t) : cstring buf s = bs :=
    h.cstring_eq (h.clean.mp (hc s hs))
  cases t with
  | Tversion | Rversion =>
    obtain ⟨h₀, hs⟩ := h
    simp [Fcall.body, Fcall.deref, h₀, read hs (by simp [Fcall.strings])]
  | Tauth =>
    obtain ⟨h₀, hu, ha⟩ := h
    simp [Fcall.body, Fcall.deref, h₀, read hu (by simp [Fcall.strings]), read ha (by simp [Fcall.strings])]
  | Tattach =>
    obtain ⟨h₀, hafid, hu, ha⟩ := h
    simp [Fcall.body, Fcall.deref, h₀, hafid, read hu (by simp [Fcall.strings]), read ha (by simp [Fcall.strings])]
  | Rerror => exact read h (by simp [Fcall.strings])
  | Tcreate =>
    obtain ⟨h₀, hs, hperm, hmode⟩ := h
    simp [Fcall.body, Fcall.deref, h₀, read hs (by simp [Fcall.strings]), hperm, hmode]
  | Twalk =>
    obtain ⟨h₀, hnewfid, hn, hw⟩ := h
    have hnames : (List.range g.nwname.toNat).map (fun i ↦ cstring buf (g.wname i)) = b.2.2 := by
      apply List.ext_getElem (by simp [hn])
      intro i hi hb
      simp only [List.length_map, List.length_range] at hi
      simp only [List.getElem_map, List.getElem_range]
      exact read (hw i _ (List.getElem?_eq_getElem hb))
        (List.mem_map_of_mem (List.mem_range.mpr hi))
    simp [Fcall.body, Fcall.deref, h₀, hnewfid, hnames]
  | Rwalk =>
    obtain ⟨hn, hw⟩ := h
    apply List.ext_getElem (by simp [Fcall.body, Fcall.deref, hn])
    intro i hi hb
    simp only [Fcall.body, Fcall.deref, List.getElem_map, List.getElem_range]
    exact hw i _ (List.getElem?_eq_getElem hb)
  | Rread =>
    obtain ⟨hn, hp⟩ := h
    rwa [DataAt, ← hn] at hp
  | Twrite =>
    obtain ⟨h₀, hoff, hn, hp⟩ := h
    rw [DataAt, ← hn] at hp
    simp [Fcall.body, Fcall.deref, h₀, hoff, hp]
  | Rstat =>
    obtain ⟨hn, hp⟩ := h
    rwa [DataAt, ← hn] at hp
  | Twstat =>
    obtain ⟨h₀, hn, hp⟩ := h
    rw [DataAt, ← hn] at hp
    simp [Fcall.body, Fcall.deref, h₀, hp]
  | Rflush | Rclunk | Rremove | Rwstat => rfl
  | Rauth | Rattach | Tflush | Rwrite | Tclunk | Tremove | Tstat => exact h
  | Topen | Ropen | Rcreate =>
    obtain ⟨h₀, hmode⟩ := h
    simp [Fcall.body, Fcall.deref, h₀, hmode]
  | Tread =>
    obtain ⟨h₀, hoff, hcount⟩ := h
    simp [Fcall.body, Fcall.deref, h₀, hoff, hcount]

/-- `convM2S` behind the three fields every message starts with. -/
theorem convM2S_run (size : UInt32) (type : UInt8) (tag : UInt16) (todo : List UInt8) (f : Fcall Str ℕ) :
    convM2S (u32.enc size ++ (u8.enc type ++ (u16.enc tag ++ todo))) f =
      if size.toNat < 7 then .quit (u32.enc size ++ (u8.enc type ++ (u16.enc tag ++ todo)))
      else match MsgType.ofCode type with
        | none => .quit (u32.enc size ++ (u8.enc type ++ (u16.enc tag ++ todo)))
        | some t => (do
            let f ← getBody { f with type, tag } t
            Cursor.room 0
            let p ← Cursor.here
            if size.toNat = p then return (size.toNat, f) else Cursor.quit : Cursor (ℕ × Fcall Str ℕ)).run 7
              (u32.enc size ++ (u8.enc type ++ (u16.enc tag ++ todo))) := by
  have hroom : (Cursor.room (BIT32SZ + BIT8SZ + BIT16SZ)).run 0 (u32.enc size ++ (u8.enc type ++ (u16.enc tag ++ todo))) =
      .ok () 0 (u32.enc size ++ (u8.enc type ++ (u16.enc tag ++ todo))) := by
    have h := Cursor.run_room [] (u32.enc size ++ (u8.enc type ++ (u16.enc tag ++ todo))) 7
    rwa [if_pos (by simp only [List.length_append, u32_length, u8_length, u16_length]; omega)] at h
  have hsize : gbit32.run 0 (u32.enc size ++ (u8.enc type ++ (u16.enc tag ++ todo))) =
      .ok size 4 (u32.enc size ++ (u8.enc type ++ (u16.enc tag ++ todo))) :=
    Gets.run_word_leBytes (fun _ h ↦ GBIT32_eq h) [] _ size.toNat_lt UInt32.ofNat_toNat
  have htype : gbit8.run 4 (u32.enc size ++ (u8.enc type ++ (u16.enc tag ++ todo))) =
      .ok type 5 (u32.enc size ++ (u8.enc type ++ (u16.enc tag ++ todo))) :=
    Gets.run_word_leBytes (fun _ h ↦ GBIT8_eq h) (u32.enc size) _ type.toNat_lt UInt8.ofNat_toNat
  have htag : gbit16.run 5 (u32.enc size ++ (u8.enc type ++ (u16.enc tag ++ todo))) =
      .ok tag 7 (u32.enc size ++ (u8.enc type ++ (u16.enc tag ++ todo))) :=
    Gets.run_word_leBytes (fun _ h ↦ GBIT16_eq h) (u32.enc size ++ u8.enc type) todo tag.toNat_lt UInt16.ofNat_toNat
  simp only [convM2S]
  rw [Cursor.bind_ok _ hroom, Cursor.bind_ok _ hsize]
  by_cases hlt : size.toNat < BIT32SZ + BIT8SZ + BIT16SZ
  · have h7 : size.toNat < 7 := hlt
    rw [if_pos hlt, if_pos h7]
    rfl
  · have h7 : ¬ size.toNat < 7 := hlt
    rw [if_neg hlt, if_neg h7, Cursor.bind_ok _ htype, Cursor.bind_ok _ htag]
    cases MsgType.ofCode type <;> rfl

/-- Seven bytes are enough for the fields every message starts with. -/
theorem header_split {ap : List UInt8} (h : 7 ≤ ap.length) :
    ∃ size type tag todo, ap = u32.enc size ++ (u8.enc type ++ (u16.enc tag ++ todo)) := by
  have split {α : Type} {F : Format α} {n : ℕ} {bs : List UInt8}
      (hd : ∃ a, F.dec bs = some (a, bs.drop n)) : ∃ a, bs = F.enc a ++ bs.drop n :=
    hd.imp (fun a ha ↦ (F.enc_dec _ _ _ ha).2)
  obtain ⟨size, hsize⟩ := @split _ u32 4 ap ⟨_, by simp only [u32, Format.word]; rw [if_pos (by omega)]⟩
  obtain ⟨type, htype⟩ := @split _ u8 1 (ap.drop 4) ⟨_, by
    simp only [u8, Format.word]; rw [if_pos (by rw [List.length_drop]; omega)]⟩
  obtain ⟨tag, htag⟩ := @split _ u16 2 ((ap.drop 4).drop 1) ⟨_, by
    simp only [u16, Format.word]; rw [if_pos (by rw [List.length_drop, List.length_drop]; omega)]⟩
  exact ⟨size, type, tag, _, by rw [← htag, ← htype, ← hsize]⟩

/-- A complete message in front of `rest` is decoded, whatever follows it. -/
theorem convM2S_complete {t : MsgType} {b : Body t} (hok : (bodyF t).ok b) {size : UInt32} {type : UInt8}
    (tag : UInt16) (rest : List UInt8) (f : Fcall Str ℕ) (htype : MsgType.ofCode type = some t)
    (hsize : size.toNat = 7 + ((bodyF t).enc b).length) :
    ∃ g buf, convM2S (u32.enc size ++ (u8.enc type ++ (u16.enc tag ++ ((bodyF t).enc b ++ rest)))) f =
        .ok (size.toNat, g) size.toNat buf ∧
      buf.length = size.toNat + rest.length ∧ g.type = type ∧ g.tag = tag ∧ g.Holds buf t b := by
  have hpre : (u32.enc size ++ (u8.enc type ++ u16.enc tag)).length = 7 := by
    simp only [List.length_append, u32_length, u8_length, u16_length]
  obtain ⟨-, hsome⟩ := gets_getBody { f with type, tag } t (u32.enc size ++ (u8.enc type ++ u16.enc tag))
    ((bodyF t).enc b ++ rest) (Nat.zero_le _)
  obtain ⟨g, mid, hmid, hrun, hdec⟩ := hsome b rest ((bodyF t).dec_enc b rest hok)
  have hend : (u32.enc size ++ (u8.enc type ++ u16.enc tag)).length + mid.length = size.toNat := by
    rw [hpre, hmid, hsize]
  have hroom : (Cursor.room 0).run size.toNat (u32.enc size ++ (u8.enc type ++ u16.enc tag) ++ (mid ++ rest)) =
      .ok () size.toNat (u32.enc size ++ (u8.enc type ++ u16.enc tag) ++ (mid ++ rest)) := by
    have h := Cursor.run_room (u32.enc size ++ (u8.enc type ++ u16.enc tag) ++ mid) rest 0
    rwa [if_pos (Nat.zero_le _), List.length_append, hend, List.append_assoc] at h
  refine ⟨g, u32.enc size ++ (u8.enc type ++ u16.enc tag) ++ (mid ++ rest), ?_, ?_, (hdec rest).1,
    (hdec rest).2.1, (hdec rest).2.2⟩
  · rw [hend, hpre] at hrun
    rw [convM2S_run, if_neg (by omega), htype]
    simp only [List.append_assoc] at hrun hroom ⊢
    rw [Cursor.bind_ok _ hrun, Cursor.bind_ok _ hroom, Cursor.bind_ok _ (Cursor.run_here _ _), if_pos rfl]
    rfl
  · simp only [List.length_append] at hend ⊢
    omega

/-- What `convM2S` does on any buffer: it gives up, or the buffer starts with a complete
message of which it decodes every field. It never leaves the buffer. -/
theorem convM2S_cases (ap : List UInt8) (f : Fcall Str ℕ) :
    (∃ buf, buf.length = ap.length ∧ convM2S ap f = .quit buf) ∨
    ∃ (t : MsgType) (b : Body t) (size : UInt32) (rest : List UInt8) (g : Fcall Str ℕ) (buf : List UInt8),
      convM2S ap f = .ok (size.toNat, g) size.toNat buf ∧ buf.length = ap.length ∧
      ap = u32.enc size ++ (u8.enc g.type ++ (u16.enc g.tag ++ ((bodyF t).enc b ++ rest))) ∧
      (bodyF t).ok b ∧ size.toNat = 7 + ((bodyF t).enc b).length ∧
      MsgType.ofCode g.type = some t ∧ g.Holds buf t b := by
  by_cases h7 : 7 ≤ ap.length
  · obtain ⟨size, type, tag, todo, rfl⟩ := header_split h7
    have hrun := convM2S_run size type tag todo f
    by_cases hlt : size.toNat < 7
    · rw [if_pos hlt] at hrun
      exact .inl ⟨_, rfl, hrun⟩
    rw [if_neg hlt] at hrun
    cases ht : MsgType.ofCode type with
    | none =>
      rw [ht] at hrun
      exact .inl ⟨_, rfl, hrun⟩
    | some t =>
      rw [ht] at hrun
      have hpre : (u32.enc size ++ (u8.enc type ++ u16.enc tag)).length = 7 := by
        simp only [List.length_append, u32_length, u8_length, u16_length]
      obtain ⟨hnone, hsome⟩ := gets_getBody { f with type, tag } t
        (u32.enc size ++ (u8.enc type ++ u16.enc tag)) todo (Nat.zero_le _)
      rw [hpre] at hnone hsome
      cases hdec : (bodyF t).dec todo with
      | none =>
        obtain ⟨buf, hbuf, hquit⟩ := hnone hdec
        simp only [List.append_assoc] at hquit hbuf
        exact .inl ⟨buf, hbuf, hrun.trans (Cursor.bind_quit _ hquit)⟩
      | some x =>
        obtain ⟨b, rest⟩ := x
        obtain ⟨hok, rfl⟩ := (bodyF t).enc_dec _ _ _ hdec
        obtain ⟨g, mid, hmid, hget, hg⟩ := hsome b rest hdec
        by_cases hsize : size.toNat = 7 + ((bodyF t).enc b).length
        · obtain ⟨g, buf, hconv, hlen, htype, htag, hholds⟩ := convM2S_complete hok tag rest f ht hsize
          refine .inr ⟨t, b, size, rest, g, buf, hconv, ?_, ?_, hok, hsize, ?_, hholds⟩
          · simp only [hlen, hsize, List.length_append, u32_length, u8_length, u16_length]
            omega
          · rw [htype, htag]
          · rw [htype, ht]
        · have hroom : (Cursor.room 0).run (7 + mid.length)
              (u32.enc size ++ (u8.enc type ++ u16.enc tag) ++ (mid ++ rest)) =
              .ok () (7 + mid.length) (u32.enc size ++ (u8.enc type ++ u16.enc tag) ++ (mid ++ rest)) := by
            have h := Cursor.run_room (u32.enc size ++ (u8.enc type ++ u16.enc tag) ++ mid) rest 0
            rwa [if_pos (Nat.zero_le _), List.length_append, hpre, List.append_assoc] at h
          refine .inl ⟨u32.enc size ++ (u8.enc type ++ u16.enc tag) ++ (mid ++ rest), ?_, ?_⟩
          · simp only [List.length_append, hmid]
            omega
          · rw [hrun]
            simp only [List.append_assoc] at hget hroom ⊢
            rw [Cursor.bind_ok _ hget, Cursor.bind_ok _ hroom, Cursor.bind_ok _ (Cursor.run_here _ _),
              if_neg (by omega)]
            rfl
  · have h := Cursor.run_room [] ap 7
    rw [if_neg h7] at h
    exact .inl ⟨ap, rfl, Cursor.bind_quit _ h⟩

/-- A message whose strings also hold no NUL, as C strings cannot. -/
structure Fcall.Wellformed (f : Fcall CStr (List UInt8)) (t : MsgType) : Prop extends f.Sendable t where
  clean : ∀ s ∈ f.strings t, (0 : UInt8) ∉ s.getD []

theorem str_ok {s : List UInt8} (h : s.length < 2 ^ 16) : str.ok s := ⟨⟨by omega, by omega⟩, rfl⟩

theorem several_ok {α : Type} {F : Format α} {l : List α} (hlen : l.length ≤ MAXWELEM)
    (h : ∀ a ∈ l, F.ok a) : (several F).ok l := by
  have hlt : l.length < 256 ^ 2 := hlen.trans_lt (by decide)
  exact ⟨⟨hlt, hlen⟩, rfl, h⟩

theorem body_ok {f : Fcall CStr (List UInt8)} {t : MsgType} (h : f.Sendable t) : (bodyF t).ok (f.body t) := by
  have data_ok : payload.ok (f.data.take f.count.toNat) := by
    have hlt := f.count.toNat_lt
    have hlen : (f.data.take f.count.toNat).length ≤ f.count.toNat := List.length_take_le _ _
    exact ⟨⟨by omega, by omega⟩, rfl⟩
  have stat_ok : str.ok (f.stat.take f.nstat.toNat) := by
    have hlt := f.nstat.toNat_lt
    have hlen : (f.stat.take f.nstat.toNat).length ≤ f.nstat.toNat := List.length_take_le _ _
    exact str_ok (by omega)
  have hs : ∀ s ∈ f.strings t, str.ok (s.getD []) := fun s hs ↦ str_ok (h.short s hs)
  have hn := h.bounded
  cases t with
  | Tversion | Rversion => exact ⟨trivial, hs _ (by simp [Fcall.strings])⟩
  | Tauth => exact ⟨trivial, hs _ (by simp [Fcall.strings]), hs _ (by simp [Fcall.strings])⟩
  | Tattach => exact ⟨trivial, trivial, hs _ (by simp [Fcall.strings]), hs _ (by simp [Fcall.strings])⟩
  | Rerror => exact hs _ (by simp [Fcall.strings])
  | Tcreate => exact ⟨trivial, hs _ (by simp [Fcall.strings]), trivial, trivial⟩
  | Twalk =>
    refine ⟨trivial, trivial, several_ok ?_ (fun s hs' ↦ ?_)⟩
    · rw [Fcall.body, List.length_map, List.length_range]
      exact hn
    · obtain ⟨i, hi, rfl⟩ := List.mem_map.mp hs'
      exact hs _ (List.mem_map_of_mem hi)
  | Rwalk =>
    refine several_ok ?_ (fun q _ ↦ ⟨trivial, trivial, trivial⟩)
    rw [Fcall.body, List.length_map, List.length_range]
    exact hn
  | Rread => exact data_ok
  | Twrite => exact ⟨trivial, trivial, data_ok⟩
  | Rstat => exact stat_ok
  | Twstat => exact ⟨trivial, stat_ok⟩
  | Rflush | Rclunk | Rremove | Rwstat | Tflush | Rwrite | Tclunk | Tremove | Tstat => exact trivial
  | Rauth | Rattach | Tread => exact ⟨trivial, trivial, trivial⟩
  | Topen => exact ⟨trivial, trivial⟩
  | Ropen | Rcreate => exact ⟨⟨trivial, trivial, trivial⟩, trivial⟩

theorem DataAt.backed {buf bs : List UInt8} {p : ℕ} (h : DataAt buf p bs) : bs.length ≤ (buf.drop p).length := by
  have hlen := congrArg List.length h
  rw [List.length_take] at hlen
  omega

/-- Decoded payloads lie in the buffer, and decoded strings are as short as their counts say. -/
theorem Fcall.Holds.backed {buf : List UInt8} {g : Fcall Str ℕ} {t : MsgType} {b : Body t}
    (h : g.Holds buf t b) : (g.deref buf).Backed t := by
  cases t with
  | Twrite => exact h.2.2.1.trans_le h.2.2.2.backed
  | Rread => exact h.1.trans_le h.2.backed
  | Twstat => exact h.2.1.trans_le h.2.2.backed
  | Rstat => exact h.1.trans_le h.2.backed
  | _ => trivial

theorem Fcall.Holds.bounded {buf : List UInt8} {g : Fcall Str ℕ} {t : MsgType} {b : Body t}
    (h : g.Holds buf t b) (hok : (bodyF t).ok b) : (g.deref buf).Bounded t := by
  cases t with
  | Twalk => exact h.2.2.1.trans_le hok.2.2.1.2
  | Rwalk => exact h.1.trans_le hok.1.2
  | _ => trivial

/-- The strings among the fields of a message of type `t`. -/
def bodyStrings : (t : MsgType) → Body t → List (List UInt8)
  | .Tversion, b | .Rversion, b => [b.2]
  | .Tauth, b => [b.2.1, b.2.2]
  | .Tattach, b => [b.2.2.1, b.2.2.2]
  | .Rerror, b => [b]
  | .Twalk, b => b.2.2
  | .Tcreate, b => [b.2.1]
  | _, _ => []

attribute [local simp] bodyStrings Fcall.strings

theorem bodyStrings_body (f : Fcall CStr (List UInt8)) (t : MsgType) :
    bodyStrings t (f.body t) = (f.strings t).map (fun s ↦ s.getD []) := by
  cases t with
  | Twalk => simp [Fcall.strings, Fcall.body, bodyStrings]
  | _ => rfl

theorem Fcall.Holds.strings_at {buf : List UInt8} {g : Fcall Str ℕ} {t : MsgType} {b : Body t}
    (h : g.Holds buf t b) : ∀ s ∈ g.strings t, ∃ bs ∈ bodyStrings t b, StrAt buf s bs := by
  intro s hs
  cases t with
  | Tversion | Rversion =>
    obtain rfl : s = g.version := by simpa [Fcall.strings] using hs
    exact ⟨_, by simp [bodyStrings], h.2⟩
  | Tauth =>
    obtain rfl | rfl : s = g.uname ∨ s = g.aname := by simpa [Fcall.strings] using hs
    · exact ⟨b.2.1, by simp [bodyStrings], h.2.1⟩
    · exact ⟨b.2.2, by simp [bodyStrings], h.2.2⟩
  | Tattach =>
    obtain rfl | rfl : s = g.uname ∨ s = g.aname := by simpa [Fcall.strings] using hs
    · exact ⟨b.2.2.1, by simp [bodyStrings], h.2.2.1⟩
    · exact ⟨b.2.2.2, by simp [bodyStrings], h.2.2.2⟩
  | Rerror =>
    obtain rfl : s = g.ename := by simpa [Fcall.strings] using hs
    exact ⟨b, by simp [bodyStrings], h⟩
  | Tcreate =>
    obtain rfl : s = g.name := by simpa [Fcall.strings] using hs
    exact ⟨b.2.1, by simp [bodyStrings], h.2.1⟩
  | Twalk =>
    obtain ⟨i, hi, rfl⟩ := List.mem_map.mp hs
    rw [List.mem_range, h.2.2.1] at hi
    exact ⟨_, List.getElem_mem hi, h.2.2.2 i _ (List.getElem?_eq_getElem hi)⟩
  | _ => simp [Fcall.strings] at hs

/-- The strings of a decoded message hold no NUL. -/
def Fcall.Clean (buf : List UInt8) (g : Fcall Str ℕ) : Prop :=
  ∀ t, MsgType.ofCode g.type = some t → ∀ s ∈ g.strings t, s.Clean buf

theorem u32_enc_eq {n : ℕ} (h : n < 2 ^ 32) : u32.enc (UInt32.ofNat n) = leBytes 4 n := by
  simp only [u32, Format.word]
  rw [UInt32.toNat_ofNat_of_lt' h]

/-- 9P messages round-trip: what `convS2M` writes, `convM2S` reads back, whatever follows it
in the buffer and whatever the caller's `Fcall` held before. -/
theorem convM2S_convS2M {f : Fcall CStr (List UInt8)} {t : MsgType} (h : f.Wellformed t) {ap : List UInt8}
    (hap : sizeS2M f ≤ ap.length) (tail : List UInt8) (f₀ : Fcall Str ℕ) :
    ∃ msg, msg.length = sizeS2M f ∧
      convS2M f ap = .ok (sizeS2M f) (sizeS2M f) (msg ++ ap.drop (sizeS2M f)) ∧
      ∃ g buf, convM2S (msg ++ tail) f₀ = .ok (sizeS2M f, g) (sizeS2M f) buf ∧
        g.type = f.type ∧ g.tag = f.tag ∧ f.Agree (g.deref buf) t := by
  have hsize := sizeS2M_eq h.toSendable
  have hfits := h.fits
  have hput := convS2M_eq h.toSendable (hsize ▸ hap)
  have hlen := wire_length f t
  refine ⟨f.wire t, hsize.symm, by rwa [← hsize] at hput, ?_⟩
  have hnum : (UInt32.ofNat (sizeS2M f)).toNat = 7 + ((bodyF t).enc (f.body t)).length := by
    rw [UInt32.toNat_ofNat_of_lt' (by rw [hsize]; exact hfits), hsize, hlen]
  have hwire : f.wire t ++ tail = u32.enc (UInt32.ofNat (sizeS2M f)) ++
      (u8.enc f.type ++ (u16.enc f.tag ++ ((bodyF t).enc (f.body t) ++ tail))) := by
    rw [u32_enc_eq (by rw [hsize]; exact hfits), hsize, hlen]
    simp only [Fcall.wire, List.append_assoc]
    rfl
  obtain ⟨g, buf, hget, -, htype, htag, hholds⟩ :=
    convM2S_complete (body_ok h.toSendable) f.tag tail f₀ h.type_eq hnum
  rw [← hwire, UInt32.toNat_ofNat_of_lt' (by rw [hsize]; exact hfits)] at hget
  have hclean : ∀ s ∈ g.strings t, s.Clean buf := by
    intro s hs
    obtain ⟨bs, hbs, hat⟩ := hholds.strings_at s hs
    rw [bodyStrings_body] at hbs
    obtain ⟨r, hr, rfl⟩ := List.mem_map.mp hbs
    exact hat.clean.mpr (h.clean r hr)
  exact ⟨g, buf, hget, htype, htag,
    (Fcall.agree_iff_body_eq h.backed hholds.backed).mpr (hholds.body_eq hclean).symm⟩

/-- An `Fcall` as `memset` leaves it. -/
def Fcall.zero {S D : Type} (s : S) (d : D) : Fcall S D where
  type := 0
  fid := 0
  tag := 0
  msize := 0
  version := s
  oldtag := 0
  ename := s
  qid := ⟨0, 0, 0⟩
  iounit := 0
  aqid := ⟨0, 0, 0⟩
  afid := 0
  uname := s
  aname := s
  perm := 0
  name := s
  mode := 0
  newfid := 0
  nwname := 0
  wname _ := s
  nwqid := 0
  wqid _ := ⟨0, 0, 0⟩
  offset := 0
  count := 0
  data := d
  nstat := 0
  stat := d

/-- A walk of two names, with fid 1 to newfid 2. -/
def twalk : Fcall CStr (List UInt8) :=
  { Fcall.zero none [] with
    type := 110, tag := 1, fid := 1, newfid := 2, nwname := 2
    wname := fun i ↦ if i = 0 then some [117, 115, 114] else none }

theorem convM2S_convS2M_twalk :
    ∃ msg, msg.length = 24 ∧ convS2M twalk (List.replicate 30 0) = .ok 24 24 (msg ++ List.replicate 6 0) ∧
      ∃ g buf, convM2S (msg ++ [7, 7]) (Fcall.zero ⟨0, 0⟩ 0) = .ok (24, g) 24 buf ∧
        g.type = 110 ∧ g.tag = 1 ∧ twalk.Agree (g.deref buf) .Twalk := by
  have hwf : twalk.Wellformed .Twalk := {
    type_eq := rfl
    short := by unfold Fcall.Short; decide
    bounded := by unfold Fcall.Bounded; decide
    backed := trivial
    fits := by decide
    clean := by decide }
  exact convM2S_convS2M hwf (by decide) [7, 7] (Fcall.zero ⟨0, 0⟩ 0)

end Petele.NineP
