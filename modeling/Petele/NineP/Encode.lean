import Petele.NineP.Conv
import Petele.NineP.Grammar

namespace Petele.NineP

open Lib Lib.LittleEndian

theorem puts_pbit8 (v : UInt8) : Puts (u8.enc v) (pbit8 v) := by
  have h : u8.enc v = PBIT8 v := by simp [u8, Format.word, leBytes, PBIT8]
  rw [h]
  exact Puts.poke (PBIT8 v)

theorem puts_pbit16 (v : ℕ) : Puts (leBytes 2 v) (pbit16 v) := by
  rw [← PBIT16_eq]
  exact Puts.poke (PBIT16 v)

theorem puts_pbit32 (v : ℕ) : Puts (leBytes 4 v) (pbit32 v) := by
  rw [← PBIT32_eq]
  exact Puts.poke (PBIT32 v)

theorem puts_pbit64 (v : ℕ) : Puts (leBytes 8 v) (pbit64 v) := by
  rw [← PBIT64_eq]
  exact Puts.poke (PBIT64 v)

theorem puts_pqid (q : Qid) : Puts (qidF.enc q) (pqid q) :=
  (puts_pbit8 q.type).andThen ((puts_pbit32 q.vers.toNat).andThen (puts_pbit64 q.path.toNat))

theorem puts_pdata {v : List UInt8} {n : ℕ} (h : n ≤ v.length) : Puts (v.take n) (pdata v n) := by
  have hlen : (v.take n).length = n := by rw [List.length_take]; omega
  have hput := Puts.poke (v.take n)
  rwa [hlen] at hput

/-- `pstring` writes the bytes first and the count in front of them afterwards. -/
theorem puts_pstring {s : CStr} (h : (s.getD []).length < 2 ^ 32) : Puts (str.enc (s.getD [])) (pstring s) := by
  cases s with
  | none => exact puts_pbit16 0
  | some s =>
    intro pre old post hold
    have hn : strlen s % 2 ^ 32 = s.length := Nat.mod_eq_of_lt h
    have hlen : (str.enc s).length = 2 + s.length := by simp [str, Format.counted, Format.count, Format.blob]
    rw [Option.getD_some, hlen] at hold
    have htake : (old.take 2).length = 2 := by rw [List.length_take]; omega
    have hdrop : (old.drop 2).length = s.length := by rw [List.length_drop]; omega
    have h₁ : (Cursor.poke BIT16SZ s).run pre.length (pre ++ (old ++ post)) =
        .ok () pre.length (pre ++ (old.take 2 ++ (s ++ post))) := by
      have h := @Cursor.run_poke pre (old.take 2) (old.drop 2) s post 2 htake.symm hdrop.symm
      rwa [← List.append_assoc (old.take 2), List.take_append_drop] at h
    have h₂ : (Cursor.poke 0 (PBIT16 s.length)).run pre.length (pre ++ (old.take 2 ++ (s ++ post))) =
        .ok () pre.length (pre ++ (PBIT16 s.length ++ (s ++ post))) :=
      @Cursor.run_poke pre [] (old.take 2) (PBIT16 s.length) (s ++ post) 0 rfl htake.symm
    have hstr : str.enc s = PBIT16 s.length ++ s := by
      rw [PBIT16_eq]
      rfl
    simp only [pstring, hn, Option.getD_some, List.take_length]
    rw [Cursor.bind_ok _ h₁, Cursor.bind_ok _ h₂, Cursor.run_advance, hstr, List.append_assoc,
      List.length_append, Nat.add_comm s.length]
    rfl

/-- Every string a message of type `t` uses is short enough for its count. -/
def Fcall.Short (f : Fcall CStr (List UInt8)) (t : MsgType) : Prop :=
  ∀ s ∈ f.strings t, (s.getD []).length < 2 ^ 16

theorem puts_short {s : CStr} (h : (s.getD []).length < 2 ^ 16) : Puts (str.enc (s.getD [])) (pstring s) :=
  puts_pstring (by omega)

theorem puts_wname {f : Fcall CStr (List UInt8)} (hs : f.Short .Twalk) :
    Puts (((List.range f.nwname.toNat).map (fun i ↦ (f.wname i).getD [])).flatMap str.enc)
      ((List.range f.nwname.toNat).forM (fun i ↦ pstring (f.wname i))) := by
  rw [List.flatMap_map]
  exact Puts.forEach _ (fun i hi ↦ puts_short (hs _ (List.mem_map_of_mem hi)))

theorem puts_putBody {f : Fcall CStr (List UInt8)} {t : MsgType} (hs : f.Short t) (hb : f.Backed t)
    (hn : f.Bounded t) : Puts ((bodyF t).enc (f.body t)) (putBody f t) := by
  have data_enc (hb : f.count.toNat ≤ f.data.length) :
      payload.enc (f.data.take f.count.toNat) = leBytes 4 f.count.toNat ++ f.data.take f.count.toNat := by
    simp [payload, Format.counted, Format.count, Format.blob, Nat.min_eq_left hb]
  have stat_enc (hb : f.nstat.toNat ≤ f.stat.length) :
      str.enc (f.stat.take f.nstat.toNat) = leBytes 2 f.nstat.toNat ++ f.stat.take f.nstat.toNat := by
    simp [str, Format.counted, Format.count, Format.blob, Nat.min_eq_left hb]
  cases t with
  | Tversion | Rversion => exact (puts_pbit32 _).andThen (puts_short (hs _ (by simp [Fcall.strings])))
  | Tflush => exact puts_pbit16 _
  | Tauth =>
    exact (puts_pbit32 _).andThen ((puts_short (hs _ (by simp [Fcall.strings]))).andThen
      (puts_short (hs _ (by simp [Fcall.strings]))))
  | Tattach =>
    exact (puts_pbit32 _).andThen ((puts_pbit32 _).andThen
      ((puts_short (hs _ (by simp [Fcall.strings]))).andThen
        (puts_short (hs _ (by simp [Fcall.strings])))))
  | Twalk =>
    have hle : ¬ f.nwname.toNat > MAXWELEM := Nat.not_lt.mpr hn
    have h := (puts_pbit32 f.fid.toNat).andThen ((puts_pbit32 f.newfid.toNat).andThen
      ((puts_pbit16 f.nwname.toNat).andThen (puts_wname hs)))
    simpa [putBody, bodyF, Fcall.body, hle, several, u32, Format.pair, Format.word, Format.counted,
      Format.count, Format.rep] using h
  | Topen => exact (puts_pbit32 _).andThen (puts_pbit8 _)
  | Tcreate =>
    exact (puts_pbit32 _).andThen ((puts_short (hs _ (by simp [Fcall.strings]))).andThen
      ((puts_pbit32 _).andThen (puts_pbit8 _)))
  | Tread => exact (puts_pbit32 _).andThen ((puts_pbit64 _).andThen (puts_pbit32 _))
  | Twrite =>
    have h := (puts_pbit32 f.fid.toNat).andThen ((puts_pbit64 f.offset.toNat).andThen
      ((puts_pbit32 f.count.toNat).andThen (puts_pdata hb)))
    rwa [← data_enc hb] at h
  | Tclunk | Tremove | Tstat | Rwrite => exact puts_pbit32 _
  | Twstat =>
    have h := (puts_pbit32 f.fid.toNat).andThen ((puts_pbit16 f.nstat.toNat).andThen (puts_pdata hb))
    rwa [← stat_enc hb] at h
  | Rerror => exact puts_short (hs _ (by simp [Fcall.strings]))
  | Rflush | Rclunk | Rremove | Rwstat => exact Puts.nothing
  | Rauth | Rattach => exact puts_pqid _
  | Rwalk =>
    have hle : ¬ f.nwqid.toNat > MAXWELEM := Nat.not_lt.mpr hn
    have h := (puts_pbit16 f.nwqid.toNat).andThen
      (Puts.forEach (List.range f.nwqid.toNat) (fun i _ ↦ puts_pqid (f.wqid i)))
    rw [← List.flatMap_map] at h
    simpa [putBody, bodyF, Fcall.body, hle, several, Format.counted, Format.count, Format.rep] using h
  | Ropen | Rcreate => exact (puts_pqid _).andThen (puts_pbit32 _)
  | Rread =>
    have h := (puts_pbit32 f.count.toNat).andThen (puts_pdata hb)
    rwa [← data_enc hb] at h
  | Rstat =>
    have h := (puts_pbit16 f.nstat.toNat).andThen (puts_pdata hb)
    rwa [← stat_enc hb] at h

theorem str_enc_length (s : List UInt8) : (str.enc s).length = 2 + s.length := by
  simp [str, Format.counted, Format.count, Format.blob]

theorem stringsz_eq (s : CStr) : stringsz s = (str.enc (s.getD [])).length := by
  rw [str_enc_length]
  cases s <;> rfl

theorem qid_enc_length (q : Qid) : (qidF.enc q).length = QIDSZ := by
  simp [qidF, Format.iso, Format.pair, u8, u32, u64, Format.word, QIDSZ, BIT8SZ, BIT32SZ, BIT64SZ]

theorem sizeBody_eq {f : Fcall CStr (List UInt8)} {t : MsgType} (hb : f.Backed t) :
    sizeBody f t = ((bodyF t).enc (f.body t)).length := by
  have names_length : (((List.range f.nwname.toNat).map (fun i ↦ (f.wname i).getD [])).flatMap str.enc).length =
      ((List.range f.nwname.toNat).map (fun i ↦ stringsz (f.wname i))).sum := by
    rw [List.length_flatMap, List.map_map]
    congr 1
    exact List.map_congr_left (fun i _ ↦ (stringsz_eq _).symm)
  have qids_length : (((List.range f.nwqid.toNat).map f.wqid).flatMap qidF.enc).length =
      f.nwqid.toNat * QIDSZ := by
    simp only [List.length_flatMap, qid_enc_length, List.map_const', List.length_map, List.length_range,
      List.sum_replicate_nat]
  have data_length (hb : f.count.toNat ≤ f.data.length) :
      (payload.enc (f.data.take f.count.toNat)).length = 4 + f.count.toNat := by
    simp [payload, Format.counted, Format.count, Format.blob, Nat.min_eq_left hb]
  have stat_length (hb : f.nstat.toNat ≤ f.stat.length) :
      (str.enc (f.stat.take f.nstat.toNat)).length = 2 + f.nstat.toNat := by
    rw [str_enc_length, List.length_take, Nat.min_eq_left hb]
  cases t with
  | Twalk =>
    simp only [bodyF, Fcall.body, sizeBody, several, Format.pair, Format.counted, Format.count, Format.rep,
      List.length_append, names_length, u32, Format.word, leBytes_length, BIT32SZ, BIT16SZ]
    omega
  | Rwalk =>
    simp only [bodyF, Fcall.body, sizeBody, several, Format.counted, Format.count, Format.rep,
      List.length_append, qids_length, leBytes_length, BIT16SZ]
  | Twrite =>
    simp only [bodyF, Fcall.body, sizeBody, Format.pair, List.length_append, data_length hb, u32, u64,
      Format.word, leBytes_length, BIT32SZ, BIT64SZ]
    omega
  | Rread => simp only [bodyF, Fcall.body, sizeBody, data_length hb, BIT32SZ]
  | Twstat =>
    simp only [bodyF, Fcall.body, sizeBody, Format.pair, List.length_append, stat_length hb, u32,
      Format.word, leBytes_length, BIT32SZ, BIT16SZ]
    omega
  | Rstat => simp only [bodyF, Fcall.body, sizeBody, stat_length hb, BIT16SZ]
  | Rflush | Rclunk | Rremove | Rwstat => rfl
  | Rerror => simp only [bodyF, Fcall.body, sizeBody, stringsz_eq]
  | _ =>
    simp only [bodyF, Fcall.body, sizeBody, Format.pair, List.length_append, stringsz_eq, qid_enc_length,
      u8, u16, u32, u64, Format.word, leBytes_length, BIT8SZ, BIT16SZ, BIT32SZ, BIT64SZ] <;> omega

/-- The bytes of a message of type `t`. -/
def Fcall.wire (f : Fcall CStr (List UInt8)) (t : MsgType) : List UInt8 :=
  leBytes 4 (7 + ((bodyF t).enc (f.body t)).length) ++
    (u8.enc f.type ++ (leBytes 2 f.tag.toNat ++ (bodyF t).enc (f.body t)))

theorem wire_length (f : Fcall CStr (List UInt8)) (t : MsgType) :
    (f.wire t).length = 7 + ((bodyF t).enc (f.body t)).length := by
  simp only [Fcall.wire, List.length_append, leBytes_length, u8, Format.word]
  omega

/-- A message the protocol can carry: its type has a case label, its strings fit their
counts, its numbers of names and qids are allowed, and its size fits its size field. -/
structure Fcall.Sendable (f : Fcall CStr (List UInt8)) (t : MsgType) : Prop where
  type_eq : MsgType.ofCode f.type = some t
  short : f.Short t
  bounded : f.Bounded t
  backed : f.Backed t
  fits : (f.wire t).length < 2 ^ 32

theorem sizeS2M_eq {f : Fcall CStr (List UInt8)} {t : MsgType} (h : f.Sendable t) :
    sizeS2M f = (f.wire t).length := by
  have hfits := h.fits
  rw [wire_length] at hfits
  simp only [sizeS2M, h.type_eq, sizeBody_eq h.backed, wire_length]
  exact Nat.mod_eq_of_lt hfits

theorem convS2M_eq {f : Fcall CStr (List UInt8)} {t : MsgType} (h : f.Sendable t) {ap : List UInt8}
    (hap : (f.wire t).length ≤ ap.length) :
    convS2M f ap = .ok (sizeS2M f) (sizeS2M f) (f.wire t ++ ap.drop (f.wire t).length) := by
  have hsize := sizeS2M_eq h
  have hpos : 0 < (f.wire t).length := by rw [wire_length]; omega
  have hput : Puts (f.wire t) (do
      pbit32 (sizeS2M f)
      pbit8 f.type
      pbit16 f.tag.toNat
      putBody f t) := by
    rw [hsize, wire_length]
    exact (puts_pbit32 _).andThen ((puts_pbit8 _).andThen ((puts_pbit16 _).andThen
      (puts_putBody h.short h.backed h.bounded)))
  have hrun := hput [] (ap.take (f.wire t).length) (ap.drop (f.wire t).length)
    (by rw [List.length_take]; omega)
  simp only [List.nil_append, List.take_append_drop, List.length_nil, Nat.zero_add] at hrun
  have hne : sizeS2M f ≠ 0 := by omega
  have hle : ¬ sizeS2M f > ap.length := by omega
  have hassoc : (do
      pbit32 (sizeS2M f)
      pbit8 f.type
      pbit16 f.tag.toNat
      putBody f t
      let p ← Cursor.here
      if sizeS2M f ≠ p then Cursor.quit else return sizeS2M f) = (do
        pbit32 (sizeS2M f)
        pbit8 f.type
        pbit16 f.tag.toNat
        putBody f t) >>= fun _ ↦ (do
          let p ← Cursor.here
          if sizeS2M f ≠ p then Cursor.quit else return sizeS2M f) := by
    simp only [Cursor.bind_assoc]
  simp only [convS2M, if_neg hne, if_neg hle, h.type_eq]
  rw [hassoc, Cursor.bind_ok _ hrun, Cursor.bind_ok _ (Cursor.run_here _ _), if_neg (by omega), hsize]
  rfl

end Petele.NineP
