import Petele.NineP.Fcall

namespace Petele.NineP

open Lib Lib.LittleEndian

/-! The 9P grammar as formats, apart from the code that reads and writes it. -/

def u8 : Format UInt8 :=
  Format.word 1 UInt8.toNat UInt8.ofNat (fun a ↦ a.toNat_lt) (fun _ ↦ UInt8.ofNat_toNat)
    (fun _ h ↦ UInt8.toNat_ofNat_of_lt' h)

def u16 : Format UInt16 :=
  Format.word 2 UInt16.toNat UInt16.ofNat (fun a ↦ a.toNat_lt) (fun _ ↦ UInt16.ofNat_toNat)
    (fun _ h ↦ UInt16.toNat_ofNat_of_lt' h)

def u32 : Format UInt32 :=
  Format.word 4 UInt32.toNat UInt32.ofNat (fun a ↦ a.toNat_lt) (fun _ ↦ UInt32.ofNat_toNat)
    (fun _ h ↦ UInt32.toNat_ofNat_of_lt' h)

def u64 : Format UInt64 :=
  Format.word 8 UInt64.toNat UInt64.ofNat (fun a ↦ a.toNat_lt) (fun _ ↦ UInt64.ofNat_toNat)
    (fun _ h ↦ UInt64.toNat_ofNat_of_lt' h)

/-- A string or a stat entry: a 16-bit count and that many bytes. -/
def str : Format (List UInt8) :=
  Format.counted (Format.count 2 (256 ^ 2)) Format.blob List.length (fun _ _ h ↦ h)

/-- The payload of a read or write: a 32-bit count and that many bytes. -/
def payload : Format (List UInt8) :=
  Format.counted (Format.count 4 (256 ^ 4)) Format.blob List.length (fun _ _ h ↦ h)

def qidF : Format Qid :=
  (u8.pair (u32.pair u64)).iso (fun x ↦ { type := x.1, vers := x.2.1, path := x.2.2 })
    (fun q ↦ (q.type, q.vers, q.path)) (fun _ ↦ rfl) (fun _ ↦ rfl)

/-- At most `MAXWELEM` items behind their 16-bit number. -/
def several {α : Type} (F : Format α) : Format (List α) :=
  Format.counted (Format.count 2 MAXWELEM) F.rep List.length (fun _ _ h ↦ h.1)

/-- The fields of each message type, in the order they travel. -/
abbrev Body : MsgType → Type
  | .Tversion | .Rversion => UInt32 × List UInt8
  | .Tauth => UInt32 × List UInt8 × List UInt8
  | .Rauth | .Rattach => Qid
  | .Tattach => UInt32 × UInt32 × List UInt8 × List UInt8
  | .Rerror => List UInt8
  | .Tflush => UInt16
  | .Rflush | .Rclunk | .Rremove | .Rwstat => Unit
  | .Twalk => UInt32 × UInt32 × List (List UInt8)
  | .Rwalk => List Qid
  | .Topen => UInt32 × UInt8
  | .Ropen | .Rcreate => Qid × UInt32
  | .Tcreate => UInt32 × List UInt8 × UInt32 × UInt8
  | .Tread => UInt32 × UInt64 × UInt32
  | .Rread => List UInt8
  | .Twrite => UInt32 × UInt64 × List UInt8
  | .Rwrite | .Tclunk | .Tremove | .Tstat => UInt32
  | .Rstat => List UInt8
  | .Twstat => UInt32 × List UInt8

def bodyF : (t : MsgType) → Format (Body t)
  | .Tversion | .Rversion => u32.pair str
  | .Tauth => u32.pair (str.pair str)
  | .Rauth | .Rattach => qidF
  | .Tattach => u32.pair (u32.pair (str.pair str))
  | .Rerror => str
  | .Tflush => u16
  | .Rflush | .Rclunk | .Rremove | .Rwstat => Format.empty
  | .Twalk => u32.pair (u32.pair (several str))
  | .Rwalk => several qidF
  | .Topen => u32.pair u8
  | .Ropen | .Rcreate => qidF.pair u32
  | .Tcreate => u32.pair (str.pair (u32.pair u8))
  | .Tread => u32.pair (u64.pair u32)
  | .Rread => payload
  | .Twrite => u32.pair (u64.pair payload)
  | .Rwrite | .Tclunk | .Tremove | .Tstat => u32
  | .Rstat => str
  | .Twstat => u32.pair str

namespace Fcall

/-- What a message of type `t` carries of an `Fcall`; nil counts as the empty string. -/
def body (f : Fcall CStr (List UInt8)) : (t : MsgType) → Body t
  | .Tversion | .Rversion => (f.msize, f.version.getD [])
  | .Tauth => (f.afid, f.uname.getD [], f.aname.getD [])
  | .Rauth => f.aqid
  | .Rattach => f.qid
  | .Tattach => (f.fid, f.afid, f.uname.getD [], f.aname.getD [])
  | .Rerror => f.ename.getD []
  | .Tflush => f.oldtag
  | .Rflush | .Rclunk | .Rremove | .Rwstat => ()
  | .Twalk => (f.fid, f.newfid, (List.range f.nwname.toNat).map (fun i ↦ (f.wname i).getD []))
  | .Rwalk => (List.range f.nwqid.toNat).map f.wqid
  | .Topen => (f.fid, f.mode)
  | .Ropen | .Rcreate => (f.qid, f.iounit)
  | .Tcreate => (f.fid, f.name.getD [], f.perm, f.mode)
  | .Tread => (f.fid, f.offset, f.count)
  | .Rread => f.data.take f.count.toNat
  | .Twrite => (f.fid, f.offset, f.data.take f.count.toNat)
  | .Rwrite => f.count
  | .Tclunk | .Tremove | .Tstat => f.fid
  | .Rstat => f.stat.take f.nstat.toNat
  | .Twstat => (f.fid, f.stat.take f.nstat.toNat)

/-- The strings a message of type `t` uses. -/
def strings {S D : Type} (f : Fcall S D) : MsgType → List S
  | .Tversion | .Rversion => [f.version]
  | .Tauth | .Tattach => [f.uname, f.aname]
  | .Rerror => [f.ename]
  | .Twalk => (List.range f.nwname.toNat).map f.wname
  | .Tcreate => [f.name]
  | _ => []

/-- Two `Fcall`s agree on every field of a message of type `t`. -/
def Agree (f g : Fcall CStr (List UInt8)) : MsgType → Prop
  | .Tversion | .Rversion => f.msize = g.msize ∧ f.version.getD [] = g.version.getD []
  | .Tauth => f.afid = g.afid ∧ f.uname.getD [] = g.uname.getD [] ∧ f.aname.getD [] = g.aname.getD []
  | .Rauth => f.aqid = g.aqid
  | .Rattach => f.qid = g.qid
  | .Tattach =>
    f.fid = g.fid ∧ f.afid = g.afid ∧ f.uname.getD [] = g.uname.getD [] ∧
      f.aname.getD [] = g.aname.getD []
  | .Rerror => f.ename.getD [] = g.ename.getD []
  | .Tflush => f.oldtag = g.oldtag
  | .Rflush | .Rclunk | .Rremove | .Rwstat => True
  | .Twalk =>
    f.fid = g.fid ∧ f.newfid = g.newfid ∧ f.nwname = g.nwname ∧
      ∀ i, i < f.nwname.toNat → (f.wname i).getD [] = (g.wname i).getD []
  | .Rwalk => f.nwqid = g.nwqid ∧ ∀ i, i < f.nwqid.toNat → f.wqid i = g.wqid i
  | .Topen => f.fid = g.fid ∧ f.mode = g.mode
  | .Ropen | .Rcreate => f.qid = g.qid ∧ f.iounit = g.iounit
  | .Tcreate =>
    f.fid = g.fid ∧ f.name.getD [] = g.name.getD [] ∧ f.perm = g.perm ∧ f.mode = g.mode
  | .Tread => f.fid = g.fid ∧ f.offset = g.offset ∧ f.count = g.count
  | .Rread => f.count = g.count ∧ f.data.take f.count.toNat = g.data.take g.count.toNat
  | .Twrite =>
    f.fid = g.fid ∧ f.offset = g.offset ∧ f.count = g.count ∧
      f.data.take f.count.toNat = g.data.take g.count.toNat
  | .Rwrite => f.count = g.count
  | .Tclunk | .Tremove | .Tstat => f.fid = g.fid
  | .Rstat => f.nstat = g.nstat ∧ f.stat.take f.nstat.toNat = g.stat.take g.nstat.toNat
  | .Twstat =>
    f.fid = g.fid ∧ f.nstat = g.nstat ∧ f.stat.take f.nstat.toNat = g.stat.take g.nstat.toNat

/-- The counted memory behind `data` and `stat` is really there. -/
def Backed (f : Fcall CStr (List UInt8)) : MsgType → Prop
  | .Twrite | .Rread => f.count.toNat ≤ f.data.length
  | .Twstat | .Rstat => f.nstat.toNat ≤ f.stat.length
  | _ => True

/-- The bounds `convS2M` and `convM2S` put on the numbers of names and qids. -/
def Bounded {S D : Type} (f : Fcall S D) : MsgType → Prop
  | .Twalk => f.nwname.toNat ≤ MAXWELEM
  | .Rwalk => f.nwqid.toNat ≤ MAXWELEM
  | _ => True

theorem take_length_inj {n m : ℕ} {l k : List UInt8} (hn : n ≤ l.length) (hm : m ≤ k.length)
    (h : l.take n = k.take m) : n = m := by
  have h := congrArg List.length h
  rwa [List.length_take, List.length_take, Nat.min_eq_left hn, Nat.min_eq_left hm] at h

theorem agree_iff_body_eq {f g : Fcall CStr (List UInt8)} {t : MsgType} (hf : f.Backed t) (hg : g.Backed t) :
    f.Agree g t ↔ f.body t = g.body t := by
  have range_inj {α : Type} {n m : UInt16} {a b : ℕ → α} :
      (List.range n.toNat).map a = (List.range m.toNat).map b ↔ n = m ∧ ∀ i, i < n.toNat → a i = b i := by
    constructor
    · intro h
      have hlen := congrArg List.length h
      simp only [List.length_map, List.length_range] at hlen
      obtain rfl := UInt16.toNat_inj.mp hlen
      exact ⟨rfl, fun i hi ↦ List.map_inj_left.mp h i (List.mem_range.mpr hi)⟩
    · rintro ⟨rfl, h⟩
      exact List.map_inj_left.mpr (fun i hi ↦ h i (List.mem_range.mp hi))
  have count_iff (hf : f.count.toNat ≤ f.data.length) (hg : g.count.toNat ≤ g.data.length) :
      f.count = g.count ∧ f.data.take f.count.toNat = g.data.take g.count.toNat ↔
        f.data.take f.count.toNat = g.data.take g.count.toNat :=
    ⟨And.right, fun h ↦ ⟨UInt32.toNat_inj.mp (take_length_inj hf hg h), h⟩⟩
  have nstat_iff (hf : f.nstat.toNat ≤ f.stat.length) (hg : g.nstat.toNat ≤ g.stat.length) :
      f.nstat = g.nstat ∧ f.stat.take f.nstat.toNat = g.stat.take g.nstat.toNat ↔
        f.stat.take f.nstat.toNat = g.stat.take g.nstat.toNat :=
    ⟨And.right, fun h ↦ ⟨UInt16.toNat_inj.mp (take_length_inj hf hg h), h⟩⟩
  cases t with
  | Rread => exact count_iff hf hg
  | Twrite => simp only [Agree, body, Prod.mk.injEq, count_iff hf hg]
  | Rstat => exact nstat_iff hf hg
  | Twstat => simp only [Agree, body, Prod.mk.injEq, nstat_iff hf hg]
  | Twalk => simp only [Agree, body, Prod.mk.injEq, range_inj]
  | Rwalk => simp only [Agree, body, range_inj]
  | Rflush | Rclunk | Rremove | Rwstat => simp only [Agree, body]
  | _ => simp only [Agree, body, Prod.mk.injEq]

end Fcall

end Petele.NineP
