import Petele.Lib.Gets

namespace Petele.NineP

open Lib Lib.LittleEndian

def MAXWELEM : ℕ := 16

def BIT8SZ : ℕ := 1
def BIT16SZ : ℕ := 2
def BIT32SZ : ℕ := 4
def BIT64SZ : ℕ := 8
def QIDSZ : ℕ := BIT8SZ + BIT32SZ + BIT64SZ

structure Qid where
  path : UInt64
  vers : UInt32
  type : UInt8
  deriving DecidableEq, Repr

/-- `struct Fcall` over a type `S` of its strings and `D` of its payloads. Every message
type keeps its fields in one arm of the union, so the arms stand side by side here. The
arrays are indexed by any number: what lies past `MAXWELEM` entries is whatever memory holds. -/
structure Fcall (S D : Type) where
  type : UInt8
  fid : UInt32
  tag : UInt16
  msize : UInt32
  version : S
  oldtag : UInt16
  ename : S
  qid : Qid
  iounit : UInt32
  aqid : Qid
  afid : UInt32
  uname : S
  aname : S
  perm : UInt32
  name : S
  mode : UInt8
  newfid : UInt32
  nwname : UInt16
  wname : ℕ → S
  nwqid : UInt16
  wqid : ℕ → Qid
  offset : UInt64
  count : UInt32
  data : D
  nstat : UInt16
  stat : D

/-- The message types of `fcall.h`, less the illegal `Terror`. -/
inductive MsgType
  | Tversion | Rversion | Tauth | Rauth | Tattach | Rattach | Rerror | Tflush | Rflush
  | Twalk | Rwalk | Topen | Ropen | Tcreate | Rcreate | Tread | Rread | Twrite | Rwrite
  | Tclunk | Rclunk | Tremove | Rremove | Tstat | Rstat | Twstat | Rwstat
  deriving DecidableEq, Repr

namespace MsgType

def code : MsgType → UInt8
  | Tversion => 100
  | Rversion => 101
  | Tauth => 102
  | Rauth => 103
  | Tattach => 104
  | Rattach => 105
  | Rerror => 107
  | Tflush => 108
  | Rflush => 109
  | Twalk => 110
  | Rwalk => 111
  | Topen => 112
  | Ropen => 113
  | Tcreate => 114
  | Rcreate => 115
  | Tread => 116
  | Rread => 117
  | Twrite => 118
  | Rwrite => 119
  | Tclunk => 120
  | Rclunk => 121
  | Tremove => 122
  | Rremove => 123
  | Tstat => 124
  | Rstat => 125
  | Twstat => 126
  | Rwstat => 127

def all : List MsgType :=
  [Tversion, Rversion, Tauth, Rauth, Tattach, Rattach, Rerror, Tflush, Rflush,
    Twalk, Rwalk, Topen, Ropen, Tcreate, Rcreate, Tread, Rread, Twrite, Rwrite,
    Tclunk, Rclunk, Tremove, Rremove, Tstat, Rstat, Twstat, Rwstat]

/-- The case label a type byte selects; `none` is the `default` label. -/
def ofCode (c : UInt8) : Option MsgType := all.find? (fun t ↦ t.code == c)

theorem ofCode_code (t : MsgType) : ofCode t.code = some t := by cases t <;> rfl

theorem code_of_ofCode {c : UInt8} {t : MsgType} (h : ofCode c = some t) : t.code = c := by
  simpa using List.find?_some h

end MsgType

/-- A C string: nil, or the bytes before its terminating NUL. -/
abbrev CStr := Option (List UInt8)

def strlen (s : List UInt8) : ℕ := s.length

def GBIT8 (p : List UInt8) : UInt8 := p.getD 0 0

def GBIT16 (p : List UInt8) : UInt16 :=
  UInt16.ofNat ((p.getD 0 0).toNat ||| (p.getD 1 0).toNat <<< 8)

def GBIT32 (p : List UInt8) : UInt32 :=
  UInt32.ofNat ((p.getD 0 0).toNat ||| (p.getD 1 0).toNat <<< 8 ||| (p.getD 2 0).toNat <<< 16 |||
    (p.getD 3 0).toNat <<< 24)

def GBIT64 (p : List UInt8) : UInt64 :=
  UInt64.ofNat (((p.getD 0 0).toNat ||| (p.getD 1 0).toNat <<< 8 ||| (p.getD 2 0).toNat <<< 16 |||
      (p.getD 3 0).toNat <<< 24) |||
    ((p.getD 4 0).toNat ||| (p.getD 5 0).toNat <<< 8 ||| (p.getD 6 0).toNat <<< 16 |||
      (p.getD 7 0).toNat <<< 24) <<< 32)

def PBIT8 (v : UInt8) : List UInt8 := [v]

def PBIT16 (v : ℕ) : List UInt8 := [UInt8.ofNat v, UInt8.ofNat (v >>> 8)]

def PBIT32 (v : ℕ) : List UInt8 :=
  [UInt8.ofNat v, UInt8.ofNat (v >>> 8), UInt8.ofNat (v >>> 16), UInt8.ofNat (v >>> 24)]

def PBIT64 (v : ℕ) : List UInt8 :=
  [UInt8.ofNat v, UInt8.ofNat (v >>> 8), UInt8.ofNat (v >>> 16), UInt8.ofNat (v >>> 24),
    UInt8.ofNat (v >>> 32), UInt8.ofNat (v >>> 40), UInt8.ofNat (v >>> 48), UInt8.ofNat (v >>> 56)]

theorem PBIT16_eq (v : ℕ) : PBIT16 v = leBytes 2 v := by
  simp only [PBIT16, leBytes, Nat.shiftRight_eq_div_pow]

theorem PBIT32_eq (v : ℕ) : PBIT32 v = leBytes 4 v := by
  simp only [PBIT32, leBytes, Nat.shiftRight_eq_div_pow, Nat.div_div_eq_div_mul]

theorem PBIT64_eq (v : ℕ) : PBIT64 v = leBytes 8 v := by
  simp only [PBIT64, leBytes, Nat.shiftRight_eq_div_pow, Nat.div_div_eq_div_mul]

theorem GBIT16_eq {p : List UInt8} (h : p.length = 2) : GBIT16 p = UInt16.ofNat (leVal p) := by
  match p, h with
  | [a, b], _ =>
    have ha := a.toNat_lt
    simp only [GBIT16, leVal, List.getD_cons_zero, List.getD_cons_succ]
    rw [or_shiftLeft (by omega)]
    norm_num

/-- Four bytes put together by the shifts of `GBIT32`. -/
theorem or_four (a b c d : UInt8) :
    a.toNat ||| b.toNat <<< 8 ||| c.toNat <<< 16 ||| d.toNat <<< 24 = leVal [a, b, c, d] := by
  have ha := a.toNat_lt
  have hb := b.toNat_lt
  have hc := c.toNat_lt
  have h₁ : a.toNat ||| b.toNat <<< 8 = a.toNat + 2 ^ 8 * b.toNat := or_shiftLeft (by omega)
  have h₂ : (a.toNat + 2 ^ 8 * b.toNat) ||| c.toNat <<< 16 =
      a.toNat + 2 ^ 8 * b.toNat + 2 ^ 16 * c.toNat := or_shiftLeft (by omega)
  rw [h₁, h₂, or_shiftLeft (by omega)]
  simp only [leVal]
  omega

theorem GBIT32_eq {p : List UInt8} (h : p.length = 4) : GBIT32 p = UInt32.ofNat (leVal p) := by
  match p, h with
  | [a, b, c, d], _ => simp only [GBIT32, List.getD_cons_zero, List.getD_cons_succ, or_four]

theorem GBIT64_eq {p : List UInt8} (h : p.length = 8) : GBIT64 p = UInt64.ofNat (leVal p) := by
  match p, h with
  | [a, b, c, d, e, f, g, i], _ =>
    have hlow := leVal_lt [a, b, c, d]
    simp only [GBIT64, List.getD_cons_zero, List.getD_cons_succ, or_four]
    rw [or_shiftLeft (by simpa using hlow)]
    simp only [leVal]
    congr 1
    omega

end Petele.NineP
