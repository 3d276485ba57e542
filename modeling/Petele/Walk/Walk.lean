import Mathlib

namespace Petele.Walk

section Data

structure Qid where
  path : ℕ
  vers : ℕ
  type : ℕ
deriving DecidableEq

def QTDIR : ℕ := 0x80

def Qid.isdir (q : Qid) : Bool := q.type &&& QTDIR ≠ 0

/-- A channel without its path and its counts of references. -/
structure Chan where
  dc : ℕ
  devno : ℕ
  qid : Qid
deriving DecidableEq

abbrev Name := List Char

structure Path where
  s : List Char
  mtpt : List (Option Chan)
deriving DecidableEq

/-- A channel with its path. -/
structure Pos where
  c : Chan
  path : Path
deriving DecidableEq

/-- `from`, the first `mount->to` and those that follow it. -/
structure Mhead where
  mfrom : Option Chan
  first : Chan
  next : List Chan

/-- `mnthash` -/
abbrev Pgrp := ℕ → List Mhead

def MNTLOG : ℕ := 5

def MOUNTH (pg : Pgrp) (qid : Qid) : List Mhead := pg (qid.path % 2 ^ MNTLOG)

/-- What the walk of a device gives. -/
structure Walkqid where
  qid : List Qid
  clone : Option Chan

def MAXWELEM : ℕ := 16

end Data

section Paths

variable (cleanname : List Char → List Char)

def isdotdot (p : Name) : Bool := p = ['.', '.']

def fixdotdotname (s : List Char) : List Char :=
  if s.head? = some '#' then
    let t := s.takeWhile (· ≠ '/')
    let r := s.dropWhile (· ≠ '/')
    if r = [] then s
    else
      let r := cleanname r
      if r = ['/'] ∧ (t ++ r)[1]? ≠ some '/' then t else t ++ r
  else cleanname s

def addelem (p : Path) (s : Name) (mfrom : Option Chan) : Path :=
  if s = ['.'] then p
  else
    let t := (if p.s ≠ [] ∧ p.s.getLast? ≠ some '/' ∧ s.head? ≠ some '/' then p.s ++ ['/'] else p.s) ++ s
    if isdotdot s then ⟨fixdotdotname cleanname t, if 1 < p.mtpt.length then p.mtpt.dropLast else p.mtpt⟩
    else ⟨t, p.mtpt ++ [mfrom]⟩

end Paths

section Mounts

variable (pg : Pgrp)

def eqchanddq (c : Chan) (dc devno : ℕ) (qid : Qid) : Bool := c.qid.path = qid.path && c.dc = dc && c.devno = devno

def findmount (dc devno : ℕ) (qid : Qid) : Option Mhead :=
  (MOUNTH pg qid).find? fun mh => match mh.mfrom with
    | none => false
    | some c => eqchanddq c dc devno qid

/-- The last mount point of a path changes. -/
def Path.setlast (p : Path) (mfrom : Option Chan) : Path :=
  if p.mtpt = [] then p else ⟨p.s, p.mtpt.dropLast ++ [mfrom]⟩

def domount (c : Chan) (mh : Option Mhead) (path : Path) : Chan × Option Mhead × Path :=
  match findmount pg c.dc c.devno c.qid with
  | none => (c, mh, path)
  | some m => (m.first, some m, path.setlast m.mfrom)

def undomount (c : Chan) (path : Path) : Pos :=
  match path.mtpt.getLast? with
  | some (some nc) => ⟨nc, path.setlast none⟩
  | _ => ⟨c, path⟩

end Mounts

section Walk

inductive Err
  | Enotdir
  | Edoesnotexist
  /-- The text is that of the device. -/
  | dev

variable (cleanname : List Char → List Char) (pg : Pgrp) (ewalk : Chan → List Name → Option Walkqid)

/-- How many names are tried, and whether the first of them is dotdot. -/
def ntry (names : List Name) : ℕ × Bool :=
  let l := names.take MAXWELEM
  match l.findIdx? isdotdot with
  | some 0 => (1, true)
  | some i => (i, false)
  | none => (l.length, false)

/-- The first channel that can be walked, and what that gives. -/
def unionwalk (names : List Name) : List Chan → Option (Walkqid × Chan)
  | [] => none
  | c :: l => match ewalk c names with
    | some wq => some (wq, c)
    | none => unionwalk names l

/-- The first mount point along the way. -/
def alongway (dc devno : ℕ) : (i : ℕ) → List Qid → Option (ℕ × Mhead)
  | _, [] => none
  | i, q :: l => match findmount pg dc devno q with
    | some mh => some (i, mh)
    | none => alongway dc devno (i + 1) l

/-- The names are added to the path, the last one with a mount point. -/
def addelems (mtpt : Option Chan) : List Name → Path → Path
  | [], p => p
  | [s], p => addelem cleanname p s mtpt
  | s :: l, p => addelems mtpt l (addelem cleanname p s none)

/-- The loop of `walk`. There is no result if it does not end or an assertion fails. -/
def walkloop (nomount : Bool) : (fuel : ℕ) → Chan → Path → Option Mhead → (didmount : Bool) → (nhave : ℕ) → List Name →
    Option (Except (ℕ × Err) Pos)
  | _, c, path, _, _, _, [] => some (.ok ⟨c, path⟩)
  | 0, _, _, _, _, _, _ :: _ => none
  | fuel + 1, c, path, mh, didmount, nhave, name :: names =>
    if !c.qid.isdir then some (.error (nhave, .Enotdir))
    else
      let l := name :: names
      let t := ntry l
      let m := if !t.2 && !nomount && !didmount then domount pg c mh path else (c, mh, path)
      let members := if nomount then [] else (m.2.1.map Mhead.next).getD []
      match unionwalk ewalk (l.take t.1) (m.1 :: members) with
      | none => some (.error (nhave + 1, .dev))
      | some (wq, f) =>
        if t.2 then
          match wq.qid, wq.clone with
          | [_], some clone =>
            let p := undomount clone (addelem cleanname m.2.2 ['.', '.'] none)
            walkloop nomount fuel p.c p.path none false (nhave + 1) (l.drop 1)
          | _, _ => none
        else
          match if nomount then none else alongway pg f.dc f.devno 0 (wq.qid.take (t.1 - 1)) with
          | some (i, nmh) =>
            walkloop nomount fuel nmh.first (addelems cleanname nmh.mfrom (l.take (i + 1)) m.2.2) (some nmh) true (nhave + (i + 1))
              (l.drop (i + 1))
          | none =>
            match wq.clone with
            | none =>
              if wq.qid.getLast?.all Qid.isdir then some (.error (nhave + wq.qid.length + 1, .Edoesnotexist))
              else some (.error (nhave + wq.qid.length, .Enotdir))
            | some clone =>
              walkloop nomount fuel clone (addelems cleanname none (l.take wq.qid.length) m.2.2) none false (nhave + wq.qid.length)
                (l.drop wq.qid.length)

/-- The result, `*nerror`, the error and `*cp` afterwards. -/
structure Result where
  ret : Int
  nerror : ℕ
  err : Option Err
  cp : Pos

def walk (cp : Pos) (names : List Name) (nomount : Bool) : Option Result :=
  (walkloop cleanname pg ewalk nomount names.length cp.c cp.path none false 0 names).map fun r => match r with
    | .ok p => ⟨0, names.length, none, p⟩
    | .error (n, e) => ⟨-1, n, some e, cp⟩

end Walk

section Parse

/-- skip leading / and ./ as much as possible -/
def skipslash : List Char → List Char
  | '/' :: l => skipslash l
  | ['.'] => []
  | '.' :: '/' :: l => skipslash ('/' :: l)
  | l => l

theorem skipslash_length (l : List Char) : (skipslash l).length ≤ l.length := by
  fun_induction skipslash l with
  | case1 l ih => exact Nat.le_succ_of_le ih
  | case2 => exact Nat.zero_le _
  | case3 l ih => exact Nat.le_succ_of_le ih
  | case4 => exact Nat.le_refl _

/-- The elements that `parsename` finds. -/
def parsename (name : List Char) : List Name :=
  match h : skipslash name with
  | [] => []
  | x :: l =>
    (x :: l).takeWhile (· ≠ '/') :: match h' : (x :: l).dropWhile (· ≠ '/') with
      | [] => []
      | _ :: rest => parsename rest
termination_by name.length
decreasing_by
  have h₁ := skipslash_length name
  have h₂ := ((x :: l).dropWhile_suffix (· ≠ '/')).length_le
  rw [h] at h₁
  rw [h', List.length_cons] at h₂
  omega

end Parse

end Petele.Walk
