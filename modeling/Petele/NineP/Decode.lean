import Petele.NineP.Conv
import Petele.NineP.Grammar

namespace Petele.NineP

open Lib Lib.LittleEndian

theorem GBIT8_eq {p : List UInt8} (h : p.length = 1) : GBIT8 p = UInt8.ofNat (leVal p) := by
  match p, h with
  | [b], _ => simp [GBIT8, leVal]

theorem gets_gbit8 : Gets 1 u8 (fun _ a b ↦ a = b) gbit8 := Gets.word (fun _ h ↦ GBIT8_eq h)

theorem gets_gbit16 : Gets 2 u16 (fun _ a b ↦ a = b) gbit16 := Gets.word (fun _ h ↦ GBIT16_eq h)

theorem gets_gbit32 : Gets 4 u32 (fun _ a b ↦ a = b) gbit32 := Gets.word (fun _ h ↦ GBIT32_eq h)

theorem gets_gbit64 : Gets 8 u64 (fun _ a b ↦ a = b) gbit64 := Gets.word (fun _ h ↦ GBIT64_eq h)

theorem u8_length (a : UInt8) : (u8.enc a).length = 1 := leBytes_length _ _

theorem u16_length (a : UInt16) : (u16.enc a).length = 2 := leBytes_length _ _

theorem u32_length (a : UInt32) : (u32.enc a).length = 4 := leBytes_length _ _

theorem u64_length (a : UInt64) : (u64.enc a).length = 8 := leBytes_length _ _

/-- A word read as the number it stands for. -/
theorem Gets.number {α : Type} {w n : ℕ} {toNat : α → ℕ} {ofNat : ℕ → α} {hlt : ∀ a, toNat a < 256 ^ w}
    {hof : ∀ a, ofNat (toNat a) = a} {hto : ∀ k, k < 256 ^ w → toNat (ofNat k) = k} {m : Cursor α}
    (h : Gets n (Format.word w toNat ofNat hlt hof hto) (fun _ a b ↦ a = b) m) :
    Gets n (Format.count w (256 ^ w)) (fun _ a v ↦ toNat a = v) m := by
  intro pre todo hlen
  obtain ⟨hnone, hsome⟩ := h pre todo hlen
  by_cases hw : w ≤ todo.length
  · have hval := leVal_lt (todo.take w)
    rw [List.length_take, Nat.min_eq_left hw] at hval
    have hdec : (Format.word w toNat ofNat hlt hof hto).dec todo =
        some (ofNat (leVal (todo.take w)), todo.drop w) := by simp [Format.word, hw]
    obtain ⟨a, mid, hmid, hrun, hV⟩ := hsome _ _ hdec
    refine ⟨fun hd ↦ ?_, fun v rest hd ↦ ?_⟩
    · simp [Format.count, hw, hval.le] at hd
    · simp only [Format.count, hw, hval.le, if_true, Option.some.injEq, Prod.mk.injEq] at hd
      obtain ⟨rfl, rfl⟩ := hd
      refine ⟨a, mid, ?_, hrun, fun post ↦ ?_⟩
      · rw [hmid]
        simp [Format.word, Format.count]
      · obtain rfl : a = _ := hV post
        exact hto _ hval
  · refine ⟨fun _ ↦ hnone (by simp [Format.word, hw]), fun v rest hd ↦ ?_⟩
    simp [Format.count, hw] at hd

/-- The string `s` stands for `bs` in `buf`: its bytes, and a NUL behind them. -/
def StrAt (buf : List UInt8) (s : Str) (bs : List UInt8) : Prop :=
  s.n = bs.length ∧ (buf.drop s.p).take (s.n + 1) = bs ++ [0]

def DataAt (buf : List UInt8) (p : ℕ) (bs : List UInt8) : Prop :=
  (buf.drop p).take bs.length = bs

theorem gets_gdata (n : ℕ) : Gets 0 (Format.blob n) DataAt (gdata n) := by
  intro pre todo _
  have hroom := Cursor.run_room pre todo n
  by_cases hn : n ≤ todo.length
  · rw [if_pos hn] at hroom
    refine ⟨fun hd ↦ ?_, fun b rest hd ↦ ?_⟩
    · simp [Format.blob, hn] at hd
    · simp only [Format.blob, if_pos hn, Option.some.injEq, Prod.mk.injEq] at hd
      obtain ⟨rfl, rfl⟩ := hd
      have hlen : (todo.take n).length = n := by rw [List.length_take]; omega
      refine ⟨pre.length, todo.take n, rfl, ?_, fun post ↦ ?_⟩
      · rw [gdata, Cursor.bind_ok _ hroom, List.take_append_drop, hlen]
        rfl
      · rw [DataAt, List.drop_left, List.take_left]
  · rw [if_neg hn] at hroom
    refine ⟨fun _ ↦ ⟨_, rfl, Cursor.bind_quit _ hroom⟩, fun b rest hd ↦ ?_⟩
    simp [Format.blob, hn] at hd

/-- `gstring` once it has read its count and stands on the second byte of it. -/
theorem gstring_count (pre todo : List UInt8) (lo hi : UInt8) :
    gstring.run pre.length (pre ++ (lo :: hi :: todo)) = (do
      Cursor.room (leVal [lo, hi] + 1)
      let s ← Cursor.peek 1 (leVal [lo, hi])
      Cursor.poke 0 s
      Cursor.poke (leVal [lo, hi]) [0]
      let p ← Cursor.here
      Cursor.advance (leVal [lo, hi] + 1)
      return ⟨p, leVal [lo, hi]⟩ : Cursor Str).run (pre.length + 1) (pre ++ (lo :: hi :: todo)) := by
  have hlt := leVal_lt [lo, hi]
  have hcount : (GBIT16 [lo, hi]).toNat = leVal [lo, hi] := by
    rw [GBIT16_eq rfl, UInt16.toNat_ofNat_of_lt' (by simpa using hlt)]
  have hroom : (Cursor.room BIT16SZ).run pre.length (pre ++ (lo :: hi :: todo)) =
      .ok () pre.length (pre ++ (lo :: hi :: todo)) := by
    rw [Cursor.run_room, if_pos (by simp [BIT16SZ])]
  have hpeek : (Cursor.peek 0 BIT16SZ).run pre.length (pre ++ (lo :: hi :: todo)) =
      .ok [lo, hi] pre.length (pre ++ (lo :: hi :: todo)) :=
    @Cursor.run_peek pre [] [lo, hi] todo 0 2 rfl rfl
  rw [gstring, Cursor.bind_ok _ hroom, Cursor.bind_ok _ hpeek]
  simp only [hcount]
  rw [Cursor.bind_ok _ (Cursor.run_advance _ _ _)]
  rfl

/-- On two count bytes and a string, the string slides over the second of them. -/
theorem gstring_run {pre bs rest : List UInt8} {lo hi : UInt8} (hn : leVal [lo, hi] = bs.length) :
    gstring.run pre.length (pre ++ (lo :: hi :: (bs ++ rest))) =
      .ok ⟨pre.length + 1, bs.length⟩ (pre.length + (lo :: (bs ++ [0])).length)
        (pre ++ (lo :: (bs ++ [0]) ++ rest)) := by
  have hlen : (pre ++ [lo]).length = pre.length + 1 := by simp
  have hroom : (Cursor.room (bs.length + 1)).run (pre.length + 1) (pre ++ (lo :: hi :: (bs ++ rest))) =
      .ok () (pre.length + 1) (pre ++ (lo :: hi :: (bs ++ rest))) := by
    have h := Cursor.run_room (pre ++ [lo]) (hi :: (bs ++ rest)) (bs.length + 1)
    rw [if_pos (by simp)] at h
    simpa using h
  have hpeek : (Cursor.peek 1 bs.length).run (pre.length + 1) (pre ++ (lo :: hi :: (bs ++ rest))) =
      .ok bs (pre.length + 1) (pre ++ (lo :: hi :: (bs ++ rest))) := by
    have h := @Cursor.run_peek (pre ++ [lo]) [hi] bs rest 1 bs.length rfl rfl
    simpa using h
  -- the bytes as they stood: one string's length of them, and the last one
  obtain ⟨old, last, hold, hlast⟩ : ∃ old last, old.length = bs.length ∧ hi :: bs = old ++ [last] :=
    ⟨(hi :: bs).dropLast, (hi :: bs).getLast (by simp), by simp, (List.dropLast_concat_getLast _).symm⟩
  have hbuf : pre ++ (lo :: hi :: (bs ++ rest)) = (pre ++ [lo]) ++ (old ++ (last :: rest)) := by
    have h : lo :: hi :: (bs ++ rest) = lo :: ((hi :: bs) ++ rest) := rfl
    rw [h, hlast]
    simp
  have hpoke : (Cursor.poke 0 bs).run (pre.length + 1) (pre ++ (lo :: hi :: (bs ++ rest))) =
      .ok () (pre.length + 1) ((pre ++ [lo]) ++ (bs ++ (last :: rest))) := by
    have h := @Cursor.run_poke (pre ++ [lo]) [] old bs (last :: rest) 0 rfl hold.symm
    rw [hbuf, ← hlen]
    exact h
  have hnul : (Cursor.poke bs.length [0]).run (pre.length + 1) ((pre ++ [lo]) ++ (bs ++ (last :: rest))) =
      .ok () (pre.length + 1) ((pre ++ [lo]) ++ (bs ++ (0 :: rest))) := by
    have h := @Cursor.run_poke (pre ++ [lo]) bs [last] [0] rest bs.length rfl rfl
    rw [← hlen]
    exact h
  rw [gstring_count, hn, Cursor.bind_ok _ hroom, Cursor.bind_ok _ hpeek, Cursor.bind_ok _ hpoke,
    Cursor.bind_ok _ hnul, Cursor.bind_ok _ (Cursor.run_here _ _),
    Cursor.bind_ok _ (Cursor.run_advance _ _ _)]
  simp [Nat.add_assoc, Nat.add_comm 1]

theorem gets_gstring : Gets 0 str StrAt gstring := by
  intro pre todo _
  match todo with
  | [] =>
    refine ⟨fun _ ↦ ⟨pre ++ [], rfl, Cursor.bind_quit _ ?_⟩, fun b rest hd ↦ ?_⟩
    · rw [Cursor.run_room, if_neg (by simp [BIT16SZ])]
    · simp [str, Format.counted, Format.count] at hd
  | [lo] =>
    refine ⟨fun _ ↦ ⟨pre ++ [lo], rfl, Cursor.bind_quit _ ?_⟩, fun b rest hd ↦ ?_⟩
    · rw [Cursor.run_room, if_neg (by simp [BIT16SZ])]
    · simp [str, Format.counted, Format.count] at hd
  | lo :: hi :: todo =>
    have hlt : leVal [lo, hi] < 256 ^ 2 := leVal_lt [lo, hi]
    have hdec : str.dec (lo :: hi :: todo) = (Format.blob (leVal [lo, hi])).dec todo := by
      have hle : leVal ((lo :: hi :: todo).take 2) ≤ 256 ^ 2 := hlt.le
      simp only [str, Format.counted, Format.count]
      rw [if_pos (by simp), if_pos hle]
      rfl
    rw [hdec]
    by_cases hn : leVal [lo, hi] ≤ todo.length
    · refine ⟨fun hd ↦ by simp [Format.blob, hn] at hd, fun b rest hd ↦ ?_⟩
      simp only [Format.blob, if_pos hn, Option.some.injEq, Prod.mk.injEq] at hd
      obtain ⟨rfl, rfl⟩ := hd
      have hlen : (todo.take (leVal [lo, hi])).length = leVal [lo, hi] := by rw [List.length_take]; omega
      have hrun := @gstring_run pre (todo.take (leVal [lo, hi])) (todo.drop (leVal [lo, hi])) lo hi hlen.symm
      rw [List.take_append_drop] at hrun
      refine ⟨_, lo :: (todo.take (leVal [lo, hi]) ++ [0]), ?_, hrun, fun post ↦ ⟨rfl, ?_⟩⟩
      · simp only [str, Format.counted, Format.count, Format.blob, List.length_append, leBytes_length,
          List.length_cons, List.length_nil]
        omega
      · have hdrop : (pre ++ (lo :: (todo.take (leVal [lo, hi]) ++ [0]) ++ post)).drop (pre.length + 1) =
            (todo.take (leVal [lo, hi]) ++ [0]) ++ post := by
          rw [List.drop_append]
          simp
        rw [hdrop]
        exact List.take_left' (by simp)
    · refine ⟨fun _ ↦ ⟨pre ++ (lo :: hi :: todo), rfl, ?_⟩, fun b rest hd ↦ by simp [Format.blob, hn] at hd⟩
      have hroom : (Cursor.room (leVal [lo, hi] + 1)).run (pre.length + 1) (pre ++ (lo :: hi :: todo)) =
          .quit (pre ++ (lo :: hi :: todo)) := by
        have h := Cursor.run_room (pre ++ [lo]) (hi :: todo) (leVal [lo, hi] + 1)
        rw [if_neg (by simpa using hn)] at h
        simpa using h
      rw [gstring_count, Cursor.bind_quit _ hroom]

theorem gets_gqid : Gets 0 qidF (fun _ a b ↦ a = b) gqid := by
  have hwords := gets_gbit8.fixed u8_length (fun type ↦ gets_gbit32.fixed u32_length (fun vers ↦
    gets_gbit64.map (fun path ↦ ({ type, vers, path } : Qid))))
  have hqid : Gets 13 qidF _ _ := hwords.iso
  refine (hqid.room (fun q _ ↦ ?_)).weaken (fun _ q q' ↦ ?_)
  · simp [qidF, Format.iso, Format.pair, u8_length, u32_length, u64_length]
  · rintro ⟨_, rfl, _, rfl, _, rfl, rfl⟩
    rfl

/-- The fields of a message of type `t` in `g` stand for `b`: words by value, strings and
payloads through the buffer they point into. -/
def Fcall.Holds (buf : List UInt8) (g : Fcall Str ℕ) : (t : MsgType) → Body t → Prop
  | .Tversion, b | .Rversion, b => g.msize = b.1 ∧ StrAt buf g.version b.2
  | .Tauth, b => g.afid = b.1 ∧ StrAt buf g.uname b.2.1 ∧ StrAt buf g.aname b.2.2
  | .Rauth, b => g.aqid = b
  | .Rattach, b => g.qid = b
  | .Tattach, b => g.fid = b.1 ∧ g.afid = b.2.1 ∧ StrAt buf g.uname b.2.2.1 ∧ StrAt buf g.aname b.2.2.2
  | .Rerror, b => StrAt buf g.ename b
  | .Tflush, b => g.oldtag = b
  | .Rflush, _ | .Rclunk, _ | .Rremove, _ | .Rwstat, _ => True
  | .Twalk, b =>
    g.fid = b.1 ∧ g.newfid = b.2.1 ∧ g.nwname.toNat = b.2.2.length ∧
      ∀ i s, b.2.2[i]? = some s → StrAt buf (g.wname i) s
  | .Rwalk, b => g.nwqid.toNat = b.length ∧ ∀ i (q : Qid), b[i]? = some q → g.wqid i = q
  | .Topen, b => g.fid = b.1 ∧ g.mode = b.2
  | .Ropen, b | .Rcreate, b => g.qid = b.1 ∧ g.iounit = b.2
  | .Tcreate, b => g.fid = b.1 ∧ StrAt buf g.name b.2.1 ∧ g.perm = b.2.2.1 ∧ g.mode = b.2.2.2
  | .Tread, b => g.fid = b.1 ∧ g.offset = b.2.1 ∧ g.count = b.2.2
  | .Rread, b => g.count.toNat = b.length ∧ DataAt buf g.data b
  | .Twrite, b => g.fid = b.1 ∧ g.offset = b.2.1 ∧ g.count.toNat = b.2.2.length ∧ DataAt buf g.data b.2.2
  | .Rwrite, b => g.count = b
  | .Tclunk, b | .Tremove, b | .Tstat, b => g.fid = b
  | .Rstat, b => g.nstat.toNat = b.length ∧ DataAt buf g.stat b
  | .Twstat, b => g.fid = b.1 ∧ g.nstat.toNat = b.2.length ∧ DataAt buf g.stat b.2

/-- What `getBody` leaves: the fields of the message, and the type and tag as they were. -/
def Fcall.Decoded (f : Fcall Str ℕ) (t : MsgType) (buf : List UInt8) (g : Fcall Str ℕ) (b : Body t) : Prop :=
  g.type = f.type ∧ g.tag = f.tag ∧ g.Holds buf t b

/-- A 16-bit count of bytes and a pointer to them. -/
theorem gets_stat {α : Type} (put : UInt16 → ℕ → α) :
    Gets 2 str (fun buf r b ↦ ∃ n p, UInt16.toNat n = b.length ∧ DataAt buf p b ∧ r = put n p)
      (do
        let n ← gbit16
        let p ← gdata n.toNat
        return put n p) := by
  have h := Gets.counted (256 ^ 2) Format.blob List.length (fun _ _ h ↦ h) (Gets.number gets_gbit16)
    (fun n _ ↦ (gets_gdata n.toNat).map (put n)) (fun n hn ↦ absurd n.toNat_lt (by omega))
  refine h.weaken ?_
  rintro buf r b ⟨n, hn, p, hp, rfl⟩
  exact ⟨n, p, hn, hp, rfl⟩

/-- A 32-bit count of bytes and a pointer to them. -/
theorem gets_payload {α : Type} (put : UInt32 → ℕ → α) :
    Gets 4 payload (fun buf r b ↦ ∃ n p, UInt32.toNat n = b.length ∧ DataAt buf p b ∧ r = put n p)
      (do
        let n ← gbit32
        let p ← gdata n.toNat
        return put n p) := by
  have h := Gets.counted (256 ^ 4) Format.blob List.length (fun _ _ h ↦ h) (Gets.number gets_gbit32)
    (fun n _ ↦ (gets_gdata n.toNat).map (put n)) (fun n hn ↦ absurd n.toNat_lt (by omega))
  refine h.weaken ?_
  rintro buf r b ⟨n, hn, p, hp, rfl⟩
  exact ⟨n, p, hn, hp, rfl⟩

/-- At most `MAXWELEM` items read into an array. -/
theorem gets_several {α β γ : Type} {F : Format β} {V : List UInt8 → α → β → Prop} {get : Cursor α}
    (h : Gets 0 F V get) (w : ℕ → α) (put : UInt16 → (ℕ → α) → γ) :
    Gets 2 (several F)
      (fun buf r l ↦ ∃ n w', UInt16.toNat n = l.length ∧ (∀ i b, l[i]? = some b → V buf (w' i) b) ∧
        r = put n w')
      (do
        let n ← gbit16
        if n.toNat > MAXWELEM then Cursor.quit
        else do
          let w' ← Cursor.getAll get n.toNat 0 w
          return put n w') := by
  have hcount := Gets.counted MAXWELEM F.rep List.length (fun _ _ h ↦ h.1) (Gets.number gets_gbit16)
    (W := fun n buf r l ↦ ∃ w', (∀ i b, l[i]? = some b → V buf (w' i) b) ∧ r = put n w')
    (c := fun n ↦ if n.toNat > MAXWELEM then Cursor.quit else do
      let w' ← Cursor.getAll get n.toNat 0 w
      return put n w') (fun n hn ↦ ?_) (fun n hn p buf ↦ ?_)
  · refine hcount.weaken ?_
    rintro buf r l ⟨n, hn, w', hw, rfl⟩
    exact ⟨n, w', hn, hw, rfl⟩
  · rw [if_neg (Nat.not_lt.mpr hn)]
    refine ((h.getAll n.toNat 0 w).map (put n)).weaken ?_
    rintro buf r l ⟨w', ⟨-, hw⟩, rfl⟩
    refine ⟨w', fun i b hb ↦ ?_, rfl⟩
    simpa using hw i b hb
  · rw [if_pos hn]
    rfl

theorem gets_getBody (f : Fcall Str ℕ) (t : MsgType) : Gets 0 (bodyF t) (f.Decoded t) (getBody f t) := by
  cases t with
  | Tversion | Rversion =>
    have h := gets_gbit32.fixed u32_length (fun msize ↦
      gets_gstring.map (fun version ↦ { f with msize, version }))
    refine (h.room (fun b _ ↦ by simp [Format.pair, u32_length])).weaken ?_
    rintro buf g ⟨_, _⟩ ⟨_, rfl, s, hs, rfl⟩
    exact ⟨rfl, rfl, rfl, hs⟩
  | Tflush =>
    have h := gets_gbit16.map (fun oldtag ↦ { f with oldtag })
    refine (h.room (fun b _ ↦ by simp [u16_length])).weaken ?_
    rintro buf g _ ⟨_, rfl, rfl⟩
    exact ⟨rfl, rfl, rfl⟩
  | Tauth =>
    have h := gets_gbit32.fixed u32_length (fun afid ↦ gets_gstring.free (fun uname ↦
      gets_gstring.map (fun aname ↦ { f with afid, uname, aname })))
    refine (h.room (fun b _ ↦ by simp [Format.pair, u32_length])).weaken ?_
    rintro buf g ⟨_, _, _⟩ ⟨_, rfl, u, hu, a, ha, rfl⟩
    exact ⟨rfl, rfl, rfl, hu, ha⟩
  | Tattach =>
    have h := gets_gbit32.free (fun fid ↦ (gets_gbit32.fixed u32_length (fun afid ↦
      gets_gstring.free (fun uname ↦ gets_gstring.map (fun aname ↦
        { f with fid, afid, uname, aname })))).room (fun b _ ↦ by simp [Format.pair, u32_length]))
    refine (h.room (fun b _ ↦ by simp [Format.pair, u32_length])).weaken ?_
    rintro buf g ⟨_, _, _, _⟩ ⟨_, rfl, _, rfl, u, hu, a, ha, rfl⟩
    exact ⟨rfl, rfl, rfl, rfl, hu, ha⟩
  | Twalk =>
    have h := gets_gbit32.fixed u32_length (fun fid ↦ gets_gbit32.fixed u32_length (fun newfid ↦
      gets_several gets_gstring f.wname (fun nwname wname ↦ { f with fid, newfid, nwname, wname })))
    refine (h.room (fun b _ ↦ ?_)).weaken ?_
    · simp only [Format.pair, u32_length, several, Format.counted, Format.count, List.length_append,
        leBytes_length]
      omega
    · rintro buf g ⟨_, _, _⟩ ⟨_, rfl, _, rfl, n, w, hn, hw, rfl⟩
      exact ⟨rfl, rfl, rfl, rfl, hn, hw⟩
  | Topen =>
    have h := gets_gbit32.fixed u32_length (fun fid ↦ gets_gbit8.map (fun mode ↦ { f with fid, mode }))
    refine (h.room (fun b _ ↦ by simp [Format.pair, u32_length, u8_length])).weaken ?_
    rintro buf g ⟨_, _⟩ ⟨_, rfl, _, rfl, rfl⟩
    exact ⟨rfl, rfl, rfl, rfl⟩
  | Tcreate =>
    have h := gets_gbit32.fixed u32_length (fun fid ↦ gets_gstring.free (fun name ↦
      (gets_gbit32.fixed u32_length (fun perm ↦ gets_gbit8.map (fun mode ↦
        { f with fid, name, perm, mode }))).room (fun b _ ↦ by simp [Format.pair, u32_length, u8_length])))
    refine (h.room (fun b _ ↦ by simp [Format.pair, u32_length])).weaken ?_
    rintro buf g ⟨_, _, _, _⟩ ⟨_, rfl, s, hs, _, rfl, _, rfl, rfl⟩
    exact ⟨rfl, rfl, rfl, hs, rfl, rfl⟩
  | Tread =>
    have h := gets_gbit32.fixed u32_length (fun fid ↦ gets_gbit64.fixed u64_length (fun offset ↦
      gets_gbit32.map (fun count ↦ { f with fid, offset, count })))
    refine (h.room (fun b _ ↦ by simp [Format.pair, u32_length, u64_length])).weaken ?_
    rintro buf g ⟨_, _, _⟩ ⟨_, rfl, _, rfl, _, rfl, rfl⟩
    exact ⟨rfl, rfl, rfl, rfl, rfl⟩
  | Twrite =>
    have h := gets_gbit32.fixed u32_length (fun fid ↦ gets_gbit64.fixed u64_length (fun offset ↦
      gets_payload (fun count data ↦ { f with fid, offset, count, data })))
    refine (h.room (fun b _ ↦ ?_)).weaken ?_
    · simp only [Format.pair, u32_length, u64_length, payload, Format.counted, Format.count,
        List.length_append, leBytes_length]
      omega
    · rintro buf g ⟨_, _, _⟩ ⟨_, rfl, _, rfl, n, p, hn, hp, rfl⟩
      exact ⟨rfl, rfl, rfl, rfl, hn, hp⟩
  | Tclunk | Tremove | Tstat =>
    have h := gets_gbit32.map (fun fid ↦ { f with fid })
    refine (h.room (fun b _ ↦ by simp [u32_length])).weaken ?_
    rintro buf g _ ⟨_, rfl, rfl⟩
    exact ⟨rfl, rfl, rfl⟩
  | Twstat =>
    have h := gets_gbit32.fixed u32_length (fun fid ↦
      gets_stat (fun nstat stat ↦ { f with fid, nstat, stat }))
    refine (h.room (fun b _ ↦ ?_)).weaken ?_
    · simp only [Format.pair, u32_length, str, Format.counted, Format.count, List.length_append,
        leBytes_length]
      omega
    · rintro buf g ⟨_, _⟩ ⟨_, rfl, n, p, hn, hp, rfl⟩
      exact ⟨rfl, rfl, rfl, hn, hp⟩
  | Rerror =>
    refine (gets_gstring.map (fun ename ↦ { f with ename })).weaken ?_
    rintro buf g _ ⟨s, hs, rfl⟩
    exact ⟨rfl, rfl, hs⟩
  | Rflush | Rclunk | Rremove | Rwstat =>
    refine (Gets.nothing f).weaken ?_
    rintro buf g _ rfl
    exact ⟨rfl, rfl, trivial⟩
  | Rauth =>
    refine (gets_gqid.map (fun aqid ↦ { f with aqid })).weaken ?_
    rintro buf g _ ⟨_, rfl, rfl⟩
    exact ⟨rfl, rfl, rfl⟩
  | Rattach =>
    refine (gets_gqid.map (fun qid ↦ { f with qid })).weaken ?_
    rintro buf g _ ⟨_, rfl, rfl⟩
    exact ⟨rfl, rfl, rfl⟩
  | Rwalk =>
    have h := gets_several gets_gqid f.wqid (fun nwqid wqid ↦ { f with nwqid, wqid })
    refine (h.room (fun b _ ↦ by simp [several, Format.counted, Format.count])).weaken ?_
    rintro buf g _ ⟨n, w, hn, hw, rfl⟩
    exact ⟨rfl, rfl, hn, hw⟩
  | Ropen | Rcreate =>
    refine (gets_gqid.free (fun qid ↦ (gets_gbit32.map (fun iounit ↦ { f with qid, iounit })).room
      (fun b _ ↦ by simp [u32_length]))).weaken ?_
    rintro buf g ⟨_, _⟩ ⟨_, rfl, _, rfl, rfl⟩
    exact ⟨rfl, rfl, rfl, rfl⟩
  | Rread =>
    have h := gets_payload (fun count data ↦ { f with count, data })
    refine (h.room (fun b _ ↦ by simp [payload, Format.counted, Format.count])).weaken ?_
    rintro buf g _ ⟨n, p, hn, hp, rfl⟩
    exact ⟨rfl, rfl, hn, hp⟩
  | Rwrite =>
    have h := gets_gbit32.map (fun count ↦ { f with count })
    refine (h.room (fun b _ ↦ by simp [u32_length])).weaken ?_
    rintro buf g _ ⟨_, rfl, rfl⟩
    exact ⟨rfl, rfl, rfl⟩
  | Rstat =>
    have h := gets_stat (fun nstat stat ↦ { f with nstat, stat })
    refine (h.room (fun b _ ↦ by simp [str, Format.counted, Format.count])).weaken ?_
    rintro buf g _ ⟨n, p, hn, hp, rfl⟩
    exact ⟨rfl, rfl, hn, hp⟩

end Petele.NineP
