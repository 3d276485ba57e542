import Petele.Lib.Fills
import Petele.NineP.Encode
import Petele.NineP.Dir

namespace Petele.NineP

open Lib Cursor

/-! ### The arrays of an `Fcall` -/

/-- An element of `wname` or `wqid`. A place that the array does not have is outside. -/
def element {α : Type} (a : ℕ → α) (i : ℕ) : Cursor α where
  run p buf := if i < MAXWELEM then .ok (a i) p buf else .fault

/-- `sizeS2M`, with the elements of `wname` that it looks at. -/
def sizeS2MIn (f : Fcall CStr (List UInt8)) : Cursor ℕ :=
  match MsgType.ofCode f.type with
  | none => return 0
  | some .Twalk => do
    let n ← (List.range f.nwname.toNat).foldlM (fun n i ↦ do return n + stringsz (← element f.wname i))
      (BIT32SZ + BIT8SZ + BIT16SZ + (BIT32SZ + BIT32SZ + BIT16SZ))
    return n % 2 ^ 32
  | some t => return (BIT32SZ + BIT8SZ + BIT16SZ + sizeBody f t) % 2 ^ 32

/-- The `switch` of `convS2M`, with the elements of `wname` and `wqid` that it looks at. -/
def putBodyIn (f : Fcall CStr (List UInt8)) : MsgType → Cursor Unit
  | .Twalk => do
    pbit32 f.fid.toNat
    pbit32 f.newfid.toNat
    pbit16 f.nwname.toNat
    if f.nwname.toNat > MAXWELEM then quit
    else (List.range f.nwname.toNat).forM (fun i ↦ do pstring (← element f.wname i))
  | .Rwalk => do
    pbit16 f.nwqid.toNat
    if f.nwqid.toNat > MAXWELEM then quit
    else (List.range f.nwqid.toNat).forM (fun i ↦ do pqid (← element f.wqid i))
  | t => putBody f t

/-- `convS2M`, where an element that the arrays do not have is a fault like a byte that `ap` does not have. -/
def convS2MIn (f : Fcall CStr (List UInt8)) (ap : List UInt8) : Outcome ℕ :=
  let pass : Cursor ℕ := do
    let size ← sizeS2MIn f
    if size = 0 then quit
    else if size > ap.length then quit
    else
      pbit32 size
      pbit8 f.type
      pbit16 f.tag.toNat
      match MsgType.ofCode f.type with
      | none => quit
      | some t =>
        putBodyIn f t
        let p ← here
        if size ≠ p then quit else return size
  pass.run 0 ap

theorem run_wname (f : Fcall CStr (List UInt8)) (l : List ℕ) (n p : ℕ) (buf : List UInt8) :
    (l.foldlM (fun n i ↦ do return n + stringsz (← element f.wname i)) n : Cursor ℕ).run p buf =
      if ∀ i ∈ l, i < MAXWELEM then .ok (n + (l.map fun i ↦ stringsz (f.wname i)).sum) p buf else .fault := by
  induction l generalizing n with
  | nil => simp
  | cons i l ih =>
    rw [List.foldlM_cons]
    by_cases hi : i < MAXWELEM
    · have hrun : (do return n + stringsz (← element f.wname i) : Cursor ℕ).run p buf = .ok (n + stringsz (f.wname i)) p buf := by
        have helem : (element f.wname i).run p buf = .ok (f.wname i) p buf := if_pos hi
        rw [bind_ok _ helem]
        rfl
      rw [bind_ok _ hrun, ih]
      simp only [List.forall_mem_cons, hi, true_and, List.map_cons, List.sum_cons, Nat.add_assoc]
    · have hrun : (do return n + stringsz (← element f.wname i) : Cursor ℕ).run p buf = .fault := by
        have helem : (element f.wname i).run p buf = .fault := if_neg hi
        rw [run_bind, helem]
      rw [run_bind, hrun, if_neg fun h ↦ hi (h i List.mem_cons_self)]

theorem range_small {n : ℕ} : (∀ i ∈ List.range n, i < MAXWELEM) ↔ n ≤ MAXWELEM := by
  constructor
  · intro h
    by_contra hn
    exact Nat.lt_irrefl _ (h MAXWELEM (List.mem_range.mpr (by omega)))
  · intro hn i hi
    exact Nat.lt_of_lt_of_le (List.mem_range.mp hi) hn

/-- `sizeS2M` looks outside `wname` if there are too many names. -/
theorem run_sizeS2MIn (f : Fcall CStr (List UInt8)) (p : ℕ) (buf : List UInt8) :
    (sizeS2MIn f).run p buf =
      if MsgType.ofCode f.type = some .Twalk → f.nwname.toNat ≤ MAXWELEM then .ok (sizeS2M f) p buf else .fault := by
  rw [sizeS2MIn, sizeS2M]
  split
  · rename_i hc
    rw [hc]
    simp
  · rename_i hc
    rw [hc]
    simp only [forall_const]
    rw [run_bind, run_wname]
    by_cases hn : f.nwname.toNat ≤ MAXWELEM
    · rw [if_pos (range_small.mpr hn), if_pos hn]
      simp [sizeBody, Nat.add_assoc]
    · rw [if_neg (mt range_small.mp hn), if_neg hn]
  · rename_i t hne hc
    rw [hc, if_pos fun h ↦ absurd (Option.some.inj h) hne]
    rfl

theorem element_loop {α : Type} (a : ℕ → α) (put : α → Cursor Unit) {n : ℕ} (hn : n ≤ MAXWELEM) :
    (List.range n).forM (fun i ↦ do put (← element a i)) = (List.range n).forM (fun i ↦ put (a i)) := by
  have hall : ∀ l : List ℕ, (∀ i ∈ l, i < MAXWELEM) → l.forM (fun i ↦ do put (← element a i)) = l.forM (fun i ↦ put (a i)) := by
    intro l hl
    induction l with
    | nil => rfl
    | cons i l ih =>
      have hi : (do put (← element a i)) = put (a i) := by
        have hrun : ∀ p buf, (do put (← element a i)).run p buf = (put (a i)).run p buf :=
          fun p buf ↦ bind_ok _ (if_pos (hl i List.mem_cons_self))
        cases hp : put (a i) with
        | mk run =>
          rw [hp] at hrun
          exact congrArg Cursor.mk (funext fun p ↦ funext fun buf ↦ hrun p buf)
      rw [List.forM, List.forM, hi, ih fun j hj ↦ hl j (List.mem_cons_of_mem _ hj)]
  exact hall _ (range_small.mpr hn)

theorem putBodyIn_eq (f : Fcall CStr (List UInt8)) (t : MsgType) : putBodyIn f t = putBody f t := by
  cases t with
  | Twalk =>
    rw [putBodyIn, putBody]
    split
    · rfl
    · rename_i hn
      rw [element_loop _ pstring (Nat.not_lt.mp hn)]
  | Rwalk =>
    rw [putBodyIn, putBody]
    split
    · rfl
    · rename_i hn
      rw [element_loop _ pqid (Nat.not_lt.mp hn)]
  | _ => rfl

/-- The two say the same as long as `sizeS2M` stays in `wname`. -/
theorem convS2MIn_eq {f : Fcall CStr (List UInt8)} (h : MsgType.ofCode f.type = some .Twalk → f.nwname.toNat ≤ MAXWELEM) (ap : List UInt8) :
    convS2MIn f ap = convS2M f ap := by
  have hsize : (sizeS2MIn f).run 0 ap = .ok (sizeS2M f) 0 ap := by rw [run_sizeS2MIn, if_pos h]
  simp only [convS2MIn, convS2M, putBodyIn_eq]
  exact bind_ok _ hsize

/-! ### How many bytes a message has -/

/-- What `pstring` takes of a string, whose length is a `uint`. -/
def cut (s : CStr) : CStr := s.map fun s ↦ s.take (strlen s % 2 ^ 32)

namespace Fcall

def cut (f : Fcall CStr (List UInt8)) : Fcall CStr (List UInt8) :=
  { f with
    version := NineP.cut f.version
    ename := NineP.cut f.ename
    uname := NineP.cut f.uname
    aname := NineP.cut f.aname
    name := NineP.cut f.name
    wname := fun i ↦ NineP.cut (f.wname i) }

/-- The bytes of a message of type `t`, however many. -/
def total (f : Fcall CStr (List UInt8)) (t : MsgType) : ℕ := BIT32SZ + BIT8SZ + BIT16SZ + sizeBody f.cut t

end Fcall

theorem stringsz_cut (s : CStr) : stringsz (cut s) = BIT16SZ + svlen s % 2 ^ 32 := by
  cases s with
  | none => rfl
  | some s =>
    have hmin : min (s.length % 2 ^ 32) s.length = s.length % 2 ^ 32 := Nat.min_eq_left (Nat.mod_le _ _)
    simp only [cut, Option.map_some, stringsz, strlen, List.length_take, hmin, svlen]

theorem stringsz_mod (s : CStr) : stringsz (cut s) % 2 ^ 32 = stringsz s % 2 ^ 32 := by
  rw [stringsz_cut, Nat.add_mod_mod]
  cases s <;> rfl

theorem sum_mod {l : List ℕ} {a b : ℕ → ℕ} (h : ∀ i, a i % 2 ^ 32 = b i % 2 ^ 32) : (l.map a).sum % 2 ^ 32 = (l.map b).sum % 2 ^ 32 := by
  induction l with
  | nil => rfl
  | cons i l ih =>
    rw [List.map_cons, List.map_cons, List.sum_cons, List.sum_cons, Nat.add_mod, h i, ih, ← Nat.add_mod]

theorem sizeBody_mod (f : Fcall CStr (List UInt8)) (t : MsgType) : sizeBody f.cut t % 2 ^ 32 = sizeBody f t % 2 ^ 32 := by
  have hversion := stringsz_mod f.version
  have hename := stringsz_mod f.ename
  have huname := stringsz_mod f.uname
  have haname := stringsz_mod f.aname
  have hname := stringsz_mod f.name
  cases t with
  | Twalk =>
    have hsum := sum_mod (l := List.range f.nwname.toNat) fun i ↦ stringsz_mod (f.wname i)
    simp only [sizeBody, Fcall.cut]
    omega
  | Tversion | Rversion | Tauth | Tattach | Rerror | Tcreate =>
    simp only [sizeBody, Fcall.cut]
    omega
  | _ => rfl

theorem sizeS2M_mod {f : Fcall CStr (List UInt8)} {t : MsgType} (h : MsgType.ofCode f.type = some t) : sizeS2M f = f.total t % 2 ^ 32 := by
  have hmod := sizeBody_mod f t
  simp only [sizeS2M, h, Fcall.total]
  omega

/-! ### What is written -/

theorem fills_pbit8 (v : UInt8) : Fills BIT8SZ (pbit8 v) := Fills.poke (PBIT8 v)

theorem fills_pbit16 (v : ℕ) : Fills BIT16SZ (pbit16 v) := Fills.poke (PBIT16 v)

theorem fills_pbit32 (v : ℕ) : Fills BIT32SZ (pbit32 v) := Fills.poke (PBIT32 v)

theorem fills_pbit64 (v : ℕ) : Fills BIT64SZ (pbit64 v) := Fills.poke (PBIT64 v)

theorem fills_pqid (q : Qid) : Fills QIDSZ (pqid q) :=
  (fills_pbit8 q.type).andThen ((fills_pbit32 q.vers.toNat).andThen (fills_pbit64 q.path.toNat))

theorem fills_pdata {v : List UInt8} {n : ℕ} (h : n ≤ v.length) : Fills n (pdata v n) := by
  have hlen : (v.take n).length = n := by rw [List.length_take]; omega
  have hput := Fills.poke (v.take n)
  rwa [hlen] at hput

theorem fills_pstring (s : CStr) : Fills (stringsz (cut s)) (pstring s) := by
  rw [stringsz_cut]
  cases s with
  | none => exact fills_pbit16 0
  | some s =>
    intro p buf hp
    have hlen : (s.take (strlen s % 2 ^ 32)).length = strlen s % 2 ^ 32 := by
      rw [List.length_take]
      exact Nat.min_eq_left (Nat.mod_le _ _)
    simp only [pstring, svlen]
    generalize strlen s % 2 ^ 32 = n at hlen
    refine ⟨fun hin ↦ ?_, fun hout ↦ ?_⟩
    · have h₁ : (poke BIT16SZ (s.take n)).run p buf = .ok () p (buf.take (p + BIT16SZ) ++ s.take n ++ buf.drop (p + BIT16SZ + (s.take n).length)) :=
        if_pos (by omega)
      have hlen₁ : (buf.take (p + BIT16SZ) ++ s.take n ++ buf.drop (p + BIT16SZ + (s.take n).length)).length = buf.length := by
        simp only [List.length_append, List.length_drop, hlen]
        rw [List.length_take, Nat.min_eq_left (by omega)]
        omega
      rw [bind_ok _ h₁]
      generalize buf.take (p + BIT16SZ) ++ s.take n ++ buf.drop (p + BIT16SZ + (s.take n).length) = buf₁ at hlen₁
      have h₂ : (poke 0 (PBIT16 n)).run p buf₁ = .ok () p (buf₁.take p ++ PBIT16 n ++ buf₁.drop (p + (PBIT16 n).length)) :=
        if_pos (by simp only [PBIT16, List.length_cons, List.length_nil, BIT16SZ] at hin ⊢; omega)
      rw [bind_ok _ h₂, Nat.add_comm BIT16SZ n]
      refine ⟨_, ?_, run_advance _ _ _⟩
      simp only [BIT16SZ] at hin
      simp only [List.length_append, List.length_take, List.length_drop, PBIT16, List.length_cons, List.length_nil]
      omega
    · have h₁ : (poke BIT16SZ (s.take n)).run p buf = .fault := if_neg (by omega)
      rw [run_bind, h₁]

theorem fills_putBody {f : Fcall CStr (List UInt8)} {t : MsgType} (hb : f.Backed t) (hn : f.Bounded t) :
    Fills (sizeBody f.cut t) (putBody f t) := by
  cases t with
  | Tversion | Rversion => exact (fills_pbit32 _).andThen (fills_pstring _)
  | Tflush => exact fills_pbit16 _
  | Tauth =>
    have h := (fills_pbit32 f.afid.toNat).andThen ((fills_pstring f.uname).andThen (fills_pstring f.aname))
    rwa [← Nat.add_assoc] at h
  | Tattach =>
    have h := (fills_pbit32 f.fid.toNat).andThen ((fills_pbit32 f.afid.toNat).andThen
      ((fills_pstring f.uname).andThen (fills_pstring f.aname)))
    rwa [← Nat.add_assoc, ← Nat.add_assoc] at h
  | Twalk =>
    have hle : ¬ f.nwname.toNat > MAXWELEM := Nat.not_lt.mpr hn
    have h := (fills_pbit32 f.fid.toNat).andThen ((fills_pbit32 f.newfid.toNat).andThen ((fills_pbit16 f.nwname.toNat).andThen
      (Fills.forEach (List.range f.nwname.toNat) (fun i _ ↦ fills_pstring (f.wname i)))))
    rw [← Nat.add_assoc, ← Nat.add_assoc] at h
    simpa only [putBody, if_neg hle, sizeBody, Fcall.cut] using h
  | Topen => exact (fills_pbit32 _).andThen (fills_pbit8 _)
  | Tcreate =>
    have h := (fills_pbit32 f.fid.toNat).andThen ((fills_pstring f.name).andThen
      ((fills_pbit32 f.perm.toNat).andThen (fills_pbit8 f.mode)))
    rwa [← Nat.add_assoc, ← Nat.add_assoc] at h
  | Tread => exact (fills_pbit32 _).andThen ((fills_pbit64 _).andThen (fills_pbit32 _))
  | Twrite =>
    have h := (fills_pbit32 f.fid.toNat).andThen ((fills_pbit64 f.offset.toNat).andThen
      ((fills_pbit32 f.count.toNat).andThen (fills_pdata hb)))
    rwa [← Nat.add_assoc, ← Nat.add_assoc] at h
  | Tclunk | Tremove | Tstat | Rwrite => exact fills_pbit32 _
  | Twstat =>
    have h := (fills_pbit32 f.fid.toNat).andThen ((fills_pbit16 f.nstat.toNat).andThen (fills_pdata hb))
    rwa [← Nat.add_assoc] at h
  | Rerror => exact fills_pstring _
  | Rflush | Rclunk | Rremove | Rwstat => exact Fills.nothing
  | Rauth | Rattach => exact fills_pqid _
  | Rwalk =>
    have hle : ¬ f.nwqid.toNat > MAXWELEM := Nat.not_lt.mpr hn
    have h := (fills_pbit16 f.nwqid.toNat).andThen
      (Fills.forEach (List.range f.nwqid.toNat) (fun i _ ↦ fills_pqid (f.wqid i)))
    rw [List.map_const', List.sum_replicate_nat, List.length_range] at h
    simpa only [putBody, if_neg hle, sizeBody, Fcall.cut] using h
  | Ropen | Rcreate => exact (fills_pqid _).andThen (fills_pbit32 _)
  | Rread => exact (fills_pbit32 _).andThen (fills_pdata hb)
  | Rstat => exact (fills_pbit16 _).andThen (fills_pdata hb)

/-- Once the size is taken for good, what counts is how much the body writes. -/
theorem convS2M_fault {f : Fcall CStr (List UInt8)} {t : MsgType} {ap : List UInt8} {n : ℕ} (ht : MsgType.ofCode f.type = some t)
    (hpos : sizeS2M f ≠ 0) (hle : sizeS2M f ≤ ap.length) (hbody : Fills n (putBody f t)) :
    convS2M f ap = .fault ↔ ap.length < BIT32SZ + BIT8SZ + BIT16SZ + n := by
  have hfill := (fills_pbit32 (sizeS2M f)).andThen ((fills_pbit8 f.type).andThen ((fills_pbit16 f.tag.toNat).andThen hbody))
  obtain ⟨hin, hout⟩ := hfill 0 ap (Nat.zero_le _)
  have hassoc : (do
      pbit32 (sizeS2M f)
      pbit8 f.type
      pbit16 f.tag.toNat
      putBody f t
      let p ← here
      if sizeS2M f ≠ p then quit else return sizeS2M f) = (do
        pbit32 (sizeS2M f)
        pbit8 f.type
        pbit16 f.tag.toNat
        putBody f t) >>= fun _ ↦ (do
          let p ← here
          if sizeS2M f ≠ p then quit else return sizeS2M f) := by
    simp only [Cursor.bind_assoc]
  simp only [convS2M, if_neg hpos, if_neg (Nat.not_lt.mpr hle), ht]
  rw [hassoc]
  constructor
  · intro hfault
    by_contra hlen
    obtain ⟨buf, -, hrun⟩ := hin (by omega)
    rw [bind_ok _ hrun, bind_ok _ (run_here _ _)] at hfault
    split at hfault <;> cases hfault
  · intro hlen
    rw [run_bind, hout (by omega)]

/-- Too many qids are refused in the middle. -/
theorem convS2M_qids {f : Fcall CStr (List UInt8)} {ap : List UInt8} (ht : MsgType.ofCode f.type = some .Rwalk)
    (hn : MAXWELEM < f.nwqid.toNat) (hle : sizeS2M f ≤ ap.length) : convS2M f ap ≠ .fault := by
  have hlt := f.nwqid.toNat_lt
  have hsize : sizeS2M f = BIT32SZ + BIT8SZ + BIT16SZ + (BIT16SZ + f.nwqid.toNat * QIDSZ) := by
    simp only [sizeS2M, ht, sizeBody]
    apply Nat.mod_eq_of_lt
    simp only [BIT32SZ, BIT8SZ, BIT16SZ, QIDSZ, BIT64SZ]
    omega
  have hfill := (fills_pbit32 (sizeS2M f)).andThen ((fills_pbit8 f.type).andThen ((fills_pbit16 f.tag.toNat).andThen
    (fills_pbit16 f.nwqid.toNat)))
  obtain ⟨buf, -, hrun⟩ := (hfill 0 ap (Nat.zero_le _)).1 (by omega)
  have hpos : sizeS2M f ≠ 0 := by
    simp only [BIT32SZ] at hsize
    omega
  have hassoc : (do
      pbit32 (sizeS2M f)
      pbit8 f.type
      pbit16 f.tag.toNat
      putBody f .Rwalk
      let p ← here
      if sizeS2M f ≠ p then quit else return sizeS2M f) = (do
        pbit32 (sizeS2M f)
        pbit8 f.type
        pbit16 f.tag.toNat
        pbit16 f.nwqid.toNat) >>= fun _ ↦ (do
          let _ ← (quit : Cursor Unit)
          let p ← here
          if sizeS2M f ≠ p then quit else return sizeS2M f) := by
    simp only [Cursor.bind_assoc, putBody, if_pos hn]
  simp only [convS2M, if_neg hpos, if_neg (Nat.not_lt.mpr hle), ht]
  rw [hassoc, bind_ok _ hrun, bind_quit _ (run_quit _ _)]
  simp

/-- `convS2M` keeps to its buffers just when a message of names has no more than the array holds, and the bytes of the message
are fewer than `2 ^ 32`, or what is left of their number in 32 bits is refused. -/
theorem convS2M_inside {f : Fcall CStr (List UInt8)} {ap : List UInt8} (hap : ap.length < 2 ^ 32)
    (hb : ∀ t, MsgType.ofCode f.type = some t → f.Backed t) :
    convS2MIn f ap ≠ .fault ↔ ∀ t, MsgType.ofCode f.type = some t → (t = .Twalk → f.nwname.toNat ≤ MAXWELEM) ∧
      (f.total t < 2 ^ 32 ∨ f.total t % 2 ^ 32 = 0 ∨ ap.length < f.total t % 2 ^ 32) := by
  by_cases hnames : MsgType.ofCode f.type = some .Twalk → f.nwname.toNat ≤ MAXWELEM
  · rw [convS2MIn_eq hnames]
    cases hc : MsgType.ofCode f.type with
    | none =>
      have hzero : sizeS2M f = 0 := by rw [sizeS2M, hc]
      simp only [convS2M, if_pos hzero]
      exact ⟨(by simp), fun _ ↦ (by simp)⟩
    | some t =>
      have hsize := sizeS2M_mod hc
      have hcond : (∀ t', some t = some t' → (t' = .Twalk → f.nwname.toNat ≤ MAXWELEM) ∧
          (f.total t' < 2 ^ 32 ∨ f.total t' % 2 ^ 32 = 0 ∨ ap.length < f.total t' % 2 ^ 32)) ↔
          (f.total t < 2 ^ 32 ∨ f.total t % 2 ^ 32 = 0 ∨ ap.length < f.total t % 2 ^ 32) := by
        constructor
        · exact fun h ↦ (h t rfl).2
        · rintro h t' ⟨⟩
          exact ⟨fun ht ↦ hnames (by rw [hc, ht]), h⟩
      rw [hcond]
      by_cases hzero : sizeS2M f = 0
      · simp only [convS2M, if_pos hzero]
        exact ⟨fun _ ↦ .inr (.inl (hsize ▸ hzero)), fun _ ↦ (by simp)⟩
      · by_cases hbig : ap.length < sizeS2M f
        · simp only [convS2M, if_neg hzero, if_pos hbig]
          exact ⟨fun _ ↦ .inr (.inr (hsize ▸ hbig)), fun _ ↦ (by simp)⟩
        · by_cases hbound : f.Bounded t
          · rw [Ne, convS2M_fault hc hzero (Nat.not_lt.mp hbig) (fills_putBody (hb t hc) hbound), ← Fcall.total]
            omega
          · obtain rfl : t = .Rwalk := by
              cases t with
              | Twalk => exact absurd (hnames hc) hbound
              | Rwalk => rfl
              | _ => exact absurd trivial hbound
            have hsmall : f.total .Rwalk < 2 ^ 32 := by
              have hlt := f.nwqid.toNat_lt
              simp only [Fcall.total, sizeBody, Fcall.cut, BIT32SZ, BIT8SZ, BIT16SZ, QIDSZ, BIT64SZ]
              omega
            exact ⟨fun _ ↦ .inl hsmall, fun _ ↦ convS2M_qids hc (Nat.not_le.mp hbound) (Nat.not_lt.mp hbig)⟩
  · obtain ⟨hc, hn⟩ := Classical.not_imp.mp hnames
    have hrun : (sizeS2MIn f).run 0 ap = .fault := by rw [run_sizeS2MIn, if_neg hnames]
    have hfault : convS2MIn f ap = .fault := by
      simp only [convS2MIn]
      rw [run_bind, hrun]
    exact ⟨fun h ↦ absurd hfault h, fun h ↦ absurd ((h .Twalk hc).1 rfl) hn⟩

/-- A reply of `count` bytes to a read. -/
def readReply (count : UInt32) : Fcall CStr (List UInt8) where
  type := 117
  fid := 0
  tag := 1
  msize := 0
  version := none
  oldtag := 0
  ename := none
  qid := ⟨0, 0, 0⟩
  iounit := 0
  aqid := ⟨0, 0, 0⟩
  afid := 0
  uname := none
  aname := none
  perm := 0
  name := none
  mode := 0
  newfid := 0
  nwname := 0
  wname := fun _ ↦ none
  nwqid := 0
  wqid := fun _ ↦ ⟨0, 0, 0⟩
  offset := 0
  count := count
  data := List.replicate count.toNat 0
  nstat := 0
  stat := []

theorem readReply_backed (count : UInt32) (t : MsgType) (h : MsgType.ofCode (readReply count).type = some t) : (readReply count).Backed t := by
  obtain rfl : MsgType.Rread = t := Option.some.inj h
  exact Nat.le_of_eq List.length_replicate.symm

theorem readReply_total (count : UInt32) : (readReply count).total .Rread = 11 + count.toNat := by
  simp only [Fcall.total, sizeBody, Fcall.cut, readReply, BIT32SZ, BIT8SZ, BIT16SZ]
  omega

/-- Two bytes fit in a buffer of sixteen. -/
theorem convS2M_inside_two : (readReply 2).total .Rread < 2 ^ 32 ∧ convS2MIn (readReply 2) (List.replicate 16 0) ≠ .fault := by
  have htotal := readReply_total 2
  have hsmall : (readReply 2).total .Rread < 2 ^ 32 := by
    rw [htotal]
    decide
  refine ⟨hsmall, (convS2M_inside (by decide) (readReply_backed 2)).mpr ?_⟩
  intro t ht
  obtain rfl : MsgType.Rread = t := Option.some.inj ht
  exact ⟨nofun, .inl hsmall⟩

/-- With `2 ^ 32 - 10` bytes the size comes out as one. -/
theorem convS2M_wraps : ¬ ∀ (f : Fcall CStr (List UInt8)) (ap : List UInt8), ap.length < 2 ^ 32 →
    (∀ t, MsgType.ofCode f.type = some t → f.Backed t) → convS2MIn f ap ≠ .fault := by
  intro h
  apply h (readReply (UInt32.ofNat (2 ^ 32 - 10))) [0] (by decide) (readReply_backed _)
  rw [convS2MIn_eq fun hc ↦ absurd hc (by decide), convS2M_fault (t := .Rread) rfl (by decide) (by decide) (fills_putBody (readReply_backed _ _ rfl) trivial)]
  exact Nat.lt_add_right _ (by decide)

end Petele.NineP
