import Petele.NineP.Dir
import Petele.NineP.RoundTrip

namespace Petele.NineP

open Lib Lib.LittleEndian

/-! ### The bytes of a directory entry -/

/-- The bytes a string stands for; nil counts as the empty string. -/
def svbytes (s : CStr) : List UInt8 := s.getD []

theorem svlen_eq (s : CStr) : svlen s = (svbytes s).length := by cases s <;> rfl

namespace Dir

/-- The encoded size, before the additions of `sizeD2M` wrap. -/
def size (d : Dir CStr) : ℕ := STATFIXLEN + (d.sv.map svlen).sum

/-- The fixed-length fields behind the size. -/
def fixed {S : Type} (d : Dir S) : List UInt8 :=
  u16.enc d.type ++ (u32.enc d.dev ++ (u8.enc d.qid.type ++ (u32.enc d.qid.vers ++ (u64.enc d.qid.path ++
    (u32.enc d.mode ++ (u32.enc d.atime ++ (u32.enc d.mtime ++ u64.enc d.length)))))))

def stats (d : Dir CStr) : List UInt8 := (d.sv.map svbytes).flatMap str.enc

def wire (d : Dir CStr) : List UInt8 := leBytes 2 (d.size - BIT16SZ) ++ (d.fixed ++ d.stats)

theorem fixed_length {S : Type} (d : Dir S) : d.fixed.length = 39 := by
  simp only [fixed, List.length_append, u8_length, u16_length, u32_length, u64_length]

theorem stats_length (d : Dir CStr) : d.stats.length = 8 + (d.sv.map svlen).sum := by
  simp only [stats, sv, List.map_cons, List.map_nil, List.flatMap_cons, List.flatMap_nil, List.length_append,
    str_enc_length, List.length_nil, List.sum_cons, List.sum_nil, svlen_eq]
  omega

theorem wire_length (d : Dir CStr) : d.wire.length = d.size := by
  simp only [wire, List.length_append, leBytes_length, fixed_length, stats_length, size, STATFIXLEN, BIT16SZ,
    QIDSZ, BIT8SZ, BIT32SZ, BIT64SZ]
  omega

theorem svlen_le_size {d : Dir CStr} {s : CStr} (h : s ∈ d.sv) : svlen s + STATFIXLEN ≤ d.size := by
  simp only [size, sv, List.map_cons, List.map_nil, List.sum_cons, List.sum_nil]
  simp only [sv, List.mem_cons, List.not_mem_nil, or_false] at h
  obtain rfl | rfl | rfl | rfl := h <;> omega

theorem short {d : Dir CStr} (h : d.size ≤ 65537) : ∀ s ∈ d.sv.map svbytes, s.length < 2 ^ 16 := by
  intro s hs
  obtain ⟨r, hr, rfl⟩ := List.mem_map.mp hs
  have hle := svlen_le_size hr
  rw [← svlen_eq]
  simp only [STATFIXLEN, BIT16SZ, BIT32SZ, BIT64SZ, QIDSZ, BIT8SZ] at hle
  omega

end Dir

theorem sizeD2M_eq {d : Dir CStr} (h : d.size ≤ 65537) : sizeD2M d = d.size :=
  Nat.mod_eq_of_lt (by simp only [Dir.size] at h; omega)

/-! ### `convD2M` -/

theorem int_eq {n : ℕ} (h : n < 2 ^ 31) : int n = n := by
  apply Int.bmod_eq_of_le <;> norm_num <;> omega

theorem shift_natCast (n : ℕ) : shift n = Cursor.advance n := by
  simp only [shift, Cursor.advance]
  congr 1

/-- The `memmove` that `convD2M` leaves out for an empty string. -/
theorem puts_svbytes (s : CStr) :
    Puts (svbytes s) (do
      if (svlen s : ℤ) ≠ 0 then Cursor.poke 0 (svbytes s)
      shift (svlen s)) := by
  rw [shift_natCast, svlen_eq]
  by_cases h : svbytes s = []
  · rw [h]
    exact Puts.nothing
  · have hne : ((svbytes s).length : ℤ) ≠ 0 := by
      rw [Ne, Int.natCast_eq_zero, List.length_eq_zero_iff]
      exact h
    simp only [if_pos hne]
    exact Puts.poke (svbytes s)

theorem puts_putStat {s : CStr} (h : svlen s < 2 ^ 16) : Puts (str.enc (svbytes s)) (putStat s) := by
  have hint := int_eq (n := svlen s) (by omega)
  have hmod : ((svlen s : ℤ) % 2 ^ 32).toNat = svlen s := by omega
  have htake : (s.getD []).take (svlen s) = svbytes s := by
    rw [svlen_eq]
    exact List.take_length
  intro pre old post hold
  have hput := ((puts_pbit16 (svlen s)).andThen (puts_svbytes s)) pre old post
    (by rw [hold, svlen_eq]; rfl)
  rw [str_enc_length, ← svlen_eq] at hold
  have hroom : ¬ (pre.length : ℤ) + svlen s + BIT16SZ > (pre ++ (old ++ post)).length := by
    simp only [List.length_append, hold, BIT16SZ]
    omega
  simp only [putStat, hint, hmod, htake, if_neg hroom]
  rw [hput, svlen_eq]
  rfl

theorem puts_putFields {d : Dir CStr} (h : d.size ≤ 65537) : Puts (d.fixed ++ d.stats) (putFields d) := by
  have hstats : Puts d.stats (d.sv.forM putStat) := by
    rw [Dir.stats, List.flatMap_map]
    refine Puts.forEach d.sv (fun s hs ↦ puts_putStat ?_)
    rw [svlen_eq]
    exact Dir.short h _ (List.mem_map_of_mem hs)
  simp only [Dir.fixed, List.append_assoc]
  exact (puts_pbit16 _).andThen ((puts_pbit32 _).andThen ((puts_pbit8 _).andThen ((puts_pbit32 _).andThen
    ((puts_pbit64 _).andThen ((puts_pbit32 _).andThen ((puts_pbit32 _).andThen ((puts_pbit32 _).andThen
      ((puts_pbit64 _).andThen hstats))))))))

theorem wrap_sub {n : ℕ} (h : n < 2 ^ 32) (h2 : BIT16SZ ≤ n) : (n + 2 ^ 32 - BIT16SZ) % 2 ^ 32 = n - BIT16SZ := by
  rw [Nat.sub_add_comm h2, Nat.add_mod_right]
  exact Nat.mod_eq_of_lt (by omega)

theorem BIT16SZ_le_size (d : Dir CStr) : BIT16SZ ≤ d.size :=
  Nat.le_trans (by decide : BIT16SZ ≤ STATFIXLEN) (Nat.le_add_right _ _)

theorem convD2M_size {d : Dir CStr} (h : d.size ≤ 65537) {buf : List UInt8} (hbuf : 2 ≤ buf.length) :
    (pbit16 ((sizeD2M d + 2 ^ 32 - BIT16SZ) % 2 ^ 32)).run 0 buf =
      .ok () 2 (leBytes 2 (d.size - BIT16SZ) ++ buf.drop 2) := by
  have hrun := puts_pbit16 (d.size - BIT16SZ) [] (buf.take 2) (buf.drop 2)
    (by rw [List.length_take, leBytes_length]; omega)
  rw [List.take_append_drop, leBytes_length] at hrun
  rw [sizeD2M_eq h, wrap_sub (by omega) (BIT16SZ_le_size d)]
  exact hrun

theorem run_endCheck {z : ℤ} {n : ℕ} (h : z = n) (buf : List UInt8) :
    (do let p ← Cursor.here; if z ≠ p then Cursor.quit else return p : Cursor ℕ).run n buf = .ok n n buf := by
  rw [Cursor.bind_ok _ (Cursor.run_here _ _), if_neg (not_not.mpr h)]
  rfl

theorem convD2M_eq {d : Dir CStr} (h : d.size ≤ 65537) {buf : List UInt8} (hbuf : d.size ≤ buf.length) :
    convD2M d buf = .ok d.size d.size (d.wire ++ buf.drop d.size) := by
  have h2 : 2 ≤ d.size := BIT16SZ_le_size d
  have hlen := d.wire_length
  have hrest : (d.fixed ++ d.stats).length = d.size - 2 := by
    simp only [Dir.wire, List.length_append, leBytes_length] at hlen ⊢
    omega
  have hrun := puts_putFields h (leBytes 2 (d.size - BIT16SZ)) ((buf.drop 2).take (d.size - 2)) (buf.drop d.size)
    (by rw [hrest, List.length_take, List.length_drop]; omega)
  have hsplit : (buf.drop 2).take (d.size - 2) ++ buf.drop d.size = buf.drop 2 := by
    have hdrop : buf.drop d.size = (buf.drop 2).drop (d.size - 2) := by
      rw [List.drop_drop]
      congr 1
      omega
    rw [hdrop, List.take_append_drop]
  rw [hsplit, leBytes_length, hrest] at hrun
  have hsize := sizeD2M_eq h
  have hint : int (sizeD2M d) = d.size := by rw [hsize, int_eq (h.trans_lt (by decide))]
  have hend : 2 + (d.size - 2) = d.size := Nat.add_sub_of_le h2
  rw [hend] at hrun
  simp only [convD2M]
  have hroom : ¬ buf.length < BIT16SZ := Nat.not_lt.mpr (h2.trans hbuf)
  rw [if_neg hroom, Cursor.bind_ok _ (convD2M_size h (h2.trans hbuf)),
    if_neg (by omega), Cursor.bind_ok _ hrun, run_endCheck hint]
  simp only [Dir.wire, List.append_assoc]

theorem convD2M_short {d : Dir CStr} (h : d.size ≤ 65537) {buf : List UInt8} (h2 : 2 ≤ buf.length)
    (hbuf : buf.length < d.size) :
    convD2M d buf = .ok BIT16SZ BIT16SZ (PBIT16 (d.size - BIT16SZ) ++ buf.drop BIT16SZ) := by
  have hsize := sizeD2M_eq h
  simp only [convD2M]
  rw [if_neg (by simp only [BIT16SZ]; omega), Cursor.bind_ok _ (convD2M_size h h2), if_pos (by omega), PBIT16_eq]
  rfl

/-! ### `statcheck` -/

theorem run_peek16 (pre post : List UInt8) {v : ℕ} :
    (Cursor.peek 0 BIT16SZ).run pre.length (pre ++ (leBytes 2 v ++ post)) =
      .ok (leBytes 2 v) pre.length (pre ++ (leBytes 2 v ++ post)) :=
  @Cursor.run_peek pre [] (leBytes 2 v) post 0 2 rfl (leBytes_length _ _).symm

theorem GBIT16_leBytes {v : ℕ} (h : v < 2 ^ 16) : (GBIT16 (leBytes 2 v)).toNat = v := by
  have hmod : v % 256 ^ 2 = v := Nat.mod_eq_of_lt h
  rw [GBIT16_eq (leBytes_length _ _), leVal_leBytes, hmod]
  exact UInt16.toNat_ofNat_of_lt' h

theorem run_skipStats (ss : List (List UInt8)) (hss : ∀ s ∈ ss, s.length < 2 ^ 16) (pre post : List UInt8) :
    (skipStats ss.length).run pre.length (pre ++ (ss.flatMap str.enc ++ post)) =
      .ok () (pre.length + (ss.flatMap str.enc).length) (pre ++ (ss.flatMap str.enc ++ post)) := by
  induction ss generalizing pre with
  | nil => rfl
  | cons s ss ih =>
    have hs := hss s List.mem_cons_self
    have hbuf : pre ++ ((s :: ss).flatMap str.enc ++ post) =
        pre ++ (leBytes 2 s.length ++ (s ++ (ss.flatMap str.enc ++ post))) := by
      simp [str, Format.counted, Format.count, Format.blob]
    have hroom : (Cursor.room BIT16SZ).run pre.length (pre ++ ((s :: ss).flatMap str.enc ++ post)) =
        .ok () pre.length (pre ++ ((s :: ss).flatMap str.enc ++ post)) := by
      rw [Cursor.run_room, if_pos]
      simp only [List.flatMap_cons, List.length_append, str_enc_length, BIT16SZ]
      omega
    have ih := ih (fun r hr ↦ hss r (List.mem_cons_of_mem _ hr)) (pre ++ str.enc s)
    have hmove : pre.length + (BIT16SZ + s.length) = (pre ++ str.enc s).length := by
      rw [List.length_append, str_enc_length]
      rfl
    rw [hbuf] at hroom
    rw [hbuf, List.length_cons, skipStats, Cursor.bind_ok _ hroom, Cursor.bind_ok _ (run_peek16 _ _),
      GBIT16_leBytes hs, Cursor.bind_ok _ (Cursor.run_advance _ _ _), hmove, ← hbuf]
    simp only [List.flatMap_cons, List.append_assoc, List.length_append, Nat.add_assoc] at ih ⊢
    exact ih

theorem statcheck_wire {d : Dir CStr} (h : d.size ≤ 65537) : statcheck d.wire = .ok () d.size d.wire := by
  have hlen := d.wire_length
  have hfix : STATFIXLEN ≤ d.size := Nat.le_add_right _ _
  have hpeek : (Cursor.peek 0 BIT16SZ).run 0 d.wire = .ok (leBytes 2 (d.size - BIT16SZ)) 0 d.wire :=
    run_peek16 [] _
  have hskip : (skipStats 4).run (STATFIXLEN - 4 * BIT16SZ) d.wire = .ok () d.size d.wire := by
    have hrun := run_skipStats (d.sv.map svbytes) (Dir.short h) (leBytes 2 (d.size - BIT16SZ) ++ d.fixed) []
    rw [List.append_nil, ← Dir.stats, List.append_assoc, ← Dir.wire] at hrun
    have hpre : (leBytes 2 (d.size - BIT16SZ) ++ d.fixed).length = STATFIXLEN - 4 * BIT16SZ := by
      rw [List.length_append, leBytes_length, Dir.fixed_length]
      rfl
    have hend : STATFIXLEN - 4 * BIT16SZ + d.stats.length = d.size := by
      rw [← hpre, ← List.length_append, List.append_assoc, ← Dir.wire, hlen]
    rwa [hpre, hend] at hrun
  have hget : d.wire.length = BIT16SZ + (GBIT16 (leBytes 2 (d.size - BIT16SZ))).toNat := by
    rw [GBIT16_leBytes (by simp only [BIT16SZ]; omega), hlen, Nat.add_sub_of_le (BIT16SZ_le_size d)]
  simp only [statcheck]
  rw [if_neg (by omega), Cursor.bind_ok _ hpeek, if_neg (not_not.mpr hget), Cursor.bind_ok _ (Cursor.run_advance _ _ _),
    Nat.zero_add, Cursor.bind_ok _ hskip, Cursor.bind_ok _ (Cursor.run_here _ _), if_neg (not_not.mpr hlen.symm)]
  rfl

/-- The buffers `statcheck` accepts say their own length in their first two bytes. -/
theorem statcheck_length {buf buf' : List UInt8} {p : ℕ} (h : statcheck buf = .ok () p buf') :
    2 ≤ buf.length ∧ buf.length = BIT16SZ + (GBIT16 (buf.take 2)).toNat := by
  simp only [statcheck] at h
  split at h
  · cases h
  case isFalse hfix =>
    have h2 : 2 ≤ buf.length := Nat.le_trans (by decide) (Nat.not_lt.mp hfix)
    have hpeek : (Cursor.peek 0 BIT16SZ).run 0 buf = .ok (buf.take 2) 0 buf := by
      simp only [Cursor.peek, Nat.zero_add, List.drop_zero]
      exact if_pos h2
    rw [Cursor.bind_ok _ hpeek] at h
    split at h
    · cases h
    case isFalse hsize => exact ⟨h2, not_not.mp hsize⟩

theorem statcheck_iff {d : Dir CStr} (h : d.size ≤ 65537) (tail : List UInt8) {m : ℕ}
    (hm : m ≤ (d.wire ++ tail).length) :
    (∃ p buf, statcheck ((d.wire ++ tail).take m) = .ok () p buf) ↔ m = d.size := by
  constructor
  · rintro ⟨p, buf, hok⟩
    obtain ⟨h2, hlen⟩ := statcheck_length hok
    rw [List.length_take, Nat.min_eq_left hm] at h2 hlen
    have htake : ((d.wire ++ tail).take m).take 2 = leBytes 2 (d.size - BIT16SZ) := by
      rw [List.take_take, Nat.min_eq_left h2, Dir.wire, List.append_assoc]
      exact List.take_left' (leBytes_length _ _)
    rw [htake, GBIT16_leBytes (by simp only [BIT16SZ]; omega), Nat.add_sub_of_le (BIT16SZ_le_size d)] at hlen
    exact hlen
  · rintro rfl
    rw [List.take_left' d.wire_length]
    exact ⟨_, _, statcheck_wire h⟩

/-! ### `convM2D` -/

theorem dataAt_iff {mem bs : List UInt8} {p : ℕ} :
    DataAt mem p bs ↔ ∀ i, i < bs.length → mem[p + i]? = bs[i]? := by
  constructor
  · intro h i hi
    have hi' := congrArg (fun l ↦ l[i]?) h
    simpa only [List.getElem?_take_of_lt hi, List.getElem?_drop] using hi'
  · intro h
    apply List.ext_getElem?
    intro i
    by_cases hi : i < bs.length
    · rw [List.getElem?_take_of_lt hi, List.getElem?_drop, h i hi]
    · rw [List.getElem?_take_eq_none (by omega), List.getElem?_eq_none (by omega)]

theorem DataAt.split {mem bs : List UInt8} {p : ℕ} (h : DataAt mem p bs) (hbs : 0 < bs.length) :
    ∃ pre post, mem = pre ++ (bs ++ post) ∧ pre.length = p := by
  have hle := h.backed
  rw [List.length_drop] at hle
  have happ := congrArg (fun l ↦ l ++ (mem.drop p).drop bs.length) h
  simp only [List.take_append_drop] at happ
  exact ⟨mem.take p, (mem.drop p).drop bs.length, by rw [← happ, List.take_append_drop],
    by rw [List.length_take]; omega⟩

theorem DataAt.left {mem bs cs : List UInt8} {p : ℕ} (h : DataAt mem p (bs ++ cs)) : DataAt mem p bs := by
  rw [dataAt_iff] at h ⊢
  intro i hi
  rw [h i (by rw [List.length_append]; omega), List.getElem?_append_left hi]

theorem DataAt.right {mem bs cs : List UInt8} {p : ℕ} (h : DataAt mem p (bs ++ cs)) :
    DataAt mem (p + bs.length) cs := by
  rw [dataAt_iff] at h ⊢
  intro i hi
  rw [Nat.add_assoc, h _ (by rw [List.length_append]; omega), List.getElem?_append_right (by omega),
    Nat.add_sub_cancel_left]

/-- Words read at the places where they stand. -/
theorem run_word_at {β : Type} {w : ℕ} {toNat : β → ℕ} {ofNat : ℕ → β} {get : List UInt8 → β}
    (hget : ∀ bs : List UInt8, bs.length = w → get bs = ofNat (leVal bs)) (hw : 0 < w) {mem : List UInt8}
    {p : ℕ} {a : β} (h : DataAt mem p (leBytes w (toNat a))) (hlt : toNat a < 256 ^ w) (hof : ofNat (toNat a) = a) :
    (do let bs ← Cursor.peek 0 w; Cursor.advance w; return get bs : Cursor β).run p mem = .ok a (p + w) mem := by
  obtain ⟨pre, post, rfl, rfl⟩ := h.split (by rwa [leBytes_length])
  exact Gets.run_word_leBytes hget pre post hlt hof

theorem gbit8_at {mem : List UInt8} {p : ℕ} {a : UInt8} (h : DataAt mem p (u8.enc a)) :
    gbit8.run p mem = .ok a (p + 1) mem :=
  run_word_at (fun _ h ↦ GBIT8_eq h) (by decide) h a.toNat_lt UInt8.ofNat_toNat

theorem gbit16_at {mem : List UInt8} {p : ℕ} {a : UInt16} (h : DataAt mem p (u16.enc a)) :
    gbit16.run p mem = .ok a (p + 2) mem :=
  run_word_at (fun _ h ↦ GBIT16_eq h) (by decide) h a.toNat_lt UInt16.ofNat_toNat

theorem gbit32_at {mem : List UInt8} {p : ℕ} {a : UInt32} (h : DataAt mem p (u32.enc a)) :
    gbit32.run p mem = .ok a (p + 4) mem :=
  run_word_at (fun _ h ↦ GBIT32_eq h) (by decide) h a.toNat_lt UInt32.ofNat_toNat

theorem gbit64_at {mem : List UInt8} {p : ℕ} {a : UInt64} (h : DataAt mem p (u64.enc a)) :
    gbit64.run p mem = .ok a (p + 8) mem :=
  run_word_at (fun _ h ↦ GBIT64_eq h) (by decide) h a.toNat_lt UInt64.ofNat_toNat

/-- What a `pokeAt` leaves. -/
theorem run_pokeAt {mem bs : List UInt8} {a : ℕ} (h : a + bs.length ≤ mem.length) (p : ℕ) :
    ∃ mem', (pokeAt a bs).run p mem = .ok () p mem' ∧ mem'.length = mem.length ∧ DataAt mem' a bs ∧
      ∀ i, i < a ∨ a + bs.length ≤ i → mem'[i]? = mem[i]? := by
  refine ⟨mem.take a ++ bs ++ mem.drop (a + bs.length), if_pos h, ?_, ?_, ?_⟩
  · simp only [List.length_append, List.length_take, List.length_drop]
    omega
  · rw [DataAt, List.append_assoc, List.drop_left' (by rw [List.length_take]; omega)]
    exact List.take_left
  · intro i hi
    have htake : (mem.take a).length = a := by rw [List.length_take]; omega
    rcases hi with hi | hi
    · rw [List.append_assoc, List.getElem?_append_left (by omega), List.getElem?_take_of_lt hi]
    · rw [List.getElem?_append_right (by rw [List.length_append]; omega), List.getElem?_drop, List.length_append]
      congr 1
      omega

theorem DataAt.frame {mem mem' bs : List UInt8} {p : ℕ} (h : DataAt mem p bs)
    (hframe : ∀ i, p ≤ i → i < p + bs.length → mem'[i]? = mem[i]?) : DataAt mem' p bs := by
  rw [dataAt_iff] at h ⊢
  intro i hi
  rw [hframe _ (by omega) (by omega), h i hi]

theorem DataAt.append {mem bs cs : List UInt8} {p : ℕ} (h : DataAt mem p bs) (h' : DataAt mem (p + bs.length) cs) :
    DataAt mem p (bs ++ cs) := by
  rw [dataAt_iff] at h h' ⊢
  intro i hi
  by_cases hlt : i < bs.length
  · rw [h i hlt, List.getElem?_append_left hlt]
  · rw [List.length_append] at hi
    have hi' := h' (i - bs.length) (by omega)
    rw [List.getElem?_append_right (by omega), ← hi']
    congr 1
    omega

/-- The loop of `convM2D`. The string area runs behind the cursor from in front of the
message, or starts behind the message, so that no string is written over one still to be read. -/
theorem run_getStats (ss : List (List UInt8)) (hss : ∀ s ∈ ss, s.length < 2 ^ 16) {mem : List UInt8}
    {p s ebuf : ℕ} (hat : DataAt mem p (ss.flatMap str.enc)) (hend : p + (ss.flatMap str.enc).length ≤ ebuf)
    (hebuf : ebuf ≤ mem.length) (harea : s + (ss.map (fun r ↦ r.length + 1)).sum ≤ mem.length)
    (hsep : s ≤ p ∨ p + (ss.flatMap str.enc).length ≤ s) :
    ∃ sv mem', (getStats ebuf ss.length (some s)).run p mem = .ok sv (p + (ss.flatMap str.enc).length) mem' ∧
      mem'.length = mem.length ∧ (∀ i, i < s → mem'[i]? = mem[i]?) ∧ List.Forall₂ (StrAt mem') sv ss := by
  induction ss generalizing mem p s with
  | nil => exact ⟨[], mem, rfl, rfl, fun _ _ ↦ rfl, .nil⟩
  | cons r ss ih =>
    have hr := hss r List.mem_cons_self
    simp only [List.flatMap_cons, List.length_append, str_enc_length] at hend hsep
    simp only [List.map_cons, List.sum_cons] at harea
    rw [List.flatMap_cons] at hat
    have hnum : (UInt16.ofNat r.length).toNat = r.length := UInt16.toNat_ofNat_of_lt' hr
    have hcount : gbit16.run p mem = .ok (UInt16.ofNat r.length) (p + 2) mem := by
      have henc : u16.enc (UInt16.ofNat r.length) = leBytes 2 r.length := congrArg (leBytes 2) hnum
      apply gbit16_at
      rw [henc]
      exact hat.left.left
    have hbytes : DataAt mem (p + 2) r := by
      have h := hat.left.right
      rwa [Format.count, leBytes_length] at h
    have hrest : DataAt mem (p + (2 + r.length)) (ss.flatMap str.enc) := by
      have h := hat.right
      rwa [str_enc_length] at h
    have hpeek : (Cursor.peek 0 r.length).run (p + 2) mem = .ok r (p + 2) mem := by
      simp only [Cursor.peek, Nat.add_zero]
      rw [if_pos (by omega), hbytes]
    obtain ⟨mem₁, hrun₁, hlen₁, hat₁, hframe₁⟩ := @run_pokeAt mem r s (by omega) (p + 2)
    obtain ⟨mem₂, hrun₂, hlen₂, hat₂, hframe₂⟩ := @run_pokeAt mem₁ [0] (s + r.length) (by simp; omega) (p + 2)
    simp only [List.length_singleton] at hframe₂
    have hrest₂ : DataAt mem₂ (p + (2 + r.length)) (ss.flatMap str.enc) := by
      apply hrest.frame
      intro i hi hi'
      rw [hframe₂ i (by omega), hframe₁ i (by omega)]
    have hstr₂ : DataAt mem₂ s (r ++ [0]) :=
      (hat₁.frame (fun i _ hi ↦ hframe₂ i (by omega))).append hat₂
    obtain ⟨sv, mem', hrun, hlen, hframe, hall⟩ := ih (fun t ht ↦ hss t (List.mem_cons_of_mem _ ht)) hrest₂
      (by omega) (by omega) (s := s + r.length + 1) (by omega) (by omega)
    refine ⟨⟨s, r.length⟩ :: sv, mem', ?_, by omega, ?_, .cons ⟨rfl, ?_⟩ hall⟩
    · rw [List.length_cons, getStats, Cursor.bind_ok _ (Cursor.run_here _ _), if_neg (by simp only [BIT16SZ]; omega),
        Cursor.bind_ok _ hcount, hnum, Cursor.bind_ok _ (Cursor.run_here _ _), if_neg (by omega)]
      rw [Cursor.bind_ok _ hpeek, Cursor.bind_ok _ hrun₁, Cursor.bind_ok _ hrun₂,
        Cursor.bind_ok _ (Cursor.run_advance _ _ _), Nat.add_assoc p, Cursor.bind_ok _ hrun, Cursor.run_pure,
        List.flatMap_cons, List.length_append, str_enc_length, Nat.add_assoc]
    · intro i hi
      rw [hframe i (by omega), hframe₂ i (by omega), hframe₁ i (by omega)]
    · have h : DataAt mem' s (r ++ [0]) :=
        hstr₂.frame (fun i _ hi ↦ hframe i (by rw [List.length_append, List.length_singleton] at hi; omega))
      rwa [DataAt, List.length_append] at h

theorem run_getFixed {d : Dir CStr} {mem : List UInt8} {p : ℕ} (h : DataAt mem p d.fixed) :
    ∃ k, getFixed.run p mem = .ok k (p + 39) mem ∧ ∀ sv null, k sv null = { d with
      name := sv.getD 0 null, uid := sv.getD 1 null, gid := sv.getD 2 null, muid := sv.getD 3 null } := by
  have step {α β : Type} {m : Cursor α} {F : Format α} {w q : ℕ} {a : α} {bs : List UInt8}
      (k : α → Cursor β) (hw : (F.enc a).length = w)
      (hm : DataAt mem q (F.enc a) → m.run q mem = .ok a (q + w) mem) (hq : DataAt mem q (F.enc a ++ bs)) :
      (m >>= k).run q mem = (k a).run (q + w) mem ∧ DataAt mem (q + w) bs := by
    have hright := hq.right
    rw [hw] at hright
    exact ⟨Cursor.bind_ok _ (hm hq.left), hright⟩
  simp only [Dir.fixed] at h
  obtain ⟨h₁, h⟩ := step _ (u16_length _) gbit16_at h
  obtain ⟨h₂, h⟩ := step _ (u32_length _) gbit32_at h
  obtain ⟨h₃, h⟩ := step _ (u8_length _) gbit8_at h
  obtain ⟨h₄, h⟩ := step _ (u32_length _) gbit32_at h
  obtain ⟨h₅, h⟩ := step _ (u64_length _) gbit64_at h
  obtain ⟨h₆, h⟩ := step _ (u32_length _) gbit32_at h
  obtain ⟨h₇, h⟩ := step _ (u32_length _) gbit32_at h
  obtain ⟨h₈, h⟩ := step _ (u32_length _) gbit32_at h
  rw [getFixed, h₁, h₂, h₃, h₄, h₅, h₆, h₇, h₈, Cursor.bind_ok _ (gbit64_at h)]
  exact ⟨_, rfl, fun _ _ ↦ rfl⟩

/-- What a `Dir` says. -/
def Dir.value (d : Dir CStr) : Dir (List UInt8) :=
  { d with name := svbytes d.name, uid := svbytes d.uid, gid := svbytes d.gid, muid := svbytes d.muid }

/-- A decoded `Dir`, its pointers followed into memory. -/
def Dir.deref (mem : List UInt8) (g : Dir Str) : Dir (List UInt8) :=
  { g with name := cstring mem g.name, uid := cstring mem g.uid, gid := cstring mem g.gid, muid := cstring mem g.muid }

theorem convM2D_eq {d : Dir CStr} (h : d.size ≤ 65537) (hclean : ∀ s ∈ d.sv, (0 : UInt8) ∉ svbytes s)
    {mem : List UInt8} {buf nbuf s : ℕ} (null : Str) (hat : DataAt mem buf d.wire) (hnbuf : d.size ≤ nbuf)
    (hmem : buf + nbuf ≤ mem.length) (harea : s + ((d.sv.map svlen).sum + 4) ≤ mem.length)
    (hsep : s ≤ buf ∨ buf + d.size ≤ s) :
    ∃ g mem', convM2D buf nbuf (some s) null mem = .ok (d.size, g) (buf + d.size) mem' ∧
      g.deref mem' = d.value := by
  have hlen := d.wire_length
  have hfix : STATFIXLEN ≤ d.size := Nat.le_add_right _ _
  have hfixed : DataAt mem (buf + BIT16SZ) (d.fixed ++ d.stats) := by
    have h := hat.right
    rwa [leBytes_length] at h
  have hstats : DataAt mem (buf + BIT16SZ + 39) d.stats := by
    have h := hfixed.right
    rwa [Dir.fixed_length] at h
  have hend : BIT16SZ + 39 + d.stats.length = d.size := by
    rw [← hlen, Dir.wire, List.length_append, List.length_append, leBytes_length, Dir.fixed_length]
    simp only [BIT16SZ]
    omega
  obtain ⟨k, hk, hval⟩ := run_getFixed hfixed.left
  obtain ⟨sv, mem', hsv, -, -, hall⟩ := @run_getStats (d.sv.map svbytes) (Dir.short h) mem (buf + BIT16SZ + 39) s
    (buf + nbuf) hstats (by rw [← Dir.stats]; omega) hmem
    (by
      simp only [Dir.sv, List.map_cons, List.map_nil, List.sum_cons, List.sum_nil, svlen_eq] at harea ⊢
      omega)
    (by rw [← Dir.stats]; omega)
  have hpos : buf + BIT16SZ + 39 + d.stats.length = buf + d.size := by omega
  rw [← Dir.stats, hpos] at hsv
  refine ⟨k sv null, mem', ?_, ?_⟩
  · simp only [convM2D]
    rw [if_neg (by omega), Cursor.bind_ok _ (Cursor.run_advance _ _ _), Cursor.bind_ok _ hk]
    refine (Cursor.bind_ok _ hsv).trans ?_
    rw [Cursor.bind_ok _ (Cursor.run_here _ _), Nat.add_sub_cancel_left]
    rfl
  · have read {r : Str} {c : CStr} (hr : StrAt mem' r (svbytes c)) (hc : c ∈ d.sv) : cstring mem' r = svbytes c :=
      hr.cstring_eq (hclean c hc)
    obtain _ | ⟨hname, _ | ⟨huid, _ | ⟨hgid, _ | ⟨hmuid, _ | _⟩⟩⟩⟩ := hall
    rw [hval]
    simp only [Dir.deref, Dir.value, List.getD_cons_zero, List.getD_cons_succ, read hname (by simp [Dir.sv]),
      read huid (by simp [Dir.sv]), read hgid (by simp [Dir.sv]), read hmuid (by simp [Dir.sv])]

/-- Directory entries round-trip: what `convD2M` writes, `statcheck` accepts, neither more nor
less of it, and `convM2D` reads back, into any string area that does not begin inside the
message. A buffer too short for the entry gets the size that is needed and nothing else. -/
theorem convM2D_convD2M {d : Dir CStr} (hsize : d.size ≤ 65537) (hclean : ∀ s ∈ d.sv, (0 : UInt8) ∉ svbytes s)
    (buf : List UInt8) :
    sizeD2M d = d.size ∧
    (sizeD2M d ≤ buf.length → ∃ msg, msg.length = sizeD2M d ∧
      convD2M d buf = .ok (sizeD2M d) (sizeD2M d) (msg ++ buf.drop (sizeD2M d)) ∧
      (∀ tail m, m ≤ (msg ++ tail).length →
        ((∃ p b, statcheck ((msg ++ tail).take m) = .ok () p b) ↔ m = sizeD2M d)) ∧
      ∀ mem b nbuf s null, (mem.drop b).take (sizeD2M d) = msg → sizeD2M d ≤ nbuf → b + nbuf ≤ mem.length →
        s + ((d.sv.map svlen).sum + 4) ≤ mem.length → s ≤ b ∨ b + sizeD2M d ≤ s →
        ∃ g mem', convM2D b nbuf (some s) null mem = .ok (sizeD2M d, g) (b + sizeD2M d) mem' ∧
          g.deref mem' = d.value) ∧
    (BIT16SZ ≤ buf.length → buf.length < sizeD2M d →
      convD2M d buf = .ok BIT16SZ BIT16SZ (PBIT16 (sizeD2M d - BIT16SZ) ++ buf.drop BIT16SZ)) := by
  rw [sizeD2M_eq hsize]
  refine ⟨rfl, fun hbuf ↦ ⟨d.wire, d.wire_length, convD2M_eq hsize hbuf, ?_, ?_⟩, convD2M_short hsize⟩
  · intro tail m hm
    exact statcheck_iff hsize tail hm
  · intro mem b nbuf s null hat hnbuf hmem harea hsep
    rw [← d.wire_length] at hat
    exact convM2D_eq hsize hclean null hat hnbuf hmem harea hsep

/-- The entry of a file called `a` that belongs to `g`. -/
def plainFile : Dir CStr where
  type := 77
  dev := 0
  qid := ⟨1, 0, 0⟩
  mode := 0o664
  atime := 0
  mtime := 0
  length := 3
  name := some [97]
  uid := some [103]
  gid := some [103]
  muid := none

/-- Decoded in place, as `dirstat` does. -/
theorem convM2D_convD2M_plainFile :
    ∃ msg, convD2M plainFile (List.replicate 52 0) = .ok 52 52 (msg ++ []) ∧
      ∃ g mem, convM2D 0 52 (some 0) ⟨0, 0⟩ msg = .ok (52, g) 52 mem ∧ g.deref mem = plainFile.value := by
  obtain ⟨-, h, -⟩ := @convM2D_convD2M plainFile (by decide) (by decide) (List.replicate 52 0)
  obtain ⟨msg, hlen, hput, -, hget⟩ := h (by decide)
  have hlen : msg.length = 52 := hlen
  refine ⟨msg, hput, ?_⟩
  exact hget msg 0 52 0 ⟨0, 0⟩ (List.take_of_length_le hlen.le) (by decide) (by omega) (by rw [hlen]; decide)
    (.inl (Nat.le_refl 0))

end Petele.NineP
