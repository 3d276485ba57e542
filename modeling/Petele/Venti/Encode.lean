import Petele.Venti.Symbols

namespace Petele.Venti

open Lib

variable {src : List UInt8}

section Output

theorem flush_spec {n wbits wnbits k : ℕ} {out out' : List UInt8} (h : flush n out wbits wnbits = some (out', k)) (hout : out.length ≤ n) :
    k = wnbits % 8 ∧ out'.length ≤ n ∧ bytebits out' ++ bits k wbits = bytebits out ++ bits wnbits wbits := by
  induction wnbits using Nat.strongRecOn generalizing out with
  | ind wnbits ih =>
    rw [flush] at h
    split at h
    · rename_i hle
      split at h
      · cases h
      · rename_i hroom
        obtain ⟨hk, hlen, heq⟩ := ih (wnbits - 8) (by omega) h (by rw [List.length_append, List.length_singleton]; omega)
        refine ⟨by omega, hlen, ?_⟩
        have hbyte : bits 8 (UInt8.ofNat (wbits >>> (wnbits - 8))).toNat = bits 8 (wbits / 2 ^ (wnbits - 8)) := by
          rw [UInt8.toNat_ofNat', Nat.shiftRight_eq_div_pow]
          exact bits_mod le_rfl _
        rw [heq, bytebits_append, bytebits_single, hbyte, List.append_assoc, ← bits_add, Nat.add_sub_cancel' hle]
    · obtain ⟨rfl, rfl⟩ := Prod.mk.inj (Option.some.inj h)
      exact ⟨by omega, hout, rfl⟩

theorem bits_put {n k c : ℕ} (w : ℕ) (hk : n + k ≤ 32) (hc : c < 2 ^ k) : bits (n + k) (put w k c) = bits n w ++ bits k c := by
  rw [put, bits_mod hk, bits_push n w hc]

end Output

section Matches

/-- A time in the tables: nothing yet, or an earlier position. -/
def Entry (pos time : ℕ) : Prop := time = 0 ∨ ∃ p, p < pos ∧ time = (2 ^ 15 + p) % 2 ^ 16

theorem Entry.mono {pos pos' time : ℕ} (h : Entry pos time) (hle : pos ≤ pos') : Entry pos' time := by
  rcases h with h | ⟨p, hp, h⟩
  · exact .inl h
  · exact .inr ⟨p, by omega, h⟩

/-- An offset that is not too large does not reach before the block. -/
theorem Entry.off_le {pos time : ℕ} (h : Entry pos time) (hpos : pos < 2 ^ 16)
    (hoff : ((2 ^ 15 + pos) % 2 ^ 16 + 2 ^ 16 - time) % 2 ^ 16 ≤ WhackMaxOff) :
    ((2 ^ 15 + pos) % 2 ^ 16 + 2 ^ 16 - time) % 2 ^ 16 ≤ pos := by
  simp only [WhackMaxOff] at hoff
  rcases h with rfl | ⟨p, hp, rfl⟩ <;> omega

structure Tables (w : Whack) (pos : ℕ) : Prop where
  hash : ∀ i, Entry pos (w.hash i)
  next : ∀ i, Entry pos (w.next i)

/-- Equal bytes before the end. -/
structure Match (src : List UInt8) (s esrc off len : ℕ) : Prop where
  least : MinMatch ≤ len
  fits : s + len ≤ esrc
  pos : 1 ≤ off
  near : off ≤ WhackMaxOff
  inside : off ≤ s
  eq : ∀ k, k < len → src.getD (s + k) 0 = src.getD (s - off + k) 0

theorem agree_spec (s t r : ℕ) : s ≤ agree src s t r ∧ agree src s t r ≤ s + r ∧
    ∀ k, s + k < agree src s t r → src.getD (s + k) 0 = src.getD (t + k) 0 := by
  induction r generalizing s t with
  | zero => exact ⟨le_rfl, le_rfl, fun k hk => by rw [agree] at hk; omega⟩
  | succ r ih =>
    rw [agree]
    split
    · exact ⟨le_rfl, by omega, fun k hk => by omega⟩
    · rename_i heq
      rw [not_not] at heq
      obtain ⟨hlow, htop, hall⟩ := ih (s + 1) (t + 1)
      refine ⟨by omega, by omega, fun k hk => ?_⟩
      cases k with
      | zero => exact heq
      | succ k =>
        have hk' := hall k (by omega)
        rw [show s + 1 + k = s + (k + 1) by omega, show t + 1 + k = t + (k + 1) by omega] at hk'
        exact hk'

/-- Three equal bytes and those that follow. -/
theorem match_agree {s esrc off : ℕ} (hs : s + MinMatch ≤ esrc) (hpos : 1 ≤ off) (hnear : off ≤ WhackMaxOff) (hin : off ≤ s)
    (h0 : src.getD s 0 = src.getD (s - off) 0) (h1 : src.getD (s + 1) 0 = src.getD (s - off + 1) 0)
    (h2 : src.getD (s + 2) 0 = src.getD (s - off + 2) 0) :
    Match src s esrc off (agree src (s + 3) (s - off + 3) (esrc - (s + 3)) - s) := by
  obtain ⟨hlow, htop, hall⟩ := @agree_spec src (s + 3) (s - off + 3) (esrc - (s + 3))
  simp only [MinMatch] at hs
  refine ⟨by simp only [MinMatch]; omega, by omega, hpos, hnear, hin, fun k hk => ?_⟩
  rcases k with _ | _ | _ | k
  · exact h0
  · exact h1
  · exact h2
  · have hk' := hall k (by omega)
    rw [show s + 3 + k = s + (k + 3) by omega, show s - off + 3 + k = s - off + (k + 3) by omega] at hk'
    exact hk'

theorem matchloop_spec {w : Whack} {s esrc : ℕ} (hw : Tables w s) (hs : s + MinMatch ≤ esrc) (hpos : s < 2 ^ 16)
    (check : ℕ) {time last bestoff bestlen : ℕ} (htime : Entry s time) (hbest : bestlen = 0 ∨ Match src s esrc bestoff bestlen)
    {r : ℕ × ℕ} (hr : matchloop src w s esrc ((2 ^ 15 + s) % 2 ^ 16) check time last bestoff bestlen = r) :
    r.2 = 0 ∨ Match src s esrc r.1 r.2 := by
  induction check generalizing time last bestoff bestlen with
  | zero =>
    rw [← hr]
    exact hbest
  | succ check ih =>
    rw [matchloop] at hr
    simp only at hr
    split at hr
    · rw [← hr]
      exact hbest
    · rename_i hoff
      obtain ⟨hlast, hnear⟩ := not_or.mp hoff
      rw [Nat.not_lt] at hnear
      have hin := htime.off_le hpos hnear
      have hnext := hw.next (time &&& (WhackMaxOff - 1))
      split at hr
      · rename_i heq
        have hmatch := match_agree hs (by omega) hnear hin heq.1.1 heq.1.2.1 heq.1.2.2
        split at hr
        · split at hr
          · rw [← hr]
            exact .inr hmatch
          · exact ih hnext (.inr hmatch) hr
        · exact ih hnext hbest hr
      · exact ih hnext hbest hr

theorem whackmatch_spec {w : Whack} {s h now : ℕ} (hw : Tables w s) (hpos : s < 2 ^ 16) (hnow : now = (2 ^ 15 + s) % 2 ^ 16)
    (hlen : MinMatch ≤ (whackmatch src w s h now).2) :
    ∃ off : ℕ, (whackmatch src w s h now).1 = off ∧ (whackmatch src w s h now).2 ≤ MaxLen ∧
      Match src s src.length off (whackmatch src w s h now).2 := by
  subst hnow
  rw [whackmatch] at hlen ⊢
  split
  · rename_i hclose
    rw [if_pos hclose] at hlen
    simp only [MinMatch] at hlen
    omega
  · rename_i hfar
    rw [if_neg hfar] at hlen
    rw [Nat.not_lt] at hfar
    simp only at hlen ⊢
    have hend : s + MinMatch ≤ (if s + MaxLen < src.length then s + MaxLen else src.length) ∧
        (if s + MaxLen < src.length then s + MaxLen else src.length) ≤ s + MaxLen ∧
        (if s + MaxLen < src.length then s + MaxLen else src.length) ≤ src.length := by
      by_cases hlt : s + MaxLen < src.length
      · rw [if_pos hlt]
        simp only [MinMatch, MaxLen] at *
        omega
      · rw [if_neg hlt]
        simp only [MinMatch, MaxLen] at *
        omega
    obtain ⟨hs, hmax, hsrc⟩ := hend
    generalize (if s + MaxLen < src.length then s + MaxLen else src.length) = esrc at *
    rcases matchloop_spec hw hs hpos w.thwmaxcheck (hw.hash h) (.inl rfl) rfl with hnone | hmatch
    · rw [hnone] at hlen
      simp only [MinMatch] at hlen
      omega
    · have hfits := hmatch.fits
      exact ⟨_, rfl, by omega, hmatch.least, by omega, hmatch.pos, hmatch.near, hmatch.inside, hmatch.eq⟩

end Matches

section Loop

/-- Where the encoder is in the block. -/
structure At (src : List UInt8) (e : Enc) : Prop where
  le : e.s ≤ src.length
  now : e.now = (2 ^ 15 + e.s) % 2 ^ 16
  tables : Tables e.w e.s

/-- The output and the bits that wait say what the block holds before `s`. -/
structure Coded (src : List UInt8) (s : ℕ) (e : Enc) : Prop where
  room : e.out.length ≤ src.length
  tells : Tells [] (2 ^ 32 - 1) (bytebits e.out ++ bits e.wnbits e.wbits) (src.take s) e.lithist

/-- What the tables are not about. -/
structure SameCode (e e' : Enc) : Prop where
  out : e'.out = e.out
  wbits : e'.wbits = e.wbits
  wnbits : e'.wnbits = e.wnbits
  lithist : e'.lithist = e.lithist

theorem Coded.congr {s : ℕ} {e e' : Enc} (h : Coded src s e) (hsame : SameCode e e') : Coded src s e' := by
  refine ⟨by rw [hsame.out]; exact h.room, ?_⟩
  rw [hsame.out, hsame.wbits, hsame.wnbits, hsame.lithist]
  exact h.tells

theorem At.enter {e : Enc} (h : At src e) (hs : e.s < src.length) :
    At src (enter src e) ∧ (enter src e).s = e.s + 1 ∧ SameCode e (enter src e) := by
  have hnow : (e.now + 1) % 2 ^ 16 = (2 ^ 15 + (e.s + 1)) % 2 ^ 16 := by
    rw [h.now]
    omega
  have hold : ∀ i, Entry (e.s + 1) (e.w.hash i) := fun i => (h.tables.hash i).mono (Nat.le_succ _)
  unfold Venti.enter
  by_cases hroom : e.s + MinMatch ≤ src.length
  · simp only [if_pos hroom]
    refine ⟨⟨hs, hnow, fun i => ?_, fun i => ?_⟩, trivial, rfl, rfl, rfl, rfl⟩
    · simp only [Function.update_apply]
      split
      · exact .inr ⟨e.s, Nat.lt_succ_self _, h.now⟩
      · exact hold i
    · simp only [Function.update_apply]
      split
      · exact hold _
      · exact (h.tables.next i).mono (Nat.le_succ _)
  · simp only [if_neg hroom]
    exact ⟨⟨hs, hnow, hold, fun i => (h.tables.next i).mono (Nat.le_succ _)⟩, trivial, rfl, rfl, rfl, rfl⟩

theorem At.enters {e : Enc} (h : At src e) {len : ℕ} (hs : e.s + len ≤ src.length) :
    At src ((Venti.enter src)^[len] e) ∧ ((Venti.enter src)^[len] e).s = e.s + len ∧ SameCode e ((Venti.enter src)^[len] e) := by
  induction len with
  | zero => exact ⟨h, rfl, rfl, rfl, rfl, rfl⟩
  | succ len ih =>
    obtain ⟨hat, hslen, hsame⟩ := ih (by omega)
    rw [Function.iterate_succ_apply']
    obtain ⟨hat', hs', hsame'⟩ := hat.enter (by omega)
    exact ⟨hat', by omega, hsame'.out.trans hsame.out, hsame'.wbits.trans hsame.wbits, hsame'.wnbits.trans hsame.wnbits,
      hsame'.lithist.trans hsame.lithist⟩

theorem take_snoc {s : ℕ} (hs : s < src.length) : src.take s ++ [src.getD s 0] = src.take (s + 1) := by
  rw [List.take_add_one, List.getD_eq_getElem?_getD, List.getElem?_eq_getElem hs]
  rfl

/-- After the code of a part of the block its positions are put into the tables. -/
theorem Coded.enters {e : Enc} (len : ℕ) (h : At src e) (hc : Coded src (e.s + len) e) (hs : e.s + len ≤ src.length)
    (hbits : e.wnbits ≤ 32) : At src ((enter src)^[len] e) ∧ Coded src ((enter src)^[len] e).s ((enter src)^[len] e) ∧
      ((enter src)^[len] e).wnbits ≤ 32 ∧ ((enter src)^[len] e).s = e.s + len := by
  obtain ⟨hat, hs', hsame⟩ := h.enters hs
  refine ⟨hat, ?_, by rw [hsame.wnbits]; exact hbits, hs'⟩
  rw [hs']
  exact hc.congr hsame

theorem literal_spec {e e' : Enc} (h : At src e) (hc : Coded src e.s e) (hs : e.s < src.length) (hbits : e.wnbits < 8)
    (he : literal src e = some e') : At src e' ∧ Coded src e'.s e' ∧ e'.wnbits ≤ 32 ∧ e'.s = e.s + 1 := by
  obtain ⟨-, hmax, hlt⟩ := litcode_bound e.lithist (src.getD e.s 0)
  have hlt' := lt_of_lt_of_le hlt (Nat.pow_le_pow_right (by decide : 0 < 2) (Nat.sub_le _ 1))
  have htells := hc.tells.snoc (.lit (src.getD e.s 0)) trivial
  rw [Sym.write, take_snoc hs, Sym.code, List.append_assoc, ← bits_put e.wbits (by omega) hlt'] at htells
  rw [literal] at he
  simp only at he
  split at he
  · split at he
    · cases he
    · obtain rfl := Option.some.inj he
      exact Coded.enters 1 ⟨h.le, h.now, h.tables⟩ ⟨hc.room, htells⟩ hs (by simp only; omega)
  · obtain rfl := Option.some.inj he
    exact Coded.enters 1 ⟨h.le, h.now, h.tables⟩ ⟨hc.room, htells⟩ hs (by simp only; omega)

/-- The bits of a length have been put. Large ones have been written. -/
theorem putlen_spec {e e' : Enc} {len : ℕ} (hroom : e.out.length ≤ src.length) (hmin : MinMatch ≤ len) (hmax : len ≤ MaxLen)
    (hbits : e.wnbits < 8) (he : putlen src e len = some e') :
    e'.w = e.w ∧ e'.now = e.now ∧ e'.s = e.s ∧ e'.lithist = e.lithist ∧ e'.out.length ≤ src.length ∧ e'.wnbits ≤ 15 ∧
      bytebits e'.out ++ bits e'.wnbits e'.wbits =
        bytebits e.out ++ bits e.wnbits e.wbits ++ bits (lencode len).1 (lencode len).2 := by
  obtain ⟨hlt, hsize, hfast⟩ := lencode_bound hmin hmax
  have hput := bits_put e.wbits (n := e.wnbits) (by omega) hlt
  rw [putlen] at he
  by_cases hlen : len - MinMatch < MaxFastLen
  · have hcode : lentab.getD (len - MinMatch) (0, 0) = lencode len := by rw [lencode, if_pos hlen]
    have h8 := hfast hlen
    simp only [if_pos hlen, hcode] at he
    obtain rfl := Option.some.inj he
    refine ⟨rfl, rfl, rfl, rfl, hroom, by simp only; omega, ?_⟩
    simp only
    rw [hput, List.append_assoc]
  · have hcode : biglen (len - MinMatch - MaxFastLen) (len - MinMatch - MaxFastLen) BigLenCode BigLenBase BigLenBits =
        lencode len := by rw [lencode, if_neg hlen]
    simp only [if_neg hlen, hcode] at he
    obtain ⟨⟨out, k⟩, hr, rfl⟩ := Option.map_eq_some_iff.mp he
    obtain ⟨hk, hlen', heq⟩ := flush_spec hr hroom
    refine ⟨rfl, rfl, rfl, rfl, hlen', by simp only; omega, ?_⟩
    simp only
    rw [heq, hput, List.append_assoc]

theorem putoff_spec {e : Enc} {toff : ℕ} (hbits : e.wnbits ≤ 15) (hoff : toff < WhackMaxOff) :
    (putoff e toff).wnbits ≤ 32 ∧
      bits (putoff e toff).wnbits (putoff e toff).wbits = bits e.wnbits e.wbits ++ offbitcode toff := by
  obtain ⟨hlt, hsize, -⟩ := offcode_bound hoff
  have hlow : toff &&& ((1 <<< (offcode toff).2) - 1) = toff % 2 ^ (offcode toff).2 := by
    rw [Nat.shiftLeft_eq, Nat.one_mul, Nat.and_two_pow_sub_one_eq_mod]
  refine ⟨by simp only [putoff]; omega, ?_⟩
  simp only [putoff, hlow]
  rw [← Nat.add_assoc, bits_put _ (by omega) (Nat.mod_lt _ (Nat.two_pow_pos _)), bits_put _ (by omega) hlt, bits_mod le_rfl,
    offbitcode, List.append_assoc]

theorem repeated_spec {e e' : Enc} {off len : ℕ} (h : At src e) (hc : Coded src e.s e) (hbits : e.wnbits < 8) (hmax : len ≤ MaxLen)
    (hm : Match src e.s src.length off len) (he : repeated src e off len = some e') :
    At src e' ∧ Coded src e'.s e' ∧ e'.wnbits ≤ 32 ∧ e'.s = e.s + len := by
  rw [repeated] at he
  simp only [if_neg (Nat.not_lt.mpr hmax)] at he
  obtain ⟨e₁, h₁, rfl⟩ := Option.map_eq_some_iff.mp he
  obtain ⟨hw, hnow, hs, hhist, hroom, hbits₁, hbits'⟩ := putlen_spec hc.room hm.least hmax hbits h₁
  have hpos := hm.pos
  have hnear := hm.near
  have hin := hm.inside
  have hfits := hm.fits
  have htoff : ((off : ℤ) - 1).toNat = off - 1 := by omega
  rw [htoff]
  have htop : off - 1 < WhackMaxOff := by omega
  obtain ⟨hsize, hoff⟩ := putoff_spec hbits₁ htop
  have htake : (src.take e.s).length = e.s := by
    rw [List.length_take]
    have hle := h.le
    omega
  have htells := hc.tells.snoc (.copy len off) ⟨hm.least, hmax, hpos, hnear, by rw [htake]; exact hin⟩
  rw [Sym.write, repeats_take hpos hin hfits hm.eq, Sym.code, ← List.append_assoc, ← hbits', List.append_assoc, ← hoff] at htells
  rw [← hs] at hfits ⊢
  refine Coded.enters len ?_ ⟨hroom, ?_⟩ hfits hsize
  · refine ⟨?_, ?_, ?_⟩
    · rw [show (putoff e₁ (off - 1)).s = e.s from hs]
      exact h.le
    · rw [show (putoff e₁ (off - 1)).s = e.s from hs, show (putoff e₁ (off - 1)).now = e.now from hnow]
      exact h.now
    · rw [show (putoff e₁ (off - 1)).s = e.s from hs, show (putoff e₁ (off - 1)).w = e.w from hw]
      exact h.tables
  · rw [show (putoff e₁ (off - 1)).s = e.s from hs, show (putoff e₁ (off - 1)).lithist = e.lithist from hhist]
    exact htells

theorem whackloop_spec {fuel : ℕ} {e e' : Enc} (hlen : src.length < 2 ^ 16) (h : At src e) (hc : Coded src e.s e) (hbits : e.wnbits ≤ 32)
    (hfuel : src.length ≤ fuel + e.s) (he : whackloop src fuel e = some e') :
    Coded src src.length e' ∧ e'.wnbits ≤ 32 := by
  induction fuel generalizing e with
  | zero =>
    obtain rfl := Option.some.inj he
    have hs : e.s = src.length := Nat.le_antisymm h.le (by omega)
    rw [← hs]
    exact ⟨hc, hbits⟩
  | succ fuel ih =>
    rw [whackloop] at he
    split at he
    · rename_i hs
      obtain ⟨⟨out, k⟩, hflush, hstep⟩ := Option.bind_eq_some_iff.mp he
      obtain ⟨hk, hroom, heq⟩ := flush_spec hflush hc.room
      obtain ⟨e₁, he₁, hrest⟩ := Option.bind_eq_some_iff.mp hstep
      have hat : At src { e with out := out, wnbits := k } := ⟨h.le, h.now, h.tables⟩
      have hcoded : Coded src e.s { e with out := out, wnbits := k } := by
        refine ⟨hroom, ?_⟩
        simp only
        rw [heq]
        exact hc.tells
      split at he₁
      · obtain ⟨hat₁, hc₁, hbits₁, hs₁⟩ := literal_spec hat hcoded hs (by simp only; omega) he₁
        refine ih hat₁ hc₁ hbits₁ ?_ hrest
        rw [hs₁]
        simp only
        omega
      · rename_i hmin
        rw [Nat.not_lt] at hmin
        obtain ⟨off, hoff, hmax, hmatch⟩ := whackmatch_spec h.tables (by omega) h.now hmin
        rw [hoff] at he₁
        obtain ⟨hat₁, hc₁, hbits₁, hs₁⟩ := repeated_spec hat hcoded (by simp only; omega) hmax hmatch he₁
        have hleast := hmatch.least
        refine ih hat₁ hc₁ hbits₁ ?_ hrest
        rw [hs₁]
        simp only [MinMatch] at hleast ⊢
        omega
    · obtain rfl := Option.some.inj he
      have hs : e.s = src.length := Nat.le_antisymm h.le (by omega)
      rw [← hs]
      exact ⟨hc, hbits⟩

/-- The output is the codes of the block and less than a byte of zeroes. -/
theorem whackblock_spec {z : List UInt8} {compressblocks : Bool} (hlen : src.length < 2 ^ 16) (hz : whackblock src compressblocks = some z) :
    z.length ≤ src.length ∧
      ∃ l pad h, pad < 8 ∧ Tells [] (2 ^ 32 - 1) l src h ∧ bytebits z = l ++ List.replicate pad false := by
  rw [whackblock, whack] at hz
  split at hz
  · cases hz
  · obtain ⟨e, hloop, hz⟩ := Option.bind_eq_some_iff.mp hz
    obtain ⟨⟨out, k⟩, hflush, rfl⟩ := Option.map_eq_some_iff.mp hz
    have hzero : ∀ i : ℕ, Entry 0 ((fun _ => 0 : ℕ → ℕ) i) := fun _ => .inl rfl
    obtain ⟨hc, hbits⟩ := whackloop_spec hlen ⟨Nat.zero_le _, rfl, hzero, hzero⟩ ⟨Nat.zero_le _, .done _ _⟩ (Nat.zero_le _) le_rfl hloop
    have h7 : e.wnbits &&& 7 = e.wnbits % 8 := Nat.and_two_pow_sub_one_eq_mod _ 3
    obtain ⟨pad, hpad, hlt, hmul⟩ : ∃ pad, (if e.wnbits &&& 7 ≠ 0 then 8 - (e.wnbits &&& 7) else 0) = pad ∧ pad < 8 ∧
        (e.wnbits + pad) % 8 = 0 := by
      refine ⟨_, rfl, ?_, ?_⟩ <;> rw [h7] <;> split <;> omega
    rw [hpad] at hflush
    obtain ⟨hk, hroom, heq⟩ := flush_spec hflush hc.room
    have hpush : bits (e.wnbits + pad) (e.wbits <<< pad) = bits e.wnbits e.wbits ++ List.replicate pad false := by
      have h := bits_push e.wnbits e.wbits (Nat.two_pow_pos pad)
      rw [Nat.or_zero, bits_zero] at h
      exact h
    rw [hmul] at hk
    subst hk
    rw [bits, List.append_nil, bits_mod (by omega), hpush, ← List.append_assoc] at heq
    have htells := hc.tells
    rw [List.take_length] at htells
    exact ⟨hroom, _, pad, _, hlt, htells, heq⟩

end Loop

end Petele.Venti
