import Petele.Devmnt.Outcomes

namespace Petele.Devmnt

open Lib Qio Qio.Buffer NineP

/-- A message of which everything arrives and that is not too large has a length that is not negative; if it is an `Rread`
shorter than the header of one, then what is missing of the header has arrived behind it. -/
def Mnt.Benign (mnt : Mnt) : Prop :=
  7 ≤ mnt.stream.length → int mnt.size ≤ mnt.msize →
    0 ≤ int mnt.size ∧ (mnt.type = MsgType.Rread.code → int mnt.size < 11 → int mnt.size ≤ mnt.stream.length →
      11 ≤ mnt.gathered (int mnt.size))

/-- Each of the calls finds a benign message. -/
def Mnt.Friendly (mnt : Mnt) : List ((ℕ → Grant) × Mntrpc) → Prop
  | [] => True
  | (g, r) :: rs =>
    mnt.Benign ∧ ∀ ret r' mnt', mntrpcread g mnt r = some (ret, r', mnt') → mnt'.Friendly rs

section Hostile

variable {g : ℕ → Grant} {mnt : Mnt} {r : Mntrpc}

/-- A call behaves on a benign message, and on no other. -/
theorem mntrpcread_cases (h : mnt.Ok) :
    mnt.Benign ∧ (∃ ret r' mnt', mntrpcread g mnt r = some (ret, r', mnt') ∧ (ret = 0 ∨ ret = -1) ∧ mnt'.Ok) ∨
      ¬ mnt.Benign ∧ mntrpcread g mnt r = none := by
  have hsize := h.size
  by_cases h7 : 7 ≤ mnt.stream.length
  swap
  · obtain ⟨mnt', hread, hok⟩ := mntrpcread_short (g := g) (r := r) h (by omega)
    exact .inl ⟨fun hlong => absurd hlong h7, _, _, _, hread, .inr rfl, hok⟩
  obtain ⟨nb, q, channel, hread, hpulled⟩ := mntrpcread_header (g := g) (r := r) h h7
  rw [hread]
  by_cases hsmall : int mnt.size ≤ mnt.msize
  swap
  · obtain ⟨mnt', hlarge, hok⟩ := hpulled.message_large (g := g) (r := r.cleared) hsize (by omega)
    exact .inl ⟨fun _ hle => absurd hle hsmall, _, _, _, hlarge, .inr rfl, hok⟩
  by_cases hwhole : int mnt.size ≤ mnt.stream.length
  swap
  · obtain ⟨mnt', heof, hok⟩ := hpulled.message_eof (g := g) (r := r.cleared) hsize hsmall (by omega)
    exact .inl ⟨fun _ _ => ⟨by omega, fun _ _ hle => absurd hle hwhole⟩, _, _, _, heof, .inr rfl, hok⟩
  obtain ⟨q', channel', hunpack, hq', hsuff, hstream, hlen, hlen7, hgathered⟩ :=
    hpulled.message_whole (g := g) (r := r.cleared) hsize hsmall hwhole
  have hne : q'.bfirst ≠ [] := bfirst_ne_nil (by omega)
  have hlow : mnt.size < 2 ^ 32 := UInt32.toNat_lt _
  have hqsmall := hq'.small
  rw [hunpack]
  by_cases hneg : int mnt.size < 0
  · refine .inr ⟨fun hbenign => absurd (hbenign h7 hsmall).1 (by omega), ?_⟩
    exact unpack_negative hlow hneg hne (by omega)
  have hint := int_of_nonneg hlow (by omega)
  have hfront : flat q'.bfirst <+: mnt.stream := by
    rw [← hstream]
    exact List.prefix_append _ _
  have htype : (flat q'.bfirst).getD BIT32SZ 0 = mnt.type := prefix_getD hfront (by rw [BIT32SZ]; omega)
  by_cases hhead : header mnt.type mnt.size ≤ (flat q'.bfirst).length
  · obtain ⟨ap, ret, r', mnt', hret, hval, hdone⟩ := unpack_whole g r.cleared channel' hsize.2 hq' hint hne
      (by omega) (by omega) hhead htype
    refine .inl ⟨fun _ _ => ⟨by omega, fun hread _ _ => ?_⟩, ret, r', mnt', hret, hval, ?_⟩
    · rw [header, if_pos hread] at hhead
      omega
    · exact ⟨by rw [hdone.msize]; exact hsize, by rw [hdone.msize]; exact hdone.counted,
        by
          rw [hdone.msize, hdone.channel]
          exact fun b hb => h.channel b (hsuff.subset hb)⟩
  · have hread : mnt.type = MsgType.Rread.code := by
      by_contra hother
      rw [header, if_neg hother] at hhead
      omega
    rw [header, if_pos hread] at hhead
    refine .inr ⟨fun hbenign => ?_, by rw [hread, unpack_few hne (by omega)]⟩
    have := (hbenign h7 hsmall).2 hread (by omega) hwhole
    omega

/-- Call after call the server is answered with 0 or -1, and nothing that is not there is looked at, exactly if each of the
calls finds a benign message. -/
theorem mntrpcreads_iff (h : mnt.Ok) (rs : List ((ℕ → Grant) × Mntrpc)) :
    (∃ rets mnt', mntrpcreads mnt rs = some (rets, mnt') ∧ mnt'.Ok ∧ ∀ ret ∈ rets, ret.1 = 0 ∨ ret.1 = -1) ↔
      mnt.Friendly rs := by
  induction rs generalizing mnt with
  | nil => exact ⟨fun _ => trivial, fun _ => ⟨[], mnt, rfl, h, fun _ hret => absurd hret List.not_mem_nil⟩⟩
  | cons x rs ih =>
    obtain ⟨g, r⟩ := x
    rw [Mnt.Friendly, mntrpcreads]
    obtain ⟨hbenign, ret, r', mnt₁, hread, hval, hok⟩ | ⟨hhostile, hnone⟩ := mntrpcread_cases (g := g) (r := r) h
    · rw [hread]
      simp only [Option.bind_eq_bind, Option.bind_some, Option.pure_def]
      constructor
      · rintro ⟨rets, mnt', hreads, hok', hrets⟩
        obtain ⟨⟨rets₁, mnt₂⟩, hrest, hsome⟩ := Option.bind_eq_some_iff.mp hreads
        cases hsome
        refine ⟨hbenign, fun _ _ _ hsame => ?_⟩
        cases hsame
        exact (ih hok).mp ⟨rets₁, _, hrest, hok', fun ret hret => hrets ret (List.mem_cons_of_mem _ hret)⟩
      · rintro ⟨-, hrest⟩
        obtain ⟨rets, mnt', hreads, hok', hrets⟩ := (ih hok).mpr (hrest _ _ _ rfl)
        refine ⟨(ret, r') :: rets, mnt', by rw [hreads]; rfl, hok', fun x hx => ?_⟩
        obtain rfl | hx := List.mem_cons.mp hx
        · exact hval
        · exact hrets x hx
    · rw [hnone]
      constructor
      · rintro ⟨rets, mnt', hreads, -⟩
        cases hreads
      · exact fun hfriendly => absurd hfriendly.1 hhostile

/-- A request before its first reply. -/
def blank : Mntrpc where
  reply :=
    { type := 0, fid := 0, tag := 0, msize := 0, version := ⟨0, 0⟩, oldtag := 0, ename := ⟨0, 0⟩, qid := ⟨0, 0, 0⟩,
      iounit := 0, aqid := ⟨0, 0, 0⟩, afid := 0, uname := ⟨0, 0⟩, aname := ⟨0, 0⟩, perm := 0, name := ⟨0, 0⟩,
      mode := 0, newfid := 0, nwname := 0, wname := fun _ => ⟨0, 0⟩, nwqid := 0, wqid := fun _ => ⟨0, 0, 0⟩,
      offset := 0, count := 0, data := 0, nstat := 0, stat := 0 }
  b := []

def ungranting : Grant := ⟨0, fun _ => 0⟩

/-- A packet as the transport returns it. -/
def packet (bs : List UInt8) (h : bs.length ≤ 8192) : Buffer :=
  ⟨[], bs, [0], false, by rw [List.length_nil, List.length_singleton]; omega⟩

/-- A mount whose server sends one packet. -/
def sending (bs : List UInt8) (h : bs.length ≤ 8192) : Mnt := ⟨8192, ⟨[], 0, 0⟩, [[packet bs h]]⟩

theorem sending_ok (bs : List UInt8) (h : bs.length ≤ 8192) : (sending bs h).Ok where
  size := ⟨Nat.le_add_left 256 7936, Nat.le_add_left 8192 1040384⟩
  counted := ⟨rfl, Nat.zero_le _⟩
  channel b hb := by
    obtain rfl := List.mem_singleton.mp hb
    rw [flat_cons, flat_nil, List.append_nil]
    exact h

/-- An `Rclunk` is answered. -/
theorem mntrpcreads_rclunk :
    ∃ rets mnt',
      mntrpcreads (sending [7, 0, 0, 0, 121, 1, 0] (by decide)) [(fun _ => ungranting, blank)] = some (rets, mnt') ∧
        mnt'.Ok ∧ ∀ ret ∈ rets, ret.1 = 0 ∨ ret.1 = -1 :=
  (mntrpcreads_iff (sending_ok _ _) _).mpr
    ⟨fun _ _ => ⟨by decide, fun hread => absurd hread (by decide)⟩, fun _ _ _ _ => trivial⟩

/-- An `Rread` of seven bytes makes `pullupqueue` return nil, which is followed. -/
theorem rread_hostile :
    ¬ ∀ (mnt : Mnt) (rs : List ((ℕ → Grant) × Mntrpc)), mnt.Ok →
      ∃ rets mnt', mntrpcreads mnt rs = some (rets, mnt') ∧ mnt'.Ok ∧ ∀ ret ∈ rets, ret.1 = 0 ∨ ret.1 = -1 := by
  intro hclaim
  have hok := sending_ok [7, 0, 0, 0, 117, 1, 0] (by decide)
  obtain ⟨hbenign, -⟩ | ⟨-, hnone⟩ := mntrpcread_cases (g := fun _ => ungranting) (r := blank) hok
  · have hgathered := (hbenign (by decide) (by decide)).2 rfl (by decide) (by decide)
    exact absurd hgathered (by decide)
  · obtain ⟨rets, mnt', hreads, -⟩ := hclaim _ [(fun _ => ungranting, blank)] hok
    rw [mntrpcreads, hnone] at hreads
    cases hreads

end Hostile

end Petele.Devmnt
