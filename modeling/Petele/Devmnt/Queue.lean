import Petele.Devmnt.Rpcread

namespace Petele.Devmnt

open Lib Qio Qio.Buffer NineP

/-- The bytes that the channel is to return before the first empty chain. -/
def arriving : List (List Buffer) → List UInt8
  | [] => []
  | b :: channel => if flat b = [] then [] else flat b ++ arriving channel

/-- The bytes that the server is still to be heard of. -/
def Mnt.stream (mnt : Mnt) : List UInt8 := flat mnt.q.bfirst ++ arriving mnt.channel

/-- The bytes in the queue when `len` of them are asked for, where it holds `n` and the chains have so many. -/
def arrived (len : ℤ) (n : ℕ) : List ℕ → ℕ
  | [] => n
  | k :: ks => if n < len then arrived len (n + k) ks else n

/-- The counter of the queue is right, and small. -/
structure Counted (size : ℕ) (q : Listq) : Prop where
  dlen : q.dlen = (flat q.bfirst).length
  small : (flat q.bfirst).length ≤ 2 * size

/-- A `Mnt` with the size that `mntversion` settles on, where the channel never returns more than it is asked for. -/
structure Mnt.Ok (mnt : Mnt) : Prop where
  size : 256 ≤ mnt.msize ∧ mnt.msize ≤ 1024 * 1024
  counted : Counted mnt.msize mnt.q
  channel : ∀ b ∈ mnt.channel, (flat b).length ≤ mnt.msize

section Queue

variable {size : ℕ} {q : Listq} {l : List Buffer} {b : Buffer} {g : Grant}

theorem flat_append (l l' : List Buffer) : flat (l ++ l') = flat l ++ flat l' := List.flatMap_append

theorem blocklen_small (h : (flat l).length < 2 ^ 31) : blocklen l = (flat l).length := by
  rw [Buffer.blocklen_eq, wrap_of_range (by omega) (by omega)]

theorem qaddlist_counted (hsize : size ≤ 1024 * 1024) (h : Counted size q) (hroom : (flat q.bfirst).length < size)
    (hl : (flat l).length ≤ size) : Counted size (qaddlist q l) := by
  have hflat : flat (qaddlist q l).bfirst = flat q.bfirst ++ flat l := flat_append _ _
  have hdlen : (qaddlist q l).dlen = wrap (q.dlen + blocklen l) := rfl
  refine ⟨?_, by rw [hflat, List.length_append]; omega⟩
  rw [hflat, List.length_append, hdlen, h.dlen, blocklen_small (by omega), wrap_of_range (by omega) (by omega),
    Int.natCast_add]

theorem arrived_enough {len : ℤ} {n : ℕ} (h : len ≤ n) (ks : List ℕ) : arrived len n ks = n := by
  cases ks with
  | nil => rfl
  | cons k ks => rw [arrived, if_neg (not_lt.mpr h)]

theorem arrived_ge (len : ℤ) (n : ℕ) (ks : List ℕ) : n ≤ arrived len n ks := by
  induction ks generalizing n with
  | nil => exact le_rfl
  | cons k ks ih =>
    rw [arrived]
    split
    · exact (Nat.le_add_right n k).trans (ih (n + k))
    · exact le_rfl

/-- `doread` adds what arrives to the queue, until there is enough or the channel ends. -/
theorem doread_spec {len : ℤ} {channel : List (List Buffer)} (hsize : size ≤ 1024 * 1024) (hlen : len ≤ size)
    (hq : Counted size q) (hchannel : ∀ b ∈ channel, (flat b).length ≤ size) :
    ∃ ok q' channel', doread len channel q = (ok, q', channel') ∧ Counted size q' ∧ channel' <:+ channel ∧
      (ok = true → len ≤ (flat q'.bfirst).length ∧ flat q'.bfirst ++ arriving channel' = flat q.bfirst ++ arriving channel ∧
        ∀ len', arrived (max len len') (flat q.bfirst).length (channel.map fun b => (flat b).length) =
          arrived len' (flat q'.bfirst).length (channel'.map fun b => (flat b).length)) ∧
      (ok = false → ((flat q.bfirst ++ arriving channel).length : ℤ) < len) := by
  induction channel generalizing q with
  | nil =>
    refine ⟨_, _, _, rfl, hq, List.suffix_rfl, fun h => ?_, fun h => ?_⟩
    · rw [decide_eq_true_iff, qlen, hq.dlen] at h
      exact ⟨h, rfl, fun _ => rfl⟩
    · rw [decide_eq_false_iff_not, qlen, hq.dlen] at h
      rw [arriving, List.append_nil]
      omega
  | cons b channel ih =>
    have hb := hchannel b List.mem_cons_self
    have hblock : blocklen b = (flat b).length := blocklen_small (by omega)
    rw [doread, qlen, hq.dlen, hblock, List.map_cons]
    split
    · next hshort =>
      split
      · next hnil =>
        have hflat : flat b = [] := List.eq_nil_of_length_eq_zero (by omega)
        refine ⟨_, _, _, rfl, hq, List.suffix_cons _ _, fun h => (by cases h), fun _ => ?_⟩
        rw [arriving, if_pos hflat, List.append_nil]
        exact hshort
      · next hnil =>
        have hflat : flat b ≠ [] := fun h => hnil (by rw [h]; rfl)
        have hroom : (flat q.bfirst).length < size := by omega
        obtain ⟨ok, q', channel', hread, hq', hsuff, htrue, hfalse⟩ :=
          ih (qaddlist_counted hsize hq hroom hb) fun b hb => hchannel b (List.mem_cons_of_mem _ hb)
        have hadd : flat (qaddlist q b).bfirst = flat q.bfirst ++ flat b := flat_append _ _
        rw [hadd, List.append_assoc] at htrue hfalse
        refine ⟨ok, q', channel', hread, hq', hsuff.trans (List.suffix_cons _ _), fun h => ?_, fun h => ?_⟩
        · obtain ⟨h1, h2, h3⟩ := htrue h
          refine ⟨h1, by rw [h2, arriving, if_neg hflat], fun len' => ?_⟩
          rw [arrived, if_pos (hshort.trans_le (le_max_left _ _)), ← h3, List.length_append]
        · rw [arriving, if_neg hflat]
          exact hfalse h
    · next henough =>
      refine ⟨_, _, _, rfl, hq, List.suffix_rfl, fun _ => ⟨by omega, rfl, fun len' => ?_⟩, fun h => by cases h⟩
      by_cases hmore : ((flat q.bfirst).length : ℤ) < len'
      · rw [max_eq_right (by omega), List.map_cons]
      · rw [arrived_enough (by omega), arrived_enough (by omega)]

theorem allocs_small {n : ℕ} (h : n ≤ 2 * (1024 * 1024)) : Buffer.allocs n := by
  simp only [Buffer.allocs, ROUNDUP, BLOCKALIGN, Hdrspc, sizeofBlock]
  omega

/-- Enough bytes are pulled up into one block. -/
theorem pullupqueue_enough {n : ℕ} (hsmall : n ≤ 1024 * 1024) (hne : q.bfirst ≠ []) (hn : n ≤ (flat q.bfirst).length) :
    ∃ b l, pullupqueue g q n = some { q with bfirst := b :: l } ∧ flat (b :: l) = flat q.bfirst ∧ n ≤ b.BLEN := by
  obtain ⟨b, l, hq⟩ := List.exists_cons_of_ne_nil hne
  rw [pullupqueue, hq]
  simp only [List.head?_cons, Option.bind_eq_bind, Option.bind_some]
  split
  · next h => exact ⟨b, l, by rw [← hq]; rfl, rfl, by omega⟩
  · obtain ⟨b', l', hpull, hflat, hlong⟩ := (pullupblock_flat g b l n (allocs_small (by omega))).1 (hq ▸ hn)
    rw [hpull]
    exact ⟨b', l', rfl, hflat, hlong⟩

/-- Too few bytes are lost. -/
theorem pullupqueue_few {n : ℕ} (hsmall : n ≤ 1024 * 1024) (hne : q.bfirst ≠ []) (hn : (flat q.bfirst).length < n) :
    pullupqueue g q n = some { q with bfirst := [] } := by
  obtain ⟨b, l, hq⟩ := List.exists_cons_of_ne_nil hne
  have hb : b.data.length = b.BLEN := rfl
  rw [hq] at hn
  rw [pullupqueue, hq]
  simp only [List.head?_cons, Option.bind_eq_bind, Option.bind_some]
  rw [if_neg, (pullupblock_flat g b l n (allocs_small (by omega))).2 hn]
  · rfl
  · rw [flat_cons, List.length_append] at hn
    omega

theorem qremove_counted {l : List Buffer} (hsize : size ≤ 1024 * 1024) (h : Counted size q) (hq : q.bfirst = b :: l) :
    ∃ q', qremove q = some (b, q') ∧ q'.bfirst = l ∧ Counted size q' := by
  have hb : b.data.length = b.BLEN := rfl
  have hsmall := h.small
  have hflat : flat q.bfirst = b.data ++ flat l := by rw [hq, flat_cons]
  rw [hflat, List.length_append] at hsmall
  rw [qremove, hq]
  refine ⟨_, rfl, rfl, ?_, by dsimp only; omega⟩
  dsimp only
  rw [h.dlen, hflat, List.length_append, wrap_of_range (by omega) (by omega)]
  omega

theorem qputback_counted (hsize : size ≤ 1024 * 1024) (h : Counted size q) (hroom : (flat (b :: q.bfirst)).length ≤ 2 * size) :
    Counted size (qputback q b) := by
  have hb : b.data.length = b.BLEN := rfl
  refine ⟨?_, hroom⟩
  rw [flat_cons, List.length_append] at hroom
  have hflat : flat (qputback q b).bfirst = b.data ++ flat q.bfirst := by rw [qputback, flat_cons]
  have hdlen : (qputback q b).dlen = wrap (q.dlen + b.BLEN) := rfl
  rw [hflat, List.length_append, hdlen, h.dlen, wrap_of_range (by omega) (by omega)]
  omega

/-- The bytes of a message are taken off the queue, less those of its header. -/
theorem hang_spec {hlen len : ℕ} {x rest : List UInt8} (hsize : size ≤ 1024 * 1024) (hq : Counted size q)
    (hx : flat q.bfirst = x ++ rest) (hlen' : x.length = len) (hpos : 0 < len) (hle : hlen ≤ len)
    (hhead : ∀ b ∈ q.bfirst.head?, hlen ≤ b.BLEN) :
    ∃ bs q', hang g hlen len q.bfirst q = some (bs, q') ∧ flat bs = x.drop hlen ∧ flat q'.bfirst = rest ∧
      Counted size q' := by
  obtain ⟨l, hl⟩ : ∃ l, q.bfirst = l := ⟨_, rfl⟩
  induction l generalizing q hlen len x with
  | nil =>
    rw [hl, flat_nil] at hx
    rw [(List.append_eq_nil_iff.mp hx.symm).1] at hlen'
    exact absurd hlen' hpos.ne
  | cons b l ih =>
    have hb : b.data.length = b.BLEN := rfl
    obtain ⟨q1, hrem, hq1, hcounted⟩ := qremove_counted hsize hq hl
    have hfit : hlen ≤ b.BLEN := hhead b (by rw [hl]; rfl)
    have hadv : ∃ b1, skip b hlen = some b1 ∧ b1.data = b.data.drop hlen := by
      rw [skip]
      by_cases h0 : (0 : ℤ) < hlen
      · rw [if_pos h0]
        obtain ⟨b1, hb1, hdata, -⟩ := advance_eq (b := b) (k := (hlen : ℤ).toNat) hfit
        exact ⟨b1, hb1, hdata⟩
      · rw [if_neg h0, show hlen = 0 by omega]
        exact ⟨b, rfl, rfl⟩
    obtain ⟨b1, hb1, hdata⟩ := hadv
    have hrest : (if (0 : ℤ) < hlen then (len : ℤ) - hlen else len) = (len - hlen : ℕ) := by
      split <;> omega
    have hlong : b1.BLEN = b.BLEN - hlen := by rw [Buffer.BLEN, hdata, List.length_drop]; rfl
    have hsplit : b.data ++ flat l = x ++ rest := by rw [← hx, hl, flat_cons]
    rw [hl, hang, hrem]
    simp only [Option.bind_eq_bind, Option.bind_some, hb1, hrest, hlong]
    by_cases hin : b.BLEN ≤ len
    · rw [if_pos (by omega)]
      obtain ⟨x', hx', hflat⟩ : ∃ x', x = b.data ++ x' ∧ flat l = x' ++ rest := by
        refine ⟨x.drop b.BLEN, ?_, ?_⟩
        · have := congrArg (List.take b.BLEN) hsplit
          rw [List.take_left' hb, List.take_append_of_le_length (by omega)] at this
          rw [this, List.take_append_drop]
        · have := congrArg (List.drop b.BLEN) hsplit
          rwa [List.drop_left' hb, List.drop_append_of_le_length (by omega)] at this
      have hdrop : x.drop hlen = b.data.drop hlen ++ x' := by rw [hx', List.drop_append_of_le_length (by omega)]
      have hx'len : x'.length = len - b.BLEN := by
        rw [hx', List.length_append] at hlen'
        omega
      split
      · next hmore =>
        obtain ⟨bs, q', hang', hbs, hq', hc⟩ := ih hcounted (hq1 ▸ hflat) hx'len (by omega)
          (Nat.zero_le (len - b.BLEN)) (fun _ _ => Nat.zero_le _) hq1
        have hleft : ((len - hlen : ℕ) : ℤ) - (b.BLEN - hlen : ℕ) = (len - b.BLEN : ℕ) := by omega
        rw [hq1] at hang'
        rw [hleft]
        simp only [Nat.cast_zero] at hang'
        rw [hang']
        exact ⟨b1 :: bs, q', rfl, by rw [flat_cons, hdata, hbs, hdrop, List.drop_zero], hq', hc⟩
      · next hdone =>
        have hnil : x' = [] := List.eq_nil_of_length_eq_zero (by omega)
        refine ⟨[b1], q1, rfl, ?_, by rw [hq1, hflat, hnil, List.nil_append], hcounted⟩
        rw [flat_cons, flat_nil, hdata, hdrop, hnil]
    · rw [if_neg (by omega)]
      have hsmall := hq.small
      rw [hl, flat_cons, List.length_append] at hsmall
      have hwrap : wrap (((b.BLEN - hlen : ℕ) : ℤ) - (len - hlen : ℕ)) = (b.BLEN - len : ℕ) := by
        rw [wrap_of_range (by omega) (by omega)]
        omega
      obtain ⟨nb, hnb, hempty, hback, -⟩ := allocb_eq false g (allocs_small (n := b.BLEN - len) (by omega))
      have hdroplen : (b1.data.drop (len - hlen)).length = b.BLEN - len := by
        rw [List.length_drop, hdata, List.length_drop]
        omega
      obtain ⟨nb', hnb', hdata', -⟩ := append_eq (b := nb) (p := b1.data.drop (len - hlen)) (by rw [hdroplen]; omega)
      obtain ⟨b', hb', hcut⟩ := cut_eq (b := b1) (k := len - hlen) (by omega)
      rw [hempty, List.nil_append] at hdata'
      rw [hwrap, allocb, hnb]
      simp only [Option.bind_some]
      rw [if_pos (by omega), Int.toNat_natCast, hnb', Option.bind_some, hb', Option.bind_some]
      -- The message ends in this block.
      have hxlen : x = b.data.take len := by
        have := congrArg (List.take len) hsplit
        rw [List.take_left' hlen', List.take_append_of_le_length (by omega)] at this
        exact this.symm
      have hrestlen : rest = b.data.drop len ++ flat l := by
        have := congrArg (List.drop len) hsplit
        rw [List.drop_left' hlen', List.drop_append_of_le_length (by omega)] at this
        exact this.symm
      have hnb'data : nb'.data = b.data.drop len := by
        rw [hdata', hdata, List.drop_drop]
        congr 1
        omega
      refine ⟨[b'], qputback q1 nb', rfl, ?_, ?_, qputback_counted hsize hcounted ?_⟩
      · rw [flat_cons, flat_nil, List.append_nil, hcut, hdata, hxlen, List.drop_take]
      · rw [qputback, flat_cons, hq1, hnb'data, hrestlen]
      · rw [flat_cons, hq1, List.length_append, hnb'data, List.length_drop]
        omega

theorem discardloop_spec {len dlen : ℤ} {rest : ℕ} (hsize : size ≤ 1024 * 1024) (hd : dlen = (flat l).length)
    (hsmall : (flat l).length ≤ 2 * size) :
    ∃ q', discardloop l len dlen rest = some q' ∧ flat q'.bfirst = (flat l).drop rest ∧ Counted size q' := by
  induction l generalizing len dlen rest with
  | nil => exact ⟨_, rfl, by rw [flat_nil, List.drop_nil], hd, hsmall⟩
  | cons b l ih =>
    have hb : b.data.length = b.BLEN := rfl
    rw [flat_cons, List.length_append] at hd hsmall
    rw [discardloop, flat_cons]
    split
    · next hmore =>
      split
      · next hall =>
        have hdlen : wrap (dlen - b.BLEN) = (flat l).length := by
          rw [wrap_of_range (by omega) (by omega)]
          omega
        have hrest : (rest : ℤ) - b.BLEN = (rest - b.BLEN : ℕ) := by omega
        obtain ⟨q', hq', hflat, hc⟩ := @ih (wrap (len - b.BALLOC)) _ (rest - b.BLEN) hdlen (by omega)
        have hdrop : (b.data ++ flat l).drop rest = (flat l).drop (rest - b.BLEN) := by
          rw [List.drop_append, List.drop_of_length_le (show b.data.length ≤ rest by omega), List.nil_append, hb]
        rw [hrest, hq', hdrop]
        exact ⟨q', rfl, hflat, hc⟩
      · next hpart =>
        obtain ⟨b', hb', hdata, -⟩ := advance_eq (b := b) (k := (rest : ℤ).toNat) (by omega)
        have hflat : flat (b' :: l) = (b.data ++ flat l).drop rest := by
          rw [flat_cons, hdata, List.drop_append_of_le_length (by omega), Int.toNat_natCast]
        rw [hb']
        refine ⟨_, rfl, hflat, ?_, ?_⟩
        · dsimp only
          rw [hflat, List.length_drop, List.length_append, wrap_of_range (by omega) (by omega)]
          omega
        · dsimp only
          rw [hflat, List.length_drop, List.length_append]
          omega
    · next hnone =>
      have hzero : rest = 0 := by omega
      refine ⟨_, rfl, by rw [hzero, flat_cons, List.drop_zero], ?_, ?_⟩
      · rw [hd, flat_cons, List.length_append]
      · rw [flat_cons, List.length_append]
        exact hsmall

/-- The first bytes of the queue are dropped. -/
theorem qdiscard_spec (len : ℕ) (hsize : size ≤ 1024 * 1024) (hq : Counted size q) :
    ∃ q', qdiscard q len = some q' ∧ flat q'.bfirst = (flat q.bfirst).drop len ∧ Counted size q' :=
  discardloop_spec hsize hq.dlen hq.small

end Queue

end Petele.Devmnt
