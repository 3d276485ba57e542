import Mathlib.Data.Fintype.Basic
import Petele.Lib.Buckets
import Petele.Tcp.Seq

namespace Petele.Tcp

open Lib

def Maxlimbo : ℤ := 1000

def NLHT : ℕ := 256

def LHTMASK : ℕ := NLHT - 1

def SYNACKRXTIMER : ℕ := 250

def Defadvscale : ℕ := 4

abbrev Ipaddr := Fin 16 → UInt8

structure Limbo where
  laddr : Ipaddr
  raddr : Ipaddr
  lport : ℕ
  rport : ℕ
  irs : ℕ
  iss : ℕ
  mss : ℕ
  rcvscale : ℕ
  sndscale : ℕ
  lastsend : ℕ
  version : ℕ
  rexmits : ℕ
  /-- Not in memory: the retransmits since a SYN was last recorded. -/
  resent : ℕ

/-- Limbo, by address, and the hash table through its links. -/
structure Tcppriv where
  nlimbo : ℤ
  lht : Buckets ℕ ℕ
  mem : ℕ → Option Limbo

structure Segment where
  source : ℕ
  dest : ℕ
  seq : ℕ
  ack : ℕ
  ws : ℕ
  mss : ℕ
  SYN : Bool
  ACK : Bool

/-- What tells calls apart. -/
structure Call where
  laddr : Ipaddr
  raddr : Ipaddr
  lport : ℕ
  rport : ℕ
  version : ℕ
deriving DecidableEq

def Limbo.call (lp : Limbo) : Call := ⟨lp.laddr, lp.raddr, lp.lport, lp.rport, lp.version⟩

def hashipa (a : Ipaddr) (p : ℕ) : ℕ := ((a 14).toNat + (a 15).toNat + p) &&& LHTMASK

def Call.hash (c : Call) : ℕ := hashipa c.raddr c.rport

/-- The call of a segment that comes from `source`. -/
def Segment.call (seg : Segment) (source dest : Ipaddr) (version : ℕ) : Call :=
  ⟨dest, source, seg.dest, seg.source, version⟩

/-- What `malloc` returns. -/
def Limbo.zero : Limbo := ⟨0, 0, 0, 0, 0, 0, 0, 0, 0, 0, 0, 0, 0⟩

/-- It was sent at a time, or not at all. -/
def sndsynack (sent : Option ℕ) (lp : Limbo) : Limbo :=
  { lp with
    sndscale := if lp.rcvscale ≠ 0 then Defadvscale else 0
    lastsend := sent.getD lp.lastsend }

namespace Tcppriv

variable (t : Tcppriv)

def write (p : ℕ) (lp : Limbo) : Tcppriv := { t with mem := Function.update t.mem p (some lp) }

/-- The entry that `l` points to is unlinked and freed. -/
def discard (l : Cell ℕ ℕ) (p : ℕ) : Tcppriv where
  nlimbo := t.nlimbo - 1
  lht := t.lht.put (t.lht.next p) l
  mem := Function.update t.mem p none

def sought (c : Call) (p : ℕ) : Option Bool := (t.mem p).map fun lp => lp.call = c

/-- The loop over a bucket. The list is no longer than it is counted. -/
def lookup (c : Call) : Option (Cell ℕ ℕ) := t.lht.find (t.sought c) (t.nlimbo.toNat + 1) (.head c.hash)

end Tcppriv

/-- The end of `limbo`. -/
def answer (sent : Option ℕ) (l : Cell ℕ ℕ) (p : ℕ) (t : Tcppriv) : Option Tcppriv := do
  let lp ← t.mem p
  let t := t.write p (sndsynack sent lp)
  return if sent = none then t.discard l p else t

/-- A new entry is filled in and put at the end of its bucket. -/
def record (source dest : Ipaddr) (seg : Segment) (version iss : ℕ) (l : Cell ℕ ℕ) (p : ℕ) (t : Tcppriv) :
    Option Tcppriv := do
  let lp ← t.mem p
  let t := { t with lht := { t.lht with next := Function.update t.lht.next p none } }
  let t := t.write p { lp with
    version := version
    laddr := dest
    raddr := source
    lport := seg.dest
    rport := seg.source
    mss := seg.mss
    rcvscale := seg.ws
    irs := seg.seq
    iss := iss
    resent := 0 }
  return { t with lht := t.lht.put (some p) l }

/-- A SYN. The memory at `addr` is free, and can be allocated. -/
def limbo (source dest : Ipaddr) (seg : Segment) (version iss : ℕ) (addr sent : Option ℕ) (t : Tcppriv) :
    Option Tcppriv := do
  let c := seg.call source dest version
  let h := hashipa source seg.source
  let l ← t.lookup c
  match t.lht.get l with
  | some p =>
    let lp ← t.mem p
    answer sent l p (t.write p { lp with irs := seg.seq, resent := 0 })
  | none =>
    match if t.nlimbo ≥ Maxlimbo then t.lht.head h else none with
    | some p =>
      let q := t.lht.next p
      let t := { t with lht := t.lht.put q (.head h) }
      let l := if q = none then .head h else l
      let t ← record source dest seg version iss l p t
      answer sent l p t
    | none =>
      match addr with
      | none => some t
      | some p =>
        let t := { t with nlimbo := t.nlimbo + 1, mem := Function.update t.mem p (some Limbo.zero) }
        let t ← record source dest seg version iss l p t
        answer sent l p t

/-- The loop over a bucket of `limborexmit`, from the cell `l` on. -/
def rexmitloop (now : ℕ) (sent : ℕ → Option ℕ) : ℕ → Cell ℕ ℕ → Tcppriv → Option Tcppriv
  | 0, _, _ => none
  | fuel + 1, l, t =>
    match t.lht.get l with
    | none => some t
    | some p => do
      let lp ← t.mem p
      if ulong (now - lp.lastsend) ≥ (lp.rexmits + 1) * SYNACKRXTIMER then
        let lp := { lp with rexmits := (lp.rexmits + 1) % 2 ^ 8 }
        if lp.rexmits > 5 then rexmitloop now sent fuel l ((t.write p lp).discard l p)
        else if sent p = none then rexmitloop now sent fuel l ((t.write p (sndsynack none lp)).discard l p)
        else
          let lp := sndsynack (sent p) lp
          rexmitloop now sent fuel (.next p) (t.write p { lp with resent := lp.resent + 1 })
      else rexmitloop now sent fuel (.next p) t

def limborexmit (now : ℕ) (sent : ℕ → Option ℕ) (t : Tcppriv) : Option Tcppriv :=
  (List.range NLHT).foldlM (fun t h => rexmitloop now sent (t.nlimbo.toNat + 1) (.head h) t) t

def limborst (segp : Segment) (src dst : Ipaddr) (version : ℕ) (t : Tcppriv) : Option Tcppriv := do
  let l ← t.lookup (segp.call src dst version)
  match t.lht.get l with
  | some p =>
    let lp ← t.mem p
    return if segp.seq = ulong (lp.irs + 1) then t.discard l p else t
  | none => some t

/-- What `tcpincoming` does to limbo, whether there is room for a new conversation or not. -/
def tcpincoming (segp : Segment) (src dst : Ipaddr) (version : ℕ) (t : Tcppriv) : Option Tcppriv :=
  if segp.SYN ∨ ¬ segp.ACK then some t
  else do
    let l ← t.lookup (segp.call src dst version)
    match t.lht.get l with
    | some p =>
      let lp ← t.mem p
      return if segp.seq ≠ ulong (lp.irs + 1) ∨ segp.ack ≠ ulong (lp.iss + 1) then t else t.discard l p
    | none => some t

/-- The buckets `B` hold all entries, each under its call, and they are counted. -/
structure Kept (t : Tcppriv) (B : ℕ → List ℕ) : Prop where
  chained : Chained t.lht B
  count : t.nlimbo = total (Finset.range NLHT) B
  home : ∀ h p, p ∈ B h → ∃ lp, t.mem p = some lp ∧ lp.call.hash = h
  held : ∀ p lp, t.mem p = some lp → p ∈ B lp.call.hash
  unique : ∀ p q lp lq, t.mem p = some lp → t.mem q = some lq → lp.call = lq.call → p = q

section Tables

variable {t t' : Tcppriv} {B : ℕ → List ℕ} {h p : ℕ} {pre post : List ℕ} {lp lp' : Limbo} {c : Call}

theorem write_same : (t.write p lp).mem p = some lp := Function.update_self _ _ _

theorem write_other {q : ℕ} (hq : q ≠ p) : (t.write p lp).mem q = t.mem q := Function.update_of_ne hq _ _

theorem discard_same {l : Cell ℕ ℕ} : (t.discard l p).mem p = none := Function.update_self _ _ _

theorem discard_other {l : Cell ℕ ℕ} {q : ℕ} (hq : q ≠ p) : (t.discard l p).mem q = t.mem q :=
  Function.update_of_ne hq _ _

theorem hash_lt (c : Call) : c.hash < NLHT :=
  Nat.lt_of_le_of_lt (Nat.and_le_right) (by decide)

theorem hash_mem (c : Call) : c.hash ∈ Finset.range NLHT := Finset.mem_range.mpr (hash_lt c)

theorem Kept.length_lt (hk : Kept t B) (hh : h ∈ Finset.range NLHT) : (B h).length < t.nlimbo.toNat + 1 := by
  have hle := @length_le_total ℕ ℕ _ B _ h hh
  rw [hk.count]
  omega

/-- The search finds the entry of a call, or comes to the end of its bucket. -/
theorem Kept.lookup (hk : Kept t B) (c : Call) :
    ∃ pre post, B c.hash = pre ++ post ∧ t.lookup c = some (cellof c.hash pre) ∧
      t.lht.get (cellof c.hash pre) = post.head? ∧
      (∀ p, post.head? = some p → ∃ lp, t.mem p = some lp ∧ lp.call = c) ∧
      (post = [] → ∀ p lp, t.mem p = some lp → lp.call ≠ c) := by
  have hstop : ∀ p ∈ B c.hash, t.sought c p = some ((t.mem p).any fun lp => lp.call = c) := fun p hp => by
    obtain ⟨lp, hlp, -⟩ := hk.home _ p hp
    rw [Tcppriv.sought, hlp]
    rfl
  obtain ⟨pre, post, hsplit, hpre, hpost, hrun⟩ := @Chained.find_spec ℕ ℕ t.lht B c.hash [] (B c.hash) hk.chained rfl
    _ _ hstop _ (hk.length_lt (hash_mem c))
  refine ⟨pre, post, hsplit, hrun, hk.chained.get_cellof hsplit, fun p hp => ?_, fun hnil p lp hlp hc => ?_⟩
  · have hmem : p ∈ B c.hash := by
      rw [hsplit]
      exact List.mem_append_right _ (List.mem_of_mem_head? hp)
    obtain ⟨lp, hlp, -⟩ := hk.home _ p hmem
    refine ⟨lp, hlp, ?_⟩
    have htest := hpost p hp
    rw [hlp] at htest
    simpa using htest
  · have hmem : p ∈ pre := by
      have hheld := hk.held p lp hlp
      rwa [hc, hsplit, hnil, List.append_nil] at hheld
    have htest := hpre p hmem
    rw [hlp] at htest
    simp [hc] at htest

/-- An entry changes, but not its call. -/
theorem Kept.write (hk : Kept t B) (hlp : t.mem p = some lp) (hcall : lp'.call = lp.call) :
    Kept (t.write p lp') B := by
  have hmem : ∀ q lq, (t.write p lp').mem q = some lq → ∃ lq', t.mem q = some lq' ∧ lq'.call = lq.call := by
    intro q lq hq
    by_cases hqp : q = p
    · rw [hqp, write_same] at hq
      refine ⟨lp, hqp ▸ hlp, ?_⟩
      rw [← Option.some.inj hq, hcall]
    · rw [write_other hqp] at hq
      exact ⟨lq, hq, rfl⟩
  refine ⟨hk.chained, hk.count, fun h q hq => ?_, fun q lq hlq => ?_, fun q r lq lr hlq hlr heq => ?_⟩
  · obtain ⟨lq, hlq, hhash⟩ := hk.home h q hq
    by_cases hqp : q = p
    · refine ⟨lp', by rw [hqp, write_same], ?_⟩
      rw [hqp, hlp] at hlq
      rw [hcall, Option.some.inj hlq, hhash]
    · exact ⟨lq, by rw [write_other hqp, hlq], hhash⟩
  · obtain ⟨lq', hlq', hcall'⟩ := hmem q lq hlq
    rw [← hcall']
    exact hk.held q lq' hlq'
  · obtain ⟨lq', hlq', hq'⟩ := hmem q lq hlq
    obtain ⟨lr', hlr', hr'⟩ := hmem r lr hlr
    exact hk.unique q r lq' lr' hlq' hlr' (by rw [hq', hr', heq])

/-- The entry at a cell is unlinked, freed and no longer counted. -/
theorem Kept.discard (hk : Kept t B) (hh : h ∈ Finset.range NLHT) (hl : B h = pre ++ p :: post) :
    Kept (t.discard (cellof h pre) p) (Function.update B h (pre ++ post)) := by
  have hmem : ∀ q lq, (t.discard (cellof h pre) p).mem q = some lq → q ≠ p ∧ t.mem q = some lq := by
    intro q lq hq
    by_cases hqp : q = p
    · rw [hqp, discard_same] at hq
      cases hq
    · rw [discard_other hqp] at hq
      exact ⟨hqp, hq⟩
  have hlinks := hk.chained.links h
  have hnodup := hlinks.nodup
  rw [hl] at hnodup
  have hout : p ∉ pre ++ post := (List.nodup_middle.mp hnodup).notMem
  have hsub : ∀ q ∈ pre ++ post, q ∈ B h := fun q hq => by
    rw [hl]
    simp only [List.mem_append, List.mem_cons] at hq ⊢
    tauto
  refine ⟨hk.chained.unlink hl, ?_, fun k q hq => ?_, fun q lq hlq => ?_, fun q r lq lr hlq hlr heq => ?_⟩
  · have hsum := total_update (l := B) hh (pre ++ post)
    rw [hl] at hsum
    simp only [List.length_append, List.length_cons] at hsum
    rw [Tcppriv.discard, hk.count]
    dsimp only
    omega
  · have hqp : q ≠ p ∧ q ∈ B k := by
      by_cases hkh : k = h
      · rw [hkh, Function.update_self] at hq
        rw [hkh]
        exact ⟨fun heq => hout (heq ▸ hq), hsub q hq⟩
      · rw [Function.update_of_ne hkh] at hq
        refine ⟨fun heq => ?_, hq⟩
        rw [heq] at hq
        exact hkh (hk.chained.disjoint k h p hq (by rw [hl]; simp))
    obtain ⟨lq, hlq, hhash⟩ := hk.home k q hqp.2
    exact ⟨lq, by rw [discard_other hqp.1, hlq], hhash⟩
  · obtain ⟨hqp, hlq'⟩ := hmem q lq hlq
    have hheld := hk.held q lq hlq'
    by_cases hkh : lq.call.hash = h
    · rw [hkh, hl] at hheld
      rw [hkh, Function.update_self]
      simp only [List.mem_append, List.mem_cons] at hheld ⊢
      tauto
    · rwa [Function.update_of_ne hkh]
  · exact hk.unique q r lq lr (hmem q lq hlq).2 (hmem r lr hlr).2 heq

/-- The entry at `p` is in no bucket yet, but counted. -/
structure Loose (t : Tcppriv) (B : ℕ → List ℕ) (p : ℕ) : Prop where
  chained : Chained t.lht B
  count : t.nlimbo = total (Finset.range NLHT) B + 1
  home : ∀ h q, q ∈ B h → q ≠ p ∧ ∃ lq, t.mem q = some lq ∧ lq.call.hash = h
  held : ∀ q lq, q ≠ p → t.mem q = some lq → q ∈ B lq.call.hash
  unique : ∀ q r lq lr, q ≠ p → r ≠ p → t.mem q = some lq → t.mem r = some lr → lq.call = lr.call → q = r

/-- It is recorded at the end of the bucket of its call, if that call has no entry. -/
theorem Loose.record (hloose : Loose t B p) (hlp : t.mem p = some lp) {source dest : Ipaddr} {seg : Segment}
    {version iss : ℕ} (hc : seg.call source dest version = c) (hh : c.hash = h)
    (hnew : ∀ q lq, q ≠ p → t.mem q = some lq → lq.call ≠ c) :
    ∃ t' lp', record source dest seg version iss (cellof h (B h)) p t = some t' ∧
      Kept t' (Function.update B h (B h ++ [p])) ∧ t'.mem p = some lp' ∧ lp'.call = c ∧ lp'.resent = 0 ∧
      lp'.rexmits = lp.rexmits ∧ ∀ q, q ≠ p → t'.mem q = t.mem q := by
  have hp : ∀ k, p ∉ B k := fun k hk => (hloose.home k p hk).1 rfl
  have hself : (Function.update t.lht.next p none) p = none := Function.update_self _ _ _
  have hchained := (hloose.chained.outside hp none).push (h := h) (p := p) hp hself
  have hrange : h ∈ Finset.range NLHT := hh ▸ hash_mem c
  obtain ⟨t', lp', ht', hlht, hmem, hcount, hcall, hrex, hres⟩ : ∃ (t' : Tcppriv) (lp' : Limbo),
      Tcp.record source dest seg version iss (cellof h (B h)) p t = some t' ∧
      t'.lht = ({ t.lht with next := Function.update t.lht.next p none } : Buckets ℕ ℕ).put (some p) (cellof h (B h)) ∧
      t'.mem = Function.update t.mem p (some lp') ∧ t'.nlimbo = t.nlimbo ∧ lp'.call = c ∧
      lp'.rexmits = lp.rexmits ∧ lp'.resent = 0 := by
    rw [Tcp.record, hlp]
    exact ⟨_, _, rfl, rfl, rfl, rfl, hc, rfl, rfl⟩
  have hothers : ∀ q, q ≠ p → t'.mem q = t.mem q := fun q hq => by rw [hmem, Function.update_of_ne hq]
  have hsame : t'.mem p = some lp' := by rw [hmem, Function.update_self]
  refine ⟨t', lp', ht', ⟨?_, ?_, fun k q hq => ?_, fun q lq hlq => ?_, fun q r lq lr hlq hlr heq => ?_⟩, hsame, hcall,
    hres, hrex, hothers⟩
  · rw [hlht]
    exact hchained
  · have hsum := total_update (l := B) hrange (B h ++ [p])
    rw [List.length_append, List.length_singleton] at hsum
    rw [hcount, hloose.count]
    omega
  · by_cases hqp : q = p
    · by_cases hkh : k = h
      · exact ⟨lp', hqp ▸ hsame, by rw [hcall, hh, hkh]⟩
      · rw [Function.update_of_ne hkh, hqp] at hq
        exact absurd hq (hp k)
    · have hqk : q ∈ B k := by
        by_cases hkh : k = h
        · rw [hkh, Function.update_self, List.mem_append, List.mem_singleton] at hq
          rw [hkh]
          exact hq.resolve_right hqp
        · rwa [Function.update_of_ne hkh] at hq
      obtain ⟨-, lq, hlq, hhash⟩ := hloose.home k q hqk
      exact ⟨lq, by rw [hothers q hqp, hlq], hhash⟩
  · by_cases hqp : q = p
    · rw [hqp, hsame] at hlq
      rw [hqp, ← Option.some.inj hlq, hcall, hh, Function.update_self]
      exact List.mem_append_right _ (List.mem_singleton.mpr rfl)
    · rw [hothers q hqp] at hlq
      have hheld := hloose.held q lq hqp hlq
      by_cases hkh : lq.call.hash = h
      · rw [hkh] at hheld ⊢
        rw [Function.update_self]
        exact List.mem_append_left _ hheld
      · rwa [Function.update_of_ne hkh]
  · by_cases hqp : q = p
    · by_cases hrp : r = p
      · rw [hqp, hrp]
      · rw [hqp, hsame] at hlq
        rw [hothers r hrp] at hlr
        exact absurd (by rw [← heq, ← Option.some.inj hlq, hcall]) (hnew r lr hrp hlr)
    · by_cases hrp : r = p
      · rw [hrp, hsame] at hlr
        rw [hothers q hqp] at hlq
        exact absurd (by rw [heq, ← Option.some.inj hlr, hcall]) (hnew q lq hqp hlq)
      · rw [hothers q hqp] at hlq
        rw [hothers r hrp] at hlr
        exact hloose.unique q r lq lr hqp hrp hlq hlr heq

/-- Memory that was free is counted. -/
theorem Kept.alloc (hk : Kept t B) (hfree : t.mem p = none) :
    Loose { t with nlimbo := t.nlimbo + 1, mem := Function.update t.mem p (some Limbo.zero) } B p := by
  have hother : ∀ q, q ≠ p → Function.update t.mem p (some Limbo.zero) q = t.mem q :=
    fun q hq => Function.update_of_ne hq _ _
  refine ⟨hk.chained, by rw [hk.count], fun h q hq => ?_, fun q lq hqp hlq => ?_,
    fun q r lq lr hqp hrp hlq hlr heq => ?_⟩
  · obtain ⟨lq, hlq, hhash⟩ := hk.home h q hq
    have hqp : q ≠ p := fun heq => by
      rw [heq, hfree] at hlq
      cases hlq
    exact ⟨hqp, lq, (hother q hqp).trans hlq, hhash⟩
  · exact hk.held q lq ((hother q hqp).symm.trans hlq)
  · exact hk.unique q r lq lr ((hother q hqp).symm.trans hlq) ((hother r hrp).symm.trans hlr) heq

/-- The first entry of a bucket is taken off it. -/
theorem Kept.recycle (hk : Kept t B) (hh : h ∈ Finset.range NLHT) (hl : B h = p :: post) :
    Loose { t with lht := t.lht.put (t.lht.next p) (.head h) } (Function.update B h post) p := by
  have hnodup := (hk.chained.links h).nodup
  rw [hl] at hnodup
  have hout := (List.nodup_cons.mp hnodup).1
  have hl' : B h = [] ++ p :: post := hl
  refine ⟨hk.chained.unlink hl', ?_, fun k q hq => ?_, fun q lq hqp hlq => ?_,
    fun q r lq lr _ _ hlq hlr heq => hk.unique q r lq lr hlq hlr heq⟩
  · have hsum := total_update (l := B) hh post
    rw [hl, List.length_cons] at hsum
    dsimp only
    rw [hk.count]
    omega
  · have hqp : q ≠ p ∧ q ∈ B k := by
      by_cases hkh : k = h
      · rw [hkh, Function.update_self] at hq
        rw [hkh, hl]
        exact ⟨fun heq => hout (heq ▸ hq), List.mem_cons_of_mem _ hq⟩
      · rw [Function.update_of_ne hkh] at hq
        refine ⟨fun heq => ?_, hq⟩
        rw [heq] at hq
        exact hkh (hk.chained.disjoint k h p hq (by rw [hl]; exact List.mem_cons_self))
    exact ⟨hqp.1, hk.home k q hqp.2⟩
  · have hheld := hk.held q lq hlq
    by_cases hkh : lq.call.hash = h
    · rw [hkh, hl] at hheld
      rw [hkh, Function.update_self]
      exact (List.mem_cons.mp hheld).resolve_left hqp
    · rwa [Function.update_of_ne hkh]

/-- The cell behind the last entry is the same without the first, if there is another. -/
theorem cellof_recycle (hk : Kept t B) (hl : B h = p :: post) :
    (if t.lht.next p = none then Cell.head h else cellof h (B h)) = cellof h post := by
  have hlinks := hk.chained.links h
  rw [hl] at hlinks
  have hnext := hlinks.2.head_eq
  rw [hl]
  cases post with
  | nil => rw [if_pos (show t.lht.next p = none from hnext)]; rfl
  | cons q post =>
    rw [if_neg (by rw [hnext]; exact Option.some_ne_none q), cellof, cellof, List.getLast?_cons_cons]

/-- The SYN ACK is sent, or the entry is given up. -/
theorem Kept.answer (hk : Kept t B) (hh : h ∈ Finset.range NLHT) (hl : B h = pre ++ p :: post)
    (hlp : t.mem p = some lp) (sent : Option ℕ) :
    ∃ t' B', answer sent (cellof h pre) p t = some t' ∧ Kept t' B' ∧ (∀ q, q ≠ p → t'.mem q = t.mem q) ∧
      ∀ lq, t'.mem p = some lq → lq = sndsynack sent lp := by
  have hwrite : Kept (t.write p (sndsynack sent lp)) B := hk.write hlp rfl
  have hrun : Tcp.answer sent (cellof h pre) p t = some (if sent = none
      then (t.write p (sndsynack sent lp)).discard (cellof h pre) p else t.write p (sndsynack sent lp)) := by
    rw [Tcp.answer, hlp]
    rfl
  by_cases hsent : sent = none
  · rw [if_pos hsent] at hrun
    refine ⟨_, _, hrun, hwrite.discard hh hl, fun q hq => ?_, fun lq hlq => ?_⟩
    · rw [discard_other hq, write_other hq]
    · rw [discard_same] at hlq
      cases hlq
  · rw [if_neg hsent] at hrun
    refine ⟨_, B, hrun, hwrite, fun q hq => write_other hq, fun lq hlq => ?_⟩
    rw [write_same] at hlq
    exact (Option.some.inj hlq).symm

end Tables

/-- The entry that a SYN is recorded in, if it is not a new one: that of its call, or the first of a full
table's bucket. -/
def Recorded (t : Tcppriv) (c : Call) (lp : Limbo) : Prop :=
  (∃ p, t.mem p = some lp ∧ lp.call = c) ∨
    (∀ p lq, t.mem p = some lq → lq.call ≠ c) ∧ t.nlimbo ≥ Maxlimbo ∧
      ∃ p, t.lht.head c.hash = some p ∧ t.mem p = some lp

/-- What one pass of `limborexmit` makes of an entry. -/
def Passed (sent : ℕ → Option ℕ) (p : ℕ) (lp : Limbo) : Option Limbo → Prop
  | none => 5 < (lp.rexmits + 1) % 2 ^ 8 ∨ sent p = none
  | some lq => lq = lp ∨ lq.call = lp.call ∧ lq.rexmits = (lp.rexmits + 1) % 2 ^ 8 ∧ lq.rexmits ≤ 5 ∧
      lq.resent = lp.resent + 1

section Events

variable {t : Tcppriv} {B : ℕ → List ℕ} {h : ℕ} {pre post : List ℕ}

/-- A SYN is recorded in the entry of its call, in the first one of a full bucket, or in a new one. -/
theorem Kept.limbo (hk : Kept t B) (source dest : Ipaddr) (seg : Segment) (version iss : ℕ) {addr : Option ℕ}
    (hfree : ∀ p ∈ addr, t.mem p = none) (sent : Option ℕ) :
    ∃ t' B', limbo source dest seg version iss addr sent t = some t' ∧ Kept t' B' ∧
      ∀ q lq, t'.mem q = some lq → t.mem q = some lq ∨ lq.call = seg.call source dest version ∧ lq.resent = 0 ∧
        (lq.rexmits = 0 ∨ ∃ lp, Recorded t (seg.call source dest version) lp ∧ lq.rexmits = lp.rexmits) := by
  generalize hc : seg.call source dest version = c
  have hhash : hashipa source seg.source = c.hash := by rw [← hc]; rfl
  obtain ⟨pre, post, hsplit, hlook, hget, hfound, hnone⟩ := hk.lookup c
  rw [Tcp.limbo]
  simp only [hc, hhash, hlook, hget, Option.bind_eq_bind, Option.bind_some]
  cases post with
  | cons p post =>
    obtain ⟨lp, hlp, hcall⟩ := hfound p rfl
    have hwrite : Kept (t.write p { lp with irs := seg.seq, resent := 0 }) B := hk.write hlp rfl
    obtain ⟨t', B', hrun, hk', hother, hsame⟩ := hwrite.answer (hash_mem c) hsplit write_same sent
    refine ⟨t', B', ?_, hk', fun q lq hlq => ?_⟩
    · simp only [List.head?_cons, hlp, Option.bind_some]
      exact hrun
    · by_cases hqp : q = p
      · right
        rw [hqp] at hlq
        rw [hsame lq hlq]
        exact ⟨hcall, rfl, .inr ⟨lp, .inl ⟨p, hlp, hcall⟩, rfl⟩⟩
      · left
        rwa [hother q hqp, write_other hqp] at hlq
  | nil =>
    have hnew := hnone rfl
    rw [List.append_nil] at hsplit
    subst hsplit
    simp only [List.head?_nil]
    by_cases hfull : t.nlimbo ≥ Maxlimbo ∧ t.lht.head c.hash ≠ none
    · obtain ⟨p, hp⟩ := Option.ne_none_iff_exists'.mp hfull.2
      obtain ⟨post, hl⟩ : ∃ post, B c.hash = p :: post := by
        have hlinks := hk.chained.links c.hash
        rw [hp] at hlinks
        cases hB : B c.hash with
        | nil => rw [hB] at hlinks; cases hlinks
        | cons q post =>
          rw [hB] at hlinks
          exact ⟨post, by rw [Option.some.inj hlinks.1]⟩
      obtain ⟨lp, hlp, -⟩ := hk.home c.hash p (by rw [hl]; exact List.mem_cons_self)
      have hcell := cellof_recycle hk hl
      obtain ⟨t₁, lp₁, hrec, hk₁, hlp₁, hcall, hres, hrex, hother₁⟩ := (hk.recycle (hash_mem c) hl).record
        hlp hc rfl fun q lq _ hlq => hnew q lq hlq
      rw [Function.update_self] at hrec
      have hlast : Function.update (Function.update B c.hash post) c.hash
          (Function.update B c.hash post c.hash ++ [p]) c.hash = post ++ p :: [] := by
        rw [Function.update_self, Function.update_self]
      obtain ⟨t', B', hrun, hk', hother, hsame⟩ := hk₁.answer (hash_mem c) hlast hlp₁ sent
      refine ⟨t', B', ?_, hk', fun q lq hlq => ?_⟩
      · simp only [if_pos hfull.1, hp, hcell]
        exact (congrArg (Option.bind · _) hrec).trans hrun
      · by_cases hqp : q = p
        · right
          rw [hqp] at hlq
          rw [hsame lq hlq]
          exact ⟨hcall, hres, .inr ⟨lp, .inr ⟨hnew, hfull.1, p, hp, hlp⟩, hrex⟩⟩
        · left
          rwa [hother q hqp, hother₁ q hqp] at hlq
    · have hmatch : (if t.nlimbo ≥ Maxlimbo then t.lht.head c.hash else none) = none := by
        split_ifs with hmax
        · exact not_not.mp fun hne => hfull ⟨hmax, hne⟩
        · rfl
      simp only [hmatch]
      cases addr with
      | none => exact ⟨t, B, rfl, hk, fun q lq hlq => .inl hlq⟩
      | some p =>
        have hloose := hk.alloc (hfree p rfl)
        have hother₀ : ∀ q, q ≠ p → Function.update t.mem p (some Limbo.zero) q = t.mem q :=
          fun q hq => Function.update_of_ne hq _ _
        have hzero : Function.update t.mem p (some Limbo.zero) p = some Limbo.zero := Function.update_self _ _ _
        obtain ⟨t₁, lp₁, hrec, hk₁, hlp₁, hcall, hres, hrex, hother₁⟩ := hloose.record
          hzero hc rfl fun q lq hqp hlq => hnew q lq ((hother₀ q hqp).symm.trans hlq)
        have hlast : Function.update B c.hash (B c.hash ++ [p]) c.hash = B c.hash ++ p :: [] :=
          Function.update_self _ _ _
        obtain ⟨t', B', hrun, hk', hother, hsame⟩ := hk₁.answer (hash_mem c) hlast hlp₁ sent
        refine ⟨t', B', ?_, hk', fun q lq hlq => ?_⟩
        · exact (congrArg (Option.bind · _) hrec).trans hrun
        · by_cases hqp : q = p
          · right
            rw [hqp] at hlq
            rw [hsame lq hlq]
            exact ⟨hcall, hres, .inl hrex⟩
          · left
            rw [hother q hqp, hother₁ q hqp] at hlq
            exact (hother₀ q hqp).symm.trans hlq

/-- One pass over the rest of a bucket: every entry of it is passed once, and nothing else is touched. -/
theorem Kept.rexmitloop (hk : Kept t B) (hh : h ∈ Finset.range NLHT) (now : ℕ) (sent : ℕ → Option ℕ)
    (hl : B h = pre ++ post) {fuel : ℕ} (hfuel : post.length < fuel) :
    ∃ t' B', rexmitloop now sent fuel (cellof h pre) t = some t' ∧ Kept t' B' ∧ (∀ k, k ≠ h → B' k = B k) ∧
      (∀ q, q ∉ post → t'.mem q = t.mem q) ∧
      ∀ q lq, q ∈ post → t.mem q = some lq → Passed sent q lq (t'.mem q) := by
  induction post generalizing t B pre fuel with
  | nil =>
    obtain ⟨fuel, rfl⟩ : ∃ k, fuel = k + 1 := ⟨fuel - 1, by omega⟩
    refine ⟨t, B, ?_, hk, fun _ _ => rfl, fun _ _ => rfl, fun q lq hq => absurd hq List.not_mem_nil⟩
    rw [Tcp.rexmitloop, hk.chained.get_cellof hl]
    rfl
  | cons p post ih =>
    rw [List.length_cons] at hfuel
    obtain ⟨fuel, rfl⟩ : ∃ k, fuel = k + 1 := ⟨fuel - 1, by omega⟩
    obtain ⟨lp, hlp, -⟩ := hk.home h p (by rw [hl]; simp)
    have hnodup := (hk.chained.links h).nodup
    rw [hl] at hnodup
    have hpost : p ∉ post := fun hmem => (List.nodup_middle.mp hnodup).notMem (List.mem_append_right _ hmem)
    have hcell : Cell.next p = cellof h (pre ++ [p]) := (cellof_concat h pre p).symm
    have hl' : B h = (pre ++ [p]) ++ post := by rw [hl, List.append_assoc]; rfl
    -- What the tail of the bucket needs once the entry at `p` is dealt with.
    have hrest : ∀ (u u' : Tcppriv) (C C' : ℕ → List ℕ), (∀ k, k ≠ h → C k = B k) → (∀ k, k ≠ h → C' k = C k) →
        (∀ q, q ≠ p → u.mem q = t.mem q) → (∀ q, q ∉ post → u'.mem q = u.mem q) →
        (∀ q lq, q ∈ post → u.mem q = some lq → Passed sent q lq (u'.mem q)) →
        Passed sent p lp (u.mem p) →
        (∀ k, k ≠ h → C' k = B k) ∧ (∀ q, q ∉ p :: post → u'.mem q = t.mem q) ∧
          ∀ q lq, q ∈ p :: post → t.mem q = some lq → Passed sent q lq (u'.mem q) := by
      intro u u' C C' hC hC' hother hout hpassed hp
      refine ⟨fun k hkh => (hC' k hkh).trans (hC k hkh), fun q hq => ?_, fun q lq hq hlq => ?_⟩
      · rw [List.mem_cons, not_or] at hq
        rw [hout q hq.2, hother q hq.1]
      · by_cases hqp : q = p
        · rw [hqp, hlp] at hlq
          rw [hqp, hout p hpost, ← Option.some.inj hlq]
          exact hp
        · exact hpassed q lq ((List.mem_cons.mp hq).resolve_left hqp) ((hother q hqp).trans hlq)
    rw [Tcp.rexmitloop, hk.chained.get_cellof hl, List.head?_cons]
    simp only [hlp, Option.bind_eq_bind, Option.bind_some]
    by_cases hdue : ulong (now - lp.lastsend) ≥ (lp.rexmits + 1) * SYNACKRXTIMER
    · rw [if_pos hdue]
      by_cases hmany : (lp.rexmits + 1) % 2 ^ 8 > 5
      · rw [if_pos hmany]
        have hwrite : Kept (t.write p { lp with rexmits := (lp.rexmits + 1) % 2 ^ 8 }) B := hk.write hlp rfl
        obtain ⟨t', B', hrun, hk', hkeep, hout, hpassed⟩ := ih (hwrite.discard hh hl)
          (by rw [Function.update_self]) (show post.length < fuel by omega)
        refine ⟨t', B', hrun, hk', hrest _ t' _ B' (fun k hkh => Function.update_of_ne hkh _ _) hkeep
          (fun q hq => by rw [discard_other hq, write_other hq]) hout hpassed ?_⟩
        rw [discard_same]
        exact .inl hmany
      · rw [if_neg hmany]
        by_cases hsent : sent p = none
        · rw [if_pos hsent]
          have hwrite : Kept (t.write p (sndsynack none { lp with rexmits := (lp.rexmits + 1) % 2 ^ 8 })) B :=
            hk.write hlp rfl
          obtain ⟨t', B', hrun, hk', hkeep, hout, hpassed⟩ := ih (hwrite.discard hh hl)
            (by rw [Function.update_self]) (show post.length < fuel by omega)
          refine ⟨t', B', hrun, hk', hrest _ t' _ B' (fun k hkh => Function.update_of_ne hkh _ _) hkeep
            (fun q hq => by rw [discard_other hq, write_other hq]) hout hpassed ?_⟩
          rw [discard_same]
          exact .inr hsent
        · rw [if_neg hsent]
          have hwrite : Kept (t.write p { sndsynack (sent p) { lp with rexmits := (lp.rexmits + 1) % 2 ^ 8 } with
              resent := lp.resent + 1 }) B := hk.write hlp rfl
          obtain ⟨t', B', hrun, hk', hkeep, hout, hpassed⟩ := ih hwrite hl' (show post.length < fuel by omega)
          rw [← hcell] at hrun
          refine ⟨t', B', hrun, hk', hrest _ t' B B' (fun _ _ => rfl) hkeep (fun q hq => write_other hq) hout
            hpassed ?_⟩
          rw [write_same]
          exact .inr ⟨rfl, rfl, not_lt.mp hmany, rfl⟩
    · rw [if_neg hdue]
      obtain ⟨t', B', hrun, hk', hkeep, hout, hpassed⟩ := ih hk hl' (show post.length < fuel by omega)
      rw [← hcell] at hrun
      refine ⟨t', B', hrun, hk', hrest t t' B B' (fun _ _ => rfl) hkeep (fun _ _ => rfl) hout hpassed ?_⟩
      rw [hlp]
      exact .inl rfl

/-- The pass over some of the buckets. -/
theorem Kept.rexmits (hk : Kept t B) (now : ℕ) (sent : ℕ → Option ℕ) {hs : List ℕ} (hnodup : hs.Nodup)
    (hrange : ∀ h ∈ hs, h ∈ Finset.range NLHT) :
    ∃ t' B', hs.foldlM (fun t h => Tcp.rexmitloop now sent (t.nlimbo.toNat + 1) (.head h) t) t = some t' ∧
      Kept t' B' ∧ (∀ q, (∀ h ∈ hs, q ∉ B h) → t'.mem q = t.mem q) ∧
      ∀ h ∈ hs, ∀ q lq, q ∈ B h → t.mem q = some lq → Passed sent q lq (t'.mem q) := by
  induction hs generalizing t B with
  | nil => exact ⟨t, B, rfl, hk, fun _ _ => rfl, fun h hmem => absurd hmem List.not_mem_nil⟩
  | cons h hs ih =>
    rw [List.nodup_cons] at hnodup
    rw [List.forall_mem_cons] at hrange
    have hl : B h = [] ++ B h := rfl
    obtain ⟨t₁, B₁, hrun₁, hk₁, hkeep, hout₁, hpassed₁⟩ := hk.rexmitloop hrange.1 now sent hl
      (hk.length_lt hrange.1)
    obtain ⟨t', B', hrun, hk', hout, hpassed⟩ := ih hk₁ hnodup.2 hrange.2
    have hne : ∀ k ∈ hs, k ≠ h := fun k hmem heq => hnodup.1 (heq ▸ hmem)
    refine ⟨t', B', ?_, hk', fun q hq => ?_, ?_⟩
    · rw [List.foldlM_cons]
      exact (congrArg (Option.bind · _) hrun₁).trans hrun
    · rw [List.forall_mem_cons] at hq
      rw [hout q fun k hmem => by rw [hkeep k (hne k hmem)]; exact hq.2 k hmem, hout₁ q hq.1]
    · rw [List.forall_mem_cons]
      refine ⟨fun q lq hq hlq => ?_, fun k hmem q lq hq hlq => ?_⟩
      · rw [hout q fun k hmem => ?_]
        · exact hpassed₁ q lq hq hlq
        · rw [hkeep k (hne k hmem)]
          exact hk.chained.not_mem (hne k hmem) hq
      · refine hpassed k hmem q lq (by rw [hkeep k (hne k hmem)]; exact hq) ?_
        rw [hout₁ q (hk.chained.not_mem (hne k hmem).symm hq), hlq]

theorem Kept.limborexmit (hk : Kept t B) (now : ℕ) (sent : ℕ → Option ℕ) :
    ∃ t' B', limborexmit now sent t = some t' ∧ Kept t' B' ∧ (∀ q, t.mem q = none → t'.mem q = none) ∧
      ∀ q lq, t.mem q = some lq → Passed sent q lq (t'.mem q) := by
  obtain ⟨t', B', hrun, hk', hout, hpassed⟩ := hk.rexmits now sent List.nodup_range
    fun h hmem => Finset.mem_range.mpr (List.mem_range.mp hmem)
  refine ⟨t', B', hrun, hk', fun q hq => ?_, fun q lq hlq => ?_⟩
  · rw [hout q fun h _ hmem => ?_, hq]
    obtain ⟨lq, hlq, -⟩ := hk.home h q hmem
    rw [hq] at hlq
    cases hlq
  · exact hpassed _ (List.mem_range.mpr (hash_lt lq.call)) q lq (hk.held q lq hlq) hlq

/-- One entry at most is freed, and the others stay as they are. -/
def Loses (t t' : Tcppriv) : Prop := ∀ q lq, t'.mem q = some lq → t.mem q = some lq

theorem Kept.drop (hk : Kept t B) {p : ℕ} (hh : h ∈ Finset.range NLHT) (hl : B h = pre ++ p :: post) (keep : Prop)
    [Decidable keep] :
    ∃ B', Kept (if keep then t else t.discard (cellof h pre) p) B' ∧
      Loses t (if keep then t else t.discard (cellof h pre) p) := by
  by_cases hkeep : keep
  · rw [if_pos hkeep]
    exact ⟨B, hk, fun q lq hlq => hlq⟩
  · rw [if_neg hkeep]
    refine ⟨_, hk.discard hh hl, fun q lq hlq => ?_⟩
    by_cases hqp : q = p
    · rw [hqp, discard_same] at hlq
      cases hlq
    · rwa [discard_other hqp] at hlq

theorem Kept.limborst (hk : Kept t B) (segp : Segment) (src dst : Ipaddr) (version : ℕ) :
    ∃ t' B', limborst segp src dst version t = some t' ∧ Kept t' B' ∧ Loses t t' := by
  obtain ⟨pre, post, hsplit, hlook, hget, hfound, -⟩ := hk.lookup (segp.call src dst version)
  rw [Tcp.limborst]
  simp only [hlook, hget, Option.bind_eq_bind, Option.bind_some]
  cases post with
  | nil => exact ⟨t, B, rfl, hk, fun q lq hlq => hlq⟩
  | cons p post =>
    obtain ⟨lp, hlp, -⟩ := hfound p rfl
    obtain ⟨B', hk', hloses⟩ := hk.drop (hash_mem _) hsplit (segp.seq ≠ ulong (lp.irs + 1))
    refine ⟨_, B', ?_, hk', hloses⟩
    simp only [List.head?_cons, hlp, Option.bind_some, ite_not]
    rfl

theorem Kept.tcpincoming (hk : Kept t B) (segp : Segment) (src dst : Ipaddr) (version : ℕ) :
    ∃ t' B', tcpincoming segp src dst version t = some t' ∧ Kept t' B' ∧ Loses t t' := by
  rw [Tcp.tcpincoming]
  by_cases hflags : segp.SYN = true ∨ ¬ segp.ACK = true
  · rw [if_pos hflags]
    exact ⟨t, B, rfl, hk, fun q lq hlq => hlq⟩
  · rw [if_neg hflags]
    obtain ⟨pre, post, hsplit, hlook, hget, hfound, -⟩ := hk.lookup (segp.call src dst version)
    simp only [hlook, hget, Option.bind_eq_bind, Option.bind_some]
    cases post with
    | nil => exact ⟨t, B, rfl, hk, fun q lq hlq => hlq⟩
    | cons p post =>
      obtain ⟨lp, hlp, -⟩ := hfound p rfl
      obtain ⟨B', hk', hloses⟩ := hk.drop (hash_mem _) hsplit
        (segp.seq ≠ ulong (lp.irs + 1) ∨ segp.ack ≠ ulong (lp.iss + 1))
      refine ⟨_, B', ?_, hk', hloses⟩
      simp only [List.head?_cons, hlp, Option.bind_some]
      rfl

end Events

/-- What happens to limbo. -/
inductive Event where
  | syn (source dest : Ipaddr) (seg : Segment) (version iss : ℕ) (addr sent : Option ℕ)
  | rexmit (now : ℕ) (sent : ℕ → Option ℕ)
  | rst (segp : Segment) (src dst : Ipaddr) (version : ℕ)
  | incoming (segp : Segment) (src dst : Ipaddr) (version : ℕ)

namespace Event

def run : Event → Tcppriv → Option Tcppriv
  | .syn source dest seg version iss addr sent, t => limbo source dest seg version iss addr sent t
  | .rexmit now sent, t => limborexmit now sent t
  | .rst segp src dst version, t => limborst segp src dst version t
  | .incoming segp src dst version, t => tcpincoming segp src dst version t

/-- Memory is allocated where it is free. -/
def Free (t : Tcppriv) : Event → Prop
  | .syn _ _ _ _ _ addr _ => ∀ p ∈ addr, t.mem p = none
  | _ => True

/-- No SYN is recorded in an entry whose SYN ACK was already sent again. -/
def Meets (t : Tcppriv) : Event → Prop
  | .syn source dest seg version _ _ _ => ∀ lp, Recorded t (seg.call source dest version) lp → lp.rexmits = 0
  | _ => True

end Event

def Tcppriv.init : Tcppriv := ⟨0, ⟨fun _ => none, fun _ => none⟩, fun _ => none⟩

/-- The states of the runs whose events all meet the condition `C`. -/
inductive Limboed (C : Tcppriv → Event → Prop) : Tcppriv → Prop
  | init : Limboed C Tcppriv.init
  | step {t t' : Tcppriv} {e : Event} (h : Limboed C t) (hfree : e.Free t) (hc : C t e) (hrun : e.run t = some t') :
      Limboed C t'

section Runs

variable {t t' : Tcppriv} {B : ℕ → List ℕ} {C : Tcppriv → Event → Prop}

theorem kept_init : Kept Tcppriv.init fun _ => [] where
  chained := ⟨fun _ => rfl, fun _ _ _ h => absurd h List.not_mem_nil⟩
  count := by simp [Tcppriv.init, total]
  home _ _ h := absurd h List.not_mem_nil
  held _ _ h := by cases h
  unique _ _ _ _ h := by cases h

/-- Every event has an outcome, and the table stays in order. -/
theorem Kept.run (hk : Kept t B) {e : Event} (hfree : e.Free t) : ∃ t' B', e.run t = some t' ∧ Kept t' B' := by
  cases e with
  | syn source dest seg version iss addr sent =>
    obtain ⟨t', B', hrun, hk', -⟩ := hk.limbo source dest seg version iss hfree sent
    exact ⟨t', B', hrun, hk'⟩
  | rexmit now sent =>
    obtain ⟨t', B', hrun, hk', -⟩ := hk.limborexmit now sent
    exact ⟨t', B', hrun, hk'⟩
  | rst segp src dst version =>
    obtain ⟨t', B', hrun, hk', -⟩ := hk.limborst segp src dst version
    exact ⟨t', B', hrun, hk'⟩
  | incoming segp src dst version =>
    obtain ⟨t', B', hrun, hk', -⟩ := hk.tcpincoming segp src dst version
    exact ⟨t', B', hrun, hk'⟩

theorem Limboed.kept (h : Limboed C t) : ∃ B, Kept t B := by
  induction h with
  | init => exact ⟨_, kept_init⟩
  | step _ hfree _ hrun ih =>
    obtain ⟨B, hk⟩ := ih
    obtain ⟨t', B', hrun', hk'⟩ := hk.run hfree
    rw [hrun] at hrun'
    exact ⟨B', Option.some.inj hrun' ▸ hk'⟩

/-- The counter of an entry counts the retransmits since the last SYN. -/
def Counted (lp : Limbo) : Prop := lp.resent = lp.rexmits ∧ lp.rexmits ≤ 5

theorem counted_run (hk : Kept t B) {e : Event} (hfree : e.Free t) (hc : e.Meets t) (hrun : e.run t = some t')
    (hcounted : ∀ p lp, t.mem p = some lp → Counted lp) : ∀ p lp, t'.mem p = some lp → Counted lp := by
  cases e with
  | syn source dest seg version iss addr sent =>
    obtain ⟨u, B', hrun', -, hentries⟩ := hk.limbo source dest seg version iss hfree sent
    obtain rfl : t' = u := Option.some.inj (hrun.symm.trans hrun')
    intro p lp hlp
    rcases hentries p lp hlp with hold | ⟨-, hresent, hrex⟩
    · exact hcounted p lp hold
    · have hzero : lp.rexmits = 0 := by
        rcases hrex with hzero | ⟨lq, hrec, hlq⟩
        · exact hzero
        · rw [hlq]
          exact hc lq hrec
      exact ⟨hresent.trans hzero.symm, by rw [hzero]; decide⟩
  | rexmit now sent =>
    obtain ⟨u, B', hrun', -, hnone, hpassed⟩ := hk.limborexmit now sent
    obtain rfl : t' = u := Option.some.inj (hrun.symm.trans hrun')
    intro p lp hlp
    cases hold : t.mem p with
    | none =>
      rw [hnone p hold] at hlp
      cases hlp
    | some lq =>
      obtain ⟨hresent, hle⟩ := hcounted p lq hold
      have hp := hpassed p lq hold
      rw [hlp] at hp
      rcases hp with heq | ⟨-, hrex, hle', hres⟩
      · rw [heq]
        exact ⟨hresent, hle⟩
      · exact ⟨by omega, hle'⟩
  | rst segp src dst version =>
    obtain ⟨u, B', hrun', -, hloses⟩ := hk.limborst segp src dst version
    obtain rfl : t' = u := Option.some.inj (hrun.symm.trans hrun')
    exact fun p lp hlp => hcounted p lp (hloses p lp hlp)
  | incoming segp src dst version =>
    obtain ⟨u, B', hrun', -, hloses⟩ := hk.tcpincoming segp src dst version
    obtain rfl : t' = u := Option.some.inj (hrun.symm.trans hrun')
    exact fun p lp hlp => hcounted p lp (hloses p lp hlp)

theorem Limboed.counted (h : Limboed (fun t e => e.Meets t) t) : ∀ p lp, t.mem p = some lp → Counted lp := by
  induction h with
  | init =>
    intro p lp hlp
    cases hlp
  | step h hfree hc hrun ih =>
    obtain ⟨B, hk⟩ := h.kept
    exact counted_run hk hfree hc hrun ih

end Runs

/-- In every run the table is in order: the entries are counted, each is in the bucket of its call and the
only one of it, and the next event has an outcome. If no SYN is recorded in an entry whose SYN ACK was sent
again, an entry is discarded after five retransmits since its last SYN, or as sending fails. -/
theorem limbo_consistent (t : Tcppriv) :
    (Limboed (fun _ _ => True) t → (∃ B, Kept t B) ∧ ∀ e : Event, e.Free t → ∃ t', e.run t = some t') ∧
    (Limboed (fun t e => e.Meets t) t →
      (∃ B, Kept t B) ∧ ∀ now sent t', limborexmit now sent t = some t' →
        ∀ p lp, t.mem p = some lp → t'.mem p = none → lp.resent = 5 ∨ sent p = none) := by
  refine ⟨fun h => ?_, fun h => ?_⟩
  · obtain ⟨B, hk⟩ := h.kept
    refine ⟨⟨B, hk⟩, fun e hfree => ?_⟩
    obtain ⟨t', -, hrun, -⟩ := hk.run hfree
    exact ⟨t', hrun⟩
  · obtain ⟨B, hk⟩ := h.kept
    refine ⟨⟨B, hk⟩, fun now sent t' hrun p lp hlp hnone => ?_⟩
    obtain ⟨u, B', hrun', -, -, hpassed⟩ := hk.limborexmit now sent
    obtain rfl : t' = u := Option.some.inj (hrun.symm.trans hrun')
    obtain ⟨hresent, hle⟩ := h.counted p lp hlp
    have hp := hpassed p lp hlp
    rw [hnone] at hp
    rcases hp with hmany | hsent
    · left
      omega
    · exact .inr hsent

/-- A SYN from port 1 to port 2. -/
def knock (addr : Option ℕ) (now : ℕ) : Event := .syn 0 0 ⟨1, 2, 0, 0, 0, 0, true, false⟩ 4 0 addr (some now)

/-- The state behind it. -/
theorem limbo_consistent_knock : ∃ t, (knock (some 0) 0).run Tcppriv.init = some t ∧ (∃ B, Kept t B) ∧
    ∀ now sent t', limborexmit now sent t = some t' →
      ∀ p lp, t.mem p = some lp → t'.mem p = none → lp.resent = 5 ∨ sent p = none := by
  have hsome : ((knock (some 0) 0).run Tcppriv.init).isSome := by decide +kernel
  obtain ⟨t, ht⟩ := Option.isSome_iff_exists.mp hsome
  have hmeets : (knock (some 0) 0).Meets Tcppriv.init := by
    rintro lp (⟨p, hp, -⟩ | ⟨-, -, p, -, hp⟩) <;> cases hp
  exact ⟨t, ht, (limbo_consistent t).2 (Limboed.init.step (show (knock (some 0) 0).Free _ from fun _ _ => rfl) hmeets ht)⟩

def resend (now : ℕ) : Event := .rexmit now fun _ => some now

/-- Three retransmits, the SYN again, and two more. -/
def knocks : List Event :=
  [knock (some 0) 0, resend 1000, resend 3000, resend 5000, knock none 6000, resend 8000, resend 10000]

def replay (es : List Event) : Option Tcppriv := es.foldlM (fun t e => e.run t) Tcppriv.init

theorem limboed_foldlM {es : List Event} (hes : ∀ e ∈ es, ∀ t, e.Free t) {t t' : Tcppriv}
    (h : Limboed (fun _ _ => True) t) (hrun : es.foldlM (fun t e => e.run t) t = some t') :
    Limboed (fun _ _ => True) t' := by
  induction es generalizing t with
  | nil => exact Option.some.inj hrun ▸ h
  | cons e es ih =>
    rw [List.forall_mem_cons] at hes
    rw [List.foldlM_cons] at hrun
    obtain ⟨u, hu, hrest⟩ := Option.bind_eq_some_iff.mp hrun
    exact ih hes.2 (h.step (hes.1 t) trivial hu) hrest

/-- After the repeated SYN the SYN ACK is sent twice, and the entry is discarded. -/
theorem limbo_forgets :
    ∃ t t' lp, Limboed (fun _ _ => True) t ∧ limborexmit 12000 (fun _ => some 12000) t = some t' ∧
      t.mem 0 = some lp ∧ t'.mem 0 = none ∧ lp.resent = 2 := by
  have hresent : ((replay knocks).bind fun t => (t.mem 0).map Limbo.resent) = some 2 := by decide +kernel
  have hgone : ((replay knocks).bind fun t => (limborexmit 12000 (fun _ => some 12000) t).map
      fun t' => (t'.mem 0).isNone) = some true := by decide +kernel
  obtain ⟨t, ht, hmem⟩ := Option.bind_eq_some_iff.mp hresent
  obtain ⟨lp, hlp, htwo⟩ := Option.map_eq_some_iff.mp hmem
  rw [ht, Option.bind_some] at hgone
  obtain ⟨t', hrun, hnone⟩ := Option.map_eq_some_iff.mp hgone
  rw [replay, knocks, List.foldlM_cons] at ht
  obtain ⟨t₁, ht₁, hrest⟩ := Option.bind_eq_some_iff.mp ht
  have hfirst : Limboed (fun _ _ => True) t₁ := Limboed.init.step (show (knock (some 0) 0).Free _ from fun _ _ => rfl) trivial ht₁
  refine ⟨t, t', lp, limboed_foldlM ?_ hfirst hrest, hrun, hlp, Option.isNone_iff_eq_none.mp hnone, htwo⟩
  simp [knock, resend, Event.Free]

end Petele.Tcp
