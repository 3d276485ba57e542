import Petele.Ip.RouteTree
import Petele.Lib.Prefix

namespace Petele.Ip

open Lib Ranged

section Spec

/-- What the entry of a range says, and how often it has to be deleted. -/
structure Live where
  kind : Kind
  gate : List UInt8
  count : ℕ
  pos : 0 < count
deriving DecidableEq

/-- The live entries, by range. -/
abbrev Spec := ℕ × ℕ → Option Live

/-- Another add of a range. -/
def Live.add (e : Live) (kind : Kind) (gate : List UInt8) : Live :=
  if e.kind.ifc = false then { e with kind := kind, gate := gate }
  else if kind.ifc then { e with count := e.count + 1, pos := Nat.succ_pos _ }
  else e

def Live.del (e : Live) : Option Live :=
  if h : 0 < e.count - 1 then some { e with count := e.count - 1, pos := h } else none

def Spec.add (s : Spec) (r : ℕ × ℕ) (kind : Kind) (gate : List UInt8) : Spec :=
  Function.update s r (some ((s r).elim ⟨kind, gate, 1, Nat.one_pos⟩ fun e => e.add kind gate))

def Spec.del (s : Spec) (r : ℕ × ℕ) : Spec := Function.update s r ((s r).bind Live.del)

def Route.range (x : Route) : ℕ × ℕ := (x.address, x.endaddress)

/-- The node of a live entry. -/
structure Route.Is (x : Route) (e : Live) : Prop where
  kind : x.kind = e.kind
  gate : x.gate = e.gate
  ref : x.ref = e.count

/-- The smallest live range with an address in it, or none. -/
def Smallest (s : Spec) (a : ℕ) : Option Route → Prop
  | none => ∀ r e, s r = some e → ¬ (r.1 ≤ a ∧ a ≤ r.2)
  | some x => (∃ e, s x.range = some e ∧ x.Is e) ∧ (x.address ≤ a ∧ a ≤ x.endaddress) ∧
      ∀ r e, s r = some e → r.1 ≤ a ∧ a ≤ r.2 → r.1 ≤ x.address ∧ x.endaddress ≤ r.2

end Spec

section Bucket

/-- A bucket has a node for each live range that spans it, and no others. -/
structure Bucket (w : ℕ) (H : ℕ → ℕ) (s : Spec) (h : ℕ) (t : Tree) : Prop where
  valid : t.Valid
  live : ∀ x ∈ t, IsPrefix w x.address x.endaddress ∧ H x.address ≤ h ∧ h ≤ H x.endaddress ∧
    ∃ e, s x.range = some e ∧ x.Is e
  exists_mem : ∀ r e, s r = some e → H r.1 ≤ h → h ≤ H r.2 → ∃ x ∈ t, x.range = r

variable {w h : ℕ} {H : ℕ → ℕ} {s : Spec} {t : Tree} {n : Route}

theorem same_iff {x y : Route} : Same x y ↔ x.range = y.range := by
  unfold Same Within Route.range
  rw [Prod.mk.injEq]
  constructor
  · rintro ⟨⟨h1, h2⟩, h3, h4⟩
    exact ⟨le_antisymm h3 h1, le_antisymm h2 h4⟩
  · rintro ⟨h1, h2⟩
    exact ⟨⟨h1.ge, h2.le⟩, h1.le, h2.ge⟩

theorem Bucket.nested (hb : Bucket w H s h t) (hn : IsPrefix w n.address n.endaddress) {x y : Route}
    (hx : x ∈ t ∨ x = n) (hy : y ∈ t ∨ y = n) : Nested x y := by
  have hpre : ∀ z, z ∈ t ∨ z = n → IsPrefix w (lo z) (hi z) := fun z hz => by
    rcases hz with hz | rfl
    · exact (hb.live z hz).1
    · exact hn
  exact IsPrefix.nested (hpre x hx) (hpre y hy)

/-- A bucket that a range does not span is not changed by it. -/
theorem Bucket.update_of_not_span (hb : Bucket w H s h t) {r : ℕ × ℕ} (hr : ¬ (H r.1 ≤ h ∧ h ≤ H r.2))
    (o : Option Live) : Bucket w H (Function.update s r o) h t := by
  refine ⟨hb.valid, fun x hx => ?_, fun r' e he hlo hhi => ?_⟩
  · obtain ⟨hp, hlo, hhi, e, he, his⟩ := hb.live x hx
    refine ⟨hp, hlo, hhi, e, ?_, his⟩
    rw [Function.update_of_ne, he]
    rintro rfl
    exact hr ⟨hlo, hhi⟩
  · refine hb.exists_mem r' e ?_ hlo hhi
    rw [← he, Function.update_of_ne]
    rintro rfl
    exact hr ⟨hlo, hhi⟩

/-- The entry of a range is another one, or a new one, or gone. -/
theorem Bucket.update (hb : Bucket w H s h t) (hn : IsPrefix w n.address n.endaddress)
    (hlo : H n.address ≤ h) (hhi : h ≤ H n.endaddress) {o : Option Live} {t' : Tree} (hv : t'.Valid)
    (hmem : ∀ x, x ∈ t' → x ∈ t ∧ x.range ≠ n.range ∨ x.range = n.range ∧ ∃ e, o = some e ∧ x.Is e)
    (hkeep : ∀ x ∈ t, x.range ≠ n.range → x ∈ t') (hlive : ∀ e, o = some e → ∃ x ∈ t', x.range = n.range) :
    Bucket w H (Function.update s n.range o) h t' := by
  refine ⟨hv, fun x hx => ?_, fun r e he hlo' hhi' => ?_⟩
  · rcases hmem x hx with ⟨hxt, hne⟩ | ⟨hr, hx⟩
    · rw [Function.update_of_ne hne]
      exact hb.live x hxt
    · have hra : x.address = n.address := congrArg Prod.fst hr
      have hre : x.endaddress = n.endaddress := congrArg Prod.snd hr
      rw [hr, Function.update_self, hra, hre]
      exact ⟨hn, hlo, hhi, hx⟩
  · by_cases hr : r = n.range
    · rw [hr, Function.update_self] at he
      rw [hr]
      exact hlive e he
    · rw [Function.update_of_ne hr] at he
      obtain ⟨x, hx, rfl⟩ := hb.exists_mem r e he hlo' hhi'
      exact ⟨x, hkeep x hx hr, rfl⟩

theorem supercede_is {z : Route} {e : Live} (h : z.Is e) (n : Route) :
    (supercede z n).Is (e.add n.kind n.gate) ∧ (supercede z n).range = z.range := by
  obtain ⟨hkind, hgate, href⟩ := h
  have hifc : z.kind.ifc = e.kind.ifc := congrArg Kind.ifc hkind
  rw [supercede, Live.add, hifc]
  split
  · exact ⟨⟨rfl, rfl, href⟩, rfl⟩
  · split
    · exact ⟨⟨hkind, hgate, by simp [href]⟩, rfl⟩
    · exact ⟨⟨hkind, hgate, href⟩, rfl⟩

theorem Bucket.eq_none (hb : Bucket w H s h t) {r : ℕ × ℕ} (hlo : H r.1 ≤ h) (hhi : h ≤ H r.2)
    (hnone : ∀ x ∈ t, x.range ≠ r) : s r = none := by
  cases hs : s r with
  | none => rfl
  | some e =>
    obtain ⟨x, hx, hr⟩ := hb.exists_mem r e hs hlo hhi
    exact absurd hr (hnone x hx)

theorem Bucket.add (k : ℕ) (hb : Bucket w H s h t) (hn : IsPrefix w n.address n.endaddress) (href : n.ref = 1)
    (hlo : H n.address ≤ h) (hhi : h ≤ H n.endaddress) :
    ∃ t', add1route (k + 3) t n = some t' ∧ Bucket w H (s.add n.range n.kind n.gate) h t' := by
  obtain ⟨t', hadd, vt', hmem⟩ := add1route_spec k hb.valid fun x y hx hy => hb.nested hn hx hy
  refine ⟨t', hadd, ?_⟩
  simp only [same_iff] at hmem
  rcases hmem with ⟨z, hz, hzn, hmem⟩ | ⟨hnew, hmem⟩
  · obtain ⟨-, -, -, e, he, his⟩ := hb.live z hz
    obtain ⟨hsup, hrange⟩ := supercede_is his n
    rw [hzn] at he
    apply hb.update hn hlo hhi vt'
    · intro x hx
      rcases (hmem x).mp hx with h | rfl
      · exact .inl h
      · refine .inr ⟨hrange.trans hzn, _, ?_, hsup⟩
        rw [he]
        rfl
    · exact fun x hx hne => (hmem x).mpr (.inl ⟨hx, hne⟩)
    · exact fun _ _ => ⟨_, (hmem _).mpr (.inr rfl), hrange.trans hzn⟩
  · have hnone : s n.range = none := hb.eq_none hlo hhi hnew
    apply hb.update hn hlo hhi vt'
    · intro x hx
      rcases (hmem x).mp hx with h | rfl
      · exact .inl ⟨h, hnew x h⟩
      · refine .inr ⟨rfl, ⟨x.kind, x.gate, 1, Nat.one_pos⟩, ?_, ⟨rfl, rfl, href⟩⟩
        rw [hnone]
        rfl
    · exact fun x hx _ => (hmem x).mpr (.inl hx)
    · exact fun _ _ => ⟨n, (hmem n).mpr (.inr rfl), rfl⟩

theorem Bucket.del (k : ℕ) (hb : Bucket w H s h t) (hn : IsPrefix w n.address n.endaddress)
    (hlo : H n.address ≤ h) (hhi : h ≤ H n.endaddress) :
    ∃ t', del1route (k + 3) t n = some t' ∧ Bucket w H (s.del n.range) h t' := by
  obtain ⟨t', hdel, vt', hmem⟩ := del1route_spec k hb.valid
    (fun x y hx hy => hb.nested hn (.inl hx) (.inl hy)) fun y hy => hb.nested hn (.inr rfl) (.inl hy)
  refine ⟨t', hdel, ?_⟩
  simp only [same_iff] at hmem
  rcases hmem with ⟨z, hz, hzn, hmem⟩ | ⟨hnone, rfl⟩
  · obtain ⟨-, -, -, e, he, hkind, hgate, href⟩ := hb.live z hz
    have hpos := e.pos
    rw [hzn] at he
    have hpred : z.ref - 1 = (e.count - 1 : ℕ) := by omega
    have hzero : z.ref - 1 ≠ 0 ↔ 0 < e.count - 1 := by omega
    apply hb.update hn hlo hhi vt'
    · intro x hx
      rcases (hmem x).mp hx with h | ⟨hne, rfl⟩
      · exact .inl h
      · refine .inr ⟨hzn, ⟨e.kind, e.gate, e.count - 1, hzero.mp hne⟩, ?_, ?_⟩
        · rw [he]
          exact dif_pos (hzero.mp hne)
        · exact ⟨hkind, hgate, hpred⟩
    · exact fun x hx hne => (hmem x).mpr (.inl ⟨hx, hne⟩)
    · intro e' he'
      rw [he] at he'
      by_cases hne : 0 < e.count - 1
      · exact ⟨_, (hmem _).mpr (.inr ⟨hzero.mpr hne, rfl⟩), hzn⟩
      · exact absurd (he'.symm.trans (dif_neg hne)) (by simp)
  · have hs : s n.range = none := hb.eq_none hlo hhi hnone
    rw [Spec.del, hs, Option.bind_none, ← hs, Function.update_eq_self]
    exact hb

end Bucket

section Tables

variable {w : ℕ} {H : ℕ → ℕ} {s : Spec}

theorem mem_upto {h lo hi : ℕ} : h ∈ upto lo hi ↔ lo ≤ h ∧ h ≤ hi := by
  rw [upto, List.mem_range'_1]
  omega

theorem nodup_upto (lo hi : ℕ) : (upto lo hi).Nodup := List.nodup_range'

theorem addbuckets_spec {k : ℕ} {new : ℕ → Route} {P : ℕ → Tree → Prop} {hs : List ℕ} (hnodup : hs.Nodup)
    (root : ℕ → Tree) (nodes : ℕ) (hadd : ∀ h ∈ hs, ∀ i, ∃ t, add1route k (root h) (new i) = some t ∧ P h t) :
    ∃ root' nodes', addbuckets k new hs root nodes = some (root', nodes') ∧ (∀ h ∈ hs, P h (root' h)) ∧
      ∀ h, h ∉ hs → root' h = root h := by
  induction hs generalizing root nodes with
  | nil => exact ⟨root, nodes, rfl, fun h hh => absurd hh List.not_mem_nil, fun h _ => rfl⟩
  | cons h hs ih =>
    obtain ⟨hnot, hnodup⟩ := List.nodup_cons.mp hnodup
    obtain ⟨t, ht, hP⟩ := hadd h List.mem_cons_self nodes
    obtain ⟨root', nodes', hrun, hin, hout⟩ := ih hnodup (Function.update root h t) (nodes + 1)
      fun h' hh' i => by
        have hne : h' ≠ h := fun he => hnot (he ▸ hh')
        rw [Function.update_of_ne hne]
        exact hadd h' (List.mem_cons_of_mem _ hh') i
    refine ⟨root', nodes', ?_, fun h' hh' => ?_, fun h' hh' => ?_⟩
    · simp only [addbuckets, ht, Option.bind_eq_bind, Option.bind_some, hrun]
    · rcases List.mem_cons.mp hh' with rfl | hh'
      · rw [hout h' hnot, Function.update_self]
        exact hP
      · exact hin h' hh'
    · rw [List.mem_cons, not_or] at hh'
      rw [hout h' hh'.2, Function.update_of_ne hh'.1]

theorem delbuckets_spec {k : ℕ} {n : Route} {P : ℕ → Tree → Prop} {hs : List ℕ} (hnodup : hs.Nodup)
    (root : ℕ → Tree) (hdel : ∀ h ∈ hs, ∃ t, del1route k (root h) n = some t ∧ P h t) :
    ∃ root', delbuckets k n hs root = some root' ∧ (∀ h ∈ hs, P h (root' h)) ∧ ∀ h, h ∉ hs → root' h = root h := by
  induction hs generalizing root with
  | nil => exact ⟨root, rfl, fun h hh => absurd hh List.not_mem_nil, fun h _ => rfl⟩
  | cons h hs ih =>
    obtain ⟨hnot, hnodup⟩ := List.nodup_cons.mp hnodup
    obtain ⟨t, ht, hP⟩ := hdel h List.mem_cons_self
    obtain ⟨root', hrun, hin, hout⟩ := ih hnodup (Function.update root h t) fun h' hh' => by
      have hne : h' ≠ h := fun he => hnot (he ▸ hh')
      rw [Function.update_of_ne hne]
      exact hdel h' (List.mem_cons_of_mem _ hh')
    refine ⟨root', ?_, fun h' hh' => ?_, fun h' hh' => ?_⟩
    · simp only [delbuckets, ht, Option.bind_eq_bind, Option.bind_some, hrun]
    · rcases List.mem_cons.mp hh' with rfl | hh'
      · rw [hout h' hnot, Function.update_self]
        exact hP
      · exact hin h' hh'
    · rw [List.mem_cons, not_or] at hh'
      rw [hout h' hh'.2, Function.update_of_ne hh'.1]

/-- A table of live prefixes in all its buckets. -/
structure Table (w : ℕ) (H : ℕ → ℕ) (s : Spec) (root : ℕ → Tree) : Prop where
  isPrefix : ∀ r e, s r = some e → IsPrefix w r.1 r.2
  bucket : ∀ h, Bucket w H s h (root h)

theorem isPrefix_update {r : ℕ × ℕ} (hs : ∀ r e, s r = some e → IsPrefix w r.1 r.2) (hr : IsPrefix w r.1 r.2)
    (o : Option Live) : ∀ r' e, Function.update s r o r' = some e → IsPrefix w r'.1 r'.2 := by
  intro r' e he
  by_cases h : r' = r
  · rw [h]
    exact hr
  · rw [Function.update_of_ne h] at he
    exact hs r' e he

theorem Table.add {root : ℕ → Tree} (ht : Table w H s root) {new : ℕ → Route} {r : ℕ × ℕ} {kind : Kind}
    {gate : List UInt8} (hr : IsPrefix w r.1 r.2)
    (hnew : ∀ i, (new i).range = r ∧ (new i).kind = kind ∧ (new i).gate = gate ∧ (new i).ref = 1) (k nodes : ℕ) :
    ∃ root' nodes', addbuckets (k + 3) new (upto (H r.1) (H r.2)) root nodes = some (root', nodes') ∧
      Table w H (s.add r kind gate) root' := by
  obtain ⟨root', nodes', hrun, hin, hout⟩ := @addbuckets_spec (k + 3) new (Bucket w H (s.add r kind gate))
    (upto (H r.1) (H r.2)) (nodup_upto _ _) root nodes fun h hh i => by
      obtain ⟨hrange, rfl, rfl, href⟩ := hnew i
      obtain ⟨hlo, hhi⟩ := mem_upto.mp hh
      subst hrange
      exact (ht.bucket h).add k hr href hlo hhi
  refine ⟨root', nodes', hrun, isPrefix_update ht.isPrefix hr _, fun h => ?_⟩
  by_cases hh : h ∈ upto (H r.1) (H r.2)
  · exact hin h hh
  · rw [hout h hh]
    exact (ht.bucket h).update_of_not_span (mt mem_upto.mpr hh) _

theorem Table.del {root : ℕ → Tree} (ht : Table w H s root) {n : Route} (hn : IsPrefix w n.address n.endaddress)
    (k : ℕ) : ∃ root', delbuckets (k + 3) n (upto (H n.address) (H n.endaddress)) root = some root' ∧
      Table w H (s.del n.range) root' := by
  obtain ⟨root', hrun, hin, hout⟩ := @delbuckets_spec (k + 3) n (Bucket w H (s.del n.range)) _ (nodup_upto _ _) root
    fun h hh => (ht.bucket h).del k hn (mem_upto.mp hh).1 (mem_upto.mp hh).2
  refine ⟨root', hrun, isPrefix_update ht.isPrefix hn _, fun h => ?_⟩
  by_cases hh : h ∈ upto (H n.address) (H n.endaddress)
  · exact hin h hh
  · rw [hout h hh]
    exact (ht.bucket h).update_of_not_span (mt mem_upto.mpr hh) _

/-- The walk in the bucket of an address. -/
theorem Bucket.walk {h a : ℕ} {t : Tree} (hb : Bucket w H s h t)
    (hspan : ∀ r e, s r = some e → r.1 ≤ a ∧ a ≤ r.2 → H r.1 ≤ h ∧ h ≤ H r.2) :
    Smallest s a (t.walk a none) := by
  by_cases hsome : ∃ z ∈ t, Holds z a
  · obtain ⟨z, hz, hza⟩ := hsome
    obtain ⟨x, hx, hwalk, hxa, hleast⟩ := Tri.walk_some (q := none) hb.valid hz hza
    rw [hwalk]
    refine ⟨(hb.live x hx).2.2.2, hxa, fun r e he hr => ?_⟩
    obtain ⟨hlo, hhi⟩ := hspan r e he hr
    obtain ⟨y, hy, rfl⟩ := hb.exists_mem r e he hlo hhi
    exact hleast y hy hr
  · rw [Tri.walk_none hb.valid fun x hx hxa => hsome ⟨x, hx, hxa⟩]
    intro r e he hr
    obtain ⟨hlo, hhi⟩ := hspan r e he hr
    obtain ⟨y, hy, rfl⟩ := hb.exists_mem r e he hlo hhi
    exact hsome ⟨y, hy, hr⟩

end Tables

section Runs

def bits (a : ℕ) : ℕ := a % 2 ^ 27 / 2 ^ 17

theorem V4H_eq (a : ℕ) : V4H a = bits a := by
  have : a &&& 0x07ffffff = a % 2 ^ 27 := Nat.and_two_pow_sub_one_eq_mod a 27
  rw [V4H, this, Nat.shiftRight_eq_div_pow]
  rfl

theorem V6H_eq (a : ℕ) : V6H a = bits a := by
  have : (longs a).getD 3 0 = a % 2 ^ 32 := rfl
  have hand : a % 2 ^ 32 &&& 0x07ffffff = a % 2 ^ 32 % 2 ^ 27 := Nat.and_two_pow_sub_one_eq_mod _ 27
  have hmod : a % 2 ^ 32 % 2 ^ 27 = a % 2 ^ 27 := Nat.mod_mod_of_dvd a (by decide)
  rw [V6H, this, hand, hmod, Nat.shiftRight_eq_div_pow]
  rfl

/-- The calls that change the tables. -/
inductive Op
  | v4addroute (tag : List UInt8) (a : BitVec 32) (mask : Mask 32) (gate : List UInt8) (kind : Kind)
  | v6addroute (tag : List UInt8) (a : BitVec 128) (mask : Mask 128) (gate : List UInt8) (kind : Kind)
  | v4delroute (a : BitVec 32) (mask : Mask 32)
  | v6delroute (a : BitVec 128) (mask : Mask 128)

def Op.apply (k : ℕ) (f : Fs) : Op → Option Fs
  | .v4addroute tag a mask gate kind => Ip.v4addroute k f tag a mask.bits gate kind
  | .v6addroute tag a mask gate kind => Ip.v6addroute k f tag a mask.bits gate kind
  | .v4delroute a mask => Ip.v4delroute k f a mask.bits
  | .v6delroute a mask => Ip.v6delroute k f a mask.bits

/-- The range of an address and a mask. -/
def maskRange {w : ℕ} (a : BitVec w) (mask : Mask w) : ℕ × ℕ :=
  ((a &&& mask.bits).toNat, (a &&& mask.bits ||| ~~~ mask.bits).toNat)

def Op.spec4 (s : Spec) : Op → Spec
  | .v4addroute _ a mask gate kind => s.add (maskRange a mask) kind gate
  | .v4delroute a mask => s.del (maskRange a mask)
  | _ => s

def Op.spec6 (s : Spec) : Op → Spec
  | .v6addroute _ a mask gate kind => s.add (maskRange a mask) kind gate
  | .v6delroute a mask => s.del (maskRange a mask)
  | _ => s

def Fs.empty : Fs := ⟨fun _ => .nil, fun _ => .nil, 0, 0, 0⟩

def Spec.empty : Spec := fun _ => none

/-- Both tables have the live entries. -/
structure Fs.Refines (f : Fs) (s4 s6 : Spec) : Prop where
  v4 : Table 32 bits s4 f.v4root
  v6 : Table 128 bits s6 f.v6root

theorem Fs.empty_refines : Fs.empty.Refines Spec.empty Spec.empty := by
  have hempty : ∀ w, Table w bits Spec.empty fun _ => .nil := fun w =>
    ⟨(fun r e he => nomatch he), fun h =>
      ⟨trivial, fun x hx => absurd hx (Tri.not_mem_nil x), (fun r e he => nomatch he)⟩⟩
  exact ⟨hempty 32, hempty 128⟩

theorem Op.apply_refines {f : Fs} {s4 s6 : Spec} (hf : f.Refines s4 s6) (k : ℕ) (op : Op) :
    ∃ f', op.apply (k + 3) f = some f' ∧ f'.Refines (op.spec4 s4) (op.spec6 s6) := by
  cases op with
  | v4addroute tag a mask gate kind =>
    obtain ⟨root, nodes, hrun, ht⟩ := @Table.add 32 bits s4 f.v4root hf.v4
      (allocroute (by decide) true tag (a &&& mask.bits) (a &&& mask.bits ||| ~~~ mask.bits)
        (and_le_or a mask.bits) gate kind)
      (maskRange a mask) kind gate (mask.isPrefix a) (fun i => ⟨rfl, rfl, rfl, rfl⟩) k f.nodes
    refine ⟨{ f with v4root := root, nodes := nodes, v4routegeneration := f.v4routegeneration + 1 }, ?_, ht, hf.v6⟩
    rw [apply, Ip.v4addroute, V4H_eq, V4H_eq]
    simp only [maskRange] at hrun
    rw [hrun]
    rfl
  | v6addroute tag a mask gate kind =>
    obtain ⟨root, nodes, hrun, ht⟩ := @Table.add 128 bits s6 f.v6root hf.v6
      (allocroute le_rfl false tag (a &&& mask.bits) (a ||| ~~~ mask.bits) (and_le_or' a mask.bits) gate kind)
      (maskRange a mask) kind gate (mask.isPrefix a)
      (fun i => ⟨congrArg (fun b => ((a &&& mask.bits).toNat, b.toNat)) (Mask.or_not a mask.bits), rfl, rfl, rfl⟩)
      k f.nodes
    refine ⟨{ f with v6root := root, nodes := nodes, v6routegeneration := f.v6routegeneration + 1 }, ?_, hf.v4, ht⟩
    rw [apply, Ip.v6addroute, V6H_eq, V6H_eq]
    simp only [maskRange, ← Mask.or_not] at hrun
    rw [hrun]
    rfl
  | v4delroute a mask =>
    obtain ⟨root, hrun, ht⟩ := @Table.del 32 bits s4 f.v4root hf.v4
      (allocroute (by decide) true [] (a &&& mask.bits) (a &&& mask.bits ||| ~~~ mask.bits)
        (and_le_or a mask.bits) [] noKind 0) (mask.isPrefix a) k
    refine ⟨{ f with v4root := root, v4routegeneration := f.v4routegeneration + 1 }, ?_, ht, hf.v6⟩
    simp only [allocroute] at hrun
    simp only [apply, Ip.v4delroute, V4H_eq, allocroute, hrun]
    rfl
  | v6delroute a mask =>
    have hrange : maskRange a mask = ((a &&& mask.bits).toNat, (a ||| ~~~ mask.bits).toNat) := by
      rw [Mask.or_not]
      rfl
    have hpre := mask.isPrefix a
    rw [← Mask.or_not] at hpre
    obtain ⟨root, hrun, ht⟩ := @Table.del 128 bits s6 f.v6root hf.v6
      (allocroute le_rfl false [] (a &&& mask.bits) (a ||| ~~~ mask.bits) (and_le_or' a mask.bits) [] noKind 0)
      hpre k
    refine ⟨{ f with v6root := root, v6routegeneration := f.v6routegeneration + 1 }, ?_, hf.v4, ?_⟩
    · simp only [allocroute] at hrun
      simp only [apply, Ip.v6delroute, V6H_eq, allocroute, hrun]
      rfl
    · rw [spec6, hrange]
      exact ht

def runOps (k : ℕ) : Fs → List Op → Option Fs
  | f, [] => some f
  | f, op :: ops => (op.apply k f).bind fun f' => runOps k f' ops

theorem runOps_refines {f : Fs} {s4 s6 : Spec} (hf : f.Refines s4 s6) (k : ℕ) (ops : List Op) :
    ∃ f', runOps (k + 3) f ops = some f' ∧ f'.Refines (ops.foldl Op.spec4 s4) (ops.foldl Op.spec6 s6) := by
  induction ops generalizing f s4 s6 with
  | nil => exact ⟨f, rfl, hf⟩
  | cons op ops ih =>
    obtain ⟨f', happly, hf'⟩ := op.apply_refines hf k
    obtain ⟨f'', hrun, hf''⟩ := ih hf'
    refine ⟨f'', ?_, hf''⟩
    rw [runOps, happly]
    exact hrun

/-- The walk of version 6 compares long by long, that of version 4 at once. -/
theorem walk6_eq (a : ℕ) (t : Tree) (q : Option Route) : walk6 a t q = t.walk a q := by
  induction t generalizing q with
  | nil => rfl
  | node d p l m r ihl ihm ihr =>
    have hlt : lcmp (longs a) (longs p.address) < 0 ↔ ¬ lo p ≤ a := (lcmp_longs _ _).1.trans Nat.not_le.symm
    have hgt : lcmp (longs a) (longs p.endaddress) > 0 ↔ ¬ a ≤ hi p := (lcmp_longs _ _).2.1.trans Nat.not_le.symm
    rw [walk6, Tri.walk]
    simp only [hlt, hgt]
    by_cases hlo : lo p ≤ a
    · rw [if_neg (not_not.mpr hlo), if_pos hlo]
      by_cases hhi : a ≤ hi p
      · rw [if_neg (not_not.mpr hhi), if_pos hhi]
        exact ihm _
      · rw [if_pos hhi, if_neg hhi]
        exact ihr q
    · rw [if_pos hlo, if_neg hlo]
      exact ihl q

/-- The ranges with an address in them span its bucket. -/
theorem Table.span {w : ℕ} {s : Spec} {root : ℕ → Tree} (ht : Table w bits s root) {a : ℕ} (r : ℕ × ℕ) (e : Live)
    (he : s r = some e) (ha : r.1 ≤ a ∧ a ≤ r.2) : bits r.1 ≤ bits a ∧ bits a ≤ bits r.2 :=
  (ht.isPrefix r e he).middle ha.1 ha.2

/-- The live entries of a table, the same in all buckets a range spans. -/
def Spread (H : ℕ → ℕ) (s : Spec) (root : ℕ → Tree) : Prop :=
  (∀ r e, s r = some e → ∀ h, H r.1 ≤ h → h ≤ H r.2 → ∃ x ∈ root h, x.range = r ∧ x.Is e) ∧
    ∀ h, ∀ x ∈ root h, (H x.address ≤ h ∧ h ≤ H x.endaddress) ∧ ∃ e, s x.range = some e ∧ x.Is e

theorem Table.spread {w : ℕ} {H : ℕ → ℕ} {s : Spec} {root : ℕ → Tree} (ht : Table w H s root) : Spread H s root := by
  refine ⟨fun r e he h hlo hhi => ?_, fun h x hx => ?_⟩
  · obtain ⟨x, hx, rfl⟩ := (ht.bucket h).exists_mem r e he hlo hhi
    obtain ⟨-, -, -, e', he', his⟩ := (ht.bucket h).live x hx
    obtain rfl : e = e' := Option.some.inj (he.symm.trans he')
    exact ⟨x, hx, rfl, his⟩
  · obtain ⟨-, hlo, hhi, hlive⟩ := (ht.bucket h).live x hx
    exact ⟨⟨hlo, hhi⟩, hlive⟩

/-- After any calls, the walks come to the smallest live range with the address in it. Three turns are enough
for every queue. -/
theorem lookup_smallest (k : ℕ) (ops : List Op) :
    ∃ f, runOps (k + 3) Fs.empty ops = some f ∧
      (∀ a : BitVec 32, Smallest (ops.foldl Op.spec4 Spec.empty) a.toNat (v4walk f a.toNat)) ∧
      (∀ a : BitVec 128, Smallest (ops.foldl Op.spec6 Spec.empty) a.toNat (v6walk f a.toNat)) ∧
      Spread V4H (ops.foldl Op.spec4 Spec.empty) f.v4root ∧ Spread V6H (ops.foldl Op.spec6 Spec.empty) f.v6root := by
  obtain ⟨f, hrun, hf⟩ := runOps_refines Fs.empty_refines k ops
  have h4 : V4H = bits := funext V4H_eq
  have h6 : V6H = bits := funext V6H_eq
  refine ⟨f, hrun, fun a => ?_, fun a => ?_, ?_, ?_⟩
  · rw [v4walk, h4]
    exact (hf.v4.bucket _).walk fun r e => hf.v4.span r e
  · rw [v6walk, h6, walk6_eq]
    exact (hf.v6.bucket _).walk fun r e => hf.v6.span r e
  · rw [h4]
    exact hf.v4.spread
  · rw [h6]
    exact hf.v6.spread

def hostMask : Mask 32 := ⟨0xffffffff, 0, by decide⟩

def ifcKind : Kind := { noKind with ifc := true }

/-- The entry of an interface keeps its gateway. -/
theorem readd_over_ifc :
    ((runOps 3 Fs.empty [.v4addroute [] 0x0a000001 hostMask [10, 0, 0, 1] ifcKind,
      .v4addroute [] 0x0a000001 hostMask [10, 0, 0, 2] noKind]).bind fun f =>
        (v4walk f 0x0a000001).map Route.gate) = some [10, 0, 0, 1] := by
  rfl

end Runs

end Petele.Ip
