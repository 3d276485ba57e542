import Mathlib.Logic.Relation
import Petele.Ip.Lookup

namespace Petele.Ip

open Lib Ranged BigEndian

section System

/-- The calls that change the tables, with any masks; `k` bounds the turns of a queue. -/
inductive Change
  | v4addroute (k : ℕ) (tag : List UInt8) (a mask : BitVec 32) (gate : List UInt8) (kind : Kind)
  | v6addroute (k : ℕ) (tag : List UInt8) (a mask : BitVec 128) (gate : List UInt8) (kind : Kind)
  | v4delroute (k : ℕ) (a mask : BitVec 32)
  | v6delroute (k : ℕ) (a mask : BitVec 128)

def Change.apply (f : Fs) : Change → Option Fs
  | .v4addroute k tag a mask gate kind => Ip.v4addroute k f tag a mask gate kind
  | .v6addroute k tag a mask gate kind => Ip.v6addroute k f tag a mask gate kind
  | .v4delroute k a mask => Ip.v4delroute k f a mask
  | .v6delroute k a mask => Ip.v6delroute k f a mask

/-- The table a call changes. -/
def Change.v4 : Change → Bool
  | .v4addroute .. | .v4delroute .. => true
  | .v6addroute .. | .v6delroute .. => false

variable (ifcs : Interfaces) (a : BitVec 128)

/-- The tables and the cache of a conversation with `a`, which only lookups of `a` use. The generations
are those of all instances of the tables. -/
inductive CacheStep : Fs × Conv → Fs × Conv → Prop
  | change {f f' : Fs} {c : Conv} (op : Change) (h : op.apply f = some f') : CacheStep (f, c) (f', c)
  | elsewhere4 {f : Fs} {c : Conv} :
      CacheStep (f, c) ({ f with v4routegeneration := f.v4routegeneration + 1 }, c)
  | elsewhere6 {f : Fs} {c : Conv} :
      CacheStep (f, c) ({ f with v6routegeneration := f.v6routegeneration + 1 }, c)
  | other4 {f f' : Fs} {c : Conv} {q : Option Ptr} {o o' : Option Conv} (junk : Ptr → Route) (k : ℕ) (b : BitVec 32)
      (h : v4lookup ifcs junk k f b o = some (q, f', o')) : CacheStep (f, c) (f', c)
  | other6 {f f' : Fs} {c : Conv} {q : Option Ptr} {o o' : Option Conv} (junk : Ptr → Route) (k : ℕ) (b : BitVec 128)
      (h : v6lookup ifcs junk k f b o = some (q, f', o')) : CacheStep (f, c) (f', c)
  | lookup4 {f f' : Fs} {c c' : Conv} {q : Option Ptr} (junk : Ptr → Route) (k : ℕ) (ha : mapped a)
      (h : v4lookup ifcs junk k f (a.setWidth 32) (some c) = some (q, f', some c')) : CacheStep (f, c) (f', c')
  | lookup6 {f f' : Fs} {c c' : Conv} {q : Option Ptr} (junk : Ptr → Route) (k : ℕ)
      (h : v6lookup ifcs junk k f a (some c) = some (q, f', some c')) : CacheStep (f, c) (f', c')

/-- What a run comes to. -/
def CacheReaches (f : Fs) (c : Conv) : Prop :=
  Relation.ReflTransGen (CacheStep ifcs a) (Fs.empty, ⟨none, 0⟩) (f, c)

/-- Routes with the same range, type and gateway. -/
def SameRoute (junk : Ptr → Route) (f : Fs) : Option Ptr → Option Ptr → Prop :=
  Option.Rel fun p p' =>
    (deref junk f p).range = (deref junk f p').range ∧ (deref junk f p).v4 = (deref junk f p').v4 ∧
      (deref junk f p).kind = (deref junk f p').kind ∧ (deref junk f p).gate = (deref junk f p').gate

/-- A lookup with the cache returns if, and as, one without it does. -/
structure CacheCoherent (junk : Ptr → Route) (f : Fs) (c : Conv) : Prop where
  same : ∀ k q s, v6lookup ifcs junk k f a (some c) = some (q, s) →
    ∃ k' q' s', v6lookup ifcs junk k' f a none = some (q', s') ∧ SameRoute junk f q q'
  returns : ∀ k q' s', v6lookup ifcs junk k f a none = some (q', s') →
    ∃ k' q s, v6lookup ifcs junk k' f a (some c) = some (q, s)

/-- The cached route is of a table and its generation that of the table. -/
def Conv.Fresh (f : Fs) (v4 : Bool) (c : Conv) : Prop :=
  ∃ p, c.r = some p ∧ p.v4 = v4 ∧ c.rgen = f.generation v4

/-- The tests that a lookup makes of the cache succeed on fresh routes only. The table of version 6 is
looked in after that of version 4 leaves the cache as it is. -/
structure Trusted (junk : Ptr → Route) (f : Fs) (c : Conv) : Prop where
  v4 : mapped a → (hit junk f true (some c)).isSome → c.Fresh f true
  v6 : (mapped a → hit junk f true (some c) = none ∧ ∃ k, v4find ifcs f k (a.setWidth 32).toNat = some .stuck) →
    (hit junk f false (some c)).isSome → c.Fresh f false

end System

section Alike

variable (ifcs : Interfaces)

/-- Nodes that a lookup does not tell apart. -/
structure AlikeNode (v4 : Bool) (x y : Route) : Prop where
  node : x.node = y.node
  address : x.address = y.address
  endaddress : x.endaddress = y.endaddress
  gate : x.gate = y.gate
  ifc : (ifcof ifcs v4 x).isSome = (ifcof ifcs v4 y).isSome

/-- Tables that a lookup does not tell apart. -/
structure Alike (f f' : Fs) : Prop where
  v4 : ∀ la, Option.Rel (AlikeNode ifcs true) ((f.v4root (V4H la)).walk la none) ((f'.v4root (V4H la)).walk la none)
  v6 : ∀ la, Option.Rel (AlikeNode ifcs false) (walk6 la (f.v6root (V6H la)) none)
    (walk6 la (f'.v6root (V6H la)) none)
  generation : ∀ v4, f.generation v4 = f'.generation v4

variable {ifcs}

theorem AlikeNode.refl (v4 : Bool) (x : Route) : AlikeNode ifcs v4 x x := ⟨rfl, rfl, rfl, rfl, rfl⟩

theorem rel_refl (v4 : Bool) (o : Option Route) : Option.Rel (AlikeNode ifcs v4) o o := by
  cases o with
  | none => exact .none
  | some x => exact .some (AlikeNode.refl v4 x)

theorem Alike.refl (f : Fs) : Alike ifcs f f := ⟨fun _ => rel_refl _ _, fun _ => rel_refl _ _, fun _ => rfl⟩

theorem Alike.trans {f f' f'' : Fs} (h : Alike ifcs f f') (h' : Alike ifcs f' f'') : Alike ifcs f f'' := by
  have htrans : ∀ {v4} {o o' o'' : Option Route}, Option.Rel (AlikeNode ifcs v4) o o' →
      Option.Rel (AlikeNode ifcs v4) o' o'' → Option.Rel (AlikeNode ifcs v4) o o'' := by
    intro v4 o o' o'' h h'
    cases h with
    | none => exact h'
    | some h =>
      cases h' with
      | some h' =>
        exact .some ⟨h.node.trans h'.node, h.address.trans h'.address, h.endaddress.trans h'.endaddress,
          h.gate.trans h'.gate, h.ifc.trans h'.ifc⟩
  exact ⟨fun la => htrans (h.v4 la) (h'.v4 la), fun la => htrans (h.v6 la) (h'.v6 la),
    fun v4 => (h.generation v4).trans (h'.generation v4)⟩

theorem alike_setifc {v4 : Bool} {x : Route} {ifc : Ipifc} (h : ifcof ifcs v4 x = some ifc) :
    AlikeNode ifcs v4 x (setifc ifc x) := by
  refine ⟨rfl, rfl, rfl, rfl, ?_⟩
  rw [h, ifcof, setifc]
  simp

/-- A route found in one of two alike tables is found in the other. -/
theorem Alike.v4find {f f' : Fs} (h : Alike ifcs f f') (k la : ℕ) :
    (v4find ifcs f k la).map (Found.ptr true) = (v4find ifcs f' k la).map (Found.ptr true) := by
  induction k generalizing la with
  | zero => rfl
  | succ k ih =>
    have hwalk := h.v4 la
    rw [Ip.v4find, Ip.v4find]
    generalize (f.v4root (V4H la)).walk la none = o at hwalk
    generalize (f'.v4root (V4H la)).walk la none = o' at hwalk
    cases hwalk with
    | none => rfl
    | some hq =>
      rename_i q q'
      obtain ⟨hnode, haddress, hend, hgate, hifc⟩ := hq
      simp only [haddress, hend, hgate]
      cases hx : ifcof ifcs true q with
      | none =>
        rw [hx] at hifc
        rw [Option.isSome_eq_false_iff.mp hifc.symm |> Option.isNone_iff_eq_none.mp]
        simp only
        split
        · exact ih _
        · rfl
      | some ifc =>
        rw [hx] at hifc
        obtain ⟨ifc', hx'⟩ := Option.isSome_iff_exists.mp hifc.symm
        rw [hx']
        simp [Found.ptr, hnode]

theorem Alike.v6find {f f' : Fs} (h : Alike ifcs f f') (la : ℕ) :
    (v6find ifcs f la).ptr false = (v6find ifcs f' la).ptr false := by
  have hwalk := h.v6 la
  rw [Ip.v6find, Ip.v6find]
  generalize walk6 la (f.v6root (V6H la)) none = o at hwalk
  generalize walk6 la (f'.v6root (V6H la)) none = o' at hwalk
  cases hwalk with
  | none => rfl
  | some hq =>
    rename_i q q'
    obtain ⟨hnode, -, -, -, hifc⟩ := hq
    cases hx : ifcof ifcs false q with
    | none =>
      rw [hx] at hifc
      have hx' : ifcof ifcs false q' = none := by simpa using hifc
      simp only [hx, hx']
    | some ifc =>
      rw [hx] at hifc
      obtain ⟨ifc', hx'⟩ := Option.isSome_iff_exists.mp hifc.symm
      simp only [hx, hx', Found.ptr, hnode]

theorem v4find_route {f : Fs} {k la la' : ℕ} {q : Route} {ifc : Ipifc}
    (h : v4find ifcs f k la = some (.route la' q ifc)) :
    (f.v4root (V4H la')).walk la' none = some q ∧ ifcof ifcs true q = some ifc := by
  induction k generalizing la with
  | zero => exact nomatch h
  | succ k ih =>
    rw [Ip.v4find] at h
    cases hwalk : (f.v4root (V4H la)).walk la none with
    | none =>
      rw [hwalk] at h
      exact nomatch h
    | some x =>
      simp only [hwalk] at h
      cases hx : ifcof ifcs true x with
      | none =>
        simp only [hx] at h
        split at h
        · exact ih h
        · exact nomatch h
      | some i =>
        simp only [hx, Option.some.injEq, Found.route.injEq] at h
        obtain ⟨rfl, rfl, rfl⟩ := h
        exact ⟨hwalk, hx⟩

theorem v6find_route {f : Fs} {la la' : ℕ} {q : Route} {ifc : Ipifc} (h : v6find ifcs f la = .route la' q ifc) :
    walk6 la' (f.v6root (V6H la')) none = some q ∧ ifcof ifcs false q = some ifc := by
  rw [Ip.v6find] at h
  cases hwalk : walk6 la (f.v6root (V6H la)) none with
  | none =>
    rw [hwalk] at h
    exact nomatch h
  | some x =>
    simp only [hwalk] at h
    cases hx : ifcof ifcs false x with
    | none =>
      simp only [hx] at h
      exact nomatch h
    | some i =>
      simp only [hx, Found.route.injEq] at h
      obtain ⟨rfl, rfl, rfl⟩ := h
      exact ⟨hwalk, hx⟩

/-- A bucket after the node of a route got its interface. -/
theorem walk_settle {v4 : Bool} {root : ℕ → Tree} {H : ℕ → ℕ} {la : ℕ} {q : Route} {ifc : Ipifc}
    (hwalk : (root (H la)).walk la none = some q) (hifc : ifcof ifcs v4 q = some ifc) (b : ℕ) :
    Option.Rel (AlikeNode ifcs v4) ((root (H b)).walk b none)
      ((Function.update root (H la) ((root (H la)).modify la (setifc ifc)) (H b)).walk b none) := by
  by_cases hb : H b = H la
  · rw [hb, Function.update_self]
    refine Tri.walk_modify (fun x => ?_) (AlikeNode.refl v4) (fun x hx => ?_) .none
    · exact ⟨rfl, rfl⟩
    · obtain rfl : q = x := Option.some.inj (hwalk.symm.trans hx)
      exact alike_setifc hifc
  · rw [Function.update_of_ne hb]
    exact rel_refl v4 _

theorem alike_finish4 {f : Fs} {k la : ℕ} {F : Found} (h : v4find ifcs f k la = some F) (o : Option Conv) :
    Alike ifcs f (finish true f o F).2.1 := by
  cases F with
  | nil => exact Alike.refl f
  | stuck => exact Alike.refl f
  | route la q ifc =>
    obtain ⟨hwalk, hifc⟩ := v4find_route h
    exact ⟨walk_settle hwalk hifc, fun _ => rel_refl _ _, fun v4 => by cases v4 <;> rfl⟩

theorem alike_finish6 (f : Fs) (la : ℕ) (o : Option Conv) :
    Alike ifcs f (finish false f o (v6find ifcs f la)).2.1 := by
  cases h : v6find ifcs f la with
  | nil => exact Alike.refl f
  | stuck => exact Alike.refl f
  | route la q ifc =>
    obtain ⟨hwalk, hifc⟩ := v6find_route h
    rw [walk6_eq] at hwalk
    refine ⟨fun _ => rel_refl _ _, fun b => ?_, fun v4 => by cases v4 <;> rfl⟩
    rw [walk6_eq, walk6_eq]
    exact walk_settle hwalk hifc b

theorem finish_fst (v4 : Bool) (f : Fs) (o : Option Conv) (F : Found) : (finish v4 f o F).1 = F.ptr v4 := by
  cases F with
  | nil => rfl
  | stuck => rfl
  | route la q ifc => rfl

/-- The cache after a search. -/
theorem finish_conv {v4 : Bool} {f : Fs} {c c' : Conv} {F : Found} (h : (finish v4 f (some c) F).2.2 = some c') :
    c' = c ∨ c' = ⟨F.ptr v4, f.generation v4⟩ := by
  cases F with
  | nil => exact .inr (Option.some.inj h).symm
  | stuck => exact .inl (Option.some.inj h).symm
  | route la q ifc => exact .inr (Option.some.inj h).symm

theorem ptr_v4 {v4 : Bool} {F : Found} {p : Ptr} (h : F.ptr v4 = some p) : p.v4 = v4 := by
  cases F with
  | nil => exact nomatch h
  | stuck => exact nomatch h
  | route la q ifc =>
    obtain rfl := Option.some.inj h
    rfl

end Alike

section Invariant

variable {ifcs : Interfaces} {a : BitVec 128} {junk : Ptr → Route}

/-- The search for `a` in a table. -/
def finds (ifcs : Interfaces) (a : BitVec 128) (f : Fs) (p : Ptr) : Prop :=
  if p.v4 then ∃ k, (v4find ifcs f k (a.setWidth 32).toNat).map (Found.ptr true) = some (some p)
  else (v6find ifcs f a.toNat).ptr false = some p

/-- As long as the table of the cached route is the same, a search finds the route. -/
def CacheInv (ifcs : Interfaces) (a : BitVec 128) (f : Fs) (c : Conv) : Prop :=
  ∀ p, c.r = some p → c.rgen ≤ f.generation p.v4 ∧ (c.rgen = f.generation p.v4 → finds ifcs a f p)

theorem Alike.finds {f f' : Fs} (h : Alike ifcs f f') {p : Ptr} (hp : finds ifcs a f p) : finds ifcs a f' p := by
  unfold Ip.finds at *
  simpa only [h.v4find, h.v6find] using hp

theorem Alike.cacheInv {f f' : Fs} (h : Alike ifcs f f') {c : Conv} (hc : CacheInv ifcs a f c) :
    CacheInv ifcs a f' c := by
  intro p hp
  obtain ⟨hle, hfinds⟩ := hc p hp
  rw [← h.generation]
  exact ⟨hle, fun he => h.finds (hfinds he)⟩

/-- What a lookup in the table of version 4 does. -/
theorem v4lookup_cases {f : Fs} {k : ℕ} {b : BitVec 32} {o : Option Conv} {s : Option Ptr × Fs × Option Conv}
    (h : v4lookup ifcs junk k f b o = some s) :
    (∃ p, hit junk f true o = some p ∧ s = (some p, f, o)) ∨
      hit junk f true o = none ∧ ∃ F, v4find ifcs f k b.toNat = some F ∧ s = finish true f o F := by
  rw [v4lookup] at h
  cases hhit : hit junk f true o with
  | some p =>
    simp only [hhit, Option.some.injEq] at h
    exact .inl ⟨p, rfl, h.symm⟩
  | none =>
    simp only [hhit, Option.map_eq_some_iff] at h
    obtain ⟨F, hF, rfl⟩ := h
    exact .inr ⟨rfl, F, hF, rfl⟩

theorem v4lookup_alike {f : Fs} {k : ℕ} {b : BitVec 32} {o : Option Conv} {s : Option Ptr × Fs × Option Conv}
    (h : v4lookup ifcs junk k f b o = some s) : Alike ifcs f s.2.1 := by
  obtain ⟨p, -, rfl⟩ | ⟨-, F, hF, rfl⟩ := v4lookup_cases h
  · exact Alike.refl f
  · exact alike_finish4 hF o

theorem v6lookup6_alike (f : Fs) (b : BitVec 128) (o : Option Conv) :
    Alike ifcs f (v6lookup6 ifcs junk f b o).2.1 := by
  rw [v6lookup6]
  split
  · exact Alike.refl f
  · exact alike_finish6 f b.toNat o

theorem finish_cacheInv {v4 : Bool} {f : Fs} {c c' : Conv} {F : Found} (hc : CacheInv ifcs a f c)
    (halike : Alike ifcs f (finish v4 f (some c) F).2.1) (hfinds : ∀ p, F.ptr v4 = some p → finds ifcs a f p)
    (h : (finish v4 f (some c) F).2.2 = some c') : CacheInv ifcs a (finish v4 f (some c) F).2.1 c' := by
  refine halike.cacheInv ?_
  rcases finish_conv h with rfl | rfl
  · exact hc
  · intro p hp
    rw [ptr_v4 hp]
    exact ⟨le_rfl, fun _ => hfinds p hp⟩

theorem v4lookup_cacheInv {f : Fs} {k : ℕ} {c c' : Conv} {s : Option Ptr × Fs × Option Conv}
    (hc : CacheInv ifcs a f c) (h : v4lookup ifcs junk k f (a.setWidth 32) (some c) = some s)
    (hs : s.2.2 = some c') : CacheInv ifcs a s.2.1 c' := by
  obtain ⟨p, -, rfl⟩ | ⟨-, F, hF, rfl⟩ := v4lookup_cases h
  · obtain rfl := Option.some.inj hs
    exact hc
  · refine finish_cacheInv hc (alike_finish4 hF _) (fun p hp => ?_) hs
    rw [finds, ptr_v4 hp, if_pos rfl]
    exact ⟨k, by rw [hF, Option.map_some, hp]⟩

theorem v6lookup6_cacheInv {f : Fs} {c c' : Conv} (hc : CacheInv ifcs a f c)
    (h : (v6lookup6 ifcs junk f a (some c)).2.2 = some c') :
    CacheInv ifcs a (v6lookup6 ifcs junk f a (some c)).2.1 c' := by
  rw [v6lookup6] at h ⊢
  cases hhit : hit junk f false (some c) with
  | some p =>
    rw [hhit] at h
    obtain rfl := Option.some.inj h
    exact hc
  | none =>
    rw [hhit] at h
    refine finish_cacheInv hc (alike_finish6 f _ _) (fun p hp => ?_) h
    rw [finds, ptr_v4 hp]
    exact hp

/-- What a lookup does in the two tables. -/
theorem v6lookup_cases {f : Fs} {k : ℕ} {b : BitVec 128} {o : Option Conv} {s : Option Ptr × Fs × Option Conv}
    (h : v6lookup ifcs junk k f b o = some s) :
    (∃ p f' o', mapped b ∧ v4lookup ifcs junk k f (b.setWidth 32) o = some (some p, f', o') ∧ s = (some p, f', o')) ∨
    (∃ f' o', mapped b ∧ v4lookup ifcs junk k f (b.setWidth 32) o = some (none, f', o') ∧
      s = v6lookup6 ifcs junk f' b o') ∨
    ¬ mapped b ∧ s = v6lookup6 ifcs junk f b o := by
  rw [v6lookup] at h
  by_cases hb : mapped b
  · rw [if_pos hb] at h
    cases hv4 : v4lookup ifcs junk k f (b.setWidth 32) o with
    | none =>
      rw [hv4] at h
      exact nomatch h
    | some s4 =>
      obtain ⟨q, f', o'⟩ := s4
      rw [hv4] at h
      cases q with
      | some p => exact .inl ⟨p, f', o', hb, rfl, (Option.some.inj h).symm⟩
      | none => exact .inr (.inl ⟨f', o', hb, rfl, (Option.some.inj h).symm⟩)
  · rw [if_neg hb] at h
    exact .inr (.inr ⟨hb, (Option.some.inj h).symm⟩)

theorem v6lookup_alike {f : Fs} {k : ℕ} {b : BitVec 128} {o : Option Conv} {s : Option Ptr × Fs × Option Conv}
    (h : v6lookup ifcs junk k f b o = some s) : Alike ifcs f s.2.1 := by
  obtain ⟨p, f', o', -, hv4, rfl⟩ | ⟨f', o', -, hv4, rfl⟩ | ⟨-, rfl⟩ := v6lookup_cases h
  · exact v4lookup_alike hv4
  · exact (v4lookup_alike hv4).trans (v6lookup6_alike f' b o')
  · exact v6lookup6_alike f b o

/-- A conversation stays one. -/
theorem v4lookup_conv {f f' : Fs} {k : ℕ} {b : BitVec 32} {c : Conv} {q : Option Ptr} {o' : Option Conv}
    (h : v4lookup ifcs junk k f b (some c) = some (q, f', o')) : ∃ c', o' = some c' := by
  obtain ⟨p, -, hs⟩ | ⟨-, F, -, hs⟩ := v4lookup_cases h
  · exact ⟨c, congrArg (·.2.2) hs⟩
  · have ho : o' = (finish true f (some c) F).2.2 := congrArg (·.2.2) hs
    cases F with
    | nil => exact ⟨_, ho⟩
    | stuck => exact ⟨_, ho⟩
    | route la q ifc => exact ⟨_, ho⟩

theorem v6lookup_cacheInv {f : Fs} {k : ℕ} {c c' : Conv} {s : Option Ptr × Fs × Option Conv}
    (hc : CacheInv ifcs a f c) (h : v6lookup ifcs junk k f a (some c) = some s) (hs : s.2.2 = some c') :
    CacheInv ifcs a s.2.1 c' := by
  obtain ⟨p, f', o', -, hv4, rfl⟩ | ⟨f', o', -, hv4, rfl⟩ | ⟨-, rfl⟩ := v6lookup_cases h
  · exact v4lookup_cacheInv hc hv4 hs
  · obtain ⟨c1, rfl⟩ := v4lookup_conv hv4
    exact v6lookup6_cacheInv (v4lookup_cacheInv hc hv4 rfl) hs
  · exact v6lookup6_cacheInv hc hs

/-- A call changes one table and its generation. -/
theorem Change.apply_frame {f f' : Fs} {op : Change} (h : op.apply f = some f') :
    f'.generation op.v4 = f.generation op.v4 + 1 ∧
      f'.generation (!op.v4) = f.generation (!op.v4) ∧ f'.root (!op.v4) = f.root (!op.v4) := by
  cases op with
  | v4addroute k tag a mask gate kind =>
    obtain ⟨s, -, hs⟩ := Option.bind_eq_some_iff.mp h
    obtain rfl := Option.some.inj hs
    exact ⟨rfl, rfl, rfl⟩
  | v6addroute k tag a mask gate kind =>
    obtain ⟨s, -, hs⟩ := Option.bind_eq_some_iff.mp h
    obtain rfl := Option.some.inj hs
    exact ⟨rfl, rfl, rfl⟩
  | v4delroute k a mask =>
    obtain ⟨s, -, hs⟩ := Option.bind_eq_some_iff.mp h
    obtain rfl := Option.some.inj hs
    exact ⟨rfl, rfl, rfl⟩
  | v6delroute k a mask =>
    obtain ⟨s, -, hs⟩ := Option.bind_eq_some_iff.mp h
    obtain rfl := Option.some.inj hs
    exact ⟨rfl, rfl, rfl⟩

/-- The search in a table looks at nothing else. -/
theorem finds_congr {f f' : Fs} {p : Ptr} (h : f'.root p.v4 = f.root p.v4) :
    finds ifcs a f' p ↔ finds ifcs a f p := by
  have hv4 : f'.v4root = f.v4root → ∀ k la, v4find ifcs f' k la = v4find ifcs f k la := fun hr k => by
    induction k with
    | zero => exact fun la => rfl
    | succ k ih =>
      intro la
      simp only [v4find, hr, ih]
  unfold finds
  cases hp : p.v4 with
  | true =>
    rw [hp] at h
    rw [if_pos rfl, if_pos rfl]
    simp only [hv4 h]
  | false =>
    rw [hp] at h
    have hr : f'.v6root = f.v6root := h
    rw [if_neg Bool.false_ne_true, if_neg Bool.false_ne_true]
    simp only [v6find, hr]

/-- A change of a table, here or in another instance. -/
theorem CacheInv.change {f f' : Fs} {c : Conv} (hc : CacheInv ifcs a f c) (v4 : Bool)
    (hgen : f'.generation v4 = f.generation v4 + 1) (hgen' : f'.generation (!v4) = f.generation (!v4))
    (hroot : f'.root (!v4) = f.root (!v4)) : CacheInv ifcs a f' c := by
  intro p hp
  obtain ⟨hle, hfinds⟩ := hc p hp
  by_cases hv4 : p.v4 = v4
  · rw [hv4] at hle ⊢
    exact ⟨by omega, fun he => absurd he (by omega)⟩
  · have hnot : p.v4 = !v4 := Bool.eq_not.mpr hv4
    rw [hnot] at hle hfinds ⊢
    rw [hgen']
    exact ⟨hle, fun he => (finds_congr (hnot ▸ hroot)).mpr (hfinds he)⟩

theorem CacheStep.cacheInv {s s' : Fs × Conv} (h : CacheStep ifcs a s s') (hs : CacheInv ifcs a s.1 s.2) :
    CacheInv ifcs a s'.1 s'.2 := by
  cases h with
  | change op h =>
    obtain ⟨hgen, hgen', hroot⟩ := op.apply_frame h
    exact CacheInv.change hs op.v4 hgen hgen' hroot
  | elsewhere4 => exact CacheInv.change hs true rfl rfl rfl
  | elsewhere6 => exact CacheInv.change hs false rfl rfl rfl
  | other4 junk k b h => exact (v4lookup_alike h).cacheInv hs
  | other6 junk k b h => exact (v6lookup_alike h).cacheInv hs
  | lookup4 junk k ha h => exact v4lookup_cacheInv hs h rfl
  | lookup6 junk k h => exact v6lookup_cacheInv hs h rfl

theorem CacheReaches.cacheInv {f : Fs} {c : Conv} (h : CacheReaches ifcs a f c) : CacheInv ifcs a f c := by
  have hrun : ∀ s, Relation.ReflTransGen (CacheStep ifcs a) (Fs.empty, ⟨none, 0⟩) s → CacheInv ifcs a s.1 s.2 := by
    intro s hs
    induction hs with
    | refl => exact fun p hp => nomatch hp
    | tail _ hstep ih => exact hstep.cacheInv ih
  exact hrun (f, c) h

end Invariant

section Coherent

variable {ifcs : Interfaces} {a : BitVec 128} {junk : Ptr → Route} {f : Fs} {c : Conv}

theorem hit_eq {v4 : Bool} {p : Ptr} (h : hit junk f v4 (some c) = some p) : c.r = some p := by
  obtain ⟨p', hp, h⟩ := Option.bind_eq_some_iff.mp h
  split at h
  · rw [hp, ← Option.some.inj h]
  · exact nomatch h

/-- A search finds the route of a test that may succeed. -/
theorem finds_of_hit {v4 : Bool} {p : Ptr} (hc : CacheInv ifcs a f c) (hhit : hit junk f v4 (some c) = some p)
    (hfresh : (hit junk f v4 (some c)).isSome → c.Fresh f v4) : p.v4 = v4 ∧ finds ifcs a f p := by
  obtain ⟨p', hp', hv4, hgen⟩ := hfresh (hhit ▸ rfl)
  obtain rfl : p' = p := Option.some.inj (hp'.symm.trans (hit_eq hhit))
  rw [← hv4] at hgen
  exact ⟨hv4, (hc p' hp').2 hgen⟩

theorem v6lookup6_none : (v6lookup6 ifcs junk f a none).1 = (v6find ifcs f a.toNat).ptr false :=
  finish_fst false f none _

theorem v6lookup6_fst (hc : CacheInv ifcs a f c) (hfresh : (hit junk f false (some c)).isSome → c.Fresh f false) :
    (v6lookup6 ifcs junk f a (some c)).1 = (v6find ifcs f a.toNat).ptr false := by
  rw [v6lookup6]
  cases hhit : hit junk f false (some c) with
  | none => exact finish_fst false f (some c) _
  | some p =>
    obtain ⟨hv4, hfinds⟩ := finds_of_hit hc hhit hfresh
    rw [finds, hv4, if_neg Bool.false_ne_true] at hfinds
    exact hfinds.symm

theorem SameRoute.refl (q : Option Ptr) : SameRoute junk f q q := by
  cases q with
  | none => exact .none
  | some p => exact .some ⟨rfl, rfl, rfl, rfl⟩

theorem v4lookup_none {k : ℕ} {b : BitVec 32} {F : Found} (h : v4find ifcs f k b.toNat = some F) :
    v4lookup ifcs junk k f b none = some (finish true f none F) := by
  have hhit : hit junk f true none = none := rfl
  rw [v4lookup, hhit, h]
  rfl

/-- A search that finds a route of version 4 ends the lookup. -/
theorem v6lookup_none_route (ha : mapped a) {k : ℕ} {F : Found} {p : Ptr}
    (h : v4find ifcs f k (a.setWidth 32).toNat = some F) (hp : F.ptr true = some p) :
    ∃ s, v6lookup ifcs junk k f a none = some (some p, s) := by
  refine ⟨(finish true f none F).2, ?_⟩
  rw [v6lookup, if_pos ha, v4lookup_none h]
  have hfst := (finish_fst true f none F).trans hp
  rw [← hfst]
  generalize finish true f none F = s at hfst
  obtain ⟨q, s⟩ := s
  obtain rfl : q = some p := hfst
  rfl

/-- What the search in the table of version 4 leaves if it finds no route. -/
theorem finish_none {F : Found} (hF : F.ptr true = none) (o : Option Conv) :
    finish true f o F = (none, f, o) ∧ F = .stuck ∨
      finish true f o F = (none, f, o.map fun _ => ⟨none, f.generation true⟩) := by
  cases F with
  | nil => exact .inr rfl
  | stuck => exact .inl ⟨rfl, rfl⟩
  | route la q ifc => exact nomatch hF

theorem v6lookup_none_rest (ha : mapped a) {k : ℕ} {F : Found}
    (h : v4find ifcs f k (a.setWidth 32).toNat = some F) (hF : F.ptr true = none) :
    v6lookup ifcs junk k f a none = some (v6lookup6 ifcs junk f a none) := by
  rw [v6lookup, if_pos ha, v4lookup_none h]
  obtain ⟨hfin, -⟩ | hfin := finish_none (f := f) hF none
  · rw [hfin]
  · rw [hfin]
    rfl

theorem v6lookup_returns {k : ℕ} {o : Option Conv}
    (h : mapped a → ∃ s, v4lookup ifcs junk k f (a.setWidth 32) o = some s) :
    ∃ q s, v6lookup ifcs junk k f a o = some (q, s) := by
  rw [v6lookup]
  by_cases ha : mapped a
  · obtain ⟨⟨q, f', o'⟩, hs⟩ := h ha
    rw [if_pos ha, hs]
    cases q with
    | none => exact ⟨_, _, rfl⟩
    | some p => exact ⟨_, _, rfl⟩
  · rw [if_neg ha]
    exact ⟨_, _, rfl⟩

/-- The search that a lookup without the cache makes. -/
theorem v4find_of_returns {k : ℕ} {s : Option Ptr × Fs × Option Conv} (ha : mapped a)
    (h : v6lookup ifcs junk k f a none = some s) : ∃ F, v4find ifcs f k (a.setWidth 32).toNat = some F := by
  have hv4 : ∃ s4, v4lookup ifcs junk k f (a.setWidth 32) none = some s4 := by
    obtain ⟨p, f', o', -, hv4, -⟩ | ⟨f', o', -, hv4, -⟩ | ⟨ha', -⟩ := v6lookup_cases h
    · exact ⟨_, hv4⟩
    · exact ⟨_, hv4⟩
    · exact absurd ha ha'
  obtain ⟨s4, hv4⟩ := hv4
  obtain ⟨p, hhit, -⟩ | ⟨-, F, hF, -⟩ := v4lookup_cases hv4
  · exact nomatch hhit
  · exact ⟨F, hF⟩

/-- As long as the tests of the cache succeed on fresh routes only, a lookup with it is as one without. -/
theorem cache_coherent (hr : CacheReaches ifcs a f c) (ht : Trusted ifcs a junk f c) :
    CacheCoherent ifcs a junk f c := by
  have hc := hr.cacheInv
  refine ⟨fun k q s h => ?_, fun k q' s' h => ?_⟩
  · obtain ⟨p, f', o', ha, hv4, hs⟩ | ⟨f', o', ha, hv4, hs⟩ | ⟨ha, hs⟩ := v6lookup_cases h
    · obtain rfl : q = some p := congrArg Prod.fst hs
      obtain ⟨p', hhit, hs'⟩ | ⟨-, F, hF, hs'⟩ := v4lookup_cases hv4
      · obtain rfl : p = p' := Option.some.inj (congrArg Prod.fst hs')
        obtain ⟨hpv4, hfinds⟩ := finds_of_hit hc hhit (ht.v4 ha)
        rw [finds, hpv4, if_pos rfl] at hfinds
        obtain ⟨k', hk'⟩ := hfinds
        obtain ⟨F, hF, hptr⟩ := Option.map_eq_some_iff.mp hk'
        obtain ⟨s', hs'⟩ := v6lookup_none_route ha hF hptr
        exact ⟨k', _, s', hs', SameRoute.refl _⟩
      · have hptr : F.ptr true = some p := (finish_fst true f (some c) F).symm.trans (congrArg Prod.fst hs').symm
        obtain ⟨s', hs'⟩ := v6lookup_none_route ha hF hptr
        exact ⟨k, _, s', hs', SameRoute.refl _⟩
    · obtain ⟨p', -, hs'⟩ | ⟨hhit, F, hF, hs'⟩ := v4lookup_cases hv4
      · exact nomatch congrArg Prod.fst hs'
      have hptr : F.ptr true = none := (finish_fst true f (some c) F).symm.trans (congrArg Prod.fst hs').symm
      refine ⟨k, _, _, v6lookup_none_rest ha hF hptr, ?_⟩
      have hq : q = (v6lookup6 ifcs junk f a none).1 := by
        obtain rfl : q = (v6lookup6 ifcs junk f' a o').1 := congrArg Prod.fst hs
        rw [v6lookup6_none]
        obtain ⟨hfin, rfl⟩ | hfin := finish_none (f := f) hptr (some c)
        · rw [hfin, Prod.mk.injEq, Prod.mk.injEq] at hs'
          obtain ⟨-, rfl, rfl⟩ := hs'
          exact v6lookup6_fst hc (ht.v6 fun _ => ⟨hhit, k, hF⟩)
        · rw [hfin, Prod.mk.injEq, Prod.mk.injEq] at hs'
          obtain ⟨-, rfl, rfl⟩ := hs'
          exact finish_fst false f' _ _
      rw [hq]
      exact SameRoute.refl _
    · refine ⟨0, _, _, if_neg ha, ?_⟩
      have hq : q = (v6lookup6 ifcs junk f a none).1 := by
        obtain rfl : q = (v6lookup6 ifcs junk f a (some c)).1 := congrArg Prod.fst hs
        rw [v6lookup6_none]
        exact v6lookup6_fst hc (ht.v6 fun h => absurd h ha)
      rw [hq]
      exact SameRoute.refl _
  · refine ⟨k, v6lookup_returns fun ha => ?_⟩
    obtain ⟨F, hF⟩ := v4find_of_returns ha h
    rw [v4lookup, hF]
    cases hit junk f true (some c) with
    | none => exact ⟨_, rfl⟩
    | some p => exact ⟨_, rfl⟩

end Coherent

section Mixed

/-- An interface with addresses of both versions. -/
def ether : Ipifc := ⟨0, 1⟩

def etherIfcs : Interfaces :=
  [some (ether, [⟨0xfe800000000000000000000000000000, 0xffffffffffffffff0000000000000000⟩,
    ⟨0xffff0a000000, 0xffffffffffffffffffffffffffffff00⟩])]

/-- The address 10.0.0.7 in version 6. -/
def peer : BitVec 128 := 0xffff0a000007

def router : List UInt8 := [0xfe, 0x80, 0, 0, 0, 0, 0, 0, 0, 0, 0, 0, 0, 0, 0, 1]

theorem v6bits_le : 128 ≤ 128 := le_rfl

theorem v4bits_le : 32 ≤ 128 := by decide

/-- The default route of version 6. -/
def default6 : ℕ → Route :=
  allocroute v6bits_le false [] (0 &&& 0) (0 ||| ~~~ 0) (and_le_or' 0 (0 : BitVec 128)) router noKind

def network4 : ℕ → Route :=
  allocroute v4bits_le true [] (0x0a000000 &&& 0xffffff00)
    (0x0a000000 &&& 0xffffff00 ||| ~~~ 0xffffff00) (and_le_or (0x0a000000 : BitVec 32) 0xffffff00) [10, 0, 0, 1] ifcKind

def freed : Ptr → Route := fun _ => default6 0

/-- The default route is in all buckets. -/
theorem default6_added : ∃ f i, v6addroute 3 Fs.empty [] 0 0 router noKind = some f ∧ f.v4root = (fun _ => .nil) ∧
    f.v4routegeneration = 0 ∧ f.v6routegeneration = 1 ∧ f.v6root 256 = .node 1 (default6 i) .nil .nil .nil := by
  obtain ⟨root, nodes, hrun, hin, -⟩ := @addbuckets_spec 3 default6
    (fun _ t => ∃ i, t = .node 1 (default6 i) .nil .nil .nil) (upto (V6H 0) (V6H (2 ^ 128 - 1))) (nodup_upto _ _)
    (fun _ => .nil) 0 fun h _ i => ⟨_, rfl, i, rfl⟩
  obtain ⟨i, hi⟩ := hin 256 (mem_upto.mpr (by decide))
  refine ⟨⟨fun _ => .nil, root, 0, 1, nodes⟩, i, ?_, rfl, rfl, rfl, hi⟩
  rw [v6addroute]
  have hlo : ((0 : BitVec 128) &&& 0).toNat = 0 := by decide
  have hhi : ((0 : BitVec 128) ||| ~~~ 0).toNat = 2 ^ 128 - 1 := by decide
  rw [hlo, hhi]
  have hrun' : addbuckets 3 (allocroute le_rfl false [] (0 &&& 0) (0 ||| ~~~ 0)
      (and_le_or' 0 (0 : BitVec 128)) router noKind) (upto (V6H 0) (V6H (2 ^ 128 - 1))) Fs.empty.v6root Fs.empty.nodes
      = some (root, nodes) := hrun
  rw [hrun']
  rfl

theorem default6_range (i : ℕ) : (default6 i).range = (0, 2 ^ 128 - 1) := by
  have hlo : ((0 : BitVec 128) &&& 0).toNat = 0 := by decide
  have hhi : ((0 : BitVec 128) ||| ~~~ 0).toNat = 2 ^ 128 - 1 := by decide
  rw [← hlo, ← hhi]
  rfl

theorem default6_holds (i : ℕ) : Holds (default6 i) peer.toNat := by
  have hlo : lo (default6 i) = 0 := congrArg Prod.fst (default6_range i)
  have hhi : hi (default6 i) = 2 ^ 128 - 1 := congrArg Prod.snd (default6_range i)
  rw [Holds, hlo, hhi]
  decide

/-- The lookup that caches the default route. -/
theorem lookup_default6 {f : Fs} {i : ℕ} (hroot4 : f.v4root = fun _ => .nil) (hgen4 : f.v4routegeneration = 0)
    (hgen6 : f.v6routegeneration = 1) (hroot6 : f.v6root 256 = .node 1 (default6 i) .nil .nil .nil) :
    v6lookup etherIfcs freed 1 f peer (some ⟨none, 0⟩) =
      some (some ⟨false, 256, i⟩, f.settle false peer.toNat ether, some ⟨some ⟨false, 256, i⟩, 1⟩) := by
  have hH : V6H peer.toNat = 256 := by decide
  have hifc : findipifc etherIfcs (.ofNat 128 (beVal (router.take 16))) noKind = some ether := by decide
  have hifc' : ifcof etherIfcs false (default6 i) = some ether := hifc
  have hwalk : walk6 peer.toNat (f.v6root (V6H peer.toNat)) none = some (default6 i) := by
    rw [hH, hroot6, walk6_eq, Tri.walk, if_pos (default6_holds i).1, if_pos (default6_holds i).2]
    rfl
  have hfind : v6find etherIfcs f peer.toNat = .route peer.toNat (default6 i) ether := by
    rw [v6find, hwalk]
    simp only [hifc']
  have hnil : v4find etherIfcs f 1 (peer.setWidth 32).toNat = some .nil := by
    rw [v4find, hroot4]
    rfl
  have hv4 : v4lookup etherIfcs freed 1 f (peer.setWidth 32) (some ⟨none, 0⟩) = some (none, f, some ⟨none, 0⟩) := by
    rw [v4lookup, hnil]
    simp [hit, finish, Fs.generation, hgen4]
  have hv6 : v6lookup6 etherIfcs freed f peer (some ⟨none, 0⟩) =
      (some ⟨false, 256, i⟩, f.settle false peer.toNat ether, some ⟨some ⟨false, 256, i⟩, 1⟩) := by
    have hptr : (Found.route peer.toNat (default6 i) ether).ptr false = some ⟨false, 256, i⟩ := by
      rw [Found.ptr, if_neg Bool.false_ne_true, hH]
      rfl
    have hgen : f.generation false = 1 := hgen6
    rw [v6lookup6, hfind]
    simp only [finish, hptr, hgen]
    rfl
  rw [v6lookup, if_pos (by decide), hv4]
  exact congrArg some hv6

/-- The table of version 4 gets its first route. -/
def withNetwork4 (f : Fs) : Fs :=
  { f with v4root := Function.update f.v4root 256 (.node 1 (network4 f.nodes) .nil .nil .nil)
           nodes := f.nodes + 1
           v4routegeneration := 1 }

theorem network4_added {f : Fs} (hroot4 : f.v4root = fun _ => .nil) (hgen4 : f.v4routegeneration = 0) :
    v4addroute 3 f [] 0x0a000000 0xffffff00 [10, 0, 0, 1] ifcKind = some (withNetwork4 f) := by
  have hup : upto (V4H ((0x0a000000 : BitVec 32) &&& 0xffffff00).toNat)
      (V4H ((0x0a000000 : BitVec 32) &&& 0xffffff00 ||| ~~~ 0xffffff00).toNat) = [256] := by decide
  have hnil : f.v4root 256 = .nil := congrFun hroot4 256
  rw [v4addroute, hup]
  simp only [addbuckets, hnil, hgen4]
  rfl

theorem withNetwork4_root (f : Fs) : (withNetwork4 f).v4root 256 = .node 1 (network4 f.nodes) .nil .nil .nil :=
  Function.update_self 256 _ f.v4root

theorem find_network4 (f : Fs) (k : ℕ) : v4find etherIfcs (withNetwork4 f) (k + 1) (peer.setWidth 32).toNat =
    some (.route (peer.setWidth 32).toNat (network4 f.nodes) ether) := by
  have hH : V4H (peer.setWidth 32).toNat = 256 := by decide
  have hholds : Holds (network4 f.nodes) (peer.setWidth 32).toNat := by
    have hlo : lo (network4 f.nodes) = 0x0a000000 := rfl
    have hhi : hi (network4 f.nodes) = 0x0a0000ff := rfl
    rw [Holds, hlo, hhi]
    decide
  have hifc : findipifc etherIfcs (.ofNat 128 (0xffff * 2 ^ 32 + 0x0a000000)) ifcKind = some ether := by decide
  have hifc' : ifcof etherIfcs true (network4 f.nodes) = some ether := hifc
  rw [v4find, hH, withNetwork4_root, Tri.walk, if_pos hholds.1, if_pos hholds.2]
  simp only [Tri.walk, hifc']

theorem network4_ptr (f : Fs) : (Found.route (peer.setWidth 32).toNat (network4 f.nodes) ether).ptr true =
    some ⟨true, 256, f.nodes⟩ := by
  have hH : V4H (peer.setWidth 32).toNat = 256 := by decide
  rw [Found.ptr, if_pos rfl, hH]
  rfl

theorem deref_network4 (f : Fs) : deref freed (withNetwork4 f) ⟨true, 256, f.nodes⟩ = network4 f.nodes := by
  have hnode : (network4 f.nodes).node = f.nodes := rfl
  rw [deref, Fs.root, if_pos rfl, withNetwork4_root, Tri.find, hnode, if_pos (beq_self_eq_true f.nodes)]
  rfl

theorem deref_default6 {f : Fs} {i : ℕ} (hroot6 : f.v6root 256 = .node 1 (default6 i) .nil .nil .nil) :
    deref freed (withNetwork4 (f.settle false peer.toNat ether)) ⟨false, 256, i⟩ = setifc ether (default6 i) := by
  have hH : V6H peer.toNat = 256 := by decide
  have hnode : (setifc ether (default6 i)).node = i := rfl
  have hmid : ¬ (Tri.walk peer.toNat (Tri.nil : Tree) none).isSome = true := Bool.false_ne_true
  have hupdate : (withNetwork4 (f.settle false peer.toNat ether)).v6root = Function.update f.v6root (V6H peer.toNat)
      ((f.v6root (V6H peer.toNat)).modify peer.toNat (setifc ether)) := rfl
  rw [deref, Fs.root, if_neg Bool.false_ne_true, hupdate, hH, Function.update_self, hroot6, Tri.modify,
    if_pos (default6_holds i).1, if_pos (default6_holds i).2, if_neg hmid, Tri.find, hnode,
    if_pos (beq_self_eq_true i)]
  rfl

/-- A route of version 6 is cached; after the first change of the table of version 4 the test for a route
of version 4 succeeds on it. -/
theorem cache_crosses_tables : ∃ f c p p', CacheReaches etherIfcs peer f c ∧
    v6lookup etherIfcs freed 1 f peer (some c) = some (some p, f, some c) ∧
    (∀ k, ∃ s, v6lookup etherIfcs freed (k + 1) f peer none = some (some p', s)) ∧
    (deref freed f p).range = (0, 2 ^ 128 - 1) ∧ (deref freed f p').range = (0x0a000000, 0x0a0000ff) ∧
    ¬ CacheCoherent etherIfcs peer freed f c := by
  obtain ⟨f, i, hadd, hroot4, hgen4, hgen6, hroot6⟩ := default6_added
  have hreach : CacheReaches etherIfcs peer (withNetwork4 (f.settle false peer.toNat ether)) ⟨some ⟨false, 256, i⟩, 1⟩ :=
    ((Relation.ReflTransGen.single (.change (.v6addroute 3 [] 0 0 router noKind) hadd)).tail
      (.lookup6 freed 1 (lookup_default6 hroot4 hgen4 hgen6 hroot6))).tail
      (.change (.v4addroute 3 [] 0x0a000000 0xffffff00 [10, 0, 0, 1] ifcKind) (network4_added hroot4 hgen4))
  have hderef := deref_default6 hroot6
  have hderef' := deref_network4 (f.settle false peer.toNat ether)
  have hnil : ∀ k, ∃ s, v6lookup etherIfcs freed (k + 1) (withNetwork4 (f.settle false peer.toNat ether)) peer none =
      some (some ⟨true, 256, f.nodes⟩, s) := fun k =>
    v6lookup_none_route (by decide) (find_network4 _ k) (network4_ptr _)
  have hgen : (withNetwork4 (f.settle false peer.toNat ether)).generation true = 1 := rfl
  generalize withNetwork4 (f.settle false peer.toNat ether) = g at hreach hderef hderef' hnil hgen
  have hcached : v6lookup etherIfcs freed 1 g peer (some ⟨some ⟨false, 256, i⟩, 1⟩) =
      some (some ⟨false, 256, i⟩, g, some ⟨some ⟨false, 256, i⟩, 1⟩) := by
    have hhit : hit freed g true (some ⟨some ⟨false, 256, i⟩, 1⟩) = some ⟨false, 256, i⟩ := by
      simp only [hit, Option.bind_eq_bind, Option.bind_some, hderef, hgen]
      rfl
    rw [v6lookup, if_pos (by decide), v4lookup, hhit]
  have hp : (deref freed g ⟨false, 256, i⟩).range = (0, 2 ^ 128 - 1) := by
    rw [hderef]
    exact default6_range i
  have hp' : (deref freed g ⟨true, 256, f.nodes⟩).range = (0x0a000000, 0x0a0000ff) := congrArg Route.range hderef'
  refine ⟨g, ⟨some ⟨false, 256, i⟩, 1⟩, ⟨false, 256, i⟩, ⟨true, 256, f.nodes⟩, hreach, hcached, hnil, hp, hp',
    fun h => ?_⟩
  obtain ⟨k, q', s', hnone, hsame⟩ := h.same _ _ _ hcached
  cases k with
  | zero => exact nomatch hnone
  | succ k =>
    obtain ⟨s, hs⟩ := hnil k
    obtain ⟨rfl, -⟩ := Prod.mk.inj (Option.some.inj (hnone.symm.trans hs))
    cases hsame with
    | some h =>
      rw [hp, hp'] at h
      exact absurd h.1 (by decide)

/-- A cached route of version 4 while nothing changes. -/
theorem cache_coherent_network4 : ∃ f c, CacheReaches etherIfcs peer f c ∧
    (hit freed f true (some c)).isSome ∧ CacheCoherent etherIfcs peer freed f c := by
  have hlookup : v6lookup etherIfcs freed 1 (withNetwork4 Fs.empty) peer (some ⟨none, 0⟩) =
      some (some ⟨true, 256, 0⟩, (withNetwork4 Fs.empty).settle true (peer.setWidth 32).toNat ether,
        some ⟨some ⟨true, 256, 0⟩, 1⟩) := by
    have hv4 : v4lookup etherIfcs freed 1 (withNetwork4 Fs.empty) (peer.setWidth 32) (some ⟨none, 0⟩) =
        some (some ⟨true, 256, 0⟩, (withNetwork4 Fs.empty).settle true (peer.setWidth 32).toNat ether,
          some ⟨some ⟨true, 256, 0⟩, 1⟩) := by
      rw [v4lookup, find_network4]
      simp only [Option.map_some, finish, network4_ptr]
      rfl
    rw [v6lookup, if_pos (by decide), hv4]
  have hreach : CacheReaches etherIfcs peer ((withNetwork4 Fs.empty).settle true (peer.setWidth 32).toNat ether)
      ⟨some ⟨true, 256, 0⟩, 1⟩ :=
    (Relation.ReflTransGen.single (.change (.v4addroute 3 [] 0x0a000000 0xffffff00 [10, 0, 0, 1] ifcKind)
      (network4_added rfl rfl))).tail (.lookup6 freed 1 hlookup)
  have hhit : hit freed ((withNetwork4 Fs.empty).settle true (peer.setWidth 32).toNat ether) true
      (some ⟨some ⟨true, 256, 0⟩, 1⟩) = some ⟨true, 256, 0⟩ := by
    rfl
  refine ⟨_, _, hreach, hhit ▸ rfl, cache_coherent hreach ⟨fun _ _ => ⟨_, rfl, rfl, rfl⟩, fun h => ?_⟩⟩
  exact nomatch hhit.symm.trans (h (by decide)).1

end Mixed

end Petele.Ip
