import Petele.Ip.RouteCache

namespace Petele.Ip.Gateway

open Lib Ranged BigEndian

section Lookup

variable (find : BitVec 128 → Kind → Option Ipifc) (now : Ipifc → ℕ)

/-- The interface a route has, or that `findipifc` gives for it; `now` are the numbers that the
interfaces have by now. -/
def ifcof (q : Route) : Option Ipifc :=
  match q.ifc with
  | none => find (remote true q) q.kind
  | some ifc => if q.ifcid ≠ now ifc then find (remote true q) q.kind else some ifc

/-- The long in the gateway of a route. -/
def gatelong (q : Route) : ℕ := beVal (q.gate.take 4)

/-- The test for a default route. -/
abbrev Default (q : Route) : Prop := q.address = 0 ∧ q.endaddress = 2 ^ 32 - 1

/-- `v4lookup` from `again` on, where `findipifc` is any function; there is no result if it has not
ended after `k` turns. -/
def again (f : Fs) : ℕ → ℕ → Option Found
  | 0, _ => none
  | k + 1, la =>
    match v4walk f la with
    | none => some .nil
    | some q =>
      match ifcof find now q with
      | some ifc => some (.route la q ifc)
      | none => if Default q then again f k (gatelong q) else some .stuck

def v4lookup (junk : Ptr → Route) (k : ℕ) (f : Fs) (a : BitVec 32) (c : Option Conv) :
    Option (Option Ptr × Fs × Option Conv) :=
  match hit junk f true c with
  | some p => some (some p, f, c)
  | none => (again find now f k a.toNat).map (finish true f c)

/-- With the interfaces as they are, this is the lookup of the routing tables. -/
theorem v4lookup_eq (ifcs : Interfaces) (junk : Ptr → Route) (k : ℕ) (f : Fs) (a : BitVec 32) (c : Option Conv) :
    v4lookup (findipifc ifcs) Ipifc.ifcid junk k f a c = Ip.v4lookup ifcs junk k f a c := by
  have hfind : ∀ k la, again (findipifc ifcs) Ipifc.ifcid f k la = v4find ifcs f k la := by
    intro k
    induction k with
    | zero => exact fun _ => rfl
    | succ k ih =>
      intro la
      rw [again, v4find, v4walk]
      cases (f.v4root (V4H la)).walk la none with
      | none => rfl
      | some q =>
        have hifc : ifcof (findipifc ifcs) Ipifc.ifcid q = Ip.ifcof ifcs true q := rfl
        dsimp only
        rw [hifc]
        cases Ip.ifcof ifcs true q with
        | none => exact if_congr Iff.rfl (ih _) rfl
        | some ifc => rfl
  rewrite [v4lookup, Ip.v4lookup, hfind]
  cases hit junk f true c <;> rfl

/-- The best match is a default route `q` that has no interface. -/
def Stuck (f : Fs) (la : ℕ) (q : Route) : Prop :=
  v4walk f la = some q ∧ Default q ∧ ifcof find now q = none

/-- The best match is a default route without an interface, and so is the one for its gateway. -/
def Circular (f : Fs) (la : ℕ) : Prop :=
  ∃ q q', Stuck find now f la q ∧ Stuck find now f (gatelong q) q'

end Lookup

section Default

/-- A route of version 4 that is no default route. -/
def Narrow (x : Route) : Prop := x.endaddress < 2 ^ 32 ∧ ¬ Default x

/-- A default route is the root of its tree, with all others in it. -/
def Tidy : Option Route → Tree → Prop
  | none, t => ∀ x ∈ t, Narrow x
  | some q, t => Default q ∧ ∃ d m, t = .node d q .nil m .nil ∧ ∀ x ∈ m, Narrow x

variable {n q p r : Route} {t mid root s : Tree} {queue : List Tree} {o : Option Route} {k d : ℕ}

theorem narrow_supercede (hp : Narrow p) (n : Route) : Narrow (supercede p n) := by
  have hrange := lo_supercede p n
  have hlo : (supercede p n).address = p.address := hrange.1
  have hhi : (supercede p n).endaddress = p.endaddress := hrange.2
  rw [Narrow, Default, hlo, hhi]
  exact hp

theorem default_supercede (hp : Default p) (n : Route) : Default (supercede p n) := by
  have hrange := lo_supercede p n
  exact ⟨hrange.1.trans hp.1, hrange.2.trans hp.2⟩

theorem compare_default (hn : Narrow n) (hq : Default q) : rangecompare n q = .Rcontained := by
  have hordered := n.ordered
  have hbound := hn.1
  rw [rangecompare_eq, hq.1, hq.2, if_neg (by omega), if_neg (by omega), if_neg]
  intro hboth
  exact hn.2 ⟨by omega, by omega⟩

theorem default_compare (hn : Default n) (hq : Narrow q) : rangecompare n q = .Rcontains := by
  have hordered := q.ordered
  have hbound := hq.1
  rw [rangecompare_eq, hn.1, hn.2, if_neg (by omega), if_neg (by omega), if_pos (by omega), if_neg]
  intro hboth
  exact hq.2 ⟨by omega, by omega⟩

theorem default_equal (hn : Default n) (hq : Default q) : rangecompare n q = .Requals := by
  rw [rangecompare_eq, hn.1, hn.2, hq.1, hq.2]
  decide

theorem narrow_addqueue (hs : ∀ x ∈ s, Narrow x) (hq : ∀ s ∈ queue, ∀ x ∈ s, Narrow x) :
    ∀ s' ∈ addqueue queue s, ∀ x ∈ s', Narrow x := by
  intro s' hs'
  rcases mem_addqueue hs' with rfl | hmem
  · exact hs
  · exact hq s' hmem

theorem addnode_narrow (hn : Narrow n) (hmid : ∀ x ∈ mid, Narrow x) (ht : ∀ x ∈ t, Narrow x)
    (hq : ∀ s ∈ queue, ∀ x ∈ s, Narrow x) :
    (∀ x ∈ (addnode n mid queue t).1, Narrow x) ∧ ∀ s ∈ (addnode n mid queue t).2, ∀ x ∈ s, Narrow x := by
  have hsingle : ∀ d, ∀ x ∈ (Tri.node d n .nil mid .nil : Tree), Narrow x := by
    intro d x hx
    simp only [Tri.mem_node, Tri.not_mem_nil, false_or, or_false] at hx
    rcases hx with rfl | hx
    · exact hn
    · exact hmid x hx
  induction t with
  | nil => exact ⟨hsingle 1, hq⟩
  | node d p l m r ihl ihm ihr =>
    have hp := ht p (Tri.mem_node.mpr (.inl rfl))
    have hl := ihl fun x hx => ht x (Tri.mem_node.mpr (.inr (.inl hx)))
    have hm := ihm fun x hx => ht x (Tri.mem_node.mpr (.inr (.inr (.inl hx))))
    have hr := ihr fun x hx => ht x (Tri.mem_node.mpr (.inr (.inr (.inr hx))))
    have hbalance : ∀ {u : Tree}, (∀ x ∈ u, Narrow x) → ∀ x ∈ balancetree u, Narrow x :=
      fun hu x hx => hu x (((balancetree_spec _).1 x).mp hx)
    rw [addnode]
    cases rangecompare n p with
    | Rpreceeds =>
      dsimp only
      refine ⟨hbalance fun x hx => ?_, hl.2⟩
      rcases Tri.mem_node.mp hx with rfl | hx | hx | hx
      · exact hp
      · exact hl.1 x hx
      · exact ht x (Tri.mem_node.mpr (.inr (.inr (.inl hx))))
      · exact ht x (Tri.mem_node.mpr (.inr (.inr (.inr hx))))
    | Rfollows =>
      dsimp only
      refine ⟨hbalance fun x hx => ?_, hr.2⟩
      rcases Tri.mem_node.mp hx with rfl | hx | hx | hx
      · exact hp
      · exact ht x (Tri.mem_node.mpr (.inr (.inl hx)))
      · exact ht x (Tri.mem_node.mpr (.inr (.inr (.inl hx))))
      · exact hr.1 x hx
    | Requals =>
      dsimp only
      refine ⟨hbalance fun x hx => ?_, hq⟩
      rcases Tri.mem_node.mp hx with rfl | hx
      · exact narrow_supercede hp n
      · exact ht x (Tri.mem_node.mpr (.inr hx))
    | Rcontains => exact ⟨hbalance (hsingle 1), narrow_addqueue ht hq⟩
    | Rcontained =>
      dsimp only
      refine ⟨hbalance fun x hx => ?_, hm.2⟩
      rcases Tri.mem_node.mp hx with rfl | hx | hx | hx
      · exact hp
      · exact ht x (Tri.mem_node.mpr (.inr (.inl hx)))
      · exact hm.1 x hx
      · exact ht x (Tri.mem_node.mpr (.inr (.inr (.inr hx))))

/-- Another route than the default one goes into the tree. -/
theorem Tidy.addnode (h : Tidy o t) (hn : Narrow n) (hmid : ∀ x ∈ mid, Narrow x)
    (hq : ∀ s ∈ queue, ∀ x ∈ s, Narrow x) :
    Tidy o (Ip.addnode n mid queue t).1 ∧ ∀ s ∈ (Ip.addnode n mid queue t).2, ∀ x ∈ s, Narrow x := by
  cases o with
  | none => exact addnode_narrow hn hmid h hq
  | some q =>
    obtain ⟨hdefault, d, m, rfl, hm⟩ := h
    obtain ⟨hm', hq'⟩ := addnode_narrow hn hmid hm hq
    rw [Ip.addnode, compare_default hn hdefault]
    obtain ⟨d', hd'⟩ := calcd_node d q .nil (Ip.addnode n mid queue m).1 .nil
    refine ⟨⟨hdefault, d', _, ?_, hm'⟩, hq'⟩
    dsimp only
    rw [balancetree, if_neg (Nat.not_lt.mpr (Nat.le_succ _)), if_neg (Nat.not_lt.mpr (Nat.le_succ _))]
    exact hd'

/-- The default route comes to the root, or changes the one that is there. -/
def adddefault (n : Route) : Option Route → Route
  | none => n
  | some q => supercede q n

theorem Tidy.adddefault (h : Tidy o t) (hn : Default n) :
    Tidy (some (adddefault n o)) (Ip.addnode n .nil [] t).1 ∧ ∀ s ∈ (Ip.addnode n .nil [] t).2, ∀ x ∈ s, Narrow x := by
  cases o with
  | none =>
    cases t with
    | nil => exact ⟨⟨hn, 1, .nil, rfl, fun x hx => absurd hx (Tri.not_mem_nil x)⟩, fun s hs => absurd hs List.not_mem_nil⟩
    | node d p l m r =>
      rw [Ip.addnode, default_compare hn (h p (Tri.mem_node.mpr (.inl rfl)))]
      obtain ⟨d', hd'⟩ := calcd_node 1 n .nil .nil .nil
      refine ⟨⟨hn, d', .nil, ?_, fun x hx => absurd hx (Tri.not_mem_nil x)⟩,
        narrow_addqueue h fun s hs => absurd hs List.not_mem_nil⟩
      exact hd'
  | some q =>
    obtain ⟨hdefault, d, m, rfl, hm⟩ := h
    rw [Ip.addnode, default_equal hn hdefault]
    obtain ⟨d', hd'⟩ := calcd_node d (supercede q n) .nil m .nil
    refine ⟨⟨default_supercede hdefault n, d', m, ?_, hm⟩, fun s hs => absurd hs List.not_mem_nil⟩
    dsimp only
    rw [balancetree, if_neg (Nat.not_lt.mpr (Nat.le_succ _)), if_neg (Nat.not_lt.mpr (Nat.le_succ _))]
    exact hd'

theorem Tidy.walkadd (h : Tidy o root) (hs : ∀ x ∈ s, Narrow x) (hq : ∀ s ∈ queue, ∀ x ∈ s, Narrow x) :
    Tidy o (Ip.walkadd root queue s).1 ∧ ∀ s' ∈ (Ip.walkadd root queue s).2, ∀ x ∈ s', Narrow x := by
  induction s generalizing root queue with
  | nil => exact ⟨h, hq⟩
  | node d p l m r ihl ihm ihr =>
    obtain ⟨h₁, hq₁⟩ := h.addnode (hs p (Tri.mem_node.mpr (.inl rfl)))
      (fun x hx => hs x (Tri.mem_node.mpr (.inr (.inr (.inl hx))))) hq
    obtain ⟨h₂, hq₂⟩ := ihl h₁ (fun x hx => hs x (Tri.mem_node.mpr (.inr (.inl hx)))) hq₁
    exact ihr h₂ (fun x hx => hs x (Tri.mem_node.mpr (.inr (.inr (.inr hx))))) hq₂

theorem Tidy.mergequeue (h : Tidy o root) (hq : ∀ s ∈ queue, ∀ x ∈ s, Narrow x)
    (hrun : Ip.mergequeue k root queue = some t) : Tidy o t := by
  induction k generalizing root queue with
  | zero =>
    cases queue with
    | nil =>
      rw [mergequeue_nil] at hrun
      exact Option.some.inj hrun ▸ h
    | cons s queue => exact nomatch hrun
  | succ k ih =>
    cases queue with
    | nil =>
      rw [mergequeue_nil] at hrun
      exact Option.some.inj hrun ▸ h
    | cons s queue =>
      obtain ⟨h', hq'⟩ := h.walkadd (hq s List.mem_cons_self) fun s' hs' => hq s' (List.mem_cons_of_mem _ hs')
      exact ih h' hq' hrun

theorem Tidy.add1route (h : Tidy o root) (hn : Narrow n) (hrun : Ip.add1route k root n = some t) : Tidy o t := by
  obtain ⟨h', hq⟩ := h.addnode hn (fun x hx => absurd hx (Tri.not_mem_nil x)) fun s hs => absurd hs List.not_mem_nil
  exact h'.mergequeue hq hrun

theorem Tidy.add1default (h : Tidy o root) (hn : Default n) (hrun : Ip.add1route k root n = some t) :
    Tidy (some (Gateway.adddefault n o)) t := by
  obtain ⟨h', hq⟩ := h.adddefault hn
  exact h'.mergequeue hq hrun

theorem looknode_mem {x : Route} (h : looknode r t = some s) (hx : x ∈ s) : x ∈ t := by
  induction t with
  | nil => cases h
  | node d p l m rt ihl ihm ihr =>
    rw [looknode] at h
    cases hc : rangecompare r p with
    | Rcontains =>
      rw [hc] at h
      cases h
    | Rpreceeds =>
      rw [hc] at h
      exact Tri.mem_node.mpr (.inr (.inl (ihl h)))
    | Rfollows =>
      rw [hc] at h
      exact Tri.mem_node.mpr (.inr (.inr (.inr (ihr h))))
    | Rcontained =>
      rw [hc] at h
      exact Tri.mem_node.mpr (.inr (.inr (.inl (ihm h))))
    | Requals =>
      rw [hc] at h
      exact Option.some.inj h ▸ hx

theorem putnode_mem {x : Route} (hx : x ∈ putnode r s t) : x ∈ s ∨ x ∈ t := by
  induction t with
  | nil => exact .inr hx
  | node d p l m rt ihl ihm ihr =>
    rw [putnode] at hx
    simp only [Tri.mem_node]
    cases hc : rangecompare r p <;> rw [hc] at hx
    case Rcontains => exact .inr (Tri.mem_node.mp hx)
    case Requals => exact .inl hx
    all_goals
      simp only [Tri.mem_node] at hx
      tauto

theorem del1route_narrow (ht : ∀ x ∈ root, Narrow x) (hrun : del1route k root r = some t) : ∀ x ∈ t, Narrow x := by
  rw [del1route] at hrun
  cases hlook : looknode r root with
  | none =>
    rw [hlook] at hrun
    exact Option.some.inj hrun ▸ ht
  | some s =>
    have hs : ∀ x ∈ s, Narrow x := fun x hx => ht x (looknode_mem hlook hx)
    cases s with
    | nil =>
      rw [hlook] at hrun
      exact Option.some.inj hrun ▸ ht
    | node d p l m rt =>
      rw [hlook] at hrun
      dsimp only at hrun
      split at hrun
      · refine Tidy.mergequeue (o := none) (fun x hx => ?_) ?_ hrun
        · exact (putnode_mem hx).elim (fun hx => absurd hx (Tri.not_mem_nil x)) (ht x)
        · refine narrow_addqueue (fun x hx => hs x (by simp [hx])) (narrow_addqueue (fun x hx => hs x (by simp [hx]))
            (narrow_addqueue (fun x hx => hs x (by simp [hx])) fun s hs => absurd hs List.not_mem_nil))
      · obtain rfl := Option.some.inj hrun
        intro x hx
        rcases putnode_mem hx with hx | hx
        · rcases Tri.mem_node.mp hx with rfl | hx
          · exact hs p (Tri.mem_node.mpr (.inl rfl))
          · exact hs x (Tri.mem_node.mpr (.inr hx))
        · exact ht x hx

theorem Tidy.del1route (h : Tidy o root) (hr : Narrow r) (hrun : Ip.del1route k root r = some t) : Tidy o t := by
  cases o with
  | none => exact del1route_narrow h hrun
  | some q =>
    obtain ⟨hdefault, d, m, rfl, hm⟩ := h
    have hlook : looknode r (.node d q .nil m .nil) = looknode r m := by rw [looknode, compare_default hr hdefault]
    have hput : ∀ s, putnode r s (.node d q .nil m .nil) = .node d q .nil (putnode r s m) .nil := by
      intro s
      rw [putnode, compare_default hr hdefault]
    have hold : Tidy (some q) (.node d q .nil m .nil) := ⟨hdefault, d, m, rfl, hm⟩
    rw [Ip.del1route, hlook] at hrun
    cases hs : looknode r m with
    | none =>
      rw [hs] at hrun
      exact Option.some.inj hrun ▸ hold
    | some s =>
      have hnarrow : ∀ x ∈ s, Narrow x := fun x hx => hm x (looknode_mem hs hx)
      cases s with
      | nil =>
        rw [hs] at hrun
        exact Option.some.inj hrun ▸ hold
      | node d' p l m' rt =>
        rw [hs] at hrun
        dsimp only at hrun
        rw [hput, hput] at hrun
        split at hrun
        · refine Tidy.mergequeue (o := some q) ⟨hdefault, d, _, rfl, fun x hx => ?_⟩ ?_ hrun
          · exact (putnode_mem hx).elim (fun hx => absurd hx (Tri.not_mem_nil x)) (hm x)
          · refine narrow_addqueue (fun x hx => hnarrow x (by simp [hx]))
              (narrow_addqueue (fun x hx => hnarrow x (by simp [hx]))
                (narrow_addqueue (fun x hx => hnarrow x (by simp [hx])) fun s hs => absurd hs List.not_mem_nil))
        · obtain rfl := Option.some.inj hrun
          refine ⟨hdefault, d, _, rfl, fun x hx => ?_⟩
          rcases putnode_mem hx with hx | hx
          · rcases Tri.mem_node.mp hx with rfl | hx
            · exact hnarrow p (Tri.mem_node.mpr (.inl rfl))
            · exact hnarrow x (Tri.mem_node.mpr (.inr hx))
          · exact hm x hx

def deldefault : Option Route → Option Route
  | none => none
  | some q => if q.ref - 1 = 0 then none else some { q with ref := q.ref - 1 }

theorem Tidy.del1default (h : Tidy o root) (hr : Default r) (hrun : Ip.del1route k root r = some t) :
    Tidy (deldefault o) t := by
  cases o with
  | none =>
    have hlook : looknode r root = none := by
      cases root with
      | nil => rfl
      | node d p l m rt => rw [looknode, default_compare hr (h p (Tri.mem_node.mpr (.inl rfl)))]
    rw [Ip.del1route, hlook] at hrun
    exact Option.some.inj hrun ▸ h
  | some q =>
    obtain ⟨hdefault, d, m, rfl, hm⟩ := h
    have hlook : looknode r (.node d q .nil m .nil) = some (.node d q .nil m .nil) := by
      rw [looknode, default_equal hr hdefault]
    have hput : ∀ s, putnode r s (.node d q .nil m .nil) = s := by
      intro s
      rw [putnode, default_equal hr hdefault]
    rw [Ip.del1route, hlook] at hrun
    dsimp only at hrun
    rw [hput, hput] at hrun
    rw [deldefault]
    split at hrun
    · rename_i hlast
      rw [if_pos hlast]
      refine Tidy.mergequeue (o := none) (fun x hx => absurd hx (Tri.not_mem_nil x)) ?_ hrun
      have hnil : ∀ x ∈ (Tri.nil : Tree), Narrow x := fun x hx => absurd hx (Tri.not_mem_nil x)
      exact narrow_addqueue hnil (narrow_addqueue hm (narrow_addqueue hnil fun s hs => absurd hs List.not_mem_nil))
    · rename_i hlast
      rw [if_neg hlast]
      exact ⟨hdefault, d, m, (Option.some.inj hrun).symm, hm⟩

/-- What a route says, and how often it was added. -/
def said (q : Route) : Kind × List UInt8 × ℤ := (q.kind, q.gate, q.ref)

/-- A lookup gives a node an interface. -/
theorem Tidy.modify (h : Tidy o root) (a : ℕ) (ifc : Ipifc) :
    ∃ o', Tidy o' (root.modify a (setifc ifc)) ∧ o'.map said = o.map said := by
  have hkeep : ∀ {u : Tree}, (∀ x ∈ u, Narrow x) → ∀ x ∈ u.modify a (setifc ifc), Narrow x := by
    intro u hu x hx
    rcases Tri.mem_modify hx with hx | ⟨y, hy, rfl⟩
    · exact hu x hx
    · exact hu y hy
  cases o with
  | none => exact ⟨none, hkeep h, rfl⟩
  | some q =>
    obtain ⟨hdefault, d, m, rfl, hm⟩ := h
    have hlo : lo q = 0 := hdefault.1
    rw [Tri.modify, if_pos (by omega)]
    split
    · split
      · exact ⟨some q, ⟨hdefault, d, _, rfl, hkeep hm⟩, rfl⟩
      · exact ⟨some (setifc ifc q), ⟨hdefault, d, m, rfl, hm⟩, rfl⟩
    · exact ⟨some q, ⟨hdefault, d, m, rfl, hm⟩, rfl⟩

theorem said_adddefault {n n' : Route} {o o' : Option Route} (hn : said n = said n') (ho : o.map said = o'.map said) :
    said (adddefault n o) = said (adddefault n' o') := by
  simp only [said, Prod.mk.injEq] at hn
  cases o with
  | none =>
    rw [Option.map_none, eq_comm, Option.map_eq_none_iff] at ho
    rw [ho]
    simp only [adddefault, said, Prod.mk.injEq]
    exact hn
  | some q =>
    rw [Option.map_some, eq_comm, Option.map_eq_some_iff] at ho
    obtain ⟨q', rfl, hq⟩ := ho
    simp only [said, Prod.mk.injEq] at hq
    simp only [adddefault, supercede, hq.1, hn.1]
    split
    · simp [said, hq, hn]
    · split <;> simp [said, hq]

theorem said_deldefault {o o' : Option Route} (ho : o.map said = o'.map said) :
    (deldefault o).map said = (deldefault o').map said := by
  cases o with
  | none =>
    rw [Option.map_none, eq_comm, Option.map_eq_none_iff] at ho
    rw [ho]
  | some q =>
    rw [Option.map_some, eq_comm, Option.map_eq_some_iff] at ho
    obtain ⟨q', rfl, hq⟩ := ho
    simp only [said, Prod.mk.injEq] at hq
    simp only [deldefault, hq.2.2]
    split
    · rfl
    · simp [said, hq]

end Default

section Buckets

theorem addbuckets_at {k : ℕ} {new : ℕ → Route} {hs : List ℕ} (hnodup : hs.Nodup) {root root' : ℕ → Tree}
    {nodes nodes' : ℕ} (hrun : addbuckets k new hs root nodes = some (root', nodes')) (h : ℕ) :
    (h ∉ hs → root' h = root h) ∧ (h ∈ hs → ∃ i, add1route k (root h) (new i) = some (root' h)) := by
  induction hs generalizing root nodes with
  | nil =>
    obtain ⟨rfl, -⟩ := Prod.mk.inj (Option.some.inj hrun)
    exact ⟨fun _ => rfl, fun hmem => absurd hmem List.not_mem_nil⟩
  | cons g hs ih =>
    obtain ⟨hnot, hnodup⟩ := List.nodup_cons.mp hnodup
    rw [addbuckets, Option.bind_eq_bind, Option.bind_eq_some_iff] at hrun
    obtain ⟨t, ht, hrest⟩ := hrun
    obtain ⟨hout, hin⟩ := ih hnodup hrest
    constructor
    · intro hmem
      rw [List.mem_cons, not_or] at hmem
      rw [hout hmem.2, Function.update_of_ne hmem.1]
    · intro hmem
      rcases List.mem_cons.mp hmem with rfl | hmem
      · refine ⟨nodes, ht.trans ?_⟩
        rw [hout hnot, Function.update_self]
      · have hne : h ≠ g := fun heq => hnot (heq ▸ hmem)
        have hin' := hin hmem
        rw [Function.update_of_ne hne] at hin'
        exact hin'

theorem delbuckets_at {k : ℕ} {r : Route} {hs : List ℕ} (hnodup : hs.Nodup) {root root' : ℕ → Tree}
    (hrun : delbuckets k r hs root = some root') (h : ℕ) :
    (h ∉ hs → root' h = root h) ∧ (h ∈ hs → del1route k (root h) r = some (root' h)) := by
  induction hs generalizing root with
  | nil =>
    obtain rfl := Option.some.inj hrun
    exact ⟨fun _ => rfl, fun hmem => absurd hmem List.not_mem_nil⟩
  | cons g hs ih =>
    obtain ⟨hnot, hnodup⟩ := List.nodup_cons.mp hnodup
    rw [delbuckets, Option.bind_eq_bind, Option.bind_eq_some_iff] at hrun
    obtain ⟨t, ht, hrest⟩ := hrun
    obtain ⟨hout, hin⟩ := ih hnodup hrest
    constructor
    · intro hmem
      rw [List.mem_cons, not_or] at hmem
      rw [hout hmem.2, Function.update_of_ne hmem.1]
    · intro hmem
      rcases List.mem_cons.mp hmem with rfl | hmem
      · rw [hout hnot, Function.update_self]
        exact ht
      · have hne : h ≠ g := fun heq => hnot (heq ▸ hmem)
        have hin' := hin hmem
        rw [Function.update_of_ne hne] at hin'
        exact hin'

/-- The default routes of all buckets of version 4 say the same. -/
def Agree (root : ℕ → Tree) : Prop := ∃ e, ∀ h < 2 ^ 10, ∃ o, Tidy o (root h) ∧ o.map said = e

variable {root root' : ℕ → Tree}

theorem all_buckets {x : Route} (hx : Default x) : ∀ h < 2 ^ 10, h ∈ upto (V4H x.address) (V4H x.endaddress) := by
  intro h hh
  have hlo : V4H 0 = 0 := by decide
  have hhi : V4H (2 ^ 32 - 1) = 1023 := by decide
  rw [hx.1, hx.2, hlo, hhi, mem_upto]
  omega

theorem Agree.add (hagree : Agree root) (new : ℕ → Route) (x : Route) (hnew : ∀ i, (new i).address = x.address ∧
    (new i).endaddress = x.endaddress ∧ said (new i) = said x) (hx : x.endaddress < 2 ^ 32) {k nodes nodes' : ℕ}
    (hrun : addbuckets k new (upto (V4H x.address) (V4H x.endaddress)) root nodes = some (root', nodes')) :
    Agree root' := by
  obtain ⟨e, he⟩ := hagree
  by_cases hdefault : Default x
  · refine ⟨some (said (adddefault x (e.map fun s => { x with kind := s.1, gate := s.2.1, ref := s.2.2 }))), ?_⟩
    intro h hh
    obtain ⟨o, htidy, ho⟩ := he h hh
    obtain ⟨-, hin⟩ := addbuckets_at (nodup_upto _ _) hrun h
    obtain ⟨i, hadd⟩ := hin (all_buckets hdefault h hh)
    obtain ⟨hlo, hhi, hsaid⟩ := hnew i
    refine ⟨_, htidy.add1default ⟨hlo.trans hdefault.1, hhi.trans hdefault.2⟩ hadd, ?_⟩
    rw [Option.map_some, Option.some.injEq]
    apply said_adddefault hsaid
    rw [ho]
    cases e <;> rfl
  · refine ⟨e, fun h hh => ?_⟩
    obtain ⟨o, htidy, ho⟩ := he h hh
    obtain ⟨hout, hin⟩ := addbuckets_at (nodup_upto _ _) hrun h
    refine ⟨o, ?_, ho⟩
    by_cases hmem : h ∈ upto (V4H x.address) (V4H x.endaddress)
    · obtain ⟨i, hadd⟩ := hin hmem
      obtain ⟨hlo, hhi, -⟩ := hnew i
      exact htidy.add1route ⟨by rw [hhi]; exact hx, by rw [Default, hlo, hhi]; exact hdefault⟩ hadd
    · rw [hout hmem]
      exact htidy

theorem Agree.del (hagree : Agree root) {x : Route} (hx : x.endaddress < 2 ^ 32) {k : ℕ}
    (hrun : delbuckets k x (upto (V4H x.address) (V4H x.endaddress)) root = some root') : Agree root' := by
  obtain ⟨e, he⟩ := hagree
  by_cases hdefault : Default x
  · refine ⟨(deldefault (e.map fun s => { x with kind := s.1, gate := s.2.1, ref := s.2.2 })).map said, ?_⟩
    intro h hh
    obtain ⟨o, htidy, ho⟩ := he h hh
    obtain ⟨-, hin⟩ := delbuckets_at (nodup_upto _ _) hrun h
    refine ⟨_, htidy.del1default hdefault (hin (all_buckets hdefault h hh)), said_deldefault ?_⟩
    rw [ho]
    cases e <;> rfl
  · refine ⟨e, fun h hh => ?_⟩
    obtain ⟨o, htidy, ho⟩ := he h hh
    obtain ⟨hout, hin⟩ := delbuckets_at (nodup_upto _ _) hrun h
    refine ⟨o, ?_, ho⟩
    by_cases hmem : h ∈ upto (V4H x.address) (V4H x.endaddress)
    · exact htidy.del1route ⟨hx, hdefault⟩ (hin hmem)
    · rw [hout hmem]
      exact htidy

end Buckets

section System

/-- The tables that calls and lookups lead to, whatever interfaces each of the lookups finds. -/
inductive Reached : Fs → Prop
  | empty : Reached Fs.empty
  | change {f f' : Fs} (op : Change) (hf : Reached f) (h : op.apply f = some f') : Reached f'
  | elsewhere {f : Fs} (n m : ℕ) (hf : Reached f) :
      Reached { f with v4routegeneration := n, v6routegeneration := m }
  | lookup4 {f f' : Fs} {q : Option Ptr} {o o' : Option Conv} (find : BitVec 128 → Kind → Option Ipifc)
      (now : Ipifc → ℕ) (junk : Ptr → Route) (k : ℕ) (b : BitVec 32) (hf : Reached f)
      (h : v4lookup find now junk k f b o = some (q, f', o')) : Reached f'
  | lookup6 {f f' : Fs} {q : Option Ptr} {o o' : Option Conv} (ifcs : Interfaces) (junk : Ptr → Route) (k : ℕ)
      (b : BitVec 128) (hf : Reached f) (h : v6lookup ifcs junk k f b o = some (q, f', o')) : Reached f'

variable {find : BitVec 128 → Kind → Option Ipifc} {now : Ipifc → ℕ} {junk : Ptr → Route} {f f' : Fs} {k la : ℕ}
  {q q' : Route} {o o' : Option Conv}

theorem V4H_lt (a : ℕ) : V4H a < 2 ^ 10 := by
  rw [V4H_eq, bits]
  omega

theorem Agree.finish (h : Agree f.v4root) (v4 : Bool) (o : Option Conv) (F : Found) :
    Agree (Ip.finish v4 f o F).2.1.v4root := by
  cases F with
  | nil => exact h
  | stuck => exact h
  | route la q ifc =>
    cases v4 with
    | false => exact h
    | true =>
      obtain ⟨e, he⟩ := h
      have hroot : (Ip.finish true f o (.route la q ifc)).2.1.v4root =
        Function.update f.v4root (V4H la) ((f.v4root (V4H la)).modify la (setifc ifc)) := rfl
      rw [hroot]
      refine ⟨e, fun b hb => ?_⟩
      obtain ⟨o, htidy, ho⟩ := he b hb
      rcases eq_or_ne b (V4H la) with rfl | hne
      · rw [Function.update_self]
        obtain ⟨o', htidy', ho'⟩ := htidy.modify la ifc
        exact ⟨o', htidy', ho'.trans ho⟩
      · rw [Function.update_of_ne hne]
        exact ⟨o, htidy, ho⟩

theorem Agree.lookup4 (h : Agree f.v4root) {b : BitVec 32} {p : Option Ptr}
    (hrun : v4lookup find now junk k f b o = some (p, f', o')) : Agree f'.v4root := by
  rw [v4lookup] at hrun
  split at hrun
  · obtain ⟨-, rfl, -⟩ := Prod.mk.inj (Option.some.inj hrun) |>.imp_right Prod.mk.inj
    exact h
  · rw [Option.map_eq_some_iff] at hrun
    obtain ⟨F, -, hfinish⟩ := hrun
    have hagree := h.finish true o F
    rw [hfinish] at hagree
    exact hagree

theorem Agree.lookup6 (h : Agree f.v4root) {ifcs : Interfaces} {b : BitVec 128} {p : Option Ptr}
    (hrun : v6lookup ifcs junk k f b o = some (p, f', o')) : Agree f'.v4root := by
  have hsix : ∀ {f : Fs} (o : Option Conv), Agree f.v4root → Agree (v6lookup6 ifcs junk f b o).2.1.v4root := by
    intro f o h
    rw [v6lookup6]
    split
    · exact h
    · exact h.finish false o _
  rw [v6lookup] at hrun
  split at hrun
  · split at hrun
    · cases hrun
    · rename_i hfour
      rw [← v4lookup_eq] at hfour
      obtain ⟨-, rfl⟩ := Prod.mk.inj (Option.some.inj hrun)
      exact h.lookup4 hfour
    · rename_i f₁ o₁ hfour
      rw [← v4lookup_eq] at hfour
      have hagree := hsix o₁ (h.lookup4 hfour)
      rw [Option.some.inj hrun] at hagree
      exact hagree
  · have hagree := hsix o h
    rw [Option.some.inj hrun] at hagree
    exact hagree

theorem Reached.agree (h : Reached f) : Agree f.v4root := by
  induction h with
  | empty => exact ⟨none, fun h _ => ⟨none, fun x hx => absurd hx (Tri.not_mem_nil x), rfl⟩⟩
  | change op _ h ih =>
    cases op with
    | v4addroute k tag a mask gate kind =>
      rw [Change.apply, v4addroute, Option.bind_eq_bind, Option.bind_eq_some_iff] at h
      obtain ⟨s, hrun, hf'⟩ := h
      obtain rfl := Option.some.inj hf'
      exact ih.add (allocroute (by decide) true tag (a &&& mask) (a &&& mask ||| ~~~ mask) (and_le_or a mask) gate kind)
        (allocroute (by decide) true tag (a &&& mask) (a &&& mask ||| ~~~ mask) (and_le_or a mask) gate kind 0)
        (fun i => ⟨rfl, rfl, rfl⟩) (BitVec.isLt _) hrun
    | v4delroute k a mask =>
      rw [Change.apply, v4delroute, Option.bind_eq_bind, Option.bind_eq_some_iff] at h
      obtain ⟨root, hrun, hf'⟩ := h
      obtain rfl := Option.some.inj hf'
      exact ih.del (x := allocroute (by decide) true [] (a &&& mask) (a &&& mask ||| ~~~ mask) (and_le_or a mask)
        [] noKind 0) (BitVec.isLt _) hrun
    | v6addroute k tag a mask gate kind =>
      rw [Change.apply, v6addroute, Option.bind_eq_bind, Option.bind_eq_some_iff] at h
      obtain ⟨s, -, hf'⟩ := h
      obtain rfl := Option.some.inj hf'
      exact ih
    | v6delroute k a mask =>
      rw [Change.apply, v6delroute, Option.bind_eq_bind, Option.bind_eq_some_iff] at h
      obtain ⟨root, -, hf'⟩ := h
      obtain rfl := Option.some.inj hf'
      exact ih
  | elsewhere n m _ ih => exact ih
  | lookup4 find now junk k b _ h ih => exact ih.lookup4 h
  | lookup6 ifcs junk k b _ h ih => exact ih.lookup6 h

/-- Searches that are stuck are so at routes with one gateway. -/
theorem Agree.gate_eq (h : Agree f.v4root) {la' : ℕ} (hq : Stuck find now f la q) (hq' : Stuck find now f la' q') :
    q.gate = q'.gate := by
  obtain ⟨e, he⟩ := h
  have hsaid : ∀ {la : ℕ} {q : Route}, Stuck find now f la q → e = some (said q) := by
    intro la q hq
    obtain ⟨hwalk, hdefault, -⟩ := hq
    obtain ⟨o, htidy, ho⟩ := he (V4H la) (V4H_lt la)
    have hmem := (Tri.walk_mem hwalk).resolve_right (Option.some_ne_none q ∘ Eq.symm)
    cases o with
    | none => exact absurd hdefault (htidy q hmem).2
    | some p =>
      obtain ⟨-, d, m, hroot, hm⟩ := htidy
      rw [hroot] at hmem
      simp only [Tri.mem_node, Tri.not_mem_nil, false_or, or_false] at hmem
      rcases hmem with rfl | hmem
      · exact ho.symm
      · exact absurd hdefault (hm q hmem).2
  have hboth := (hsaid hq).symm.trans (hsaid hq')
  rw [Option.some.injEq, said, said, Prod.mk.injEq, Prod.mk.injEq] at hboth
  exact hboth.2.1

theorem again_stuck (hq : Stuck find now f la q) : again find now f (k + 1) la = again find now f k (gatelong q) := by
  obtain ⟨hwalk, hdefault, hifc⟩ := hq
  rw [again, hwalk]
  simp only [hifc]
  exact if_pos hdefault

theorem again_ends (hnone : ∀ q, ¬ Stuck find now f la q) : again find now f (k + 1) la ≠ none := by
  rw [again]
  cases hwalk : v4walk f la with
  | none => exact Option.some_ne_none _
  | some q =>
    dsimp only
    cases hifc : ifcof find now q with
    | some ifc => exact Option.some_ne_none _
    | none =>
      dsimp only
      rw [if_neg fun hdefault => hnone q ⟨hwalk, hdefault, hifc⟩]
      exact Option.some_ne_none _

/-- The search goes round for ever. -/
theorem Circular.never (h : Circular find now f la) (hagree : Agree f.v4root) (k : ℕ) : again find now f k la = none := by
  obtain ⟨q, q', hq, hq'⟩ := h
  have hgate : gatelong q' = gatelong q := by rw [gatelong, gatelong, hagree.gate_eq hq hq']
  have hround : ∀ k, again find now f k (gatelong q) = none := by
    intro k
    induction k with
    | zero => rfl
    | succ k ih => rw [again_stuck hq', hgate, ih]
  cases k with
  | zero => rfl
  | succ k => rw [again_stuck hq, hround]

/-- The only route is a default one. -/
theorem add_default (gate : List UInt8) : ∃ f, v4addroute 3 Fs.empty [] 0 0 gate noKind = some f ∧
    ∀ a : BitVec 32, ∃ q, v4walk f a.toNat = some q ∧ Default q ∧ q.kind = noKind ∧ q.gate = gate ∧ q.ifc = none := by
  let new := allocroute (by decide) true [] (0 &&& 0) (0 &&& 0 ||| ~~~ 0) (and_le_or (0 : BitVec 32) 0) gate noKind
  obtain ⟨root, nodes, hrun, hin, -⟩ := @addbuckets_spec 3 new
    (fun _ t => ∃ i, t = .node 1 (new i) .nil .nil .nil)
    (upto (V4H ((0 : BitVec 32) &&& 0).toNat) (V4H ((0 : BitVec 32) &&& 0 ||| ~~~ 0).toNat)) (nodup_upto _ _)
    (fun _ => .nil) 0 fun h _ i => ⟨_, rfl, i, rfl⟩
  refine ⟨{ Fs.empty with v4root := root, nodes := nodes, v4routegeneration := 1 }, ?_, fun a => ?_⟩
  · have hrun' : addbuckets 3 (allocroute (by decide) true [] (0 &&& 0) (0 &&& 0 ||| ~~~ 0)
        (and_le_or (0 : BitVec 32) 0) gate noKind) (upto (V4H ((0 : BitVec 32) &&& 0).toNat)
          (V4H ((0 : BitVec 32) &&& 0 ||| ~~~ 0).toNat)) Fs.empty.v4root Fs.empty.nodes = some (root, nodes) := hrun
    rw [v4addroute, hrun']
    rfl
  · have hfirst : ((0 : BitVec 32) &&& 0).toNat = 0 := by decide
    have hlast : ((0 : BitVec 32) &&& 0 ||| ~~~ 0).toNat = 2 ^ 32 - 1 := by decide
    have hdefault : ∀ i, Default (new i) := fun i => ⟨hfirst, hlast⟩
    obtain ⟨i, hroot⟩ := hin (V4H a.toNat) (all_buckets (hdefault 0) _ (V4H_lt _))
    have hlo : lo (new i) ≤ a.toNat := hfirst.le.trans (Nat.zero_le _)
    have hhi : a.toNat ≤ hi (new i) := (Nat.le_sub_one_of_lt a.isLt).trans hlast.ge
    refine ⟨new i, ?_, hdefault i, rfl, rfl, rfl⟩
    rw [v4walk]
    dsimp only
    rw [hroot, Tri.walk, if_pos hlo, if_pos hhi]
    rfl

/-- A lookup returns, after two passes at most, if and only if there is a cached route or the search is not
stuck both for the destination and for the gateway of its default route. -/
theorem v4lookup_returns (hf : Reached f) (find : BitVec 128 → Kind → Option Ipifc) (now : Ipifc → ℕ)
    (junk : Ptr → Route) (a : BitVec 32) (c : Option Conv) :
    (∃ k, v4lookup find now junk k f a c ≠ none) ↔
      hit junk f true c ≠ none ∨ ¬ Circular find now f a.toNat := by
  cases hhit : hit junk f true c with
  | some p =>
    refine iff_of_true ⟨0, ?_⟩ (.inl (Option.some_ne_none p))
    rw [v4lookup, hhit]
    exact Option.some_ne_none _
  | none =>
    have hlookup : ∀ k, v4lookup find now junk k f a c ≠ none ↔ again find now f k a.toNat ≠ none := by
      intro k
      rw [v4lookup, hhit, ne_eq, ne_eq, Option.map_eq_none_iff]
    rw [or_iff_right (not_not.mpr rfl)]
    constructor
    · rintro ⟨k, hk⟩ hcircular
      exact (hlookup k).mp hk (hcircular.never hf.agree k)
    · intro hcircular
      by_cases hstuck : ∃ q, Stuck find now f a.toNat q
      · obtain ⟨q, hq⟩ := hstuck
        refine ⟨2, (hlookup 2).mpr ?_⟩
        rw [again_stuck hq]
        exact again_ends fun q' hq' => hcircular ⟨q, q', hq, hq'⟩
      · exact ⟨1, (hlookup 1).mpr (again_ends fun q hq => hstuck ⟨q, hq⟩)⟩

/-- A route through 10.0.0.1 for all addresses, and an interface. -/
theorem v4lookup_returns_default : ∃ f, v4addroute 3 Fs.empty [] 0 0 [10, 0, 0, 1] noKind = some f ∧
    ∃ k, v4lookup (fun _ _ => some ether) Ipifc.ifcid freed k f 0x08080808 none ≠ none := by
  obtain ⟨f, hadd, hwalk⟩ := add_default [10, 0, 0, 1]
  have hf : Reached f := .change (.v4addroute 3 [] 0 0 [10, 0, 0, 1] noKind) .empty hadd
  refine ⟨f, hadd, (v4lookup_returns hf _ _ _ _ _).mpr (.inr ?_)⟩
  rintro ⟨q, q', ⟨hq, -, hifc⟩, -⟩
  obtain ⟨p, hp, -, -, -, hnone⟩ := hwalk 0x08080808
  obtain rfl := Option.some.inj (hp.symm.trans hq)
  rw [ifcof, hnone] at hifc
  exact nomatch hifc

/-- There are no interfaces, and the route for all addresses, its gateway included, goes through 10.0.0.1. -/
theorem v4lookup_circular : ∃ f, Reached f ∧
    ∀ k, v4lookup (fun _ _ => none) Ipifc.ifcid freed k f 0x08080808 none = none := by
  obtain ⟨f, hadd, hwalk⟩ := add_default [10, 0, 0, 1]
  have hf : Reached f := .change (.v4addroute 3 [] 0 0 [10, 0, 0, 1] noKind) .empty hadd
  have hstuck : ∀ a : BitVec 32, ∃ q, Stuck (fun _ _ => none) Ipifc.ifcid f a.toNat q ∧ gatelong q = 0x0a000001 := by
    intro a
    obtain ⟨q, hq, hdefault, -, hgate, hifc⟩ := hwalk a
    refine ⟨q, ⟨hq, hdefault, ?_⟩, ?_⟩
    · rw [ifcof, hifc]
    · rw [gatelong, hgate]
      decide
  have hcircular : Circular (fun _ _ => none) Ipifc.ifcid f (0x08080808 : BitVec 32).toNat := by
    obtain ⟨q, hq, hgate⟩ := hstuck 0x08080808
    obtain ⟨q', hq', -⟩ := hstuck 0x0a000001
    refine ⟨q, q', hq, ?_⟩
    rw [hgate]
    exact hq'
  refine ⟨f, hf, fun k => ?_⟩
  rw [v4lookup]
  have hnever := hcircular.never hf.agree k
  rw [hnever]
  rfl

end System

end Petele.Ip.Gateway
