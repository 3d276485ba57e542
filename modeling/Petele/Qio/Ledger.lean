import Petele.Qio.Invariant

namespace Petele.Qio

open Lib

variable {n : ℕ}

/-- What the processes do, and besides: the copy to user memory in `bl2mem` may fail with an error, when
`k` of the blocks have been copied and freed. -/
inductive Deed (n : ℕ) where
  | act (a : Act n)
  | fault (k : ℕ)

/-- `qread` on such an error: it gives `rlock` up. -/
def fault (s : St n) (k : ℕ) : Option (St n) :=
  match s.rlock with
  | .copy first _ _ => do
    let l ← blocks s.sys.mem (some first)
    let m ← (l.take k).foldlM (fun m x => freeb m x.1) s.sys.mem
    return { s with sys := { s.sys with mem := m }, rlock := .free }
  | _ => none

def deed (s : St n) : Deed n → Option (St n)
  | .act a => (step s a).map Prod.snd
  | .fault k => fault s k

def Permitted (s : St n) : Deed n → Prop
  | .act a => Allowed s a
  | .fault k => ∃ first cnt len l, s.rlock = .copy first cnt len ∧ Chain Block.next s.sys.mem (some first) l ∧ k < l.length

/-- The blocks of a list by their addresses. -/
def listed (m : Mem n) (p : Option (Fin n)) : List (Fin n) := addrs ((blocks m p).getD [])

/-- The blocks on `q->bfirst`. -/
def onqueue (s : St n) : List (Fin n) := listed s.sys.mem s.sys.q.bfirst

/-- The blocks in the hands of a `qread` that has not returned. -/
def onreader (s : St n) : List (Fin n) := listed s.sys.mem s.rlock.held

/-- The block that the reader makes in its section under the `ilock`. -/
def split (s : St n) (r : Option (Room n)) : List (Fin n) :=
  match s.rlock, s.sys.q.bfirst.bind s.sys.mem with
  | .wait (.qbread len), some b => splits s.sys.q b len r
  | _, _ => []

/-- The blocks that come to the queue. On a queue with a `bypass` they are not the queue's. -/
def handed (s : St n) : Deed n → List (Fin n)
  | .act (.qpass x) | .act (.qpassnolim x) => listed s.sys.mem (some x)
  | .act (.qproduce _ r) => produced s.sys.q r
  | .act (.section1 r) => split s r
  | .act (.qbwrite x) => if s.sys.q.bypass then [] else [x]
  | .act (.qwblock _ r) => if s.sys.q.bypass then [] else [r.addr]
  | .act (.qiwblock _ r) => (r.map Room.addr).toList
  | _ => []

/-- The block that the reader returns from its section under the `ilock`. -/
def result (s : St n) (r : Option (Room n)) : Option (Fin n) :=
  match s.rlock, s.sys.q.bfirst with
  | .wait (.qbread len), some _ => (qbread s.sys len r).map Prod.fst
  | _, _ => none

/-- The blocks that are returned to a caller. -/
def returned (s : St n) : Deed n → List (Fin n)
  | .act .qget => ((qget s.sys).bind Prod.fst).toList
  | .act (.section1 r) => (result s r).toList
  | _ => []

/-- The blocks that the deed frees. -/
def freed (s : St n) (d : Deed n) (s' : St n) : List (Fin n) :=
  (onqueue s ++ onreader s ++ handed s d).filter fun y => (s'.sys.mem y).isNone

/-- The blocks handed in, returned and freed so far. -/
structure Ledger (n : ℕ) where
  handed : List (Fin n)
  returned : List (Fin n)
  freed : List (Fin n)

def Ledger.enter (g : Ledger n) (s : St n) (d : Deed n) (s' : St n) : Ledger n where
  handed := g.handed ++ Qio.handed s d
  returned := g.returned ++ Qio.returned s d
  freed := g.freed ++ Qio.freed s d s'

/-- A run of deeds that all meet `P`, with its ledger. -/
inductive Booked (P : St n → Deed n → Prop) (s : St n) : Ledger n → St n → Prop where
  | nil : Booked P s ⟨[], [], []⟩ s
  | snoc {g : Ledger n} {t u : St n} {d : Deed n} (hrun : Booked P s g t) (hd : P t d)
      (hdeed : deed t d = some u) : Booked P s (g.enter t d u) u

/-- No copy to user memory fails, `qconsume` does not find a queue of empty blocks only, and the count
of `qread` does not overflow. -/
def Clean (s : St n) : Deed n → Prop
  | .act (.qconsume _) => ∀ l, Chain Block.next s.sys.mem s.sys.q.bfirst l → l = [] ∨ ∃ z ∈ l, z.2.data ≠ []
  | .act a => Countable s a
  | .fault _ => False

/-- Every block is in one place. -/
def Balanced (g : Ledger n) (t : St n) : Prop :=
  (onqueue t ++ onreader t).Nodup ∧
    ∀ y, g.handed.count y = g.returned.count y + g.freed.count y + (onqueue t ++ onreader t).count y

section Places

variable {s s' : St n} {c c' : List (Cell n)} {h h' : List (Fin n × Block n)} {d : Deed n}

theorem listed_eq {m : Mem n} {p : Option (Fin n)} {l : List (Fin n × Block n)} (hl : Chain Block.next m p l) :
    listed m p = addrs l := by
  rw [listed, blocks_eq hl, Option.getD_some]

theorem Inv.onqueue (hinv : Inv s c h) : onqueue s = places c := by
  obtain ⟨l, hl, hcells⟩ := hinv.has.chain
  rw [Qio.onqueue, listed_eq hl, ← hcells, places_cells]

theorem Inv.onreader (hinv : Inv s c h) : onreader s = addrs h := listed_eq hinv.held.chain

theorem Inv.nodup (hinv : Inv s c h) : (places c ++ addrs h).Nodup := by
  obtain ⟨l, hl, hcells⟩ := hinv.has.chain
  rw [List.nodup_append]
  refine ⟨?_, hinv.held.chain.nodup, ?_⟩
  · rw [← hcells, places_cells]
    exact hl.nodup
  · intro y hy z hz heq
    rw [heq] at hy
    exact hinv.held.apart z hz hy

theorem Inv.live (hinv : Inv s c h) {y : Fin n} (hy : y ∈ places c ++ addrs h) : s.sys.mem y ≠ none := by
  intro hnone
  rcases List.mem_append.mp hy with hc | hh
  · exact hinv.has.fresh hnone hc
  · exact hinv.fresh hnone hh

/-- A deed that takes the blocks `new` in and gives the blocks `out` out: every block that there was is
where it was, or given out, or freed. -/
structure Account (new out : List (Fin n)) (c : List (Cell n)) (h : List (Fin n × Block n)) (m : Mem n)
    (c' : List (Cell n)) (h' : List (Fin n × Block n)) : Prop where
  new_nodup : new.Nodup
  new_apart : ∀ y ∈ new, y ∉ places c ++ addrs h
  out_nodup : out.Nodup
  out_had : ∀ y ∈ out, y ∈ places c ++ addrs h
  out_apart : ∀ y ∈ out, y ∉ places c' ++ addrs h' ∧ m y ≠ none
  sub : ∀ y ∈ places c' ++ addrs h', y ∈ places c ++ addrs h ++ new
  settled : ∀ y ∈ places c ++ addrs h ++ new, y ∈ places c' ++ addrs h' ∨ y ∈ out ∨ m y = none

/-- A deed that takes nothing in and gives nothing out. -/
theorem Account.quiet {m : Mem n} (hsub : ∀ y ∈ places c' ++ addrs h', y ∈ places c ++ addrs h)
    (hsettled : ∀ y ∈ places c ++ addrs h, y ∈ places c' ++ addrs h' ∨ m y = none) : Account [] [] c h m c' h' where
  new_nodup := List.nodup_nil
  new_apart := nofun
  out_nodup := List.nodup_nil
  out_had := nofun
  out_apart := nofun
  sub := by rwa [List.append_nil]
  settled := by
    rw [List.append_nil]
    exact fun y hy => (hsettled y hy).imp_right Or.inr

/-- Each block is counted on both sides. -/
theorem Account.count {new out : List (Fin n)} (hacc : Account new out c h s'.sys.mem c' h') (hinv : Inv s c h)
    (hinv' : Inv s' c' h') (y : Fin n) :
    (places c ++ addrs h).count y + new.count y =
      out.count y + ((places c ++ addrs h ++ new).filter fun y => (s'.sys.mem y).isNone).count y +
        (places c' ++ addrs h').count y := by
  have hall : (places c ++ addrs h ++ new).Nodup := by
    rw [List.nodup_append]
    refine ⟨hinv.nodup, hacc.new_nodup, ?_⟩
    intro y hy z hz heq
    rw [heq] at hy
    exact hacc.new_apart z hz hy
  have hfilter : y ∈ (places c ++ addrs h ++ new).filter (fun y => (s'.sys.mem y).isNone) ↔
      y ∈ places c ++ addrs h ++ new ∧ s'.sys.mem y = none := by
    rw [List.mem_filter, Option.isNone_iff_eq_none]
  rw [← List.count_append, hall.count, hacc.out_nodup.count, (hall.filter _).count, hinv'.nodup.count]
  by_cases hy : y ∈ places c ++ addrs h ++ new
  · rw [if_pos hy]
    rcases hacc.settled y hy with hin | hout | hnone
    · have hlive := hinv'.live hin
      have hnot : y ∉ out := fun hout => (hacc.out_apart y hout).1 hin
      rw [if_neg hnot, if_neg fun hfree => hlive (hfilter.mp hfree).2, if_pos hin]
    · obtain ⟨hnot, hlive⟩ := hacc.out_apart y hout
      rw [if_pos hout, if_neg fun hfree => hlive (hfilter.mp hfree).2, if_neg hnot]
    · have hnot : y ∉ places c' ++ addrs h' := fun hin => hinv'.live hin hnone
      have hnout : y ∉ out := fun hout => (hacc.out_apart y hout).2 hnone
      rw [if_neg hnout, if_pos (hfilter.mpr ⟨hy, hnone⟩), if_neg hnot]
  · have hnot : y ∉ places c' ++ addrs h' := fun hin => hy (hacc.sub y hin)
    have hnout : y ∉ out := fun hout => hy (List.mem_append_left _ (hacc.out_had y hout))
    rw [if_neg hy, if_neg hnout, if_neg fun hfree => hy (hfilter.mp hfree).1, if_neg hnot]

/-- A deed that keeps the blocks in order and accounts for them. -/
def Fair (s : St n) (c : List (Cell n)) (h : List (Fin n × Block n)) (d : Deed n) (r : Option (St n)) : Prop :=
  ∃ s' c' h', r = some s' ∧ Inv s' c' h' ∧ Snug s' h' ∧ Account (handed s d) (returned s d) c h s'.sys.mem c' h'

/-- A section that leaves the reader alone. -/
theorem Fair.settles (hinv : Inv s c h) (hsnug : Snug s' h) {r e : List (Fin n)} (hset : Settles r e s.sys c s'.sys c')
    (hhanded : handed s d = e) (hreturned : returned s d = r) (hlock : s'.rlock.held = s.rlock.held) (hnodup : e.Nodup)
    (hapart : ∀ y ∈ e, y ∉ places c ++ addrs h) (hone : r.Nodup)
    (hout : ∀ y ∈ r, y ∉ e ∧ y ∉ places c' ∧ s'.sys.mem y ≠ none) : Fair s c h d (some s') := by
  have hhad : ∀ y ∈ r, y ∈ places c := fun y hy => (hset.had y hy).resolve_right (hout y hy).1
  have hheld : ∀ y ∈ e, y ∉ addrs h := fun y hy hmem => hapart y hy (List.mem_append_right _ hmem)
  refine ⟨s', c', h, rfl, hinv.moves hset.toMoves hheld hlock, hsnug, ?_⟩
  rw [hhanded, hreturned]
  refine ⟨hnodup, hapart, hone, ?_, ?_, ?_, ?_⟩
  · exact fun y hy => List.mem_append_left _ (hhad y hy)
  · intro y hy
    obtain ⟨-, hc', hlive⟩ := hout y hy
    refine ⟨?_, hlive⟩
    intro hmem
    rcases List.mem_append.mp hmem with hin | hin
    · exact hc' hin
    · exact hinv.held.apart y hin (hhad y hy)
  · intro y hy
    simp only [List.mem_append] at hy ⊢
    rcases hy with hin | hin
    · rcases hset.sub y hin with hold | hnew
      · exact Or.inl (Or.inl hold)
      · exact Or.inr hnew
    · exact Or.inl (Or.inr hin)
  · intro y hy
    simp only [List.mem_append] at hy ⊢
    rcases hy with (hold | hheld) | hnew
    · exact (hset.out y (Or.inl hold)).imp_left Or.inl
    · exact Or.inl (Or.inr hheld)
    · exact (hset.out y (Or.inr hnew)).imp_left Or.inl

/-- A deed of no effect on the blocks. -/
theorem Fair.same (hinv' : Inv s' c h) (hsnug' : Snug s' h) (hhanded : handed s d = [])
    (hreturned : returned s d = []) : Fair s c h d (some s') := by
  refine ⟨s', c, h, rfl, hinv', hsnug', ?_⟩
  rw [hhanded, hreturned]
  exact Account.quiet (fun _ hy => hy) fun _ hy => Or.inl hy

end Places

section Deeds

variable {s : St n} {c : List (Cell n)} {h : List (Fin n × Block n)} (hinv : Inv s c h) (hsnug : Snug s h)

include hinv hsnug

theorem fair_qget : Fair s c h (.act .qget) (deed s (.act .qget)) := by
  obtain ⟨r, sys, hget, hset, hout⟩ := qget_spec hinv.has
  have hreturned : returned s (.act .qget) = r.toList := by simp only [returned, hget, Option.bind_some]
  rw [deed, step_of_qget hget, Option.map_some]
  refine Fair.settles hinv hsnug hset rfl hreturned rfl List.nodup_nil nofun ?_ ?_
  · cases r <;> simp
  · intro y hy
    exact ⟨List.not_mem_nil, hout y (Option.mem_toList.mp hy)⟩

theorem fair_qdiscard (len : ℤ) : Fair s c h (.act (.qdiscard len)) (deed s (.act (.qdiscard len))) := by
  obtain ⟨r, sys, c', hdiscard, hset⟩ := qdiscard_spec hinv.has len
  rw [deed, step_of_qdiscard hdiscard, Option.map_some]
  exact Fair.settles hinv hsnug hset rfl rfl rfl List.nodup_nil nofun List.nodup_nil nofun

theorem fair_qconsume (len : ℕ) (hclean : Clean s (.act (.qconsume len))) :
    Fair s c h (.act (.qconsume len)) (deed s (.act (.qconsume len))) := by
  obtain ⟨r, sys, c', e, hconsume, hset, hempty⟩ := qconsume_spec hinv.has len
  have he : e = [] := by
    obtain ⟨l, hl, rfl⟩ := hinv.has.chain
    apply hempty
    rcases hclean l hl with rfl | ⟨z, hz, hdata⟩
    · exact Or.inl rfl
    · exact Or.inr ⟨cell z, List.mem_map_of_mem hz, hdata⟩
  rw [he] at hset
  rw [deed, step_of_qconsume hconsume, Option.map_some]
  exact Fair.settles hinv hsnug hset rfl rfl rfl List.nodup_nil nofun List.nodup_nil nofun

/-- `qpass` and `qpassnolim`. -/
theorem fair_pass {d : Deed n} {x : Fin n} {k : List (Fin n × Block n)} {f : Sys n → Fin n → Option (ℤ × Sys n)}
    {full : Bool} {r : ℤ} {sys : Sys n} {c' : List (Cell n)} (hk : Chain Block.next s.sys.mem (some x) k)
    (hown : ∀ y ∈ addrs k, ¬ Mine s y) (hf : f s.sys x = some (r, sys))
    (hset : Settles [] (addrs k) s.sys c sys c') (hhanded : handed s d = listed s.sys.mem (some x))
    (hreturned : returned s d = []) : Fair s c h d ((pass s x f full).map Prod.snd) := by
  have hpass : (pass s x f full).map Prod.snd = some { s with sys := sys } := by
    simp only [pass, blocks_eq hk, hf, Option.bind_eq_bind, Option.bind_some, Option.pure_def, Option.map_some]
  rw [listed_eq hk] at hhanded
  rw [hpass]
  refine Fair.settles hinv hsnug hset hhanded hreturned rfl hk.nodup ?_ List.nodup_nil (by intros; contradiction)
  intro y hy hmem
  exact hown y hy ((hinv.mine y).mpr (List.mem_append.mp hmem))

theorem fair_qpass (x : Fin n) (hallowed : Allowed s (.qpass x)) :
    Fair s c h (.act (.qpass x)) (deed s (.act (.qpass x))) := by
  obtain ⟨k, hk, hown⟩ := hallowed
  obtain ⟨r, sys, hf, hset⟩ := qpass_spec hinv.has hk (hinv.own hown)
  exact fair_pass hinv hsnug hk hown hf hset rfl rfl

theorem fair_qpassnolim (x : Fin n) (hallowed : Allowed s (.qpassnolim x)) :
    Fair s c h (.act (.qpassnolim x)) (deed s (.act (.qpassnolim x))) := by
  obtain ⟨k, hk, hown⟩ := hallowed
  obtain ⟨r, sys, hf, hset⟩ := qpassnolim_spec hinv.has hk (hinv.own hown)
  exact fair_pass hinv hsnug hk hown hf hset rfl rfl

theorem fair_qproduce (p : List UInt8) (r : Option (Room n)) (hallowed : Allowed s (.qproduce p r)) :
    Fair s c h (.act (.qproduce p r)) (deed s (.act (.qproduce p r))) := by
  obtain ⟨v, sys, c', hproduce, hset, hfresh, -⟩ := qproduce_spec hinv.has p r hallowed
  rw [deed, step_of_qproduce hproduce, Option.map_some]
  refine Fair.settles hinv hsnug hset rfl rfl rfl ?_ ?_ List.nodup_nil nofun
  · rw [produced]
    split
    · exact List.nodup_nil
    · cases r <;> simp
  · intro y hy hmem
    exact hinv.live hmem (hfresh y hy)

theorem fair_qread {room : Option (Room n)} {len : ℕ} (hwait : s.rlock = .wait (.qread len))
    (hclean : Countable s (.section1 room)) :
    Fair s c h (.act (.section1 room)) ((section1 s (.qread len) room).map Prod.snd) := by
  have hnil := hinv.waiting hwait
  subst hnil
  have hhanded : handed s (.act (.section1 room)) = [] := by simp only [handed, split, hwait]
  have hreturned : returned s (.act (.section1 room)) = [] := by
    simp only [returned, result, hwait, Option.toList_none]
  have hheld : s.rlock.held = none := by rw [hwait]; rfl
  obtain ⟨t, sys, c', htake, htakes⟩ := qtake_spec len (n + 1) hinv.has (by
    have := hinv.has.length_le
    omega)
  cases t with
  | blocks first cnt =>
    obtain ⟨l, hset, hl, -, hcount⟩ := htakes
    have hsection : (section1 s (.qread len) room).map Prod.snd =
        some { s with sys := sys, rlock := .copy first cnt len } := by
      simp only [section1, htake, Option.bind_eq_bind, Option.bind_some, Option.pure_def, Option.map_some]
    rw [hsection]
    refine ⟨_, c', l, rfl, ⟨hset.has, hl⟩, ?_, ?_⟩
    · apply hcount
      cases hcoalesce : s.sys.q.coalesce with
      | false => exact Or.inl rfl
      | true =>
        obtain ⟨l₀, hl₀, hcells⟩ := hinv.has.chain
        rw [← hcells]
        exact Or.inr (hclean room len rfl hwait hcoalesce l₀ hl₀)
    · rw [hhanded, hreturned]
      apply Account.quiet
      · intro y hy
        rw [addrs_nil, List.append_nil]
        rcases List.mem_append.mp hy with hc | hl
        · exact (hset.sub y hc).resolve_right List.not_mem_nil
        · exact (hset.had y hl).resolve_right List.not_mem_nil
      · intro y hy
        rw [addrs_nil, List.append_nil] at hy
        rw [List.mem_append, or_assoc]
        exact hset.out y (Or.inl hy)
  | wait w =>
    obtain ⟨hw, hset, -⟩ := htakes
    have hsame : ∀ lock : Rlock n, lock.Idle →
        Fair s c [] (.act (.section1 room)) (some { s with sys := sys, rlock := lock }) := by
      intro lock hidle
      refine Fair.settles hinv ?_ hset hhanded hreturned (hidle.holds.1.trans hheld.symm) List.nodup_nil (by intros; contradiction)
        List.nodup_nil (by intros; contradiction)
      rcases hidle with rfl | ⟨r, rfl⟩ <;> trivial
    cases w with
    | ready => exact absurd rfl hw
    | sleep =>
      have hsection : (section1 s (.qread len) room).map Prod.snd =
          some { s with sys := sys, rlock := .wait (.qread len) } := by
        simp only [section1, htake, Option.bind_eq_bind, Option.bind_some, Option.pure_def, Option.map_some, ← hwait]
      rw [hsection]
      exact hsame _ (Or.inr ⟨_, rfl⟩)
    | eof =>
      simp only [section1, htake, Option.bind_eq_bind, Option.bind_some, Option.pure_def, Option.map_some]
      exact hsame _ (Or.inl rfl)
    | error =>
      simp only [section1, htake, Option.bind_eq_bind, Option.bind_some, Option.pure_def, Option.map_some]
      exact hsame _ (Or.inl rfl)

omit hsnug in
theorem fair_qbread {room : Option (Room n)} {len : ℕ} (hwait : s.rlock = .wait (.qbread len))
    (hallowed : Allowed s (.section1 room)) :
    Fair s c h (.act (.section1 room)) ((section1 s (.qbread len) room).map Prod.snd) := by
  have hheld : s.rlock.held = none := by rw [hwait]; rfl
  rcases qwait_cases s.sys.q with
    ⟨x, hfirst, hready⟩ | ⟨w, q', hw, hnot, hnone, hfirst, hlast, hlen, hdlen, hmode⟩
  · obtain ⟨b, cs, hmem, -, -⟩ := hinv.has.pop hfirst
    obtain ⟨sys, c', b', hread, hset, hfresh, hx, hmem', -⟩ :=
      qbread_spec hinv.has hfirst hmem len room fun hstream hlong =>
        hallowed.2 len x b hwait hfirst hmem (by simp [hstream]) hlong
    have hsection : (section1 s (.qbread len) room).map Prod.snd = some { s with sys := sys, rlock := .free } := by
      simp only [section1, hready, hread, hmem', Option.bind_eq_bind, Option.bind_some, Option.pure_def,
        Option.map_some]
    have hhanded : handed s (.act (.section1 room)) = splits s.sys.q b len room := by
      simp only [handed, split, hwait, hfirst, Option.bind_some, hmem]
    have hreturned : returned s (.act (.section1 room)) = [x] := by
      simp only [returned, result, hwait, hfirst, hread, Option.map_some, Option.toList_some]
    rw [hsection]
    refine Fair.settles hinv trivial hset hhanded hreturned hheld.symm ?_ ?_ (List.nodup_singleton x) ?_
    · rw [splits]
      split
      · cases room <;> simp
      · exact List.nodup_nil
    · intro y hy hin
      exact hinv.live hin (hfresh y hy)
    · intro y hy
      rw [List.mem_singleton.mp hy]
      refine ⟨?_, hx, by rw [hmem']; exact (by simp)⟩
      intro hnew
      rw [hfresh x hnew] at hmem
      cases hmem
  · have hhanded : handed s (.act (.section1 room)) = [] := by
      simp only [handed, split, hwait, hnone, Option.bind_none]
    have hreturned : returned s (.act (.section1 room)) = [] := by
      simp only [returned, result, hwait, hnone, Option.toList_none]
    have hset := (Settles.refl hinv.has []).flags hfirst hlast hlen hdlen hmode
    have hsame : ∀ lock : Rlock n, lock.Idle → Fair s c h (.act (.section1 room))
        (some { s with sys := { s.sys with q := q' }, rlock := lock }) := by
      intro lock hidle
      refine Fair.settles hinv ?_ hset hhanded hreturned (hidle.holds.1.trans hheld.symm) List.nodup_nil (by intros; contradiction)
        List.nodup_nil (by intros; contradiction)
      rcases hidle with rfl | ⟨r, rfl⟩ <;> trivial
    cases w with
    | ready => exact absurd rfl hw
    | sleep =>
      have hsection : (section1 s (.qbread len) room).map Prod.snd = some
          { s with sys := { s.sys with q := q' }, rlock := .wait (.qbread len) } := by
        simp only [section1, hnot, Option.map_some, ← hwait]
      rw [hsection]
      exact hsame _ (Or.inr ⟨_, rfl⟩)
    | eof =>
      simp only [section1, hnot, Option.map_some]
      exact hsame _ (Or.inl rfl)
    | error =>
      simp only [section1, hnot, Option.map_some]
      exact hsame _ (Or.inl rfl)

theorem fair_section1 (room : Option (Room n)) (hallowed : Allowed s (.section1 room))
    (hclean : Countable s (.section1 room)) :
    Fair s c h (.act (.section1 room)) (deed s (.act (.section1 room))) := by
  obtain ⟨r, hwait⟩ := hallowed.1
  rw [deed, step_of_section1 hwait]
  cases r with
  | qread len => exact fair_qread hinv hsnug hwait hclean
  | qbread len => exact fair_qbread hinv hwait hallowed

theorem fair_bl2mem (hallowed : Allowed s .bl2mem) : Fair s c h (.act .bl2mem) (deed s (.act .bl2mem)) := by
  obtain ⟨first, cnt, len, hcopy⟩ := hallowed
  have hchain : Chain Block.next s.sys.mem (some first) h := by
    have := hinv.held.chain
    rwa [hcopy] at this
  have hlength := hchain.length_le
  rw [Fintype.card_fin] at hlength
  obtain ⟨got, rest, m, l, hbl, hl, hframe, hsub, hgone, -, hshorter, hfit⟩ := bl2mem_spec n hchain len hlength
  rw [deed, step_of_bl2mem hcopy hbl, Option.map_some]
  refine ⟨_, c, l, rfl, ⟨?_, hl, ?_⟩, ?_, ?_⟩
  · refine hinv.has.congr (fun y hy => hframe y fun hmem => ?_) rfl rfl rfl rfl
    exact hinv.held.apart y hmem hy
  · exact fun y hy => hinv.held.apart y (hsub y hy)
  · simp only [Snug, hcopy] at hsnug ⊢
    rcases hsnug with hone | hall
    · omega
    · rw [hfit hall]
      exact Nat.zero_le _
  · apply Account.quiet
    · intro y hy
      rw [List.mem_append] at hy ⊢
      exact hy.imp_right (hsub y)
    · intro y hy
      rw [List.mem_append, or_assoc]
      exact (List.mem_append.mp hy).imp_right (hgone y)

theorem fair_section2 (hallowed : Allowed s .section2) : Fair s c h (.act .section2) (deed s (.act .section2)) := by
  obtain ⟨rest, got, cnt, hback⟩ := hallowed
  have hheld : Holds s.sys c rest h := by
    have := hinv.held
    rwa [hback] at this
  obtain ⟨r, sys, c', hend, hset, -⟩ := qreadend_spec hinv.has hheld cnt
  -- of one block at most, none is left behind
  have htail : (addrs h).tail = [] := by
    simp only [Snug, hback] at hsnug
    apply List.eq_nil_of_length_eq_zero
    rw [List.length_tail, addrs, List.length_map]
    omega
  rw [htail] at hset
  rw [deed, step_of_section2 hback hend, Option.map_some]
  refine ⟨_, c', [], rfl, ⟨hset.has, rfl, (by intros; contradiction)⟩, trivial, ?_⟩
  apply Account.quiet
  · intro y hy
    rw [addrs_nil, List.append_nil] at hy
    exact List.mem_append.mpr (hset.sub y hy)
  · intro y hy
    rw [addrs_nil, List.append_nil]
    exact (hset.out y (List.mem_append.mp hy)).imp_right (Or.resolve_left · List.not_mem_nil)

/-- `qbwrite` up to its flow control, from the state `s₀` in which its caller may still have to make the
block. -/
theorem fair_bwrite {d : Deed n} {s₀ : St n} {x : Fin n} {b : Block n} (hinv₀ : Inv s₀ c h)
    (hset₀ : Settles [x] [x] s₀.sys c s.sys c) (hlock : s.rlock = s₀.rlock) (hb : s.sys.mem x = some b)
    (hx : x ∉ places c ++ addrs h) (w : Option Writing)
    (hhanded : handed s₀ d = if s.sys.q.bypass then [] else [x]) (hreturned : returned s₀ d = []) :
    Fair s₀ c h d ((bwrite s x w).map Prod.snd) := by
  have hxc : x ∉ places c := fun hmem => hx (List.mem_append_left _ hmem)
  obtain ⟨wr, sys, c', hwrite, hset, -⟩ := qbwrite_spec hinv.has hb hxc
  simp only [bwrite, hb, hwrite, Option.bind_eq_bind, Option.bind_some, Option.pure_def]
  by_cases hbypass : s.sys.q.bypass
  · rw [if_pos hbypass] at hhanded ⊢
    exact Fair.same (hinv.same rfl ⟨rfl, rfl, rfl, rfl⟩ rfl) hsnug hhanded hreturned
  · rw [if_neg hbypass] at hhanded ⊢
    have hboth := hset₀.trans hset (fun y hy => Or.inr hy) fun y hy => hy
    have hapart : ∀ y ∈ [x], y ∉ places c ++ addrs h := by
      intro y hy
      rwa [List.mem_singleton.mp hy]
    have hfair : ∀ s' : St n, s'.sys = sys → s'.rlock = s.rlock → Fair s₀ c h d (some s') := by
      intro s' hsys hrlock
      refine Fair.settles hinv₀ ?_ (by rwa [hsys]) hhanded hreturned (by rw [hrlock, hlock]) (List.nodup_singleton x)
        hapart List.nodup_nil (by intros; contradiction)
      rwa [Snug, hrlock]
    cases wr with
    | queued => exact hfair _ rfl rfl
    | dropped => exact hfair _ rfl rfl
    | error => exact hfair _ rfl rfl

theorem fair_qbwrite (x : Fin n) (hallowed : Allowed s (.qbwrite x)) :
    Fair s c h (.act (.qbwrite x)) (deed s (.act (.qbwrite x))) := by
  obtain ⟨hfree, ⟨b, hb⟩, hown⟩ := hallowed
  rw [deed, step_of_qbwrite hfree]
  refine fair_bwrite hinv hsnug hinv ((Settles.refl hinv.has []).widen [x]) rfl hb ?_ none rfl rfl
  intro hmem
  exact hown ((hinv.mine x).mpr (List.mem_append.mp hmem))

theorem fair_qwblock (i : ℕ) (r : Room n) (hallowed : Allowed s (.qwblock i r)) :
    Fair s c h (.act (.qwblock i r)) (deed s (.act (.qwblock i r))) := by
  obtain ⟨hfree, w, hw, hfits⟩ := hallowed
  obtain ⟨b, -, -, -, halloc, hx, hset⟩ := hinv.has.alloc hfits
  have hxh := hinv.fresh hfits.1
  have hinv₁ : Inv { s with
      sys := ⟨Function.update s.sys.mem r.addr (some b), s.sys.q⟩
      writes := s.writes.eraseIdx i } c h :=
    hinv.moves hset.toMoves (fun y hy => by rwa [List.mem_singleton.mp hy]) rfl
  rw [deed, step_of_qwblock hfree hw halloc]
  refine fair_bwrite hinv₁ hsnug hinv hset rfl (Function.update_self r.addr (some b) s.sys.mem) ?_ (some w.next) rfl rfl
  intro hmem
  exact (List.mem_append.mp hmem).elim hx hxh

theorem fair_qiwblock (i : ℕ) (r : Option (Room n)) (hallowed : Allowed s (.qiwblock i r)) :
    Fair s c h (.act (.qiwblock i r)) (deed s (.act (.qiwblock i r))) := by
  obtain ⟨w, hw, hfits⟩ := hallowed
  cases r with
  | none =>
    simp only [deed, step, hw, Option.map_some]
    exact Fair.same (hinv.same rfl ⟨rfl, rfl, rfl, rfl⟩ rfl) hsnug rfl rfl
  | some r =>
    obtain ⟨b, hnext, -, -, halloc, hx, hset⟩ := hinv.has.alloc (hfits r rfl)
    obtain ⟨more, sys, c', hwrite, hset'⟩ := qiwrite_spec hset.has
      (Function.update_self r.addr (some b) s.sys.mem) hnext hx
    simp only [deed, step, hw, halloc, hwrite, Option.bind_eq_bind, Option.bind_some, Option.pure_def, Option.map_some]
    refine Fair.settles hinv hsnug (hset.trans hset' (fun y hy => Or.inr hy) fun y hy => hy) rfl rfl rfl
      (List.nodup_singleton r.addr) ?_ List.nodup_nil nofun
    intro y hy hmem
    rw [List.mem_singleton.mp hy] at hmem
    exact hinv.live hmem (hfits r rfl).1

omit hinv in
/-- `qflush` and `qclose`. -/
theorem fair_clear {d : Deed n} {m : Mem n} {q : Queue n} (hinv' : Inv { s with sys := ⟨m, q⟩ } [] h)
    (hfreed : ∀ y ∈ places c, m y = none) (hhanded : handed s d = []) (hreturned : returned s d = []) :
    Fair s c h d (some { s with sys := ⟨m, q⟩ }) := by
  refine ⟨_, [], h, rfl, hinv', hsnug, ?_⟩
  rw [hhanded, hreturned]
  apply Account.quiet
  · intro y hy
    exact List.mem_append_right _ hy
  · intro y hy
    rcases List.mem_append.mp hy with hc | hh
    · exact Or.inr (hfreed y hc)
    · exact Or.inl hh

theorem fair_qflush : Fair s c h (.act .qflush) (deed s (.act .qflush)) := by
  obtain ⟨m, hfree, hinv', hfreed⟩ := @Inv.clear n s c h hinv
    { s.sys.q with bfirst := none, len := 0, dlen := 0 } rfl rfl rfl
  simp only [deed, step, qflush, hfree, Option.bind_eq_bind, Option.bind_some, Option.pure_def, Option.map_some]
  exact fair_clear hsnug hinv' hfreed rfl rfl

theorem fair_qclose : Fair s c h (.act .qclose) (deed s (.act .qclose)) := by
  simp only [deed, step, qclose, Option.bind_eq_bind, Option.pure_def]
  obtain ⟨m, hfree, hinv', hfreed⟩ := @Inv.clear n s c h hinv { s.sys.q with
    closed := true
    flow := false
    starve := false
    err := Ehungup
    bfirst := none
    len := 0
    dlen := 0
    noblock := false } rfl rfl rfl
  rw [hfree]
  exact fair_clear hsnug hinv' hfreed rfl rfl

theorem fair_other (m : Mem n) (hallowed : Allowed s (.other m)) :
    Fair s c h (.act (.other m)) (deed s (.act (.other m))) := by
  have hmine : ∀ y, Mine s y → m y = s.sys.mem y := hallowed
  refine Fair.same ⟨?_, ?_, hinv.held.apart⟩ hsnug rfl rfl
  · refine hinv.has.congr (fun y hy => ?_) rfl rfl rfl rfl
    exact hmine y ((hinv.mine y).mpr (Or.inl hy))
  · refine Seg.frame hinv.held.chain fun y hy => ?_
    exact hmine y ((hinv.mine y).mpr (Or.inr hy))

omit hsnug in
/-- A deed that changes no blocks and takes or gives up a lock. -/
theorem fair_lock {d : Deed n} {s' : St n} (hmem : s'.sys.mem = s.sys.mem)
    (hq : s'.sys.q.bfirst = s.sys.q.bfirst ∧ s'.sys.q.blast = s.sys.q.blast ∧ s'.sys.q.len = s.sys.q.len ∧
      s'.sys.q.dlen = s.sys.q.dlen) (hold : s.rlock.Idle) (hnew : s'.rlock.Idle)
    (hhanded : handed s d = []) (hreturned : returned s d = []) : Fair s c h d (some s') := by
  refine Fair.same (hinv.same hmem hq (hnew.holds.1.trans hold.holds.1.symm)) ?_ hhanded hreturned
  rcases hnew with hfree | ⟨r, hwait⟩
  · rw [Snug, hfree]
    trivial
  · rw [Snug, hwait]
    trivial

omit hsnug in
theorem fair_rlock (r : Reader) (hallowed : Allowed s (.rlock r)) :
    Fair s c h (.act (.rlock r)) (deed s (.act (.rlock r))) := by
  have hfree : s.rlock = .free := hallowed
  simp only [deed, step, hfree, Option.map_some]
  exact fair_lock hinv rfl ⟨rfl, rfl, rfl, rfl⟩ (Or.inl hfree) (Or.inr ⟨r, rfl⟩) rfl rfl

omit hsnug in
theorem fair_rintr (hallowed : Allowed s .rintr) : Fair s c h (.act .rintr) (deed s (.act .rintr)) := by
  obtain ⟨r, hwait⟩ := hallowed
  simp only [deed, step, hwait, Option.map_some]
  exact fair_lock hinv rfl ⟨rfl, rfl, rfl, rfl⟩ (Or.inr ⟨r, hwait⟩) (Or.inl rfl) rfl rfl

theorem fair_flow (hallowed : Allowed s .flow) : Fair s c h (.act .flow) (deed s (.act .flow)) := by
  obtain ⟨w, hflow⟩ := hallowed
  simp only [deed, step, hflow]
  split
  all_goals exact Fair.same (hinv.same rfl ⟨rfl, rfl, rfl, rfl⟩ rfl) hsnug rfl rfl

theorem fair_wintr (hallowed : Allowed s .wintr) : Fair s c h (.act .wintr) (deed s (.act .wintr)) := by
  obtain ⟨w, hflow⟩ := hallowed
  simp only [deed, step, hflow, Option.map_some]
  exact Fair.same (hinv.same rfl ⟨rfl, rfl, rfl, rfl⟩ rfl) hsnug rfl rfl

/-- Every clean deed accounts for its blocks. -/
theorem deed_fair (d : Deed n) (hpermitted : Permitted s d) (hclean : Clean s d) : Fair s c h d (deed s d) := by
  cases d with
  | fault k => exact hclean.elim
  | act a =>
    cases a with
    | qget => exact fair_qget hinv hsnug
    | qdiscard len => exact fair_qdiscard hinv hsnug len
    | qconsume len => exact fair_qconsume hinv hsnug len hclean
    | qpass x => exact fair_qpass hinv hsnug x hpermitted
    | qpassnolim x => exact fair_qpassnolim hinv hsnug x hpermitted
    | qproduce p r => exact fair_qproduce hinv hsnug p r hpermitted
    | rlock r => exact fair_rlock hinv r hpermitted
    | section1 r => exact fair_section1 hinv hsnug r hpermitted hclean
    | rintr => exact fair_rintr hinv hpermitted
    | bl2mem => exact fair_bl2mem hinv hsnug hpermitted
    | section2 => exact fair_section2 hinv hsnug hpermitted
    | qbwrite x => exact fair_qbwrite hinv hsnug x hpermitted
    | qwrite p => exact Fair.same (hinv.same rfl ⟨rfl, rfl, rfl, rfl⟩ rfl) hsnug rfl rfl
    | qwblock i r => exact fair_qwblock hinv hsnug i r hpermitted
    | flow => exact fair_flow hinv hsnug hpermitted
    | wintr => exact fair_wintr hinv hsnug hpermitted
    | qiwrite p => exact Fair.same (hinv.same rfl ⟨rfl, rfl, rfl, rfl⟩ rfl) hsnug rfl rfl
    | qiwblock i r => exact fair_qiwblock hinv hsnug i r hpermitted
    | qflush => exact fair_qflush hinv hsnug
    | qclose => exact fair_qclose hinv hsnug
    | qhangup msg => exact Fair.same (hinv.same rfl ⟨rfl, rfl, rfl, rfl⟩ rfl) hsnug rfl rfl
    | qreopen => exact Fair.same (hinv.same rfl ⟨rfl, rfl, rfl, rfl⟩ rfl) hsnug rfl rfl
    | other m => exact fair_other hinv hsnug m hpermitted

end Deeds

section Books

variable {s t : St n} {g : Ledger n}

theorem Balanced.enter {c c' : List (Cell n)} {h h' : List (Fin n × Block n)} {d : Deed n} {u : St n}
    (hbal : Balanced g t) (hinv : Inv t c h) (hinv' : Inv u c' h')
    (hacc : Account (handed t d) (returned t d) c h u.sys.mem c' h') : Balanced (g.enter t d u) u := by
  rw [Balanced, hinv.onqueue, hinv.onreader] at hbal
  rw [Balanced, hinv'.onqueue, hinv'.onreader]
  refine ⟨hinv'.nodup, ?_⟩
  intro y
  have hbefore := hbal.2 y
  have hcount := hacc.count hinv hinv' y
  simp only [Ledger.enter, freed, hinv.onqueue, hinv.onreader]
  rw [List.count_append, List.count_append, List.count_append]
  omega

theorem Booked.balanced (hs : Opened s) (hrun : Booked (fun t d => Permitted t d ∧ Clean t d) s g t) :
    ∃ c h, Inv t c h ∧ Snug t h ∧ Balanced g t := by
  induction hrun with
  | nil =>
    refine ⟨[], [], hs.inv, ?_, ?_⟩
    · cases hs <;> trivial
    · rw [Balanced, hs.inv.onqueue, hs.inv.onreader]
      exact ⟨List.nodup_nil, fun _ => rfl⟩
  | snoc _ hd hdeed ih =>
    obtain ⟨c, h, hinv, hsnug, hbal⟩ := ih
    obtain ⟨u, c', h', heq, hinv', hsnug', hacc⟩ := deed_fair hinv hsnug _ hd.1 hd.2
    rw [hdeed] at heq
    cases heq
    exact ⟨c', h', hinv', hsnug', hbal.enter hinv hinv' hacc⟩

/-- In every interleaving of the calls in which no copy to user memory fails, `qconsume` does not meet a
queue of empty blocks only and `qread` can count the bytes queued, every block that came to the queue
is in one place: on the queue, with a `qread` that has not returned, returned to a caller, or freed. No
step that a caller may make next frees a block that is free. -/
theorem blocks_accounted (hs : Opened s) (hrun : Booked (fun t d => Permitted t d ∧ Clean t d) s g t) :
    Balanced g t ∧ ∀ a, Allowed t a → (step t a).isSome := by
  obtain ⟨c, h, hinv, -, hbal⟩ := hrun.balanced hs
  refine ⟨hbal, ?_⟩
  intro a hallowed
  obtain ⟨ev, u, -, -, hstep, -⟩ := step_good hinv a hallowed
  rw [hstep]
  rfl

/-- A new queue in a memory with one free address. -/
def newq : St 1 := ⟨⟨fun _ => none, qopen 100 false false false⟩, .free, .free, [], []⟩

theorem newq_opened : Opened newq := .qopen _ 100 false false false

theorem newq_produce {p : List UInt8} (hp : p.length ≤ 1) :
    Permitted newq (.act (.qproduce p (some ⟨0, 1⟩))) := by
  intro r hr
  cases hr
  exact ⟨rfl, hp, by decide⟩

theorem blocks_accounted_newq :
    ∃ g t, Booked (fun t d => Permitted t d ∧ Clean t d) newq g t ∧ g.handed = [0] ∧ Balanced g t := by
  have hclean : Clean newq (.act (.qproduce [7] (some ⟨0, 1⟩))) := fun _ _ heq => nomatch heq
  have hpermitted : Permitted newq (.act (.qproduce [7] (some ⟨0, 1⟩))) := newq_produce (by decide)
  obtain ⟨u, -, -, hdeed, -⟩ := deed_fair newq_opened.inv trivial _ hpermitted hclean
  have hrun : Booked (fun t d => Permitted t d ∧ Clean t d) newq _ u := .snoc .nil ⟨hpermitted, hclean⟩ hdeed
  exact ⟨_, u, hrun, rfl, (blocks_accounted newq_opened hrun).1⟩

/-- A block without data that `qconsume` passes is neither freed nor on the queue when no block with data
is behind it. -/
theorem qconsume_leaks : ∃ g t, Booked Permitted newq g t ∧ ¬ Balanced g t := by
  have hpermitted : Permitted newq (.act (.qproduce [] (some ⟨0, 1⟩))) := newq_produce (by decide)
  obtain ⟨u, hu⟩ : ∃ u, deed newq (.act (.qproduce [] (some ⟨0, 1⟩))) = some u := ⟨_, rfl⟩
  obtain ⟨t, ht⟩ : ∃ t, (deed newq (.act (.qproduce [] (some ⟨0, 1⟩)))).bind (deed · (.act (.qconsume 1))) = some t :=
    ⟨_, rfl⟩
  have hlast := ht
  rw [hu, Option.bind_some] at hlast
  refine ⟨_, t, .snoc (.snoc .nil hpermitted hu) (show Permitted u (.act (.qconsume 1)) from trivial) hlast, ?_⟩
  cases hu
  cases ht
  intro hbal
  exact absurd (hbal.2 0) (by decide)

end Books

end Petele.Qio
