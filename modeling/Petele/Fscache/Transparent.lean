import Petele.Fscache.Lists

set_option linter.unusedSectionVars false

namespace Petele.Fscache

variable {P M K : Type} [DecidableEq P] [DecidableEq M] [DecidableEq K]
variable {st st' : St P M K} {file k : K} {id : Ident} {content content' : List UInt8} {c : Chan M} {m : M}

section Contents

/-- The bytes that are right for the extents. Only those of the file that is looked at matter. -/
def Right (content : List UInt8) (id : Ident) (mc : Mntcache P) (x : ℕ) (b : UInt8) : Prop :=
  mc.id = id → x ≤ maxcache → content[x]? = some b

theorem store_old {buf : List UInt8} {off x : ℕ} {b : UInt8} (h : content[x]? = some b) (hx : x < off ∨ off + buf.length ≤ x) :
    (store content buf off)[x]? = some b := by
  obtain ⟨hlt, hb⟩ := List.getElem?_eq_some_iff.mp h
  have hlen : ((content ++ List.replicate (off - content.length) 0).take off).length = off := by
    rw [List.length_take, List.length_append, List.length_replicate]
    omega
  rw [store, List.append_assoc]
  rcases hx with hx | hx
  · rw [List.getElem?_append_left (by omega), List.getElem?_take_of_lt hx, List.getElem?_append_left hlt]
    exact h
  · rw [List.getElem?_append_right (by omega), List.getElem?_append_right (by omega), List.getElem?_drop, hlen]
    rw [show off + buf.length + (x - off - buf.length) = x by omega]
    exact h

theorem store_new {buf : List UInt8} {off j : ℕ} {b : UInt8} (h : buf[j]? = some b) : (store content buf off)[off + j]? = some b := by
  obtain ⟨hlt, hb⟩ := List.getElem?_eq_some_iff.mp h
  have hlen : ((content ++ List.replicate (off - content.length) 0).take off).length = off := by
    rw [List.length_take, List.length_append, List.length_replicate]
    omega
  rw [store, List.append_assoc, List.getElem?_append_right (by omega), hlen, Nat.add_sub_cancel_left, List.getElem?_append_left hlt]
  exact h

theorem differ_store (mc : Mntcache P) (buf : List UInt8) (off : ℕ) :
    Differ (Right content id mc) (Right (store content buf off) id mc) buf off :=
  ⟨fun _ _ h hx hid hle => store_old (h hid hle) hx, fun _ _ h _ _ => store_new h⟩

theorem serve_right {off n less j : ℕ} {b : UInt8} (h : (serve content off n less)[j]? = some b) : content[off + j]? = some b := by
  rw [serve, List.getElem?_take] at h
  split at h
  · rw [List.getElem?_take] at h
    split at h
    · rw [List.getElem?_drop] at h
      exact h
    · exact nomatch h
  · exact nomatch h

end Contents

section Counts

theorem count_creadloop (s : Store P) (pre l : List (Extent P)) (offset len : ℕ) : (creadloop s pre l offset len).2.2.count = s.count := by
  induction l generalizing s pre offset len with
  | nil => rfl
  | cons e post ih =>
    have hcount : (cpage s e).2.count = s.count := (age_tick s).2.2
    rw [creadloop]
    simp only
    split
    · rfl
    · split
      · exact hcount
      · split
        · exact hcount
        · exact (ih _ _ _ _).trans hcount

theorem count_cupdatelist (s : Store P) (l : List (Extent P)) (buf : List UInt8) (offset : ℕ) :
    s.count ≤ (cupdatelist s l buf offset).2.count := by
  rw [cupdatelist]
  simp only
  split
  · exact count_cchain _ _ _
  · split
    · exact Nat.le_refl _
    · split
      · split
        · exact (count_cpgmove _ _ _ _).symm.le.trans (count_cchain _ _ _)
        · exact (count_cpgmove _ _ _ _).symm.le.trans (count_cchain _ _ _)
      · exact count_cchain _ _ _

theorem count_cwritelist (s : Store P) (l : List (Extent P)) (buf : List UInt8) (offset : ℕ) :
    s.count ≤ (cwritelist s l buf offset).2.count := by
  rw [cwritelist]
  simp only
  split
  · exact count_cchain _ _ _
  · split
    · split
      · exact (count_cpgmove _ _ _ _).symm.le.trans (count_cchain _ _ _)
      · exact (count_cpgmove _ _ _ _).symm.le.trans (count_cchain _ _ _)
    · exact count_cchain _ _ _

theorem count_cread (st : St P M K) (k : K) (len off : ℕ) : (cread st k len off).2.store.count = st.store.count := by
  rw [cread]
  split
  · rfl
  · split
    · rfl
    · exact count_creadloop _ _ _ _ _

theorem count_cupdate (st : St P M K) (k : K) (buf : List UInt8) (off : ℕ) : st.store.count ≤ (cupdate st k buf off).store.count := by
  rw [cupdate]
  split
  · exact Nat.le_refl _
  · split
    · exact Nat.le_refl _
    · exact count_cupdatelist _ _ _ _

theorem count_cwrite (st : St P M K) (k : K) (buf : List UInt8) (off : ℕ) : st.store.count ≤ (cwrite st k buf off).store.count := by
  rw [cwrite]
  split
  · exact Nat.le_refl _
  · split
    · exact Nat.le_refl _
    · exact count_cwritelist _ _ _ _

theorem count_mntread (st : St P M K) (k : K) (n off : ℕ) (data : ℕ → ℕ → List UInt8) :
    st.store.count ≤ (mntread st k n off data).2.store.count := by
  rw [mntread]
  simp only
  split
  · exact (count_cread _ _ _ _).symm.le
  · exact (count_cread _ _ _ _).symm.le.trans (count_cupdate _ _ _ _)

theorem store_copen (st : St P M K) (k : K) (id : Ident) (vers : ℕ) : (copen st k id vers).store = st.store := by
  rw [copen]
  simp only
  split
  · rfl
  · split
    · rfl
    · split <;> rfl

theorem count_step {a : Act P K} (hs : step file id st a = some st') : st.store.count ≤ st'.store.count := by
  cases a with
  | opens k i vers =>
    simp only [step] at hs
    split at hs <;> split at hs <;> cases hs
    · rw [store_copen]
    · rw [store_copen]
  | reads env n off less =>
    cases hs
    exact count_mntread (withenv st env) file n off fun off n => serve st.content off n less
  | writes env buf off =>
    cases hs
    exact count_cwrite { withenv st env with content := store st.content buf off, vers := (st.vers + 1) % 2 ^ 32 } file buf off
  | readsother env k n off data =>
    simp only [step] at hs
    split at hs <;> cases hs
    exact count_mntread (withenv st env) k n off fun _ n => data.take n
  | writesother env k buf off =>
    simp only [step] at hs
    split at hs <;> cases hs
    exact count_cwrite (withenv st env) k buf off
  | reclaims p pg =>
    cases hs
    exact Nat.le_refl _

end Counts

section Invariant

theorem mcof_some (h : mcof st k = some (c, m)) :
    st.chan k = some c ∧ c.mc = some m ∧ (st.mc m).id = c.id ∧ (st.mc m).vers = c.vers := by
  rw [mcof, Option.bind_eq_some_iff] at h
  obtain ⟨c', hchan, h⟩ := h
  obtain ⟨m', hmc, h⟩ := Option.bind_eq_some_iff.mp h
  split at h
  · rename_i hdev
    simp only [Option.some.injEq, Prod.mk.injEq] at h
    obtain ⟨rfl, rfl⟩ := h
    rw [cdev, Bool.and_eq_true, decide_eq_true_eq, decide_eq_true_eq] at hdev
    exact ⟨hchan, hmc, hdev.1, hdev.2⟩
  · exact nomatch h

theorem mcof_setlist (hm : mcof st k = some (c, m)) (x : List (Extent P) × Store P) : mcof (setlist st m x) k = some (c, m) := by
  obtain ⟨hchan, hmc, hid, hvers⟩ := mcof_some hm
  have hdev : cdev { st.mc m with list := x.1 } c = true := by simp [cdev, hid, hvers]
  simp only [mcof, setlist, hchan, Option.bind_some, hmc, Function.update_self, if_pos hdev]

variable (file id)

/-- What holds between the server's bytes and the cache. -/
structure Inv (content : List UInt8) (st : St P M K) : Prop where
  numbered : Numbered st.store
  good : ∀ m, Good st.store (Right content id (st.mc m)) (st.mc m).list
  apart : ∀ m m', m ≠ m' → ∀ e ∈ (st.mc m).list, ∀ e' ∈ (st.mc m').list, e.bid ≠ e'.bid
  other : ∀ k c, st.chan k = some c → (c.id = id ↔ k = file)
  unused : ∀ m, (st.mc m).id = id → (st.chan file).bind Chan.mc ≠ some m → (st.mc m).list = []
  vers : ∀ c m, st.chan file = some c → c.mc = some m → (st.mc m).id = id → (st.mc m).vers = c.vers

variable {file id}

theorem inv_start (h : Start st) : Inv file id content st := by
  refine ⟨⟨by rw [h.pgno, h.count]; rfl, fun p bid hp => ?_⟩, fun m => ?_, fun m m' _ e he => ?_, fun k c hc => ?_, fun m _ _ => h.mc m,
    fun c m hc => ?_⟩
  · rw [Holds, h.hash] at hp
    exact nomatch hp.1
  · rw [h.mc]
    exact Good.nil
  · rw [h.mc] at he
    exact nomatch he
  · rw [h.chan] at hc
    exact nomatch hc
  · rw [h.chan] at hc
    exact nomatch hc

/-- Pages are reclaimed. -/
theorem Inv.age {s : Store P} (h : Inv file id content st) (ha : Age [] st.store s) (hc : s.count ≤ 2 ^ 32) :
    Inv file id content { st with store := s } :=
  ⟨h.numbered.age ha, fun m => (h.good m).age ha hc fun _ _ => List.not_mem_nil, h.apart, h.other, h.unused, h.vers⟩

/-- No extents are left for the file. -/
theorem Inv.empty (h : Inv file id content st) (hk : mcof st file = none) (hm : (st.mc m).id = id) : (st.mc m).list = [] := by
  apply h.unused m hm
  intro hmc
  obtain ⟨c, hchan, hmc⟩ := Option.bind_eq_some_iff.mp hmc
  have hvers := h.vers c m hchan hmc hm
  have hid := (h.other file c hchan).mpr rfl
  have hdev : cdev (st.mc m) c = true := by simp [cdev, hm, hid, hvers]
  rw [mcof, hchan, Option.bind_some, hmc, Option.bind_some, if_pos hdev] at hk
  exact nomatch hk

/-- The content may change where no extent has it. -/
theorem Inv.content_change (h : Inv file id content st)
    (hD : ∀ m, (st.mc m).id = id → (st.mc m).list = [] ∨ ∀ x b, x ≤ maxcache → content[x]? = some b → content'[x]? = some b) :
    Inv file id content' st := by
  refine ⟨h.numbered, fun m => ?_, h.apart, h.other, h.unused, h.vers⟩
  apply (h.good m).change
  intro e he _ i _ b hb hid hle
  rcases hD m hid with hnil | hsame
  · rw [hnil] at he
    exact nomatch he
  · exact hsame _ b hle (hb hid hle)

theorem Inv.fresh {x : List (Extent P) × Store P} {D : ℕ → UInt8 → Prop} {m' : M} (h : Inv file id content st) (hx : Changed st.store D (st.mc m).list x)
    (hc : x.2.count ≤ 2 ^ 32) (hne : m ≠ m') : ∀ e ∈ x.1, ∀ e' ∈ (st.mc m').list, e.bid ≠ e'.bid := by
  intro e he e' he' heq
  rcases hx.bids e he with hold | ⟨i, hi, hlt, hbid⟩
  · obtain ⟨e'', he'', hbid⟩ := List.mem_map.mp hold
    exact h.apart m m' hne e'' he'' e' he' (hbid.trans heq)
  · obtain ⟨j, hj, hbid'⟩ := ((h.good m').known e' he').given
    have hcount := hx.age.count
    have hij := bidof_inj (by omega) (by omega) (hbid.symm.trans (heq.trans hbid'))
    omega

/-- The extents change for one channel, and the content with them if it is the file's. -/
theorem Inv.setlist {x : List (Extent P) × Store P} (h : Inv file id content st) (hm : mcof st k = some (c, m))
    (hx : Changed st.store (Right content' id (st.mc m)) (st.mc m).list x) (hc : x.2.count ≤ 2 ^ 32) (hk : k ≠ file → content' = content) :
    Inv file id content' (Fscache.setlist st m x) := by
  obtain ⟨hchan, hmc, hid, hvers⟩ := mcof_some hm
  have hothers : ∀ m' ≠ m, Good st.store (Right content' id (st.mc m')) (st.mc m').list := by
    intro m' hne
    apply (h.good m').change
    intro e he _ i _ b hb hid' hle
    by_cases hkf : k = file
    · subst hkf
      rw [h.unused m' hid' (by rw [hchan, Option.bind_some, hmc]; exact fun heq => hne (Option.some.inj heq).symm)] at he
      exact nomatch he
    · rw [hk hkf]
      exact hb hid' hle
  have hsame : ∀ m' ≠ m, (Fscache.setlist st m x).mc m' = st.mc m' := fun m' hne => Function.update_of_ne hne _ _
  have hself : (Fscache.setlist st m x).mc m = { st.mc m with list := x.1 } := Function.update_self _ _ _
  refine ⟨h.numbered.age hx.age, fun m' => ?_, fun m₁ m₂ hne => ?_, h.other, fun m' hid' hne => ?_, fun c' m' hchan' hmc' hid' => ?_⟩
  · rcases eq_or_ne m' m with rfl | hne
    · rw [hself]
      exact hx.good
    · rw [hsame m' hne]
      apply (hothers m' hne).age hx.age hc
      intro e he hmem
      obtain ⟨e', he', hbid⟩ := List.mem_map.mp hmem
      exact h.apart m' m hne e he e' he' hbid.symm
  · rcases eq_or_ne m₁ m with rfl | hne₁
    · rw [hself, hsame m₂ hne.symm]
      exact h.fresh hx hc hne
    · rcases eq_or_ne m₂ m with rfl | hne₂
      · rw [hself, hsame m₁ hne₁]
        exact fun e he e' he' heq => h.fresh hx hc hne.symm e' he' e he heq.symm
      · rw [hsame m₁ hne₁, hsame m₂ hne₂]
        exact h.apart m₁ m₂ hne
  · rcases eq_or_ne m' m with rfl | hm'
    · rw [hself] at hid'
      have hkf := (h.other k c hchan).mp (hid.symm.trans hid')
      subst hkf
      rw [show (Fscache.setlist st m' x).chan k = some c from hchan, Option.bind_some, hmc] at hne
      exact absurd rfl hne
    · rw [hsame m' hm'] at hid' ⊢
      exact h.unused m' hid' hne
  · rcases eq_or_ne m' m with rfl | hm'
    · rw [hself] at hid' ⊢
      exact h.vers c' m' hchan' hmc' hid'
    · rw [hsame m' hm'] at hid' ⊢
      exact h.vers c' m' hchan' hmc' hid'

end Invariant

section Steps

variable {buf : List UInt8} {len off : ℕ}

theorem creadloop_length (s : Store P) (pre l : List (Extent P)) (offset len : ℕ) : (creadloop s pre l offset len).1.length ≤ len := by
  induction l generalizing s pre offset len with
  | nil => exact Nat.zero_le _
  | cons e post ih =>
    rw [creadloop]
    simp only
    split
    · exact Nat.zero_le _
    · split
      · exact Nat.zero_le _
      · split
        · simp only [bytes, List.length_map, List.length_range]
          exact Nat.min_le_left _ _
        · rename_i p _ _
          have hrest := ih (cpage s e).2 (pre ++ [e]) (offset + min len (e.len - (offset - e.start))) (len - min len (e.len - (offset - e.start)))
          simp only [List.length_append, bytes, List.length_map, List.length_range]
          omega

theorem creadlist_length (s : Store P) (l : List (Extent P)) (len offset : ℕ) : (creadlist s l len offset).1.length ≤ len :=
  creadloop_length _ _ _ _ _

theorem cread_spec (h : Inv file id content st) (hc : st.store.count ≤ 2 ^ 32) (len off : ℕ) :
    Inv file id content (cread st k len off).2 ∧
      (k = file → ∀ j b, (cread st k len off).1[j]? = some b → content[off + j]? = some b) := by
  rw [cread]
  split
  · exact ⟨h, nofun⟩
  · rename_i hmax
    split
    · exact ⟨h, nofun⟩
    · rename_i c m hm
      have hr := creadlist_spec len off (h.good m) hc
      refine ⟨h.setlist hm ⟨hr.age.mono (List.nil_subset _), hr.good, fun e he => .inl ?_⟩ (by rw [hr.count]; exact hc) fun _ => rfl, ?_⟩
      · exact List.mem_map_of_mem (hr.sub.subset he)
      · rintro rfl j b hj
        obtain ⟨hchan, -, hid, -⟩ := mcof_some hm
        apply hr.right j b hj (hid.trans ((h.other k c hchan).mpr rfl))
        have hlen := creadlist_length st.store (st.mc m).list len off
        have hlt : j < (creadlist st.store (st.mc m).list len off).1.length := (List.getElem?_eq_some_iff.mp hj).1
        omega

theorem Inv.cupdate (h : Inv file id content st) (hc : (Fscache.cupdate st k buf off).store.count ≤ 2 ^ 32)
    (hk : k = file → ∀ j b, buf[j]? = some b → content[off + j]? = some b) : Inv file id content (Fscache.cupdate st k buf off) := by
  rw [Fscache.cupdate] at hc ⊢
  split
  · exact h
  · rename_i hlen
    rw [if_neg hlen] at hc
    cases hm : mcof st k with
    | none => exact h
    | some x =>
      obtain ⟨c, m⟩ := x
      rw [hm] at hc
      obtain ⟨hchan, -, hid, -⟩ := mcof_some hm
      apply h.setlist hm _ hc fun _ => rfl
      apply cupdatelist_spec h.numbered (h.good m) hc
      intro j b hj hid' _
      exact hk ((h.other k c hchan).mp (hid.symm.trans hid')) j b hj

/-- A channel and its cache get another version. -/
theorem Inv.bump (h : Inv file id content st) (hm : mcof st k = some (c, m)) (v : ℕ) :
    Inv file id content { st with
      mc := Function.update st.mc m { st.mc m with vers := v }, chan := Function.update st.chan k (some { c with vers := v }) } := by
  obtain ⟨hchan, hmc, hid, -⟩ := mcof_some hm
  have hid' : ∀ m', (Function.update st.mc m { st.mc m with vers := v } m').id = (st.mc m').id := by
    intro m'
    rcases eq_or_ne m' m with rfl | hne
    · rw [Function.update_self]
    · rw [Function.update_of_ne hne]
  have hlist : ∀ m', (Function.update st.mc m { st.mc m with vers := v } m').list = (st.mc m').list := by
    intro m'
    rcases eq_or_ne m' m with rfl | hne
    · rw [Function.update_self]
    · rw [Function.update_of_ne hne]
  have hbind : (Function.update st.chan k (some { c with vers := v }) file).bind Chan.mc = (st.chan file).bind Chan.mc := by
    rcases eq_or_ne file k with rfl | hne
    · rw [Function.update_self, hchan, Option.bind_some, Option.bind_some]
    · rw [Function.update_of_ne hne]
  refine ⟨h.numbered, fun m' => ?_, fun m₁ m₂ hne => ?_, fun k' c' hc' => ?_, fun m' hm' hne => ?_, fun c' m' hc' hmc' hm' => ?_⟩
  · have hright : Right content id (Function.update st.mc m { st.mc m with vers := v } m') = Right content id (st.mc m') := by
      funext x b
      rw [Right, Right, hid']
    simp only [hright, hlist]
    exact h.good m'
  · simp only [hlist]
    exact h.apart m₁ m₂ hne
  · simp only at hc'
    rcases eq_or_ne k' k with rfl | hne
    · rw [Function.update_self, Option.some.injEq] at hc'
      subst hc'
      exact h.other k' c hchan
    · rw [Function.update_of_ne hne] at hc'
      exact h.other k' c' hc'
  · simp only [hid'] at hm'
    simp only [hbind] at hne
    simp only [hlist]
    exact h.unused m' hm' hne
  · simp only [hid'] at hm'
    simp only at hc'
    rcases eq_or_ne file k with rfl | hne
    · rw [Function.update_self, Option.some.injEq] at hc'
      subst hc'
      obtain rfl : m = m' := Option.some.inj (hmc.symm.trans hmc')
      simp only [Function.update_self]
    · rw [Function.update_of_ne hne] at hc'
      have hmm : m' ≠ m := by
        rintro rfl
        exact hne ((h.other k c hchan).mp (hid.symm.trans hm')).symm
      simp only [Function.update_of_ne hmm]
      exact h.vers c' m' hc' hmc' hm'

theorem Inv.cwrite (h : Inv file id content st) (hc : (Fscache.cwrite st k buf off).store.count ≤ 2 ^ 32)
    (hk : content' = if k = file then store content buf off else content) : Inv file id content' (Fscache.cwrite st k buf off) := by
  rw [Fscache.cwrite] at hc ⊢
  split
  · rename_i hout
    -- the bytes up to `maxcache` are as before
    apply h.content_change
    refine fun m hid => .inr fun x b hle hb => ?_
    rw [hk]
    split
    · apply store_old hb
      rcases hout with hout | rfl
      · exact .inl (Nat.lt_of_le_of_lt hle hout)
      · simpa using Nat.lt_or_ge x off
    · exact hb
  · rename_i hlen
    rw [if_neg hlen] at hc
    cases hm : mcof st k with
    | none =>
      apply h.content_change
      intro m hid
      rw [hk]
      split
      · rename_i hkf
        subst hkf
        exact .inl (h.empty hm hid)
      · exact .inr fun _ _ _ hb => hb
    | some x =>
      obtain ⟨c, m⟩ := x
      rw [hm] at hc
      obtain ⟨hchan, hmc, hid, hvers⟩ := mcof_some hm
      have hdiffer : Differ (Right content id (st.mc m)) (Right content' id (st.mc m)) buf off := by
        by_cases hkf : k = file
        · rw [if_pos hkf] at hk
          subst hk
          exact differ_store _ buf off
        · have hne : (st.mc m).id ≠ id := fun heq => hkf ((h.other k c hchan).mp (hid.symm.trans heq))
          exact ⟨fun _ _ _ _ hid' => absurd hid' hne, fun _ _ _ hid' => absurd hid' hne⟩
      have hset := h.setlist hm (cwritelist_spec h.numbered (h.good m) hc hdiffer) hc fun hkf => by rw [hk, if_neg hkf]
      simp only [← hvers]
      exact hset.bump (mcof_setlist hm _) _

theorem Inv.opened {i : Ident} {vers : ℕ} {o : Option M} (h : Inv file id content st)
    (hk : k = file ∧ i = id ∧ st.chan file = none ∨ k ≠ file ∧ i ≠ id) (hstore : st'.store = st.store)
    (hchan : st'.chan = Function.update st.chan k (some ⟨i, vers, o⟩))
    (hmc : ∀ m, st'.mc m = st.mc m ∨ (st'.mc m).id = i ∧ (st'.mc m).list = [])
    (ho : ∀ m, o = some m → (st'.mc m).vers = vers) : Inv file id content st' := by
  have hlist : ∀ m e, e ∈ (st'.mc m).list → st'.mc m = st.mc m := by
    intro m e he
    rcases hmc m with hm | ⟨-, hm⟩
    · exact hm
    · rw [hm] at he
      exact nomatch he
  refine ⟨by rw [hstore]; exact h.numbered, fun m => ?_, fun m m' hne e he e' he' => ?_, fun k' c hc => ?_, fun m hid hne => ?_,
    fun c m hc hm hid => ?_⟩
  · rcases hmc m with hm | ⟨-, hm⟩
    · rw [hm, hstore]
      exact h.good m
    · rw [hm]
      exact Good.nil
  · rw [hlist m e he] at he
    rw [hlist m' e' he'] at he'
    exact h.apart m m' hne e he e' he'
  · rw [hchan] at hc
    rcases eq_or_ne k' k with rfl | hne
    · rw [Function.update_self, Option.some.injEq] at hc
      subst hc
      rcases hk with ⟨hkf, hi, -⟩ | ⟨hkf, hi⟩
      · exact ⟨fun _ => hkf, fun _ => hi⟩
      · exact ⟨fun hi' => absurd hi' hi, fun hkf' => absurd hkf' hkf⟩
    · rw [Function.update_of_ne hne] at hc
      exact h.other k' c hc
  · rcases hmc m with hm | ⟨-, hm⟩
    · rw [hm] at hid ⊢
      apply h.unused m hid
      rcases hk with ⟨-, -, hnone⟩ | ⟨hkf, -⟩
      · rw [hnone]
        exact nofun
      · rw [hchan, Function.update_of_ne (Ne.symm hkf)] at hne
        exact hne
    · exact hm
  · rw [hchan] at hc
    rcases hk with ⟨rfl, -, -⟩ | ⟨hkf, hi⟩
    · rw [Function.update_self, Option.some.injEq] at hc
      subst hc
      exact ho m hm
    · rw [Function.update_of_ne (Ne.symm hkf)] at hc
      rcases hmc m with hsame | ⟨hid', -⟩
      · rw [hsame] at hid ⊢
        exact h.vers c m hc hm hid
      · exact absurd (hid'.symm.trans hid) hi

theorem Inv.copen {i : Ident} {vers : ℕ} (h : Inv file id content st)
    (hk : k = file ∧ i = id ∧ st.chan file = none ∨ k ≠ file ∧ i ≠ id) : Inv file id content (Fscache.copen st k i vers) := by
  rw [Fscache.copen]
  simp only
  split
  · exact h.opened hk rfl rfl (fun m => .inl rfl) nofun
  · split
    · rename_i m hfind
      have hid : (st.mc m).id = i := by simpa using List.find?_some hfind
      refine h.opened hk rfl rfl ?_ ?_
      · intro m'
        simp only
        split
        · exact .inl rfl
        · rcases eq_or_ne m' m with rfl | hne
          · exact .inr (by simp only [Function.update_self, and_self])
          · exact .inl (Function.update_of_ne hne _ _)
      · rintro m' ⟨⟩
        simp only
        split
        · assumption
        · simp only [Function.update_self]
    · split
      · exact h.opened hk rfl rfl (fun m => .inl rfl) nofun
      · rename_i m _ _
        refine h.opened hk rfl rfl ?_ ?_
        · intro m'
          rcases eq_or_ne m' m with rfl | hne
          · exact .inr (by simp only [Function.update_self, and_self])
          · exact .inl (Function.update_of_ne hne _ _)
        · rintro m' ⟨⟩
          simp only [Function.update_self]

end Steps

section Runs

theorem Inv.withenv (h : Inv file id content st) (hc : st.store.count ≤ 2 ^ 32) (env : List (Env P)) :
    Inv file id content (Fscache.withenv st env) :=
  h.age (age_env st.store env) hc

theorem Inv.mntread {data : ℕ → ℕ → List UInt8} {n off : ℕ} (h : Inv file id content st)
    (hc : (Fscache.mntread st k n off data).2.store.count ≤ 2 ^ 32)
    (hk : k = file → ∀ off n j b, (data off n)[j]? = some b → content[off + j]? = some b) :
    Inv file id content (Fscache.mntread st k n off data).2 := by
  have hold : st.store.count ≤ 2 ^ 32 := (count_mntread st k n off data).trans hc
  obtain ⟨hread, -⟩ := cread_spec (k := k) h hold n off
  rw [Fscache.mntread] at hc ⊢
  simp only at hc ⊢
  split
  · exact hread
  · rename_i hn
    rw [if_neg hn] at hc
    exact hread.cupdate hc fun hkf => hk hkf _ _

theorem content_cread (st : St P M K) (k : K) (len off : ℕ) : (cread st k len off).2.content = st.content := by
  rw [cread]
  split
  · rfl
  · split <;> rfl

theorem content_mntread (st : St P M K) (k : K) (n off : ℕ) (data : ℕ → ℕ → List UInt8) :
    (mntread st k n off data).2.content = st.content := by
  rw [mntread]
  simp only
  split
  · exact content_cread st k n off
  · rw [cupdate]
    split
    · exact content_cread st k n off
    · split <;> exact content_cread st k n off

theorem content_cwrite (st : St P M K) (k : K) (buf : List UInt8) (off : ℕ) : (cwrite st k buf off).content = st.content := by
  rw [cwrite]
  split
  · rfl
  · split <;> rfl

theorem content_copen (st : St P M K) (k : K) (i : Ident) (vers : ℕ) : (copen st k i vers).content = st.content := by
  rw [copen]
  simp only
  split
  · rfl
  · split
    · rfl
    · split <;> rfl

theorem Inv.step {a : Act P K} (h : Inv file id st.content st) (hs : Fscache.step file id st a = some st') (hc : st'.store.count ≤ 2 ^ 32) :
    Inv file id st'.content st' := by
  have hold := (count_step hs).trans hc
  cases a with
  | opens k i vers =>
    simp only [Fscache.step] at hs
    split at hs
    · split at hs
      · rename_i hkf hnone
        cases hs
        rw [content_copen]
        exact h.copen (.inl ⟨rfl, rfl, Option.isNone_iff_eq_none.mp hnone⟩)
      · exact nomatch hs
    · split at hs
      · exact nomatch hs
      · rename_i hkf hi
        cases hs
        rw [content_copen]
        exact h.copen (.inr ⟨hkf, hi⟩)
  | reads env n off less =>
    cases hs
    rw [content_mntread]
    exact (h.withenv hold env).mntread hc fun _ _ _ _ _ hb => serve_right hb
  | writes env buf off =>
    cases hs
    rw [content_cwrite]
    have henv := h.withenv hold env
    have hserver : Inv file id st.content { Fscache.withenv st env with content := store st.content buf off, vers := (st.vers + 1) % 2 ^ 32 } :=
      ⟨henv.numbered, henv.good, henv.apart, henv.other, henv.unused, henv.vers⟩
    exact hserver.cwrite hc (by rw [if_pos rfl])
  | readsother env k n off data =>
    simp only [Fscache.step] at hs
    split at hs
    · exact nomatch hs
    · rename_i hkf
      cases hs
      rw [content_mntread]
      exact (h.withenv hold env).mntread hc fun heq => absurd heq hkf
  | writesother env k buf off =>
    simp only [Fscache.step] at hs
    split at hs
    · exact nomatch hs
    · rename_i hkf
      cases hs
      rw [content_cwrite]
      exact (h.withenv hold env).cwrite hc (by rw [if_neg hkf]; rfl)
  | reclaims p pg =>
    cases hs
    exact h.age (age_uncachepage st.store p pg) hc

theorem Reachable.inv (h : Reachable file id st) (hc : st.store.count ≤ 2 ^ 32) : Inv file id st.content st := by
  induction h with
  | start h => exact inv_start h
  | step _ hs ih => exact (ih ((count_step hs).trans hc)).step hs hc

end Runs

section Wrap

/-- One page for a few bytes. -/
theorem cchain_short {s : Store P} {buf : List UInt8} {p : P} (hbuf : buf ≠ []) (hlen : buf.length ≤ PGSZ) (haux : (tick s).1.aux = some p)
    (offset : ℕ) : cchain s buf offset = ([⟨(tick s).2.pgno, offset, buf.length, p⟩], chainpage (tick s).2 p buf) := by
  rw [cchain, if_neg hbuf]
  simp only [haux, List.drop_eq_nil_of_le hlen, List.take_of_length_le hlen, Nat.min_eq_left hlen]
  rw [cchain, if_pos rfl]

def oneFile : Ident := ⟨5, 0, 0, 1⟩

/-- A cache for one file of three bytes. There are two pages. -/
def oneStart : St Bool Unit Unit where
  store := ⟨fun _ => ⟨0, fun _ => 0⟩, [], 0, [], 0⟩
  mc := fun _ => ⟨⟨0, 0, 0, 0⟩, 0, []⟩
  lru := [()]
  hash := fun _ => []
  chan := fun _ => none
  content := [0, 0, 1]
  vers := 0

theorem oneStart_start : Start oneStart := ⟨rfl, rfl, rfl, fun _ => rfl, fun _ => rfl⟩

/-- The first byte is in the cache. -/
structure One (st : St Bool Unit Unit) : Prop where
  store : st.store = ⟨fun p => if p then ⟨0, fun _ => 0⟩ else ⟨0, overwrite (fun _ => 0) 0 [0]⟩, [false], bidof 1, [], 1⟩
  mc : st.mc () = ⟨oneFile, 0, [⟨0, 0, 1, false⟩]⟩
  chan : st.chan () = some ⟨oneFile, 0, some ()⟩
  content : st.content = [0, 0, 1]

/-- The last byte is in the cache too, in the `k`-th page that has come after the first. -/
structure Round (k : ℕ) (st : St Bool Unit Unit) : Prop where
  store : st.store = ⟨fun p => if p then ⟨bidof k, overwrite (fun _ => 0) 0 [1]⟩ else ⟨0, overwrite (fun _ => 0) 0 [0]⟩, [true, false],
    bidof (k + 1), [], k + 1⟩
  mc : st.mc () = ⟨oneFile, 0, [⟨0, 0, 1, false⟩, ⟨bidof k, 2, 1, true⟩]⟩
  chan : st.chan () = some ⟨oneFile, 0, some ()⟩
  content : st.content = [0, 0, 1]

theorem mntread_miss {data : ℕ → ℕ → List UInt8} {n off : ℕ} {l : List (Extent P)} {s : Store P} (hm : mcof st k = some (c, m))
    (hlen : off + n ≤ maxcache) (hr : creadlist st.store (st.mc m).list n off = ([], l, s)) (hd : data off n ≠ []) :
    (mntread st k n off data).2 = setlist (setlist st m (l, s)) m (cupdatelist s l (data off n) off) := by
  have hread : cread st k n off = ([], setlist st m (l, s)) := by
    rw [cread, if_neg (by omega), hm]
    simp only [hr]
  rw [mntread, hread]
  simp only [List.length_nil, ne_eq, not_true, false_and, if_false, Nat.add_zero, Nat.sub_zero, cupdate, mcof_setlist hm]
  rw [if_neg (by simp only [hd, or_false]; omega)]
  simp only [setlist, Function.update_self]

/-- What the channel reads and is not in the cache comes into it. -/
theorem one_step {st : St Bool Unit Unit} {list l : List (Extent Bool)} {s : Store Bool} (env : List (Env Bool)) (off : ℕ) (b : UInt8)
    (hchan : st.chan () = some ⟨oneFile, 0, some ()⟩)
    (hmc : st.mc () = ⟨oneFile, 0, list⟩) (hcontent : st.content = [0, 0, 1]) (hb : serve [0, 0, 1] off 1 0 = [b]) (hoff : off < 3)
    (hr : creadlist { st.store with env := env } list 1 off = ([], l, s)) (h : Reachable () oneFile st) :
    ∃ st', Reachable () oneFile st' ∧ st'.store = (cupdatelist s l [b] off).2 ∧ st'.mc () = ⟨oneFile, 0, (cupdatelist s l [b] off).1⟩ ∧
      st'.chan () = some ⟨oneFile, 0, some ()⟩ ∧ st'.content = [0, 0, 1] := by
  refine ⟨_, .step h (a := .reads env 1 off 0) rfl, ?_⟩
  have hm : mcof (withenv st env) () = some (⟨oneFile, 0, some ()⟩, ()) := by
    simp only [mcof, withenv, hchan, Option.bind_some, hmc, cdev, decide_true, Bool.and_self, if_true]
  have hmax : maxcache = 1048576 := rfl
  rw [mntread_miss (l := l) (s := s) hm (by omega) (by simp only [withenv, hmc]; exact hr) (by rw [hcontent, hb]; exact List.cons_ne_nil _ _)]
  simp only [setlist, hcontent, hb, Function.update_self, hmc, withenv, hchan, and_self]

theorem one_reachable : ∃ st : St Bool Unit Unit, Reachable () oneFile st ∧ One st := by
  have hopen : step () oneFile oneStart (.opens () oneFile 0) = some (copen oneStart () oneFile 0) := rfl
  obtain ⟨st, hst, hstore, hmc, hchan, hcontent⟩ := one_step [⟨[], some false⟩] 0 0 rfl rfl rfl (by decide) (by omega) rfl
    (.step (.start oneStart_start) hopen)
  simp only [cupdatelist, List.takeWhile_nil, List.dropWhile_nil, List.getLast?_nil, trim] at hstore hmc
  rw [cchain_short (p := false) (List.cons_ne_nil _ _) (by decide) rfl] at hstore hmc
  refine ⟨st, hst, ?_, hmc, hchan, hcontent⟩
  rw [hstore]
  simp only [chainpage, tick, Store.mk.injEq]
  refine ⟨?_, rfl, nextpgno_bidof 0, rfl, rfl⟩
  funext p
  cases p <;> rfl

theorem cupdatelist_one (s : Store Bool) :
    cupdatelist s [⟨0, 0, 1, false⟩] [1] 2 = (⟨0, 0, 1, false⟩ :: (cchain s [1] 2).1, (cchain s [1] 2).2) := by
  simp [cupdatelist, trim]

/-- The page of the last byte is reclaimed and comes again. -/
theorem round_next {k : ℕ} (h : ∃ st : St Bool Unit Unit, Reachable () oneFile st ∧ Round k st) :
    ∃ st : St Bool Unit Unit, Reachable () oneFile st ∧ Round (k + 1) st := by
  obtain ⟨st, hst, hround⟩ := h
  have hr : creadlist { st.store with env := [⟨[(true, ⟨bidof k + 1, fun _ => 0⟩)], none⟩, ⟨[], some true⟩] } [⟨0, 0, 1, false⟩, ⟨bidof k, 2, 1, true⟩] 1 2 =
      ([], [⟨0, 0, 1, false⟩], ⟨fun p => if p then ⟨bidof k + 1, fun _ => 0⟩ else ⟨0, overwrite (fun _ => 0) 0 [0]⟩, [false], bidof (k + 1),
        [⟨[], some true⟩], k + 1⟩) := by
    rw [hround.store]
    simp [creadlist, creadloop, cpage, tick, uncachepage, List.takeWhile, List.dropWhile]
    funext p
    cases p <;> rfl
  obtain ⟨st', hst', hstore, hmc, hchan, hcontent⟩ := one_step _ 2 1 hround.chan hround.mc hround.content (by decide) (by omega) hr hst
  rw [cupdatelist_one] at hstore hmc
  rw [cchain_short (p := true) (List.cons_ne_nil _ _) (by decide) rfl] at hstore hmc
  refine ⟨st', hst', ?_, hmc, hchan, hcontent⟩
  rw [hstore]
  simp only [chainpage, tick, Store.mk.injEq]
  refine ⟨?_, rfl, nextpgno_bidof _, rfl, rfl⟩
  funext p
  cases p <;> rfl

theorem round_first : ∃ st : St Bool Unit Unit, Reachable () oneFile st ∧ Round 1 st := by
  obtain ⟨st, hst, hone⟩ := one_reachable
  have hr : creadlist { st.store with env := [⟨[], some true⟩] } [⟨0, 0, 1, false⟩] 1 2 =
      ([], [⟨0, 0, 1, false⟩], { st.store with env := [⟨[], some true⟩] }) := by
    simp [creadlist, creadloop, List.takeWhile, List.dropWhile]
  obtain ⟨st', hst', hstore, hmc, hchan, hcontent⟩ := one_step _ 2 1 hone.chan hone.mc hone.content (by decide) (by omega) hr hst
  rw [hone.store, cupdatelist_one] at hstore hmc
  rw [cchain_short (p := true) (List.cons_ne_nil _ _) (by decide) rfl] at hstore hmc
  refine ⟨st', hst', ?_, hmc, hchan, hcontent⟩
  rw [hstore]
  simp only [chainpage, tick, Store.mk.injEq]
  refine ⟨?_, rfl, nextpgno_bidof 1, rfl, rfl⟩
  funext p
  cases p <;> rfl

theorem round_reachable (k : ℕ) : ∃ st : St Bool Unit Unit, Reachable () oneFile st ∧ Round (k + 1) st := by
  induction k with
  | zero => exact round_first
  | succ k ih => exact round_next ih

/-- Every byte that `cread` gives is what the server has, as long as the numbers of the pages have not come round. -/
theorem cread_transparent (h : Reachable file id st) (hc : st.store.count ≤ 2 ^ 32) (env : List (Env P)) (len off j : ℕ) (b : UInt8)
    (hb : (cread (withenv st env) file len off).1[j]? = some b) : st.content[off + j]? = some b :=
  (cread_spec ((h.inv hc).withenv hc env) hc len off).2 rfl j b hb

/-- The first byte is read from the cache. -/
theorem cread_transparent_one : ∃ st : St Bool Unit Unit, Reachable () oneFile st ∧ st.store.count ≤ 2 ^ 32 ∧
    (cread (withenv st []) () 1 0).1[0]? = some 0 ∧ st.content[0 + 0]? = some 0 := by
  obtain ⟨st, hst, hone⟩ := one_reachable
  have hcount : st.store.count ≤ 2 ^ 32 := by rw [hone.store]; decide
  have hread : (cread (withenv st []) () 1 0).1[0]? = some 0 := by
    simp [cread, mcof, withenv, hone.chan, hone.mc, cdev, hone.store, creadlist, creadloop, cpage, tick, lookpage, bytes, overwrite, maxcache]
  exact ⟨st, hst, hcount, hread, cread_transparent hst hcount [] 1 0 0 0 hread⟩

/-- After the page `2 ^ 32` a number comes again that is still in use. -/
theorem cread_wrapped : ¬ ∀ st : St Bool Unit Unit, Reachable () oneFile st → ∀ (env : List (Env Bool)) (len off j : ℕ) (b : UInt8),
    (cread (withenv st env) () len off).1[j]? = some b → st.content[off + j]? = some b := by
  intro h
  obtain ⟨st, hst, hround⟩ := round_reachable (2 ^ 32 - 1)
  have hzero : bidof (2 ^ 32) = 0 := by decide
  have hzero' : bidof 4294967296 = 0 := hzero
  have hbyte := h st hst [] 1 0 0 1 (by
    simp [cread, mcof, withenv, hround.chan, hround.mc, cdev, hround.store, creadlist, creadloop, cpage, tick, lookpage, hzero, hzero', bytes, overwrite, maxcache])
  rw [hround.content] at hbyte
  exact absurd hbyte (by decide)

end Wrap

end Petele.Fscache
