import Petele.Fscache.Pages
import Mathlib.Data.List.TakeWhile

set_option linter.unusedSectionVars false

namespace Petele.Fscache

variable {P : Type} [DecidableEq P] {s s' : Store P} {D D' : ℕ → UInt8 → Prop} {l l₁ l₂ : List (Extent P)}

section Good

/-- The extents of a file, where `D` tells the bytes that are right. Those whose page is gone may overlap with others. -/
structure Good (s : Store P) (D : ℕ → UInt8 → Prop) (l : List (Extent P)) : Prop where
  known : ∀ e ∈ l, Known s e
  small : ∀ e ∈ l, e.len ≤ PGSZ
  nodup : (l.map Extent.bid).Nodup
  sorted : l.Pairwise fun a b => a.start ≤ b.start ∧ (Live s a → a.start + a.len ≤ b.start)
  data : ∀ e ∈ l, Live s e → ∀ i < e.len, D (e.start + i) ((s.page e.cache).v i)

theorem Good.nil : Good s D [] := ⟨nofun, nofun, List.nodup_nil, .nil, nofun⟩

theorem Good.sublist (h : Good s D l) (hl : l₁.Sublist l) : Good s D l₁ :=
  ⟨fun e he => h.known e (hl.subset he), fun e he => h.small e (hl.subset he), h.nodup.sublist (hl.map _), h.sorted.sublist hl,
    fun e he => h.data e (hl.subset he)⟩

theorem Good.age {S : List ℕ} (h : Good s D l) (ha : Age S s s') (hc : s'.count ≤ 2 ^ 32) (hS : ∀ e ∈ l, e.bid ∉ S) : Good s' D l := by
  refine ⟨fun e he => (h.known e he).age ha hc, h.small, h.nodup, ?_, fun e he hlive i hi => ?_⟩
  · apply List.Pairwise.imp_of_mem _ h.sorted
    intro a b hma _ hab
    exact ⟨hab.1, fun hlive => hab.2 ((h.known a hma).live ha hc hlive).1⟩
  · obtain ⟨hold, hsame⟩ := (h.known e he).live ha hc hlive
    rw [hsame (hS e he)]
    exact h.data e he hold i hi

theorem Good.append (h₁ : Good s D l₁) (h₂ : Good s D l₂) (hbid : ∀ a ∈ l₁, ∀ b ∈ l₂, a.bid ≠ b.bid)
    (hord : ∀ a ∈ l₁, ∀ b ∈ l₂, a.start ≤ b.start ∧ (Live s a → a.start + a.len ≤ b.start)) : Good s D (l₁ ++ l₂) := by
  refine ⟨?_, ?_, ?_, List.pairwise_append.mpr ⟨h₁.sorted, h₂.sorted, hord⟩, ?_⟩
  · intro e he
    exact (List.mem_append.mp he).elim (h₁.known e) (h₂.known e)
  · intro e he
    exact (List.mem_append.mp he).elim (h₁.small e) (h₂.small e)
  · rw [List.map_append, List.nodup_append]
    refine ⟨h₁.nodup, h₂.nodup, ?_⟩
    rintro x hx y hy rfl
    obtain ⟨a, ha, rfl⟩ := List.mem_map.mp hx
    obtain ⟨b, hb, heq⟩ := List.mem_map.mp hy
    exact hbid a ha b hb heq.symm
  · intro e he
    exact (List.mem_append.mp he).elim (h₁.data e) (h₂.data e)

theorem Good.parts (h : Good s D (l₁ ++ l₂)) :
    (∀ a ∈ l₁, ∀ b ∈ l₂, a.bid ≠ b.bid) ∧ ∀ a ∈ l₁, ∀ b ∈ l₂, a.start ≤ b.start ∧ (Live s a → a.start + a.len ≤ b.start) := by
  refine ⟨fun a ha b hb heq => ?_, (List.pairwise_append.mp h.sorted).2.2⟩
  have hn := h.nodup
  rw [List.map_append, List.nodup_append] at hn
  exact hn.2.2 _ (List.mem_map_of_mem ha) _ (List.mem_map_of_mem hb) heq

/-- Other bytes may be right if the extents keep off where they differ. -/
theorem Good.change (h : Good s D l) (hD : ∀ e ∈ l, Live s e → ∀ i < e.len, ∀ b, D (e.start + i) b → D' (e.start + i) b) : Good s D' l :=
  ⟨h.known, h.small, h.nodup, h.sorted, fun e he hlive i hi => hD e he hlive i hi _ (h.data e he hlive i hi)⟩

end Good

section Reading

theorem getElem?_bytes {v : ℕ → UInt8} {o n j : ℕ} {b : UInt8} (h : (bytes v o n)[j]? = some b) : j < n ∧ b = v (o + j) := by
  rw [bytes, List.getElem?_map] at h
  obtain ⟨i, hi, rfl⟩ := Option.map_eq_some_iff.mp h
  obtain ⟨hj, hi⟩ := List.getElem?_eq_some_iff.mp hi
  rw [List.length_range] at hj
  rw [List.getElem_range] at hi
  exact ⟨hj, by rw [hi]⟩

/-- What `cread` gives is right, and the extents that it drops have lost their pages. -/
structure Reads (s : Store P) (D : ℕ → UInt8 → Prop) (l : List (Extent P)) (offset : ℕ) (r : List UInt8 × List (Extent P) × Store P) : Prop where
  age : Age [] s r.2.2
  count : r.2.2.count = s.count
  good : Good r.2.2 D r.2.1
  sub : r.2.1.Sublist l
  right : ∀ j b, r.1[j]? = some b → D (offset + j) b

theorem creadloop_spec (pre l : List (Extent P)) (offset len : ℕ) (h : Good s D (pre ++ l)) (hc : s.count ≤ 2 ^ 32)
    (hstart : ∀ e, l.head? = some e → e.start ≤ offset) : Reads s D (pre ++ l) offset (creadloop s pre l offset len) := by
  induction l generalizing s pre offset len with
  | nil =>
    rw [creadloop]
    exact ⟨Age.refl _ _, rfl, by rw [List.append_nil] at h; exact h, by rw [List.append_nil], nofun⟩
  | cons e post ih =>
    rw [creadloop]
    split
    · exact ⟨Age.refl _ _, rfl, h, List.Sublist.refl _, nofun⟩
    · have he : e ∈ pre ++ e :: post := by simp
      obtain ⟨hage, -, hcount, ⟨hnone, -⟩ | ⟨hsome, hlive⟩⟩ := cpage_spec (h.known e he) hc
      · have hsub : (pre ++ post).Sublist (pre ++ e :: post) := (List.sublist_cons_self e post).append_left pre
        simp only [hnone]
        exact ⟨hage, hcount, (h.age hage (by omega) fun _ _ => List.not_mem_nil).sublist hsub, hsub, nofun⟩
      · have hgood := h.age hage (by omega) fun _ _ => List.not_mem_nil
        have hes := hstart e rfl
        simp only [hsome]
        have hbytes : ∀ j b, (bytes ((cpage s e).2.page e.cache).v (offset - e.start) (min len (e.len - (offset - e.start))))[j]? = some b →
            D (offset + j) b := by
          intro j b hj
          obtain ⟨hlt, rfl⟩ := getElem?_bytes hj
          have hdata := hgood.data e he hlive (offset - e.start + j) (by omega)
          rw [show e.start + (offset - e.start + j) = offset + j by omega] at hdata
          exact hdata
        split
        · exact ⟨hage, hcount, hgood, List.Sublist.refl _, hbytes⟩
        · rename_i hnext
          rw [not_not] at hnext
          have hih := ih (pre ++ [e]) (offset + min len (e.len - (offset - e.start))) (len - min len (e.len - (offset - e.start)))
            (by simpa using hgood) (by omega) (fun f hf => by
              rw [hf, Option.map_some] at hnext
              exact Nat.le_of_eq (Option.some.inj hnext))
          refine ⟨hage.trans hih.age, hih.count.trans hcount, hih.good, by simpa using hih.sub, fun j b hj => ?_⟩
          rw [List.getElem?_append] at hj
          split at hj
          · exact hbytes j b hj
          · rename_i hge
            have hlen : (bytes ((cpage s e).2.page e.cache).v (offset - e.start) (min len (e.len - (offset - e.start)))).length =
                min len (e.len - (offset - e.start)) := by
              rw [bytes, List.length_map, List.length_range]
            have hr := hih.right _ b hj
            rw [hlen] at hge hr
            rw [show offset + j = offset + min len (e.len - (offset - e.start)) + (j - min len (e.len - (offset - e.start))) by omega]
            exact hr

theorem creadlist_spec (len offset : ℕ) (h : Good s D l) (hc : s.count ≤ 2 ^ 32) : Reads s D l offset (creadlist s l len offset) := by
  have hsplit := List.takeWhile_append_dropWhile (p := fun e : Extent P => decide ¬ (e.start ≤ offset ∧ offset < e.start + e.len)) (l := l)
  rw [creadlist]
  have hloop := creadloop_spec (l.takeWhile fun e => decide ¬ (e.start ≤ offset ∧ offset < e.start + e.len))
    (l.dropWhile fun e => decide ¬ (e.start ≤ offset ∧ offset < e.start + e.len)) offset len (by rw [hsplit]; exact h) hc
    (fun e he => by
      have hhead := List.head?_dropWhile_not (fun e : Extent P => decide ¬ (e.start ≤ offset ∧ offset < e.start + e.len)) l
      rw [he] at hhead
      simp only [decide_eq_false_iff_not, not_not] at hhead
      exact hhead.1)
  rw [hsplit] at hloop
  exact hloop

end Reading

section Chains

/-- The extents that `cchain` makes for some bytes. -/
structure Chained (s : Store P) (D : ℕ → UInt8 → Prop) (buf : List UInt8) (offset : ℕ) (r : List (Extent P) × Store P) : Prop where
  age : Age [] s r.2
  good : Good r.2 D r.1
  inside : ∀ e ∈ r.1, offset ≤ e.start ∧ e.start + e.len ≤ offset + buf.length
  fresh : ∀ e ∈ r.1, ∃ i, s.count ≤ i ∧ i < r.2.count ∧ e.bid = bidof i

theorem count_cchain (s : Store P) (buf : List UInt8) (offset : ℕ) : s.count ≤ (cchain s buf offset).2.count := by
  fun_induction cchain s buf offset with
  | case1 => exact Nat.le_refl _
  | case2 s buf offset _ x _ => exact Nat.le_of_eq (age_tick s).2.2.symm
  | case3 s buf offset _ x p _ r ih =>
    have hcount : x.2.count = s.count := (age_tick s).2.2
    have hih : x.2.count + 1 ≤ r.2.count := ih
    simp only
    omega

theorem count_cpgmove (s : Store P) (e : Extent P) (buf : List UInt8) (boff : ℕ) : (cpgmove s e buf boff).2.count = s.count := by
  have hcount : (cpage s e).2.count = s.count := (age_tick s).2.2
  rw [cpgmove]
  simp only
  split <;> exact hcount

theorem cchain_spec (buf : List UInt8) (offset : ℕ) (hn : Numbered s) (hc : (cchain s buf offset).2.count ≤ 2 ^ 32)
    (hD : ∀ j b, buf[j]? = some b → D (offset + j) b) : Chained s D buf offset (cchain s buf offset) := by
  fun_induction cchain s buf offset with
  | case1 => exact ⟨Age.refl _ _, Good.nil, nofun, nofun⟩
  | case2 s buf offset _ x _ => exact ⟨(age_tick s).1, Good.nil, nofun, nofun⟩
  | case3 s buf offset hbuf x p _ r ih =>
    obtain ⟨htick, hpgno, hcount⟩ := age_tick s
    have hnx : Numbered x.2 := hn.age htick
    have hpage := age_chainpage x.2 p (buf.take PGSZ) hnx.pgno
    have hnp := hnx.age hpage
    have hrest := ih hnp hc (fun j b hj => by
      rw [List.getElem?_drop] at hj
      have hd := hD _ b hj
      have hlt := (List.getElem?_eq_some_iff.mp hj).1
      rw [show offset + min buf.length PGSZ + j = offset + (PGSZ + j) by omega]
      exact hd)
    have hlate : x.2.count + 1 ≤ r.2.count := hrest.age.count
    change r.2.count ≤ 2 ^ 32 at hc
    have hxc : x.2.count = s.count := hcount
    have hknown : Known (chainpage x.2 p (buf.take PGSZ)) ⟨x.2.pgno, offset, min buf.length PGSZ, p⟩ :=
      known_chainpage hnx (by omega) p (buf.take PGSZ) offset _
    have hnew : Good r.2 D [⟨x.2.pgno, offset, min buf.length PGSZ, p⟩] := by
      refine ⟨?_, ?_, by simp, by simp, ?_⟩
      · intro e he
        rw [List.mem_singleton.mp he]
        exact hknown.age hrest.age hc
      · intro e he
        rw [List.mem_singleton.mp he]
        exact Nat.min_le_right ..
      · intro e he hlive i hi
        obtain rfl := List.mem_singleton.mp he
        obtain ⟨-, hsame⟩ := hknown.live hrest.age hc hlive
        simp only at hi hsame
        have hlen : i < (buf.take PGSZ).length := by
          rw [List.length_take]
          omega
        have hv : ((chainpage x.2 p (buf.take PGSZ)).page p).v (0 + i) = (buf.take PGSZ)[i] := by
          simp only [chainpage, Function.update_self]
          exact overwrite_inside hlen
        rw [Nat.zero_add] at hv
        rw [hsame List.not_mem_nil, hv]
        apply hD
        rw [List.getElem_take, List.getElem?_eq_getElem]
    refine ⟨htick.trans (hpage.trans hrest.age), hnew.append hrest.good ?_ ?_, ?_, ?_⟩
    · intro a ha b hb heq
      rw [List.mem_singleton.mp ha] at heq
      obtain ⟨i, hi, hlt, hbid⟩ := hrest.fresh b hb
      have hi' : x.2.count + 1 ≤ i := hi
      have hlt' : i < r.2.count := hlt
      have := bidof_inj (by omega) (by omega) (hnx.pgno.symm.trans (heq.trans hbid))
      omega
    · intro a ha b hb
      rw [List.mem_singleton.mp ha]
      have := (hrest.inside b hb).1
      simp only
      omega
    · intro e he
      rcases List.mem_cons.mp he with rfl | he
      · simp only
        omega
      · have hin := hrest.inside e he
        rw [List.length_drop] at hin
        omega
    · intro e he
      rcases List.mem_cons.mp he with rfl | he
      · exact ⟨x.2.count, Nat.le_of_eq hxc.symm, hlate, hnx.pgno⟩
      · obtain ⟨i, hi, hlt, hbid⟩ := hrest.fresh e he
        have hi' : x.2.count + 1 ≤ i := hi
        exact ⟨i, by omega, hlt, hbid⟩

end Chains

section Changes

variable {pre post : List (Extent P)} {buf : List UInt8} {offset : ℕ}

/-- What a change of the extents of a file does. -/
structure Changed (s : Store P) (D : ℕ → UInt8 → Prop) (l : List (Extent P)) (r : List (Extent P) × Store P) : Prop where
  age : Age (l.map Extent.bid) s r.2
  good : Good r.2 D r.1
  bids : ∀ e ∈ r.1, e.bid ∈ l.map Extent.bid ∨ ∃ i, s.count ≤ i ∧ i < r.2.count ∧ e.bid = bidof i

/-- New extents between others. -/
theorem chain_between (hn : Numbered s) (hg : Good s D (pre ++ post)) (hc : (cchain s buf offset).2.count ≤ 2 ^ 32)
    (hD : ∀ j b, buf[j]? = some b → D (offset + j) b)
    (hpre : buf ≠ [] → ∀ a ∈ pre, a.start ≤ offset ∧ (Live s a → a.start + a.len ≤ offset))
    (hpost : ∀ b ∈ post, offset + buf.length ≤ b.start) :
    Changed s D (pre ++ post) (pre ++ ((cchain s buf offset).1 ++ post), (cchain s buf offset).2) := by
  have hch := cchain_spec buf offset hn hc hD
  have hold := hg.age hch.age hc fun _ _ => List.not_mem_nil
  have hnew : ∀ a ∈ pre ++ post, ∀ b ∈ (cchain s buf offset).1, a.bid ≠ b.bid := by
    intro a ha b hb heq
    obtain ⟨i, hi, hbid⟩ := (hg.known a ha).given
    obtain ⟨j, hj, hlt, hbid'⟩ := hch.fresh b hb
    have := bidof_inj (by omega) (by omega) (hbid.symm.trans (heq.trans hbid'))
    omega
  obtain ⟨hbids, hord⟩ := hold.parts
  have hright : Good (cchain s buf offset).2 D ((cchain s buf offset).1 ++ post) := by
    apply hch.good.append (hold.sublist (List.sublist_append_right ..))
    · intro a ha b hb
      exact (hnew b (List.mem_append_right _ hb) a ha).symm
    · intro a ha b hb
      have := hch.inside a ha
      have := hpost b hb
      exact ⟨by omega, fun _ => by omega⟩
  refine ⟨hch.age.mono (List.nil_subset _), (hold.sublist (List.sublist_append_left ..)).append hright ?_ ?_, fun e he => ?_⟩
  · intro a ha b hb
    rcases List.mem_append.mp hb with hb | hb
    · exact hnew a (List.mem_append_left _ ha) b hb
    · exact hbids a ha b hb
  · intro a ha b hb
    rcases List.mem_append.mp hb with hb | hb
    · have hne : buf ≠ [] := by
        rintro rfl
        rw [cchain, if_pos rfl] at hb
        exact nomatch hb
      have hstart := (hch.inside b hb).1
      obtain ⟨hle, hend⟩ := hpre hne a ha
      refine ⟨by omega, fun hlive => ?_⟩
      have := hend ((hg.known a (List.mem_append_left _ ha)).live hch.age hc hlive).1
      omega
    · exact hord a ha b hb
  · rcases List.mem_append.mp he with he | he
    · exact .inl (List.mem_map_of_mem (List.mem_append_left _ he))
    · rcases List.mem_append.mp he with he | he
      · exact .inr (hch.fresh e he)
      · exact .inl (List.mem_map_of_mem (List.mem_append_right _ he))

theorem Changed.after {S : List ℕ} {l' : List (Extent P)} {r : List (Extent P) × Store P} (h : Changed s' D l' r) (ha : Age S s s')
    (hS : S ⊆ l.map Extent.bid) (hl : l'.map Extent.bid ⊆ l.map Extent.bid) : Changed s D l r := by
  refine ⟨(ha.mono hS).trans (h.age.mono hl), h.good, fun e he => ?_⟩
  rcases h.bids e he with hb | ⟨i, hi, hlt, hbid⟩
  · exact .inl (hl hb)
  · exact .inr ⟨i, Nat.le_trans ha.count hi, hlt, hbid⟩

/-- Data has been moved into the page of an extent, and other bytes are right. -/
theorem Good.move {p : Extent P} {n : ℕ} (h : Good s D (pre ++ p :: post)) (ha : Age [p.bid] s s') (hc : s'.count ≤ 2 ^ 32) (hn : n ≤ PGSZ)
    (hdata : Live s' p → ∀ i < n, D' (p.start + i) ((s'.page p.cache).v i))
    (hrest : ∀ e ∈ pre ++ post, Live s e → ∀ i < e.len, ∀ b, D (e.start + i) b → D' (e.start + i) b)
    (hpost : Live s' p → ∀ b ∈ post, p.start + n ≤ b.start) : Good s' D' (pre ++ { p with len := n } :: post) := by
  have hmem : p ∈ pre ++ p :: post := by simp
  have hknown := (h.known p hmem).age ha hc
  obtain ⟨hbids, hord⟩ := h.parts
  have hright : Good s D ([p] ++ post) := h.sublist (List.sublist_append_right pre (p :: post))
  obtain ⟨hbids', hord'⟩ := hright.parts
  have hothers : Good s' D' (pre ++ post) := by
    apply ((h.sublist ((List.sublist_cons_self p post).append_left pre)).change hrest).age ha hc
    intro e he hep
    rw [List.mem_singleton] at hep
    rcases List.mem_append.mp he with he | he
    · exact hbids e he p List.mem_cons_self hep
    · exact hbids' p (List.mem_singleton_self p) e he hep.symm
  have hp : Good s' D' [{ p with len := n }] := by
    refine ⟨?_, ?_, by simp, by simp, ?_⟩
    · intro e he
      rw [List.mem_singleton.mp he]
      exact ⟨hknown.given, hknown.own⟩
    · intro e he
      rw [List.mem_singleton.mp he]
      exact hn
    · intro e he hlive i hi
      obtain rfl := List.mem_singleton.mp he
      exact hdata hlive i hi
  have hlast : Good s' D' ([{ p with len := n }] ++ post) := by
    apply hp.append (hothers.sublist (List.sublist_append_right ..))
    · intro a ha b hb
      rw [List.mem_singleton.mp ha]
      exact hbids' p (List.mem_singleton_self p) b hb
    · intro a ha b hb
      rw [List.mem_singleton.mp ha]
      exact ⟨(hord' p (List.mem_singleton_self p) b hb).1, fun hlive => hpost hlive b hb⟩
  have hlive : ∀ a ∈ pre, Live s' a → Live s a := fun a hma hl =>
    ((h.known a (List.mem_append_left _ hma)).live ha hc hl).1
  apply (hothers.sublist (List.sublist_append_left ..)).append hlast
  · intro a ha b hb
    rcases List.mem_cons.mp hb with rfl | hb
    · exact hbids a ha p List.mem_cons_self
    · exact hbids a ha b (List.mem_cons_of_mem _ hb)
  · intro a ha b hb
    rcases List.mem_cons.mp hb with rfl | hb
    · have hap := hord a ha p List.mem_cons_self
      exact ⟨hap.1, fun hl => hap.2 (hlive a ha hl)⟩
    · have hab := hord a ha b (List.mem_cons_of_mem _ hb)
      exact ⟨hab.1, fun hl => hab.2 (hlive a ha hl)⟩

/-- The places of the extents in front of an offset and of those behind it. -/
theorem Good.split {q : Extent P → Bool} (h : Good s D l) (hq : ∀ a b : Extent P, a.start ≤ b.start → q b = true → q a = true) :
    l.takeWhile q ++ l.dropWhile q = l ∧ (∀ a ∈ l.takeWhile q, q a = true) ∧ ∀ b ∈ l.dropWhile q, q b = false := by
  have hsplit := List.takeWhile_append_dropWhile (p := q) (l := l)
  refine ⟨hsplit, fun a ha => List.mem_takeWhile_imp ha, fun b hb => ?_⟩
  cases hd : l.dropWhile q with
  | nil =>
    rw [hd] at hb
    exact nomatch hb
  | cons f post =>
    have hhead := List.head?_dropWhile_not q l
    rw [hd] at hb hhead
    rcases List.mem_cons.mp hb with rfl | hb
    · exact hhead
    · have hsorted := h.sorted
      rw [← hsplit, hd] at hsorted
      have hfb := List.rel_of_pairwise_cons (List.pairwise_append.mp hsorted).2.1 hb
      by_contra hqb
      have hqf := hq f b hfb.1 (by simpa using hqb)
      exact absurd (hqf.symm.trans hhead) (by decide)

/-- The bytes from an offset on change. -/
structure Differ (D D' : ℕ → UInt8 → Prop) (buf : List UInt8) (offset : ℕ) : Prop where
  old : ∀ x b, D x b → x < offset ∨ offset + buf.length ≤ x → D' x b
  new : ∀ j b, buf[j]? = some b → D' (offset + j) b

/-- `cchain` where no extent that is left has any of the bytes. -/
theorem chain_apart (hn : Numbered s) (hg : Good s D (pre ++ post)) (hc : (cchain s buf offset).2.count ≤ 2 ^ 32) (hD : Differ D D' buf offset)
    (hpre : ∀ a ∈ pre, a.start ≤ offset ∧ (Live s a → a.start + a.len ≤ offset)) (hpost : ∀ b ∈ post, offset + buf.length ≤ b.start) :
    Changed s D' (pre ++ post) (pre ++ ((cchain s buf offset).1 ++ post), (cchain s buf offset).2) := by
  apply chain_between hn _ hc hD.new (fun _ => hpre) hpost
  apply hg.change
  intro e he hlive i hi b hb
  apply hD.old _ b hb
  rcases List.mem_append.mp he with he | he
  · have := (hpre e he).2 hlive
    omega
  · have := hpost e he
    omega

/-- The bytes are packed into the page of an extent as far as there is room. -/
def pack (s : Store P) (pre : List (Extent P)) (p : Extent P) (post : List (Extent P)) (buf : List UInt8) (offset : ℕ) : List (Extent P) × Store P :=
  let o := PGSZ - (offset - p.start)
  let x := cpgmove s p (buf.take o) (offset - p.start)
  if x.1 then
    let r := cchain x.2 (buf.drop o) (offset + (buf.take o).length)
    (pre ++ { p with len := max p.len (offset - p.start + (buf.take o).length) } :: (r.1 ++ post), r.2)
  else
    let r := cchain x.2 buf offset
    (pre ++ p :: (r.1 ++ post), r.2)

theorem pack_spec {p : Extent P} (hn : Numbered s) (hg : Good s D (pre ++ p :: post)) (hc : (pack s pre p post buf offset).2.count ≤ 2 ^ 32)
    (hD : Differ D D' buf offset) (hstart : p.start ≤ offset) (hend : offset ≤ p.start + p.len) (hroom : offset - p.start < PGSZ)
    (hpost : ∀ b ∈ post, offset + buf.length ≤ b.start) : Changed s D' (pre ++ p :: post) (pack s pre p post buf offset) := by
  have hmem : p ∈ pre ++ p :: post := by simp
  have hsmall := hg.small p hmem
  obtain ⟨-, hord⟩ := hg.parts
  have hbefore : ∀ a ∈ pre, a.start ≤ offset ∧ (Live s a → a.start + a.len ≤ p.start) := fun a ha =>
    ⟨Nat.le_trans (hord a ha p List.mem_cons_self).1 hstart, (hord a ha p List.mem_cons_self).2⟩
  have hafter : Live s p → ∀ b ∈ post, p.start + p.len ≤ b.start := fun hl b hb =>
    (List.rel_of_pairwise_cons (List.pairwise_append.mp hg.sorted).2.1 hb).2 hl
  have hrest : ∀ e ∈ pre ++ post, Live s e → ∀ i < e.len, ∀ b, D (e.start + i) b → D' (e.start + i) b := by
    intro e he hlive i hi b hb
    apply hD.old _ b hb
    rcases List.mem_append.mp he with he | he
    · have := (hbefore e he).2 hlive
      omega
    · have := hpost e he
      omega
  have hsc : s.count ≤ 2 ^ 32 := by
    refine Nat.le_trans ?_ hc
    rw [pack]
    simp only
    split
    · exact Nat.le_trans (Nat.le_of_eq (count_cpgmove ..).symm) (count_cchain ..)
    · exact Nat.le_trans (Nat.le_of_eq (count_cpgmove ..).symm) (count_cchain ..)
  have hsame : ∀ n, (pre ++ [{ p with len := n }] ++ post).map Extent.bid ⊆ (pre ++ p :: post).map Extent.bid := by
    intro n
    simp
  have hown : [p.bid] ⊆ (pre ++ p :: post).map Extent.bid := by
    intro x hx
    rw [List.mem_singleton.mp hx]
    exact List.mem_map_of_mem hmem
  have hspec := cpgmove_spec (hg.known p hmem) hsc (buf.take (PGSZ - (offset - p.start))) (offset - p.start)
  rw [pack] at hc ⊢
  generalize cpgmove s p (buf.take (PGSZ - (offset - p.start))) (offset - p.start) = x at hspec hc ⊢
  obtain ⟨hage, -, hcount, ⟨hfail, hdead⟩ | ⟨hdone, hlive, hold, hv⟩⟩ := hspec
  · simp only [hfail, Bool.false_eq_true, if_false] at hc ⊢
    have hgood : Good x.2 D' (pre ++ p :: post) :=
      hg.move hage (by omega) hsmall (fun hl => absurd hl hdead) hrest (fun hl => absurd hl hdead)
    have hbetween : Good x.2 D' (pre ++ [p] ++ post) := by simpa using hgood
    have hch := chain_between (hn.age hage) hbetween hc hD.new ?_ hpost
    · have hall := hch.after hage hown (hsame p.len)
      simpa using hall
    · intro _ a ha
      rcases List.mem_append.mp ha with ha | ha
      · refine ⟨(hbefore a ha).1, fun hl => ?_⟩
        have := (hbefore a ha).2 ((hg.known a (List.mem_append_left _ ha)).live hage (by omega) hl).1
        omega
      · rw [List.mem_singleton.mp ha]
        exact ⟨hstart, fun hl => absurd hl hdead⟩
  · simp only [hdone, if_true] at hc ⊢
    have hlen : (buf.take (PGSZ - (offset - p.start))).length = min (PGSZ - (offset - p.start)) buf.length := List.length_take
    generalize hn' : (buf.take (PGSZ - (offset - p.start))).length = n at hc hlen ⊢
    have hdata : ∀ i < max p.len (offset - p.start + n), D' (p.start + i)
        ((x.2.page p.cache).v i) := by
      intro i hi
      rw [hv]
      by_cases hin : offset - p.start ≤ i ∧ i < offset - p.start + n
      · obtain ⟨j, rfl⟩ : ∃ j, i = offset - p.start + j := ⟨i - (offset - p.start), by omega⟩
        have hj : j < (buf.take (PGSZ - (offset - p.start))).length := by omega
        rw [overwrite_inside hj, show p.start + (offset - p.start + j) = offset + j by omega]
        apply hD.new
        rw [List.getElem_take, List.getElem?_eq_getElem]
      · rw [overwrite_outside (by omega)]
        apply hD.old _ _ (hg.data p hmem hold i (by omega))
        omega
    have hgood : Good x.2 D' (pre ++ { p with len := max p.len (offset - p.start + n) } :: post) := by
      apply hg.move hage (by omega) (by omega) (fun _ => hdata) hrest
      intro _ b hb
      have := hafter hold b hb
      have := hpost b hb
      omega
    have hbetween : Good x.2 D' (pre ++ [{ p with len := max p.len (offset - p.start + n) }] ++ post) := by simpa using hgood
    have hch := chain_between (hn.age hage) hbetween hc ?_ ?_ ?_
    · have hall := hch.after hage hown (hsame _)
      simpa using hall
    · intro j b hj
      rw [List.getElem?_drop] at hj
      have hlt := (List.getElem?_eq_some_iff.mp hj).1
      rw [show offset + n + j = offset + (PGSZ - (offset - p.start) + j) by omega]
      exact hD.new _ b hj
    · intro hne a ha
      have hmore : PGSZ - (offset - p.start) < buf.length := by
        by_contra hle
        exact hne (List.drop_eq_nil_of_le (by omega))
      rcases List.mem_append.mp ha with ha | ha
      · refine ⟨by have := (hbefore a ha).1; omega, fun hl => ?_⟩
        have := (hbefore a ha).2 ((hg.known a (List.mem_append_left _ ha)).live hage (by omega) hl).1
        omega
      · rw [List.mem_singleton.mp ha]
        simp only
        omega
    · intro b hb
      have := hpost b hb
      rw [List.length_drop]
      omega

theorem Changed.sub {l' : List (Extent P)} {r : List (Extent P) × Store P} (h : Changed s D l' r) (hl : l'.Sublist l) : Changed s D l r :=
  h.after (Age.refl [] s) (List.nil_subset _) (hl.map _).subset

theorem cwritelist_spec (hn : Numbered s) (hg : Good s D l) (hc : (cwritelist s l buf offset).2.count ≤ 2 ^ 32)
    (hD : Differ D D' buf offset) : Changed s D' l (cwritelist s l buf offset) := by
  obtain ⟨hsplit, hpre, hback⟩ := hg.split (q := fun f => f.start < offset) (fun a b hab hb => by simp at hb ⊢; omega)
  have hgback := hg.sublist (List.dropWhile_sublist (fun f : Extent P => decide (f.start < offset)))
  obtain ⟨-, -, hpost⟩ := hgback.split (q := fun f => f.start < offset + buf.length) (fun a b hab hb => by simp at hb ⊢; omega)
  rw [cwritelist] at hc ⊢
  simp only at hc ⊢
  generalize hpre' : l.takeWhile (fun f => decide (f.start < offset)) = pre at hc hpre hsplit ⊢
  generalize hpost' : (l.dropWhile (fun f => decide (f.start < offset))).dropWhile (fun f => decide (f.start < offset + buf.length)) = post
    at hc hpost ⊢
  have hsub : (pre ++ post).Sublist l := by
    rw [← hsplit, ← hpost']
    exact (List.dropWhile_sublist _).append_left pre
  simp only [decide_eq_true_eq, decide_eq_false_iff_not, Nat.not_lt] at hpre hpost
  cases hlast : pre.getLast? with
  | none =>
    obtain rfl := List.getLast?_eq_none_iff.mp hlast
    simp only [hlast] at hc ⊢
    exact (chain_apart hn (hg.sublist hsub) hc hD nofun hpost).sub hsub
  | some p =>
    simp only [hlast] at hc ⊢
    have hp := List.dropLast_append_getLast? p hlast
    have hmem : p ∈ pre := List.mem_of_getLast? hlast
    have hstart := hpre p hmem
    have hgood : Good s D (pre.dropLast ++ p :: post) := by
      have := hg.sublist hsub
      rw [← hp] at this
      simpa using this
    have hsub' : (pre.dropLast ++ p :: post).Sublist l := by
      rw [← hp] at hsub
      simpa using hsub
    have hcat : ∀ x, pre ++ x = pre.dropLast ++ p :: x := by
      intro x
      conv_lhs => rw [← hp]
      simp
    split
    · rename_i hroom
      rw [if_pos hroom] at hc
      simp only [hcat] at hc ⊢
      exact (pack_spec hn hgood hc hD (Nat.le_of_lt hstart) hroom.1 hroom.2 hpost).sub hsub'
    · rename_i hroom
      rw [if_neg hroom] at hc
      refine (chain_apart hn (hg.sublist hsub) hc hD (fun a ha => ?_) hpost).sub hsub
      have hsmall := hg.small p (hsub.subset (List.mem_append_left _ hmem))
      have hpend : p.start + p.len ≤ offset := by omega
      refine ⟨Nat.le_of_lt (hpre a ha), fun hl => ?_⟩
      rw [← hp] at ha
      rcases List.mem_append.mp ha with ha | ha
      · have := (hgood.parts.2 a ha p List.mem_cons_self).2 hl
        omega
      · rw [List.mem_singleton.mp ha]
        exact hpend

/-- The bytes without those that the next extent has. -/
theorem trimmed_spec (hg : Good s D (pre ++ post)) (hback : ∀ b ∈ post, offset < b.start) (hD : ∀ j b, buf[j]? = some b → D (offset + j) b) :
    (∀ b ∈ post, offset + (trim post buf offset).length ≤ b.start) ∧
      ∀ j b, (trim post buf offset)[j]? = some b → D (offset + j) b := by
  cases post with
  | nil => exact ⟨nofun, hD⟩
  | cons f post =>
    refine ⟨fun b hb => ?_, fun j b hj => ?_⟩
    · have hf := hback f List.mem_cons_self
      have hfb : f.start ≤ b.start := by
        rcases List.mem_cons.mp hb with rfl | hb
        · exact Nat.le_refl _
        · exact (List.rel_of_pairwise_cons (List.pairwise_append.mp hg.sorted).2.1 hb).1
      simp only [trim, List.length_take]
      omega
    · rw [trim, List.getElem?_take] at hj
      split at hj
      · exact hD j b hj
      · exact nomatch hj

theorem cupdatelist_spec (hn : Numbered s) (hg : Good s D l) (hc : (cupdatelist s l buf offset).2.count ≤ 2 ^ 32)
    (hD : ∀ j b, buf[j]? = some b → D (offset + j) b) : Changed s D l (cupdatelist s l buf offset) := by
  obtain ⟨hsplit, hpre, hback⟩ := hg.split (q := fun f => f.start ≤ offset) (fun a b hab hb => by simp at hb ⊢; omega)
  rw [cupdatelist] at hc ⊢
  simp only at hc ⊢
  generalize hpre' : l.takeWhile (fun f => decide (f.start ≤ offset)) = pre at hc hpre hsplit ⊢
  generalize hpost' : l.dropWhile (fun f => decide (f.start ≤ offset)) = post at hc hback hsplit ⊢
  simp only [decide_eq_true_eq, decide_eq_false_iff_not, Nat.not_le] at hpre hback
  subst hsplit
  obtain ⟨hpost, hnew⟩ := trimmed_spec hg hback hD
  generalize trim post buf offset = buf' at hc hpost hnew ⊢
  cases hlast : pre.getLast? with
  | none =>
    obtain rfl := List.getLast?_eq_none_iff.mp hlast
    simp only [hlast] at hc ⊢
    exact chain_apart hn hg hc ⟨fun _ _ h _ => h, hnew⟩ nofun hpost
  | some p =>
    simp only [hlast] at hc ⊢
    have hp := List.dropLast_append_getLast? p hlast
    have hmem : p ∈ pre := List.mem_of_getLast? hlast
    have hstart := hpre p hmem
    have hcat : ∀ x, pre ++ x = pre.dropLast ++ p :: x := by
      intro x
      conv_lhs => rw [← hp]
      simp
    have hdrop : ∀ j b, (buf'.drop (p.start + p.len - offset))[j]? = some b → D (max offset (p.start + p.len) + j) b := by
      intro j b hj
      rw [List.getElem?_drop] at hj
      rw [show max offset (p.start + p.len) + j = offset + (p.start + p.len - offset + j) by omega]
      exact hnew _ b hj
    split
    · exact ⟨Age.refl _ _, hg, fun e he => .inl (List.mem_map_of_mem he)⟩
    · rename_i hne
      rw [if_neg hne] at hc
      have hmore : p.start + p.len - offset < buf'.length := by
        by_contra hle
        exact hne (List.drop_eq_nil_of_le (by omega))
      have hpost' : ∀ b ∈ post, max offset (p.start + p.len) + (buf'.drop (p.start + p.len - offset)).length ≤ b.start := by
        intro b hb
        have := hpost b hb
        rw [List.length_drop]
        omega
      split
      · rename_i hroom
        rw [if_pos hroom] at hc
        have heq : max offset (p.start + p.len) - p.start = p.len := by omega
        have hpack : ∀ x : List (Extent P) × Store P, x = pack s pre.dropLast p post (buf'.drop (p.start + p.len - offset))
            (max offset (p.start + p.len)) → x.2.count ≤ 2 ^ 32 → Changed s D (pre ++ post) x := by
          intro x hx hcx
          subst hx
          rw [hcat] at hg ⊢
          exact pack_spec hn hg hcx ⟨fun _ _ h _ => h, hdrop⟩ (by omega) (by omega) (by omega) hpost'
        apply hpack _ _ hc
        simp only [pack, heq, hcat, Nat.max_eq_right (Nat.le_add_right p.len _)]
      · rename_i hroom
        rw [if_neg hroom] at hc
        refine chain_apart hn hg hc ⟨fun _ _ h _ => h, hdrop⟩ (fun a ha => ?_) hpost'
        refine ⟨by have := hpre a ha; omega, fun hl => ?_⟩
        rw [← hp] at ha
        rcases List.mem_append.mp ha with ha | ha
        · rw [hcat] at hg
          have := (hg.parts.2 a ha p List.mem_cons_self).2 hl
          omega
        · rw [List.mem_singleton.mp ha]
          omega

end Changes

end Petele.Fscache
