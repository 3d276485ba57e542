import Petele.Fscache.Cache

set_option linter.unusedSectionVars false

namespace Petele.Fscache

variable {P : Type} [DecidableEq P] {s s' s'' : Store P} {e : Extent P}

section Numbers

/-- The number of the page that the cache gets after `n` others. -/
def bidof (n : ℕ) : ℕ := n % 2 ^ 20 * 4096 + n / 2 ^ 20 % 4096

theorem nextpgno_bidof (n : ℕ) : nextpgno (bidof n) = bidof (n + 1) := by
  have hsize : PGSZ = 4096 := rfl
  have hn : bidof n = n % 2 ^ 20 * 4096 + n / 2 ^ 20 % 4096 := rfl
  have hsucc : bidof (n + 1) = (n + 1) % 2 ^ 20 * 4096 + (n + 1) / 2 ^ 20 % 4096 := rfl
  have hlow : n % 2 ^ 20 < 2 ^ 20 := Nat.mod_lt _ (by decide)
  have hhigh : n / 2 ^ 20 % 4096 < 4096 := Nat.mod_lt _ (by decide)
  simp only [nextpgno]
  by_cases hlast : n % 2 ^ 20 = 2 ^ 20 - 1
  · have hmod : (n + 1) % 2 ^ 20 = 0 := by omega
    have hdiv : (n + 1) / 2 ^ 20 = n / 2 ^ 20 + 1 := by omega
    rw [hmod, hdiv] at hsucc
    rw [if_pos (by omega)]
    by_cases hwrap : n / 2 ^ 20 % 4096 = 4095
    · rw [if_pos (by omega)]
      omega
    · rw [if_neg (by omega)]
      omega
  · have hmod : (n + 1) % 2 ^ 20 = n % 2 ^ 20 + 1 := by omega
    have hdiv : (n + 1) / 2 ^ 20 = n / 2 ^ 20 := by omega
    rw [hmod, hdiv] at hsucc
    generalize n % 2 ^ 20 = a at hn hsucc hlast hlow
    generalize n / 2 ^ 20 % 4096 = b at hn hsucc hhigh
    rw [Nat.mod_eq_of_lt (by omega), if_neg (by omega)]
    omega

theorem bidof_inj {n m : ℕ} (hn : n < 2 ^ 32) (hm : m < 2 ^ 32) (h : bidof n = bidof m) : n = m := by
  simp only [bidof] at h
  omega

end Numbers

section Aging

/-- A page with a number is in the cache. -/
def Holds (s : Store P) (p : P) (bid : ℕ) : Prop := p ∈ s.hash ∧ (s.page p).daddr = bid

/-- What is left of the pages later: those in the cache are new, or as they were except where data was moved into them. -/
structure Age (S : List ℕ) (s s' : Store P) : Prop where
  count : s.count ≤ s'.count
  pgno : s.pgno = bidof s.count → s'.pgno = bidof s'.count
  holds : ∀ p bid, Holds s' p bid → (∃ i, s.count ≤ i ∧ i < s'.count ∧ bid = bidof i) ∨
    Holds s p bid ∧ (bid ∉ S → (s'.page p).v = (s.page p).v)

theorem Age.refl (S : List ℕ) (s : Store P) : Age S s s := ⟨Nat.le_refl _, id, fun _ _ h => .inr ⟨h, fun _ => rfl⟩⟩

theorem Age.trans {S : List ℕ} (h : Age S s s') (h' : Age S s' s'') : Age S s s'' := by
  refine ⟨Nat.le_trans h.count h'.count, fun hp => h'.pgno (h.pgno hp), fun p bid hh => ?_⟩
  rcases h'.holds p bid hh with ⟨i, hi, hlt, hbid⟩ | ⟨hmid, hsame⟩
  · exact .inl ⟨i, Nat.le_trans h.count hi, hlt, hbid⟩
  · rcases h.holds p bid hmid with ⟨i, hi, hlt, hbid⟩ | ⟨hold, hsame'⟩
    · exact .inl ⟨i, hi, Nat.lt_of_lt_of_le hlt h'.count, hbid⟩
    · exact .inr ⟨hold, fun hS => (hsame hS).trans (hsame' hS)⟩

theorem Age.mono {S S' : List ℕ} (h : Age S s s') (hS : S ⊆ S') : Age S' s s' :=
  ⟨h.count, h.pgno, fun p bid hh => (h.holds p bid hh).imp id fun hold => ⟨hold.1, fun hn => hold.2 fun hm => hn (hS hm)⟩⟩

theorem age_uncachepage (s : Store P) (p : P) (pg : Page) : Age [] s (uncachepage s p pg) := by
  refine ⟨Nat.le_refl _, id, fun q bid hq => .inr ?_⟩
  obtain ⟨hmem, hbid⟩ := hq
  simp only [uncachepage, List.mem_filter, decide_eq_true_eq] at hmem hbid
  rw [Function.update_of_ne hmem.2] at hbid
  refine ⟨⟨hmem.1, hbid⟩, fun _ => ?_⟩
  simp only [uncachepage, Function.update_of_ne hmem.2]

theorem age_env (s : Store P) (env : List (Env P)) : Age [] s { s with env := env } :=
  ⟨Nat.le_refl _, id, fun _ _ h => .inr ⟨h, fun _ => rfl⟩⟩

theorem age_tick (s : Store P) : Age [] s (tick s).2 ∧ (tick s).2.pgno = s.pgno ∧ (tick s).2.count = s.count := by
  have hfold : ∀ (l : List (P × Page)) (s : Store P),
      Age [] s (l.foldl (fun s x => uncachepage s x.1 x.2) s) ∧ (l.foldl (fun s x => uncachepage s x.1 x.2) s).pgno = s.pgno ∧
        (l.foldl (fun s x => uncachepage s x.1 x.2) s).count = s.count := by
    intro l
    induction l with
    | nil => exact fun s => ⟨Age.refl _ _, rfl, rfl⟩
    | cons x l ih =>
      intro s
      obtain ⟨hage, hpgno, hcount⟩ := ih (uncachepage s x.1 x.2)
      exact ⟨(age_uncachepage s x.1 x.2).trans hage, hpgno, hcount⟩
  rw [tick]
  split
  · exact ⟨Age.refl _ _, rfl, rfl⟩
  · rename_i e env _
    obtain ⟨hage, hpgno, hcount⟩ := hfold e.reclaim { s with env := env }
    exact ⟨(age_env s env).trans hage, hpgno, hcount⟩

theorem age_chainpage (s : Store P) (p : P) (buf : List UInt8) (hp : s.pgno = bidof s.count) : Age [] s (chainpage s p buf) := by
  refine ⟨Nat.le_succ _, fun _ => ?_, fun q bid hq => ?_⟩
  · simp only [chainpage, hp, nextpgno_bidof]
  · obtain ⟨hmem, hbid⟩ := hq
    rcases eq_or_ne q p with rfl | hqp
    · simp only [chainpage, Function.update_self] at hbid
      exact .inl ⟨s.count, Nat.le_refl _, Nat.lt_succ_self _, by rw [← hbid, hp]⟩
    · simp only [chainpage, List.mem_cons, hqp, false_or, List.mem_filter] at hmem
      simp only [chainpage, Function.update_of_ne hqp] at hbid
      exact .inr ⟨⟨hmem.1, hbid⟩, fun _ => by simp only [chainpage, Function.update_of_ne hqp]⟩

/-- The counter has the number for the next page, and the pages in the cache have numbers that have been given. -/
structure Numbered (s : Store P) : Prop where
  pgno : s.pgno = bidof s.count
  holds : ∀ p bid, Holds s p bid → ∃ i < s.count, bid = bidof i

theorem Numbered.age {S : List ℕ} (h : Numbered s) (ha : Age S s s') : Numbered s' := by
  refine ⟨ha.pgno h.pgno, fun p bid hp => ?_⟩
  rcases ha.holds p bid hp with ⟨i, -, hi, hbid⟩ | ⟨hold, -⟩
  · exact ⟨i, hi, hbid⟩
  · obtain ⟨i, hi, hbid⟩ := h.holds p bid hold
    exact ⟨i, Nat.lt_of_lt_of_le hi ha.count, hbid⟩

end Aging

section Extents

/-- The number of an extent has been given to its own page only. -/
structure Known (s : Store P) (e : Extent P) : Prop where
  given : ∃ i < s.count, e.bid = bidof i
  own : ∀ p, Holds s p e.bid → p = e.cache

/-- The page of the extent is still in the cache. -/
def Live (s : Store P) (e : Extent P) : Prop := Holds s e.cache e.bid

theorem Known.holds {S : List ℕ} {p : P} (h : Known s e) (ha : Age S s s') (hc : s'.count ≤ 2 ^ 32) (hp : Holds s' p e.bid) :
    Holds s p e.bid ∧ (e.bid ∉ S → (s'.page p).v = (s.page p).v) := by
  rcases ha.holds p e.bid hp with ⟨i, hi, hlt, hbid⟩ | hold
  · obtain ⟨j, hj, hbid'⟩ := h.given
    have hij := bidof_inj (by omega) (by omega) (hbid.symm.trans hbid')
    omega
  · exact hold

theorem Known.age {S : List ℕ} (h : Known s e) (ha : Age S s s') (hc : s'.count ≤ 2 ^ 32) : Known s' e := by
  obtain ⟨i, hi, hbid⟩ := h.given
  exact ⟨⟨i, Nat.lt_of_lt_of_le hi ha.count, hbid⟩, fun p hp => h.own p (h.holds ha hc hp).1⟩

theorem Known.live {S : List ℕ} (h : Known s e) (ha : Age S s s') (hc : s'.count ≤ 2 ^ 32) (hl : Live s' e) :
    Live s e ∧ (e.bid ∉ S → (s'.page e.cache).v = (s.page e.cache).v) := h.holds ha hc hl

/-- What `cpage` does: the page is reclaimed already, or it is the extent's own. -/
theorem cpage_spec (h : Known s e) (hc : s.count ≤ 2 ^ 32) :
    Age [] s (cpage s e).2 ∧ (cpage s e).2.pgno = s.pgno ∧ (cpage s e).2.count = s.count ∧
      ((cpage s e).1 = none ∧ ¬ Live (cpage s e).2 e ∨ (cpage s e).1 = some e.cache ∧ Live (cpage s e).2 e) := by
  obtain ⟨hage, hpgno, hcount⟩ := age_tick s
  refine ⟨hage, hpgno, hcount, ?_⟩
  have hk : Known (tick s).2 e := h.age hage (by omega)
  simp only [cpage]
  split
  · rename_i hne
    exact .inl ⟨rfl, fun hl => hne hl.2⟩
  · rename_i heq
    rw [not_not] at heq
    cases hlook : lookpage (tick s).2 e.bid with
    | none =>
      refine .inl ⟨rfl, fun hl => ?_⟩
      rw [lookpage, List.find?_eq_none] at hlook
      exact hlook e.cache hl.1 (by simpa using hl.2)
    | some p =>
      have hp : Holds (tick s).2 p e.bid := by
        refine ⟨List.mem_of_find?_eq_some hlook, ?_⟩
        have := List.find?_some hlook
        simpa using this
      obtain rfl := hk.own p hp
      exact .inr ⟨rfl, hp⟩

/-- A new extent. -/
theorem known_chainpage (h : Numbered s) (hc : s.count < 2 ^ 32) (p : P) (buf : List UInt8) (offset l : ℕ) :
    Known (chainpage s p buf) ⟨s.pgno, offset, l, p⟩ := by
  refine ⟨⟨s.count, Nat.lt_succ_self _, h.pgno⟩, fun q hq => ?_⟩
  by_contra hqp
  obtain ⟨hmem, hbid⟩ := hq
  simp only [chainpage, List.mem_cons, hqp, false_or, List.mem_filter] at hmem
  simp only [chainpage, Function.update_of_ne hqp] at hbid
  obtain ⟨i, hi, hbid'⟩ := h.holds q s.pgno ⟨hmem.1, hbid⟩
  have heq := bidof_inj (by omega) (by omega) (h.pgno.symm.trans hbid')
  omega

theorem overwrite_inside {v : ℕ → UInt8} {o i : ℕ} {buf : List UInt8} (hi : i < buf.length) : overwrite v o buf (o + i) = buf[i] := by
  simp [overwrite, hi]

theorem overwrite_outside {v : ℕ → UInt8} {o i : ℕ} {buf : List UInt8} (hi : i < o ∨ o + buf.length ≤ i) : overwrite v o buf i = v i := by
  rw [overwrite]
  split
  · rw [List.getD_eq_getElem?_getD, List.getElem?_eq_none (by omega), Option.getD_none]
  · rfl

/-- What `cpgmove` does. -/
theorem cpgmove_spec (h : Known s e) (hc : s.count ≤ 2 ^ 32) (buf : List UInt8) (boff : ℕ) :
    Age [e.bid] s (cpgmove s e buf boff).2 ∧ (cpgmove s e buf boff).2.pgno = s.pgno ∧ (cpgmove s e buf boff).2.count = s.count ∧
      ((cpgmove s e buf boff).1 = false ∧ ¬ Live (cpgmove s e buf boff).2 e ∨
        (cpgmove s e buf boff).1 = true ∧ Live (cpgmove s e buf boff).2 e ∧ Live s e ∧
          ((cpgmove s e buf boff).2.page e.cache).v = overwrite (s.page e.cache).v boff buf) := by
  obtain ⟨hage, hpgno, hcount, hnone | hsome⟩ := cpage_spec h hc
  · obtain ⟨hnone, hdead⟩ := hnone
    rw [show cpgmove s e buf boff = (false, (cpage s e).2) by simp only [cpgmove, hnone]]
    exact ⟨hage.mono (List.nil_subset _), hpgno, hcount, .inl ⟨rfl, hdead⟩⟩
  · obtain ⟨hsome, hlive⟩ := hsome
    have hmove : cpgmove s e buf boff = (true, { (cpage s e).2 with
        page := Function.update (cpage s e).2.page e.cache (Page.mk ((cpage s e).2.page e.cache).daddr
          (overwrite ((cpage s e).2.page e.cache).v boff buf)) }) := by
      simp only [cpgmove, hsome]
    rw [hmove]
    obtain ⟨hold, hsame⟩ := h.live hage (by omega) hlive
    refine ⟨(hage.mono (List.nil_subset _)).trans ⟨Nat.le_refl _, id, fun p bid hp => .inr ?_⟩, hpgno, hcount, .inr ⟨rfl, ?_, hold, ?_⟩⟩
    · obtain ⟨hmem, hbid⟩ := hp
      rcases eq_or_ne p e.cache with rfl | hpe
      · simp only [Function.update_self] at hbid
        refine ⟨⟨hmem, hbid⟩, fun hn => absurd ?_ hn⟩
        rw [List.mem_singleton, ← hbid, hlive.2]
      · simp only [Function.update_of_ne hpe] at hbid
        exact ⟨⟨hmem, hbid⟩, fun _ => by simp only [Function.update_of_ne hpe]⟩
    · refine ⟨hlive.1, ?_⟩
      simp only [Function.update_self]
      exact hlive.2
    · simp only [Function.update_self, hsame (List.not_mem_nil)]

end Extents

end Petele.Fscache
