import Petele.Vm.FaultInv

set_option linter.unusedSectionVars false

namespace Petele.Vm

open Lib

variable {P I : Type} [DecidableEq P] [DecidableEq I] [Fintype P]
variable {w : World I} {m m' : Mem P I} {held : I → ℤ} {rest : P → ℕ} {s s' : Seg P I} {k : ℕ} {p : P}

section Pio

/-- The bytes that are read for a page are those of the file up to the end of its part. -/
theorem loaded_eq {a : Aout} {fstart flen : ℕ} (hk : k * PGSZ < flen)
    (hlimit : fstart + flen = if fstart + k * PGSZ < a.textlen then a.textlen else a.textlen + a.datalen) :
    loaded a flen (k * PGSZ) (fstart + k * PGSZ) = page (content a (fstart + k * PGSZ)) := by
  rw [loaded]
  apply page_congr
  intro b hb
  rw [content, ← hlimit]
  have hiff : (b < if ((flen : ℤ) - (k * PGSZ : ℕ) < 0 ∨ (flen : ℤ) - (k * PGSZ : ℕ) > PGSZ) then PGSZ
      else ((flen : ℤ) - (k * PGSZ : ℕ)).toNat) ↔ fstart + k * PGSZ + b < fstart + flen := by
    split <;> omega
  by_cases hlt : fstart + k * PGSZ + b < fstart + flen
  · rw [if_pos (hiff.mpr hlt), if_pos hlt]
  · rw [if_neg fun hc => hlt (hiff.mp hc), if_neg hlt]

/-- The file from which an empty entry is loaded. -/
theorem SegOk.image_cases (h : SegOk w m.data s) (himage : s.image ≠ none) :
    ∃ i, s.image = some i ∧ w.env.notext i = false ∧ s.top - s.base = ROUNDUP s.flen PGSZ ∧
      ∀ k, k * PGSZ < s.flen → s.fstart + k * PGSZ < 2 ^ 32 ∧ s.fstart + s.flen =
        if s.fstart + k * PGSZ < (w.file i).textlen then (w.file i).textlen else (w.file i).textlen + (w.file i).datalen := by
  have hk := h.kind
  cases hty : s.type with
  | TEXT =>
    rw [hty] at hk
    obtain ⟨i, hi, hle⟩ := hk
    refine ⟨i, hi.image, hi.notext, by rw [hi.flen]; exact hi.size, fun k hlt => ?_⟩
    rw [hi.fstart, hi.flen] at *
    rw [if_pos (by omega)]
    omega
  | DATA =>
    rw [hty] at hk
    obtain ⟨i, hi, hle⟩ := hk
    refine ⟨i, hi.image, hi.notext, by rw [hi.flen]; exact hi.size, fun k hlt => ?_⟩
    rw [hi.fstart, hi.flen] at *
    rw [if_neg (by omega)]
    omega
  | BSS =>
    rw [hty] at hk
    exact absurd hk himage
  | STACK =>
    rw [hty] at hk
    exact absurd hk himage

theorem pio_spec (h : Good w m held rest s) (himage : s.image ≠ none) (hk : k * PGSZ < s.flen) (hslot : s.slot k = none)
    (addr : ℕ) (kp ioerr : Bool) :
    ∃ m' o out, pio w m s addr (k * PGSZ) kp ioerr = some (m', o, out) ∧ Inv w.env m' held ∧ CacheOk w m' ∧ Keeps m m' ∧
      (∀ new, o = some new → out = .ok ∧ m'.data new = (page fun b => s.priv (k * PGSZ + b)) ∧
        m'.ref = Function.update m.ref new (m.ref new + 1)) ∧
      (o = none → out ≠ .ok ∧ m'.ref = m.ref) := by
  obtain ⟨i, hi, hnotext, -, hfile⟩ := h.seg.image_cases himage
  obtain ⟨hlt, hlimit⟩ := hfile k hk
  have hpriv : (page fun b => s.priv (k * PGSZ + b)) = page (content (w.file i) (s.fstart + k * PGSZ)) := by
    have hempty := h.seg.empty k hslot
    rw [hi] at hempty
    exact hempty hk
  simp only [pio, hi, Option.bind_some, Nat.mod_eq_of_lt hlt]
  rcases h.inv.look i (s.fstart + k * PGSZ) with ⟨hnone, -⟩ | ⟨f, hf, hif, hdf, hinv, href, hdata, himg, hdaddr⟩
  · rw [hnone]
    obtain ⟨⟨m₁, o⟩, hr, hinv₁, hsheds, hnew⟩ := h.inv.new false addr kp
    simp only [hr, Option.bind_some]
    cases o with
    | none =>
      have hs := hsheds rfl
      exact ⟨m₁, none, .again, rfl, hinv₁, h.cache.sheds hs, fun p _ => by rw [hs.data], (by simp),
        fun _ => ⟨(by simp), hs.ref⟩⟩
    | some new =>
      obtain ⟨hn, hdata₁⟩ : New m m₁ new ∧ m₁.data = m.data := hnew new rfl
      have href₁ : m₁.ref new = 1 := by
        rw [hn.ref, Function.update_self]
      have hnil : m₁.image new = none := by
        rw [hn.image, Function.update_self]
      have hcache₁ : CacheOk w m₁ := hn.cache h.cache fun x _ => by rw [hdata₁]
      cases ioerr with
      | true =>
        have hpos : 0 < m₁.ref new := by
          rw [href₁]
          exact Int.one_pos
        obtain ⟨m₂, hm₂, hinv₂, href₂, hdata₂, himage₂, hdaddr₂, -⟩ := hinv₁.put hpos
        simp only [if_true, hm₂, Option.map_some]
        refine ⟨m₂, none, .err, rfl, hinv₂, ?_, fun p _ => by rw [hdata₂, hdata₁], (by simp),
          fun _ => ⟨(by simp), ?_⟩⟩
        · intro x j hj
          rw [himage₂] at hj
          rw [hdata₂, hdaddr₂]
          exact hcache₁ x j hj
        · rw [href₂, hn.ref, Function.update_self, Function.update_idem, Int.sub_self, ← hn.free, Function.update_eq_self]
      | false =>
        simp only [Bool.false_eq_true, if_false]
        have hplain := hinv₁.plain m₁.va m₁.color
          (Function.update m₁.data new (loaded (w.file i) s.flen (k * PGSZ) (s.fstart + k * PGSZ)))
        obtain ⟨m₂, hm₂, hinv₂, href₂, hdata₂, himage₂, hdaddr₂⟩ := hplain.cache hnil (s.fstart + k * PGSZ) i
        simp only [hm₂, Option.map_some]
        have hpage : m₂.data new = page (content (w.file i) (s.fstart + k * PGSZ)) := by
          rw [hdata₂]
          simp only [Function.update_self]
          exact loaded_eq hk hlimit
        have hother : ∀ x, x ≠ new → m₂.data x = m.data x := by
          intro x hx
          rw [hdata₂]
          simp only [Function.update_of_ne hx]
          rw [hdata₁]
        refine ⟨m₂, some new, .ok, rfl, hinv₂, ?_, fun x hx => ?_, fun y hy => ?_, (by intros; contradiction)⟩
        · intro x j hj
          rw [himage₂] at hj
          rw [hdaddr₂]
          rcases eq_or_ne x new with rfl | hx
          · rw [Function.update_self] at hj
            obtain rfl := Option.some.inj hj
            rw [Function.update_self]
            exact ⟨hnotext, hpage⟩
          · rw [Function.update_of_ne hx] at hj
            rw [hother x hx, Function.update_of_ne hx]
            have hold := hcache₁ x j hj
            rw [hdata₁] at hold
            exact hold
        · apply hother
          rintro rfl
          have hzero := hn.free
          omega
        · obtain rfl := Option.some.inj hy
          refine ⟨rfl, ?_, ?_⟩
          · rw [hpriv]
            exact hpage
          · rw [href₂]
            simp only
            rw [hn.ref, hn.free]
            rfl
  · generalize lookpage m i (s.fstart + k * PGSZ) = r at hf hinv href hdata himg hdaddr
    obtain ⟨mf, o⟩ := r
    simp only at hf hinv href hdata himg hdaddr
    simp only [hf]
    refine ⟨mf, some f, .ok, rfl, hinv, ?_, fun p _ => by rw [hdata], fun y hy => ?_, (by intros; contradiction)⟩
    · intro x j hj
      rw [himg] at hj
      rw [hdata, hdaddr]
      exact h.cache x j hj
    · obtain rfl := Option.some.inj hy
      refine ⟨rfl, ?_, href⟩
      rw [hdata, hpriv, ← hdf]
      exact (h.cache f i hif).2

end Pio

section Common

/-- What a fault comes to: the segment keeps its memory, and so do the others. -/
structure Fixed (w : World I) (held : I → ℤ) (rest : P → ℕ) (k : ℕ) (read : Bool) (m : Mem P I) (s : Seg P I)
    (m' : Mem P I) (s' : Seg P I) (out : Outcome) : Prop where
  good : Good w m' held rest s'
  same : Same s s'
  others : ∀ p, 0 < rest p → m'.data p = m.data p
  /-- After a write fault the page is the segment's own. -/
  ok : out = .ok → ∃ p, s'.slot k = some p ∧ (read = false → m'.ref p = 1 ∧ m'.image p = none)

theorem Same.refl (s : Seg P I) : Same s s := ⟨rfl, rfl, rfl, rfl, rfl, rfl, rfl⟩

theorem Same.trans {s'' : Seg P I} (h : Same s s') (h' : Same s' s'') : Same s s'' :=
  ⟨h'.type.trans h.type, h'.base.trans h.base, h'.top.trans h.top, h'.image.trans h.image,
    h'.fstart.trans h.fstart, h'.flen.trans h.flen, h'.priv.trans h.priv⟩

theorem Good.rest_pos (h : Good w m held rest s) (hp : 0 < rest p) : 0 < m.ref p := by
  have hle := h.count p
  omega

theorem Good.free (h : Good w m held rest s) (hp : m.ref p = 0) : rest p = 0 ∧ s.pages.count p = 0 := by
  have hle := h.count p
  omega

/-- A new page takes the place of the one that is shared. -/
theorem Good.copy (h : Good w m held rest s) {T : Pte P} (hT : s.map[k / PTEPERTAB]? = some (some T))
    (hw : T.within (k % PTEPERTAB) = true) {lkp new : P} (hslot : s.slot k = some lkp) (hinv : Inv w.env m' held)
    (hcache : CacheOk w m') (hfree : m.ref new = 0) (hdata : m'.data = Function.update m.data new (m.data lkp))
    (href : m'.ref = Function.update (Function.update m.ref new 1) lkp (m.ref lkp - 1)) :
    Good w m' held rest (s.set (k / PTEPERTAB) (k % PTEPERTAB) T new) := by
  have huse := h.in_use hslot
  have hne : new ≠ lkp := by
    rintro rfl
    omega
  have hframe : SegOk w m'.data s := by
    apply h.seg.frame
    intro k' p hp
    have hpos := h.in_use hp
    rw [hdata, Function.update_of_ne]
    rintro rfl
    omega
  refine ⟨hinv, hcache, hframe.put hT hw ?_, fun p => ?_⟩
  · rw [hdata, Function.update_self]
    exact h.seg.view k lkp hslot
  · have hcount := h.seg.put_count hT hw new p
    have hle := h.count p
    rw [hslot] at hcount
    rw [href]
    rcases eq_or_ne p lkp with rfl | hpl
    · rw [Function.update_self, if_pos rfl, if_neg hne] at *
      omega
    · rw [Function.update_of_ne hpl]
      rw [if_neg fun heq => hpl (Option.some.inj heq).symm] at hcount
      rcases eq_or_ne p new with rfl | hpn
      · rw [Function.update_self]
        rw [if_pos rfl] at hcount
        obtain ⟨hr, hc⟩ := h.free hfree
        omega
      · rw [Function.update_of_ne hpn]
        rw [if_neg hpn.symm] at hcount
        omega

theorem common_spec (h : Good w m held rest s) {t T : Pte P} (hT : s.map[k / PTEPERTAB]? = some (some T))
    (hw : T.within (k % PTEPERTAB) = true)
    (ht : ∀ x, s.set (k / PTEPERTAB) (k % PTEPERTAB) t x = s.set (k / PTEPERTAB) (k % PTEPERTAB) T x)
    {lkp : P} (hslot : s.slot k = some lkp) (addr : ℕ) (read kp : Bool) :
    ∃ m' s' out, common w m s addr (k / PTEPERTAB) (k % PTEPERTAB) t lkp read kp = some (m', s', out) ∧
      Fixed w held rest k read m s m' s' out := by
  have huse := h.in_use hslot
  unfold common
  split
  · rename_i hread
    refine ⟨m, s, .ok, rfl, h, Same.refl s, fun _ _ => rfl, fun _ => ⟨lkp, hslot, fun hc => ?_⟩⟩
    rw [hread.1] at hc
    cases hc
  · rw [if_neg (by omega)]
    by_cases hone : m.ref lkp = 1 ∧ m.image lkp ≠ none
    · obtain ⟨r, hr, hinv, hdup⟩ := h.inv.dup lkp
      have href := hdup.ref
      have hgood : Good w r.1 held rest s := by
        refine h.move hinv (hdup.cache h.cache) hdup.keeps ?_
        rw [href]
        exact h.count
      simp only [if_pos hone, hr, Option.map_some, Option.bind_some]
      rw [if_neg (by rw [href, hone.1]; omega)]
      refine ⟨r.1, s, .ok, rfl, hgood, Same.refl s, fun p hp => hdup.keeps p (h.rest_pos hp),
        fun _ => ⟨lkp, hslot, fun _ => ⟨?_, hdup.uncached h.cache hone.1 hone.2⟩⟩⟩
      rw [href]
      exact hone.1
    · simp only [if_neg hone, Option.bind_some]
      by_cases hmore : m.ref lkp > 1
      · rw [if_pos hmore]
        obtain ⟨⟨m₁, o⟩, hr, hinv₁, hsheds, hnew⟩ := h.inv.new false addr kp
        simp only [hr, Option.bind_some]
        cases o with
        | none =>
          have hs := hsheds rfl
          exact ⟨m₁, s, .again, rfl, h.sheds hinv₁ hs, Same.refl s, fun p _ => by rw [hs.data], (fun hc => nomatch hc)⟩
        | some new =>
          obtain ⟨hn, hdata₁⟩ : New m m₁ new ∧ m₁.data = m.data := hnew new rfl
          have hne : new ≠ lkp := by
            rintro rfl
            have hzero := hn.free
            omega
          have hsize : m₁.lg2size lkp = m₁.lg2size new := by
            rw [hinv₁.size, hinv₁.size]
          have hcopy : copypage m₁ lkp new = some { m₁ with data := Function.update m₁.data new (m₁.data lkp) } :=
            if_neg (not_not.mpr hsize)
          have hinv₂ := hinv₁.plain m₁.va m₁.color (Function.update m₁.data new (m₁.data lkp))
          have hpos : 0 < m₁.ref lkp := by
            rw [hn.ref, Function.update_of_ne hne.symm]
            omega
          obtain ⟨m₃, hm₃, hinv₃, href₃, hdata₃, himage₃, hdaddr₃, -⟩ := hinv₂.put hpos
          simp only [hcopy, Option.bind_some, hm₃, Option.map_some]
          have hdata' : m₃.data = Function.update m.data new (m.data lkp) := by
            rw [hdata₃]
            simp only [hdata₁]
          have href' : m₃.ref = Function.update (Function.update m.ref new 1) lkp (m.ref lkp - 1) := by
            rw [href₃]
            simp only [hn.ref, Function.update_of_ne hne.symm]
          have hcache₃ : CacheOk w m₃ := by
            have hbase : CacheOk w { m₁ with data := Function.update m₁.data new (m₁.data lkp) } :=
              New.cache ⟨hn.free, hn.ref, hn.image, hn.daddr⟩ h.cache fun x hx => by
                simp only [Function.update_of_ne hx, hdata₁]
            intro x j hj
            rw [himage₃] at hj
            rw [hdata₃, hdaddr₃]
            exact hbase x j hj
          rw [ht new]
          refine ⟨m₃, _, .ok, rfl, h.copy hT hw hslot hinv₃ hcache₃ hn.free hdata' href', ⟨rfl, rfl, rfl, rfl, rfl, rfl, rfl⟩,
            fun p hp => ?_, fun _ => ⟨new, ?_, fun _ => ⟨?_, ?_⟩⟩⟩
          · rw [hdata', Function.update_of_ne]
            rintro rfl
            have hzero := (h.free hn.free).1
            omega
          · rw [Seg.set_slot h.seg.map hT hw, if_pos rfl]
          · rw [href', Function.update_of_ne hne, Function.update_self]
          · rw [himage₃]
            simp only [hn.image, Function.update_self]
      · rw [if_neg hmore]
        refine ⟨m, s, .ok, rfl, h, Same.refl s, fun _ _ => rfl, fun _ => ⟨lkp, hslot, fun _ => ⟨by omega, ?_⟩⟩⟩
        by_contra himg
        exact hone ⟨by omega, himg⟩

end Common

section Fixfault

theorem slot_indices (hb : s.base % PGSZ = 0) {addr : ℕ} (hle : s.base ≤ addr) :
    addr - addr % PGSZ - s.base = (addr - s.base) / PGSZ * PGSZ ∧
      (addr - addr % PGSZ - s.base) / PTEMAPMEM = (addr - s.base) / PGSZ / PTEPERTAB ∧
      ((addr - addr % PGSZ - s.base) % PTEMAPMEM) >>> PGSHFT = (addr - s.base) / PGSZ % PTEPERTAB := by
  have hpos : 0 < PGSZ := by
    rw [PGSZ_eq]
    omega
  have hsub : addr - addr % PGSZ - s.base = (addr - s.base) / PGSZ * PGSZ := by
    rw [PGSZ_eq] at *
    omega
  refine ⟨hsub, ?_, ?_⟩
  · rw [hsub, PTEMAPMEM, Nat.mul_comm PTEPERTAB, ← Nat.div_div_eq_div_mul, Nat.mul_div_cancel _ hpos]
  · rw [hsub, PTEMAPMEM, Nat.mul_mod_mul_right, Nat.shiftRight_eq_div_pow]
    have hsz : 2 ^ PGSHFT = PGSZ := by
      rw [PGSZ_eq]
      rfl
    rw [hsz, Nat.mul_div_cancel _ hpos]

/-- Every address of a segment has an entry in its map. -/
theorem SegOk.entry (h : SegOk w m.data s) {addr : ℕ} (hle : s.base ≤ addr) (hlt : addr < s.top) :
    ∃ o, s.map[(addr - s.base) / PGSZ / PTEPERTAB]? = some o := by
  have hroom := h.room
  have hsize := h.size
  have htop := h.top
  have hbase := h.base
  have hk : (addr - s.base) / PGSZ < (s.top - s.base) / PGSZ := by
    rw [PGSZ_eq] at *
    omega
  have hin : (addr - s.base) / PGSZ / PTEPERTAB < s.map.length := by
    refine lt_of_lt_of_le ?_ hroom
    generalize (addr - s.base) / PGSZ = a at hk
    generalize (s.top - s.base) / PGSZ = b at hk hsize
    simp only [ptes, usize, PTEPERTAB, SEGMAPSIZE] at *
    omega
  exact ⟨_, List.getElem?_eq_getElem hin⟩

theorem Good.touch (h : Good w m held rest s) {j i : ℕ} {o : Option (Pte P)} (ho : s.map[i]? = some o) :
    Good w m held rest { s with map := s.map.set i (some (touch (o.getD ptealloc) j)) } := by
  obtain ⟨-, hmap, hslots⟩ := h.seg.map.touch (j := j) ho
  refine ⟨h.inv, h.cache, h.seg.remap hmap List.length_set hslots, ?_⟩
  have hpages : Seg.pages { s with map := s.map.set i (some (Vm.touch (o.getD ptealloc) j)) } = s.pages :=
    congrArg (List.filterMap id) hslots
  rw [hpages]
  exact h.count

/-- A page with a reference of its own is put into an empty entry. -/
theorem Good.fill (h : Good w m held rest s) {t : Pte P} (ht : s.map[k / PTEPERTAB]? = some (some t))
    (hw : t.within (k % PTEPERTAB) = true) (hslot : s.slot k = none) {new : P} (hinv : Inv w.env m' held)
    (hcache : CacheOk w m') (hkeeps : Keeps m m') (hdata : m'.data new = page fun b => s.priv (k * PGSZ + b))
    (href : m'.ref = Function.update m.ref new (m.ref new + 1)) :
    Good w m' held rest (s.set (k / PTEPERTAB) (k % PTEPERTAB) t new) := by
  have hframe : SegOk w m'.data s := h.seg.frame fun k' p hp => hkeeps p (h.in_use hp)
  refine ⟨hinv, hcache, hframe.put ht hw hdata, fun p => ?_⟩
  have hcount := h.seg.put_count ht hw new p
  have hle := h.count p
  rw [hslot, if_neg (Option.some_ne_none p ∘ Eq.symm)] at hcount
  rw [href]
  rcases eq_or_ne p new with rfl | hp
  · rw [Function.update_self]
    rw [if_pos rfl] at hcount
    omega
  · rw [Function.update_of_ne hp]
    rw [if_neg hp.symm] at hcount
    omega

theorem Seg.set_set (s : Seg P I) (i j : ℕ) (t : Pte P) (x y : P) : (s.set i j t x).set i j t y = s.set i j t y := by
  simp only [Seg.set, List.set_set]

/-- After a page has been put into an entry the branch for data goes on with it. -/
theorem fill_common (h : Good w m held rest s) {t : Pte P} (ht : s.map[k / PTEPERTAB]? = some (some t))
    (hw : t.within (k % PTEPERTAB) = true) (hslot : s.slot k = none) {new : P} (hinv : Inv w.env m' held)
    (hcache : CacheOk w m') (hkeeps : Keeps m m') (hdata : m'.data new = page fun b => s.priv (k * PGSZ + b))
    (href : m'.ref = Function.update m.ref new (m.ref new + 1)) (addr : ℕ) (read kp : Bool) :
    ∃ m'' s' out, common w m' (s.set (k / PTEPERTAB) (k % PTEPERTAB) t new) addr (k / PTEPERTAB) (k % PTEPERTAB) t new read kp =
      some (m'', s', out) ∧ Fixed w held rest k read m s m'' s' out := by
  have hgood := h.fill ht hw hslot hinv hcache hkeeps hdata href
  have hi := (List.getElem?_eq_some_iff.mp ht).1
  have hT : (s.set (k / PTEPERTAB) (k % PTEPERTAB) t new).map[k / PTEPERTAB]? =
      some (some { t with pages := t.pages.set (k % PTEPERTAB) (some new) }) := List.getElem?_set_self hi
  have hnew : (s.set (k / PTEPERTAB) (k % PTEPERTAB) t new).slot k = some new := by
    rw [Seg.set_slot h.seg.map ht hw, if_pos rfl]
  have hsame : ∀ x, (s.set (k / PTEPERTAB) (k % PTEPERTAB) t new).set (k / PTEPERTAB) (k % PTEPERTAB) t x =
      (s.set (k / PTEPERTAB) (k % PTEPERTAB) t new).set (k / PTEPERTAB) (k % PTEPERTAB)
        { t with pages := t.pages.set (k % PTEPERTAB) (some new) } x := by
    intro x
    simp only [Seg.set, List.set_set]
  obtain ⟨m'', s', out, hc, hf⟩ := common_spec hgood hT hw hsame hnew addr read kp
  refine ⟨m'', s', out, hc, hf.good, ?_, fun p hp => ?_, hf.ok⟩
  · have hset : Same s (s.set (k / PTEPERTAB) (k % PTEPERTAB) t new) := ⟨rfl, rfl, rfl, rfl, rfl, rfl, rfl⟩
    exact hset.trans hf.same
  · rw [hf.others p hp]
    exact hkeeps p (h.rest_pos hp)

theorem zero_page (n : ℕ) (hn : n = PGSZ) {f : ℕ → UInt8} (hf : ∀ b, b < PGSZ → f b = 0) : List.replicate n (0 : UInt8) = page f := by
  rw [hn, page]
  symm
  apply List.eq_replicate_iff.mpr
  refine ⟨by simp, fun x hx => ?_⟩
  obtain ⟨b, hb, rfl⟩ := List.mem_map.mp hx
  exact hf b (List.mem_range.mp hb)

theorem Fixed.touched {i j : ℕ} {o : Option (Pte P)} {read : Bool} {out : Outcome}
    (h : Fixed w held rest k read m { s with map := s.map.set i (some (touch (o.getD ptealloc) j)) } m' s' out) :
    Fixed w held rest k read m s m' s' out :=
  ⟨h.good, ⟨h.same.type, h.same.base, h.same.top, h.same.image, h.same.fstart, h.same.flen, h.same.priv⟩, h.others, h.ok⟩

/-- Pages of a file are loaded for addresses within its part only. -/
theorem SegOk.in_file (h : SegOk w m.data s) (himage : s.image ≠ none) {addr : ℕ} (hle : s.base ≤ addr) (hlt : addr < s.top) :
    (addr - s.base) / PGSZ * PGSZ < s.flen := by
  obtain ⟨i, -, -, hsize, -⟩ := h.image_cases himage
  rw [ROUNDUP, HOWMANY, PGSZ_eq] at hsize
  rw [PGSZ_eq]
  omega

theorem textfault_spec (h : Good w m held rest s) {t : Pte P} (ht : s.map[k / PTEPERTAB]? = some (some t))
    (hw : t.within (k % PTEPERTAB) = true) (himage : s.image ≠ none) (hk : k * PGSZ < s.flen) (addr : ℕ) (kp ioerr : Bool) :
    ∃ m' s' out, textfault w m s addr (k * PGSZ) (k / PTEPERTAB) (k % PTEPERTAB) t kp ioerr = some (m', s', out) ∧
      Fixed w held rest k true m s m' s' out := by
  have hslot : s.slot k = t.pages[k % PTEPERTAB]?.join := by
    rw [Seg.slot, ht, Option.join_some, Option.bind_some]
  unfold textfault
  rw [← hslot]
  cases hs : s.slot k with
  | some p => exact ⟨m, s, .ok, rfl, h, Same.refl s, fun _ _ => rfl, fun _ => ⟨p, hs, (by intros; contradiction)⟩⟩
  | none =>
    obtain ⟨m', o, out, hpio, hinv, hcache, hkeeps, hsome, hnone⟩ := pio_spec h himage hk hs addr kp ioerr
    simp only [hpio, Option.map_some]
    cases o with
    | some new =>
      obtain ⟨rfl, hdata, href⟩ := hsome new rfl
      refine ⟨m', _, .ok, rfl, h.fill ht hw hs hinv hcache hkeeps hdata href, ⟨rfl, rfl, rfl, rfl, rfl, rfl, rfl⟩,
        fun p hp => hkeeps p (h.rest_pos hp), fun _ => ⟨new, ?_, (by intros; contradiction)⟩⟩
      rw [Seg.set_slot h.seg.map ht hw, if_pos rfl]
    | none =>
      obtain ⟨hout, href⟩ := hnone rfl
      refine ⟨m', s, out, rfl, h.move hinv hcache hkeeps ?_, Same.refl s, fun p hp => hkeeps p (h.rest_pos hp),
        fun hc => absurd hc hout⟩
      rw [href]
      exact h.count

theorem datafault_spec (h : Good w m held rest s) {t : Pte P} (ht : s.map[k / PTEPERTAB]? = some (some t))
    (hw : t.within (k % PTEPERTAB) = true) (himage : s.image ≠ none) (hk : k * PGSZ < s.flen) (addr : ℕ) (read kp ioerr : Bool) :
    ∃ m' s' out, datafault w m s addr (k * PGSZ) (k / PTEPERTAB) (k % PTEPERTAB) t read kp ioerr = some (m', s', out) ∧
      Fixed w held rest k read m s m' s' out := by
  have hslot : s.slot k = t.pages[k % PTEPERTAB]?.join := by
    rw [Seg.slot, ht, Option.join_some, Option.bind_some]
  unfold datafault
  rw [← hslot]
  cases hs : s.slot k with
  | some lkp => exact common_spec h ht hw (fun _ => rfl) hs addr read kp
  | none =>
    obtain ⟨m', o, out, hpio, hinv, hcache, hkeeps, hsome, hnone⟩ := pio_spec h himage hk hs addr kp ioerr
    simp only [hpio, Option.bind_some]
    cases o with
    | some new =>
      obtain ⟨rfl, hdata, href⟩ := hsome new rfl
      exact fill_common h ht hw hs hinv hcache hkeeps hdata href addr read kp
    | none =>
      obtain ⟨hout, href⟩ := hnone rfl
      refine ⟨m', s, out, rfl, h.move hinv hcache hkeeps ?_, Same.refl s, fun p hp => hkeeps p (h.rest_pos hp),
        fun hc => absurd hc hout⟩
      rw [href]
      exact h.count

theorem zerofault_spec (h : Good w m held rest s) {t : Pte P} (ht : s.map[k / PTEPERTAB]? = some (some t))
    (hw : t.within (k % PTEPERTAB) = true) (himage : s.image = none) (addr : ℕ) (read kp : Bool) :
    ∃ m' s' out, zerofault w m s addr (k / PTEPERTAB) (k % PTEPERTAB) t read kp = some (m', s', out) ∧
      Fixed w held rest k read m s m' s' out := by
  have hslot : s.slot k = t.pages[k % PTEPERTAB]?.join := by
    rw [Seg.slot, ht, Option.join_some, Option.bind_some]
  unfold zerofault
  rw [← hslot]
  cases hs : s.slot k with
  | some lkp => exact common_spec h ht hw (fun _ => rfl) hs addr read kp
  | none =>
    obtain ⟨⟨m₁, o⟩, hr, hinv₁, hsheds, hnew⟩ := h.inv.new true addr kp
    simp only [hr, Option.bind_some]
    cases o with
    | none =>
      have hsh := hsheds rfl
      exact ⟨m₁, s, .again, rfl, h.sheds hinv₁ hsh, Same.refl s, fun p _ => by rw [hsh.data], (by intros; contradiction)⟩
    | some new =>
      obtain ⟨hn, hdata₁⟩ : New m m₁ new ∧ m₁.data = Function.update m.data new (List.replicate (1 <<< PGSHFT) 0) := hnew new rfl
      have hother : ∀ x, x ≠ new → m₁.data x = m.data x := by
        intro x hx
        rw [hdata₁, Function.update_of_ne hx]
      have hzero : ∀ b, b < PGSZ → s.priv (k * PGSZ + b) = 0 := by
        have hempty := h.seg.empty k hs
        rw [himage] at hempty
        exact hempty
      refine fill_common h ht hw hs hinv₁ (hn.cache h.cache hother) (fun x hx => hother x ?_) ?_ ?_ addr read kp
      · rintro rfl
        have hfree := hn.free
        omega
      · rw [hdata₁, Function.update_self]
        apply zero_page
        · rw [PGSZ]
        · exact hzero
      · rw [hn.ref, hn.free]
        rfl

theorem SegOk.image_of_type (h : SegOk w m.data s) : (s.image ≠ none ↔ s.type = .TEXT ∨ s.type = .DATA) := by
  have hk := h.kind
  cases hty : s.type with
  | TEXT =>
    rw [hty] at hk
    obtain ⟨i, hi, -⟩ := hk
    simp [hi.image]
  | DATA =>
    rw [hty] at hk
    obtain ⟨i, hi, -⟩ := hk
    simp [hi.image]
  | BSS =>
    rw [hty] at hk
    have hnone : s.image = none := hk
    simp [hnone]
  | STACK =>
    rw [hty] at hk
    have hnone : s.image = none := hk
    simp [hnone]

theorem fixfault_spec (h : Good w m held rest s) {addr : ℕ} (hle : s.base ≤ addr) (hlt : addr < s.top) (read kp ioerr : Bool)
    (hread : s.type = .TEXT → read = true) :
    ∃ m' s' out, fixfault w m s addr read kp ioerr = some (m', s', out) ∧
      Fixed w held rest ((addr - s.base) / PGSZ) read m s m' s' out := by
  obtain ⟨hsoff, hi, hj⟩ := slot_indices h.seg.base hle
  obtain ⟨o, ho⟩ := h.seg.entry hle hlt
  have hfile := fun himage => h.seg.in_file himage hle hlt
  have hkinds := h.seg.image_of_type
  unfold fixfault
  rw [hsoff] at hi hj
  simp only [hsoff, hi, hj, ho, Option.bind_some]
  generalize (addr - s.base) / PGSZ = k at *
  generalize addr - addr % PGSZ = addr
  have hgood := h.touch (j := k % PTEPERTAB) ho
  have hin := (List.getElem?_eq_some_iff.mp ho).1
  have hw := touch_within (o.getD ptealloc) (k % PTEPERTAB)
  have ht : (s.map.set (k / PTEPERTAB) (some (touch (o.getD ptealloc) (k % PTEPERTAB))))[k / PTEPERTAB]? =
      some (some (touch (o.getD ptealloc) (k % PTEPERTAB))) := List.getElem?_set_self hin
  cases hty : s.type with
  | TEXT =>
    have himage : s.image ≠ none := hkinds.mpr (Or.inl hty)
    obtain ⟨m', s', out, hr, hf⟩ := textfault_spec hgood ht hw himage (hfile himage) addr kp ioerr
    rw [hread hty]
    rw [hty] at hr
    exact ⟨m', s', out, hr, hf.touched⟩
  | DATA =>
    have himage : s.image ≠ none := hkinds.mpr (Or.inr hty)
    obtain ⟨m', s', out, hr, hf⟩ := datafault_spec hgood ht hw himage (hfile himage) addr read kp ioerr
    rw [hty] at hr
    exact ⟨m', s', out, hr, hf.touched⟩
  | BSS =>
    have himage : s.image = none := not_not.mp fun hc => by simpa [hty] using hkinds.mp hc
    obtain ⟨m', s', out, hr, hf⟩ := zerofault_spec hgood ht hw himage addr read kp
    rw [hty] at hr
    exact ⟨m', s', out, hr, hf.touched⟩
  | STACK =>
    have himage : s.image = none := not_not.mp fun hc => by simpa [hty] using hkinds.mp hc
    obtain ⟨m', s', out, hr, hf⟩ := zerofault_spec hgood ht hw himage addr read kp
    rw [hty] at hr
    exact ⟨m', s', out, hr, hf.touched⟩

end Fixfault

end Petele.Vm
