import Petele.Qio.Sections

namespace Petele.Qio

open Lib

variable {n : ℕ} {s s' : Sys n} {c : List (Cell n)} {x : Fin n}

/-- The bytes of the blocks `c`. -/
def stream (c : List (Cell n)) : List UInt8 := c.flatMap Cell.data

@[simp] theorem stream_nil : stream ([] : List (Cell n)) = [] := rfl

@[simp] theorem stream_cons (z : Cell n) (c : List (Cell n)) :
    stream (z :: c) = z.data ++ stream c :=
  List.flatMap_cons

@[simp] theorem stream_append (c c' : List (Cell n)) : stream (c ++ c') = stream c ++ stream c' :=
  List.flatMap_append

@[simp] theorem cells_cons (z : Fin n × Block n) (l : List (Fin n × Block n)) :
    cells (z :: l) = cell z :: cells l :=
  rfl

@[simp] theorem cells_nil : cells ([] : List (Fin n × Block n)) = [] := rfl

theorem flat_eq_stream (l : List (Fin n × Block n)) : flat l = stream (cells l) := by
  simp only [flat, stream, cells, List.flatMap_map]
  rfl

theorem stream_length (c : List (Cell n)) : (stream c).length = lens c := by
  rw [stream, List.length_flatMap, lens]

theorem qputback_spec (h : Has s.mem s.q c) {b : Block n} (hb : s.mem x = some b)
    (hx : x ∉ places c) :
    ∃ s', qputback s x = some s' ∧ Settles [] [x] s c s' (cell (x, b) :: c) := by
  have hne : ∀ y ∈ places c, y ≠ x := fun y hy heq => hx (heq ▸ hy)
  refine ⟨⟨Function.update s.mem x (some (b.link s.q.bfirst)), { s.q with
    blast := if s.q.bfirst.isNone then some x else s.q.blast
    bfirst := some x
    len := wrap (s.q.len + BALLOC b)
    dlen := wrap (s.q.dlen + BLEN b) }⟩, ?_, ⟨?_, ?_, ?_, rfl⟩, ?_, nofun⟩
  · simp only [qputback, hb, Option.bind_eq_bind, Option.bind_some, Option.pure_def]
  · exact h.push hx (fun y hy => update_ne _ y (hne y hy)) (Function.update_self _ _ _)
      rfl rfl rfl rfl
  · intro y _ hy
    rw [List.mem_singleton] at hy
    exact update_ne _ y hy
  · intro y hy
    rcases List.mem_cons.mp hy with heq | hmem
    · exact Or.inr (List.mem_singleton.mpr heq)
    · exact Or.inl hmem
  · intro y hy
    rw [places_cons, List.mem_cons]
    rcases hy with hc | hself
    · exact Or.inl (Or.inr hc)
    · exact Or.inl (Or.inl (List.mem_singleton.mp hself))

/-- The block that `qbread` makes for the bytes it leaves. -/
def splits (q : Queue n) (b : Block n) (len : ℕ) (r : Option (Room n)) : List (Fin n) :=
  if len < BLEN b ∧ q.msg = false then (r.map Room.addr).toList else []

/-- The section of `qbread` on a queue with a block: on a stream, the block returned and what is
left are what there was. -/
theorem qbread_spec (h : Has s.mem s.q c) (hfirst : s.q.bfirst = some x) {b : Block n}
    (hb : s.mem x = some b) (len : ℕ) (r : Option (Room n))
    (hr : s.q.msg = false → len < BLEN b → ∃ r' ∈ r, r'.Fits s.mem (BLEN b - len)) :
    ∃ s' c' b', qbread s len r = some (x, s') ∧ Settles [x] (splits s.q b len r) s c s' c' ∧
      (∀ y ∈ splits s.q b len r, s.mem y = none) ∧ x ∉ places c' ∧ s'.mem x = some b' ∧
      (s.q.msg = false → b'.data ++ stream c' = stream c) := by
  obtain ⟨b₀, cs, hmem, rfl, hx, s₁, hremove, hmoves, hmem₁⟩ := qremove_spec h hfirst
  obtain rfl : b₀ = b := Option.some.inj (hmem.symm.trans hb)
  have hmsg : s₁.q.msg = s.q.msg := congrArg Prod.fst hmoves.mode
  have hlen : BLEN (b₀.link none) = BLEN b₀ := rfl
  simp only [qbread, hremove, hmem₁, hmsg, hlen, Option.bind_eq_bind, Option.bind_some,
    Option.pure_def, splits]
  by_cases hlong : len < BLEN b₀
  · rw [if_pos hlong]
    by_cases hm : s.q.msg = true
    · rw [if_pos hm, if_neg (by simp [hm])]
      have hcut := hmoves.has.moves_update hx (some ((b₀.link none).cut len))
      refine ⟨_, cs, _, rfl, (hmoves.trans hcut ?_ fun y hy => hy).unflow, nofun, hx,
        Function.update_self _ _ _, fun hstream => by simp [hstream] at hm⟩
      intro y hy
      exact Or.inl (List.mem_singleton.mp hy ▸ List.mem_cons_self)
    · have hstream : s.q.msg = false := by simpa using hm
      rw [if_neg hm, if_pos ⟨hlong, hstream⟩]
      obtain ⟨r', rfl, hfits⟩ := hr hstream hlong
      have hfresh := h.fresh hfits.1
      have hrx : x ≠ r'.addr := fun heq => hfresh (heq ▸ List.mem_cons_self)
      have hfits₁ : r'.Fits s₁.mem (b₀.data.drop len).length := by
        refine ⟨?_, ?_, hfits.2.2⟩
        · rw [hmoves.frame r'.addr hfresh nofun, hfits.1]
        · rw [List.length_drop]
          exact hfits.2.1
      obtain ⟨b₂, -, -, hdata, halloc, hx₂, hmoves₂⟩ := hmoves.has.alloc hfits₁
      obtain ⟨s₃, hback, hmoves₃⟩ := qputback_spec hmoves₂.has
        (Function.update_self r'.addr (some b₂) s₁.mem) hx₂
      have hx₃ : x ∉ places (cell (r'.addr, b₂) :: cs) := by
        intro hmem
        rcases List.mem_cons.mp hmem with heq | htail
        · exact hrx heq
        · exact hx htail
      have hcut := hmoves₃.has.moves_update hx₃ (some ((b₀.link none).cut len))
      have hdata' : (b₀.link none).data = b₀.data := rfl
      simp only [hdata', halloc, hback, Option.bind_some]
      refine ⟨_, cell (r'.addr, b₂) :: cs, _, rfl, Settles.unflow ?_, ?_, hx₃,
        Function.update_self _ _ _, ?_⟩
      · have hgiven : ∀ y ∈ [r'.addr] ++ [x], y ∈ places (cell (x, b₀) :: cs) ∨ y ∈ [r'.addr] := by
          intro y hy
          rcases List.mem_append.mp hy with hnew | hself
          · exact Or.inr hnew
          · exact Or.inl (List.mem_singleton.mp hself ▸ List.mem_cons_self)
        have hmade := (hmoves.widen [r'.addr]).trans (hmoves₂.widen [x]) hgiven fun y hy =>
          (List.mem_append.mp hy).elim (List.mem_append_right _) (List.mem_append_left _)
        have hput := hmade.trans (hmoves₃.widen [x]) hgiven fun y hy => hy
        exact hput.trans hcut (fun y hy => hgiven y (List.mem_append_right _ hy)) fun y hy => hy
      · intro y hy
        rw [List.mem_singleton.mp hy]
        exact hfits.1
      · intro _
        simp [cell, hdata, Block.cut, Block.link, ← List.append_assoc]
  · rw [if_neg hlong, if_neg fun hsplit => hlong hsplit.1]
    refine ⟨_, cs, _, rfl, hmoves.unflow, nofun, hx, hmem₁, fun _ => ?_⟩
    simp [cell, Block.link]

/-- The blocks a reader holds, in order, apart from those on the queue. -/
structure Holds (s : Sys n) (c : List (Cell n)) (p : Option (Fin n))
    (h : List (Fin n × Block n)) : Prop where
  chain : Chain Block.next s.mem p h
  apart : ∀ y ∈ addrs h, y ∉ places c

/-- A block that is taken off the queue is linked behind those held. -/
theorem Holds.take {b bl : Block n} {cs : List (Cell n)} {first last : Fin n} {h₀ : List (Fin n × Block n)} {s₁ : Sys n}
    (hh : Holds s (cell (x, b) :: cs) (some first) (h₀ ++ [(last, bl)])) (hx : x ∉ places cs)
    (hmoves : Settles [x] [] s (cell (x, b) :: cs) s₁ cs) (hmem₁ : s₁.mem x = some (b.link none)) :
    s₁.mem last = some bl ∧
      Holds ⟨Function.update s₁.mem last (some (bl.link (some x))), s₁.q⟩ cs (some first)
        ((h₀ ++ [(last, bl.link (some x))]) ++ [(x, b.link none)]) ∧
      Settles (addrs ((h₀ ++ [(last, bl.link (some x))]) ++ [(x, b.link none)])) (addrs (h₀ ++ [(last, bl)])) s
        (cell (x, b) :: cs) ⟨Function.update s₁.mem last (some (bl.link (some x))), s₁.q⟩ cs := by
  have hlastmem : last ∈ addrs (h₀ ++ [(last, bl)]) := by simp
  have hlast : last ∉ places (cell (x, b) :: cs) := hh.apart last hlastmem
  have hxh : x ∉ addrs (h₀ ++ [(last, bl)]) := fun hmem => hh.apart x hmem List.mem_cons_self
  have hchain₁ : Chain Block.next s₁.mem (some first) (h₀ ++ [(last, bl)]) :=
    Seg.frame hh.chain fun y hy => hmoves.frame y (hh.apart y hy) nofun
  have hlinked : Chain Block.next (Function.update s₁.mem last (some (bl.link (some x))))
      (some first) ((h₀ ++ [(last, bl.link (some x))]) ++ [(x, b.link none)]) := by
    refine (hchain₁.relink rfl).append ⟨rfl, ?_, rfl⟩
    rw [Function.update_of_ne, hmem₁]
    intro heq
    exact hxh (heq ▸ hlastmem)
  have haddrs : ∀ y, y ∈ addrs ((h₀ ++ [(last, bl.link (some x))]) ++ [(x, b.link none)]) ↔
      y = x ∨ y ∈ addrs (h₀ ++ [(last, bl)]) := by
    intro y
    simp only [addrs_append, addrs_cons, addrs_nil, List.mem_append, List.mem_singleton]
    exact Or.comm
  have hupdate := hmoves.has.moves_update (fun hy => hlast (List.mem_cons_of_mem _ hy)) (some (bl.link (some x)))
  refine ⟨Seg.lookup hchain₁ (List.mem_append_right h₀ (List.mem_singleton_self (last, bl))), ⟨hlinked, ?_⟩, ?_⟩
  · intro y hy hcs
    rcases (haddrs y).mp hy with rfl | hold
    · exact hx hcs
    · exact hh.apart y hold (List.mem_cons_of_mem _ hcs)
  · have hgiven : ∀ y, y ∈ addrs ((h₀ ++ [(last, bl.link (some x))]) ++ [(x, b.link none)]) →
        y ∈ places (cell (x, b) :: cs) ∨ y ∈ addrs (h₀ ++ [(last, bl)]) := by
      intro y hy
      rcases (haddrs y).mp hy with rfl | hold
      · exact Or.inl List.mem_cons_self
      · exact Or.inr hold
    have hlinks : ∀ y ∈ [last] ++ (x :: addrs (h₀ ++ [(last, bl)])),
        y ∈ addrs ((h₀ ++ [(last, bl.link (some x))]) ++ [(x, b.link none)]) := by
      intro y hy
      rw [haddrs]
      rcases List.mem_append.mp hy with hself | hrest
      · exact Or.inr (List.mem_singleton.mp hself ▸ hlastmem)
      · exact List.mem_cons.mp hrest
    have hboth := (hmoves.widen (addrs (h₀ ++ [(last, bl)]))).trans
      (hupdate.widen (x :: addrs (h₀ ++ [(last, bl)]))) (fun y hy => hgiven y (hlinks y hy))
      fun y hy => List.mem_append_right _ hy
    exact hboth.trans (Settles.refl hupdate.has _) hgiven hlinks

/-- `qread` collects blocks: what it takes goes from the front of the queue to the end of what it
holds. As long as its count is that of the bytes held, it takes no more than the read has room
for. -/
theorem gather_spec (len fuel : ℕ) (cnt : ℤ) {first last : Fin n} {bl : Block n}
    {h₀ : List (Fin n × Block n)} (h : Has s.mem s.q c)
    (hh : Holds s c (some first) (h₀ ++ [(last, bl)])) (hfuel : c.length < fuel) :
    ∃ cnt' s' c' h', gather len fuel cnt last s = some (cnt', s') ∧
      Settles (addrs h') (addrs (h₀ ++ [(last, bl)])) s c s' c' ∧ Holds s' c' (some first) h' ∧
      cells h' ++ c' = cells (h₀ ++ [(last, bl)]) ++ c ∧
      (cnt = lens (cells (h₀ ++ [(last, bl)])) →
        lens (cells (h₀ ++ [(last, bl)])) + lens c < 2 ^ 31 →
        (len < lens (cells (h₀ ++ [(last, bl)])) →
          cells h' = cells (h₀ ++ [(last, bl)])) ∧
        (lens (cells (h₀ ++ [(last, bl)])) ≤ len → lens (cells h') ≤ len)) := by
  induction fuel generalizing s c cnt last bl h₀ with
  | zero => omega
  | succ fuel ih =>
    rw [gather]
    cases hfirst : s.q.bfirst with
    | none =>
      exact ⟨cnt, s, c, _, rfl, Settles.refl h _, hh, rfl, fun _ _ => ⟨fun _ => rfl, id⟩⟩
    | some x =>
      obtain ⟨b, cs, hmem, rfl, hx, s₁, hremove, hmoves, hmem₁⟩ := qremove_spec h hfirst
      simp only [hmem, hremove, Option.bind_eq_bind, Option.bind_some, Option.pure_def]
      split
      · exact ⟨cnt, s, _, _, rfl, Settles.refl h _, hh, rfl, fun _ _ => ⟨fun _ => rfl, id⟩⟩
      · rename_i hroom
        obtain ⟨hbl, hh₂, hturn⟩ := hh.take hx hmoves hmem₁
        obtain ⟨cnt', s', c', h', hloop, hmoves₃, hh', hcells, hcount⟩ :=
          ih (wrap (cnt + BLEN b)) hturn.has hh₂ (by rw [List.length_cons] at hfuel; omega)
        have hsame : cells ((h₀ ++ [(last, bl.link (some x))]) ++ [(x, b.link none)]) =
            cells (h₀ ++ [(last, bl)]) ++ [cell (x, b)] := by
          simp only [cells_append]
          rfl
        simp only [hbl, Option.bind_some]
        refine ⟨cnt', s', c', h', hloop, ?_, hh', ?_, ?_⟩
        · exact hturn.trans hmoves₃ hturn.had fun y hy => hy
        · rw [hcells, hsame, List.append_assoc, List.singleton_append]
        · intro hcnt hfit
          have hsum : lens (cells (h₀ ++ [(last, bl)]) ++ [cell (x, b)]) =
              lens (cells (h₀ ++ [(last, bl)])) + BLEN b := by
            rw [lens_append, lens_cons]
            rfl
          have hhead : lens (cell (x, b) :: cs) = BLEN b + lens cs := lens_cons _ _
          have hexact : wrap (cnt + BLEN b) = cnt + BLEN b :=
            wrap_of_range (by omega) (by omega)
          rw [hsame, hsum] at hcount
          rw [hexact] at hroom hcount
          obtain ⟨-, hmore⟩ := hcount (by omega) (by omega)
          exact ⟨fun hlong => by omega, fun _ => hmore (by omega)⟩

/-- One turn of the loop of `qread` that takes a block. -/
theorem gather_take {n : ℕ} {s : Sys n} {len fuel : ℕ} {cnt : ℤ} {x last : Fin n} {b c : Block n}
    (hfirst : s.q.bfirst = some x) (hx : s.mem x = some b) (hlast : s.mem last = some c)
    (hne : last ≠ x) (hroom : ¬ (len : ℤ) < wrap (cnt + BLEN b)) :
    ∃ s', gather len (fuel + 1) cnt last s = gather len fuel (wrap (cnt + BLEN b)) x s' ∧
      s'.q.bfirst = b.next ∧ s'.q.mode = s.q.mode ∧ s'.mem x = some (b.link none) ∧
      s'.mem last = some (c.link (some x)) ∧ ∀ y, y ≠ x → y ≠ last → s'.mem y = s.mem y := by
  have hlast' : Function.update s.mem x (some (b.link none)) last = some c := by
    rw [Function.update_of_ne hne, hlast]
  refine ⟨⟨Function.update (Function.update s.mem x (some (b.link none))) last
    (some (c.link (some x))), { s.q with
      bfirst := b.next
      len := wrap (s.q.len - BALLOC b)
      dlen := wrap (s.q.dlen - BLEN b) }⟩, ?_, rfl, rfl, ?_, Function.update_self _ _ _, ?_⟩
  · simp only [gather, hfirst, hx, hroom, qremove, hlast', Option.bind_eq_bind, Option.bind_some,
      Option.pure_def, if_false]
  · exact (Function.update_of_ne hne.symm _ _).trans (Function.update_self _ _ _)
  · intro y hyx hyl
    exact (Function.update_of_ne hyl _ _).trans (Function.update_of_ne hyx _ _)

theorem gather_empty {n : ℕ} {s : Sys n} (hfirst : s.q.bfirst = none) (len fuel : ℕ) (cnt : ℤ)
    (last : Fin n) : gather len (fuel + 1) cnt last s = some (cnt, s) := by
  simp only [gather, hfirst]

theorem qwait_cases (q : Queue n) :
    (∃ x, q.bfirst = some x ∧ qwait q = (.ready, q)) ∨
    ∃ w q', w ≠ .ready ∧ qwait q = (w, q') ∧ q.bfirst = none ∧ q'.bfirst = q.bfirst ∧
      q'.blast = q.blast ∧ q'.len = q.len ∧ q'.dlen = q.dlen ∧ q'.mode = q.mode := by
  unfold qwait
  cases hfirst : q.bfirst with
  | some x => exact Or.inl ⟨x, rfl, rfl⟩
  | none =>
    right
    simp only [Option.isSome_none, Bool.false_eq_true, if_false]
    split
    · split
      · exact ⟨.error, _, nofun, rfl, trivial, rfl, rfl, rfl, rfl, rfl⟩
      · split
        · exact ⟨.error, _, nofun, rfl, trivial, rfl, rfl, rfl, rfl, rfl⟩
        · exact ⟨.eof, _, nofun, rfl, trivial, rfl, rfl, rfl, rfl, rfl⟩
    · exact ⟨.sleep, _, nofun, rfl, trivial, rfl, rfl, rfl, rfl, rfl⟩

/-- What the first section of `qread` ends with: the result of `qwait`, or blocks. On a queue that
does not coalesce, or holds fewer than `2 ^ 31` bytes, these are one or fit into the read. -/
def Takes (len : ℕ) (s : Sys n) (c : List (Cell n)) (t : Taken n) (s' : Sys n)
    (c' : List (Cell n)) : Prop :=
  match t with
  | .wait w => w ≠ .ready ∧ Settles [] [] s c s' c' ∧ stream c' = stream c
  | .blocks first _ =>
    ∃ l, Settles (addrs l) [] s c s' c' ∧ Holds s' c' (some first) l ∧
      stream (cells l) ++ stream c' = stream c ∧
      (s.q.coalesce = false ∨ lens c < 2 ^ 31 → l.length = 1 ∨ lens (cells l) ≤ len)

/-- The loop over `again` drops an empty block and goes on. -/
theorem Takes.again {len : ℕ} {s₁ : Sys n} {c₁ c' : List (Cell n)} {t : Taken n}
    (h : Takes len s₁ c₁ t s' c') (hmoves : Settles [] [] s c s₁ c₁)
    (hstream : stream c₁ = stream c) : Takes len s c t s' c' := by
  have hcoalesce : s₁.q.coalesce = s.q.coalesce := congrArg (·.2.1) hmoves.mode
  have hlens : lens c₁ = lens c := by
    rw [← stream_length, ← stream_length, hstream]
  cases t with
  | wait w =>
    obtain ⟨hw, hmoves', hs⟩ := h
    exact ⟨hw, hmoves.trans hmoves' nofun nofun, hs.trans hstream⟩
  | blocks first cnt =>
    obtain ⟨l, hmoves', hl, hs, hcount⟩ := h
    rw [hcoalesce, hlens] at hcount
    exact ⟨l, hmoves.trans hmoves' nofun nofun, hl, hs.trans hstream, hcount⟩

theorem qtake_spec (len fuel : ℕ) (h : Has s.mem s.q c) (hfuel : c.length < fuel) :
    ∃ t s' c', qtake len fuel s = some (t, s') ∧ Takes len s c t s' c' := by
  induction fuel generalizing s c with
  | zero => omega
  | succ fuel ih =>
    rcases qwait_cases s.q with
      ⟨x, hfirst, hwait⟩ | ⟨w, q', hw, hwait, hnone, hfirst, hlast, hlen, hdlen, hmode⟩
    · obtain ⟨b, cs, hmem, rfl, hx, s₁, hremove, hmoves, hmem₁⟩ := qremove_spec h hfirst
      have hheld : Holds s₁ cs (some x) ([] ++ [(x, b.link none)]) := by
        refine ⟨⟨rfl, hmem₁, rfl⟩, ?_⟩
        intro y hy
        rw [List.mem_singleton.mp hy]
        exact hx
      simp only [qtake, hwait, hfirst, hmem, hremove, Option.bind_eq_bind, Option.bind_some,
        Option.pure_def]
      split
      · split
        · rename_i hempty
          have hdata : b.data = [] := List.eq_nil_of_length_eq_zero hempty
          have hfree := hmoves.has.moves_freeb hx
          have hdropped : Settles [] [] s (cell (x, b) :: cs) ⟨Function.update s₁.mem x none, s₁.q⟩ cs :=
            hmoves.trans hfree (fun y hy => Or.inl (List.mem_singleton.mp hy ▸ List.mem_cons_self))
              fun y hy => hy
          obtain ⟨t, s', c', hloop, htakes⟩ :=
            ih hdropped.has (by rw [List.length_cons] at hfuel; omega)
          refine ⟨t, s', c', ?_, htakes.again hdropped (by simp [cell, hdata])⟩
          rw [freeb_eq hmem₁]
          exact hloop
        · obtain ⟨cnt, s', c', l, hgather, hmoves', hl, hcells, hcount⟩ :=
            gather_spec len (n + 1) (BLEN b) hmoves.has hheld (by
              have := hmoves.has.length_le
              omega)
          refine ⟨.blocks x cnt, s', c', by rw [hgather]; rfl, l, ?_, hl, ?_, ?_⟩
          · exact hmoves.trans hmoves' (fun y hy =>
              Or.inl (List.mem_singleton.mp hy ▸ List.mem_cons_self)) fun y hy => hy
          · rw [← stream_append, hcells, stream_append]
            simp [cell, Block.link]
          · rename_i hcoalesce _
            intro hfit
            have hsmall : lens (cell (x, b) :: cs) < 2 ^ 31 := by simpa [hcoalesce] using hfit
            have hone : lens (cells ([] ++ [(x, b.link none)])) = BLEN b := by
              simp [cell, Block.link, BLEN, lens]
            have hall : lens (cell (x, b) :: cs) = BLEN b + lens cs := lens_cons _ _
            rw [hone] at hcount
            obtain ⟨hlong, hshort⟩ := hcount rfl (by omega)
            rcases Nat.lt_or_ge len (BLEN b) with hlt | hge
            · left
              have hlen := congrArg List.length (hlong hlt)
              simpa [cells] using hlen
            · exact Or.inr (hshort hge)
      · refine ⟨.blocks x (BLEN b), s₁, cs, rfl, [(x, b.link none)], hmoves, hheld, ?_, fun _ => Or.inl rfl⟩
        simp [cell, Block.link]
    · refine ⟨.wait w, ⟨s.mem, q'⟩, c, ?_, hw, ?_, rfl⟩
      · cases w with
        | ready => exact absurd rfl hw
        | sleep => simp only [qtake, hwait]
        | eof => simp only [qtake, hwait]
        | error => simp only [qtake, hwait]
      · exact (Settles.refl h []).flags hfirst hlast hlen hdlen hmode

/-- `bl2mem` copies the first `k` bytes and frees the blocks it empties. A block is left over only
if the bytes do not fit, and behind it what was behind it before. -/
theorem bl2mem_spec (fuel : ℕ) {m : Mem n} {p : Option (Fin n)} {l : List (Fin n × Block n)}
    (h : Chain Block.next m p l) (k : ℕ) (hfuel : l.length ≤ fuel) :
    ∃ got rest m' l', bl2mem fuel m p k = some (got, rest, m') ∧ Chain Block.next m' rest l' ∧
      (∀ y ∉ addrs l, m' y = m y) ∧ (∀ y ∈ addrs l', y ∈ addrs l) ∧
      (∀ y ∈ addrs l, y ∈ addrs l' ∨ m' y = none) ∧ got ++ stream (cells l') = stream (cells l) ∧ l'.length ≤ l.length ∧
      (lens (cells l) ≤ k → l' = []) := by
  induction l generalizing m p k fuel with
  | nil =>
    have hp : p = none := h
    refine ⟨[], none, m, [], ?_, rfl, fun _ _ => rfl, nofun, nofun, rfl, Nat.le_refl _, fun _ => rfl⟩
    rw [hp]
    cases fuel <;> rfl
  | cons z l ih =>
    obtain ⟨x, b⟩ := z
    obtain ⟨hp, hmem, hl⟩ := h
    have hxl : x ∉ addrs l := (Chain.tail ⟨hp, hmem, hl⟩).2
    have hsum : lens (cells ((x, b) :: l)) = BLEN b + lens (cells l) := lens_cons _ _
    cases fuel with
    | zero => simp at hfuel
    | succ fuel =>
      simp only [hp, bl2mem, hmem, freeb_eq hmem, Option.bind_eq_bind, Option.bind_some,
        Option.pure_def]
      split
      · rename_i hlong
        refine ⟨_, _, _, (x, b.advance k) :: l, rfl, ⟨rfl, Function.update_self _ _ _, ?_⟩, ?_,
          fun y hy => hy, fun y hy => Or.inl hy, ?_, Nat.le_refl _, fun hle => by omega⟩
        · exact Seg.update hl hxl _
        · intro y hy
          rw [addrs_cons, List.mem_cons, not_or] at hy
          exact Function.update_of_ne hy.1 _ _
        · simp [cell, Block.advance, ← List.append_assoc]
      · rename_i hshort
        have hrest : Chain Block.next (Function.update m x none) b.next l := Seg.update hl hxl _
        obtain ⟨got, rest, m', l', hloop, hl', hframe, hsub, hgone, hbytes, hlength, hfit⟩ :=
          ih fuel hrest (k - BLEN b) (Nat.le_of_succ_le_succ hfuel)
        rw [hloop]
        refine ⟨b.data ++ got, rest, m', l', rfl, hl', ?_, ?_, ?_, ?_, Nat.le_succ_of_le hlength, ?_⟩
        · intro y hy
          rw [addrs_cons, List.mem_cons, not_or] at hy
          rw [hframe y hy.2, Function.update_of_ne hy.1]
        · exact fun y hy => List.mem_cons_of_mem _ (hsub y hy)
        · intro y hy
          rcases List.mem_cons.mp hy with heq | htail
          · rw [heq, hframe x hxl]
            exact Or.inr (Function.update_self _ _ _)
          · exact hgone y htail
        · rw [List.append_assoc, hbytes]
          rfl
        · exact fun hle => hfit (by omega)

/-- The second section of `qread` puts the block left over in front, or drops it with all that is
behind it. -/
theorem qreadend_spec (h : Has s.mem s.q c) {p : Option (Fin n)} {l : List (Fin n × Block n)}
    (hl : Holds s c p l) (cnt : ℤ) :
    ∃ r s' c', qreadend s p cnt = some (r, s') ∧ Settles (addrs l).tail (addrs l) s c s' c' ∧
      (s.q.msg = false → l.length ≤ 1 → stream c' = stream (cells l) ++ stream c) := by
  cases l with
  | nil =>
    have hp : p = none := hl.chain
    refine ⟨cnt, _, c, by rw [hp, qreadend], (Settles.refl h _).unflow, fun _ _ => rfl⟩
  | cons z l =>
    obtain ⟨x, b⟩ := z
    obtain ⟨hp, hmem, -⟩ := hl.chain
    have hx : x ∉ places c := hl.apart x List.mem_cons_self
    simp only [hp, qreadend, hmem, freeb_eq hmem, Option.bind_eq_bind, Option.bind_some,
      Option.pure_def]
    split
    · rename_i hmsg
      exact ⟨_, _, c, rfl, ((h.moves_freeb hx).widen (addrs l)).unflow,
        fun hstream => by simp [hstream] at hmsg⟩
    · obtain ⟨s', hback, hmoves⟩ := qputback_spec h hmem hx
      simp only [hback, Option.bind_some]
      refine ⟨_, _, _, rfl, (hmoves.widen (addrs l)).unflow, fun _ hone => ?_⟩
      have hnil : l = [] := List.eq_nil_of_length_eq_zero (by simpa using hone)
      simp [hnil]

end Petele.Qio
