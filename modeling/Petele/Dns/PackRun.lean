import Petele.Dns.Reads

namespace Petele.Dns

/-- What is packed stands from `b.p` on, in front of `ep`; the dictionary only grows. -/
structure Extends (ep : ℕ) (b b' : Pack) : Prop where
  le : b.p ≤ b'.p
  mem : ∀ i, i < b.p ∨ ep ≤ i → b'.mem i = b.mem i
  dict : b.dict.x <+: b'.dict.x
  log : b.log <:+ b'.log

theorem Extends.refl (ep : ℕ) (b : Pack) : Extends ep b b :=
  ⟨le_rfl, fun _ _ => rfl, List.prefix_rfl, List.suffix_rfl⟩

theorem Extends.trans {ep : ℕ} {b b' b'' : Pack} (h : Extends ep b b') (h' : Extends ep b' b'') : Extends ep b b'' := by
  refine ⟨h.le.trans h'.le, fun i hi => ?_, h.dict.trans h'.dict, h.log.trans h'.log⟩
  have hle := h.le
  rw [h'.mem i (by omega), h.mem i hi]

section Puts

variable {ep p i : ℕ} {mem : ℕ → UInt8} {l : List UInt8} {b : Pack}

theorem store_at (mem : ℕ → UInt8) (p : ℕ) (h : i < l.length) : store mem p l (p + i) = l[i] := by
  rw [store, if_pos (Nat.le_add_right p i), Nat.add_sub_cancel_left, List.getD_eq_getElem?_getD, List.getElem?_eq_getElem h]
  rfl

theorem store_below (h : i < p) : store mem p l i = mem i := by
  rw [store, if_neg (not_le.mpr h)]

theorem store_above (h : p + l.length ≤ i) : store mem p l i = mem i := by
  rw [store, if_pos (by omega), List.getD_eq_getElem?_getD, List.getElem?_eq_none (by omega)]
  rfl

theorem puts_fits (h : b.p + l.length ≤ ep) :
    puts ep l b = { b with p := b.p + l.length, mem := store b.mem b.p l } := by
  rw [puts, if_neg (not_lt.mpr h)]

theorem puts_full (h : ep < b.p + l.length) : puts ep l b = { b with p := ep + 1 } := by
  rw [puts, if_pos h]

theorem puts_top : (puts ep l b).p ≤ ep + 1 := by
  rw [puts]
  split
  · exact le_rfl
  · dsimp only
    omega

theorem puts_extends (hp : b.p ≤ ep + 1) : Extends ep b (puts ep l b) := by
  by_cases h : b.p + l.length ≤ ep
  · rw [puts_fits h]
    refine ⟨Nat.le_add_right _ _, fun i hi => ?_, List.prefix_rfl, List.suffix_rfl⟩
    rcases hi with hi | hi
    · exact store_below hi
    · exact store_above (by omega)
  · rw [puts_full (not_le.mp h)]
    exact ⟨hp, fun _ _ => rfl, List.prefix_rfl, List.suffix_rfl⟩

end Puts

/-- The bytes of `A` and those from `p` up to `q`. -/
def grow (A : ℕ → Prop) (p q : ℕ) : ℕ → Prop := fun i => A i ∨ p ≤ i ∧ i < q

theorem grow_grow {A : ℕ → Prop} {p q r i : ℕ} (hpq : p ≤ q) (hqr : q ≤ r) (h : grow (grow A p q) q r i) : grow A p r i := by
  rcases h with (h | h) | h
  · exact .inl h
  · exact .inr ⟨h.1, by omega⟩
  · exact .inr ⟨by omega, h.2⟩

theorem grow_lt {A : ℕ → Prop} {p q i : ℕ} (hA : ∀ i, A i → i < p) (hpq : p ≤ q) (h : grow A p q i) : i < q := by
  rcases h with h | h
  · exact (hA i h).trans_le hpq
  · exact h.2

section Dictionary

variable {x own : List Entry} {np : List UInt8} {e : Entry}

theorem lookup_some (h : lookup x np = some e) : e ∈ x ∧ e.name = np :=
  ⟨List.mem_of_find?_eq_some h, by simpa using List.find?_some h⟩

/-- The entries of longer names are not found. -/
theorem lookup_append (h : ∀ e ∈ own, np.length < e.name.length) : lookup (x ++ own) np = lookup x np := by
  have hown : own.find? (fun e => e.name == np) = none := by
    refine List.find?_eq_none.mpr fun e he => ?_
    rw [beq_iff_eq]
    intro heq
    have := h e he
    rw [heq] at this
    omega
  rw [lookup, List.find?_append, hown, Option.or_none, lookup]

theorem hops_some (hnp : np ≠ []) (h : lookup x np = some e) : hops x np = e.hops + 1 := by
  rw [hops, dif_neg hnp, h]

theorem hops_none (hnp : np ≠ []) (h : lookup x np = none) : hops x np = hops x (components np) := by
  rw [hops, dif_neg hnp, h]

theorem fine_some {len : ℕ} (hnp : np ≠ []) (h : lookup x np = some e) (hf : fine x len np = true) :
    e.place < 2 ^ 14 ∧ e.dropped = false ∧ e.hops ≤ 10 ∧ len + widest np < Domlen - 1 := by
  rw [fine, dif_neg hnp, h] at hf
  simpa [and_assoc] using hf

theorem fine_none {len : ℕ} (hnp : np ≠ []) (h : lookup x np = none) (hf : fine x len np = true) :
    0 < (component np).length ∧ (component np).length < Labellen ∧ len + (component np).length < Domlen - 1 ∧
      (np = component np ∨ components np ≠ []) ∧ fine x (len + (component np).length + 1) (components np) = true := by
  rw [fine, dif_neg hnp, h] at hf
  simpa [and_assoc] using hf

variable {b : Pack} {last : Option (List UInt8)} {n : ℕ}

/-- What `enter` does to the message and the dictionary. -/
theorem enter_spec (b : Pack) (np : List UInt8) (last : Option (List UInt8)) (n : ℕ)
    (hlast : b.dict.x.length < Ndict → ∀ l, last = some l → components l = np) :
    ∃ b' last', enter b np last n = (b', last') ∧ b'.p = b.p ∧ b'.mem = b.mem ∧ b'.log = b.log ∧
      (b'.dict.x = b.dict.x ∨ b'.dict.x = b.dict.x ++ [⟨b.p % 2 ^ 16, np, b.p, n, false⟩]) ∧
      (b'.dict.x.length < Ndict → ∀ l, last' = some l → components l = components np) := by
  rw [enter.eq_def]
  split
  · next hroom =>
    cases last with
    | some l =>
      refine ⟨_, _, rfl, rfl, rfl, rfl, .inr ?_, fun _ l' hl' => ?_⟩
      · rw [hlast hroom l rfl]
      · rw [← Option.some_inj.mp hl', hlast hroom l rfl]
    | none =>
      dsimp only
      split
      · exact ⟨_, _, rfl, rfl, rfl, rfl, .inr rfl, fun _ l' hl' => by rw [← Option.some_inj.mp hl']⟩
      · exact ⟨_, _, rfl, rfl, rfl, rfl, .inl rfl, fun _ l' hl' => by cases hl'⟩
  · next hfull => exact ⟨_, _, rfl, rfl, rfl, rfl, .inl rfl, fun h => absurd h hfull⟩

end Dictionary

section Loop

variable {ep n : ℕ} {last : Option (List UInt8)} {np : List UInt8} {b b' : Pack} {e : Entry} {A : ℕ → Prop}

theorem pnameloop_nil : pnameloop ep n last [] b = if b.p ≥ ep then { b with p := ep + 1 } else puts ep [0] b := by
  rw [pnameloop, dif_pos rfl]

theorem pnameloop_some (hnp : np ≠ []) (h : lookup b.dict.x np = some e) :
    pnameloop ep n last np b = puts ep [UInt8.ofNat (e.offset / 2 ^ 8 ||| 0xc0), UInt8.ofNat e.offset] b := by
  rw [pnameloop, dif_neg hnp, h]

theorem pnameloop_none {last' : Option (List UInt8)} (hnp : np ≠ []) (h : lookup b.dict.x np = none)
    (henter : enter b np last n = (b', last')) :
    pnameloop ep n last np b =
      if ep < b'.p + ((component np).length + 1) ∨ Labellen < (component np).length then { b' with p := ep + 1 }
      else pnameloop ep n last' (components np) (puts ep (UInt8.ofNat (component np).length :: component np) b') := by
  rw [pnameloop, dif_neg hnp, h]
  dsimp only
  rw [henter]
  dsimp only
  split
  · next hfull => rw [if_pos (.inl hfull)]
  · next hfull =>
    split
    · next hlong => rw [if_pos (.inr hlong)]
    · next hlong => rw [if_neg (by rintro (h | h) <;> contradiction)]

theorem enter_extends (hp : b'.p = b.p) (hmem : b'.mem = b.mem) (hlog : b'.log = b.log)
    (hx : b'.dict.x = b.dict.x ∨ b'.dict.x = b.dict.x ++ [e]) : Extends ep b b' where
  le := hp.ge
  mem i _ := by rw [hmem]
  dict := by
    rcases hx with hx | hx
    · exact hx ▸ List.prefix_rfl
    · exact hx ▸ List.prefix_append _ _
  log := hlog ▸ List.suffix_rfl

theorem puts_dict {l : List UInt8} : (puts ep l b).dict = b.dict ∧ (puts ep l b).log = b.log := by
  rw [puts]
  split <;> exact ⟨rfl, rfl⟩

/-- A name is packed behind what is there. -/
theorem pnameloop_extends (hp : b.p ≤ ep + 1) (hlast : b.dict.x.length < Ndict → ∀ l, last = some l → components l = np) :
    Extends ep b (pnameloop ep n last np b) ∧ (pnameloop ep n last np b).p ≤ ep + 1 ∧
      (pnameloop ep n last np b).log = b.log := by
  obtain ⟨k, hk⟩ : ∃ k, np.length = k := ⟨_, rfl⟩
  induction k using Nat.strong_induction_on generalizing np b last with
  | _ k ih =>
    by_cases hnp : np = []
    · rw [hnp, pnameloop_nil]
      split
      · exact ⟨⟨hp, fun _ _ => rfl, List.prefix_rfl, List.suffix_rfl⟩, le_rfl, rfl⟩
      · exact ⟨puts_extends hp, puts_top, puts_dict.2⟩
    cases hlook : lookup b.dict.x np with
    | some e =>
      rw [pnameloop_some hnp hlook]
      exact ⟨puts_extends hp, puts_top, puts_dict.2⟩
    | none =>
      obtain ⟨b', last', henter, hp', hmem, hlog, hx, hlast'⟩ := enter_spec b np last n hlast
      have hext : Extends ep b b' := enter_extends hp' hmem hlog hx
      rw [pnameloop_none hnp hlook henter]
      split
      · exact ⟨⟨hp, hext.mem, hext.dict, hext.log⟩, le_rfl, hlog⟩
      · have hlast2 : (puts ep (UInt8.ofNat (component np).length :: component np) b').dict.x.length < Ndict →
            ∀ l, last' = some l → components l = components np := by rwa [puts_dict.1]
        obtain ⟨hext', htop, hlog'⟩ := ih _ (hk ▸ components_lt hnp) puts_top hlast2 rfl
        exact ⟨(hext.trans (puts_extends (by omega))).trans hext', htop, hlog'.trans (puts_dict.2.trans hlog)⟩

/-- The entry can be pointed to. -/
def Readable (mem : ℕ → UInt8) (A : ℕ → Prop) (e : Entry) : Prop :=
  Reads mem A e.place e.name e.hops ∧ e.offset = e.place % 2 ^ 16

theorem Readable.mono {mem mem' : ℕ → UInt8} {A' : ℕ → Prop} (hA : ∀ i, A i → A' i ∧ mem' i = mem i)
    (h : Readable mem A e) : Readable mem' A' e := ⟨h.1.mono hA, h.2⟩

theorem tag_toNat : ∀ k < 2 ^ 6, (UInt8.ofNat (k ||| 0xc0)).toNat = 3 * 2 ^ 6 + k := by decide

/-- The two bytes of a pointer. -/
theorem pointerAt_puts (hplace : e.place < 2 ^ 14) (he : Readable b.mem A e) :
    PointerAt (store b.mem b.p [UInt8.ofNat (e.offset / 2 ^ 8 ||| 0xc0), UInt8.ofNat e.offset]) (grow A b.p (b.p + 2)) b.p
      e.place := by
  have hoff : e.offset = e.place := by
    rw [he.2, Nat.mod_eq_of_lt]
    omega
  have h0 := store_at b.mem b.p (l := [UInt8.ofNat (e.offset / 2 ^ 8 ||| 0xc0), UInt8.ofNat e.offset])
    (i := 0) (Nat.succ_pos _)
  have h1 := store_at b.mem b.p (l := [UInt8.ofNat (e.offset / 2 ^ 8 ||| 0xc0), UInt8.ofNat e.offset])
    (i := 1) (Nat.succ_lt_succ (Nat.succ_pos _))
  rw [add_zero] at h0
  have htag := tag_toNat (e.offset / 2 ^ 8) (by omega)
  refine ⟨⟨.inr (by omega), .inr (by omega)⟩, .inl ?_, ?_, ?_⟩
  · exact he.1.at_ (m := ⟨b.mem, 0⟩)
  · rw [h0, List.getElem_cons_zero, htag]
    omega
  · rw [h0, h1, List.getElem_cons_zero, htag, List.getElem_cons_succ, List.getElem_cons_zero, UInt8.toNat_ofNat', hoff]
    omega

theorem labelAt_puts (mem : ℕ → UInt8) (p : ℕ) {l : List UInt8} (hpos : 0 < l.length) (hshort : l.length < Labellen)
    (hplain : 46 ∉ l) : LabelAt (store mem p (UInt8.ofNat l.length :: l)) (grow A p (p + 1 + l.length)) p l where
  pos := hpos
  short := hshort
  plain := hplain
  at_ := .inr (by omega)
  count := by
    have h0 := store_at mem p (l := UInt8.ofNat l.length :: l) (i := 0) (Nat.succ_pos _)
    rwa [add_zero] at h0
  bytes i hi := by
    have h := store_at mem p (l := UInt8.ofNat l.length :: l) (i := i + 1) (Nat.succ_lt_succ hi)
    refine ⟨.inr (by omega), ?_⟩
    rw [show p + 1 + i = p + (i + 1) by omega, h, List.getElem_cons_succ]

theorem component_plain : 46 ∉ component np := by
  intro h
  have := List.mem_takeWhile_imp h
  exact absurd rfl (of_decide_eq_true this)

/-- A name that can be read back stands where it is packed, and so do the names it adds to the dictionary. -/
theorem pnameloop_field {x own : List Entry} {len : ℕ} (hp : b.p ≤ ep + 1) (hx : b.dict.x = x ++ own)
    (hown : ∀ e ∈ own, np.length < e.name.length)
    (hlast : b.dict.x.length < Ndict → ∀ l, last = some l → components l = np) (hA : ∀ i, A i → i < b.p)
    (hread : ∀ e ∈ x, e.dropped = false → Readable b.mem A e) (hn : n = hops x np) (hfine : fine x len np = true)
    (hb' : pnameloop ep n last np b = b') (hfits : b'.p ≤ ep) :
    FieldAt b'.mem (grow A b.p b'.p) len b.p np n b'.p ∧
      ∀ e ∈ b'.dict.x, e ∈ b.dict.x ∨ Readable b'.mem (grow A b.p b'.p) e := by
  obtain ⟨k, hk⟩ : ∃ k, np.length = k := ⟨_, rfl⟩
  induction k using Nat.strong_induction_on generalizing np b last len own A with
  | _ k ih =>
    by_cases hnp : np = []
    · subst hnp
      rw [pnameloop_nil] at hb'
      split at hb'
      · rw [← hb'] at hfits
        exact absurd hfits (by dsimp only; omega)
      · next hroom =>
        rw [puts_fits (by rw [List.length_singleton]; omega)] at hb'
        subst hb'
        rw [hn, hops, dif_pos rfl]
        refine ⟨.root (.inr ⟨le_rfl, Nat.lt_succ_self _⟩) ?_, fun e he => .inl he⟩
        exact store_at b.mem b.p (l := [0]) (i := 0) (by decide)
    have hlook' : lookup b.dict.x np = lookup x np := by rw [hx, lookup_append hown]
    cases hlook : lookup x np with
    | some e =>
      rw [hlook] at hlook'
      rw [pnameloop_some hnp hlook'] at hb'
      obtain ⟨hmem, hname⟩ := lookup_some hlook
      obtain ⟨hplace, hdropped, hhops, hlen⟩ := fine_some hnp hlook hfine
      have he := hread e hmem hdropped
      by_cases hroom : b.p + 2 ≤ ep
      · rw [puts_fits hroom] at hb'
        subst hb'
        rw [hn, hops_some hnp hlook]
        have hptr := pointerAt_puts hplace he
        have hkeep : ∀ i, A i → grow A b.p (b.p + 2) i ∧ store b.mem b.p
            [UInt8.ofNat (e.offset / 2 ^ 8 ||| 0xc0), UInt8.ofNat e.offset] i = b.mem i :=
          fun i hi => ⟨.inl hi, store_below (hA i hi)⟩
        exact ⟨.pointer hptr hnp hlen hhops (hname ▸ he.1.mono hkeep), fun e he => .inl he⟩
      · rw [puts_full (not_le.mp hroom)] at hb'
        rw [← hb'] at hfits
        exact absurd hfits (by dsimp only; omega)
    | none =>
      rw [hlook] at hlook'
      obtain ⟨hpos, hshort, hlen, hjoin, hfine'⟩ := fine_none hnp hlook hfine
      obtain ⟨b1, last1, henter, hp1, hmem1, hlog1, hx1, hlast1⟩ := enter_spec b np last n hlast
      rw [pnameloop_none hnp hlook' henter] at hb'
      split at hb'
      · rw [← hb'] at hfits
        exact absurd hfits (by dsimp only; omega)
      · next hroom =>
        obtain ⟨hroom, -⟩ := not_or.mp hroom
        have hput : puts ep (UInt8.ofNat (component np).length :: component np) b1 =
            { b1 with p := b.p + 1 + (component np).length,
                      mem := store b.mem b.p (UInt8.ofNat (component np).length :: component np) } := by
          rw [puts_fits (by rw [List.length_cons]; omega), hp1, hmem1, List.length_cons, add_assoc, add_comm 1]
        generalize hb2 : puts ep (UInt8.ofNat (component np).length :: component np) b1 = b2 at hb' hput
        have hp2 : b2.p = b.p + 1 + (component np).length := by rw [hput]
        have hmem2 : b2.mem = store b.mem b.p (UInt8.ofNat (component np).length :: component np) := by rw [hput]
        have hx2 : b2.dict.x = b1.dict.x := by rw [hput]
        have hlabel := labelAt_puts (A := A) b.mem b.p hpos hshort component_plain
        have hkeep : ∀ i, A i → grow A b.p b2.p i ∧ b2.mem i = b.mem i := fun i hi =>
          ⟨.inl hi, by rw [hmem2, store_below (hA i hi)]⟩
        have hlast2 : b2.dict.x.length < Ndict → ∀ l, last1 = some l → components l = components np := by rwa [hx2]
        have hlt := components_lt hnp
        have hp2' : b2.p ≤ ep + 1 := by omega
        obtain ⟨hext, -, -⟩ : Extends ep b2 (pnameloop ep n last1 (components np) b2) ∧ _ ∧ _ :=
          pnameloop_extends hp2' hlast2
        rw [hb'] at hext
        obtain ⟨own', hx', hown'⟩ : ∃ own', b2.dict.x = x ++ own' ∧ ∀ e ∈ own', (components np).length < e.name.length := by
          rcases hx1 with hx1 | hx1
          · exact ⟨own, by rw [hx2, hx1, hx], fun e he => hlt.trans (hown e he)⟩
          · refine ⟨own ++ [⟨b.p % 2 ^ 16, np, b.p, n, false⟩], by rw [hx2, hx1, hx, List.append_assoc], fun e he => ?_⟩
            rcases List.mem_append.mp he with he | he
            · exact hlt.trans (hown e he)
            · rw [List.mem_singleton.mp he]
              exact hlt
        obtain ⟨hfield, hentries⟩ := ih _ (hk ▸ hlt) (b := b2) (by omega) hx' hown' hlast2
          (fun i hi => grow_lt hA (by omega) hi)
          (fun e he hd => (hread e he hd).mono hkeep) (by rw [hn, hops_none hnp hlook]) hfine' hb' rfl
        have hgrow : ∀ i, grow (grow A b.p b2.p) b2.p b'.p i → grow A b.p b'.p i ∧ b'.mem i = b'.mem i :=
          fun i hi => ⟨grow_grow (by omega) hext.le hi, rfl⟩
        have hlabel' : LabelAt b'.mem (grow A b.p b'.p) b.p (component np) := by
          refine hlabel.mono fun i hi => ⟨?_, ?_⟩
          · rcases hi with hi | hi
            · exact .inl hi
            · exact .inr ⟨hi.1, by have := hext.le; omega⟩
          · rw [← hmem2]
            have hi2 := grow_lt hA (by omega) hi
            exact hext.mem i (.inl (by omega))
        have hfull : FieldAt b'.mem (grow A b.p b'.p) len b.p np n b'.p := by
          rw [← join_components hjoin]
          rw [hp2] at hfield hgrow
          exact .label hlabel' hlen (hfield.mono hgrow)
        refine ⟨hfull, fun e he => ?_⟩
        rcases hentries e he with he | he
        · rw [hx2] at he
          rcases hx1 with hx1 | hx1
          · exact .inl (hx1 ▸ he)
          · rw [hx1] at he
            rcases List.mem_append.mp he with he | he
            · exact .inl he
            · rw [List.mem_singleton.mp he]
              exact .inr ⟨hfull.reads, rfl⟩
        · exact .inr (he.mono hgrow)

end Loop

/-- Every entry whose record stands in the message can be pointed to, and every name field can be read back. -/
structure Sound (A : ℕ → Prop) (b : Pack) : Prop where
  entries : ∀ e ∈ b.dict.x, e.dropped = false → Readable b.mem A e
  fields : ∀ f ∈ b.log, f.name.length < Domlen ∧ ∃ hops, FieldAt b.mem A 0 f.place f.name hops f.stop

theorem Sound.mono {A A' : ℕ → Prop} {b b' : Pack} (h : Sound A b) (hA : ∀ i, A i → A' i ∧ b'.mem i = b.mem i)
    (hx : b'.dict.x = b.dict.x) (hlog : b'.log = b.log) : Sound A' b' where
  entries e he hd := (h.entries e (hx ▸ he) hd).mono hA
  fields f hf := by
    obtain ⟨hlen, hops, hfield⟩ := h.fields f (hlog ▸ hf)
    exact ⟨hlen, hops, hfield.mono hA⟩

/-- Something is packed: the message before it stays, and is sound where every name in it can be read back. -/
structure Packs (ep : ℕ) (f : Pack → Pack) : Prop where
  frame : ∀ {b : Pack}, b.p ≤ ep + 1 → Extends ep b (f b)
  sound : ∀ {b : Pack} {A : ℕ → Prop}, b.p ≤ ep + 1 → (∀ i, A i → i < b.p) → Sound A b → (f b).p ≤ ep →
    (∀ g ∈ (f b).log, g.fine = true) → Sound (grow A b.p (f b).p) (f b)

/-- It is packed in front of `ep`, or not at all. -/
structure Puts (ep : ℕ) (f : Pack → Pack) : Prop extends Packs ep f where
  top : ∀ {b : Pack}, b.p ≤ ep + 1 → (f b).p ≤ ep + 1

section Puts

variable {ep : ℕ} {f g : Pack → Pack} {l np : List UInt8}

theorem Puts.id (ep : ℕ) : Puts ep id where
  frame {b} _ := .refl ep b
  sound _ _ hs _ _ := hs.mono (fun _ hi => ⟨.inl hi, rfl⟩) rfl rfl
  top h := h

theorem Puts.comp (hg : Puts ep g) (hf : Puts ep f) : Puts ep fun b => g (f b) where
  frame hp := (hf.frame hp).trans (hg.frame (hf.top hp))
  sound {b A} hp hA hs hfits hfine := by
    have hext := hf.frame hp
    have hext' := hg.frame (hf.top hp)
    have hsf : Sound (grow A b.p (f b).p) (f b) := by
      refine hf.sound hp hA hs (hext'.le.trans hfits) fun x hx => hfine x ?_
      exact hext'.log.subset hx
    have hsg := hg.sound (hf.top hp) (fun i hi => grow_lt hA hext.le hi) hsf hfits hfine
    exact hsg.mono (fun i hi => ⟨grow_grow hext.le hext'.le hi, rfl⟩) rfl rfl
  top hp := hg.top (hf.top hp)

theorem puts_puts : Puts ep (puts ep l) where
  frame hp := puts_extends hp
  sound {b A} hp hA hs hfits _ := by
    have hext : Extends ep b (puts ep l b) := puts_extends hp
    have hlog : (puts ep l b).dict.x = b.dict.x ∧ (puts ep l b).log = b.log := by
      rw [puts]
      split <;> exact ⟨rfl, rfl⟩
    exact hs.mono (fun i hi => ⟨.inl hi, hext.mem i (.inl (hA i hi))⟩) hlog.1 hlog.2
  top _ := puts_top

theorem pname_puts : Puts ep (pname ep np) := by
  have hloop : ∀ {b : Pack}, b.p ≤ ep + 1 →
      Extends ep b (pnameloop ep (hops b.dict.x np) none np b) ∧ (pnameloop ep (hops b.dict.x np) none np b).p ≤ ep + 1 ∧
        (pnameloop ep (hops b.dict.x np) none np b).log = b.log :=
    fun hp => pnameloop_extends hp fun _ l hl => by cases hl
  refine ⟨⟨fun {b} hp => ?_, fun {b A} hp hA hs hfits hfine => ?_⟩, fun {b} hp => ?_⟩
  · rw [pname]
    split
    · exact ⟨hp, fun _ _ => rfl, List.prefix_rfl, List.suffix_rfl⟩
    · obtain ⟨hext, -⟩ := hloop hp
      exact ⟨hext.le, hext.mem, hext.dict, hext.log.trans (List.suffix_cons _ _)⟩
  · rw [pname] at hfits hfine ⊢
    split at hfits
    · exact absurd hfits (by dsimp only; omega)
    · next hlen =>
      rw [if_neg hlen] at hfine ⊢
      dsimp only at hfits hfine ⊢
      obtain ⟨hext, -, hlog⟩ := hloop hp
      have hself := hfine _ List.mem_cons_self
      obtain ⟨hfield, hentries⟩ := pnameloop_field hp (List.append_nil b.dict.x).symm (fun e he => by cases he)
        (fun _ l hl => by cases hl) hA hs.entries rfl hself rfl hfits
      generalize pnameloop ep (hops b.dict.x np) none np b = b' at hext hlog hfield hentries
      have hkeep : ∀ i, A i → grow A b.p b'.p i ∧ b'.mem i = b.mem i :=
        fun i hi => ⟨.inl hi, hext.mem i (.inl (hA i hi))⟩
      refine ⟨fun e he hd => ?_, fun f hf => ?_⟩
      · rcases hentries e he with he | he
        · exact (hs.entries e he hd).mono hkeep
        · exact he
      · rcases List.mem_cons.mp hf with rfl | hf
        · exact ⟨not_le.mp hlen, _, hfield⟩
        · obtain ⟨hlen', hops', hfield'⟩ := hs.fields f (hlog ▸ hf)
          exact ⟨hlen', hops', hfield'.mono hkeep⟩
  · rw [pname]
    split
    · exact le_rfl
    · exact (hloop hp).2.1

theorem psym_puts : Puts ep (psym ep np) := puts_puts

theorem ptarget_puts : Puts ep (ptarget ep np) := by
  have hstr : Puts ep (pstr ep np) := psym_puts
  refine ⟨⟨fun {b} hp => ?_, fun {b A} hp hA hs hfits hfine => ?_⟩, fun {b} hp => hstr.top hp⟩
  · have hext := hstr.frame hp
    exact ⟨hext.le, hext.mem, hext.dict, hext.log.trans (List.suffix_cons _ _)⟩
  · have hnp : np = [] := by simpa using hfine _ List.mem_cons_self
    have hs' := hstr.sound hp hA hs hfits fun g hg => hfine g (List.mem_cons_of_mem _ hg)
    refine ⟨hs'.entries, fun f hf => ?_⟩
    rcases List.mem_cons.mp hf with rfl | hf
    · subst hnp
      have hput : pstr ep [] b = puts ep [0] b := rfl
      change (pstr ep [] b).p ≤ ep at hfits
      rw [hput] at hfits
      by_cases hroom : b.p + 1 ≤ ep
      · refine ⟨show 0 < Domlen by decide, 0, ?_⟩
        have hp' : (ptarget ep [] b).p = b.p + 1 := by
          change (pstr ep [] b).p = _
          rw [hput, puts_fits hroom]
          rfl
        have hmem' : (ptarget ep [] b).mem = store b.mem b.p [0] := by
          change (pstr ep [] b).mem = _
          rw [hput, puts_fits hroom]
        have hstop : (pstr ep [] b).p = b.p + 1 := hp'
        rw [hp', hmem']
        dsimp only
        rw [hstop]
        exact .root (.inr ⟨le_rfl, Nat.lt_succ_self _⟩) (store_at b.mem b.p (l := [0]) (i := 0) (Nat.succ_pos _))
      · rw [puts_full (not_le.mp hroom)] at hfits
        exact absurd hfits (by dsimp only; omega)
    · exact hs'.fields f hf

theorem strings_puts {l : List (List UInt8)} : Puts ep fun b => l.foldl (fun b t => pstr ep t b) b := by
  induction l with
  | nil => exact .id ep
  | cons t l ih => exact ih.comp psym_puts

theorem putval_puts (k : Put) (v : Val) : Puts ep (putval ep k v) := by
  rw [putval.eq_def]
  split
  · exact psym_puts
  · exact ptarget_puts
  · exact pname_puts
  · exact strings_puts
  all_goals first | exact puts_puts | exact .id ep

theorem putvals_puts (ks : List Put) (vs : List Val) : Puts ep (putvals ep ks vs) := by
  induction ks generalizing vs with
  | nil => exact .id ep
  | cons k ks ih =>
    cases vs with
    | nil => exact .id ep
    | cons v vs => exact (ih vs).comp (putval_puts k v)

theorem convQ2M_packs (rp : Question) : Packs ep (convQ2M ep rp) :=
  (puts_puts.comp (puts_puts.comp pname_puts)).toPacks

/-- The length of the data is put in front of them when they are packed. -/
theorem convRR2M_packs {now : ℕ} (rp : Record) : Packs ep (convRR2M now ep rp) := by
  have hhead : Puts ep fun b =>
      pulong ep (ttl now rp) (pushort ep rp.owner.class_ (pushort ep rp.type (pname ep rp.owner.name b))) :=
    puts_puts.comp (puts_puts.comp (puts_puts.comp pname_puts))
  have hdata : Puts ep (putvals ep (putters rp.type) rp.vals) := putvals_puts _ _
  refine ⟨fun {b} hp => ?_, fun {b A} hp hA hs hfits hfine => ?_⟩
  · rw [convRR2M]
    have hext := hhead.frame hp
    have htop := hhead.top hp
    generalize pulong ep (ttl now rp) _ = b1 at hext htop
    dsimp only
    split
    · exact ⟨by have := hext.le; dsimp only; omega, hext.mem, hext.dict, hext.log⟩
    · next hroom =>
      have hext' := hdata.frame (b := { b1 with p := b1.p + 2 }) (by dsimp only; omega)
      generalize putvals ep (putters rp.type) rp.vals { b1 with p := b1.p + 2 } = b2 at hext'
      have hle := hext.le
      have hle' := hext'.le
      dsimp only at hle'
      refine ⟨by dsimp only; omega, fun i hi => ?_, hext.dict.trans hext'.dict, hext.log.trans hext'.log⟩
      dsimp only
      have hi' : i < b1.p ∨ b1.p + 2 ≤ i := by omega
      have hstore : store b2.mem b1.p [UInt8.ofNat ((b2.p - (b1.p + 2)) / 2 ^ 8), UInt8.ofNat (b2.p - (b1.p + 2))] i =
          b2.mem i := by
        rcases hi' with hi' | hi'
        · exact store_below hi'
        · exact store_above hi'
      rw [hstore, hext'.mem i (by dsimp only; omega), hext.mem i hi]
  · rw [convRR2M] at hfits hfine ⊢
    have hext := hhead.frame hp
    have htop := hhead.top hp
    have hsound := hhead.sound hp hA hs
    generalize pulong ep (ttl now rp) _ = b1 at hext htop hsound hfits hfine ⊢
    dsimp only at hfits hfine hsound ⊢
    split at hfits
    · exact absurd hfits (by dsimp only; omega)
    · next hroom =>
      rw [if_neg hroom] at hfine ⊢
      have hp2 : b1.p + 2 ≤ ep + 1 := by omega
      have hext' := hdata.frame (b := { b1 with p := b1.p + 2 }) hp2
      have hsound' := fun hA => hdata.sound (b := { b1 with p := b1.p + 2 }) (A := grow A b.p b1.p) hp2 hA
      generalize putvals ep (putters rp.type) rp.vals { b1 with p := b1.p + 2 } = b2 at hext' hsound' hfits hfine ⊢
      have hle' := hext'.le
      dsimp only at hle' hfits hfine hsound' ⊢
      have hs1 : Sound (grow A b.p b1.p) b1 := hsound (by omega) fun g hg => hfine g (hext'.log.subset hg)
      have hA1 : ∀ i, grow A b.p b1.p i → i < b1.p := fun i hi => grow_lt hA hext.le hi
      have hs2 := hsound' (fun i hi => (hA1 i hi).trans_le (Nat.le_add_right _ 2))
        (hs1.mono (fun i hi => ⟨hi, rfl⟩) rfl rfl) hfits hfine
      refine hs2.mono (fun i hi => ?_) rfl rfl
      rcases hi with hi | hi
      · refine ⟨?_, store_below (hA1 i hi)⟩
        rcases hi with hi | hi
        · exact .inl hi
        · exact .inr ⟨hi.1, by omega⟩
      · have hle := hext.le
        exact ⟨.inr ⟨by omega, hi.2⟩, store_above hi.1⟩

theorem drop_dict {b b' : Pack} (hext : Extends ep b b') :
    ∃ own, (b.drop b').dict.x = b.dict.x ++ own ∧ ∀ e ∈ own, e.dropped = true := by
  obtain ⟨own, hown⟩ := hext.dict
  refine ⟨own.map fun e => { e with dropped := true }, ?_, fun e he => ?_⟩
  · rw [Pack.drop, ← hown, List.take_left, List.drop_left]
  · obtain ⟨e', -, rfl⟩ := List.mem_map.mp he
    rfl

/-- Where a record is left out the message is as sound as before. -/
theorem drop_sound {b b' : Pack} {A : ℕ → Prop} (hA : ∀ i, A i → i < b.p) (hext : Extends ep b b') (h : Sound A b) :
    Sound A (b.drop b') := by
  have hmem : ∀ i, A i → A i ∧ (b.drop b').mem i = b.mem i := fun i hi => ⟨hi, hext.mem i (.inl (hA i hi))⟩
  obtain ⟨own, hx, hown⟩ := drop_dict hext
  refine ⟨fun e he hd => ?_, fun f hf => ?_⟩
  · rw [hx] at he
    rcases List.mem_append.mp he with he | he
    · exact (h.entries e he hd).mono hmem
    · rw [hown e he] at hd
      cases hd
  · obtain ⟨hlen, hops, hfield⟩ := h.fields f hf
    exact ⟨hlen, hops, hfield.mono hmem⟩

end Puts

/-- The bytes of the message from the header up to `p`. -/
def body (p : ℕ) : ℕ → Prop := fun i => 12 ≤ i ∧ i < p

theorem grow_body {p q i : ℕ} (hp : 12 ≤ p) (hpq : p ≤ q) (h : grow (body p) p q i) : body q i := by
  rcases h with h | h
  · exact ⟨h.1, h.2.trans_le hpq⟩
  · exact ⟨hp.trans h.1, h.2⟩

section Loops

variable {ep : ℕ} {α : Type} {conv : α → Pack → Pack} {b : Pack} {l : List α}

/-- Nothing is written in front of where a section begins, nor behind the end. -/
theorem packloop_frame (hconv : ∀ a, Packs ep (conv a)) :
    b.p ≤ (packloop ep conv l b).2.p ∧ b.log <:+ (packloop ep conv l b).2.log ∧
      ((packloop ep conv l b).2.p ≤ ep ∨ (packloop ep conv l b).2.p = b.p) ∧
      ∀ i, i < b.p ∨ ep ≤ i → (packloop ep conv l b).2.mem i = b.mem i := by
  induction l generalizing b with
  | nil => exact ⟨le_rfl, List.suffix_rfl, .inr rfl, fun _ _ => rfl⟩
  | cons a l ih =>
    rw [packloop]
    split
    · next hp =>
      have hext := (hconv a).frame (b := b) (by omega)
      dsimp only
      split
      · exact ⟨le_rfl, List.suffix_rfl, .inr rfl, hext.mem⟩
      · next hfits =>
        obtain ⟨hle, hlog, htop, hmem⟩ := ih (b := conv a b)
        have hle' := hext.le
        refine ⟨hle'.trans hle, hext.log.trans hlog, .inl (by dsimp only; omega), fun i hi => ?_⟩
        rw [hmem i (by omega), hext.mem i hi]
    · exact ⟨le_rfl, List.suffix_rfl, .inr rfl, fun _ _ => rfl⟩

/-- A section is sound where every name in it can be read back. -/
theorem packloop_sound (hconv : ∀ a, Packs ep (conv a)) (hb : 12 ≤ b.p) (hs : Sound (body b.p) b)
    (hfine : ∀ g ∈ (packloop ep conv l b).2.log, g.fine = true) :
    Sound (body (packloop ep conv l b).2.p) (packloop ep conv l b).2 := by
  induction l generalizing b with
  | nil => exact hs
  | cons a l ih =>
    rw [packloop] at hfine ⊢
    split at hfine
    · next hp =>
      rw [if_pos hp]
      have hp1 : b.p ≤ ep + 1 := by omega
      have hext := (hconv a).frame hp1
      dsimp only at hfine ⊢
      split at hfine
      · next hfull =>
        rw [if_pos hfull]
        exact drop_sound (fun _ hi => hi.2) hext hs
      · next hfits =>
        rw [if_neg hfits]
        obtain ⟨-, hlog, -, -⟩ := packloop_frame hconv (b := conv a b) (l := l)
        have hs' := (hconv a).sound hp1 (fun i hi => hi.2) hs (not_lt.mp hfits) fun g hg => hfine g (hlog.subset hg)
        exact ih (hb.trans hext.le) (hs'.mono (fun i hi => ⟨grow_body hb hext.le hi, rfl⟩) rfl rfl) hfine
    · next hp =>
      rw [if_neg hp]
      exact hs

end Loops

end Petele.Dns
