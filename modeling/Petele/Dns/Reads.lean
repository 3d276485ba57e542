import Petele.Dns.Pack
import Petele.Dns.Names
import Mathlib.Data.List.TakeWhile

namespace Petele.Dns

/-- A component and what follows it. -/
def join (l np : List UInt8) : List UInt8 := if np = [] then l else l ++ 46 :: np

/-- At `q` stands a component. -/
structure LabelAt (mem : ℕ → UInt8) (A : ℕ → Prop) (q : ℕ) (l : List UInt8) : Prop where
  pos : 0 < l.length
  short : l.length < Labellen
  plain : 46 ∉ l
  at_ : A q
  count : mem q = UInt8.ofNat l.length
  bytes : ∀ i (h : i < l.length), A (q + 1 + i) ∧ mem (q + 1 + i) = l[i]

/-- At `q` stands a pointer to `off`. -/
structure PointerAt (mem : ℕ → UInt8) (A : ℕ → Prop) (q off : ℕ) : Prop where
  at_ : A q ∧ A (q + 1)
  target : A off
  tag : (mem q).toNat / 2 ^ 6 = 3
  off : (mem q).toNat % 2 ^ 6 * 2 ^ 8 + (mem (q + 1)).toNat = off

/-- The name at `q` is read in the bytes of `A`, through so many pointers. -/
inductive Reads (mem : ℕ → UInt8) (A : ℕ → Prop) : ℕ → List UInt8 → ℕ → Prop
  | root {q} : A q → mem q = 0 → Reads mem A q [] 0
  | label {q l np hops} : LabelAt mem A q l → Reads mem A (q + 1 + l.length) np hops → Reads mem A q (join l np) hops
  | pointer {q off np hops} : PointerAt mem A q off → np ≠ [] → Reads mem A off np hops → Reads mem A q np (hops + 1)

/-- The field of a name, of which `len` bytes stand before `q`, up to `stop`: components that are copied, and what is
read through a pointer behind them. -/
inductive FieldAt (mem : ℕ → UInt8) (A : ℕ → Prop) : ℕ → ℕ → List UInt8 → ℕ → ℕ → Prop
  | root {len q} : A q → mem q = 0 → FieldAt mem A len q [] 0 (q + 1)
  | label {len q l np hops stop} : LabelAt mem A q l → len + l.length < Domlen - 1 →
      FieldAt mem A (len + l.length + 1) (q + 1 + l.length) np hops stop → FieldAt mem A len q (join l np) hops stop
  | pointer {len q off np hops} : PointerAt mem A q off → np ≠ [] → len + widest np < Domlen - 1 → hops ≤ 10 →
      Reads mem A off np hops → FieldAt mem A len q np (hops + 1) (q + 2)

section Components

variable {l np : List UInt8}

theorem component_join (h : 46 ∉ l) : component (join l np) = l := by
  have hl : l.takeWhile (· ≠ 46) = l :=
    List.takeWhile_eq_self_iff.mpr fun b hb => decide_eq_true fun h46 => h (h46 ▸ hb)
  rw [component, join]
  split
  · exact hl
  · rw [List.takeWhile_append_of_pos (List.takeWhile_eq_self_iff.mp hl), List.takeWhile_cons_of_neg (by decide),
      List.append_nil]

theorem components_join (h : 46 ∉ l) : components (join l np) = np := by
  rw [components, component_join h, join]
  split
  · next hnp => rw [hnp, List.drop_of_length_le (Nat.le_succ _)]
  · rw [List.drop_append, List.drop_of_length_le (Nat.le_succ _)]
    simp

theorem join_ne_nil (h : 0 < l.length) : join l np ≠ [] := by
  rw [join]
  have hl := List.length_pos_iff.mp h
  split
  · exact hl
  · exact fun h' => hl (List.append_eq_nil_iff.mp h').1

theorem widest_join (hpos : 0 < l.length) (h : 46 ∉ l) : widest (join l np) = max l.length (widest np) := by
  rw [widest, dif_neg (join_ne_nil hpos), component_join h, components_join h]

/-- A name is its first component and the others, unless a dot ends it. -/
theorem join_components (h : np = component np ∨ components np ≠ []) : join (component np) (components np) = np := by
  have hsplit : component np ++ np.dropWhile (· ≠ 46) = np := List.takeWhile_append_dropWhile
  have hhead := List.head?_dropWhile_not (fun b : UInt8 => decide (b ≠ 46)) np
  generalize np.dropWhile (· ≠ 46) = d at hsplit hhead
  cases d with
  | nil =>
    rw [List.append_nil] at hsplit
    have : components np = [] := List.drop_of_length_le (by rw [hsplit]; omega)
    rw [join, if_pos this, hsplit]
  | cons c r =>
    have hc : c = 46 := by simpa using hhead
    have hr : components np = r := by
      rw [components]
      nth_rewrite 2 [← hsplit]
      rw [List.drop_append, List.drop_of_length_le (Nat.le_succ _)]
      simp
    rw [join, hr, if_neg, ← hc, hsplit]
    rintro rfl
    rcases h with h | h
    · rw [← h] at hsplit
      exact absurd hsplit (by simp)
    · exact h hr

end Components

section Mono

variable {mem mem' : ℕ → UInt8} {A A' : ℕ → Prop} {q off len hops stop : ℕ} {l np : List UInt8}

theorem LabelAt.mono (hA : ∀ i, A i → A' i ∧ mem' i = mem i) (h : LabelAt mem A q l) : LabelAt mem' A' q l where
  pos := h.pos
  short := h.short
  plain := h.plain
  at_ := (hA q h.at_).1
  count := (hA q h.at_).2.trans h.count
  bytes i hi := ⟨(hA _ (h.bytes i hi).1).1, (hA _ (h.bytes i hi).1).2.trans (h.bytes i hi).2⟩

theorem PointerAt.mono (hA : ∀ i, A i → A' i ∧ mem' i = mem i) (h : PointerAt mem A q off) : PointerAt mem' A' q off where
  at_ := ⟨(hA q h.at_.1).1, (hA _ h.at_.2).1⟩
  target := (hA off h.target).1
  tag := by rw [(hA q h.at_.1).2, h.tag]
  off := by rw [(hA q h.at_.1).2, (hA _ h.at_.2).2, h.off]

/-- What is read stays where these bytes do. -/
theorem Reads.mono (hA : ∀ i, A i → A' i ∧ mem' i = mem i) (h : Reads mem A q np hops) : Reads mem' A' q np hops := by
  induction h with
  | root hq h0 => exact .root (hA _ hq).1 ((hA _ hq).2.trans h0)
  | label hl _ ih => exact .label (hl.mono hA) ih
  | pointer hp hnp _ ih => exact .pointer (hp.mono hA) hnp ih

theorem FieldAt.mono (hA : ∀ i, A i → A' i ∧ mem' i = mem i) (h : FieldAt mem A len q np hops stop) :
    FieldAt mem' A' len q np hops stop := by
  induction h with
  | root hq h0 => exact .root (hA _ hq).1 ((hA _ hq).2.trans h0)
  | label hl hlen _ ih => exact .label (hl.mono hA) hlen ih
  | pointer hp hnp hlen hhops h => exact .pointer (hp.mono hA) hnp hlen hhops (h.mono hA)

theorem FieldAt.reads (h : FieldAt mem A len q np hops stop) : Reads mem A q np hops := by
  induction h with
  | root hq h0 => exact .root hq h0
  | label hl _ _ ih => exact .label hl ih
  | pointer hp hnp _ _ h => exact .pointer hp hnp h

end Mono

section Gname

variable {m : Msg} {A : ℕ → Prop} {dst : List UInt8} {q off len pointer hops stop : ℕ} {l np : List UInt8}

theorem LabelAt.toNat (h : LabelAt m.mem A q l) : (m.mem q).toNat = l.length := by
  have hs := h.short
  rw [h.count, UInt8.toNat_ofNat', Nat.mod_eq_of_lt]
  rw [Labellen] at hs
  omega

theorem LabelAt.slice (h : LabelAt m.mem A q l) : slice m (q + 1) l.length = l := by
  refine List.ext_getElem slice_length fun i h1 h2 => ?_
  simp only [Petele.Dns.slice, List.getElem_map, List.getElem_range]
  exact (h.bytes i h2).2

/-- What stands where a name is read is the name's end exactly where the name is empty. -/
theorem Reads.zero (h : Reads m.mem A q np hops) : m.mem q = 0 ↔ np = [] := by
  cases h with
  | root _ h0 => exact iff_of_true h0 rfl
  | label hl _ =>
    refine iff_of_false (fun h0 => ?_) (join_ne_nil hl.pos)
    have := hl.toNat
    rw [h0] at this
    exact hl.pos.ne this
  | pointer hp hnp _ =>
    refine iff_of_false (fun h0 => ?_) hnp
    have := hp.tag
    rw [h0] at this
    cases this

theorem Reads.at_ (h : Reads m.mem A q np hops) : A q := by
  cases h with
  | root hq _ => exact hq
  | label hl _ => exact hl.at_
  | pointer hp _ _ => exact hp.at_.1

/-- A component that is copied. -/
theorem gnameloop_labelAt (hA : ∀ i, A i → i < m.ep) (hl : LabelAt m.mem A q l) (hnp : Reads m.mem A (q + 1 + l.length) np hops)
    (hlen : len + l.length < Domlen - 1) (hdst : dst.length + (join l np).length < Domlen) :
    ∃ b, gnameloop m dst q len pointer =
      (gnameloop m (dst ++ l ++ if np = [] then [] else [46]) (q + 1 + l.length)
        (if pointer = 0 then len + l.length + 1 else len) pointer).after b := by
  have hc := hl.toNat
  have h0 : m.mem q ≠ 0 := fun h0 => by
    rw [h0] at hc
    exact hl.pos.ne hc
  have hs := hl.short
  rw [Labellen] at hs
  have hjoin : l.length ≤ (join l np).length := by
    rw [join]
    split
    · exact le_rfl
    · rw [List.length_append]
      omega
  have hw : written m dst q len = dst ++ l := by rw [written, hc, if_pos hlen, hl.slice]
  rw [gnameloop_label h0 (hA q hl.at_) (by rw [hc]; omega) (by rw [hc, Long]; omega), hc, hw, ← add_assoc]
  dsimp only
  by_cases hnil : np = []
  · rw [if_pos (hnp.zero.mpr hnil), if_pos hnil, List.append_nil]
    exact ⟨_, rfl⟩
  · have hroom : (join l np).length = l.length + 1 + np.length := by
      rw [join, if_neg hnil, List.length_append, List.length_cons]
      omega
    rw [if_neg (mt hnp.zero.mp hnil), if_neg (by rw [List.length_append]; omega), if_neg hnil]
    exact ⟨_, rfl⟩

theorem gnameloop_pointerAt (hA : ∀ i, A i → i < m.ep) (hp : PointerAt m.mem A q off) (hpointer : pointer ≤ 10) :
    ∃ b, gnameloop m dst q len pointer = (gnameloop m dst off len (pointer + 1)).after b := by
  have h0 : m.mem q ≠ 0 := fun h0 => by
    have := hp.tag
    rw [h0] at this
    cases this
  rw [gnameloop_pointer h0 (hA q hp.at_.1) hp.tag hpointer, hp.off]
  dsimp only
  rw [if_neg (not_le.mpr (hA off hp.target))]
  exact ⟨_, rfl⟩

theorem join_append (dst l np : List UInt8) : dst ++ l ++ (if np = [] then [] else [46]) ++ np = dst ++ join l np := by
  rw [join]
  split
  · next h => rw [h, List.append_nil, List.append_nil]
  · simp

theorem join_length (dst l np : List UInt8) :
    (dst ++ l ++ if np = [] then [] else [46]).length + np.length = dst.length + (join l np).length := by
  rw [← List.length_append, join_append, List.length_append]

/-- What is read behind a pointer. -/
theorem Reads.gnameloop (hA : ∀ i, A i → i < m.ep) (h : Reads m.mem A q np hops) (hpos : 0 < pointer)
    (hhops : pointer + hops ≤ 11) (hlen : len + widest np < Domlen - 1) (hdst : dst.length + np.length < Domlen) :
    ∃ b, gnameloop m dst q len pointer = ⟨dst ++ np, len, pointer + hops, none, b⟩ := by
  induction h generalizing dst pointer with
  | root hq h0 => exact ⟨_, by rw [gnameloop_end (.inl h0), List.append_nil, add_zero]⟩
  | @label q l np hops hl hnp ih =>
    rw [widest_join hl.pos hl.plain] at hlen
    have hlabel : len + l.length < Domlen - 1 := by omega
    have hrest : len + widest np < Domlen - 1 := by omega
    obtain ⟨b, hb⟩ := gnameloop_labelAt hA hl hnp hlabel hdst
    obtain ⟨b', hb'⟩ := ih hpos hhops hrest (by rwa [join_length])
    rw [hb, if_neg hpos.ne', hb', join_append]
    exact ⟨_, rfl⟩
  | @pointer q off np hops hp hnp h ih =>
    have hpointer : pointer ≤ 10 := by omega
    obtain ⟨b, hb⟩ := gnameloop_pointerAt hA hp hpointer
    obtain ⟨b', hb'⟩ := ih (Nat.succ_pos pointer) (by omega) hlen hdst
    rw [hb, hb', show pointer.succ + hops = pointer + (hops + 1) by omega]
    exact ⟨_, rfl⟩

/-- What is read of a field, and how far it leads. -/
theorem FieldAt.gnameloop (hA : ∀ i, A i → i < m.ep) (h : FieldAt m.mem A len q np hops stop)
    (hdst : dst.length + np.length < Domlen) :
    ∃ len' pointer b, gnameloop m dst q len 0 = ⟨dst ++ np, len', pointer, none, b⟩ ∧
      stop + len = q + len' + if pointer > 0 then 2 else 1 := by
  induction h generalizing dst with
  | @root len q hq h0 =>
    refine ⟨len, 0, _, by rw [gnameloop_end (.inl h0), List.append_nil], ?_⟩
    rw [if_neg (by omega)]
    omega
  | @label len q l np hops stop hl hlen h ih =>
    obtain ⟨b, hb⟩ := gnameloop_labelAt hA hl h.reads hlen hdst
    obtain ⟨len', pointer, b', hb', hstop⟩ := @ih (dst ++ l ++ if np = [] then [] else [46]) (by rwa [join_length])
    refine ⟨len', pointer, b && b', ?_, by omega⟩
    rw [hb, if_pos rfl, hb', join_append]
    rfl
  | @pointer len q off np hops hp hnp hlen hhops h =>
    obtain ⟨b, hb⟩ := gnameloop_pointerAt hA hp (Nat.zero_le 10)
    obtain ⟨b', hb'⟩ := h.gnameloop hA (Nat.succ_pos 0) (by omega) hlen hdst
    refine ⟨len, 0 + 1 + hops, b && b', ?_, ?_⟩
    · rw [hb, hb']
      rfl
    · rw [if_pos (by omega)]
      omega

/-- The field from `place` to `stop` is read back as `np`. -/
def ReadBack (m : Msg) (place stop : ℕ) (np : List UInt8) : Prop :=
  ∀ s : Scan, s.p = place → s.err = none → s.stop = false →
    ∃ s', gname m s = (np, s') ∧ s'.err = none ∧ s'.stop = false ∧ s'.p = stop

theorem FieldAt.readBack (hA : ∀ i, A i → i < m.ep) (h : FieldAt m.mem A 0 q np hops stop) (hnp : np.length < Domlen) :
    ReadBack m q stop np := by
  rintro s rfl herr hstop
  have hroom : ([] : List UInt8).length + np.length < Domlen := by simpa using hnp
  obtain ⟨len, pointer, b, hb, hs⟩ := h.gnameloop hA hroom
  rw [gname, if_neg (by rw [herr, hstop]; decide), hb]
  exact ⟨_, rfl, herr, hstop, hs.symm⟩

end Gname

end Petele.Dns
