import Petele.Qmalloc.Free

namespace Petele.Qmalloc

open Petele.Lib

variable {k : Kernel} {s s' : Arena} {B B' : Blocks} {p q n m nunits : ℕ}

/-- No operation is going on. -/
def Quiet (B : Blocks) : Prop := ∀ a j, B a ≠ some (.held, j)

/-- The running operation has got the block `p`, and no other. -/
structure Got (k : Kernel) (B : Blocks) (nunits p : ℕ) (s' : Arena) (B' : Blocks) : Prop where
  inv : Inv k s' B'
  block : B' p = some (.held, nunits)
  header : s'.mem p = ⟨k.checkval, nunits⟩
  held : ∀ a j, B' a = some (.held, j) → a = p
  live : ∀ a j, B' a = some (.live, j) ↔ B a = some (.live, j)

/-- Nothing has been got, and nothing has changed but that the tail may be longer. -/
structure Nil (s s' : Arena) : Prop where
  mem : s'.mem = s.mem
  quicklist : s'.quicklist = s.quicklist
  rover : s'.rover = s.rover
  tailptr : s'.tailptr = s.tailptr
  total : s'.tailsize + s'.availnunits = s.tailsize + s.availnunits
  grown : s.tailsize ≤ s'.tailsize

/-- What an allocation has come to, with an address or nil. -/
def Done (k : Kernel) (s : Arena) (B : Blocks) (nunits : ℕ) (s' : Arena) (v : ℕ) : Prop :=
  v = 0 ∧ Nil s s' ∨ ∃ p B', v = p + 1 ∧ Got k B nunits p s' B'

theorem Nil.refl (s : Arena) : Nil s s := ⟨rfl, rfl, rfl, rfl, rfl, Nat.le_refl _⟩

theorem Inv.nil (h : Inv k s B) (hn : Nil s s') : Inv k s' B := by
  have htotal := h.total
  have hsum := hn.total
  refine h.frame (by rw [hn.tailptr]; exact h.carved) (by rw [hn.tailptr]; exact h.base) (by rw [hn.tailptr]; omega) (fun t _ a j => ?_)
    (by rw [hn.mem]) hn.quicklist hn.rover
  exact ⟨Iff.rfl, fun _ => by rw [hn.mem]⟩

section Core

/-- What of a call of `morecore`: the units that its caller needs, those that it asks for, and the state. -/
abbrev Call := ℕ → ℕ → Arena → Prop

/-- There is something left, but with the tail it is not enough. -/
def Lacks : Call := fun need _ s => 0 < s.availnunits ∧ s.tailsize + s.availnunits < need

/-- More is asked for than is left. -/
def Exceeds : Call := fun _ asked s => s.availnunits < asked

/-- `hardalloc` makes a call of `morecore` of the kind `P`. -/
def Hardcalls (P : Call) (k : Kernel) (s : Arena) (nunits : ℕ) : Prop :=
  nunits > s.tailsize ∧ (misc k s fun p => nunits ≤ (s.mem p).size) = some none ∧ P nunits nunits s

def Qcalls (P : Call) (k : Kernel) (s : Arena) (nbytes : ℕ) : Prop :=
  nbytes ≠ 0 ∧ ¬ (NUNITS nbytes ≤ NQUICK ∧ s.quicklist (NUNITS nbytes) ≠ 0) ∧ Hardcalls P k s (NUNITS nbytes)

theorem morecore_none (h0 : s.availnunits = 0) (nunits : ℕ) : (morecore nunits s).2 = 0 := by
  simp only [morecore, h0]
  split_ifs <;> omega

/-- `morecore`, and the tail that its caller then has. -/
theorem morecore_spec {need : ℕ} (h : Inv k s B) (hneed : 0 < s.availnunits → need ≤ s.tailsize + nunits) (hlacks : ¬ Lacks need nunits s) :
    Nil s (growtail (morecore nunits s).1 (morecore nunits s).2) ∧
      ((morecore nunits s).2 = 0 → Nil s (morecore nunits s).1) ∧
      ((morecore nunits s).2 ≠ 0 → need ≤ (growtail (morecore nunits s).1 (morecore nunits s).2).tailsize) := by
  have hcore : NUNITS (128 * 1024) = 8193 := by decide
  have htotal := h.total
  have htop := k.top
  simp only [Lacks] at hlacks
  simp only [morecore, growtail, hcore]
  generalize hn : (if (if nunits < 8193 then 8193 else nunits) > s.availnunits then s.availnunits
    else if nunits < 8193 then 8193 else nunits) = n
  have hmin : n = min (max nunits 8193) s.availnunits := by
    rw [← hn]
    split_ifs <;> omega
  have hle : n ≤ s.availnunits := by omega
  have hmod : (s.tailsize + n) % 2 ^ 64 = s.tailsize + n := Nat.mod_eq_of_lt (by omega)
  rw [hmod]
  refine ⟨⟨rfl, rfl, rfl, rfl, by simp only; omega, Nat.le_add_right _ _⟩, ?_, fun h0 => by omega⟩
  rintro rfl
  exact ⟨rfl, rfl, rfl, rfl, rfl, Nat.le_refl _⟩

end Core

section Tail

/-- A block from a tail that is long enough. -/
theorem tailtake_spec (h : Inv k s B) (hquiet : Quiet B) (hn : 0 < nunits) (hle : nunits ≤ s.tailsize) :
    ∃ B', Got k B nunits s.tailptr (tailtake k s nunits).1 B' ∧ (tailtake k s nunits).2 = s.tailptr + 1 := by
  obtain ⟨heq, hinv⟩ := h.tailalloc hn hle
  have hgap : ∀ t j, B s.tailptr ≠ some (t, j) := by
    intro t j hj
    have := h.carved.bounds hj
    omega
  simp only [tailtake]
  refine ⟨_, ⟨hinv, Function.update_self _ _ _, ?_, fun a j ha => ?_, fun a j => ?_⟩, ?_⟩
  · rw [heq]
    exact Function.update_self _ _ _
  · rw [Function.update_apply] at ha
    split at ha
    · assumption
    · exact absurd ha (hquiet a j)
  · exact update_place (hgap _) (some_ne (by simp) _) a j
  · rw [heq]

end Tail

section Rover

theorem Inv.served (h : Inv k s B) (hp : OnRing k s.rover B p) (hrover : s.rover ≠ 0) (hsize : 0 < (s.mem p).size) :
    ∃ n, B p = some (.misc, n) ∧ (s.mem p).size = n := by
  rcases hp with ⟨-, rfl⟩ | ⟨n, hn⟩
  · rw [h.ring.sentinel hrover] at hsize
    exact absurd hsize (Nat.lt_irrefl 0)
  · exact ⟨n, hn, h.ring.size hn⟩

theorem rovertake_spec (h : Inv k s B) (hquiet : Quiet B) (hn : 0 < nunits) (hrover : s.rover ≠ 0) (hq : OnRing k s.rover B q)
    (hp : OnRing k s.rover B p) (hnext : (s.mem q).next = p) (hsize : nunits ≤ (s.mem p).size) :
    ∃ p' B', (rovertake k s nunits q p).2 = p' + 1 ∧ Got k B nunits p' (rovertake k s nunits q p).1 B' := by
  obtain ⟨n, hB, hsz⟩ := h.served hp hrover (by omega)
  have hs := h.reenter hrover hq
  have hq0 := h.node_pos hq
  rw [rovertake]
  by_cases hmore : (s.mem p).size > nunits
  · rw [if_pos hmore]
    rw [hsz] at hmore
    have hshrink := hs.shrink hB hn hmore
    have hne : p + (n - nunits) ≠ p := by omega
    have hgap : ∀ t j, B (p + (n - nunits)) ≠ some (t, j) := by
      intro t j hj
      have := h.carved.apart hB hj (by omega)
      omega
    simp only [hsz]
    refine ⟨p + (n - nunits), _, rfl, hshrink, Function.update_self _ _ _, Function.update_self _ _ _, fun a j ha => ?_, fun a j => ?_⟩
    · rw [Function.update_apply] at ha
      split at ha
      · assumption
      · rw [update_place (place_ne hB (by simp)) (some_ne (by simp) _)] at ha
        exact absurd ha (hquiet a j)
    · rw [update_place (fun j => ?_) (some_ne (by simp) _), update_place (place_ne hB (by simp)) (some_ne (by simp) _)]
      rw [Function.update_of_ne hne]
      exact hgap _ j
  · rw [if_neg hmore]
    obtain rfl : n = nunits := by omega
    have hunlink := hs.unlink hq0 rfl hnext hB
    have hwrite := hunlink.write_held (Function.update_self _ _ _) ⟨k.checkval, n⟩
    have hpq := h.next_ne hq hnext hB
    have hmem : { Function.update s.mem q { s.mem q with next := (s.mem p).next } p with next := k.checkval } = (⟨k.checkval, n⟩ : Header) := by
      simp only [Function.update_of_ne hpq, hsz]
    simp only [hmem]
    refine ⟨p, _, rfl, hwrite, Function.update_self _ _ _, Function.update_self _ _ _, fun a j ha => ?_, fun a j => ?_⟩
    · rw [Function.update_apply] at ha
      split at ha
      · assumption
      · exact absurd ha (hquiet a j)
    · exact update_place (place_ne hB (by simp)) (some_ne (by simp) _) a j

end Rover

/-- Memory from the misc list or from the tail. -/
theorem hardalloc_spec (h : Inv k s B) (hquiet : Quiet B) (hn : 0 < nunits) (hcalls : ¬ Hardcalls Lacks k s nunits) :
    ∃ s' v, hardalloc k s nunits = some (s', v) ∧ Done k s B nunits s' v := by
  rw [hardalloc]
  by_cases htail : nunits > s.tailsize
  · rw [if_pos htail]
    rcases h.misc fun p => nunits ≤ (s.mem p).size with ⟨q, p, hrun, hrover, hq, hp, hnext, hserve⟩ | hrun
    · obtain ⟨p', B', hv, hgot⟩ := rovertake_spec h hquiet hn hrover hq hp hnext (by simpa using hserve)
      rw [hrun]
      exact ⟨(rovertake k s nunits q p).1, (rovertake k s nunits q p).2, rfl, .inr ⟨p', B', hv, hgot⟩⟩
    · have hlacks : ¬ Lacks nunits nunits s := fun hl => hcalls ⟨htail, hrun, hl⟩
      obtain ⟨hgrown, hzero, henough⟩ := morecore_spec h (fun _ => Nat.le_add_left nunits s.tailsize) hlacks
      rw [hrun]
      simp only [Option.map_some]
      by_cases h0 : (morecore nunits s).2 = 0
      · rw [if_pos h0]
        exact ⟨_, _, rfl, .inl ⟨rfl, hzero h0⟩⟩
      · rw [if_neg h0]
        obtain ⟨B', hgot, hv⟩ := tailtake_spec (h.nil hgrown) hquiet hn (henough h0)
        exact ⟨_, _, rfl, .inr ⟨_, B', hv, hgot⟩⟩
  · rw [if_neg htail]
    obtain ⟨B', hgot, hv⟩ := tailtake_spec h hquiet hn (Nat.not_lt.mp htail)
    exact ⟨_, _, rfl, .inr ⟨_, B', hv, hgot⟩⟩

section Quick

theorem Inv.quick_head {i : ℕ} (h : Inv k s B) (hi : i ≤ NQUICK) (hne : s.quicklist i ≠ 0) :
    B (s.quicklist i) = some (.quick i, i) ∧ (s.mem (s.quicklist i)).size = i := by
  have hok := h.quick i hi
  obtain ⟨l, hl⟩ := hok.list
  cases l with
  | nil => exact absurd hl.path hne
  | cons x l =>
    obtain ⟨heq, -⟩ := hl.path
    obtain ⟨n, hn⟩ := (hl.mem_iff x).mp List.mem_cons_self
    rw [heq]
    obtain ⟨rfl, hsize⟩ := hok.size hn
    exact ⟨hn, hsize⟩

/-- A block that has left its quicklist. -/
theorem got_quick {i : ℕ} {pp : Option ℕ} (hquiet : Quiet B) (hp : B p = some (.quick i, i)) (hsize : (s.mem p).size = i)
    (hpp : pp ≠ some p) (hinv : Inv k (quicktake k s i pp p) (Function.update B p (some (.held, i)))) :
    Got k B i p (quicktake k s i pp p) (Function.update B p (some (.held, i))) := by
  refine ⟨hinv, Function.update_self _ _ _, ?_, fun a j ha => ?_, fun a j => update_place (place_ne hp (by simp)) (some_ne (by simp) _) a j⟩
  · cases pp with
    | none => simp only [quicktake, Function.update_self, hsize]
    | some q =>
      have hqp : p ≠ q := fun heq => hpp (by rw [heq])
      simp only [quicktake, Function.update_self, Function.update_of_ne hqp, hsize]
  · rw [Function.update_apply] at ha
    split at ha
    · assumption
    · exact absurd ha (hquiet a j)

end Quick

theorem NUNITS_pos (nbytes : ℕ) : 0 < NUNITS nbytes := Nat.succ_pos _

theorem qmalloc_spec {nbytes : ℕ} (h : Inv k s B) (hquiet : Quiet B) (hcalls : ¬ Qcalls Lacks k s nbytes) :
    ∃ s' v, qmalloc k s nbytes = some (s', v) ∧ Done k s B (NUNITS nbytes) s' v := by
  rw [qmalloc]
  by_cases h0 : nbytes = 0
  · rw [if_pos h0]
    exact ⟨s, 0, rfl, .inl ⟨rfl, Nil.refl s⟩⟩
  · rw [if_neg h0]
    by_cases hquick : NUNITS nbytes ≤ NQUICK ∧ s.quicklist (NUNITS nbytes) ≠ 0
    · rw [if_pos hquick]
      obtain ⟨hp, hsize⟩ := h.quick_head hquick.1 hquick.2
      have hinv := h.quicktake_head hquick.1 hp rfl
      exact ⟨_, _, rfl, .inr ⟨_, _, rfl, got_quick hquiet hp hsize nofun hinv⟩⟩
    · rw [if_neg hquick]
      exact hardalloc_spec h hquiet (NUNITS_pos nbytes) fun hc => hcalls ⟨h0, hquick, hc⟩

end Petele.Qmalloc
