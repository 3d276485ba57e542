import Mathlib.Logic.Relation
import Petele.Qmalloc.Align

namespace Petele.Qmalloc

open Petele.Lib

/-- What a client has asked for. -/
structure Request where
  bytes : ℕ
  align : ℕ

/-- The allocator, and the requests that the clients have got an address for and not freed. -/
structure Sys where
  arena : Arena
  live : ℕ → Option Request

/-- A client calls the allocator, or it writes. -/
inductive Act
  | malloc (size : ℕ)
  | mallocz (size : ℕ) (clr : Bool)
  | mallocalign (nbytes align : ℕ) (offset : ℤ) (span : ℕ)
  | realloc (ap size : ℕ)
  | free (ap : ℕ)
  | write (mem : Mem)

def grant (live : ℕ → Option Request) (v : ℕ) (r : Request) : ℕ → Option Request :=
  if v = 0 then live else Function.update live v (some r)

def init (k : Kernel) (mem : Mem) : Sys := ⟨mallocinit k mem, fun _ => none⟩

/-- `none` is a panic. -/
def step (k : Kernel) (x : Sys) : Act → Option Sys
  | .malloc size => (malloc k x.arena size).map fun (s, v) => ⟨s, grant x.live v ⟨size, 1⟩⟩
  | .mallocz size clr => (mallocz k x.arena size clr).map fun (s, v) => ⟨s, grant x.live v ⟨size, 1⟩⟩
  | .mallocalign nbytes align offset span =>
    (mallocalign k x.arena nbytes align offset span).map fun (s, v) => ⟨s, grant x.live v ⟨nbytes, align⟩⟩
  | .realloc ap size => (realloc k x.arena ap size).map fun (s, v) =>
    ⟨s, if size ≠ 0 ∧ v = 0 then x.live else grant (Function.update x.live ap none) v ⟨size, 1⟩⟩
  | .free ap => (free k x.arena ap).map fun s => ⟨s, Function.update x.live ap none⟩
  | .write mem => some ⟨{ x.arena with mem := mem }, x.live⟩

/-- The unit `a` is data of the client that has `v`. -/
def Data (s : Arena) (v a : ℕ) : Prop := v ≤ a ∧ a < v - 1 + (s.mem (v - 1)).size

/-- What clients may do: they give live pointers or nil, powers of two to align to, and write in their own data. -/
def Allowed (x : Sys) : Act → Prop
  | .malloc size => size < 2 ^ 64
  | .mallocz size _ => size < 2 ^ 64
  | .mallocalign nbytes align _ span => nbytes < 2 ^ 64 ∧ align < 2 ^ 64 ∧ span < 2 ^ 64 ∧ ∃ e, align = 2 ^ e
  | .realloc ap size => size < 2 ^ 64 ∧ (ap = 0 ∨ x.live ap ≠ none)
  | .free ap => ap = 0 ∨ x.live ap ≠ none
  | .write mem => ∀ a, mem a ≠ x.arena.mem a → ∃ v, x.live v ≠ none ∧ Data x.arena v a

/-- `realloc` leaves a block where it is. -/
def Stays (s : Arena) (ap size : ℕ) : Prop :=
  NUNITS size = (s.mem (ap - 1)).size ∨
    (s.tailptr ≠ 0 ∧ ap - 1 + (s.mem (ap - 1)).size = s.tailptr) ∧
      (wrap (NUNITS size - (s.mem (ap - 1)).size) < 0 ∨ (s.tailsize : ℤ) ≥ wrap (NUNITS size - (s.mem (ap - 1)).size))

/-- The step makes a call of `morecore` of the kind `P`. -/
def Calls (P : Call) (k : Kernel) (s : Arena) : Act → Prop
  | .malloc size => Qcalls P k s size
  | .mallocz size _ => Qcalls P k s size
  | .mallocalign nbytes align offset span =>
    if span ≠ 0 ∧ align ≤ span then nbytes ≤ span ∧ Qaligncalls P k s nbytes span offset 0
    else Qaligncalls P k s nbytes align offset span
  | .realloc ap size => (ap = 0 ∨ ¬ Stays s ap size) ∧ Qcalls P k s size
  | .free _ => False
  | .write _ => False

/-- No size is so large that rounding it up wraps, and no block before the tail grows or shrinks by
more units than an `int` holds. -/
def Fits (s : Arena) : Act → Prop
  | .malloc size => size + 15 < 2 ^ 64
  | .mallocz size _ => size + 15 < 2 ^ 64
  | .mallocalign nbytes _ _ _ => nbytes + 15 < 2 ^ 64
  | .realloc ap size => size + 15 < 2 ^ 64 ∧
    (ap ≠ 0 → ap - 1 + (s.mem (ap - 1)).size = s.tailptr →
      (NUNITS size : ℤ) - (s.mem (ap - 1)).size < 2 ^ 31 ∧ -2 ^ 31 ≤ (NUNITS size : ℤ) - (s.mem (ap - 1)).size)
  | .free _ => True
  | .write _ => True

/-- A run of steps that are all of the kind `F` and of which none calls `morecore` in the way `P`. -/
def Runs (F : Arena → Act → Prop) (P : Call) (k : Kernel) : Sys → Sys → Prop :=
  Relation.ReflTransGen fun x y => ∃ a, Allowed x a ∧ F x.arena a ∧ ¬ Calls P k x.arena a ∧ step k x a = some y

section Requests

variable {k : Kernel} {s s' : Arena} {B B' : Blocks} {live : ℕ → Option Request} {p n v nbytes : ℕ} {r : Request}

/-- Each request has its block, which is long enough for it and aligned. -/
def Lives (live : ℕ → Option Request) (B : Blocks) : Prop :=
  ∀ v r, live v = some r → ∃ p n, v = p + 1 ∧ B p = some (.live, n) ∧ r.bytes ≤ Unitsz * (n - 1) ∧ r.align ∣ Unitsz * v

theorem Lives.drop (h : Lives live B) (p : ℕ) : Lives (Function.update live (p + 1) none) (Function.update B p none) := by
  intro v r hv
  rw [Function.update_apply] at hv
  split at hv
  · cases hv
  · rename_i hne
    obtain ⟨q, n, rfl, hq, hrest⟩ := h v r hv
    refine ⟨q, n, rfl, ?_, hrest⟩
    rw [Function.update_of_ne (by omega)]
    exact hq

theorem Lives.mono (h : Lives live B) (hB : ∀ a j, B a = some (.live, j) → B' a = some (.live, j)) : Lives live B' := by
  intro v r hv
  obtain ⟨p, n, hp, hlive, hrest⟩ := h v r hv
  exact ⟨p, n, hp, hB p n hlive, hrest⟩

theorem Lives.grant (h : Lives live B) (hg : Got k B n p s' B') (hbytes : r.bytes ≤ Unitsz * (n - 1)) (halign : r.align ∣ Unitsz * (p + 1)) :
    Lives (grant live (p + 1) r) (Function.update B' p (some (.live, n))) := by
  intro v r' hv
  rw [Qmalloc.grant, if_neg (Nat.succ_ne_zero p), Function.update_apply] at hv
  split at hv
  · rename_i heq
    cases hv
    exact ⟨p, n, heq, Function.update_self _ _ _, hbytes, heq ▸ halign⟩
  · rename_i hne
    obtain ⟨q, m, rfl, hq, hrest⟩ := h v r' hv
    refine ⟨q, m, rfl, ?_, hrest⟩
    rw [Function.update_of_ne (by omega)]
    exact (hg.live q m).mpr hq

/-- A system state whose blocks are `B`. -/
structure Tracks (k : Kernel) (x : Sys) (B : Blocks) : Prop where
  inv : Inv k x.arena B
  quiet : Quiet B
  live : Lives x.live B

theorem NUNITS_enough (h : nbytes + 15 < 2 ^ 64) : nbytes ≤ Unitsz * (NUNITS nbytes - 1) ∧ Unitsz * (NUNITS nbytes - 1) < nbytes + Unitsz := by
  rw [NUNITS, HOWMANY, Unitsz, Nat.mod_eq_of_lt (by omega)]
  omega

/-- Memory changes inside one block. -/
theorem Inv.write_inside (h : Inv k s B) (mem : Mem) {t : Place} (hp : B p = some (t, n))
    (hmem : ∀ a, mem a ≠ s.mem a → p < a ∧ a < p + n) : Inv k { s with mem := mem } B := by
  refine h.write_data (fun a t' m ha => ?_) ?_
  · by_contra hne
    obtain ⟨hlow, hhigh⟩ := hmem a hne
    have := h.carved.apart hp ha (by omega)
    omega
  · by_contra hne
    have := hmem _ hne
    have := h.pos hp
    omega

/-- The client that has asked for the block gets it. -/
theorem Tracks.grant (h : Lives live B) (hg : Got k B n p s' B') (mem : Mem) (hmem : ∀ a, mem a ≠ s'.mem a → p < a ∧ a < p + n)
    (hbytes : r.bytes ≤ Unitsz * (n - 1)) (halign : r.align ∣ Unitsz * (p + 1)) :
    Tracks k ⟨{ s' with mem := mem }, Qmalloc.grant live (p + 1) r⟩ (Function.update B' p (some (.live, n))) := by
  have hheader : mem p = ⟨k.checkval, n⟩ := by
    by_contra hne
    rw [← hg.header] at hne
    exact absurd (hmem p hne).1 (Nat.lt_irrefl p)
  refine ⟨(hg.inv.write_inside mem hg.block hmem).hand hg.block hheader, fun a j ha => ?_, h.grant hg hbytes halign⟩
  rw [update_iff (some_ne (by simp) _)] at ha
  exact ha.1 (hg.held a j ha.2)

end Requests

section Data

variable {k : Kernel} {s s' : Arena} {B B' : Blocks} {x : Sys} {live : ℕ → Option Request} {mem : Mem} {a p n v nbytes align : ℕ}

theorem overlay_zero (v w : Header) : Header.overlay 0 v w = w := by
  simp [Header.overlay, overlay, Nat.mod_one]

theorem memset_inside (h : memset mem v n a ≠ mem a) : v ≤ a ∧ Unitsz * (a - v) < n := by
  simp only [memset] at h
  split at h
  · refine ⟨‹_›, ?_⟩
    by_contra hle
    rw [Nat.sub_eq_zero_of_le (Nat.not_lt.mp hle), overlay_zero] at h
    exact h rfl
  · exact absurd rfl h

theorem memmove_inside {ap : ℕ} (h : memmove mem v ap n a ≠ mem a) : v ≤ a ∧ Unitsz * (a - v) < n := by
  simp only [memmove] at h
  split at h
  · refine ⟨‹_›, ?_⟩
    by_contra hle
    rw [Nat.sub_eq_zero_of_le (Nat.not_lt.mp hle), overlay_zero] at h
    exact h rfl
  · exact absurd rfl h

/-- What comes of an allocation once its data has been cleared. -/
theorem Tracks.cleared (h : Tracks k x B) (clr : Bool) (hd : Done k x.arena B (NUNITS nbytes) s' v) (hfits : nbytes + 15 < 2 ^ 64)
    (halign : align ∣ Unitsz * v) :
    ∃ B', Tracks k ⟨(cleared nbytes clr (s', v)).1, Qmalloc.grant x.live (cleared nbytes clr (s', v)).2 ⟨nbytes, align⟩⟩ B' := by
  obtain ⟨henough, hless⟩ := NUNITS_enough hfits
  rcases hd with ⟨rfl, hnil⟩ | ⟨p, B', rfl, hg⟩
  · refine ⟨B, ?_, h.quiet, ?_⟩
    · simpa [Qmalloc.cleared] using h.inv.nil hnil
    · simpa [Qmalloc.cleared, Qmalloc.grant] using h.live
  · refine ⟨Function.update B' p (some (.live, NUNITS nbytes)), ?_⟩
    cases clr with
    | false =>
      simpa [Qmalloc.cleared] using Tracks.grant h.live hg s'.mem (fun a ha => absurd rfl ha) henough halign
    | true =>
      simpa [Qmalloc.cleared] using Tracks.grant h.live hg (memset s'.mem (p + 1) nbytes) (fun a ha => by
        obtain ⟨hlow, hhigh⟩ := memset_inside ha
        rw [Unitsz] at *
        omega) henough halign

end Data

section Realloc

variable {k : Kernel} {s s' : Arena} {B B' : Blocks} {x : Sys} {p n size : ℕ}

theorem free_spec (h : Inv k s B) (hquiet : Quiet B) (hp : B p = some (.live, n)) :
    ∃ s' B', qfreeinternal k s (p + 1) = some s' ∧ Inv k s' B' ∧ Quiet B' ∧
      ∀ a j, B' a = some (.live, j) ↔ Function.update B p none a = some (.live, j) := by
  obtain ⟨s', B', hrun, hfreed⟩ := qfreeinternal_spec (h.seize hp) (Function.update_self _ _ _) (h.live hp)
  refine ⟨s', B', hrun, hfreed.inv, fun a j ha => ?_, fun a j => ?_⟩
  · obtain ⟨hap, ha⟩ := (hfreed.held a j).mp ha
    rw [Function.update_of_ne hap] at ha
    exact hquiet a j ha
  · rw [hfreed.live, update_iff (v := none) (fun _ => nofun), update_iff (some_ne (by simp) _)]
    tauto

/-- The block before the tail grows or shrinks. -/
theorem Inv.resize_tail (h : Inv k s B) (hquiet : Quiet B) (hp : B p = some (.live, n)) (htail : p + n = s.tailptr) {m : ℕ} (hm : 0 < m)
    (hroom : m ≤ s.tailsize + n) :
    ∃ B', Got k (Function.update B p none) m p { s with
      mem := Function.update s.mem p { s.mem p with size := m }
      tailsize := s.tailsize + n - m
      tailptr := p + m } B' := by
  have hbounds := h.carved.bounds hp
  have htotal := h.total
  have hheap := k.top
  have hfree := (h.seize hp).freetail (Function.update_self _ _ _) htail
  have hmod : (s.tailsize + n) % 2 ^ 64 = s.tailsize + n := Nat.mod_eq_of_lt (by omega)
  rw [hmod, Function.update_idem] at hfree
  obtain ⟨heq, hinv⟩ := hfree.tailalloc hm (by dsimp only; omega)
  rw [heq] at hinv
  have hheader : ({ s.mem p with size := m } : Header) = ⟨k.checkval, m⟩ := by rw [h.live hp]
  rw [hheader]
  refine ⟨_, hinv, Function.update_self _ _ _, Function.update_self _ _ _, fun a j ha => ?_, fun a j => ?_⟩
  · rw [Function.update_apply] at ha
    split at ha
    · assumption
    · rename_i hap
      rw [Function.update_of_ne hap] at ha
      exact absurd ha (hquiet a j)
  · rw [update_iff (some_ne (by simp) _), update_iff (v := none) (fun _ => nofun)]
    tauto

/-- A new block with the client's data, and the old one goes back. -/
theorem reallocmove_spec (h : Inv k s B) (hquiet : Quiet B) (hp : B p = some (.live, n)) (hfits : size + 15 < 2 ^ 64)
    (hcalls : ¬ Qcalls Lacks k s size) :
    ∃ s' v, reallocmove k s (p + 1) size n = some (s', v) ∧
      (v = 0 ∧ Nil s s' ∨ ∃ p' B', v = p' + 1 ∧ Got k (Function.update B p none) (NUNITS size) p' s' B') := by
  obtain ⟨s₁, v, hrun, hdone⟩ := qmalloc_spec h hquiet hcalls
  obtain ⟨henough, hless⟩ := NUNITS_enough hfits
  rw [reallocmove, hrun]
  rcases hdone with ⟨rfl, hnil⟩ | ⟨q, B₁, rfl, hg⟩
  · exact ⟨s₁, 0, rfl, .inl ⟨rfl, hnil⟩⟩
  · simp only [Option.bind_some, if_neg (Nat.succ_ne_zero q)]
    generalize hosize : (if size < (n - 1) * Unitsz % 2 ^ 32 then size else (n - 1) * Unitsz % 2 ^ 32) = osize
    have hle : osize ≤ size := by
      rw [← hosize]
      split <;> omega
    have hwrite := hg.inv.write_inside (memmove s₁.mem (q + 1) (p + 1) osize) hg.block fun a ha => by
      obtain ⟨hlow, hhigh⟩ := memmove_inside ha
      rw [Unitsz] at *
      omega
    have hlive : B₁ p = some (.live, n) := (hg.live p n).mpr hp
    have hqp : q ≠ p := by
      rintro rfl
      exact place_ne hg.block (by simp) n hlive
    obtain ⟨s', B', hfree, hfreed⟩ := qfreeinternal_spec (hwrite.seize hlive) (Function.update_self _ _ _) (hwrite.live hlive)
    have hblock : Function.update B₁ p (some (.held, n)) q = some (.held, NUNITS size) := by
      rw [Function.update_of_ne hqp]
      exact hg.block
    rw [hfree]
    refine ⟨s', q + 1, rfl, .inr ⟨q, B', rfl, hfreed.inv, (hfreed.held _ _).mpr ⟨hqp, hblock⟩, ?_, fun a j ha => ?_, fun a j => ?_⟩⟩
    · rw [hfreed.mem _ _ hqp (.inl hblock)]
      by_contra hne
      rw [← hg.header] at hne
      have := (memmove_inside hne).1
      omega
    · obtain ⟨hap, ha⟩ := (hfreed.held a j).mp ha
      rw [Function.update_of_ne hap] at ha
      exact hg.held a j ha
    · rw [hfreed.live, update_iff (v := none) (fun _ => (by simp)), update_iff (some_ne (by simp) _), hg.live]
      tauto

theorem realloc_spec (h : Inv k s B) (hquiet : Quiet B) (hp : B p = some (.live, n)) (hsize : size ≠ 0)
    (hfits : Fits s (.realloc (p + 1) size)) (hcalls : ¬ Calls Lacks k s (.realloc (p + 1) size)) :
    ∃ s' v, realloc k s (p + 1) size = some (s', v) ∧
      (v = 0 ∧ Nil s s' ∨ ∃ p' B', v = p' + 1 ∧ Got k (Function.update B p none) (NUNITS size) p' s' B') := by
  have hbounds := h.carved.bounds hp
  have htotal := h.total
  have hheap := k.top
  have hheader := h.live hp
  have hptr : s.tailptr ≠ 0 := by omega
  simp only [Fits, Nat.add_sub_cancel, hheader, ne_eq, Nat.succ_ne_zero, not_false_eq_true, true_implies] at hfits
  simp only [Calls, Stays, Nat.add_sub_cancel, hheader, Nat.succ_ne_zero, false_or] at hcalls
  rw [realloc, if_neg hsize, if_neg (Nat.succ_ne_zero p)]
  simp only [Nat.add_sub_cancel, hheader, ne_eq, not_true, or_false, if_neg (by omega : ¬ n = 0)]
  by_cases hsame : NUNITS size = n
  · rw [if_pos hsame]
    refine ⟨s, p + 1, rfl, .inr ⟨p, _, rfl, h.seize hp, ?_, ?_, fun a j ha => ?_, fun a j => ?_⟩⟩
    · rw [Function.update_self, hsame]
    · rw [hheader, hsame]
    · rw [Function.update_apply] at ha
      split at ha
      · assumption
      · exact absurd ha (hquiet a j)
    · rw [update_iff (some_ne (by simp) _), update_iff (v := none) (fun _ => nofun)]
  · rw [if_neg hsame]
    split
    · rename_i hin
      obtain ⟨⟨-, htail⟩, hroom⟩ := hin
      obtain ⟨hhigh, hlow⟩ := hfits.2 htail
      rw [wrap_of_range hlow hhigh] at hroom ⊢
      have hunits := NUNITS_pos size
      obtain ⟨B', hg⟩ := h.resize_tail hquiet hp htail hunits (by omega)
      have h₁ : (((s.tailsize : ℤ) - ((NUNITS size : ℤ) - n)) % 2 ^ 64).toNat = s.tailsize + n - NUNITS size := by omega
      have h₂ : (((s.tailptr : ℤ) + ((NUNITS size : ℤ) - n)) % 2 ^ 60).toNat = p + NUNITS size := by omega
      rw [hheader] at hg
      rw [h₁, h₂]
      exact ⟨_, _, rfl, .inr ⟨p, B', rfl, hg⟩⟩
    · rename_i hout
      exact reallocmove_spec h hquiet hp hfits.1 fun hc => hcalls ⟨fun hs => hs.elim hsame hout, hc⟩

end Realloc

section Steps

variable {k : Kernel} {s s' : Arena} {B : Blocks} {x y : Sys} {a : Act} {v nbytes align span : ℕ} {offset : ℤ}

/-- Where `qmallocalign` does not panic, an alignment that is not a power of two was not looked at. -/
theorem qmallocalign_done (h : Inv k s B) (hquiet : Quiet B) (halign : align < 2 ^ 64) (hcalls : ¬ Qaligncalls Lacks k s nbytes align offset span)
    (hrun : qmallocalign k s nbytes align offset span = some (s', v)) :
    Done k s B (NUNITS nbytes) s' v ∧ (align ≠ 0 → align ∣ Unitsz * v) := by
  by_cases hpow : ISPOWEROF2 align = true
  · obtain ⟨s₁, v₁, hrun₁, hdone, hdvd⟩ := qmallocalign_spec h hquiet halign hpow hcalls
    rw [hrun₁] at hrun
    cases hrun
    exact ⟨hdone, hdvd⟩
  · rw [qmallocalign] at hrun
    split at hrun
    · cases hrun
      exact ⟨.inl ⟨rfl, Nil.refl s⟩, fun _ => Nat.dvd_zero _⟩
    · rw [if_pos (by simpa using hpow)] at hrun
      cases hrun

theorem mallocalign_done (h : Tracks k x B) (hallowed : Allowed x (.mallocalign nbytes align offset span))
    (hfits : Fits x.arena (.mallocalign nbytes align offset span)) (hcalls : ¬ Calls Lacks k x.arena (.mallocalign nbytes align offset span))
    (hrun : mallocalign k x.arena nbytes align offset span = some (s', v)) :
    ∃ B', Tracks k ⟨s', grant x.live v ⟨nbytes, align⟩⟩ B' := by
  obtain ⟨-, halign, hspan, e, rfl⟩ := hallowed
  have hpos := Nat.two_pow_pos e
  rw [mallocalign] at hrun
  rw [Calls] at hcalls
  split at hrun
  · rename_i hwithin
    rw [if_pos hwithin] at hcalls
    split at hrun
    · cases hrun
      exact ⟨B, h⟩
    · rename_i hle
      obtain ⟨⟨s₁, v₁⟩, hrun, heq⟩ := Option.map_eq_some_iff.mp hrun
      obtain ⟨hdone, hdvd⟩ := qmallocalign_done h.inv h.quiet hspan (fun hc => hcalls ⟨Nat.not_lt.mp hle, hc⟩) hrun
      have hpow : 2 ^ e ∣ Unitsz * v₁ := by
        by_cases hp : ISPOWEROF2 span = true
        · simp only [ISPOWEROF2, decide_eq_true_eq] at hp
          obtain ⟨j, rfl⟩ := (Nat.and_sub_one_eq_zero_iff_isPowerOfTwo hwithin.1).mp hp
          exact (Nat.pow_dvd_pow 2 ((Nat.pow_le_pow_iff_right (by decide)).mp hwithin.2)).trans (hdvd hwithin.1)
        · rw [qmallocalign] at hrun
          split at hrun
          · cases hrun
            exact Nat.dvd_zero _
          · rw [if_pos (by simpa using hp)] at hrun
            cases hrun
      have hcleared := h.cleared true hdone hfits hpow
      rw [heq] at hcleared
      exact hcleared
  · rename_i hwithin
    rw [if_neg hwithin] at hcalls
    obtain ⟨⟨s₁, v₁⟩, hrun, heq⟩ := Option.map_eq_some_iff.mp hrun
    obtain ⟨hdone, hdvd⟩ := qmallocalign_done h.inv h.quiet halign hcalls hrun
    have hcleared := h.cleared true hdone hfits (hdvd (Nat.ne_of_gt hpos))
    rw [heq] at hcleared
    exact hcleared

theorem mallocz_done (h : Tracks k x B) (clr : Bool) (hfits : nbytes + 15 < 2 ^ 64) (hcalls : ¬ Qcalls Lacks k x.arena nbytes)
    (hrun : mallocz k x.arena nbytes clr = some (s', v)) : ∃ B', Tracks k ⟨s', grant x.live v ⟨nbytes, 1⟩⟩ B' := by
  obtain ⟨s₁, v₁, hrun₁, hdone⟩ := qmalloc_spec h.inv h.quiet hcalls
  rw [mallocz, hrun₁, Option.map_some] at hrun
  have hcleared := h.cleared clr hdone hfits (Nat.one_dvd _)
  rw [Option.some.inj hrun] at hcleared
  exact hcleared

/-- Memory that no client has. -/
theorem Tracks.write (h : Tracks k x B) {mem : Mem} (hallowed : Allowed x (.write mem)) :
    Tracks k ⟨{ x.arena with mem := mem }, x.live⟩ B := by
  have hdata : ∀ a, mem a ≠ x.arena.mem a → ∃ p n, B p = some (.live, n) ∧ p < a ∧ a < p + n := by
    intro a ha
    obtain ⟨v, hv, hlow, hhigh⟩ := hallowed a ha
    obtain ⟨r, hr⟩ := Option.ne_none_iff_exists'.mp hv
    obtain ⟨p, n, rfl, hp, -⟩ := h.live v r hr
    rw [Nat.add_sub_cancel, h.inv.live hp] at hhigh
    exact ⟨p, n, hp, hlow, hhigh⟩
  refine ⟨h.inv.write_data (fun a t m ha => ?_) ?_, h.quiet, h.live⟩
  · by_contra hne
    obtain ⟨p, n, hp, hlow, hhigh⟩ := hdata a hne
    have := h.inv.carved.apart hp ha (by omega)
    omega
  · by_contra hne
    obtain ⟨p, n, hp, hlow, -⟩ := hdata _ hne
    have := h.inv.pos hp
    omega

theorem Tracks.free (h : Tracks k x B) {p n : ℕ} (hp : B p = some (.live, n)) :
    ∃ s' B', qfreeinternal k x.arena (p + 1) = some s' ∧ Tracks k ⟨s', Function.update x.live (p + 1) none⟩ B' := by
  obtain ⟨s', B', hrun, hinv, hquiet, hlive⟩ := free_spec h.inv h.quiet hp
  exact ⟨s', B', hrun, hinv, hquiet, (h.live.drop p).mono fun a j => (hlive a j).mpr⟩

/-- No request is for nil. -/
theorem Tracks.update_nil (h : Tracks k x B) : Function.update x.live 0 none = x.live := by
  have h0 : x.live 0 = none := by
    by_contra hne
    obtain ⟨r, hr⟩ := Option.ne_none_iff_exists'.mp hne
    obtain ⟨p, n, hp, -⟩ := h.live 0 r hr
    omega
  rw [← h0]
  exact Function.update_eq_self _ _

theorem realloc_done {ap size : ℕ} (h : Tracks k x B) (hallowed : Allowed x (.realloc ap size)) (hfits : Fits x.arena (.realloc ap size))
    (hcalls : ¬ Calls Lacks k x.arena (.realloc ap size)) (hrun : realloc k x.arena ap size = some (s', v)) :
    ∃ B', Tracks k ⟨s', if size ≠ 0 ∧ v = 0 then x.live else grant (Function.update x.live ap none) v ⟨size, 1⟩⟩ B' := by
  obtain ⟨henough, -⟩ := NUNITS_enough hfits.1
  rcases hallowed.2 with rfl | hlive
  · rw [h.update_nil]
    rw [realloc] at hrun
    split at hrun
    · rename_i hsize
      rw [if_neg fun hc => hc.1 hsize]
      simp only [qfreeinternal, if_true, Option.map_some, Option.some.injEq, Prod.mk.injEq] at hrun
      obtain ⟨rfl, rfl⟩ := hrun
      exact ⟨B, h⟩
    · rename_i hsize
      rw [if_pos rfl] at hrun
      obtain ⟨s₁, v₁, hrun₁, hdone⟩ := qmalloc_spec h.inv h.quiet fun hc => hcalls ⟨.inl rfl, hc⟩
      rw [hrun₁] at hrun
      cases hrun
      have hcleared := h.cleared false hdone hfits.1 (Nat.one_dvd _)
      simp only [cleared, Bool.false_eq_true, and_false, if_false] at hcleared
      by_cases hv : v = 0
      · rw [if_pos ⟨hsize, hv⟩]
        rw [grant, if_pos hv] at hcleared
        exact hcleared
      · rw [if_neg fun hc => hv hc.2]
        exact hcleared
  · obtain ⟨r, hr⟩ := Option.ne_none_iff_exists'.mp hlive
    obtain ⟨p, n, rfl, hp, -⟩ := h.live ap r hr
    by_cases hsize : size = 0
    · obtain ⟨s₁, B', hfree, htracks⟩ := h.free hp
      rw [realloc, if_pos hsize, hfree] at hrun
      cases hrun
      rw [if_neg fun hc => hc.1 hsize]
      exact ⟨B', htracks⟩
    · obtain ⟨s₁, v₁, hrun₁, hdone⟩ := realloc_spec h.inv h.quiet hp hsize hfits hcalls
      rw [hrun₁] at hrun
      cases hrun
      rcases hdone with ⟨rfl, hnil⟩ | ⟨p', B', rfl, hg⟩
      · rw [if_pos ⟨hsize, rfl⟩]
        exact ⟨B, h.inv.nil hnil, h.quiet, h.live⟩
      · rw [if_neg fun hc => Nat.succ_ne_zero p' hc.2]
        exact ⟨_, Tracks.grant (h.live.drop p) hg s'.mem (fun a ha => absurd rfl ha) henough (Nat.one_dvd _)⟩

/-- One step. -/
theorem Tracks.step (h : Tracks k x B) (hallowed : Allowed x a) (hfits : Fits x.arena a) (hcalls : ¬ Calls Lacks k x.arena a)
    (hrun : Qmalloc.step k x a = some y) : ∃ B', Tracks k y B' := by
  cases a with
  | malloc size =>
    obtain ⟨⟨s', v⟩, hop, rfl⟩ := Option.map_eq_some_iff.mp hrun
    exact mallocz_done h true hfits hcalls hop
  | mallocz size clr =>
    obtain ⟨⟨s', v⟩, hop, rfl⟩ := Option.map_eq_some_iff.mp hrun
    exact mallocz_done h clr hfits hcalls hop
  | mallocalign nbytes align offset span =>
    obtain ⟨⟨s', v⟩, hop, rfl⟩ := Option.map_eq_some_iff.mp hrun
    exact mallocalign_done h hallowed hfits hcalls hop
  | realloc ap size =>
    obtain ⟨⟨s', v⟩, hop, rfl⟩ := Option.map_eq_some_iff.mp hrun
    exact realloc_done h hallowed hfits hcalls hop
  | free ap =>
    obtain ⟨s', hop, rfl⟩ := Option.map_eq_some_iff.mp hrun
    rcases hallowed with rfl | hlive
    · rw [h.update_nil]
      rw [Qmalloc.free, qfreeinternal, if_pos rfl] at hop
      cases hop
      exact ⟨B, h⟩
    · obtain ⟨r, hr⟩ := Option.ne_none_iff_exists'.mp hlive
      obtain ⟨p, n, rfl, hp, -⟩ := h.live ap r hr
      obtain ⟨s₁, B', hfree, htracks⟩ := h.free hp
      rw [Qmalloc.free, hfree] at hop
      cases hop
      exact ⟨B', htracks⟩
  | write mem =>
    cases hrun
    exact ⟨B, h.write hallowed⟩

end Steps

section Runs

variable {k : Kernel} {s : Arena} {B : Blocks} {x : Sys} {a : Act} {mem : Mem}

/-- At the beginning. -/
theorem tracks_init (k : Kernel) (mem : Mem) : Tracks k (init k mem) fun _ => none := by
  refine ⟨⟨carved_nothing _ _, Nat.le_refl _, ?_, fun i _ => ?_, nofun, ?_, nofun⟩, fun _ _ => nofun, fun _ _ => nofun⟩
  · exact Nat.add_right_cancel_iff.mpr (Nat.add_zero _)
  · exact ⟨⟨[], rfl, List.nodup_nil, fun a => by simp⟩, nofun⟩
  · refine ⟨⟨[], ⟨rfl, List.nodup_nil, fun a => ?_⟩, List.Pairwise.nil⟩, nofun, fun h => absurd rfl h, fun h => absurd rfl h, fun _ _ _ => nofun⟩
    simp [OnRing, init, mallocinit]

theorem runs_tracks (h : Runs Fits Lacks k (init k mem) x) : ∃ B, Tracks k x B := by
  induction h with
  | refl => exact ⟨_, tracks_init k mem⟩
  | tail _ hstep ih =>
    obtain ⟨B, hB⟩ := ih
    obtain ⟨a, hallowed, hfits, hcalls, hrun⟩ := hstep
    exact hB.step hallowed hfits hcalls hrun

/-- A call that finds something but too little has asked for more than is left. -/
theorem Calls.exceeds (h : Calls Lacks k x.arena a) (hinv : Inv k x.arena B) (hallowed : Allowed x a) : Calls Exceeds k x.arena a := by
  cases a with
  | malloc size => exact Qcalls.exceeds h
  | mallocz size clr => exact Qcalls.exceeds h
  | mallocalign nbytes align offset span =>
    obtain ⟨-, halign, hspan, -⟩ := hallowed
    rw [Calls] at *
    split
    · rename_i hwithin
      rw [if_pos hwithin] at h
      exact ⟨h.1, h.2.exceeds hinv hspan⟩
    · rename_i hwithin
      rw [if_neg hwithin] at h
      exact h.exceeds hinv halign
  | realloc ap size => exact ⟨h.1, h.2.exceeds⟩
  | free ap => exact h
  | write mem => exact h

theorem runs_exceeds (h : Runs Fits Exceeds k (init k mem) x) : ∃ B, Tracks k x B := by
  induction h with
  | refl => exact ⟨_, tracks_init k mem⟩
  | tail _ hstep ih =>
    obtain ⟨B, hB⟩ := ih
    obtain ⟨a, hallowed, hfits, hcalls, hrun⟩ := hstep
    exact hB.step hallowed hfits (fun hc => hcalls (hc.exceeds hB.inv hallowed)) hrun

end Runs

section Sound

variable {k : Kernel} {x : Sys} {B : Blocks} {mem : Mem} {t : Place} {a : ℕ}

/-- The header `a` is linked to `b`. -/
def Leads (mem : Mem) (a b : ℕ) : Prop := a ≠ 0 ∧ (mem a).next = b ∧ b ≠ 0

/-- The clients, the quicklists and the misc list, with the headers of the blocks that are theirs. -/
def Owns (k : Kernel) (x : Sys) : Place → ℕ → Prop
  | .live, a => x.live (a + 1) ≠ none
  | .held, _ => False
  | .quick i, a => i ≤ NQUICK ∧ x.arena.quicklist i ≠ 0 ∧ Relation.ReflTransGen (Leads x.arena.mem) (x.arena.quicklist i) a
  | .misc, a => x.arena.rover ≠ 0 ∧ a ≠ k.misclist ∧ Relation.ReflTransGen (Leads x.arena.mem) x.arena.rover a

/-- No two blocks overlap, none reaches into the tail, and the tail lies in the heap; the blocks of a
quicklist have its size; a client has what it asked for. -/
structure Sound (k : Kernel) (x : Sys) : Prop where
  apart : ∀ t a t' a', Owns k x t a → Owns k x t' a' →
    t = t' ∧ a = a' ∨ a + (x.arena.mem a).size ≤ a' ∨ a' + (x.arena.mem a').size ≤ a
  inside : ∀ t a, Owns k x t a → 0 < (x.arena.mem a).size ∧ k.tailbase ≤ a ∧ a + (x.arena.mem a).size ≤ x.arena.tailptr
  tail : k.tailbase ≤ x.arena.tailptr ∧ x.arena.tailptr + x.arena.tailsize ≤ k.tailbase + k.units
  quick : ∀ i a, Owns k x (.quick i) a → (x.arena.mem a).size = i
  live : ∀ v r, x.live v = some r → r.bytes ≤ Unitsz * ((x.arena.mem (v - 1)).size - 1) ∧ r.align ∣ Unitsz * v

/-- What is on a list is a block of that list. -/
theorem Tracks.owns (h : Tracks k x B) (ha : Owns k x t a) : ∃ n, B a = some (t, n) ∧ (x.arena.mem a).size = n := by
  cases t with
  | live =>
    obtain ⟨r, hr⟩ := Option.ne_none_iff_exists'.mp ha
    obtain ⟨p, n, hp, hB, -⟩ := h.live _ r hr
    obtain rfl : a = p := by omega
    exact ⟨n, hB, by rw [h.inv.live hB]⟩
  | held => exact ha.elim
  | quick i =>
    obtain ⟨hi, hne, hreach⟩ := ha
    have hnode : ∃ n, B a = some (.quick i, n) := by
      induction hreach with
      | refl => exact ⟨_, (h.inv.quick_head hi hne).1⟩
      | tail _ hlead ih =>
        obtain ⟨hb, hnext, hc⟩ := hlead
        obtain ⟨l, hl⟩ := (h.inv.quick i hi).list
        obtain ⟨l₁, l₂, rfl⟩ := hl.adjacent ih (by rw [link, hnext]; exact hc)
        rw [link, hnext] at hl
        exact (hl.mem_iff _).mp (by simp)
    obtain ⟨n, hn⟩ := hnode
    obtain ⟨rfl, hsize⟩ := (h.inv.quick i hi).size hn
    exact ⟨n, hn, hsize⟩
  | misc =>
    obtain ⟨hrover, hne, hreach⟩ := ha
    have hnode : OnRing k x.arena.rover B a := by
      clear hne
      induction hreach with
      | refl => exact h.inv.ring.enter hrover
      | tail _ hlead ih =>
        obtain ⟨hb, hnext, hc⟩ := hlead
        rcases h.inv.ring.next ih with ⟨hlast, -⟩ | ⟨hon, -⟩
        · rw [link, hnext] at hlast
          exact .inl ⟨hrover, hlast⟩
        · rw [link, hnext] at hon
          exact hon
    rcases hnode with ⟨-, heq⟩ | ⟨n, hn⟩
    · exact absurd heq hne
    · exact ⟨n, hn, h.inv.ring.size hn⟩

theorem Tracks.sound (h : Tracks k x B) : Sound k x := by
  have htotal := h.inv.total
  refine ⟨fun t a t' a' ha ha' => ?_, fun t a ha => ?_, ⟨h.inv.base, by omega⟩, fun i a ha => ?_, fun v r hv => ?_⟩
  · obtain ⟨n, hn, hsize⟩ := h.owns ha
    obtain ⟨n', hn', hsize'⟩ := h.owns ha'
    rw [hsize, hsize']
    by_cases heq : a = a'
    · subst heq
      rw [hn] at hn'
      exact .inl ⟨(Prod.mk.inj (Option.some.inj hn')).1, rfl⟩
    · rcases Nat.lt_or_gt_of_ne heq with hlt | hlt
      · exact .inr (.inl (h.inv.carved.apart hn hn' hlt))
      · exact .inr (.inr (h.inv.carved.apart hn' hn hlt))
  · obtain ⟨n, hn, hsize⟩ := h.owns ha
    rw [hsize]
    exact h.inv.carved.bounds hn
  · obtain ⟨n, hn, hsize⟩ := h.owns ha
    rw [hsize]
    exact ((h.inv.quick i ha.1).size hn).1
  · obtain ⟨p, n, rfl, hp, hbytes, halign⟩ := h.live v r hv
    rw [Nat.add_sub_cancel, h.inv.live hp]
    exact ⟨hbytes, halign⟩

/-- Whatever clients do, as long as `morecore` is not asked for more than is left. -/
theorem malloc_run_sound (k : Kernel) (mem : Mem) (x : Sys) (h : Runs Fits Exceeds k (init k mem) x) : Sound k x := by
  obtain ⟨B, hB⟩ := runs_exceeds h
  exact hB.sound

def smallKernel (units : ℕ) (h : units < 2 ^ 59) : Kernel :=
  ⟨100, units, 1, 2, by decide, by decide, by omega, h⟩

theorem malloc_run_sound_one :
    ∃ x, x.live 101 ≠ none ∧ Runs Fits Exceeds (smallKernel 10 (by decide)) (init (smallKernel 10 (by decide)) fun _ => ⟨0, 0⟩) x ∧
      Sound (smallKernel 10 (by decide)) x := by
  have hrun : Runs Fits Exceeds (smallKernel 10 (by decide)) (init (smallKernel 10 (by decide)) fun _ => ⟨0, 0⟩) _ :=
    .single ⟨.malloc 1, (by decide : 1 < 2 ^ 64), (by decide : 1 + 15 < 2 ^ 64), fun hc => absurd hc.2.2.2.2 (by decide : ¬ 10 < 2), rfl⟩
  exact ⟨_, Option.some_ne_none _, hrun, malloc_run_sound _ _ _ hrun⟩

/-- A client has two units and asks for four billion more: `delta` is 0 as an `int`, and the block reaches over the tail. -/
theorem malloc_run_overlaps :
    ¬ ∀ k mem x, Runs (fun _ _ => True) Exceeds k (init k mem) x → Sound k x := by
  intro hall
  have hruns : ∃ x y, step (smallKernel 10000 (by decide)) (init (smallKernel 10000 (by decide)) fun _ => ⟨0, 0⟩) (.malloc 1) = some x ∧
      x.live 101 ≠ none ∧ x.arena.mem 100 = ⟨2, 2⟩ ∧ x.arena.tailptr = 102 ∧
      step (smallKernel 10000 (by decide)) x (.realloc 101 (16 * (2 ^ 32 + 1))) = some y ∧
      y.live 101 ≠ none ∧ (y.arena.mem 100).size = 2 ^ 32 + 2 ∧ y.arena.tailptr = 102 :=
    ⟨_, _, rfl, Option.some_ne_none _, rfl, rfl, rfl, Option.some_ne_none _, rfl, rfl⟩
  obtain ⟨x, y, hmalloc, hlive, hheader, hptr, hrealloc, hlive', hsize, htail⟩ := hruns
  have hstays : Stays x.arena 101 (16 * (2 ^ 32 + 1)) := by
    refine .inr ⟨⟨by simp [hptr], by simp [hheader, hptr]⟩, .inr ?_⟩
    rw [hheader]
    exact Int.natCast_nonneg _
  have hrun : Runs (fun _ _ => True) Exceeds (smallKernel 10000 (by decide)) (init (smallKernel 10000 (by decide)) fun _ => ⟨0, 0⟩) y :=
    .tail (.single ⟨.malloc 1, (by decide : 1 < 2 ^ 64), trivial, fun hc => absurd hc.2.2.2.2 (by decide : ¬ 10000 < 2), hmalloc⟩)
      ⟨.realloc 101 (16 * (2 ^ 32 + 1)), ⟨by decide, .inr hlive⟩, trivial, fun hc => hc.1.elim (by decide) fun h => h hstays, hrealloc⟩
  have hinside := (hall _ _ _ hrun).inside .live 100 hlive'
  rw [hsize, htail] at hinside
  exact absurd hinside.2.2 (by decide)

end Sound

section Clean

variable {k : Kernel} {s s' : Arena} {B : Blocks} {nunits v : ℕ}

/-- The units that the blocks, the tail and what `morecore` still has make up. -/
def Whole (k : Kernel) (s : Arena) : Prop := s.tailptr + s.tailsize + s.availnunits = k.tailbase + k.units

/-- An allocation has failed and moved no more than units to the tail, or it has given a block in the heap. -/
def Clean (k : Kernel) (s : Arena) (nunits : ℕ) (s' : Arena) (v : ℕ) : Prop :=
  (v = 0 ∧ Nil s s' ∨ 0 < v ∧ k.tailbase ≤ v - 1 ∧ v - 1 + nunits ≤ k.tailbase + k.units) ∧ Whole k s'

theorem Done.clean (h : Inv k s B) (hd : Done k s B nunits s' v) : Clean k s nunits s' v := by
  rcases hd with ⟨rfl, hnil⟩ | ⟨p, B', rfl, hg⟩
  · exact ⟨.inl ⟨rfl, hnil⟩, (h.nil hnil).total⟩
  · have hbounds := hg.inv.carved.bounds hg.block
    have htotal := hg.inv.total
    exact ⟨.inr ⟨Nat.succ_pos p, hbounds.2.1, by omega⟩, htotal⟩

/-- In every state reached an allocation ends as it should, unless `morecore` then has something left
that is not enough. -/
theorem qmalloc_run_clean (k : Kernel) (mem : Mem) (x : Sys) (h : Runs Fits Lacks k (init k mem) x) :
    Whole k x.arena ∧
      (∀ nbytes, ¬ Qcalls Lacks k x.arena nbytes →
        ∃ s' v, qmalloc k x.arena nbytes = some (s', v) ∧ Clean k x.arena (NUNITS nbytes) s' v) ∧
      ∀ nbytes align offset span, align < 2 ^ 64 → ISPOWEROF2 align = true → ¬ Qaligncalls Lacks k x.arena nbytes align offset span →
        ∃ s' v, qmallocalign k x.arena nbytes align offset span = some (s', v) ∧ Clean k x.arena (NUNITS nbytes) s' v := by
  obtain ⟨B, hB⟩ := runs_tracks h
  refine ⟨hB.inv.total, fun nbytes hcalls => ?_, fun nbytes align offset span halign hpow hcalls => ?_⟩
  · obtain ⟨s', v, hrun, hdone⟩ := qmalloc_spec hB.inv hB.quiet hcalls
    exact ⟨s', v, hrun, hdone.clean hB.inv⟩
  · obtain ⟨s', v, hrun, hdone, -⟩ := qmallocalign_spec hB.inv hB.quiet halign hpow hcalls
    exact ⟨s', v, hrun, hdone.clean hB.inv⟩

theorem qmalloc_run_clean_one :
    ∃ s' v, qmalloc (smallKernel 10 (by decide)) (mallocinit (smallKernel 10 (by decide)) fun _ => ⟨0, 0⟩) 100 = some (s', v) ∧
      Clean (smallKernel 10 (by decide)) (mallocinit (smallKernel 10 (by decide)) fun _ => ⟨0, 0⟩) (NUNITS 100) s' v :=
  (qmalloc_run_clean (smallKernel 10 (by decide)) (fun _ => ⟨0, 0⟩) _ .refl).2.1 100 fun hc =>
    absurd hc.2.2.2.2.2 (by decide : ¬ 0 + 10 < 8)

/-- A heap of one unit: the block of eight that `qmalloc` gives is not in it. -/
theorem qmalloc_outside :
    ¬ ∀ k mem x nbytes, Runs (fun _ _ => True) (fun _ _ _ => False) k (init k mem) x → nbytes < 2 ^ 64 →
      ∃ s' v, qmalloc k x.arena nbytes = some (s', v) ∧ Clean k x.arena (NUNITS nbytes) s' v := by
  intro hall
  obtain ⟨s', v, hrun, hclean, -⟩ := hall (smallKernel 1 (by decide)) (fun _ => ⟨0, 0⟩) _ 100 .refl (by decide)
  have hv : ∃ s', qmalloc (smallKernel 1 (by decide)) (init (smallKernel 1 (by decide)) fun _ => ⟨0, 0⟩).arena 100 = some (s', 101) := ⟨_, rfl⟩
  obtain ⟨s₁, hrun₁⟩ := hv
  rw [hrun₁] at hrun
  cases hrun
  rcases hclean with ⟨h0, -⟩ | ⟨-, -, hle⟩
  · exact absurd h0 (by decide)
  · exact absurd hle (by decide)

end Clean

end Petele.Qmalloc
