import Mathlib.Logic.Relation
import Mathlib.Order.Basic
import Petele.Lib.Rearrange

namespace Petele.Libc

open Lib

/-- The bytes by address, `none` where there is no memory. -/
abbrev Memory := ℕ → Option UInt8

def sizeoflong : ℕ := 4

/-- `c = *i; *i = *j; *j = c` for `k` bytes at once, a fault where there is no memory. -/
def exchange (k : ℕ) (m : Memory) (i j : ℕ) : Option Memory :=
  if ∀ b < k, (m (i + b)).isSome ∧ (m (j + b)).isSome then
    let c : Memory := fun x => m (i + x)
    let m' : Memory := fun x => if i ≤ x ∧ x < i + k then m (j + (x - i)) else m x
    some fun x => if j ≤ x ∧ x < j + k then c (x - j) else m' x
  else none

/-- The loop of `swapb` and of `swapi`. -/
def swaploop (k : ℕ) : ℕ → Memory → ℕ → ℕ → ℤ → Option Memory
  | 0, _, _, _, _ => none
  | fuel + 1, m, i, j, es =>
    (exchange k m i j).bind fun m =>
      let es := es - k
      if es ≠ 0 then swaploop k fuel m (i + k) (j + k) es else some m

def swapb (m : Memory) (i j : ℕ) (es : ℤ) : Option Memory := swaploop 1 (es.toNat + 1) m i j es

def swapi (m : Memory) (i j : ℕ) (es : ℤ) : Option Memory := swaploop sizeoflong (es.toNat + 1) m i j es

section Sorting

variable {σ : Type*}

/-- The comparison may look at all there is, and remember. -/
structure QSort (σ : Type*) where
  cmp : σ → Memory → ℕ → ℕ → ℤ × σ
  swap : Memory → ℕ → ℕ → ℤ → Option Memory
  es : ℕ

variable (p : QSort σ)

/-- The median of three. -/
def pivot (a n : ℕ) (s : σ) (m : Memory) : ℕ × σ :=
  let j := n / 6 * p.es
  let pi := a + j
  let j := j + j
  let pj := pi + j
  let pk := pj + j
  let r := p.cmp s m pi pj
  if r.1 < 0 then
    let r := p.cmp r.2 m pi pk
    if r.1 < 0 then
      let r := p.cmp r.2 m pj pk
      if r.1 < 0 then (pj, r.2) else (pk, r.2)
    else (pi, r.2)
  else
    let r := p.cmp r.2 m pj pk
    if r.1 < 0 then
      let r := p.cmp r.2 m pi pk
      if r.1 < 0 then (pi, r.2) else (pk, r.2)
    else (pj, r.2)

/-- The scan upwards from `pi`. -/
def scanup (a pn : ℕ) (m : Memory) : ℕ → ℕ → σ → Option (ℕ × σ)
  | 0, _, _ => none
  | fuel + 1, pi, s =>
    let pi := pi + p.es
    if pi < pn then
      let r := p.cmp s m pi a
      if r.1 < 0 then scanup a pn m fuel pi r.2 else some (pi, r.2)
    else some (pi, s)

/-- The scan downwards from `pj`. -/
def scandown (a : ℕ) (m : Memory) : ℕ → ℕ → σ → Option (ℕ × σ)
  | 0, _, _ => none
  | fuel + 1, pj, s =>
    let pj := pj - p.es
    if pj > a then
      let r := p.cmp s m pj a
      if r.1 > 0 then scandown a m fuel pj r.2 else some (pj, r.2)
    else some (pj, s)

/-- The scans until they have met. -/
def partition (a n : ℕ) : ℕ → ℕ → ℕ → σ → Memory → Option (ℕ × σ × Memory)
  | 0, _, _, _, _ => none
  | fuel + 1, pi, pj, s, m =>
    (scanup p a (a + n * p.es) m (n + 1) pi s).bind fun (pi, s) =>
    (scandown p a m (n + 1) pj s).bind fun (pj, s) =>
      if pj < pi then some (pj, s, m)
      else (p.swap m pi pj p.es).bind fun m => partition a n fuel pi pj s m

/-- A turn of the loop sorts one part by a call, and the other one is sorted in the turns after it. -/
def qsorts : ℕ → ℕ → ℕ → σ → Memory → Option (σ × Memory)
  | 0, _, _, _, _ => none
  | fuel + 1, a, n, s, m =>
    if n > 1 then
      let (pi, s) := if n > 10 then pivot p a n s m else (a + n / 2 * p.es, s)
      (p.swap m a pi p.es).bind fun m =>
      (partition p a n (n + 1) a (a + n * p.es) s m).bind fun (pj, s, m) =>
      (p.swap m a pj p.es).bind fun m =>
        let j := (pj - a) / p.es
        let n := n - (j + 1)
        let pj := a + (j + 1) * p.es
        if j ≥ n then (qsorts fuel a j s m).bind fun (s, m) => qsorts fuel pj n s m
        else (qsorts fuel pj n s m).bind fun (s, m) => qsorts fuel a j s m
    else some (s, m)

def qsort (va n es : ℕ) (cmp : σ → Memory → ℕ → ℕ → ℤ × σ) (s : σ) (m : Memory) : Option (σ × Memory) :=
  let swap := if (va ||| es) % sizeoflong ≠ 0 then swapb else swapi
  qsorts ⟨cmp, swap, es⟩ (n + 1) va n s m

end Sorting

/-- The blocks of `k` bytes at `i` and `j` have changed places. -/
def swapped (k : ℕ) (m : Memory) (i j : ℕ) : Memory := fun x =>
  if i ≤ x ∧ x < i + k then m (j + (x - i)) else if j ≤ x ∧ x < j + k then m (i + (x - j)) else m x

/-- The block is the same, or the blocks are apart. -/
def Apart (k i j : ℕ) : Prop := i = j ∨ i + k ≤ j ∨ j + k ≤ i

/-- There is memory in both blocks. -/
def Present (k : ℕ) (m : Memory) (i j : ℕ) : Prop := ∀ b < k, (m (i + b)).isSome ∧ (m (j + b)).isSome

section Swap

variable {k t i j fuel : ℕ} {m : Memory}

theorem exchange_eq (h : Apart k i j) (hm : Present k m i j) : exchange k m i j = some (swapped k m i j) := by
  rw [exchange]
  refine (if_pos hm).trans (congrArg some (funext fun x => ?_))
  simp only [swapped]
  rcases h with rfl | h
  · split_ifs <;> rfl
  · split_ifs
    all_goals first | rfl | omega

theorem swapped_isSome (hm : Present k m i j) (x : ℕ) : (swapped k m i j x).isSome = (m x).isSome := by
  rw [swapped]
  split_ifs with hi hj
  · have hx := hm (x - i) (by omega)
    rw [show i + (x - i) = x by omega] at hx
    rw [hx.1, hx.2]
  · have hx := hm (x - j) (by omega)
    rw [show j + (x - j) = x by omega] at hx
    rw [hx.1, hx.2]
  · rfl

theorem swapped_add (h : Apart (k + t) i j) : swapped t (swapped k m i j) (i + k) (j + k) = swapped (k + t) m i j := by
  funext x
  simp only [swapped]
  rcases h with rfl | h
  · split_ifs
    all_goals first | omega | exact congrArg m (by omega)
  · split_ifs
    all_goals first | omega | exact congrArg m (by omega)

/-- The loop swaps whole blocks. -/
theorem swaploop_spec (hk : 0 < k) (hfuel : t < fuel) (h : Apart (k * (t + 1)) i j)
    (hm : Present (k * (t + 1)) m i j) :
    swaploop k fuel m i j (k * (t + 1) : ℕ) = some (swapped (k * (t + 1)) m i j) := by
  induction t generalizing fuel m i j with
  | zero =>
    obtain ⟨fuel, rfl⟩ : ∃ f, fuel = f + 1 := ⟨fuel - 1, by omega⟩
    rw [Nat.zero_add, Nat.mul_one] at h hm ⊢
    rw [swaploop, exchange_eq h hm, Option.bind_some, if_neg (by omega)]
  | succ t ih =>
    obtain ⟨fuel, rfl⟩ : ∃ f, fuel = f + 1 := ⟨fuel - 1, by omega⟩
    have hsplit : k * (t + 1 + 1) = k + k * (t + 1) := by rw [Nat.mul_succ, Nat.add_comm]
    have hpos : 0 < k * (t + 1) := Nat.mul_pos hk (Nat.succ_pos t)
    rw [hsplit] at h hm ⊢
    have hfirst : Present k m i j := fun b hb => hm b (by omega)
    have hrest : Present (k * (t + 1)) (swapped k m i j) (i + k) (j + k) := by
      intro b hb
      rw [swapped_isSome hfirst, swapped_isSome hfirst, Nat.add_assoc, Nat.add_assoc]
      exact hm (k + b) (by omega)
    have hapart : Apart k i j ∧ Apart (k * (t + 1)) (i + k) (j + k) := by
      unfold Apart at h ⊢
      omega
    have hsub : ((k + k * (t + 1) : ℕ) : ℤ) - k = (k * (t + 1) : ℕ) := by omega
    rw [swaploop, exchange_eq hapart.1 hfirst, Option.bind_some]
    dsimp only
    rw [hsub, if_pos (by omega), ih (by omega) hapart.2 hrest, swapped_add h]

/-- What the swap of `qsort` does to blocks of `es` bytes. -/
def Swaps (es : ℕ) (swap : Memory → ℕ → ℕ → ℤ → Option Memory) : Prop :=
  ∀ m i j, Apart es i j → Present es m i j → swap m i j es = some (swapped es m i j)

theorem swapb_swaps (hes : 1 ≤ k) : Swaps k swapb := by
  intro m i j h hm
  obtain ⟨t, rfl⟩ : ∃ t, k = 1 * (t + 1) := ⟨k - 1, by omega⟩
  exact swaploop_spec Nat.one_pos (by omega) h hm

theorem swapi_swaps (hes : 1 ≤ k) (hlong : k % sizeoflong = 0) : Swaps k swapi := by
  intro m i j h hm
  obtain ⟨t, rfl⟩ : ∃ t, k = sizeoflong * (t + 1) := ⟨k / sizeoflong - 1, by unfold sizeoflong at *; omega⟩
  exact swaploop_spec (by decide) (by unfold sizeoflong; omega) h hm

theorem swap_swaps (va : ℕ) (hes : 1 ≤ k) :
    Swaps k (if (va ||| k) % sizeoflong ≠ 0 then swapb else swapi) := by
  split_ifs with hlong
  · exact swapb_swaps hes
  · refine swapi_swaps hes ?_
    have hor : (va ||| k) % 2 ^ 2 = va % 2 ^ 2 ||| k % 2 ^ 2 := Nat.or_mod_two_pow
    have hzero : va % 2 ^ 2 ||| k % 2 ^ 2 = 0 := hor.symm.trans (not_not.mp hlong)
    exact (Nat.or_eq_zero_iff.mp hzero).2

end Swap

/-- What `qsort` is called with: there is memory for the elements. -/
structure Request (σ : Type*) where
  va : ℕ
  n : ℕ
  es : ℕ
  cmp : σ → Memory → ℕ → ℕ → ℤ × σ
  m : Memory
  es_pos : 1 ≤ es
  present : ∀ x, va ≤ x → x < va + n * es → (m x).isSome

namespace Request

variable {σ : Type*} (c : Request σ)

abbrev Elem := Fin c.es → Option UInt8

def place (i : ℕ) : ℕ := c.va + i * c.es

/-- The bytes of element `i`. -/
def elem (m : Memory) (i : ℕ) : c.Elem := fun b => m (c.place i + b)

/-- Only bytes of the elements may have changed. -/
def Kept (m : Memory) : Prop :=
  ∀ x, (m x).isSome = (c.m x).isSome ∧ (x < c.va ∨ c.place c.n ≤ x → m x = c.m x)

/-- The comparison has been called on elements only. -/
def Calls : σ → σ → Prop :=
  Relation.ReflTransGen fun s s' =>
    ∃ m i j, c.Kept m ∧ i < c.n ∧ j < c.n ∧ s' = (c.cmp s m (c.place i) (c.place j)).2

/-- The comparison is a total preorder on elements. -/
structure Ranks (le : c.Elem → c.Elem → Prop) : Prop where
  total : ∀ x y, le x y ∨ le y x
  trans : ∀ x y z, le x y → le y z → le x z
  less : ∀ s m i j, c.Kept m → i < c.n → j < c.n →
    ((c.cmp s m (c.place i) (c.place j)).1 < 0 ↔ ¬ le (c.elem m j) (c.elem m i))
  greater : ∀ s m i j, c.Kept m → i < c.n → j < c.n →
    ((c.cmp s m (c.place i) (c.place j)).1 > 0 ↔ ¬ le (c.elem m i) (c.elem m j))

/-- The elements at `lo` up to `hi` have changed places. -/
structure Moved (lo hi : ℕ) (s : σ) (m : Memory) (s' : σ) (m' : Memory) : Prop where
  kept : c.Kept m'
  calls : c.Calls s s'
  rearranged : Rearranged lo hi (c.elem m) (c.elem m')

variable {c} {i j k lo hi n fuel b : ℕ} {s s' s'' : σ} {m m' m'' : Memory}

theorem place_succ : c.place i + c.es = c.place (i + 1) := by
  rw [place, place, Nat.succ_mul, Nat.add_assoc]

theorem place_add : c.place i + n * c.es = c.place (i + n) := by
  rw [place, place, Nat.add_mul, Nat.add_assoc]

theorem place_pred (hi : 0 < i) : c.place i - c.es = c.place (i - 1) := by
  obtain ⟨i, rfl⟩ : ∃ k, i = k + 1 := ⟨i - 1, by omega⟩
  rw [← place_succ, Nat.add_sub_cancel, Nat.add_sub_cancel]

theorem place_lt : c.place i < c.place j ↔ i < j := by
  rw [place, place, Nat.add_lt_add_iff_left, Nat.mul_lt_mul_right c.es_pos]

theorem place_le : c.place i ≤ c.place j ↔ i ≤ j := by
  rw [place, place, Nat.add_le_add_iff_left, Nat.mul_le_mul_right_iff c.es_pos]

theorem place_index : (c.place j - c.place lo) / c.es = j - lo := by
  rw [place, place, Nat.add_sub_add_left, ← Nat.sub_mul, Nat.mul_div_cancel _ c.es_pos]

/-- A byte of one element is a byte of no other one. -/
theorem place_block (hb : b < c.es) :
    (c.place i ≤ c.place k + b ∧ c.place k + b < c.place i + c.es) ↔ k = i := by
  constructor
  · rintro ⟨hlow, hhigh⟩
    by_contra hne
    rcases Nat.lt_or_gt_of_ne hne with h | h
    · have hle : c.place (k + 1) ≤ c.place i := place_le.mpr h
      rw [← place_succ] at hle
      omega
    · have hle : c.place (i + 1) ≤ c.place k := place_le.mpr h
      rw [← place_succ] at hle
      omega
  · rintro rfl
    omega

theorem place_apart : Apart c.es (c.place i) (c.place j) := by
  unfold Apart
  rcases Nat.lt_trichotomy i j with h | rfl | h
  · exact .inr (.inl (place_succ.trans_le (place_le.mpr h)))
  · exact .inl rfl
  · exact .inr (.inr (place_succ.trans_le (place_le.mpr h)))

theorem Kept.self : c.Kept c.m := fun _ => ⟨rfl, fun _ => rfl⟩

theorem Kept.present (hm : c.Kept m) (hi : i < c.n) (hb : b < c.es) : (m (c.place i + b)).isSome := by
  have hend : c.place (i + 1) ≤ c.place c.n := place_le.mpr hi
  rw [← place_succ] at hend
  have hlt : c.place i + b < c.place c.n := by omega
  rw [(hm _).1]
  exact c.present _ (by unfold place; omega) hlt

theorem Calls.call (hm : c.Kept m) (hi : i < c.n) (hj : j < c.n) :
    c.Calls s (c.cmp s m (c.place i) (c.place j)).2 :=
  .single ⟨m, i, j, hm, hi, hj, rfl⟩

theorem Moved.refl (hm : c.Kept m) : c.Moved lo hi s m s m := ⟨hm, .refl, .refl _ _ _⟩

theorem Moved.trans (h : c.Moved lo hi s m s' m') (h' : c.Moved lo hi s' m' s'' m'') :
    c.Moved lo hi s m s'' m'' :=
  ⟨h'.kept, h.calls.trans h'.calls, h.rearranged.trans h'.rearranged⟩

theorem Moved.mono {lo' hi' : ℕ} (h : c.Moved lo hi s m s' m') (hlo : lo' ≤ lo) (hhi : hi ≤ hi') :
    c.Moved lo' hi' s m s' m' :=
  ⟨h.kept, h.calls, h.rearranged.mono hlo hhi⟩

theorem Moved.after (h : c.Calls s s') (h' : c.Moved lo hi s' m s'' m') : c.Moved lo hi s m s'' m' :=
  ⟨h'.kept, h.trans h'.calls, h'.rearranged⟩

variable {swap : Memory → ℕ → ℕ → ℤ → Option Memory}

/-- A swap on two elements. -/
theorem swap_spec (hswap : Swaps c.es swap) (hm : c.Kept m) (hi : i < c.n) (hj : j < c.n) :
    ∃ m', swap m (c.place i) (c.place j) c.es = some m' ∧ c.Kept m' ∧
      ∀ k, c.elem m' k = c.elem m (Equiv.swap i j k) := by
  have hpresent : Present c.es m (c.place i) (c.place j) := fun b hb => ⟨hm.present hi hb, hm.present hj hb⟩
  refine ⟨_, hswap m _ _ place_apart hpresent, fun x => ⟨?_, fun hx => ?_⟩, fun k => ?_⟩
  · rw [swapped_isSome hpresent, (hm x).1]
  · have hend : c.place i + c.es ≤ c.place c.n ∧ c.place j + c.es ≤ c.place c.n :=
      ⟨place_succ.trans_le (place_le.mpr hi), place_succ.trans_le (place_le.mpr hj)⟩
    have hstart : c.va ≤ c.place i ∧ c.va ≤ c.place j := ⟨Nat.le_add_right _ _, Nat.le_add_right _ _⟩
    rw [swapped, if_neg (by omega), if_neg (by omega), (hm x).2 hx]
  · funext b
    simp only [elem, swapped, place_block b.isLt, Equiv.swap_apply_def]
    split_ifs with hki hkj
    · rw [hki, Nat.add_sub_cancel_left]
    · rw [hkj, Nat.add_sub_cancel_left]
    · rfl

theorem swap_moved (lo hi i j : ℕ) (hswap : Swaps c.es swap) (hm : c.Kept m) (hi₁ : lo ≤ i ∧ i < hi) (hj : lo ≤ j ∧ j < hi)
    (hn : hi ≤ c.n) (s : σ) :
    ∃ m', swap m (c.place i) (c.place j) c.es = some m' ∧ c.Moved lo hi s m s m' ∧
      ∀ k, c.elem m' k = c.elem m (Equiv.swap i j k) := by
  obtain ⟨m', hrun, hkept, helem⟩ := swap_spec hswap hm (show i < c.n by omega) (show j < c.n by omega)
  exact ⟨m', hrun, ⟨hkept, .refl, .swap hi₁ hj helem⟩, helem⟩

namespace Ranks

variable {le : c.Elem → c.Elem → Prop}

theorem refl (h : c.Ranks le) (x : c.Elem) : le x x := (h.total x x).elim id id

theorem of_less (h : c.Ranks le) (hm : c.Kept m) (hi : i < c.n) (hj : j < c.n)
    (hc : (c.cmp s m (c.place i) (c.place j)).1 < 0) : le (c.elem m i) (c.elem m j) :=
  (h.total _ _).resolve_right ((h.less s m i j hm hi hj).mp hc)

theorem of_not_less (h : c.Ranks le) (hm : c.Kept m) (hi : i < c.n) (hj : j < c.n)
    (hc : ¬ (c.cmp s m (c.place i) (c.place j)).1 < 0) : le (c.elem m j) (c.elem m i) :=
  not_not.mp fun hle => hc ((h.less s m i j hm hi hj).mpr hle)

theorem of_greater (h : c.Ranks le) (hm : c.Kept m) (hi : i < c.n) (hj : j < c.n)
    (hc : (c.cmp s m (c.place i) (c.place j)).1 > 0) : le (c.elem m j) (c.elem m i) :=
  (h.total _ _).resolve_left ((h.greater s m i j hm hi hj).mp hc)

theorem of_not_greater (h : c.Ranks le) (hm : c.Kept m) (hi : i < c.n) (hj : j < c.n)
    (hc : ¬ (c.cmp s m (c.place i) (c.place j)).1 > 0) : le (c.elem m i) (c.elem m j) :=
  not_not.mp fun hle => hc ((h.greater s m i j hm hi hj).mpr hle)

end Ranks

variable (swap) (le : c.Elem → c.Elem → Prop) (s)

theorem scanup_spec (hm : c.Kept m) (hpi : lo ≤ i ∧ i < hi) (hn : hi ≤ c.n) (hfuel : hi - i ≤ fuel) :
    ∃ i' s', scanup ⟨c.cmp, swap, c.es⟩ (c.place lo) (c.place hi) m fuel (c.place i) s = some (c.place i', s') ∧
      (i < i' ∧ i' ≤ hi) ∧ c.Calls s s' ∧
      (c.Ranks le → (∀ k, i < k → k < i' → le (c.elem m k) (c.elem m lo)) ∧
        (i' < hi → le (c.elem m lo) (c.elem m i'))) := by
  induction fuel generalizing i s with
  | zero => omega
  | succ fuel ih =>
    rw [scanup]
    dsimp only
    rw [place_succ]
    by_cases hpn : i + 1 < hi
    · have hcall : c.Calls s (c.cmp s m (c.place (i + 1)) (c.place lo)).2 :=
        .call hm (by omega) (by omega)
      rw [if_pos (place_lt.mpr hpn)]
      by_cases hc : (c.cmp s m (c.place (i + 1)) (c.place lo)).1 < 0
      · rw [if_pos hc]
        obtain ⟨i', s', hrun, hi', hcalls, hrank⟩ := ih _ (i := i + 1) ⟨by omega, hpn⟩ (by omega)
        refine ⟨i', s', hrun, by omega, hcall.trans hcalls, fun hle => ⟨fun k hk hk' => ?_, (hrank hle).2⟩⟩
        rcases Nat.eq_or_lt_of_le hk with rfl | hk
        · exact hle.of_less hm (by omega) (by omega) hc
        · exact (hrank hle).1 k hk hk'
      · rw [if_neg hc]
        exact ⟨i + 1, _, rfl, by omega, hcall, fun hle =>
          ⟨fun k _ _ => by omega, fun _ => hle.of_not_less hm (by omega) (by omega) hc⟩⟩
    · rw [if_neg (mt place_lt.mp hpn)]
      exact ⟨i + 1, s, rfl, by omega, .refl, fun _ => ⟨fun k _ _ => by omega, fun _ => by omega⟩⟩

theorem scandown_spec (hm : c.Kept m) (hpj : lo < j ∧ j ≤ hi) (hn : hi ≤ c.n) (hfuel : j - lo ≤ fuel) :
    ∃ j' s', scandown ⟨c.cmp, swap, c.es⟩ (c.place lo) m fuel (c.place j) s = some (c.place j', s') ∧
      (lo ≤ j' ∧ j' < j) ∧ c.Calls s s' ∧
      (c.Ranks le → (∀ k, j' < k → k < j → le (c.elem m lo) (c.elem m k)) ∧
        (lo < j' → le (c.elem m j') (c.elem m lo))) := by
  induction fuel generalizing j s with
  | zero => omega
  | succ fuel ih =>
    rw [scandown]
    dsimp only
    rw [place_pred (by omega)]
    by_cases hpn : lo < j - 1
    · have hcall : c.Calls s (c.cmp s m (c.place (j - 1)) (c.place lo)).2 :=
        .call hm (by omega) (by omega)
      rw [if_pos (place_lt.mpr hpn)]
      by_cases hc : (c.cmp s m (c.place (j - 1)) (c.place lo)).1 > 0
      · rw [if_pos hc]
        obtain ⟨j', s', hrun, hj', hcalls, hrank⟩ := ih _ (j := j - 1) ⟨hpn, by omega⟩ (by omega)
        refine ⟨j', s', hrun, by omega, hcall.trans hcalls, fun hle => ⟨fun k hk hk' => ?_, (hrank hle).2⟩⟩
        rcases Nat.eq_or_lt_of_le (show k ≤ j - 1 by omega) with rfl | hk'
        · exact hle.of_greater hm (by omega) (by omega) hc
        · exact (hrank hle).1 k hk hk'
      · rw [if_neg hc]
        exact ⟨j - 1, _, rfl, by omega, hcall, fun hle =>
          ⟨fun k _ _ => by omega, fun _ => hle.of_not_greater hm (by omega) (by omega) hc⟩⟩
    · rw [if_neg (mt place_lt.mp hpn)]
      exact ⟨j - 1, s, rfl, by omega, .refl, fun _ => ⟨fun k _ _ => by omega, fun _ => by omega⟩⟩

variable {swap}

/-- The scans leave what is at most the pivot below, and what is at least the pivot above. -/
theorem partition_spec (hswap : Swaps c.es swap) (hm : c.Kept m) (hn : lo + n ≤ c.n)
    (hpi : lo ≤ i ∧ i < lo + n) (hpj : lo < j ∧ j ≤ lo + n) (hfuel : lo + n - i ≤ fuel) :
    ∃ q s' m', partition ⟨c.cmp, swap, c.es⟩ (c.place lo) n fuel (c.place i) (c.place j) s m =
        some (c.place q, s', m') ∧
      (lo ≤ q ∧ q < lo + n) ∧ c.Moved (lo + 1) (lo + n) s m s' m' ∧
      (c.Ranks le → (∀ k, lo < k → k ≤ i → le (c.elem m k) (c.elem m lo)) →
        (∀ k, j ≤ k → k < lo + n → le (c.elem m lo) (c.elem m k)) →
        (∀ k, lo < k → k ≤ q → le (c.elem m' k) (c.elem m' lo)) ∧
          ∀ k, q < k → k < lo + n → le (c.elem m' lo) (c.elem m' k)) := by
  induction fuel generalizing i j s m with
  | zero => omega
  | succ fuel ih =>
    obtain ⟨i', s₁, hup, hi', hcalls₁, hrank₁⟩ :=
      scanup_spec s swap le hm hpi hn (show lo + n - i ≤ n + 1 by omega)
    obtain ⟨j', s₂, hdown, hj', hcalls₂, hrank₂⟩ :=
      scandown_spec s₁ swap le hm hpj hn (show j - lo ≤ n + 1 by omega)
    rw [partition, place_add, hup, Option.bind_some]
    dsimp only
    rw [hdown, Option.bind_some]
    dsimp only
    by_cases hmet : j' < i'
    · rw [if_pos (place_lt.mpr hmet)]
      refine ⟨j', s₂, m, rfl, by omega, (Moved.refl hm).after (hcalls₁.trans hcalls₂), fun hle hlow hhigh => ⟨?_, ?_⟩⟩
      · intro k hk hkq
        rcases Nat.lt_or_ge i k with hik | hik
        · exact (hrank₁ hle).1 k hik (by omega)
        · exact hlow k hk hik
      · intro k hk hkn
        rcases Nat.lt_or_ge k j with hkj | hkj
        · exact (hrank₂ hle).1 k hk hkj
        · exact hhigh k hkj hkn
    · obtain ⟨m₁, hrun, hmoved, helem⟩ := swap_moved (lo + 1) (lo + n) i' j' hswap hm
        (by omega) (by omega) hn s₂
      obtain ⟨q, s', m', hrest, hq, hmoved', hrank⟩ := ih s₂ (i := i') (j := j') hmoved.kept (by omega)
        (by omega) (by omega)
      have hlo : c.elem m₁ lo = c.elem m lo := by
        rw [helem, Equiv.swap_apply_of_ne_of_ne (by omega) (by omega)]
      rw [if_neg (mt place_lt.mp hmet), hrun, Option.bind_some, hrest]
      refine ⟨q, s', m', rfl, hq, .after (hcalls₁.trans hcalls₂) (hmoved.trans hmoved'),
        fun hle hlow hhigh => hrank hle ?_ ?_⟩
      · intro k hk hki
        rw [hlo, helem]
        rcases Nat.eq_or_lt_of_le hki with rfl | hki
        · rw [Equiv.swap_apply_left]
          exact (hrank₂ hle).2 (by omega)
        · rw [Equiv.swap_apply_of_ne_of_ne (by omega) (by omega)]
          rcases Nat.lt_or_ge i k with hik | hik
          · exact (hrank₁ hle).1 k hik hki
          · exact hlow k hk hik
      · intro k hk hkn
        rw [hlo, helem]
        rcases Nat.eq_or_lt_of_le hk with rfl | hk
        · rw [Equiv.swap_apply_right]
          exact (hrank₁ hle).2 (by omega)
        · rw [Equiv.swap_apply_of_ne_of_ne (by omega) (by omega)]
          rcases Nat.lt_or_ge k j with hkj | hkj
          · exact (hrank₂ hle).1 k hk hkj
          · exact hhigh k hkj hkn

variable (swap)

/-- The pivot is one of the elements. -/
theorem pivot_spec (hm : c.Kept m) (hn : lo + n ≤ c.n) (hpos : 0 < n) :
    ∃ i s', pivot ⟨c.cmp, swap, c.es⟩ (c.place lo) n s m = (c.place i, s') ∧
      (lo ≤ i ∧ i < lo + n) ∧ c.Calls s s' := by
  have hpk : c.place (lo + n / 6 + (n / 6 + n / 6)) + (n / 6 * c.es + n / 6 * c.es) =
      c.place (lo + n / 6 + (n / 6 + n / 6) + (n / 6 + n / 6)) := by
    rw [← Nat.add_mul, place_add]
  have hpj : c.place (lo + n / 6) + (n / 6 * c.es + n / 6 * c.es) = c.place (lo + n / 6 + (n / 6 + n / 6)) := by
    rw [← Nat.add_mul, place_add]
  have hcall (a b : ℕ) (s : σ) (ha : a < lo + n) (hb : b < lo + n) :
      c.Calls s (c.cmp s m (c.place a) (c.place b)).2 := .call hm (by omega) (by omega)
  simp only [pivot, place_add, hpj, hpk]
  generalize hpi : lo + n / 6 = pi
  generalize hpj : pi + (n / 6 + n / 6) = pj
  generalize hpk : pj + (n / 6 + n / 6) = pk
  split_ifs
  · exact ⟨pj, _, rfl, by omega, ((hcall _ _ _ (by omega) (by omega)).trans (hcall _ _ _ (by omega) (by omega))).trans
      (hcall _ _ _ (by omega) (by omega))⟩
  · exact ⟨pk, _, rfl, by omega, ((hcall _ _ _ (by omega) (by omega)).trans (hcall _ _ _ (by omega) (by omega))).trans
      (hcall _ _ _ (by omega) (by omega))⟩
  · exact ⟨pi, _, rfl, by omega, (hcall _ _ _ (by omega) (by omega)).trans (hcall _ _ _ (by omega) (by omega))⟩
  · exact ⟨pi, _, rfl, by omega, ((hcall _ _ _ (by omega) (by omega)).trans (hcall _ _ _ (by omega) (by omega))).trans
      (hcall _ _ _ (by omega) (by omega))⟩
  · exact ⟨pk, _, rfl, by omega, ((hcall _ _ _ (by omega) (by omega)).trans (hcall _ _ _ (by omega) (by omega))).trans
      (hcall _ _ _ (by omega) (by omega))⟩
  · exact ⟨pj, _, rfl, by omega, (hcall _ _ _ (by omega) (by omega)).trans (hcall _ _ _ (by omega) (by omega))⟩

/-- What a turn of `qsorts` takes for the pivot. -/
theorem chosen_spec (hm : c.Kept m) (hn : lo + n ≤ c.n) (hpos : 0 < n) :
    ∃ i s', (if n > 10 then pivot ⟨c.cmp, swap, c.es⟩ (c.place lo) n s m else (c.place lo + n / 2 * c.es, s)) =
        (c.place i, s') ∧ (lo ≤ i ∧ i < lo + n) ∧ c.Calls s s' := by
  split_ifs
  · exact pivot_spec s swap hm hn hpos
  · exact ⟨lo + n / 2, s, by rw [place_add], by omega, .refl⟩

variable {swap le}

/-- Around the pivot that was put back between the parts. -/
theorem around_pivot {q : ℕ} (hq : lo ≤ q ∧ q < hi) (helem : ∀ k, c.elem m' k = c.elem m (Equiv.swap lo q k))
    (hbelow : ∀ k, lo < k → k ≤ q → le (c.elem m k) (c.elem m lo))
    (habove : ∀ k, q < k → k < hi → le (c.elem m lo) (c.elem m k)) :
    (∀ k, lo ≤ k ∧ k < q → le (c.elem m' k) (c.elem m' q)) ∧
      ∀ k, q + 1 ≤ k ∧ k < hi → le (c.elem m' q) (c.elem m' k) := by
  have hpivot : c.elem m' q = c.elem m lo := by rw [helem, Equiv.swap_apply_right]
  constructor
  · intro k hk
    rw [hpivot, helem]
    rcases Nat.eq_or_lt_of_le hk.1 with rfl | hlt
    · rw [Equiv.swap_apply_left]
      exact hbelow q hk.2 (Nat.le_refl _)
    · rw [Equiv.swap_apply_of_ne_of_ne (by omega) (by omega)]
      exact hbelow k hlt (by omega)
  · intro k hk
    rw [hpivot, helem, Equiv.swap_apply_of_ne_of_ne (by omega) (by omega)]
    exact habove k (by omega) hk.2

variable (le)

/-- The parts are sorted one after the other, the larger one first. -/
theorem qsorts_spec (hswap : Swaps c.es swap) (hm : c.Kept m) (hn : lo + n ≤ c.n) (hfuel : n < fuel) :
    ∃ s' m', qsorts ⟨c.cmp, swap, c.es⟩ fuel (c.place lo) n s m = some (s', m') ∧
      c.Moved lo (lo + n) s m s' m' ∧ (c.Ranks le → Nondecreasing le lo (lo + n) (c.elem m')) := by
  induction fuel generalizing lo n s m with
  | zero => omega
  | succ fuel ih =>
    rw [qsorts]
    by_cases hpos : n > 1
    · obtain ⟨i, s₁, hchosen, hi, hcalls⟩ := chosen_spec s swap hm hn (by omega)
      obtain ⟨m₁, hrun₁, hmoved₁, -⟩ := swap_moved lo (lo + n) lo i hswap hm (by omega) hi hn s₁
      obtain ⟨q, s₂, m₂, hrun₂, hq, hmoved₂, hrank⟩ := partition_spec s₁ le hswap hmoved₁.kept hn
        (i := lo) (j := lo + n) (by omega) (by omega) (show lo + n - lo ≤ n + 1 by omega)
      obtain ⟨m₃, hrun₃, hmoved₃, helem⟩ := swap_moved lo (lo + n) lo q hswap hmoved₂.kept (by omega) hq hn s₂
      have hparted (hle : c.Ranks le) := around_pivot hq helem
        (hrank hle (fun k _ _ => by omega) (fun k _ _ => by omega)).1
        (hrank hle (fun k _ _ => by omega) (fun k _ _ => by omega)).2
      have hsofar : c.Moved lo (lo + n) s m s₂ m₃ :=
        .after hcalls (hmoved₁.trans ((hmoved₂.mono (Nat.le_succ lo) (Nat.le_refl _)).trans hmoved₃))
      have hstart : lo + (q - lo + 1) = q + 1 := by omega
      have hend : lo + (q - lo) = q := by omega
      have hend' : q + 1 + (n - (q - lo + 1)) = lo + n := by omega
      dsimp only
      rw [if_pos hpos, hchosen]
      dsimp only
      rw [hrun₁, Option.bind_some, place_add, hrun₂, Option.bind_some]
      dsimp only
      rw [hrun₃, Option.bind_some, place_index, place_add, hstart]
      by_cases hlarger : q - lo ≥ n - (q - lo + 1)
      · obtain ⟨s₄, m₄, hrun₄, hmoved₄, hsorted₄⟩ := ih s₂ hmoved₃.kept
          (show lo + (q - lo) ≤ c.n by omega) (by omega)
        obtain ⟨s₅, m₅, hrun₅, hmoved₅, hsorted₅⟩ := ih s₄ hmoved₄.kept
          (show q + 1 + (n - (q - lo + 1)) ≤ c.n by omega) (by omega)
        rw [hend] at hmoved₄ hsorted₄
        rw [hend'] at hmoved₅ hsorted₅
        rw [if_pos hlarger, hrun₄, Option.bind_some]
        refine ⟨s₅, m₅, hrun₅, hsofar.trans ((hmoved₄.mono (Nat.le_refl _) (by omega)).trans (hmoved₅.mono (by omega) (Nat.le_refl _))),
          fun hle => ?_⟩
        exact .below_above hle.refl hle.trans (hparted hle).1 (hparted hle).2 hmoved₄.rearranged (hsorted₄ hle)
          hmoved₅.rearranged (hsorted₅ hle)
      · obtain ⟨s₄, m₄, hrun₄, hmoved₄, hsorted₄⟩ := ih s₂ hmoved₃.kept
          (show q + 1 + (n - (q - lo + 1)) ≤ c.n by omega) (by omega)
        obtain ⟨s₅, m₅, hrun₅, hmoved₅, hsorted₅⟩ := ih s₄ hmoved₄.kept
          (show lo + (q - lo) ≤ c.n by omega) (by omega)
        rw [hend'] at hmoved₄ hsorted₄
        rw [hend] at hmoved₅ hsorted₅
        rw [if_neg hlarger, hrun₄, Option.bind_some]
        refine ⟨s₅, m₅, hrun₅, hsofar.trans ((hmoved₄.mono (by omega) (Nat.le_refl _)).trans (hmoved₅.mono (Nat.le_refl _) (by omega))),
          fun hle => ?_⟩
        exact .above_below hle.refl hle.trans (hparted hle).1 (hparted hle).2 hmoved₄.rearranged (hsorted₄ hle)
          hmoved₅.rearranged (hsorted₅ hle)
    · rw [if_neg hpos]
      refine ⟨s, m, rfl, .refl hm, fun hle i j hi hij hj => ?_⟩
      obtain rfl : i = j := by omega
      exact hle.refl _

end Request

/-- For any comparison, also an inconsistent one, `qsort` ends with the same elements in another order,
and has called the comparison on elements only; for a total preorder the elements are in order. -/
theorem qsort_sorts {σ : Type*} (c : Request σ) (s : σ) :
    ∃ s' m', qsort c.va c.n c.es c.cmp s c.m = some (s', m') ∧ c.Kept m' ∧ c.Calls s s' ∧
      ((List.range c.n).map (c.elem m')).Perm ((List.range c.n).map (c.elem c.m)) ∧
      ∀ le, c.Ranks le → Nondecreasing le 0 c.n (c.elem m') := by
  have hrun (le : c.Elem → c.Elem → Prop) := Request.qsorts_spec s le (swap_swaps c.va c.es_pos)
    Request.Kept.self (show 0 + c.n ≤ c.n by omega) (Nat.lt_succ_self c.n)
  have hva : c.place 0 = c.va := by rw [Request.place, Nat.zero_mul, Nat.add_zero]
  simp only [hva, Nat.zero_add] at hrun
  obtain ⟨s', m', hresult, hmoved, -⟩ := hrun fun _ _ => True
  refine ⟨s', m', hresult, hmoved.kept, hmoved.calls, hmoved.rearranged.perm, fun le hle => ?_⟩
  obtain ⟨s'', m'', hresult', -, hsorted⟩ := hrun le
  obtain ⟨rfl, rfl⟩ : s' = s'' ∧ m' = m'' := by simpa using hresult.symm.trans hresult'
  exact hsorted hle

end Petele.Libc
