import Petele.Libc.Rune
import Petele.Libc.Token

namespace Petele.Libc

def Slash : UInt8 := 0x2F

def Dot : UInt8 := 0x2E

def SEP (x : UInt8) : Bool := x = Slash || x = 0

/-- A byte is written to the name, if it is one of its bytes. -/
def put (b : List UInt8) (i : ℕ) (x : UInt8) : Option (List UInt8) :=
  if i < b.length then some (b.set i x) else none

section Code

/-- The runes of a device name. All loops here have `fuel` turns at most, which is more than the name has
bytes. There is no result where a byte outside is read or written. -/
def skiprunes : ℕ → List UInt8 → ℕ → Option ℕ
  | 0, _, d0 => some d0
  | fuel + 1, b, d0 => do
    let c ← b[d0]?
    if SEP c then some d0
    else do
      let r ← chartorune (b.drop d0)
      skiprunes fuel b (d0 + r.2)

/-- Where the path begins after the root, and whether there is one; nothing for the name `#`. The test
after the loop compares a pointer into the name with nil. -/
def rootname (b : List UInt8) : Option (Option (ℕ × Bool)) := do
  let c ← b[0]?
  if c = 0x23 then do
    let c ← b[1]?
    if c = 0 then some none
    else do
      let r ← chartorune (b.drop 1)
      let d0 ← skiprunes b.length b (1 + r.2)
      some (some (d0 + 1, true))
  else if c = Slash then some (some (1, true))
  else some (some (0, false))

def skipslashes : ℕ → List UInt8 → ℕ → Option ℕ
  | 0, _, s => some s
  | fuel + 1, b, s => do
    let c ← b[s]?
    if c = Slash then skipslashes fuel b (s + 1) else some s

/-- The last of the slashes behind `s`. -/
def lastslash : ℕ → List UInt8 → ℕ → Option ℕ
  | 0, _, s => some s
  | fuel + 1, b, s => do
    let c ← b[s + 1]?
    if c = Slash then lastslash fuel b (s + 1) else some s

/-- The loop that removes slashes: the name, and where its copy ends. -/
def squeeze : ℕ → List UInt8 → ℕ → ℕ → Option (List UInt8 × ℕ)
  | 0, b, _, d => some (b, d)
  | fuel + 1, b, s, d => do
    let c ← b[s]?
    if c = 0 then some (b, d)
    else do
      let b ← put b d c
      let c ← b[s]?
      let s ← (if c = Slash then lastslash b.length b s else some s)
      squeeze fuel b (s + 1) (d + 1)

/-- What a turn of the last loop does: it ends, goes on without a copy or copies an element. -/
inductive Turn
  | stop (d : ℕ)
  | skip (s d : ℕ)
  | copy (d0 : ℕ)

/-- The end of the element before that which ends at `d + 1`. -/
def unelem (b : List UInt8) (d0 : ℕ) : ℕ → Option ℕ
  | 0 => some 0
  | d + 1 =>
    if d0 < d + 1 then do
      let c ← b[d]?
      if c ≠ Slash then unelem b d0 d else some (d + 1)
    else some (d + 1)

/-- The case of two dots with `c` behind them. A failed assertion ends the program. -/
def dotdot (rooted : Bool) (b : List UInt8) (s d d0 : ℕ) (c : UInt8) : Option Turn :=
  if d = d0 ∧ rooted then some (if c = 0 then .stop d else .skip (s + 3) d)
  else
    let d0 := if d = d0 then d0 + 3 else d0
    if d0 < d then do
      let x ← (if d0 + 2 ≤ d then b[d - 1]? else none)
      if x = Slash then do
        let d ← unelem b d0 (d - 2)
        some (if c = 0 then .stop d else .skip (s + 3) d)
      else none
    else some (.copy d0)

def turn (rooted : Bool) (b : List UInt8) (s d d0 : ℕ) : Option Turn := do
  let c ← b[s]?
  if c = 0 then some (.stop d)
  else if c = Dot then do
    let c1 ← b[s + 1]?
    if SEP c1 then some (if c1 = 0 then .stop d else .skip (s + 2) d)
    else if c1 = Dot then do
      let c2 ← b[s + 2]?
      if SEP c2 then dotdot rooted b s d d0 c2 else some (.copy d0)
    else some (.copy d0)
  else some (.copy d0)

def copyelem : ℕ → List UInt8 → ℕ → ℕ → Option (List UInt8 × ℕ × ℕ)
  | 0, b, s, d => some (b, s, d)
  | fuel + 1, b, s, d => do
    let c ← b[s]?
    if SEP c then some (b, s, d)
    else do
      let b ← put b d c
      copyelem fuel b (s + 1) (d + 1)

def compress (rooted : Bool) : ℕ → List UInt8 → ℕ → ℕ → ℕ → Option (List UInt8 × ℕ)
  | 0, b, _, d, _ => some (b, d)
  | fuel + 1, b, s, d, d0 => do
    match ← turn rooted b s d d0 with
    | .stop d => some (b, d)
    | .skip s d => compress rooted fuel b s d d0
    | .copy d0 => do
      let (b, s, d) ← copyelem b.length b s d
      let c ← b[s]?
      if c = 0 then some (b, d)
      else do
        let b ← put b d c
        compress rooted fuel b (s + 1) (d + 1) d0

def putdot (b : List UInt8) : Option (List UInt8) := do
  let b ← put b 0 Dot
  put b 1 0

/-- The end of `cleanname`: a slash at the end goes, and an empty name becomes a dot. -/
def endname (b : List UInt8) (d : ℕ) : Option (List UInt8) := do
  let b ← put b d 0
  let b ← (if 2 ≤ d then do
      let c ← b[d - 1]?
      if c = Slash then put b (d - 1) 0 else some b
    else some b)
  let c ← b[0]?
  if c = 0 then putdot b else some b

/-- The bytes of the name with its terminator, as they are afterwards. -/
def cleanname (name : List UInt8) : Option (List UInt8) := do
  let c ← name[0]?
  if c = 0 then putdot name
  else
    match ← rootname name with
    | none => some name
    | some (d0, rooted) => do
      let s ← (if rooted then skipslashes name.length name d0 else some d0)
      let (b, d) ← squeeze name.length name s d0
      let b ← put b d 0
      let (b, d) ← compress rooted b.length b d0 d0 d0
      endname b d

end Code

section Bytes

variable {b b' : List UInt8} {i lo hi : ℕ} {x : UInt8}

/-- The bytes below `lo` and those from `hi` on are as they were. -/
structure Keeps (b b' : List UInt8) (lo hi : ℕ) : Prop where
  length : b'.length = b.length
  below : ∀ i, i < lo → b'[i]? = b[i]?
  above : ∀ i, hi ≤ i → b'[i]? = b[i]?

theorem Keeps.refl (b : List UInt8) (lo hi : ℕ) : Keeps b b lo hi := ⟨rfl, fun _ _ => rfl, fun _ _ => rfl⟩

theorem Keeps.trans {b'' : List UInt8} {lo' hi' : ℕ} (h : Keeps b b' lo hi) (h' : Keeps b' b'' lo' hi')
    (hlo : lo ≤ lo') (hhi : hi ≤ hi') : Keeps b b'' lo hi' :=
  ⟨h'.length.trans h.length, fun i hi => (h'.below i (by omega)).trans (h.below i hi),
    fun i hi => (h'.above i hi).trans (h.above i (by omega))⟩

theorem put_eq (x : UInt8) (h : i < b.length) : put b i x = some (b.set i x) := if_pos h

theorem keeps_set (b : List UInt8) (i : ℕ) (x : UInt8) : Keeps b (b.set i x) i (i + 1) :=
  ⟨List.length_set, fun j hj => List.getElem?_set_ne (by omega), fun j hj => List.getElem?_set_ne (by omega)⟩

theorem exists_byte (h : i < b.length) : ∃ x, b[i]? = some x := ⟨b[i], List.getElem?_eq_getElem h⟩

end Bytes

section Source

variable {b b' : List UInt8} {s e d d0 : ℕ}

/-- A name from `s` to its terminator at `e`. -/
structure Named (b : List UInt8) (s e : ℕ) : Prop where
  le : s ≤ e
  lt : e < b.length
  stop : b[e]? = some 0
  nonzero : ∀ i, s ≤ i → i < e → b[i]? ≠ some 0

/-- The slashes are single, and none is the first byte. -/
structure Elements (b : List UInt8) (s e : ℕ) : Prop where
  first : s < e → b[s]? ≠ some Slash
  single : ∀ i, s ≤ i → i + 1 < e → b[i]? = some Slash → b[i + 1]? ≠ some Slash

/-- Elements with a slash behind each. -/
structure Written (b : List UInt8) (d0 d : ℕ) : Prop where
  le : d0 ≤ d
  last : d0 < d → b[d - 1]? = some Slash
  single : ∀ i, d0 ≤ i → i < d → b[i]? = some Slash → d0 < i ∧ b[i - 1]? ≠ some Slash

theorem Named.mono (h : Named b s e) {t : ℕ} (hst : s ≤ t) (hte : t ≤ e) : Named b t e :=
  ⟨hte, h.lt, h.stop, fun i hi => h.nonzero i (by omega)⟩

theorem Named.keeps (h : Named b s e) {lo hi : ℕ} (hk : Keeps b b' lo hi) (hhi : hi ≤ s) : Named b' s e :=
  ⟨h.le, hk.length ▸ h.lt, (hk.above e (hhi.trans h.le)).trans h.stop,
    fun i hi hie => by
      rw [hk.above i (by omega)]
      exact h.nonzero i hi hie⟩

theorem Named.byte (h : Named b s e) : ∃ c, b[s]? = some c ∧ (c = 0 ↔ s = e) := by
  have hle := h.le
  have hlt := h.lt
  obtain ⟨c, hc⟩ := exists_byte (b := b) (i := s) (by omega)
  refine ⟨c, hc, ⟨fun hzero => ?_, fun heq => ?_⟩⟩
  · by_contra hne
    exact h.nonzero s le_rfl (by omega) (hzero ▸ hc)
  · rw [heq, h.stop] at hc
    exact (Option.some.inj hc).symm

theorem Elements.mono (h : Elements b s e) {t : ℕ} (hst : s ≤ t) (hslash : b[t]? = some Slash) :
    Elements b (t + 1) e :=
  ⟨fun hlt => h.single t hst hlt hslash, fun i hi => h.single i (by omega)⟩

theorem Elements.keeps (h : Elements b s e) {lo hi : ℕ} (hk : Keeps b b' lo hi) (hhi : hi ≤ s) : Elements b' s e := by
  refine ⟨fun hlt => ?_, fun i hi hie => ?_⟩
  · rw [hk.above s hhi]
    exact h.first hlt
  · rw [hk.above i (by omega), hk.above (i + 1) (by omega)]
    exact h.single i hi hie

theorem Written.start (b : List UInt8) (d : ℕ) : Written b d d :=
  ⟨le_rfl, fun h => absurd h (lt_irrefl d), fun i hi hid => absurd hid (not_lt.mpr hi)⟩

end Source

section Loops

variable {b b' : List UInt8} {s e d d0 : ℕ}

theorem skipslashes_spec (fuel : ℕ) (h : Named b s e) (hfuel : e - s < fuel) :
    ∃ t, skipslashes fuel b s = some t ∧ s ≤ t ∧ t ≤ e ∧ b[t]? ≠ some Slash := by
  induction fuel generalizing s with
  | zero => omega
  | succ fuel ih =>
    obtain ⟨c, hc, hzero⟩ := h.byte
    rw [skipslashes, hc, Option.bind_eq_bind, Option.bind_some]
    by_cases hslash : c = Slash
    · have hne : s ≠ e := fun heq => by
        rw [hzero.mpr heq] at hslash
        exact absurd hslash (by decide)
      have hle := h.le
      obtain ⟨t, ht, hst, hte, hnot⟩ := ih (h.mono (Nat.le_succ s) (by omega)) (by omega)
      rw [if_pos hslash]
      exact ⟨t, ht, by omega, hte, hnot⟩
    · rw [if_neg hslash]
      exact ⟨s, rfl, le_rfl, h.le, by rw [hc]; simpa using hslash⟩

theorem lastslash_spec (fuel : ℕ) (h : Named b (s + 1) e) (hfuel : e - s < fuel) :
    ∃ t, lastslash fuel b s = some t ∧ s ≤ t ∧ t + 1 ≤ e ∧ b[t + 1]? ≠ some Slash := by
  induction fuel generalizing s with
  | zero => omega
  | succ fuel ih =>
    obtain ⟨c, hc, hzero⟩ := h.byte
    rw [lastslash, hc, Option.bind_eq_bind, Option.bind_some]
    by_cases hslash : c = Slash
    · have hne : s + 1 ≠ e := fun heq => by
        rw [hzero.mpr heq] at hslash
        exact absurd hslash (by decide)
      have hle := h.le
      obtain ⟨t, ht, hst, hte, hnot⟩ := ih (h.mono (Nat.le_succ _) (by omega)) (by omega)
      rw [if_pos hslash]
      exact ⟨t, ht, by omega, hte, hnot⟩
    · rw [if_neg hslash]
      exact ⟨s, rfl, le_rfl, h.le, by rw [hc]; simpa using hslash⟩

/-- The bytes copied so far by `squeeze`. -/
structure Squeezed (b : List UInt8) (d0 d s e : ℕ) : Prop where
  le : d0 ≤ d
  nonzero : ∀ i, d0 ≤ i → i < d → b[i]? ≠ some 0
  first : d0 < d → b[d0]? ≠ some Slash
  single : ∀ i, d0 ≤ i → i + 1 < d → b[i]? = some Slash → b[i + 1]? ≠ some Slash
  next : s < e → d = d0 ∨ b[d - 1]? = some Slash → b[s]? ≠ some Slash

theorem squeeze_spec (fuel : ℕ) (h : Named b s e) (hd : d ≤ s) (hs : Squeezed b d0 d s e) (hfuel : e - s < fuel) :
    ∃ b' d', squeeze fuel b s d = some (b', d') ∧ b'.length = b.length ∧ d' ≤ e ∧ Squeezed b' d0 d' e e := by
  induction fuel generalizing b s d with
  | zero => omega
  | succ fuel ih =>
    have hle := h.le
    have hlt := h.lt
    obtain ⟨c, hc, hzero⟩ := h.byte
    rw [squeeze, hc, Option.bind_eq_bind, Option.bind_some]
    by_cases hc0 : c = 0
    · obtain rfl := hzero.mp hc0
      rw [if_pos hc0]
      exact ⟨b, d, rfl, rfl, hd, hs⟩
    · have hse : s ≠ e := mt hzero.mpr hc0
      have hk := keeps_set b d c
      have hsame : (b.set d c)[s]? = some c := by
        rcases Nat.lt_or_ge d s with hds | hds
        · rw [hk.above s hds, hc]
        · rw [Nat.le_antisymm hd hds, List.getElem?_set_self (by omega)]
      have hplace : (b.set d c)[d]? = some c := List.getElem?_set_self (by omega)
      have hnamed : Named (b.set d c) (s + 1) e := (h.mono (Nat.le_succ s) (by omega)).keeps hk (by omega)
      -- where the source goes on
      obtain ⟨t, ht, hst, hte, hnot⟩ : ∃ t, (if c = Slash then lastslash (b.set d c).length (b.set d c) s
          else some s) = some t ∧ s ≤ t ∧ t + 1 ≤ e ∧ (c = Slash → (b.set d c)[t + 1]? ≠ some Slash) := by
        by_cases hslash : c = Slash
        · obtain ⟨t, ht, hst, hte, hnot⟩ := lastslash_spec (b.set d c).length hnamed (by rw [List.length_set]; omega)
          exact ⟨t, by rw [if_pos hslash]; exact ht, hst, hte, fun _ => hnot⟩
        · exact ⟨s, if_neg hslash, le_rfl, by omega, fun h => absurd h hslash⟩
      simp only [if_neg hc0, put_eq c (show d < b.length by omega), Option.bind_eq_bind, Option.bind_some, hsame, ht]
      have hnext : Squeezed (b.set d c) d0 (d + 1) (t + 1) e := by
        have hd0 := hs.le
        refine ⟨by omega, fun i hi hid => ?_, fun _ => ?_, fun i hi hid hslash => ?_, fun _ hor => ?_⟩
        · rcases Nat.lt_or_ge i d with hlt | hge
          · rw [hk.below i hlt]
            exact hs.nonzero i hi hlt
          · rw [show i = d by omega, hplace]
            simpa using hc0
        · rcases Nat.lt_or_ge d0 d with hlt | hge
          · rw [hk.below d0 hlt]
            exact hs.first hlt
          · rw [show d0 = d by omega, hplace, ← hc]
            exact hs.next (by omega) (.inl (by omega))
        · rw [hk.below i (by omega)] at hslash
          rcases Nat.lt_or_ge (i + 1) d with hlt | hge
          · rw [hk.below (i + 1) hlt]
            exact hs.single i hi hlt hslash
          · rw [show i + 1 = d by omega, hplace, ← hc]
            exact hs.next (by omega) (.inr (by rwa [show d - 1 = i by omega]))
        · rcases hor with hor | hor
          · omega
          · rw [Nat.add_sub_cancel, hplace] at hor
            exact hnot (Option.some.inj hor)
      obtain ⟨b', d', hrun, hlen, hd', hs'⟩ := ih (hnamed.mono (by omega) hte) (by omega) hnext (by omega)
      exact ⟨b', d', hrun, hlen.trans List.length_set, hd', hs'⟩

theorem unelem_spec (d0 : ℕ) (hw : Written b d0 (d + 1)) (hlt : d < b.length) {k : ℕ} (hk : k ≤ d) (hd0 : d0 ≤ k) :
    ∃ t, unelem b d0 k = some t ∧ t ≤ k ∧ Written b d0 t := by
  induction k with
  | zero => exact ⟨0, rfl, le_rfl, by rw [show d0 = 0 by omega]; exact .start b 0⟩
  | succ k ih =>
    rw [unelem]
    split
    · obtain ⟨c, hc⟩ := exists_byte (b := b) (i := k) (by omega)
      rw [hc, Option.bind_eq_bind, Option.bind_some]
      by_cases hslash : c = Slash
      · rw [if_neg (not_not.mpr hslash)]
        refine ⟨k + 1, rfl, le_rfl, by omega, fun _ => by rw [Nat.add_sub_cancel, hc, hslash], fun i hi hik => ?_⟩
        exact hw.single i hi (by omega)
      · rw [if_pos hslash]
        obtain ⟨t, ht, htk, hwt⟩ := ih (by omega) (by omega)
        exact ⟨t, ht, by omega, hwt⟩
    · exact ⟨k + 1, rfl, le_rfl, by rw [show d0 = k + 1 by omega]; exact .start b _⟩

/-- A byte that ends no element. -/
theorem SEP_eq_false {c : UInt8} : SEP c = false ↔ c ≠ Slash ∧ c ≠ 0 := by
  simp [SEP]

theorem SEP_eq_true {c : UInt8} : SEP c = true ↔ c = Slash ∨ c = 0 := by
  simp [SEP]

theorem copyelem_spec (fuel : ℕ) (h : Named b s e) (hd : d ≤ s) (hfuel : e - s < fuel) :
    ∃ b' k, copyelem fuel b s d = some (b', s + k, d + k) ∧ Keeps b b' d (s + k) ∧ s + k ≤ e ∧
      (∀ i, d ≤ i → i < d + k → b'[i]? ≠ some Slash) ∧ (∀ i, s ≤ i → i < s + k → b[i]? ≠ some Slash) ∧
      (b[s + k]? = some Slash ∨ s + k = e) := by
  induction fuel generalizing b s d with
  | zero => omega
  | succ fuel ih =>
    have hle := h.le
    have hlt := h.lt
    obtain ⟨c, hc, hzero⟩ := h.byte
    rw [copyelem, hc, Option.bind_eq_bind, Option.bind_some]
    cases hsep : SEP c with
    | true =>
      refine ⟨b, 0, rfl, .refl b _ _, hle, fun i hi hid => by omega, fun i hi his => by omega, ?_⟩
      rcases SEP_eq_true.mp hsep with rfl | h0
      · exact .inl hc
      · exact .inr (hzero.mp h0)
    | false =>
      obtain ⟨hslash, hc0⟩ := SEP_eq_false.mp hsep
      have hse : s ≠ e := mt hzero.mpr hc0
      have hk := keeps_set b d c
      obtain ⟨b', k, hrun, hkeeps, hend, hnot, hnot', hstop⟩ :=
        ih ((h.mono (Nat.le_succ s) (by omega)).keeps hk (by omega)) (d := d + 1) (by omega) (by omega)
      have hshift : s.succ + k = s + (k + 1) := by omega
      rw [hshift] at hkeeps hend hstop hrun hnot'
      rw [Nat.add_right_comm, Nat.add_assoc] at hrun
      refine ⟨b', k + 1, ?_, hk.trans hkeeps (Nat.le_succ d) (by omega), hend, fun i hi hid => ?_,
        fun i hi his => ?_, ?_⟩
      · simp only [put_eq c (show d < b.length by omega), Option.bind_eq_bind, Option.bind_some, Bool.false_eq_true,
          if_false]
        exact hrun
      · rcases Nat.lt_or_ge d i with hdi | hdi
        · exact hnot i hdi (by omega)
        · rw [show i = d by omega, hkeeps.below d (Nat.lt_succ_self d), List.getElem?_set_self (by omega)]
          simpa using hslash
      · rcases Nat.lt_or_ge s i with hsi | hsi
        · rw [← hk.above i (by omega)]
          exact hnot' i hsi his
        · rw [show i = s by omega, hc]
          simpa using hslash
      · rw [← hk.above (s + (k + 1)) (by omega)]
        exact hstop

end Loops

section Turns

variable {rooted : Bool} {b : List UInt8} {s e d d0 : ℕ}

/-- What a turn may do in a name whose elements are copied from `s` to `d`. -/
def Turn.Fits (b : List UInt8) (s e d0 : ℕ) (d : ℕ) : Turn → Prop
  | .stop d' => d' ≤ d
  | .skip s' d' => s < s' ∧ s' ≤ e ∧ d' ≤ d ∧ b[s' - 1]? = some Slash ∧ Written b d0 d'
  | .copy d0' => s < e ∧ (d0' = d0 ∨ d = d0 ∧ d0' = d0 + 3 ∧ (s + 2 = e ∨ b[s + 2]? = some Slash) ∧
      b[s]? = some Dot ∧ b[s + 1]? = some Dot)

theorem dotdot_spec (h : Named b s e) (hd : d ≤ s) (hw : Written b d0 d) {c : UInt8} (hc : b[s + 2]? = some c)
    (hse : s + 2 ≤ e) (hsep : SEP c = true) (hdot : b[s]? = some Dot) (hdot' : b[s + 1]? = some Dot) :
    ∃ t, dotdot rooted b s d d0 c = some t ∧ t.Fits b s e d0 d := by
  have hlt := h.lt
  obtain ⟨c', hc', hzero⟩ := (h.mono (t := s + 2) (by omega) hse).byte
  obtain rfl : c = c' := Option.some.inj (hc.symm.trans hc')
  have hend : s + 2 = e ∨ b[s + 2]? = some Slash := by
    rcases SEP_eq_true.mp hsep with rfl | h0
    · exact .inr hc
    · exact .inl (hzero.mp h0)
  -- the name goes on behind the slash
  have hskip : ∀ d', d' ≤ d → Written b d0 d' →
      (if c = 0 then Turn.stop d' else .skip (s + 3) d').Fits b s e d0 d := by
    intro d' hd' hw'
    by_cases h0 : c = 0
    · rw [if_pos h0]
      exact hd'
    · rw [if_neg h0]
      have hne := mt hzero.mpr h0
      exact ⟨by omega, by omega, hd', hend.resolve_left hne, hw'⟩
  rw [dotdot]
  by_cases hroot : d = d0 ∧ rooted
  · rw [if_pos hroot]
    exact ⟨_, rfl, hskip d le_rfl hw⟩
  · rw [if_neg hroot]
    by_cases heq : d = d0
    · rw [if_pos heq]
      dsimp only
      rw [if_neg (by omega)]
      exact ⟨_, rfl, by omega, .inr ⟨heq, rfl, hend, hdot, hdot'⟩⟩
    · have hle := hw.le
      have hlast := hw.last (by omega)
      obtain ⟨hfar, -⟩ := hw.single (d - 1) (by omega) (by omega) hlast
      obtain ⟨t, ht, htd, hwt⟩ := unelem_spec (b := b) (d := d - 1) d0
        (by rwa [Nat.sub_add_cancel (by omega)]) (by omega) (k := d - 2) (by omega) (by omega)
      rw [if_neg heq]
      dsimp only
      rw [if_pos (by omega), if_pos (by omega), hlast]
      simp only [Option.bind_eq_bind, Option.bind_some, if_true, ht]
      exact ⟨_, rfl, hskip t (by omega) hwt⟩

theorem turn_spec (rooted : Bool) (h : Named b s e) (hd : d ≤ s) (hw : Written b d0 d) :
    ∃ t, turn rooted b s d d0 = some t ∧ t.Fits b s e d0 d := by
  have hlt := h.lt
  have hle := h.le
  obtain ⟨c, hc, hzero⟩ := h.byte
  rw [turn, hc, Option.bind_eq_bind, Option.bind_some]
  by_cases hc0 : c = 0
  · rw [if_pos hc0]
    exact ⟨_, rfl, le_rfl⟩
  · have hse : s ≠ e := mt hzero.mpr hc0
    have hcopy : (Turn.copy d0).Fits b s e d0 d := ⟨by omega, .inl rfl⟩
    rw [if_neg hc0]
    by_cases hdot : c = Dot
    · obtain ⟨c1, hc1, hzero1⟩ := (h.mono (Nat.le_succ s) (by omega)).byte
      rw [if_pos hdot, hc1, Option.bind_some]
      cases hsep : SEP c1 with
      | true =>
        rw [if_pos rfl]
        refine ⟨_, rfl, ?_⟩
        by_cases h10 : c1 = 0
        · rw [if_pos h10]
          exact le_rfl
        · rw [if_neg h10]
          have hne := mt hzero1.mpr h10
          exact ⟨by omega, by omega, le_rfl, hc1.trans (congrArg some ((SEP_eq_true.mp hsep).resolve_right h10)), hw⟩
      | false =>
        rw [if_neg Bool.false_ne_true]
        by_cases hdot' : c1 = Dot
        · have hne : s.succ ≠ e := fun heq => by
            rw [hzero1.mpr heq] at hdot'
            exact absurd hdot' (by decide)
          obtain ⟨c2, hc2, hzero2⟩ := (h.mono (t := s + 2) (by omega) (by omega)).byte
          rw [if_pos hdot', hc2, Option.bind_some]
          cases hsep2 : SEP c2 with
          | true =>
            rw [if_pos rfl]
            exact dotdot_spec h hd hw hc2 (by omega) hsep2 (hdot ▸ hc) (hdot' ▸ hc1)
          | false =>
            rw [if_neg Bool.false_ne_true]
            exact ⟨_, rfl, hcopy⟩
        · rw [if_neg hdot']
          exact ⟨_, rfl, hcopy⟩
    · rw [if_neg hdot]
      exact ⟨_, rfl, hcopy⟩

theorem compress_spec (rooted : Bool) (fuel : ℕ) (h : Named b s e) (hs : Elements b s e) (hd : d ≤ s) (hw : Written b d0 d)
    (hfuel : e - s < fuel) :
    ∃ b' d', compress rooted fuel b s d d0 = some (b', d') ∧ b'.length = b.length ∧ d' ≤ e := by
  induction fuel generalizing b s d d0 with
  | zero => omega
  | succ fuel ih =>
    have hle := h.le
    have hlt := h.lt
    obtain ⟨t, ht, hfits⟩ := turn_spec rooted h hd hw
    rw [compress, ht, Option.bind_eq_bind, Option.bind_some]
    cases t with
    | stop d' => exact ⟨b, d', rfl, rfl, hfits.trans (hd.trans hle)⟩
    | skip s' d' =>
      obtain ⟨hss', hs'e, hd'd, hslash, hw'⟩ := hfits
      have hs' := hs.mono (t := s' - 1) (by omega) hslash
      rw [Nat.sub_add_cancel (by omega)] at hs'
      exact ih (h.mono (by omega) hs'e) hs' (by omega) hw' (by omega)
    | copy d0' =>
      obtain ⟨hse, hd0'⟩ := hfits
      obtain ⟨b', k, hrun, hkeeps, hend, hnot, hnot', hstop⟩ := copyelem_spec b.length h hd (by omega)
      have hstep := hkeeps.above (s + k) le_rfl
      have hnamed : Named b' (s + k) e := (h.mono (by omega) hend).keeps hkeeps le_rfl
      obtain ⟨c, hc, hzero⟩ := hnamed.byte
      simp only [hrun, Option.bind_eq_bind, Option.bind_some, hc]
      by_cases hc0 : c = 0
      · rw [if_pos hc0]
        exact ⟨b', d + k, rfl, hkeeps.length, by omega⟩
      · have hne := mt hzero.mpr hc0
        have hslash : b[s + k]? = some Slash := hstop.resolve_right hne
        have hcs : c = Slash := Option.some.inj (hc.symm.trans (hstep.trans hslash))
        have hpos : 0 < k := by
          by_contra hk0
          rw [show k = 0 by omega] at hslash
          exact hs.first hse hslash
        have hplace : d + k < b'.length := by
          rw [hkeeps.length]
          omega
        have hset := keeps_set b' (d + k) c
        have hw' : Written (b'.set (d + k) c) d0' (d + k + 1) := by
          rcases hd0' with rfl | ⟨rfl, rfl, htwo, hdot, hdot'⟩
          · have hd0 := hw.le
            have hkept : ∀ i, i < d → (b'.set (d + k) c)[i]? = b[i]? := fun i hi =>
              (hset.below i (by omega)).trans (hkeeps.below i hi)
            have hold : ∀ i, d ≤ i → i < d + k → (b'.set (d + k) c)[i]? ≠ some Slash := fun i hi hik => by
              rw [hset.below i hik]
              exact hnot i hi hik
            refine ⟨by omega, fun _ => ?_, fun i hi hik hi' => ?_⟩
            · rw [Nat.add_sub_cancel, List.getElem?_set_self hplace, hcs]
            · rcases Nat.lt_or_ge i d with hid | hid
              · rw [hkept i hid] at hi'
                obtain ⟨hlow, hprev⟩ := hw.single i hi hid hi'
                exact ⟨hlow, by rwa [hkept (i - 1) (by omega)]⟩
              · rcases Nat.lt_or_ge i (d + k) with hik' | hik'
                · exact absurd hi' (hold i hid hik')
                · exact ⟨by omega, hold (i - 1) (by omega) (by omega)⟩
          · -- two dots are copied, and the path is taken to begin behind them
            have hk2 : k = 2 := by
              have hslash0 : (Dot : UInt8) ≠ Slash := by decide
              rcases Nat.lt_trichotomy k 2 with hlt2 | heq2 | hgt2
              · rw [show k = 1 by omega, hdot'] at hslash
                exact absurd (Option.some.inj hslash) hslash0
              · exact heq2
              · rcases htwo with htwo | htwo
                · omega
                · exact absurd htwo (hnot' (s + 2) (by omega) (by omega))
            subst hk2
            exact .start _ _
        obtain ⟨b'', d'', hrun'', hlen, hd''⟩ := ih ((hnamed.mono (Nat.le_succ _) (by omega)).keeps hset (by omega))
          (((hs.mono (t := s + k) (by omega) hslash).keeps hkeeps (Nat.le_succ _)).keeps hset (by omega))
          (by omega) hw' (by omega)
        rw [if_neg hc0, put_eq c hplace, Option.bind_some]
        exact ⟨b'', d'', hrun'', hlen.trans (hset.length.trans hkeeps.length), hd''⟩

end Turns

section Root

variable {s t : List UInt8}

/-- A device name with no slash behind its first byte. -/
def Slashless (s : List UInt8) : Prop := s.head? = some 0x23 ∧ 2 ≤ s.length ∧ Slash ∉ s.drop 2

instance (s : List UInt8) : Decidable (Slashless s) := inferInstanceAs (Decidable (_ ∧ _ ∧ _))

theorem named_of {s : List UInt8} (hs : 0 ∉ s) {i : ℕ} (hi : i ≤ s.length) : Named (s ++ [0]) i s.length := by
  refine ⟨hi, by simp, List.getElem?_concat_length, fun j hj hjs hzero => ?_⟩
  rw [List.getElem?_append_left hjs] at hzero
  exact hs (List.mem_of_getElem? hzero)

/-- A rune with a slash in it is a slash. -/
theorem chartorune_slash (x : UInt8) (t v : List UInt8) :
    ∃ r, chartorune (x :: t ++ 0 :: v) = some r ∧ 0 < r.2 ∧ r.2 ≤ t.length + 1 ∧ Slash ∉ t.take (r.2 - 1) := by
  obtain ⟨r, hr, hpos, hle, hcase⟩ := chartorune_ascii x t
  have happend := chartorune_append v hr
  rw [List.append_assoc, List.singleton_append] at happend
  refine ⟨r, happend, hpos, hle, fun hmem => ?_⟩
  rcases hcase with ⟨-, rfl⟩ | ⟨-, hhigh⟩
  · exact absurd hmem (by simp)
  · have hx := hhigh Slash (by
      rw [show r.2 = r.2 - 1 + 1 by omega, List.take_succ_cons]
      exact List.mem_cons_of_mem _ hmem)
    exact absurd hx (by decide)

/-- The slash of a list is in its rest if not in its beginning. -/
theorem mem_drop_of_not_mem_take {k : ℕ} (h : Slash ∉ t.take k) : Slash ∈ t.drop k ↔ Slash ∈ t := by
  conv_rhs => rw [← List.take_append_drop k t, List.mem_append]
  exact (or_iff_right h).symm

/-- A place in a name is its end, or a slash. -/
def Stop (q : List UInt8) (k : ℕ) : Prop := k = q.length ∨ ∃ a b, q = a ++ Slash :: b ∧ a.length = k

theorem Stop.append {q : List UInt8} {k : ℕ} (h : Stop q k) (p : List UInt8) : Stop (p ++ q) (p.length + k) := by
  rcases h with h | ⟨a, b, rfl, hk⟩
  · exact .inl (by rw [List.length_append, h])
  · exact .inr ⟨p ++ a, b, (List.append_assoc _ _ _).symm, by rw [List.length_append, hk]⟩

theorem skiprunes_spec (fuel : ℕ) (p q v : List UInt8) (hq : 0 ∉ q) (hfuel : q.length < fuel) :
    ∃ k, skiprunes fuel (p ++ (q ++ 0 :: v)) p.length = some (p.length + k) ∧ k ≤ q.length ∧
      (k = q.length ↔ Slash ∉ q) ∧ Stop q k := by
  induction fuel generalizing p q with
  | zero => omega
  | succ fuel ih =>
    cases q with
    | nil =>
      refine ⟨0, ?_, le_rfl, by simp, .inl rfl⟩
      rw [skiprunes, List.nil_append, List.getElem?_append_right le_rfl, Nat.sub_self]
      rfl
    | cons x t =>
      have hx : (p ++ (x :: t ++ 0 :: v))[p.length]? = some x := by
        rw [List.getElem?_append_right le_rfl, Nat.sub_self]
        rfl
      rw [skiprunes, hx, Option.bind_eq_bind, Option.bind_some]
      cases hsep : SEP x with
      | true =>
        have hslash : x = Slash := (SEP_eq_true.mp hsep).resolve_right fun h => hq (h ▸ List.mem_cons_self)
        refine ⟨0, rfl, Nat.zero_le _, iff_of_false (by simp) (not_not.mpr ?_), .inr ⟨[], t, by rw [hslash]; rfl, rfl⟩⟩
        rw [hslash]
        exact List.mem_cons_self
      | false =>
        obtain ⟨hslash, -⟩ := SEP_eq_false.mp hsep
        obtain ⟨r, hr, hpos, hle, hnot⟩ := chartorune_slash x t v
        rw [List.length_cons] at hfuel
        have hrest : 0 ∉ t.drop (r.2 - 1) := fun hmem => hq (List.mem_cons_of_mem _ (List.mem_of_mem_drop hmem))
        have hparts : x :: t = x :: t.take (r.2 - 1) ++ t.drop (r.2 - 1) := by
          rw [List.cons_append, List.take_append_drop]
        have hsplit : p ++ (x :: t ++ 0 :: v) = (p ++ x :: t.take (r.2 - 1)) ++ (t.drop (r.2 - 1) ++ 0 :: v) := by
          rw [hparts]
          simp only [List.append_assoc]
        have hrune : (x :: t.take (r.2 - 1)).length = r.2 := by
          simp only [List.length_cons, List.length_take]
          omega
        have hlen : (p ++ x :: t.take (r.2 - 1)).length = p.length + r.2 := by rw [List.length_append, hrune]
        obtain ⟨k, hrun, hk, hend, hstop⟩ := ih (p ++ x :: t.take (r.2 - 1)) (t.drop (r.2 - 1)) hrest
          (by rw [List.length_drop]; omega)
        rw [hlen, ← hsplit] at hrun
        rw [List.length_drop] at hk hend
        refine ⟨r.2 + k, ?_, by rw [List.length_cons]; omega, ?_, ?_⟩
        · rw [if_neg Bool.false_ne_true, List.drop_left, hr]
          exact hrun.trans (congrArg some (Nat.add_assoc _ _ _))
        · rw [mem_drop_of_not_mem_take hnot] at hend
          rw [List.length_cons, List.mem_cons, not_or, ← hend, and_iff_right (Ne.symm hslash)]
          omega
        · have h := hstop.append (x :: t.take (r.2 - 1))
          rwa [← hparts, hrune] at h

theorem rootname_device {x : UInt8} (v : List UInt8) (h : 0 ∉ x :: t) :
    ∃ d0, rootname (0x23 :: x :: t ++ 0 :: v) = some (some (d0 + 1, true)) ∧ d0 ≤ t.length + 2 ∧
      (d0 = t.length + 2 ↔ Slash ∉ t) ∧ Stop (0x23 :: x :: t) d0 := by
  obtain ⟨r, hr, hpos, hle, hnot⟩ := chartorune_slash x t v
  have hrest : 0 ∉ t.drop (r.2 - 1) := fun hmem => h (List.mem_cons_of_mem _ (List.mem_of_mem_drop hmem))
  have hx : x ≠ 0 := fun hx => h (hx ▸ List.mem_cons_self)
  have hparts : 0x23 :: x :: t = (0x23 :: x :: t.take (r.2 - 1)) ++ t.drop (r.2 - 1) := by
    rw [List.cons_append, List.cons_append, List.take_append_drop]
  have hsplit : 0x23 :: x :: t ++ 0 :: v = (0x23 :: x :: t.take (r.2 - 1)) ++ (t.drop (r.2 - 1) ++ 0 :: v) := by
    rw [← List.append_assoc, ← hparts]
  have hlen : ((0x23 : UInt8) :: x :: t.take (r.2 - 1)).length = 1 + r.2 := by
    simp only [List.length_cons, List.length_take]
    omega
  obtain ⟨k, hrun, hk, hend, hstop⟩ := skiprunes_spec (0x23 :: x :: t ++ 0 :: v).length (0x23 :: x :: t.take (r.2 - 1))
    (t.drop (r.2 - 1)) v hrest (by simp; omega)
  have hstop' := hstop.append (0x23 :: x :: t.take (r.2 - 1))
  rw [hlen, ← hparts] at hstop'
  rw [hlen, ← hsplit] at hrun
  rw [List.length_drop, mem_drop_of_not_mem_take hnot] at hend
  rw [List.length_drop] at hk
  refine ⟨1 + r.2 + k, ?_, by omega, by rw [← hend]; omega, hstop'⟩
  have hfirst : (0x23 :: x :: t ++ 0 :: v)[0]? = some 0x23 := rfl
  have hsecond : (0x23 :: x :: t ++ 0 :: v)[1]? = some x := rfl
  have hdrop : (0x23 :: x :: t ++ 0 :: v).drop 1 = x :: t ++ 0 :: v := rfl
  simp only [rootname, hfirst, hsecond, hdrop, Option.bind_eq_bind, Option.bind_some, if_true, if_neg hx, hr, hrun]

end Root

section Whole

variable {b : List UInt8} {s : List UInt8} {d d0 e : ℕ}

/-- A name ends at its first zero. -/
theorem cstr_le {i : ℕ} (h : b[i]? = some 0) : (cstr b 0).length ≤ i := by
  obtain ⟨hi, hzero⟩ := List.getElem?_eq_some_iff.mp h
  rw [cstr, List.drop_zero]
  by_contra hlt
  have hlt' : i < (b.takeWhile (· ≠ 0)).length := by omega
  have hmem := List.mem_takeWhile_imp (List.getElem_mem hlt')
  rw [(List.takeWhile_prefix _).getElem hlt', hzero] at hmem
  exact absurd hmem (by decide)

theorem putdot_spec (h : 1 < b.length) : ∃ b', putdot b = some b' ∧ b'.length = b.length ∧ (cstr b' 0).length ≤ 1 := by
  refine ⟨(b.set 0 Dot).set 1 0, ?_, by simp, cstr_le (List.getElem?_set_self (by simpa using h))⟩
  simp only [putdot, put_eq Dot (show 0 < b.length by omega), Option.bind_eq_bind, Option.bind_some]
  exact put_eq 0 (by simpa using h)

theorem endname_spec (he : 0 < e) (hlt : e < b.length) (hd : d ≤ e) :
    ∃ b', endname b d = some b' ∧ b'.length = b.length ∧ (cstr b' 0).length ≤ e := by
  have hplace : d < b.length := by omega
  have hzero : (b.set d 0)[d]? = some 0 := List.getElem?_set_self hplace
  -- the slash at the end
  obtain ⟨b1, hb1, hlen, hcut⟩ : ∃ b1, (if 2 ≤ d then do
        let c ← (b.set d 0)[d - 1]?
        if c = Slash then put (b.set d 0) (d - 1) 0 else some (b.set d 0)
      else some (b.set d 0)) = some b1 ∧ b1.length = b.length ∧ ∃ i ≤ e, b1[i]? = some 0 := by
    by_cases h2 : 2 ≤ d
    · obtain ⟨c, hc⟩ := exists_byte (b := b.set d 0) (i := d - 1) (by rw [List.length_set]; omega)
      rw [if_pos h2, hc, Option.bind_eq_bind, Option.bind_some]
      by_cases hslash : c = Slash
      · rw [if_pos hslash]
        refine ⟨_, put_eq 0 (by rw [List.length_set]; omega), by simp, d - 1, by omega, ?_⟩
        exact List.getElem?_set_self (by rw [List.length_set]; omega)
      · rw [if_neg hslash]
        exact ⟨_, rfl, List.length_set, d, hd, hzero⟩
    · rw [if_neg h2]
      exact ⟨_, rfl, List.length_set, d, hd, hzero⟩
  obtain ⟨i, hi, hi0⟩ := hcut
  obtain ⟨c, hc⟩ := exists_byte (b := b1) (i := 0) (by omega)
  rw [endname, put_eq 0 hplace, Option.bind_eq_bind, Option.bind_some, hb1, Option.bind_eq_bind, Option.bind_some, hc,
    Option.bind_some]
  by_cases hc0 : c = 0
  · obtain ⟨b', hput, hlen', hle⟩ := putdot_spec (b := b1) (by omega)
    rw [if_pos hc0]
    exact ⟨b', hput, hlen'.trans hlen, hle.trans he⟩
  · rw [if_neg hc0]
    exact ⟨b1, rfl, hlen, (cstr_le hi0).trans hi⟩

/-- From the beginning of the path on nothing goes wrong. -/
theorem path_spec (rooted : Bool) (d0 : ℕ) (hs : 0 ∉ s) (hne : s ≠ []) (hd0 : d0 ≤ s.length)
    (hfirst : rooted = false → (s ++ [0])[d0]? ≠ some Slash) :
    ∃ b', (do
        let i ← (if rooted then skipslashes (s ++ [0]).length (s ++ [0]) d0 else some d0)
        let (b, d) ← squeeze (s ++ [0]).length (s ++ [0]) i d0
        let b ← put b d 0
        let (b, d) ← compress rooted b.length b d0 d0 d0
        endname b d) = some b' ∧ b'.length = s.length + 1 ∧ (cstr b' 0).length ≤ s.length := by
  have hlen : (s ++ [0]).length = s.length + 1 := by simp
  obtain ⟨i, hi, hdi, hile, hnot⟩ : ∃ i, (if rooted then skipslashes (s ++ [0]).length (s ++ [0]) d0
      else some d0) = some i ∧ d0 ≤ i ∧ i ≤ s.length ∧ (s ++ [0])[i]? ≠ some Slash := by
    cases rooted with
    | true =>
      obtain ⟨i, hi, hdi, hile, hnot⟩ := skipslashes_spec (s ++ [0]).length (named_of hs hd0) (by omega)
      exact ⟨i, hi, hdi, hile, hnot⟩
    | false => exact ⟨d0, rfl, le_rfl, hd0, hfirst rfl⟩
  obtain ⟨b1, d, hsqueeze, hlen1, hde, hsq⟩ := squeeze_spec (s ++ [0]).length (named_of hs hile) hdi
    ⟨le_rfl, fun j hj hjd => by omega, fun h => by omega, fun j hj hjd => by omega, fun _ _ => hnot⟩ (by omega)
  have hplace : d < b1.length := by omega
  have hk := keeps_set b1 d 0
  have hnamed : Named (b1.set d 0) d0 d := by
    refine ⟨hsq.le, by rw [List.length_set]; exact hplace, List.getElem?_set_self hplace, fun j hj hjd => ?_⟩
    rw [hk.below j hjd]
    exact hsq.nonzero j hj hjd
  have helements : Elements (b1.set d 0) d0 d := by
    refine ⟨fun h => ?_, fun j hj hjd => ?_⟩
    · rw [hk.below d0 h]
      exact hsq.first h
    · rw [hk.below j (by omega), hk.below (j + 1) hjd]
      exact hsq.single j hj hjd
  obtain ⟨b2, d2, hcompress, hlen2, hd2⟩ := compress_spec rooted (b1.set d 0).length hnamed helements le_rfl
    (.start _ _) (by rw [List.length_set]; omega)
  rw [List.length_set] at hlen2
  obtain ⟨b', hend, hlen', hle⟩ := endname_spec (b := b2) (d := d2) (List.length_pos_iff.mpr hne) (by omega) (by omega)
  refine ⟨b', ?_, by omega, hle⟩
  simp only [hi, hsqueeze, put_eq 0 hplace, hcompress, Option.bind_eq_bind, Option.bind_some, hend]

/-- The bytes of a name, its terminator and, for an empty name, one byte more for the dot. -/
def room (s : List UInt8) (x : UInt8) : List UInt8 := s ++ 0 :: if s = [] then [x] else []

theorem room_eq (h : s ≠ []) (x : UInt8) : room s x = s ++ [0] := by
  rw [room, if_neg h]

/-- The root of a device name without a slash behind its first byte is looked for past the terminator. -/
theorem cleanname_slashless (hs : 0 ∉ s) (h : Slashless s) : cleanname (s ++ [0]) = none := by
  obtain ⟨hhead, hlen, hnot⟩ := h
  obtain ⟨t, rfl⟩ := List.head?_eq_some_iff.mp hhead
  cases t with
  | nil => exact absurd hlen (by decide)
  | cons x t =>
    obtain ⟨d0, hroot, -, hend, -⟩ := rootname_device (x := x) (t := t) [] fun hmem => hs (List.mem_cons_of_mem _ hmem)
    have hd0 : d0 = t.length + 2 := hend.mpr hnot
    have houtside : (0x23 :: x :: t ++ [0])[d0 + 1]? = none := List.getElem?_eq_none (by simp; omega)
    have hfirst : (0x23 :: x :: t ++ [0])[0]? = some 0x23 := rfl
    have hzero : (0x23 : UInt8) ≠ 0 := by decide
    have hskip : skipslashes (0x23 :: x :: t ++ [0]).length (0x23 :: x :: t ++ [0]) (d0 + 1) = none := by
      rw [List.length_append, List.length_singleton, skipslashes, houtside]
      rfl
    simp only [cleanname, hfirst, hroot, hskip, Option.bind_eq_bind, Option.bind_some, if_neg hzero, if_true,
      Option.bind_none]

theorem cleanname_inside (hs : 0 ∉ s) (hne : s ≠ []) (h : ¬ Slashless s) :
    ∃ b, cleanname (s ++ [0]) = some b ∧ b.length = s.length + 1 ∧ (cstr b 0).length ≤ s.length := by
  obtain ⟨c, t, rfl⟩ := List.exists_cons_of_ne_nil hne
  have hfirst : (c :: t ++ [0])[0]? = some c := rfl
  have hc0 : c ≠ 0 := fun h0 => hs (h0 ▸ List.mem_cons_self)
  by_cases hdevice : c = 0x23
  · subst hdevice
    cases t with
    | nil => exact ⟨[0x23, 0], rfl, rfl, by decide⟩
    | cons x t =>
      obtain ⟨d0, hroot, hle, hend, -⟩ := rootname_device (x := x) (t := t) [] fun hmem => hs (List.mem_cons_of_mem _ hmem)
      have hd0 : d0 ≠ t.length + 2 := fun heq => h ⟨rfl, by simp, hend.mp heq⟩
      obtain ⟨b, hrun, hspec⟩ := path_spec true (d0 + 1) hs hne (by simp; omega) nofun
      refine ⟨b, ?_, hspec⟩
      simp only [cleanname, hfirst, hroot, Option.bind_eq_bind, Option.bind_some, if_neg hc0]
      exact hrun
  · by_cases hslash : c = Slash
    · obtain ⟨b, hrun, hspec⟩ := path_spec true 1 hs hne (by simp) nofun
      refine ⟨b, ?_, hspec⟩
      simp only [cleanname, rootname, hfirst, Option.bind_eq_bind, Option.bind_some, if_neg hc0, if_neg hdevice,
        if_pos hslash]
      exact hrun
    · obtain ⟨b, hrun, hspec⟩ := path_spec false 0 hs hne (by simp) fun _ => by
        rw [hfirst]
        simpa using hslash
      refine ⟨b, ?_, hspec⟩
      simp only [cleanname, rootname, hfirst, Option.bind_eq_bind, Option.bind_some, if_neg hc0, if_neg hdevice,
        if_neg hslash]
      exact hrun

/-- `cleanname` stays inside the name, and leaves one that is not longer, exactly if the name is not that of
a device without a slash. -/
theorem cleanname_inside_iff (s : List UInt8) (hs : 0 ∉ s) (x : UInt8) :
    (∃ b, cleanname (room s x) = some b ∧ b.length = (room s x).length ∧ (cstr b 0).length ≤ max 1 s.length) ↔
      ¬ Slashless s := by
  by_cases hne : s = []
  · subst hne
    refine iff_of_true ⟨[Dot, 0], rfl, rfl, by decide⟩ ?_
    rintro ⟨hhead, -⟩
    cases hhead
  · rw [room_eq hne]
    constructor
    · rintro ⟨b, hb, -⟩ hbad
      rw [cleanname_slashless hs hbad] at hb
      cases hb
    · intro hgood
      obtain ⟨b, hb, hlen, hle⟩ := cleanname_inside hs hne hgood
      exact ⟨b, hb, by simpa using hlen, hle.trans (le_max_right _ _)⟩

/-- The name `#a/..`. -/
theorem cleanname_inside_device :
    (∃ b, cleanname (room [0x23, 0x61, Slash, Dot, Dot] 0) = some b ∧
      b.length = (room [0x23, 0x61, Slash, Dot, Dot] 0).length ∧ (cstr b 0).length ≤ max 1 5) ↔
        ¬ Slashless [0x23, 0x61, Slash, Dot, Dot] :=
  cleanname_inside_iff [0x23, 0x61, Slash, Dot, Dot] (by decide) 0

/-- The name `#a`. -/
theorem cleanname_outside : cleanname (room [0x23, 0x61] 0) = none := rfl

end Whole

end Petele.Libc
