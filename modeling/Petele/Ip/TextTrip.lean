import Petele.Ip.Text

namespace Petele.Ip

open Libc

section Print

variable {size : ℕ} {p : List UInt8}

/-- The shorts from the `j`th on. -/
def seg (p : List UInt8) (j n : ℕ) : List ℕ := (List.range' j n).map fun m => short p (2 * m)

def colons (gs : List ℕ) : List Char := gs.flatMap fun g => ':' :: hex g

def groups : List ℕ → List Char
  | [] => []
  | g :: gs => hex g ++ colons gs

theorem seg_succ (p : List UInt8) (j n : ℕ) : seg p j (n + 1) = short p (2 * j) :: seg p (j + 1) n := by
  rw [seg, List.range'_succ, List.map_cons]
  rfl

theorem short_lt (p : List UInt8) (i : ℕ) : short p i < 2 ^ 16 := by
  have hi := (p.getD i 0).toNat_lt
  have hj := (p.getD (i + 1) 0).toNat_lt
  rw [short, byte, byte]
  omega

theorem hex_length {g : ℕ} (hg : g < 2 ^ 16) : (hex g).length ≤ 4 :=
  (Nat.length_toDigits_le_iff (by decide) (by decide)).mpr hg

theorem snprint_room {buf s : List Char} (h : buf.length + s.length < size) :
    snprint size buf s = buf ++ s := by
  rw [snprint, List.take_of_length_le (by omega)]

/-- A zero run is found where the shorts are zero. -/
theorem zeroend_spec (p : List UInt8) (k : ℕ) {j : ℕ} (hj : j ≤ 8) :
    ∃ n, zeroend p k (2 * j) = 2 * (j + n) ∧ j + n ≤ 8 ∧ ∀ m < n, short p (2 * (j + m)) = 0 := by
  induction k generalizing j with
  | zero => exact ⟨0, rfl, hj, fun m hm => absurd hm (Nat.not_lt_zero m)⟩
  | succ k ih =>
    rw [zeroend]
    split
    · rename_i h
      obtain ⟨n, hn, hle, hzero⟩ := ih (show j + 1 ≤ 8 by omega)
      refine ⟨n + 1, by rw [show 2 * j + 2 = 2 * (j + 1) by omega, hn]; omega, by omega, fun m hm => ?_⟩
      cases m with
      | zero =>
        rw [not_or, not_not, not_not] at h
        rw [Nat.add_zero, short, h.2.1, h.2.2, Nat.zero_mul]
      | succ m =>
        rw [show j + (m + 1) = j + 1 + m by omega]
        exact hzero m (by omega)
    · exact ⟨0, rfl, hj, fun m hm => absurd hm (Nat.not_lt_zero m)⟩

/-- Nothing is elided, or some zeros. -/
def Elision (p : List UInt8) (eli eln : ℤ) : Prop :=
  eli = -1 ∨ ∃ a n : ℕ, eli = 2 * a ∧ eln = 2 * n ∧ 0 < n ∧ a + n ≤ 8 ∧
    ∀ m < n, short p (2 * (a + m)) = 0

theorem elideloop_spec (k : ℕ) {j : ℕ} {eli eln : ℤ} (h : Elision p eli eln) :
    Elision p (elideloop p k (2 * j) eli eln).1 (elideloop p k (2 * j) eli eln).2 := by
  induction k generalizing j eli eln with
  | zero => exact h
  | succ k ih =>
    rw [elideloop]
    split
    · rename_i hj
      obtain ⟨n, hn, hle, hzero⟩ := zeroend_spec p 8 (show j ≤ 8 by omega)
      simp only [hn]
      split
      · rename_i hlong
        refine @ih (j + 1) _ _ (.inr ⟨j, n, by push_cast; rfl, by push_cast; omega, by omega, hle, hzero⟩)
      · exact @ih (j + 1) _ _ h
    · exact h

/-- One short is printed, and there is room for it. -/
theorem printloop_short (hsize : sizeof ≤ size) {eli eln : ℤ} (k : ℕ) {j : ℕ} (hj : j < 8)
    (hno : ((2 * j : ℕ) : ℤ) ≠ eli) {buf : List Char} (hbuf : buf.length ≤ 5 * j - 1) :
    ∃ buf', buf' = buf ++ ((if j = 0 then [] else [':']) ++ hex (short p (2 * j))) ∧
      buf'.length ≤ 5 * (j + 1) - 1 ∧
      printloop size p eli eln (k + 1) (2 * j) buf = printloop size p eli eln k (2 * (j + 1)) buf' := by
  have hforty : sizeof = 40 := rfl
  have hhex := hex_length (short_lt p (2 * j))
  simp only [printloop, if_pos (show 2 * j < 16 by omega), if_neg hno]
  refine ⟨_, rfl, ?_⟩
  by_cases hzero : j = 0
  · subst hzero
    have hprint : snprint size buf (hex (short p (2 * 0))) = buf ++ hex (short p (2 * 0)) :=
      snprint_room (by omega)
    simp only [if_true, List.nil_append]
    refine ⟨by rw [List.length_append]; omega, ?_⟩
    rw [if_neg (by omega), hprint]
  · have hcolon : snprint size buf [':'] = buf ++ [':'] := snprint_room (by
      simp only [List.length_cons, List.length_nil]
      omega)
    have hprint : snprint size (buf ++ [':']) (hex (short p (2 * j))) =
        buf ++ [':'] ++ hex (short p (2 * j)) := snprint_room (by
      simp only [List.length_append, List.length_cons, List.length_nil]
      omega)
    simp only [if_neg hzero, if_pos (show 2 * j ≠ 0 by omega), hcolon, hprint]
    refine ⟨?_, by rw [List.append_assoc]; rfl⟩
    simp only [List.length_append, List.length_cons, List.length_nil]
    omega

/-- With no elision to come every short has a colon before it. -/
theorem printloop_rest (hsize : sizeof ≤ size) {eli eln : ℤ} (k : ℕ) {j : ℕ} (hpos : 0 < j) (hj : j ≤ 8)
    (hk : 8 ≤ j + k) (hno : ∀ m : ℕ, j ≤ m → (2 * m : ℤ) ≠ eli) {buf : List Char}
    (hbuf : buf.length ≤ 5 * j - 1) :
    printloop size p eli eln k (2 * j) buf = buf ++ colons (seg p j (8 - j)) := by
  induction k generalizing j buf with
  | zero =>
    rw [show 8 - j = 0 by omega]
    exact (List.append_nil buf).symm
  | succ k ih =>
    by_cases hlast : j = 8
    · rw [printloop, if_neg (by omega), hlast]
      exact (List.append_nil buf).symm
    · have hne : ((2 * j : ℕ) : ℤ) ≠ eli := by
        push_cast
        exact hno j le_rfl
      obtain ⟨buf', hbuf', hlen, hstep⟩ := @printloop_short size p hsize eli eln k j (by omega) hne buf hbuf
      rw [hstep, ih (by omega) (by omega) (by omega) (fun m hm => hno m (by omega)) hlen, hbuf',
        if_neg (by omega), show 8 - j = 8 - (j + 1) + 1 by omega, seg_succ]
      simp [colons]

/-- The elision, and what is after it. -/
theorem printloop_elide (hsize : sizeof ≤ size) {a n : ℕ} (hn : 0 < n) (hle : a + n ≤ 8) {k : ℕ}
    (hk : 8 ≤ a + k) {buf : List Char} (hbuf : buf.length ≤ 5 * a - 1) :
    printloop size p (2 * a) (2 * n) k (2 * a) buf =
      buf ++ ':' :: ':' :: groups (seg p (a + n) (8 - (a + n))) := by
  have hforty : sizeof = 40 := rfl
  obtain ⟨k, rfl⟩ : ∃ m, k = m + 1 := ⟨k - 1, by omega⟩
  have hcast : ((2 * a : ℕ) : ℤ) = 2 * a := by push_cast; rfl
  have hskip : 2 * a + (2 * (n : ℤ)).toNat = 2 * (a + n) := by omega
  have hone : snprint size buf [':', ':'] = buf ++ [':', ':'] := snprint_room (by
    simp only [List.length_cons, List.length_nil]
    omega)
  simp only [printloop, if_pos (show 2 * a < 16 by omega), if_pos hcast, hskip, hone]
  by_cases hend : a + n = 8
  · rw [if_pos (by omega), hend]
    rfl
  · have hhex := hex_length (short_lt p (2 * (a + n)))
    have htwo : snprint size (buf ++ [':', ':']) (hex (short p (2 * (a + n)))) =
        buf ++ [':', ':'] ++ hex (short p (2 * (a + n))) := snprint_room (by
      simp only [List.length_append, List.length_cons, List.length_nil]
      omega)
    have hlen : (buf ++ [':', ':'] ++ hex (short p (2 * (a + n)))).length ≤ 5 * (a + n + 1) - 1 := by
      simp only [List.length_append, List.length_cons, List.length_nil]
      omega
    rw [if_neg (by omega), htwo, show 2 * (a + n) + 2 = 2 * (a + n + 1) by omega,
      printloop_rest hsize k (by omega) (by omega) (by omega) (fun m hm => by omega) hlen,
      show 8 - (a + n) = 8 - (a + n + 1) + 1 by omega, seg_succ, groups]
    simp

/-- Shorts before an elision at `a`. -/
theorem printloop_until (hsize : sizeof ≤ size) {a n : ℕ} (hn : 0 < n) (hle : a + n ≤ 8) (k : ℕ) {j : ℕ}
    (hpos : 0 < j) (hj : j ≤ a) (hk : 8 ≤ j + k) {buf : List Char} (hbuf : buf.length ≤ 5 * j - 1) :
    printloop size p (2 * a) (2 * n) k (2 * j) buf =
      buf ++ colons (seg p j (a - j)) ++ ':' :: ':' :: groups (seg p (a + n) (8 - (a + n))) := by
  induction k generalizing j buf with
  | zero => omega
  | succ k ih =>
    by_cases hlast : j = a
    · subst hlast
      rw [printloop_elide hsize hn hle hk hbuf, Nat.sub_self]
      simp [seg, colons]
    · obtain ⟨buf', hbuf', hlen, hstep⟩ := @printloop_short size p hsize (2 * a) (2 * n) k j (by omega)
        (by omega) buf hbuf
      rw [hstep, ih (by omega) (by omega) (by omega) hlen, hbuf', if_neg (by omega),
        show a - j = a - (j + 1) + 1 by omega, seg_succ]
      simp [colons]

/-- What an address that is not of version 4 may have for a text: all its shorts, or those around some
zeros. -/
def Shown (p : List UInt8) (text : List Char) : Prop :=
  text = groups (seg p 0 8) ∨ ∃ a n, 0 < n ∧ a + n ≤ 8 ∧ (∀ m < n, short p (2 * (a + m)) = 0) ∧
    text = groups (seg p 0 a) ++ ':' :: ':' :: groups (seg p (a + n) (8 - (a + n)))

theorem printloop_text {eli eln : ℤ} (h : Elision p eli eln) :
    ∃ text, Shown p text ∧ ∀ size, sizeof ≤ size → printloop size p eli eln 8 0 [] = text := by
  rcases h with rfl | ⟨a, n, rfl, rfl, hpos, hle, hzero⟩
  · refine ⟨_, .inl rfl, fun size hsize => ?_⟩
    obtain ⟨buf, hbuf, hlen, hstep⟩ := @printloop_short size p hsize (-1) eln 7 0 (by decide) (by decide) []
      (Nat.zero_le _)
    rw [hstep, printloop_rest hsize 7 (by decide) (by decide) (by decide) (fun m _ => by omega) hlen, hbuf,
      seg_succ]
    rfl
  · refine ⟨_, .inr ⟨a, n, hpos, hle, hzero, rfl⟩, fun size hsize => ?_⟩
    rcases Nat.eq_zero_or_pos a with rfl | ha
    · exact printloop_elide hsize hpos hle (by decide) (Nat.zero_le _)
    · obtain ⟨buf, hbuf, hlen, hstep⟩ := @printloop_short size p hsize (2 * a) (2 * n) 7 0 (by decide)
        (by omega) [] (Nat.zero_le _)
      rw [hstep, printloop_until hsize hpos hle 7 (by decide) ha (by decide) hlen, hbuf,
        show a = a - 1 + 1 by omega, seg_succ, groups]
      rfl

theorem common_text (hv6 : p.take 12 ≠ v4prefix) :
    ∃ text, Shown p text ∧ ∀ size, sizeof ≤ size → common size p = text := by
  obtain ⟨text, hshown, hprint⟩ := printloop_text (@elideloop_spec p 8 0 (-1) (-1) (.inl rfl))
  refine ⟨text, hshown, fun size hsize => ?_⟩
  rw [common, if_neg hv6]
  exact hprint size hsize

end Print

section Parse

/-- What may follow an address. -/
def Delim (tail : List Char) : Prop := tail = [] ∨ ∃ c t, tail = c :: t ∧ (c = ' ' ∨ c = '/' ∨ c = '!')

def tobytes (gs : List ℕ) : List UInt8 := gs.flatMap fun g => [UInt8.ofNat (g / 2 ^ 8), UInt8.ofNat g]

/-- The state in which some groups are done. -/
def after (done : List ℕ) (elipsis : ℕ) (v4 : Bool) (p : List Char) : Parse :=
  ⟨2 * done.length, elipsis, v4, tobytes done ++ List.replicate (16 - 2 * done.length) 0, p⟩

theorem length_tobytes (gs : List ℕ) : (tobytes gs).length = 2 * gs.length := by
  induction gs with
  | nil => rfl
  | cons g gs ih =>
    rw [tobytes, List.flatMap_cons, List.length_append, List.length_cons, ← tobytes, ih]
    simp only [List.length_cons, List.length_nil]
    omega

theorem tobytes_append (gs hs : List ℕ) : tobytes (gs ++ hs) = tobytes gs ++ tobytes hs :=
  List.flatMap_append

theorem set_group {done : List ℕ} (h : done.length < 8) (g : ℕ) :
    ((tobytes done ++ List.replicate (16 - 2 * done.length) 0).set (2 * done.length)
        (UInt8.ofNat (g / 2 ^ 8))).set (2 * done.length + 1) (UInt8.ofNat g) =
      tobytes (done ++ [g]) ++ List.replicate (16 - 2 * (done ++ [g]).length) 0 := by
  rw [← length_tobytes, List.set_append_right _ _ le_rfl, Nat.sub_self,
    List.set_append_right _ _ (Nat.le_add_right _ 1), Nat.add_sub_cancel_left, length_tobytes, tobytes_append,
    List.length_append, show 16 - 2 * done.length = 16 - 2 * (done.length + [g].length) + 1 + 1 by
      rw [List.length_singleton]; omega, List.replicate_succ, List.replicate_succ, List.append_assoc]
  rfl

theorem stops_colon (t : List Char) : Stops (':' :: t) := by
  rintro c hc base
  obtain rfl : ':' = c := Option.some.inj hc
  rfl

theorem Delim.stops {tail : List Char} (h : Delim tail) : Stops tail := by
  rcases h with rfl | ⟨c, t, rfl, hc⟩
  · exact fun c hc => by cases hc
  · rintro d hd base
    obtain rfl : c = d := Option.some.inj hd
    rcases hc with rfl | rfl | rfl
    all_goals rfl

theorem Delim.head {tail : List Char} (h : Delim tail) :
    tail.headD nul ≠ '.' ∧ tail.headD nul ≠ ':' ∧ delimchar (tail.headD nul) = true ∧
      ipcharok (tail.headD nul) = false := by
  rcases h with rfl | ⟨c, t, rfl, rfl | rfl | rfl⟩
  all_goals
    rw [List.headD]
    decide

theorem hex_head (g : ℕ) (t : List Char) : ipcharok ((hex g ++ t).headD nul) = true ∧
    (hex g ++ t).headD nul ≠ ':' := by
  obtain ⟨c, ds, hds⟩ := List.exists_cons_of_ne_nil (@Nat.toDigits_ne_nil g 16)
  obtain ⟨j, hj, rfl⟩ := (value_toDigits (by decide) le_rfl g).1 c (hds ▸ List.mem_cons_self)
  have hall : ∀ j < 16, ipcharok (Nat.digitChar j) = true ∧ Nat.digitChar j ≠ ':' := by decide
  rw [hex, hds]
  exact hall j hj

variable {done : List ℕ} {g el : ℕ} {v4 : Bool} {q rest p : List Char}

/-- A group that is read and put in its place. -/
theorem parseloop_group (k : ℕ) (hdone : done.length < 8) (hg : g < 2 ^ 16) (hok : ipcharok (q.headD nul) = true)
    (hread : strtoul q 16 = (g, rest)) (hdot : rest.headD nul ≠ '.')
    (hnul : rest.headD nul ≠ nul ∨ done ≠ []) (hend : rest.headD nul = ':' ∨ delimchar (rest.headD nul) = true)
    (hshort : rest.headD nul = ':' ∨ rest.length ≠ q.length) :
    parseloop (k + 1) (after done el v4 q) =
      if rest.headD nul = ':' then
        if rest.tail.headD nul = ':' then
          if el ≠ 0 then none
          else parseloop k (after (done ++ [g]) (2 * (done ++ [g]).length) false rest.tail.tail)
        else parseloop k (after (done ++ [g]) el false rest.tail)
      else parseloop k (after (done ++ [g]) el v4 rest) := by
  have hin : 2 * done.length < IPaddrlen ∧ ipcharok (q.headD nul) = true :=
    ⟨show 2 * done.length < 16 by omega, hok⟩
  have hv6 : ¬ (rest.headD nul = '.' ∧ 2 * done.length ≤ IPaddrlen - 4 ∨
      rest.headD nul = nul ∧ 2 * done.length = 0) := by
    rintro (h | ⟨h, hzero⟩)
    · exact hdot h.1
    · rcases hnul with hn | hn
      · exact hn h
      · exact hn (List.length_eq_zero_iff.mp (by omega))
  have hfine : ¬ (g ≠ g % 2 ^ 16 ∨ rest.headD nul ≠ ':' ∧ delimchar (rest.headD nul) = false) := by
    rintro (h | ⟨h, hd⟩)
    · exact h (Nat.mod_eq_of_lt hg).symm
    · rcases hend with he | he
      · exact h he
      · rw [he] at hd
        cases hd
  have hlen : 2 * done.length + 2 = 2 * (done ++ [g]).length := by
    rw [List.length_append, List.length_singleton]
    omega
  rw [parseloop]
  simp only [after, hread, if_pos hin, if_neg hv6, if_neg hfine, set_group hdone, hlen]
  by_cases hc : rest.headD nul = ':'
  · rw [if_pos hc, if_pos hc]
  · rw [if_neg hc, if_neg hc, if_neg (hshort.resolve_left hc)]

theorem colon_head (t : List Char) : (':' :: t).headD nul ≠ '.' ∧ (':' :: t).headD nul ≠ nul :=
  ⟨show ':' ≠ '.' by decide, show ':' ≠ nul by decide⟩

theorem parseloop_colon (k : ℕ) (hdone : done.length < 8) (hg : g < 2 ^ 16) (hp : p.headD nul ≠ ':') :
    parseloop (k + 1) (after done el v4 (hex g ++ ':' :: p)) =
      parseloop k (after (done ++ [g]) el false p) := by
  rw [parseloop_group k hdone hg (hex_head g _).1 (strtoul_hex (by omega) (stops_colon p))
    (colon_head _).1 (.inl (colon_head _).2) (.inl rfl) (.inl rfl)]
  exact (if_pos rfl).trans (if_neg hp)

theorem parseloop_colons (k : ℕ) (hdone : done.length < 8) (hg : g < 2 ^ 16) :
    parseloop (k + 1) (after done 0 v4 (hex g ++ ':' :: ':' :: p)) =
      parseloop k (after (done ++ [g]) (2 * (done ++ [g]).length) false p) := by
  rw [parseloop_group k hdone hg (hex_head g _).1 (strtoul_hex (by omega) (stops_colon _))
    (colon_head _).1 (.inl (colon_head _).2) (.inl rfl) (.inl rfl)]
  exact (if_pos rfl).trans ((if_pos rfl).trans (if_neg (not_not.mpr rfl)))

/-- Zeros elided at the start leave an empty group, which is read as zero. -/
theorem parseloop_start (k : ℕ) (p : List Char) :
    parseloop (k + 1) (after [] 0 true (':' :: ':' :: p)) = parseloop k (after [0] 2 false p) := by
  have hread : strtoul (':' :: ':' :: p) 16 = (0, ':' :: ':' :: p) :=
    strtoul_empty (by decide) (by decide) (stops_colon _) rfl rfl
  rw [parseloop_group k (by decide) (by decide) rfl hread (colon_head _).1 (.inl (colon_head _).2)
    (.inl rfl) (.inl rfl)]
  rfl

theorem parseloop_last (k : ℕ) (hdone : done.length < 8) (hne : done ≠ []) (hg : g < 2 ^ 16) (hp : Delim p) :
    parseloop (k + 1) (after done el v4 (hex g ++ p)) = parseloop k (after (done ++ [g]) el v4 p) := by
  obtain ⟨hdot, hcolon, hdelim, -⟩ := hp.head
  have hpos : 0 < (hex g).length := Nat.length_toDigits_pos
  rw [parseloop_group k hdone hg (hex_head g _).1 (strtoul_hex (by omega) hp.stops) hdot (.inr hne)
    (.inr hdelim) (.inr (by rw [List.length_append]; omega)), if_neg hcolon]

theorem parseloop_stop (k : ℕ) (hp : Delim p) : parseloop k (after done el v4 p) = some (after done el v4 p) := by
  cases k with
  | zero => rfl
  | succ k =>
    rw [parseloop, if_neg]
    rintro ⟨-, h⟩
    rw [show (after done el v4 p).p = p from rfl, hp.head.2.2.2] at h
    cases h

theorem groups_cons_cons (g h : ℕ) (gs : List ℕ) : groups (g :: h :: gs) = hex g ++ ':' :: groups (h :: gs) := rfl

/-- Groups up to the end of the address. -/
theorem parseloop_groups {gs : List ℕ} (hgs : ∀ g ∈ gs, g < 2 ^ 16) (hlen : done.length + gs.length ≤ 8)
    (hmany : done ≠ [] ∧ v4 = false ∨ 2 ≤ gs.length) (hp : Delim p) (k : ℕ) :
    parseloop (gs.length + k) (after done el v4 (groups gs ++ p)) =
      some (after (done ++ gs) el false p) := by
  induction gs generalizing done v4 with
  | nil =>
    rcases hmany with ⟨-, rfl⟩ | h
    · rw [List.append_nil]
      exact parseloop_stop _ hp
    · exact absurd h (by decide)
  | cons g gs ih =>
    rw [List.forall_mem_cons] at hgs
    rw [List.length_cons] at hlen hmany
    have hnext : done ++ g :: gs = done ++ [g] ++ gs := by simp
    have hdone : done ++ [g] ≠ [] := List.append_ne_nil_of_right_ne_nil _ (List.cons_ne_nil _ _)
    have hlen' : (done ++ [g]).length + gs.length ≤ 8 := by
      rw [List.length_append, List.length_singleton]
      omega
    rw [hnext, List.length_cons, show gs.length + 1 + k = gs.length + k + 1 by omega]
    rcases gs with _ | ⟨h, gs⟩
    · rcases hmany with ⟨hne, rfl⟩ | hmany
      · have hone : groups [g] = hex g := List.append_nil _
        rw [hone, parseloop_last _ (by omega) hne hgs.1 hp]
        exact ih hgs.2 hlen' (.inl ⟨hdone, rfl⟩)
      · exact absurd hmany (by decide)
    · rw [groups_cons_cons, List.append_assoc, List.cons_append,
        parseloop_colon _ (by omega) hgs.1 (by rw [groups, List.append_assoc]; exact (hex_head h _).2)]
      exact ih hgs.2 hlen' (.inl ⟨hdone, rfl⟩)

/-- Groups up to an elision. -/
theorem parseloop_elide {gs : List ℕ} (hgs : ∀ g ∈ gs, g < 2 ^ 16) (hne : gs ≠ [])
    (hlen : done.length + gs.length ≤ 8) (k : ℕ) :
    parseloop (gs.length + k) (after done 0 v4 (groups gs ++ ':' :: ':' :: p)) =
      parseloop k (after (done ++ gs) (2 * (done ++ gs).length) false p) := by
  induction gs generalizing done v4 with
  | nil => exact absurd rfl hne
  | cons g gs ih =>
    rw [List.forall_mem_cons] at hgs
    rw [List.length_cons] at hlen
    have hnext : done ++ g :: gs = done ++ [g] ++ gs := by simp
    have hlen' : (done ++ [g]).length + gs.length ≤ 8 := by
      rw [List.length_append, List.length_singleton]
      omega
    rw [hnext, List.length_cons, show gs.length + 1 + k = gs.length + k + 1 by omega]
    rcases gs with _ | ⟨h, gs⟩
    · have hone : groups [g] = hex g := List.append_nil _
      rw [hone, parseloop_colons _ (by omega) hgs.1, List.length_nil, Nat.zero_add, List.append_nil]
    · rw [groups_cons_cons, List.append_assoc, List.cons_append,
        parseloop_colon _ (by omega) hgs.1 (by rw [groups, List.append_assoc]; exact (hex_head h _).2)]
      exact ih hgs.2 (List.cons_ne_nil _ _) hlen'

theorem parseip_fine {text tail : List Char} (htail : Delim tail) (htext : tail.length < text.length) :
    ¬ (tail.length = text.length ∨ delimchar (tail.headD nul) = false) := by
  rintro (h | h)
  · omega
  · rw [htail.head.2.2.1] at h
    cases h

theorem shift_append (d p : List UInt8) (z : ℕ) :
    memset (memmove (d ++ (p ++ List.replicate z 0)) (d.length + z) d.length p.length) d.length z =
      d ++ List.replicate z 0 ++ p := by
  have hmove : memmove (d ++ (p ++ List.replicate z 0)) (d.length + z) d.length p.length =
      d ++ (p ++ List.replicate z 0).take z ++ p := by
    rw [memmove, List.take_length_add_append, List.drop_left, List.take_left, List.drop_of_length_le]
    · rw [List.append_nil]
    · simp only [List.length_append, List.length_replicate]
      omega
  have hz : ((p ++ List.replicate z 0).take z).length = z := by
    rw [List.length_take, List.length_append, List.length_replicate]
    omega
  rw [hmove, memset, List.append_assoc d, List.take_left, List.drop_length_add_append,
    List.drop_left' hz]

theorem parseip_full {gs : List ℕ} {text tail : List Char} (hlen : gs.length = 8) (htail : Delim tail)
    (htext : tail.length < text.length)
    (hloop : parseloop 8 (after [] 0 true text) = some (after gs el false tail)) :
    parseip text = (tobytes gs, 6) := by
  have hrun : parseloop 8 ⟨0, 0, true, List.replicate IPaddrlen 0, text⟩ = some (after gs el false tail) := hloop
  have hsixteen : IPaddrlen = 16 := rfl
  simp only [parseip, hrun, after, hlen]
  rw [if_neg (parseip_fine htail htext)]
  simp [hsixteen]

/-- The groups after the elision are moved to the end. -/
theorem parseip_shift {done post : List ℕ} {text tail : List Char} (hlen : done.length + post.length ≤ 8)
    (htail : Delim tail) (htext : tail.length < text.length)
    (hloop : parseloop 8 (after [] 0 true text) =
      some (after (done ++ post) (2 * done.length) false tail)) :
    parseip text = (tobytes done ++ List.replicate (16 - 2 * (done.length + post.length)) 0 ++ tobytes post, 6) := by
  by_cases hfull : done.length + post.length = 8
  · rw [parseip_full (by rw [List.length_append, hfull]) htail htext hloop, tobytes_append, hfull]
    simp
  · have hrun : parseloop 8 ⟨0, 0, true, List.replicate IPaddrlen 0, text⟩ =
        some (after (done ++ post) (2 * done.length) false tail) := hloop
    have hi : 2 * (done.length + post.length) < IPaddrlen := show _ < 16 by omega
    simp only [parseip, hrun, after, List.length_append]
    rw [if_neg (parseip_fine htail htext), if_pos hi]
    simp only [Bool.false_eq_true, if_false]
    have hsixteen : IPaddrlen = 16 := rfl
    rw [hsixteen]
    generalize hz : 16 - 2 * (done.length + post.length) = z
    rw [show 2 * done.length + 16 - 2 * (done.length + post.length) = (tobytes done).length + z by
      rw [length_tobytes]; omega, show 2 * (done.length + post.length) - 2 * done.length = (tobytes post).length by
      rw [length_tobytes]; omega, ← length_tobytes done, tobytes_append, List.append_assoc, shift_append]

theorem take_seg {p : List UInt8} {j n : ℕ} (h : 2 * (j + n) ≤ p.length) :
    (p.drop (2 * j)).take (2 * n) = tobytes (seg p j n) := by
  induction n generalizing j with
  | zero => rfl
  | succ n ih =>
    have hone : p.drop (2 * j) = p.getD (2 * j) 0 :: p.getD (2 * j + 1) 0 :: p.drop (2 * (j + 1)) := by
      rw [List.drop_eq_getElem_cons (show 2 * j < p.length by omega),
        List.drop_eq_getElem_cons (show 2 * j + 1 < p.length by omega),
        List.getD_eq_getElem?_getD, List.getD_eq_getElem?_getD,
        List.getElem?_eq_getElem (show 2 * j < p.length by omega),
        List.getElem?_eq_getElem (show 2 * j + 1 < p.length by omega)]
      rfl
    have hhigh : UInt8.ofNat (short p (2 * j) / 2 ^ 8) = p.getD (2 * j) 0 := by
      have hlt := (p.getD (2 * j + 1) 0).toNat_lt
      rw [short, byte, byte, Nat.mul_comm, Nat.mul_add_div (by decide), Nat.div_eq_of_lt hlt, Nat.add_zero,
        UInt8.ofNat_toNat]
    have hlow : UInt8.ofNat (short p (2 * j)) = p.getD (2 * j + 1) 0 := by
      apply UInt8.toNat_inj.mp
      have hlt := (p.getD (2 * j + 1) 0).toNat_lt
      rw [UInt8.toNat_ofNat', short, byte, byte]
      omega
    rw [hone, show 2 * (n + 1) = 2 * n + 1 + 1 by omega, List.take_succ_cons, List.take_succ_cons,
      ih (by omega), seg_succ, ← hhigh, ← hlow]
    rfl

theorem seg_lt {q : List UInt8} (j n : ℕ) : ∀ g ∈ seg q j n, g < 2 ^ 16 := by
  intro g hg
  obtain ⟨m, -, rfl⟩ := List.mem_map.mp hg
  exact short_lt q _

theorem length_seg (q : List UInt8) (j n : ℕ) : (seg q j n).length = n := by
  rw [seg, List.length_map, List.length_range']

theorem tobytes_zeros {q : List UInt8} {a n : ℕ} (hzero : ∀ m < n, short q (2 * (a + m)) = 0) :
    tobytes (seg q a n) = List.replicate (2 * n) 0 := by
  induction n generalizing a with
  | zero => rfl
  | succ n ih =>
    rw [seg_succ, show 2 * (n + 1) = 2 * n + 1 + 1 by omega, List.replicate_succ, List.replicate_succ,
      ← ih (a := a + 1) (fun m hm => by rw [show a + 1 + m = a + (m + 1) by omega]; exact hzero _ (by omega)),
      show short q (2 * a) = 0 from hzero 0 (by omega)]
    rfl

/-- An address that is not of version 4 comes back from its text. -/
theorem parseip_shown {q : List UInt8} (hq : q.length = 16) {text tail : List Char} (hshown : Shown q text)
    (htail : Delim tail) : parseip (text ++ tail) = (q, 6) := by
  have hall : ∀ j n, 2 * (j + n) ≤ 16 → (q.drop (2 * j)).take (2 * n) = tobytes (seg q j n) :=
    fun j n h => take_seg (by omega)
  rcases hshown with rfl | ⟨a, n, hn, hle, hzero, rfl⟩
  · have hwhole : tobytes (seg q 0 8) = q := by
      rw [← hall 0 8 (by decide)]
      exact List.take_of_length_le (by rw [List.length_drop]; omega)
    have hloop : parseloop 8 (after [] 0 true (groups (seg q 0 8) ++ tail)) =
        some (after (seg q 0 8) 0 false tail) := by
      have h := @parseloop_groups [] 0 true tail (seg q 0 8) (seg_lt 0 8)
        (show 0 + 8 ≤ 8 by decide) (.inr (show 2 ≤ 8 by decide)) htail 0
      exact h
    rw [parseip_full (length_seg q 0 8) htail ?_ hloop, hwhole]
    rw [List.length_append]
    have hpos : 0 < (hex (short q (2 * 0))).length := Nat.length_toDigits_pos
    rw [seg_succ, groups, List.length_append]
    omega
  · have hsplit : q = tobytes (seg q 0 a) ++ List.replicate (2 * n) 0 ++
        tobytes (seg q (a + n) (8 - (a + n))) := by
      rw [← tobytes_zeros hzero, ← hall 0 a (by omega), ← hall a n (by omega),
        ← hall (a + n) (8 - (a + n)) (by omega), Nat.mul_zero, List.drop_zero,
        List.take_of_length_le (l := q.drop (2 * (a + n))) (by rw [List.length_drop]; omega),
        Nat.mul_add, ← List.drop_drop, List.append_assoc, List.take_append_drop, List.take_append_drop]
    have hpost := length_seg q (a + n) (8 - (a + n))
    have hlong : tail.length < (groups (seg q 0 a) ++ ':' :: ':' :: groups (seg q (a + n) (8 - (a + n))) ++
        tail).length := by
      simp only [List.length_append, List.length_cons]
      omega
    generalize hp : seg q (a + n) (8 - (a + n)) = post at *
    rcases Nat.eq_zero_or_pos a with rfl | ha
    · have hloop : parseloop 8 (after [] 0 true (groups (seg q 0 0) ++ ':' :: ':' :: groups post ++ tail)) =
          some (after ([0] ++ post) (2 * [0].length) false tail) := by
        refine (parseloop_start 7 _).trans ?_
        rw [show 7 = post.length + (7 - post.length) by omega]
        exact parseloop_groups (hp ▸ seg_lt _ _) (by rw [List.length_singleton]; omega)
          (.inl ⟨List.cons_ne_nil _ _, rfl⟩) htail _
      rw [parseip_shift (by rw [List.length_singleton]; omega) htail hlong hloop]
      conv_rhs => rw [hsplit]
      rw [hpost, List.length_singleton, show 2 * n = 16 - 2 * (1 + (8 - (0 + n))) + 1 + 1 by omega,
        List.replicate_succ, List.replicate_succ]
      rfl
    · have hpre := length_seg q 0 a
      have hloop : parseloop 8 (after [] 0 true (groups (seg q 0 a) ++ ':' :: ':' :: groups post ++ tail)) =
          some (after (seg q 0 a ++ post) (2 * (seg q 0 a).length) false tail) := by
        rw [List.append_assoc, List.cons_append, List.cons_append,
          show 8 = (seg q 0 a).length + (8 - a) by omega,
          parseloop_elide (seg_lt _ _) (List.ne_nil_of_length_pos (by omega)) (by
            rw [List.length_nil]
            omega), List.nil_append, show 8 - a = post.length + (8 - a - post.length) by omega]
        exact parseloop_groups (hp ▸ seg_lt _ _) (by omega)
          (.inl ⟨List.ne_nil_of_length_pos (by omega), rfl⟩) htail _
      rw [parseip_shift (by omega) htail hlong hloop]
      conv_rhs => rw [hsplit]
      rw [hpost, hpre, show 16 - 2 * (a + (8 - (a + n))) = 2 * n by omega]

end Parse

section Dotted

theorem stops_dot (t : List Char) : Stops ('.' :: t) := by
  rintro c hc base
  obtain rfl : '.' = c := Option.some.inj hc
  rfl

theorem dec_head (n : ℕ) (t : List Char) :
    ipcharok ((dec n ++ t).headD nul) = true ∧ (dec n ++ t).headD nul ≠ nul := by
  obtain ⟨c, ds, hds⟩ := List.exists_cons_of_ne_nil (@Nat.toDigits_ne_nil n 10)
  obtain ⟨j, hj, rfl⟩ := (value_toDigits (by decide) (by decide) n).1 c (hds ▸ List.mem_cons_self)
  have hall : ∀ j < 10, ipcharok (Nat.digitChar j) = true ∧ Nat.digitChar j ≠ nul := by decide
  rw [dec, hds]
  exact hall j hj

theorem dec_length {n : ℕ} (hn : n < 2 ^ 8) : (dec n).length ≤ 3 :=
  (Nat.length_toDigits_le_iff (by decide) (by decide)).mpr (by omega)

variable (k i : ℕ) (into : List UInt8) {n : ℕ} (p : List Char)

theorem v4loop_dot (hn : n < 2 ^ 8) :
    v4loop (k + 1) i into (dec n ++ '.' :: p) = v4loop k (i + 1) (into.set i (UInt8.ofNat n)) p := by
  have hread : strtoul (dec n ++ '.' :: p) 0 = (n, '.' :: p) := strtoul_dec (by omega) (stops_dot p)
  rw [v4loop, if_pos (dec_head n _).2, hread]
  rfl

theorem v4loop_last (hn : n < 2 ^ 8) {tail : List Char} (htail : Delim tail) :
    v4loop (k + 1) i into (dec n ++ tail) = v4loop k (i + 1) (into.set i (UInt8.ofNat n)) tail := by
  have hread : strtoul (dec n ++ tail) 0 = (n, tail) := strtoul_dec (by omega) htail.stops
  rw [v4loop, if_pos (dec_head n _).2, hread]
  simp only [if_neg htail.head.1]

theorem byte_lt (q : List UInt8) (i : ℕ) : byte q i < 2 ^ 8 := (q.getD i 0).toNat_lt

/-- The four numbers are read, and the class does not matter. -/
theorem v4parseip_ifmt (q : List UInt8) {tail : List Char} (htail : Delim tail) :
    v4parseip [0, 0, 0, 0] (ifmt q ++ tail) = ([q.getD 0 0, q.getD 1 0, q.getD 2 0, q.getD 3 0], tail) := by
  have hloop : v4loop 4 0 [0, 0, 0, 0] (ifmt q ++ tail) =
      (4, [q.getD 0 0, q.getD 1 0, q.getD 2 0, q.getD 3 0], tail) := by
    rw [ifmt]
    simp only [List.append_assoc, List.cons_append]
    rw [v4loop_dot _ _ _ _ (byte_lt q 0), v4loop_dot _ _ _ _ (byte_lt q 1), v4loop_dot _ _ _ _ (byte_lt q 2),
      v4loop_last _ _ _ (byte_lt q 3) htail, v4loop]
    simp [byte]
  rw [v4parseip, hloop]
  simp only [if_neg (show ¬ 4 = 3 by decide), if_neg (show ¬ 4 = 2 by decide)]
  split
  all_goals rfl

theorem parseip_ifmt {q : List UInt8} (hq : q.length = 4) {tail : List Char} (htail : Delim tail) :
    (parseip (ifmt q ++ tail)).1 = v4prefix ++ q ∧ (parseip (ifmt q ++ tail)).2 ≠ -1 := by
  obtain ⟨b0, b1, b2, b3, rfl⟩ : ∃ b0 b1 b2 b3, q = [b0, b1, b2, b3] := by
    rcases q with _ | ⟨b0, _ | ⟨b1, _ | ⟨b2, _ | ⟨b3, _ | ⟨b4, q⟩⟩⟩⟩⟩
    any_goals cases hq
    exact ⟨b0, b1, b2, b3, rfl⟩
  have hloop : parseloop 8 ⟨0, 0, true, List.replicate IPaddrlen 0, ifmt [b0, b1, b2, b3] ++ tail⟩ =
      some ⟨4, 0, true, [b0, b1, b2, b3] ++ List.replicate 12 0, tail⟩ := by
    have hv4 := v4parseip_ifmt [b0, b1, b2, b3] htail
    have hrest : ((strtoul (ifmt [b0, b1, b2, b3] ++ tail) 16).2).headD nul = '.' := by
      rw [ifmt, List.append_assoc, List.cons_append, dec, strtoul_hex_dec _ (stops_dot _)]
      rfl
    have hok : ipcharok ((ifmt [b0, b1, b2, b3] ++ tail).headD nul) = true := by
      rw [ifmt, List.append_assoc]
      exact (dec_head _ _).1
    rw [parseloop, if_pos ⟨show 0 < 16 by decide, hok⟩]
    simp only [hrest, show IPaddrlen - 4 = 12 from rfl]
    rw [if_pos (.inl ⟨trivial, by decide⟩)]
    exact congrArg (fun v : List UInt8 × List Char => some (⟨4, 0, true, v.1 ++ List.replicate 12 0, v.2⟩ : Parse)) hv4
  have hlong : tail.length < (ifmt [b0, b1, b2, b3] ++ tail).length := by
    have hpos : 0 < (dec (byte [b0, b1, b2, b3] 0)).length := Nat.length_toDigits_pos
    rw [List.length_append, ifmt, List.length_append]
    omega
  have hshift := shift_append [] [b0, b1, b2, b3] 12
  simp only [List.nil_append, List.length_nil, Nat.zero_add] at hshift
  simp only [parseip, hloop]
  rw [if_neg (parseip_fine htail hlong), if_pos (show 4 < IPaddrlen by decide), if_pos trivial]
  refine ⟨?_, ?_⟩
  · exact congrArg (fun v : List UInt8 => (v.set 10 0xff).set 11 0xff) hshift
  · exact (lt_of_lt_of_le (show (-1 : ℤ) < 0 by decide) (Int.natCast_nonneg _)).ne'

end Dotted

section Trip

theorem snprint_lt {size : ℕ} {buf s : List Char} (h : buf.length < size) : (snprint size buf s).length < size := by
  rw [snprint, List.length_append, List.length_take]
  omega

theorem printloop_lt {size : ℕ} {p : List UInt8} {eli eln : ℤ} (k : ℕ) {i : ℕ} {buf : List Char}
    (h : buf.length < size) : (printloop size p eli eln k i buf).length < size := by
  induction k generalizing i buf with
  | zero => exact h
  | succ k ih =>
    rw [printloop]
    split
    · split
      · simp only
        split
        · exact snprint_lt h
        · exact ih (snprint_lt (snprint_lt h))
      · simp only
        split
        · exact ih (snprint_lt (snprint_lt h))
        · exact ih (snprint_lt h)
    · exact h

/-- Text and address are each other's inverse, and a larger buffer would make no difference. -/
theorem ip_text (a : Addr) {tail : List Char} (htail : Delim tail) :
    (parseip (eipfmt sizeof (.I a.bytes) ++ tail)).1 = a.bytes ∧
      (parseip (eipfmt sizeof (.I a.bytes) ++ tail)).2 ≠ -1 ∧
      (eipfmt sizeof (.I a.bytes)).length < sizeof ∧
      ∀ size, sizeof ≤ size → eipfmt size (.I a.bytes) = eipfmt sizeof (.I a.bytes) := by
  have hforty : sizeof = 40 := rfl
  have hlen := a.len
  simp only [eipfmt]
  by_cases hv4 : a.bytes.take 12 = v4prefix
  · have hsplit : v4prefix ++ a.bytes.drop 12 = a.bytes := by rw [← hv4, List.take_append_drop]
    have hshort : (ifmt (a.bytes.drop 12)).length ≤ 15 := by
      have h0 := dec_length (byte_lt (a.bytes.drop 12) 0)
      have h1 := dec_length (byte_lt (a.bytes.drop 12) 1)
      have h2 := dec_length (byte_lt (a.bytes.drop 12) 2)
      have h3 := dec_length (byte_lt (a.bytes.drop 12) 3)
      simp only [ifmt, List.length_append, List.length_cons]
      omega
    have htext : ∀ size, sizeof ≤ size → common size a.bytes = ifmt (a.bytes.drop 12) := fun size hsize => by
      rw [common, if_pos hv4, snprint_room (by rw [List.length_nil]; omega), List.nil_append]
    obtain ⟨hbytes, hret⟩ := parseip_ifmt (q := a.bytes.drop 12)
      (by rw [List.length_drop, hlen]; rfl) htail
    rw [htext sizeof le_rfl]
    exact ⟨hbytes.trans hsplit, hret, by omega, htext⟩
  · obtain ⟨text, hshown, htext⟩ := common_text hv4
    have hfits : (common sizeof a.bytes).length < sizeof := by
      rw [common, if_neg hv4]
      exact printloop_lt _ (by decide)
    rw [htext sizeof le_rfl] at hfits ⊢
    rw [parseip_shown hlen hshown htail]
    exact ⟨rfl, show (6 : ℤ) ≠ -1 by decide, hfits, htext⟩

theorem ip_text_loopback :
    Delim [' ', 'x'] ∧ (parseip (eipfmt sizeof (.I [0, 0, 0, 0, 0, 0, 0, 0, 0, 0, 0, 0, 0, 0, 0, 1]) ++ [' ', 'x'])).1 =
      [0, 0, 0, 0, 0, 0, 0, 0, 0, 0, 0, 0, 0, 0, 0, 1] :=
  have htail : Delim [' ', 'x'] := .inr ⟨' ', ['x'], rfl, .inl rfl⟩
  ⟨htail, (ip_text ⟨[0, 0, 0, 0, 0, 0, 0, 0, 0, 0, 0, 0, 0, 0, 0, 1], rfl⟩ htail).1⟩

example : eipfmt sizeof (.I [0, 0, 0, 0, 0, 0, 0, 0, 0, 0, 0, 0, 0, 0, 0, 1]) = [':', ':', '1'] := by decide

end Trip

end Petele.Ip
