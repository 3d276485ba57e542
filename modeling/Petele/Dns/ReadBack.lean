import Petele.Dns.PackRun

namespace Petele.Dns

section Message

variable (now : ℕ) (m : Message) (buf : ℕ → UInt8) (len : ℕ)

/-- The message before its header is packed. -/
def sections : Pack :=
  (packloop len (convRR2M now len) m.ar (packloop len (convRR2M now len) m.ns (packloop len (convRR2M now len) m.an
    (packloop len (convQ2M len) m.qd ⟨12, fun i => if i < len then 0 else buf i, ⟨[], 0⟩, []⟩).2).2).2).2

theorem header_frame (l : List ℕ) (b : Pack) :
    (l.foldl (fun b x => pushort len x b) b).log = b.log ∧
      ∀ i, b.p + 2 * l.length ≤ i ∨ len ≤ i → (l.foldl (fun b x => pushort len x b) b).mem i = b.mem i := by
  induction l generalizing b with
  | nil => exact ⟨rfl, fun _ _ => rfl⟩
  | cons x l ih =>
    obtain ⟨hlog, hmem⟩ := ih (pushort len x b)
    rw [List.foldl_cons]
    refine ⟨hlog.trans puts_dict.2, fun i hi => ?_⟩
    rw [List.length_cons] at hi
    by_cases hroom : b.p + 2 ≤ len
    · have hput : pushort len x b = { b with p := b.p + 2, mem := store b.mem b.p [UInt8.ofNat (x / 2 ^ 8), UInt8.ofNat x] } :=
        puts_fits hroom
      rw [hmem i (by rw [hput]; dsimp only; omega), hput]
      exact store_above (by simp only [List.length_cons, List.length_nil]; omega)
    · have hput : pushort len x b = { b with p := len + 1 } := puts_full (not_le.mp hroom)
      have hi' : len ≤ i := by omega
      rw [hmem i (.inr hi'), hput]

theorem convDNS2M_sections :
    (convDNS2M now m buf len).n = (if (sections now m buf len).p > len then len else (sections now m buf len).p) ∧
      (convDNS2M now m buf len).log = (sections now m buf len).log ∧
      ∀ i, 12 ≤ i ∨ len ≤ i → (convDNS2M now m buf len).mem i = (sections now m buf len).mem i := by
  refine ⟨rfl, ?_, fun i hi => ?_⟩
  · exact (header_frame len _ { sections now m buf len with p := 0 }).1
  · exact (header_frame len _ { sections now m buf len with p := 0 }).2 i hi

theorem sections_sound (h : ∀ f ∈ (sections now m buf len).log, f.fine = true) :
    Sound (body (sections now m buf len).p) (sections now m buf len) ∧
      ((sections now m buf len).p ≤ len ∨ (sections now m buf len).p = 12) := by
  have hrr : ∀ a, Packs len (convRR2M now len a) := fun a => convRR2M_packs a
  have hq : ∀ a, Packs len (convQ2M len a) := fun a => convQ2M_packs a
  rw [sections] at h ⊢
  set b0 : Pack := ⟨12, fun i => if i < len then 0 else buf i, ⟨[], 0⟩, []⟩ with hb0
  have hs0 : Sound (body b0.p) b0 := ⟨fun e he => (by cases he), fun f hf => (by cases hf)⟩
  obtain ⟨hle1, -, htop1, -⟩ := packloop_frame hq (b := b0) (l := m.qd)
  have hsound1 := packloop_sound hq (b := b0) (l := m.qd) le_rfl hs0
  generalize (packloop len (convQ2M len) m.qd b0).2 = b1 at *
  obtain ⟨hle2, hlog2, htop2, -⟩ := packloop_frame hrr (b := b1) (l := m.an)
  have hsound2 := fun hb hs => packloop_sound hrr (b := b1) (l := m.an) hb hs
  generalize (packloop len (convRR2M now len) m.an b1).2 = b2 at *
  obtain ⟨hle3, hlog3, htop3, -⟩ := packloop_frame hrr (b := b2) (l := m.ns)
  have hsound3 := fun hb hs => packloop_sound hrr (b := b2) (l := m.ns) hb hs
  generalize (packloop len (convRR2M now len) m.ns b2).2 = b3 at *
  obtain ⟨hle4, hlog4, htop4, -⟩ := packloop_frame hrr (b := b3) (l := m.ar)
  have hsound4 := fun hb hs => packloop_sound hrr (b := b3) (l := m.ar) hb hs
  generalize (packloop len (convRR2M now len) m.ar b3).2 = b4 at *
  have hp0 : b0.p = 12 := rfl
  have hf3 := fun g hg => h g (hlog4.subset hg)
  have hf2 := fun g hg => hf3 g (hlog3.subset hg)
  have hf1 := fun g hg => hf2 g (hlog2.subset hg)
  have hs3 := hsound3 (by omega) (hsound2 (by omega) (hsound1 hf1) hf2) hf3
  exact ⟨hsound4 (by omega) hs3 h, by omega⟩

/-- Where each name field is one that can be read back, `gname` reads it back and ends where it does. -/
theorem names_read_back (h : ∀ f ∈ (convDNS2M now m buf len).log, f.fine = true) :
    ∀ f ∈ (convDNS2M now m buf len).log,
      ReadBack ⟨(convDNS2M now m buf len).mem, (convDNS2M now m buf len).n⟩ f.place f.stop f.name := by
  obtain ⟨hn, hlog, hmem⟩ := convDNS2M_sections now m buf len
  rw [hlog] at h ⊢
  obtain ⟨hs, htop⟩ := sections_sound now m buf len h
  intro f hf
  obtain ⟨hlen, hops, hfield⟩ := hs.fields f hf
  have hplace : body (sections now m buf len).p f.place := hfield.reads.at_ (m := ⟨(sections now m buf len).mem, 0⟩)
  have htop' : (sections now m buf len).p ≤ len := by
    rcases htop with htop | htop
    · exact htop
    · rw [htop] at hplace
      exact absurd hplace.1 (not_le.mpr hplace.2)
  rw [if_neg (not_lt.mpr htop')] at hn
  have hfield' : FieldAt (convDNS2M now m buf len).mem (body (sections now m buf len).p) 0 f.place f.name hops f.stop :=
    hfield.mono fun i hi => ⟨hi, hmem i (.inl hi.1)⟩
  exact hfield'.readBack (m := ⟨(convDNS2M now m buf len).mem, (convDNS2M now m buf len).n⟩)
    (fun i hi => hn ▸ hi.2) hlen

end Message

/-- Two questions about the name of one component. -/
def twice : Message where
  id := 0
  flags := 0
  qd := [⟨⟨[97], 1⟩, 1, by decide⟩, ⟨⟨[97], 1⟩, 1, by decide⟩]
  an := []
  ns := []
  ar := []

theorem names_read_back_twice : (convDNS2M 0 twice (fun _ => 0) 512).log ≠ [] ∧ ∀ f ∈ (convDNS2M 0 twice (fun _ => 0) 512).log,
    ReadBack ⟨(convDNS2M 0 twice (fun _ => 0) 512).mem, (convDNS2M 0 twice (fun _ => 0) 512).n⟩ f.place f.stop f.name := by
  refine ⟨by decide +kernel, names_read_back 0 twice _ 512 ?_⟩
  rw [(convDNS2M_sections _ _ _ _).2.1]
  simp [sections, twice, packloop, convQ2M, pname, pnameloop, puts, pushort, lookup, enter, component, components, fine, hops,
    Ndict, Domlen, Labellen, widest]

theorem pname_nil {ep : ℕ} {b : Pack} (h : b.p < ep) : pname ep [] b =
    { b with p := b.p + 1, mem := store b.mem b.p [0], log := ⟨b.p, b.p + 1, [], true⟩ :: b.log } := by
  rw [pname, if_neg (by decide), pnameloop_nil, if_neg (not_le.mpr h), puts_fits h, fine, dif_pos rfl]
  rfl

/-- A service of the root, on a host with a name of one byte. -/
def service : Message where
  id := 0
  flags := 0
  qd := []
  an := [{ owner := ⟨[], 1⟩, type := 33, ttl := 0, vals := [.num 0, .num 0, .num 0, .dn (some ⟨[97], 1⟩)], db := true,
           owned := by decide
           fits := .cons trivial (.cons trivial (.cons trivial (.cons (show 0 ∉ [(97 : UInt8)] by decide) .nil))) }]
  ns := []
  ar := []

theorem service_sections :
    (sections 0 service (fun _ => 0) 512).p = 31 ∧
    ⟨29, 31, [97], false⟩ ∈ (sections 0 service (fun _ => 0) 512).log ∧
    (sections 0 service (fun _ => 0) 512).mem 29 = 1 ∧ (sections 0 service (fun _ => 0) 512).mem 31 = 0 := by
  have hname := pname_nil (b := ⟨12, fun i => if i < 512 then 0 else 0, ⟨[], 0⟩, []⟩) (show 12 < 512 by decide)
  have hrr : ∃ r b, service.an = [r] ∧ convRR2M 0 512 r ⟨12, fun i => if i < 512 then 0 else 0, ⟨[], 0⟩, []⟩ = b ∧
      b.p = 31 ∧ b.log = [⟨29, 31, [97], false⟩, ⟨12, 13, [], true⟩] ∧ b.mem 29 = 1 ∧ b.mem 31 = 0 := by
    refine ⟨_, _, rfl, rfl, ?_⟩
    rw [convRR2M]
    dsimp only
    rw [hname]
    exact ⟨rfl, rfl, rfl, rfl⟩
  obtain ⟨r, b, hr, hb, hp, hlog, h29, h31⟩ := hrr
  have hs : sections 0 service (fun _ => 0) 512 = b := by
    rw [sections, hr]
    simp only [show service.qd = [] from rfl, show service.ns = [] from rfl, show service.ar = [] from rfl, packloop, hb, hp]
    rfl
  rw [hs, hp, hlog]
  exact ⟨rfl, List.mem_cons_self, h29, h31⟩

/-- The end of a name of one byte at 29 is looked for behind it. -/
theorem gname_letter {m : Msg} (h29 : m.mem 29 = 1) (h31 : m.mem 31 = 0) (hep : m.ep = 31) :
    (gname m { start with p := 29 }).2.p = 32 := by
  have hp : 29 < m.ep := by omega
  rw [gname, if_neg (by decide)]
  dsimp only
  rw [gnameloop_label (by rw [h29]; decide) hp (by rw [h29]; decide) (by rw [h29]; decide), h29,
    show 29 + 1 + UInt8.toNat 1 = 31 from rfl]
  dsimp only
  rw [if_pos h31, gnameloop_end (.inl h31)]
  rfl

theorem service_not_read_back : ¬ ∀ (now : ℕ) (m : Message) (buf : ℕ → UInt8) (len : ℕ),
    ∀ f ∈ (convDNS2M now m buf len).log,
      ReadBack ⟨(convDNS2M now m buf len).mem, (convDNS2M now m buf len).n⟩ f.place f.stop f.name := by
  intro h
  obtain ⟨hp, hf, h29, h31⟩ := service_sections
  obtain ⟨hn, hlog, hmem⟩ := convDNS2M_sections 0 service (fun _ => 0) 512
  obtain ⟨s', hg, -, -, hp'⟩ := h 0 service (fun _ => 0) 512 _ (hlog ▸ hf) { start with p := 29 } rfl rfl rfl
  rw [hp, if_neg (by decide)] at hn
  have h32 := gname_letter (m := ⟨(convDNS2M 0 service (fun _ => 0) 512).mem, (convDNS2M 0 service (fun _ => 0) 512).n⟩)
    ((hmem 29 (by decide)).trans h29) ((hmem 31 (by decide)).trans h31) hn
  rw [hg] at h32
  exact absurd (hp'.symm.trans h32) (by decide)

end Petele.Dns
