import Petele.Lib.Cursor

namespace Petele.Lib

/-- `m` writes `n` bytes at the cursor and moves past them, and touches a byte outside the buffer if they are not there. -/
def Fills (n : ℕ) (m : Cursor Unit) : Prop :=
  ∀ p buf, p ≤ buf.length → (p + n ≤ buf.length → ∃ buf', buf'.length = buf.length ∧ m.run p buf = .ok () (p + n) buf') ∧
    (buf.length < p + n → m.run p buf = .fault)

namespace Fills

variable {n k : ℕ} {m m' : Cursor Unit}

theorem nothing : Fills 0 (pure ()) :=
  fun p buf hp ↦ ⟨fun _ ↦ ⟨buf, rfl, rfl⟩, fun h ↦ by omega⟩

theorem andThen (h : Fills n m) (h' : Fills k m') : Fills (n + k) (do m; m') := by
  intro p buf hp
  by_cases hn : p + n ≤ buf.length
  · obtain ⟨buf', hlen, hrun⟩ := (h p buf hp).1 hn
    rw [Cursor.bind_ok _ hrun]
    obtain ⟨hin, hout⟩ := h' (p + n) buf' (by omega)
    rw [hlen] at hin hout
    refine ⟨fun hk ↦ ?_, fun hk ↦ hout (by omega)⟩
    obtain ⟨buf'', hlen', hrun'⟩ := hin (by omega)
    exact ⟨buf'', hlen', by rw [hrun', Nat.add_assoc]⟩
  · have hrun := (h p buf hp).2 (by omega)
    exact ⟨fun hk ↦ by omega, fun _ ↦ by rw [Cursor.run_bind, hrun]⟩

theorem poke (bs : List UInt8) : Fills bs.length (do Cursor.poke 0 bs; Cursor.advance bs.length) := by
  intro p buf hp
  refine ⟨fun hin ↦ ?_, fun hout ↦ ?_⟩
  · have hrun : (Cursor.poke 0 bs).run p buf = .ok () p (buf.take p ++ bs ++ buf.drop (p + bs.length)) := if_pos hin
    refine ⟨_, ?_, Cursor.bind_ok _ hrun⟩
    simp only [List.length_append, List.length_take, List.length_drop]
    omega
  · have hrun : (Cursor.poke 0 bs).run p buf = .fault := if_neg (by simp only [Nat.add_zero]; omega)
    rw [Cursor.run_bind, hrun]

theorem forEach {α : Type} {size : α → ℕ} {put : α → Cursor Unit} (l : List α) (h : ∀ a ∈ l, Fills (size a) (put a)) :
    Fills (l.map size).sum (l.forM put) := by
  induction l with
  | nil => exact nothing
  | cons a l ih =>
    rw [List.map_cons, List.sum_cons]
    exact (h a List.mem_cons_self).andThen (ih fun b hb ↦ h b (List.mem_cons_of_mem _ hb))

end Fills

end Petele.Lib
