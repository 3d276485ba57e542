import Petele.Lib.Format

namespace Petele.Lib

/-- How a pass over a byte buffer ends: by touching a byte outside the buffer, by giving
up, or with a value, the cursor and the buffer. -/
inductive Outcome (α : Type)
  | fault
  | quit (buf : List UInt8)
  | ok (a : α) (p : ℕ) (buf : List UInt8)

/-- A pass over a buffer with a cursor. The end of the buffer is its length. -/
structure Cursor (α : Type) where
  run : ℕ → List UInt8 → Outcome α

namespace Cursor

variable {α β γ : Type}

def andThen (m : Cursor α) (k : α → Cursor β) : Cursor β where
  run p buf :=
    match m.run p buf with
    | .fault => .fault
    | .quit buf => .quit buf
    | .ok a p buf => (k a).run p buf

instance : Monad Cursor where
  pure a := ⟨fun p buf ↦ .ok a p buf⟩
  bind := andThen

@[simp] theorem run_pure (a : α) (p : ℕ) (buf : List UInt8) :
    (pure a : Cursor α).run p buf = .ok a p buf := rfl

theorem run_bind (m : Cursor α) (k : α → Cursor β) (p : ℕ) (buf : List UInt8) :
    (m >>= k).run p buf =
      match m.run p buf with
      | .fault => .fault
      | .quit buf => .quit buf
      | .ok a p buf => (k a).run p buf := rfl

theorem bind_ok {m : Cursor α} {p q : ℕ} {buf buf' : List UInt8} {a : α} (k : α → Cursor β)
    (h : m.run p buf = .ok a q buf') : (m >>= k).run p buf = (k a).run q buf' := by
  rw [run_bind, h]

theorem bind_quit {m : Cursor α} {p : ℕ} {buf buf' : List UInt8} (k : α → Cursor β)
    (h : m.run p buf = .quit buf') : (m >>= k).run p buf = .quit buf' := by
  rw [run_bind, h]

theorem bind_assoc (m : Cursor α) (k : α → Cursor β) (l : β → Cursor γ) :
    m >>= k >>= l = m >>= fun a ↦ k a >>= l := by
  change andThen (andThen m k) l = andThen m (fun a ↦ andThen (k a) l)
  simp only [andThen]
  congr 1
  funext p buf
  cases m.run p buf <;> rfl

def quit : Cursor α := ⟨fun _ buf ↦ .quit buf⟩

/-- The `n` bytes that start `i` bytes after the cursor. -/
def peek (i n : ℕ) : Cursor (List UInt8) where
  run p buf := if p + i + n ≤ buf.length then .ok ((buf.drop (p + i)).take n) p buf else .fault

/-- Overwrite the bytes that start `i` bytes after the cursor. -/
def poke (i : ℕ) (bs : List UInt8) : Cursor Unit where
  run p buf :=
    if p + i + bs.length ≤ buf.length then
      .ok () p (buf.take (p + i) ++ bs ++ buf.drop (p + i + bs.length))
    else .fault

def advance (n : ℕ) : Cursor Unit := ⟨fun p buf ↦ .ok () (p + n) buf⟩

def here : Cursor ℕ := ⟨fun p buf ↦ .ok p p buf⟩

/-- Give up unless `n` bytes are left. -/
def room (n : ℕ) : Cursor Unit where
  run p buf := if p + n ≤ buf.length then .ok () p buf else .quit buf

@[simp] theorem run_quit (p : ℕ) (buf : List UInt8) : (quit : Cursor α).run p buf = .quit buf := rfl

@[simp] theorem run_advance (n p : ℕ) (buf : List UInt8) :
    (advance n).run p buf = .ok () (p + n) buf := rfl

@[simp] theorem run_here (p : ℕ) (buf : List UInt8) : here.run p buf = .ok p p buf := rfl

theorem run_room (pre todo : List UInt8) (n : ℕ) :
    (room n).run pre.length (pre ++ todo) =
      if n ≤ todo.length then .ok () pre.length (pre ++ todo) else .quit (pre ++ todo) := by
  simp only [room, List.length_append, Nat.add_le_add_iff_left]

theorem run_peek {pre skip bs post : List UInt8} {i n : ℕ} (hi : i = skip.length) (hn : n = bs.length) :
    (peek i n).run pre.length (pre ++ (skip ++ (bs ++ post))) =
      .ok bs pre.length (pre ++ (skip ++ (bs ++ post))) := by
  subst hi hn
  have hdrop : (pre ++ (skip ++ (bs ++ post))).drop (pre.length + skip.length) = bs ++ post := by
    rw [← List.append_assoc, List.drop_left' (List.length_append)]
  simp only [peek, hdrop]
  rw [if_pos (by simp only [List.length_append]; omega)]
  simp

theorem run_poke {pre skip old bs post : List UInt8} {i : ℕ} (hi : i = skip.length)
    (hn : bs.length = old.length) :
    (poke i bs).run pre.length (pre ++ (skip ++ (old ++ post))) =
      .ok () pre.length (pre ++ (skip ++ (bs ++ post))) := by
  subst hi
  have htake : (pre ++ (skip ++ (old ++ post))).take (pre.length + skip.length) = pre ++ skip := by
    rw [← List.append_assoc, List.take_left' (List.length_append)]
  have hdrop : (pre ++ (skip ++ (old ++ post))).drop (pre.length + skip.length + bs.length) = post := by
    rw [hn, ← List.append_assoc, ← List.append_assoc, List.drop_left' (by simp [Nat.add_assoc])]
  simp only [poke, htake, hdrop]
  rw [if_pos (by simp only [List.length_append, hn]; omega)]
  simp

end Cursor

/-- `m` writes exactly `bs` at the cursor and moves past it. -/
def Puts (bs : List UInt8) (m : Cursor Unit) : Prop :=
  ∀ pre old post, old.length = bs.length →
    m.run pre.length (pre ++ (old ++ post)) = .ok () (pre.length + bs.length) (pre ++ (bs ++ post))

namespace Puts

variable {bs cs : List UInt8} {m k : Cursor Unit}

theorem nothing : Puts [] (pure ()) := by
  intro pre old post h
  rw [List.length_eq_zero_iff.mp h]
  rfl

theorem andThen (hm : Puts bs m) (hk : Puts cs k) : Puts (bs ++ cs) (do m; k) := by
  intro pre old post h
  rw [List.length_append] at h
  have htake : (old.take bs.length).length = bs.length := by rw [List.length_take]; omega
  have hdrop : (old.drop bs.length).length = cs.length := by rw [List.length_drop]; omega
  have h₁ := hm pre (old.take bs.length) (old.drop bs.length ++ post) htake
  have h₂ := hk (pre ++ bs) (old.drop bs.length) post hdrop
  rw [← List.append_assoc (old.take _), List.take_append_drop] at h₁
  rw [List.length_append, List.append_assoc, List.append_assoc] at h₂
  rw [Cursor.bind_ok _ h₁, h₂]
  simp [Nat.add_assoc]

theorem poke (bs : List UInt8) : Puts bs (do Cursor.poke 0 bs; Cursor.advance bs.length) := by
  intro pre old post h
  have h₁ : (Cursor.poke 0 bs).run pre.length (pre ++ (old ++ post)) =
      .ok () pre.length (pre ++ (bs ++ post)) := @Cursor.run_poke pre [] old bs post 0 rfl h.symm
  rw [Cursor.bind_ok _ h₁]
  rfl

theorem forEach {α : Type} {enc : α → List UInt8} {put : α → Cursor Unit} (l : List α)
    (h : ∀ a ∈ l, Puts (enc a) (put a)) : Puts (l.flatMap enc) (l.forM put) := by
  induction l with
  | nil => exact nothing
  | cons a l ih =>
    exact (h a List.mem_cons_self).andThen (ih (fun b hb ↦ h b (List.mem_cons_of_mem _ hb)))

end Puts

end Petele.Lib
