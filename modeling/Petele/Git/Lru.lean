import Petele.Git.Objtab
import Petele.Lib.Dlist
import Mathlib.Algebra.BigOperators.Group.List.Basic
import Mathlib.Logic.Relation

namespace Petele.Git.Lru

open Lib

/-- The types of objects that `clear` tells apart. -/
inductive Kind
  | commit
  | tree
  | other
  deriving DecidableEq

/-- `struct Object` as far as the cache uses it: four of its flags, and of the buffers whether
they are there. -/
structure Object (P : Type) where
  type : Kind
  id : ℕ
  loaded : Bool
  cached : Bool
  exist : Bool
  parsed : Bool
  refs : ℤ
  next : Option P
  prev : Option P
  all : Bool
  size : ℤ
  info : Bool

/-- Why a call does not return. -/
inductive Halt
  | assert
  | loop
  | osadd (e : Stop)
  deriving DecidableEq

structure State (P : Type) where
  obj : P → Object P
  objcache : Objtab P
  lruhead : Option P
  lrutail : Option P
  ncache : ℤ

variable {P : Type} [DecidableEq P]

namespace State

def next (s : State P) (o : P) : Option P := (s.obj o).next

def prev (s : State P) (o : P) : Option P := (s.obj o).prev

def put (s : State P) (o : P) (v : Object P) : State P := { s with obj := Function.update s.obj o v }

/-- `o->next = v`, where `o` is not nil. -/
def setNext (s : State P) (o v : Option P) : State P :=
  match o with
  | none => s
  | some o => s.put o { s.obj o with next := v }

def setPrev (s : State P) (o v : Option P) : State P :=
  match o with
  | none => s
  | some o => s.put o { s.obj o with prev := v }

def clear (s : State P) : Option P → Except Halt (State P)
  | none => .ok s
  | some o =>
    if (s.obj o).refs = 0 ∧ (s.obj o).cached = false ∧ (s.obj o).loaded = true then
      .ok (s.put o { s.obj o with
        info := if (s.obj o).type = .other then (s.obj o).info else false
        all := false
        loaded := false
        parsed := false })
    else .error .assert

def unref (s : State P) : Option P → Except Halt (State P)
  | none => .ok s
  | some o =>
    let s := s.put o { s.obj o with refs := (s.obj o).refs - 1 }
    if (s.obj o).refs = 0 then s.clear (some o) else .ok s

def ref (s : State P) (o : P) : State P := s.put o { s.obj o with refs := (s.obj o).refs + 1 }

/-- The body of the loop of `cache`, with `lrutail` at `p`. -/
def drop (s : State P) (p : P) : Except Halt (State P) :=
  let s := { s with lrutail := (s.obj p).prev }
  let s := s.setNext s.lrutail none
  let s := s.put p { s.obj p with cached := false, prev := none, next := none }
  let s := { s with ncache := s.ncache - (s.obj p).size }
  s.unref (some p)

/-- The loop of `cache`, run for as many rounds as the first argument says. A nil `lrutail`
with `lruhead` not nil is an address fault. -/
def evict (cachemax : ℤ) : ℕ → State P → Except Halt (State P)
  | 0, _ => .error .loop
  | k + 1, s =>
    if cachemax < s.ncache ∧ s.lrutail ≠ s.lruhead then
      match s.lrutail with
      | none => .error .assert
      | some p => do
        let s ← s.drop p
        evict cachemax k s
    else .ok s

variable (hash : P → Hash)

/-- An object that is not known yet gets its place in `objcache`. -/
def know (s : State P) (o : P) : Except Halt (State P) :=
  if (s.obj o).exist then .ok s
  else
    match Objtab.osadd hash s.objcache o with
    | .error e => .error (.osadd e)
    | .ok t => .ok ({ s with objcache := t }.put o { s.obj o with id := t.nobj, exist := true })

/-- The neighbours of an object get linked to each other. -/
def bypass (s : State P) (o : P) : State P :=
  let s := s.setNext (s.obj o).prev (s.obj o).next
  s.setPrev (s.obj o).next (s.obj o).prev

def retail (s : State P) (o : P) : State P :=
  if s.lrutail = some o then
    let s := { s with lrutail := (s.obj o).prev }
    s.setNext s.lrutail none
  else if s.lrutail = none then { s with lrutail := some o }
  else s

def push (s : State P) (o : P) : State P :=
  let s := s.setPrev s.lruhead (some o)
  { s.put o { s.obj o with next := s.lruhead, prev := none } with lruhead := some o }

/-- The object comes first in the list. -/
def front (s : State P) (o : P) : State P := ((s.bypass o).retail o).push o

/-- The cache takes its own reference. -/
def count (s : State P) (o : P) : State P :=
  if (s.obj o).cached then s
  else
    let s := (s.put o { s.obj o with cached := true }).ref o
    { s with ncache := s.ncache + (s.obj o).size }

def cache (cachemax : ℤ) (k : ℕ) (s : State P) (o : P) : Except Halt (State P) :=
  if some o = s.lruhead then .ok s
  else do
    let s := if some o = s.lrutail then { s with lrutail := (s.obj o).prev } else s
    let s ← s.know hash o
    evict cachemax k ((s.front o).count o)

/-- `readpacked` and `readloose` give the object its contents. -/
def load (s : State P) (o : P) (type : Kind) (all : Bool) (size : ℤ) : State P :=
  s.put o { s.obj o with type := type, all := all, size := size, loaded := true }

def parseobject (s : State P) (o : P) : State P :=
  if (s.obj o).parsed then s
  else s.put o { s.obj o with
    info := (s.obj o).info || decide ((s.obj o).type ≠ .other)
    parsed := true }

/-- No object has been seen. -/
structure Fresh (s : State P) : Prop where
  obj : ∀ o, (s.obj o).loaded = false ∧ (s.obj o).cached = false ∧ (s.obj o).exist = false ∧
    (s.obj o).refs = 0 ∧ (s.obj o).next = none ∧ (s.obj o).prev = none
  objcache : s.objcache = Objtab.osinit
  lruhead : s.lruhead = none
  lrutail : s.lrutail = none
  ncache : s.ncache = 0

section

variable {s s' : State P} {o x : P} {v : Object P} {y w : Option P} {l l₁ l₂ : List P} {hash} {held : P → ℕ}
  {cachemax : ℤ}

@[simp] theorem put_self : (s.put o v).obj o = v := Function.update_self _ _ _

theorem put_of_ne (hx : x ≠ o) : (s.put o v).obj x = s.obj x := Function.update_of_ne hx _ _

theorem put_next : (s.put o v).next = Function.update s.next o v.next := by
  funext x
  rcases eq_or_ne x o with rfl | hx
  · rw [Function.update_self, next, put_self]
  · rw [Function.update_of_ne hx, next, put_of_ne hx, next]

theorem put_prev : (s.put o v).prev = Function.update s.prev o v.prev := by
  funext x
  rcases eq_or_ne x o with rfl | hx
  · rw [Function.update_self, prev, put_self]
  · rw [Function.update_of_ne hx, prev, put_of_ne hx, prev]

theorem setNext_next : (s.setNext y w).next = relinked s.next y w := by
  cases y with
  | none => rfl
  | some y => exact put_next

theorem setNext_prev : (s.setNext y w).prev = s.prev := by
  cases y with
  | none => rfl
  | some y => exact put_prev.trans (Function.update_eq_self _ _)

theorem setPrev_prev : (s.setPrev y w).prev = relinked s.prev y w := by
  cases y with
  | none => rfl
  | some y => exact put_prev

theorem setPrev_next : (s.setPrev y w).next = s.next := by
  cases y with
  | none => rfl
  | some y => exact put_next.trans (Function.update_eq_self _ _)

end

end State

/-- An object without its links. -/
def Object.bare (v : Object P) : Object P := { v with next := none, prev := none }

/-- Only links differ. -/
structure State.Relinked (s s' : State P) : Prop where
  bare : ∀ o, (s'.obj o).bare = (s.obj o).bare
  objcache : s'.objcache = s.objcache
  ncache : s'.ncache = s.ncache

namespace State

section

variable {s s' t : State P} {o x : P} {v : Object P} {y w w' : Option P} {l l₁ l₂ : List P} {hash} {held : P → ℕ}
  {cachemax : ℤ}

omit [DecidableEq P] in
theorem Relinked.trans (h : Relinked s s') (h' : Relinked s' t) : Relinked s t :=
  ⟨fun o => (h'.bare o).trans (h.bare o), h'.objcache.trans h.objcache, h'.ncache.trans h.ncache⟩

theorem relinked_put (hv : v.bare = (s.obj o).bare) : Relinked s (s.put o v) := by
  refine ⟨fun x => ?_, rfl, rfl⟩
  rcases eq_or_ne x o with rfl | hx
  · rw [put_self, hv]
  · rw [put_of_ne hx]

theorem relinked_setNext : Relinked s (s.setNext y w) := by
  cases y with
  | none => exact ⟨fun _ => rfl, rfl, rfl⟩
  | some y => exact relinked_put rfl

theorem relinked_setPrev : Relinked s (s.setPrev y w) := by
  cases y with
  | none => exact ⟨fun _ => rfl, rfl, rfl⟩
  | some y => exact relinked_put rfl

omit [DecidableEq P] in
theorem Relinked.cached (h : Relinked s s') (o : P) : (s'.obj o).cached = (s.obj o).cached := by
  have hbare := congrArg Object.cached (h.bare o)
  exact hbare

omit [DecidableEq P] in
theorem Relinked.loaded (h : Relinked s s') (o : P) : (s'.obj o).loaded = (s.obj o).loaded := by
  have hbare := congrArg Object.loaded (h.bare o)
  exact hbare

omit [DecidableEq P] in
theorem Relinked.refs (h : Relinked s s') (o : P) : (s'.obj o).refs = (s.obj o).refs := by
  have hbare := congrArg Object.refs (h.bare o)
  exact hbare

omit [DecidableEq P] in
theorem Relinked.size (h : Relinked s s') (o : P) : (s'.obj o).size = (s.obj o).size := by
  have hbare := congrArg Object.size (h.bare o)
  exact hbare

theorem setPrev_lruhead : (s.setPrev y w).lruhead = s.lruhead := by
  cases y <;> rfl

theorem setNext_lruhead : (s.setNext y w).lruhead = s.lruhead := by
  cases y <;> rfl

theorem setPrev_lrutail : (s.setPrev y w).lrutail = s.lrutail := by
  cases y <;> rfl

theorem setNext_lrutail : (s.setNext y w).lrutail = s.lrutail := by
  cases y <;> rfl

theorem relinked_push : Relinked s (s.push o) := by
  have hset := relinked_setPrev (s := s) (y := s.lruhead) (w := some o)
  have hput := relinked_put (s := s.setPrev s.lruhead (some o)) (o := o)
    (v := { (s.setPrev s.lruhead (some o)).obj o with next := (s.setPrev s.lruhead (some o)).lruhead, prev := none }) rfl
  have hboth := hset.trans hput
  exact ⟨hboth.bare, hboth.objcache, hboth.ncache⟩

theorem relinked_front : Relinked s (s.front o) := by
  have hbypass : Relinked s (s.bypass o) := relinked_setNext.trans relinked_setPrev
  have hretail : Relinked (s.bypass o) ((s.bypass o).retail o) := by
    rw [retail]
    split
    · exact ⟨relinked_setNext.bare, relinked_setNext.objcache, relinked_setNext.ncache⟩
    · split
      · exact ⟨fun _ => rfl, rfl, rfl⟩
      · exact ⟨fun _ => rfl, rfl, rfl⟩
  exact (hbypass.trans hretail).trans relinked_push

theorem bypass_next :
    (s.bypass o).next = relinked s.next (s.prev o) (s.next o) := setPrev_next.trans setNext_next

theorem bypass_prev (hself : s.prev o ≠ some o) :
    (s.bypass o).prev = relinked s.prev (s.next o) (s.prev o) := by
  have hnext : (s.setNext (s.prev o) (s.next o)).next o = s.next o := by
    rw [setNext_next]
    apply relinked_of_ne
    intro z hz heq
    exact hself (hz.trans (congrArg some heq).symm)
  have hprev : (s.setNext (s.prev o) (s.next o)).prev o = s.prev o := by rw [setNext_prev]
  have hset : (s.bypass o).prev = relinked (s.setNext (s.prev o) (s.next o)).prev
      ((s.setNext (s.prev o) (s.next o)).next o) ((s.setNext (s.prev o) (s.next o)).prev o) := setPrev_prev
  rw [hset, hnext, hprev, setNext_prev]

theorem push_next : (s.push o).next = Function.update s.next o s.lruhead := by
  have hput : (s.push o).next = Function.update (s.setPrev s.lruhead (some o)).next o
      (s.setPrev s.lruhead (some o)).lruhead := put_next
  rw [hput, setPrev_next, setPrev_lruhead]

theorem push_prev : (s.push o).prev = Function.update (relinked s.prev s.lruhead (some o)) o none := by
  have hput : (s.push o).prev = Function.update (s.setPrev s.lruhead (some o)).prev o none := put_prev
  rw [hput, setPrev_prev]

theorem push_lrutail : (s.push o).lrutail = s.lrutail := setPrev_lrutail (s := s)

/-- `front` where the object is not the last. -/
theorem front_eq (hself : s.prev o ≠ some o) (ho : s.lrutail ≠ some o) :
    (s.front o).next = Function.update (relinked s.next (s.prev o) (s.next o)) o s.lruhead ∧
      (s.front o).prev =
        Function.update (relinked (relinked s.prev (s.next o) (s.prev o)) s.lruhead (some o)) o none ∧
      (s.front o).lruhead = some o ∧ (s.front o).lrutail = if s.lrutail = none then some o else s.lrutail := by
  have hhead : (s.bypass o).lruhead = s.lruhead := setPrev_lruhead.trans setNext_lruhead
  have htail : (s.bypass o).lrutail = s.lrutail := setPrev_lrutail.trans setNext_lrutail
  have hretail : (s.bypass o).retail o =
      { s.bypass o with lrutail := if s.lrutail = none then some o else s.lrutail } := by
    rw [retail, htail, if_neg ho]
    split
    · rfl
    · rw [← htail]
  have hnext : ((s.bypass o).retail o).next = (s.bypass o).next := by rw [hretail]; rfl
  have hprev : ((s.bypass o).retail o).prev = (s.bypass o).prev := by rw [hretail]; rfl
  have hhead' : ((s.bypass o).retail o).lruhead = s.lruhead := by rw [hretail]; exact hhead
  refine ⟨?_, ?_, rfl, ?_⟩
  · rw [front, push_next, hnext, hhead', bypass_next]
  · rw [front, push_prev, hprev, hhead', bypass_prev hself]
  · rw [front, push_lrutail, hretail]

/-- Links of other objects than the ones it leads to are kept by `front`. -/
theorem front_frame (hself : s.prev o ≠ some o) (ho : s.lrutail ≠ some o) (hx : x ≠ o) (hp : s.prev o ≠ some x)
    (hn : s.next o ≠ some x) (hh : s.lruhead ≠ some x) :
    (s.front o).next x = s.next x ∧ (s.front o).prev x = s.prev x := by
  have hne : ∀ {y : Option P}, y ≠ some x → ∀ z ∈ y, x ≠ z := fun hy z hz heq => hy (hz.trans (congrArg some heq.symm))
  obtain ⟨hnext, hprev, -, -⟩ := front_eq hself ho
  constructor
  · rw [hnext, Function.update_of_ne hx, relinked_of_ne (hne hp)]
  · rw [hprev, Function.update_of_ne hx, relinked_of_ne (hne hh), relinked_of_ne (hne hn)]

/-- An object that is not listed becomes the first. -/
theorem front_new (h : Dlist s.next s.prev s.lruhead s.lrutail l) (ho : o ∉ l) (hnext : s.next o = none)
    (hprev : s.prev o = none) :
    Dlist (s.front o).next (s.front o).prev (s.front o).lruhead (s.front o).lrutail (o :: l) ∧
      ∀ x ∉ o :: l, (s.front o).next x = s.next x ∧ (s.front o).prev x = s.prev x := by
  have hself : s.prev o ≠ some o := by
    rw [hprev]
    exact Option.some_ne_none o ∘ Eq.symm
  have htail : s.lrutail ≠ some o := by
    rw [h.tail_eq]
    exact fun hmem => ho (List.mem_of_getLast? hmem)
  have hempty : (s.lrutail = none) = (s.lruhead = none) := by
    rw [h.tail_eq, h.head_eq, List.getLast?_eq_none_iff, List.head?_eq_none_iff]
  constructor
  · obtain ⟨hn, hp, hh, ht⟩ := front_eq hself htail
    rw [hn, hp, hh, ht, hprev, hnext]
    simp only [hempty]
    exact h.pushFront ho
  · intro x hx
    rw [List.mem_cons, not_or] at hx
    apply front_frame hself htail hx.1
    · rw [hprev]
      exact Option.some_ne_none x ∘ Eq.symm
    · rw [hnext]
      exact Option.some_ne_none x ∘ Eq.symm
    · rw [h.head_eq]
      exact fun hmem => hx.2 (List.mem_of_mem_head? hmem)

theorem relinked_update {f : P → Option P} {h : Option P} :
    Function.update (relinked (Function.update f o w) h y) o w' = Function.update (relinked f h y) o w' := by
  cases h with
  | none => exact Function.update_idem _ _ _
  | some z =>
    rw [relinked, relinked]
    rcases eq_or_ne z o with rfl | hz
    · rw [Function.update_idem, Function.update_idem, Function.update_idem]
    · rw [Function.update_comm hz, Function.update_idem, Function.update_comm hz.symm]

/-- A listed object that is not the first becomes the first. -/
theorem front_old (h : Dlist s.next s.prev s.lruhead s.lrutail (l₁ ++ o :: l₂)) (hl : l₁ ≠ []) :
    Dlist (front { s with lrutail := if some o = s.lrutail then s.prev o else s.lrutail } o).next
      (front { s with lrutail := if some o = s.lrutail then s.prev o else s.lrutail } o).prev
      (front { s with lrutail := if some o = s.lrutail then s.prev o else s.lrutail } o).lruhead
      (front { s with lrutail := if some o = s.lrutail then s.prev o else s.lrutail } o).lrutail
      (o :: (l₁ ++ l₂)) ∧
      ∀ x ∉ o :: (l₁ ++ l₂),
        (front { s with lrutail := if some o = s.lrutail then s.prev o else s.lrutail } o).next x = s.next x ∧
          (front { s with lrutail := if some o = s.lrutail then s.prev o else s.lrutail } o).prev x = s.prev x := by
  have hnodup := h.nodup
  rw [List.nodup_middle, List.nodup_cons] at hnodup
  have ho := hnodup.1
  have hlast : s.prev o ≠ none := by
    rw [h.prev_eq]
    exact fun hnil => hl (List.getLast?_eq_none_iff.mp hnil)
  have hself : s.prev o ≠ some o := by
    rw [h.prev_eq]
    exact fun hmem => ho (List.mem_append_left _ (List.mem_of_getLast? hmem))
  have hcond : (some o = s.lrutail) = (s.next o = none) := by
    rw [h.tail_eq, h.next_eq, List.head?_eq_none_iff]
    cases l₂ using List.reverseRecOn with
    | nil => simp
    | append_singleton l₂ y _ =>
      have hy : o ≠ y := by
        rintro rfl
        exact ho (by simp)
      have hshape : l₁ ++ o :: (l₂ ++ [y]) = (l₁ ++ o :: l₂) ++ [y] := by simp
      rw [hshape, List.getLast?_concat]
      simp [hy]
  have hunlink := h.unlink
  rw [if_neg hlast] at hunlink
  simp only [hcond]
  generalize hT : (if s.next o = none then s.prev o else s.lrutail) = T at hunlink ⊢
  have htail : T ≠ some o := by
    rw [hunlink.tail_eq]
    exact fun hmem => ho (List.mem_of_getLast? hmem)
  have hnil : T ≠ none := by
    rw [hunlink.tail_eq]
    exact fun hnil => hl (List.append_eq_nil_iff.mp (List.getLast?_eq_none_iff.mp hnil)).1
  have hhead : s.lruhead ≠ none := by
    rw [hunlink.head_eq]
    exact fun hnil => hl (List.append_eq_nil_iff.mp (List.head?_eq_none_iff.mp hnil)).1
  constructor
  · have hpush := hunlink.pushFront ho
    rw [Function.update_idem, relinked_update, if_neg hhead] at hpush
    obtain ⟨hn, hp, hh, ht⟩ := front_eq (s := { s with lrutail := T }) hself htail
    rw [hn, hp, hh, ht, if_neg hnil]
    exact hpush
  · intro x hx
    rw [List.mem_cons, not_or] at hx
    refine front_frame (s := { s with lrutail := T }) hself htail hx.1 ?_ ?_ ?_
    · intro hmem
      exact hx.2 (List.mem_append_left _ (List.mem_of_getLast? (h.prev_eq.symm.trans hmem)))
    · intro hmem
      exact hx.2 (List.mem_append_right _ (List.mem_of_mem_head? (h.next_eq.symm.trans hmem)))
    · intro hmem
      exact hx.2 (List.mem_of_mem_head? (hunlink.head_eq.symm.trans hmem))

end

/-- The objects of the list are the cached ones, where the clients hold `held` references. -/
structure Good (hash : P → Hash) (s : State P) (held : P → ℕ) (l : List P) : Prop where
  list : Dlist s.next s.prev s.lruhead s.lrutail l
  free : ∀ o ∉ l, s.next o = none ∧ s.prev o = none
  cached : ∀ o, (s.obj o).cached = true ↔ o ∈ l
  ncache : s.ncache = (l.map fun o => (s.obj o).size).sum
  refs : ∀ o, (s.obj o).refs = held o + if (s.obj o).cached then 1 else 0
  loaded : ∀ o ∈ l, (s.obj o).loaded = true
  objcache : (s.objcache.erase hash).Ok

section

variable {s s' t : State P} {o x p : P} {v : Object P} {l l₁ l₂ : List P} {hash : P → Hash} {held : P → ℕ} {n : ℕ}
  {cachemax : ℤ}

/-- One object changes, but neither its links nor whether it is cached. -/
theorem Good.put (h : Good hash s held l) (hnext : v.next = s.next o) (hprev : v.prev = s.prev o)
    (hcached : v.cached = (s.obj o).cached) (hsize : o ∈ l → v.size = (s.obj o).size)
    (hloaded : o ∈ l → v.loaded = true) (hrefs : v.refs = n + if v.cached then 1 else 0) :
    Good hash (s.put o v) (Function.update held o n) l where
  list := by
    rw [put_next, put_prev, hnext, hprev, Function.update_eq_self, Function.update_eq_self]
    exact h.list
  free x hx := by
    rw [put_next, put_prev, hnext, hprev, Function.update_eq_self, Function.update_eq_self]
    exact h.free x hx
  cached x := by
    rw [← h.cached]
    rcases eq_or_ne x o with rfl | hx
    · rw [put_self, hcached]
    · rw [put_of_ne hx]
  ncache := by
    have hsizes : ∀ x ∈ l, ((s.put o v).obj x).size = (s.obj x).size := by
      intro x hx
      rcases eq_or_ne x o with rfl | hne
      · rw [put_self, hsize hx]
      · rw [put_of_ne hne]
    rw [List.map_congr_left hsizes]
    exact h.ncache
  refs x := by
    rcases eq_or_ne x o with rfl | hx
    · rw [put_self, Function.update_self, hrefs]
    · rw [put_of_ne hx, Function.update_of_ne hx, h.refs]
  loaded x hx := by
    rcases eq_or_ne x o with rfl | hne
    · rw [put_self, hloaded hx]
    · rw [put_of_ne hne, h.loaded x hx]
  objcache := h.objcache

/-- `unref` of an object that is not loaded any more stops in `clear`, if the reference is the last. -/
theorem Good.unref (h : Good hash s held l) (ho : 0 < held o) :
    (∃ s', s.unref (some o) = .ok s' ∧ Good hash s' (Function.update held o (held o - 1)) l ∧
      s'.ncache = s.ncache ∧
      ∀ x, (s.obj x).loaded = true → (s'.obj x).loaded = true ∨ Function.update held o (held o - 1) x = 0) ∨
    (s.unref (some o) = .error .assert ∧ (s.obj o).loaded = false) := by
  set v := { s.obj o with refs := (s.obj o).refs - 1 } with hv
  have hrefs := h.refs o
  have hput : Good hash (s.put o v) (Function.update held o (held o - 1)) l := by
    refine h.put rfl rfl rfl (fun _ => rfl) (h.loaded o) ?_
    rw [hv]
    dsimp only
    rw [hrefs]
    omega
  have hloaded : ∀ x, ((s.put o v).obj x).loaded = (s.obj x).loaded := by
    intro x
    rcases eq_or_ne x o with rfl | hx
    · rw [put_self]
    · rw [put_of_ne hx]
  rw [State.unref]
  dsimp only
  rw [put_self]
  by_cases hzero : (s.obj o).refs - 1 = 0
  · rw [if_pos hzero, clear, put_self]
    have hmem : o ∉ l := by
      intro hmem
      rw [if_pos ((h.cached o).mpr hmem)] at hrefs
      omega
    have hcached : (s.obj o).cached = false := Bool.not_eq_true _ ▸ fun hc => hmem ((h.cached o).mp hc)
    rcases Bool.eq_false_or_eq_true (s.obj o).loaded with hl | hl
    · have hheld : held o - 1 = 0 := by
        rw [hcached] at hrefs
        simp only [Bool.false_eq_true, if_false] at hrefs
        omega
      refine .inl ⟨_, if_pos ⟨hzero, hcached, hl⟩, ?_, rfl, ?_⟩
      · have hclear := hput.put (o := o) (n := held o - 1)
          (v := { v with
            info := if v.type = .other then v.info else false
            all := false
            loaded := false
            parsed := false })
          (by rw [put_next, Function.update_self]) (by rw [put_prev, Function.update_self]) (by rw [put_self])
          (fun hmem' => absurd hmem' hmem) (fun hmem' => absurd hmem' hmem) (by
            rw [hheld]
            simp only [hv, hcached]
            simpa using hzero)
        rw [Function.update_idem] at hclear
        exact hclear
      · intro x hx
        rcases eq_or_ne x o with rfl | hne
        · right
          rw [Function.update_self, hheld]
        · left
          rw [put_of_ne hne, put_of_ne hne, hx]
    · exact .inr ⟨if_neg fun hall => Bool.false_ne_true (hl.symm.trans hall.2.2), hl⟩
  · rw [if_neg hzero]
    exact .inl ⟨_, rfl, hput, rfl, fun x hx => .inl ((hloaded x).trans hx)⟩

/-- The first part of `drop` takes the last object off the list, and leaves its reference. -/
theorem Good.drop_eq (h : Good hash s held (l ++ [p])) (hl : l ≠ []) :
    ∃ t, s.drop p = t.unref (some p) ∧ Good hash t (Function.update held p (held p + 1)) l ∧
      ∀ x, (t.obj x).loaded = (s.obj x).loaded := by
  have hnodup := h.list.nodup
  rw [List.nodup_append_comm, List.singleton_append, List.nodup_cons] at hnodup
  have hp := hnodup.1
  have hnext : s.next p = none := h.list.next_eq
  have hprev : s.prev p = l.getLast? := h.list.prev_eq
  have hlast : s.prev p ≠ none := by
    rw [hprev]
    exact fun hnil => hl (List.getLast?_eq_none_iff.mp hnil)
  have hcached : (s.obj p).cached = true := (h.cached p).mpr (List.mem_append_right _ List.mem_cons_self)
  set s₁ := State.setNext { s with lrutail := s.prev p } (s.prev p) none with hs₁
  have hrel : Relinked { s with lrutail := s.prev p } s₁ := relinked_setNext
  set v := { s₁.obj p with cached := false, prev := none, next := none } with hv
  have hobj : ∀ x, x ≠ p → ((s₁.put p v).obj x).bare = (s.obj x).bare := by
    intro x hx
    rw [put_of_ne hx]
    exact hrel.bare x
  have hlinks := h.list.unlink
  rw [hnext, if_neg hlast, if_pos rfl, List.append_nil] at hlinks
  have hnexts : (s₁.put p v).next = Function.update (relinked s.next (s.prev p) none) p none := by
    rw [put_next, hs₁, setNext_next]
    rfl
  have hprevs : (s₁.put p v).prev = Function.update s.prev p none := by
    rw [put_prev, hs₁, setNext_prev]
    rfl
  have hself : (s₁.obj p).bare = (s.obj p).bare := hrel.bare p
  have hsizes : ∀ x, ((s₁.put p v).obj x).size = (s.obj x).size := by
    intro x
    rcases eq_or_ne x p with rfl | hx
    · rw [put_self]
      exact hrel.size x
    · rw [put_of_ne hx]
      exact hrel.size x
  have hloaded : ∀ x, ((s₁.put p v).obj x).loaded = (s.obj x).loaded := by
    intro x
    rcases eq_or_ne x p with rfl | hx
    · rw [put_self]
      exact hrel.loaded x
    · rw [put_of_ne hx]
      exact hrel.loaded x
  refine ⟨{ s₁.put p v with ncache := s.ncache - (s.obj p).size }, ?_, ⟨?_, ?_, ?_, ?_, ?_, ?_, ?_⟩, hloaded⟩
  · have hncache : s₁.ncache = s.ncache := hrel.ncache
    have hsize := hsizes p
    rw [← hncache, ← hsize]
    rfl
  · have hhead : (s₁.put p v).lruhead = s.lruhead := setNext_lruhead
    have htail : (s₁.put p v).lrutail = s.prev p := setNext_lrutail
    have hgoal : Dlist (s₁.put p v).next (s₁.put p v).prev (s₁.put p v).lruhead (s₁.put p v).lrutail l := by
      rw [hnexts, hprevs, hhead, htail]
      exact hlinks
    exact hgoal
  · intro x hx
    have hgoal : (s₁.put p v).next x = none ∧ (s₁.put p v).prev x = none := by
      rw [hnexts, hprevs]
      rcases eq_or_ne x p with rfl | hne
      · rw [Function.update_self, Function.update_self]
        exact ⟨rfl, rfl⟩
      · have hfree := h.free x (by simp [hx, hne])
        rw [Function.update_of_ne hne, Function.update_of_ne hne, relinked_of_ne, hfree.1]
        · exact ⟨rfl, hfree.2⟩
        · rintro z hz rfl
          exact hx (List.mem_of_getLast? (hprev.symm.trans hz))
    exact hgoal
  · intro x
    rcases eq_or_ne x p with rfl | hne
    · have hc : ((s₁.put x v).obj x).cached = false := by rw [put_self]
      exact ⟨fun hc' => absurd (hc.symm.trans hc') Bool.false_ne_true, fun hmem => absurd hmem hp⟩
    · have hc : ((s₁.put p v).obj x).cached = (s.obj x).cached := by
        rw [put_of_ne hne]
        exact hrel.cached x
      have hiff := h.cached x
      rw [List.mem_append, List.mem_singleton, or_iff_left hne, ← hc] at hiff
      exact hiff
  · have hsum := h.ncache
    rw [List.map_append, List.sum_append, List.map_singleton, List.sum_singleton] at hsum
    have hmap : (l.map fun x => ((s₁.put p v).obj x).size) = l.map fun x => (s.obj x).size :=
      List.map_congr_left fun x _ => hsizes x
    have hgoal : s.ncache - (s.obj p).size = (l.map fun x => ((s₁.put p v).obj x).size).sum := by
      rw [hmap, hsum]
      omega
    exact hgoal
  · intro x
    have hcount := h.refs x
    have hgoal : ((s₁.put p v).obj x).refs =
        Function.update held p (held p + 1) x + if ((s₁.put p v).obj x).cached then 1 else 0 := by
      rcases eq_or_ne x p with rfl | hne
      · have hr : (s₁.obj x).refs = (s.obj x).refs := hrel.refs x
        rw [hcached, if_pos rfl] at hcount
        rw [put_self, Function.update_self, hv]
        dsimp only
        rw [hr, hcount]
        simp
      · have hc : (s₁.obj x).cached = (s.obj x).cached := hrel.cached x
        have hr : (s₁.obj x).refs = (s.obj x).refs := hrel.refs x
        rw [put_of_ne hne, Function.update_of_ne hne, hr, hc, hcount]
    exact hgoal
  · intro x hx
    exact (hloaded x).trans (h.loaded x (List.mem_append_left _ hx))
  · have hgoal : s₁.objcache = s.objcache := hrel.objcache
    have hok := h.objcache
    rw [← hgoal] at hok
    exact hok

/-- The loop of `cache` ends, with the least recent objects gone. -/
theorem Good.evict (h : Good hash s held l) (hl : l ≠ []) (cachemax : ℤ) :
    ∃ k s' l', State.evict cachemax k s = .ok s' ∧ Good hash s' held l' ∧ l' <+: l ∧ l' ≠ [] ∧
      (s'.ncache ≤ cachemax ∨ ∃ x, l' = [x]) ∧
      ∀ x, (s.obj x).loaded = true → (s'.obj x).loaded = true ∨ held x = 0 := by
  induction l using List.reverseRecOn generalizing s with
  | nil => exact absurd rfl hl
  | append_singleton l p ih =>
    have htail : s.lrutail = some p := by rw [h.list.tail_eq, List.getLast?_concat]
    by_cases hover : cachemax < s.ncache ∧ s.lrutail ≠ s.lruhead
    · have hl' : l ≠ [] := by
        rintro rfl
        exact hover.2 (by rw [htail, h.list.head_eq]; rfl)
      obtain ⟨t, hdrop, hgood, hsame⟩ := h.drop_eq hl'
      have hp := h.loaded p (List.mem_append_right _ List.mem_cons_self)
      rcases hgood.unref (o := p) (by rw [Function.update_self]; omega) with
        ⟨u, hunref, hgoodu, -, hkept⟩ | ⟨-, hlost⟩
      · rw [Function.update_self, Nat.add_sub_cancel, Function.update_idem, Function.update_eq_self] at hgoodu hkept
        obtain ⟨k, s', l', hrun, hgood', hpre, hne, hbound, hkept'⟩ := ih hgoodu hl'
        refine ⟨k + 1, s', l', ?_, hgood', hpre.trans (List.prefix_append _ _), hne, hbound, ?_⟩
        · rw [State.evict, if_pos hover, htail]
          simp only [hdrop, hunref, bind, Except.bind]
          exact hrun
        · intro x hx
          rw [← hsame] at hx
          rcases hkept x hx with hx' | hzero
          · exact hkept' x hx'
          · exact .inr hzero
      · rw [hsame, hp] at hlost
        exact absurd hlost.symm Bool.false_ne_true
    · refine ⟨1, s, l ++ [p], ?_, h, List.prefix_rfl, hl, ?_, fun x hx => .inl hx⟩
      · rw [State.evict, if_neg hover]
      · rw [not_and_or, not_lt, not_not] at hover
        refine hover.imp_right fun heq => ⟨p, ?_⟩
        have hnodup := h.list.nodup
        rw [htail, h.list.head_eq] at heq
        cases l with
        | nil => rfl
        | cons y l =>
          rw [List.cons_append, List.head?_cons, Option.some.injEq] at heq
          rw [heq] at hnodup
          simp at hnodup

theorem know_eq (s : State P) (o : P) (T : Option P) :
    know hash { s with lrutail := T } o = (know hash s o).map fun s => { s with lrutail := T } := by
  rw [know, know]
  dsimp only
  split
  · rfl
  · cases Objtab.osadd hash s.objcache o <;> rfl

/-- An object gets known, unless the table would pass the bound of `eamalloc`. -/
theorem Good.know (h : Good hash s held l) (o : P) :
    (∃ s', State.know hash s o = .ok s' ∧ Good hash s' held l ∧ s'.lruhead = s.lruhead ∧ s'.lrutail = s.lrutail ∧
      s'.prev o = s.prev o ∧ ∀ x, (s'.obj x).loaded = (s.obj x).loaded) ∨
    State.know hash s o = .error (.osadd .alloc) := by
  rw [State.know]
  split
  · exact .inl ⟨s, rfl, h, rfl, rfl, rfl, fun x => rfl⟩
  · rcases Objtab.osadd_cases h.objcache o with ⟨t, hadd, hok, -⟩ | ⟨hstop, -, -⟩
    · rw [hadd]
      set v := { s.obj o with id := t.nobj, exist := true }
      have hput := h.put (o := o) (v := v) (n := held o) rfl rfl rfl (fun _ => rfl) (h.loaded o) (h.refs o)
      rw [Function.update_eq_self] at hput
      refine .inl ⟨_, rfl, ⟨hput.list, hput.free, hput.cached, hput.ncache, hput.refs, hput.loaded, hok⟩, rfl, rfl,
        ?_, ?_⟩
      · have hprev : (s.put o v).prev o = s.prev o := by
          rw [put_prev, Function.update_self]
          rfl
        exact hprev
      · intro x
        have hloaded : ((s.put o v).obj x).loaded = (s.obj x).loaded := by
          rcases eq_or_ne x o with rfl | hx
          · rw [put_self]
          · rw [put_of_ne hx]
        exact hloaded
    · rw [hstop]
      exact .inr rfl

/-- The object that is cached becomes the first of the list, and is counted if it is new there. -/
theorem Good.front (h : Good hash s held l) (ho : some o ≠ s.lruhead) (hload : (s.obj o).loaded = true) :
    Good hash ((State.front { s with lrutail := if some o = s.lrutail then s.prev o else s.lrutail } o).count o) held
      (o :: l.erase o) ∧
    ∀ x, (((State.front { s with lrutail := if some o = s.lrutail then s.prev o else s.lrutail } o).count o).obj
      x).loaded = (s.obj x).loaded := by
  set t := State.front { s with lrutail := if some o = s.lrutail then s.prev o else s.lrutail } o with ht
  have hrel : Relinked { s with lrutail := if some o = s.lrutail then s.prev o else s.lrutail } t := relinked_front
  have hcached : ∀ x, (t.obj x).cached = (s.obj x).cached := hrel.cached
  have hloaded : ∀ x, (t.obj x).loaded = (s.obj x).loaded := hrel.loaded
  have hrefs : ∀ x, (t.obj x).refs = (s.obj x).refs := hrel.refs
  have hsize : ∀ x, (t.obj x).size = (s.obj x).size := hrel.size
  have hncache : t.ncache = s.ncache := hrel.ncache
  have hobjcache : t.objcache = s.objcache := hrel.objcache
  by_cases hmem : o ∈ l
  · -- The object moves within the list.
    obtain ⟨l₁, l₂, rfl⟩ := List.append_of_mem hmem
    have hl₁ : l₁ ≠ [] := by
      rintro rfl
      exact ho h.list.head_eq.symm
    have hnodup := h.list.nodup
    rw [List.nodup_middle, List.nodup_cons, List.mem_append, not_or] at hnodup
    have herase : (l₁ ++ o :: l₂).erase o = l₁ ++ l₂ := by
      rw [List.erase_append_right _ hnodup.1.1, List.erase_cons_head]
    have hperm : ∀ x, x ∈ o :: (l₁ ++ l₂) ↔ x ∈ l₁ ++ o :: l₂ := fun x => (List.perm_middle.mem_iff).symm
    obtain ⟨hlist, hframe⟩ := front_old h.list hl₁
    have hcount : t.count o = t := by
      rw [count, hcached, (h.cached o).mpr hmem]
      rfl
    rw [herase, hcount]
    refine ⟨⟨hlist, ?_, ?_, ?_, ?_, ?_, ?_⟩, hloaded⟩
    · intro x hx
      rw [(hframe x hx).1, (hframe x hx).2]
      exact h.free x fun hx' => hx ((hperm x).mpr hx')
    · intro x
      rw [hcached, hperm]
      exact h.cached x
    · rw [hncache, h.ncache, List.map_congr_left fun x _ => hsize x]
      exact (List.perm_middle.map _).sum_eq
    · intro x
      rw [hrefs, hcached]
      exact h.refs x
    · intro x hx
      rw [hloaded]
      exact h.loaded x ((hperm x).mp hx)
    · rw [hobjcache]
      exact h.objcache
  · -- The object is new in the list.
    have htail : some o ≠ s.lrutail := by
      rw [h.list.tail_eq]
      exact fun heq => hmem (List.mem_of_getLast? heq.symm)
    have hfree := h.free o hmem
    have hstate : { s with lrutail := if some o = s.lrutail then s.prev o else s.lrutail } = s := by rw [if_neg htail]
    rw [hstate] at ht
    obtain ⟨hlist, hframe⟩ := front_new h.list hmem hfree.1 hfree.2
    rw [← ht] at hlist hframe
    have hnew : (t.obj o).cached = false := by
      rw [hcached]
      exact Bool.not_eq_true _ ▸ fun hc => hmem ((h.cached o).mp hc)
    rw [List.erase_of_not_mem hmem]
    set w := { t.obj o with cached := true, refs := (t.obj o).refs + 1 } with hw
    have hcount : t.count o = { t.put o w with ncache := t.ncache + (t.obj o).size } := by
      rw [count, hnew, if_neg Bool.false_ne_true]
      simp only [ref, State.put, Function.update_self, Function.update_idem, hw]
    have hput : ∀ x, x ≠ o → (t.put o w).obj x = t.obj x := fun x hx => put_of_ne hx
    have hnexts : (t.put o w).next = t.next := by
      rw [put_next]
      exact Function.update_eq_self _ _
    have hprevs : (t.put o w).prev = t.prev := by
      rw [put_prev]
      exact Function.update_eq_self _ _
    have hsizes : ∀ x, ((t.put o w).obj x).size = (s.obj x).size := by
      intro x
      rw [← hsize]
      rcases eq_or_ne x o with rfl | hx
      · rw [put_self]
      · rw [hput x hx]
    have hloads : ∀ x, ((t.put o w).obj x).loaded = (s.obj x).loaded := by
      intro x
      rw [← hloaded]
      rcases eq_or_ne x o with rfl | hx
      · rw [put_self]
      · rw [hput x hx]
    rw [hcount]
    refine ⟨⟨?_, ?_, ?_, ?_, ?_, ?_, ?_⟩, hloads⟩
    · have hgoal : Dlist (t.put o w).next (t.put o w).prev t.lruhead t.lrutail (o :: l) := by
        rw [hnexts, hprevs]
        exact hlist
      exact hgoal
    · intro x hx
      have hgoal : (t.put o w).next x = none ∧ (t.put o w).prev x = none := by
        rw [hnexts, hprevs, (hframe x hx).1, (hframe x hx).2]
        exact h.free x fun hx' => hx (List.mem_cons_of_mem _ hx')
      exact hgoal
    · intro x
      rcases eq_or_ne x o with rfl | hne
      · have hc : ((t.put x w).obj x).cached = true := by rw [put_self]
        exact ⟨fun _ => List.mem_cons_self, fun _ => hc⟩
      · have hc : ((t.put o w).obj x).cached = (s.obj x).cached := by rw [hput x hne, hcached]
        have hiff := h.cached x
        rw [← hc] at hiff
        rw [List.mem_cons, or_iff_right hne]
        exact hiff
    · have hgoal : t.ncache + (t.obj o).size = ((o :: l).map fun x => ((t.put o w).obj x).size).sum := by
        rw [List.map_congr_left fun x _ => hsizes x, List.map_cons, List.sum_cons, hncache, h.ncache, hsize]
        omega
      exact hgoal
    · intro x
      have hbefore := h.refs x
      have hgoal : ((t.put o w).obj x).refs = held x + if ((t.put o w).obj x).cached then 1 else 0 := by
        rcases eq_or_ne x o with rfl | hne
        · rw [← hcached, hnew] at hbefore
          rw [put_self, hw]
          dsimp only
          rw [hrefs, hbefore]
          simp
        · rw [hput x hne, hrefs, hcached, hbefore]
      exact hgoal
    · intro x hx
      have hgoal : ((t.put o w).obj x).loaded = true := by
        rw [hloads]
        rcases List.mem_cons.mp hx with rfl | hx'
        · exact hload
        · exact h.loaded x hx'
      exact hgoal
    · have hok := h.objcache
      rw [← hobjcache] at hok
      exact hok

theorem evict_unique {k k' : ℕ} {s₁ s₂ : State P} (h : State.evict cachemax k s = .ok s₁)
    (h' : State.evict cachemax k' s = .ok s₂) : s₁ = s₂ := by
  induction k generalizing s k' with
  | zero => exact nomatch h
  | succ k ih =>
    cases k' with
    | zero => exact nomatch h'
    | succ k' =>
      rw [State.evict] at h h'
      split at h
      · rename_i hover
        rw [if_pos hover] at h'
        cases htail : s.lrutail with
        | none =>
          simp only [htail] at h
          exact nomatch h
        | some p =>
          simp only [htail, bind, Except.bind] at h h'
          cases hdrop : s.drop p with
          | error e =>
            rw [hdrop] at h
            exact nomatch h
          | ok t =>
            rw [hdrop] at h h'
            exact ih h h'
      · rename_i hover
        rw [if_neg hover] at h'
        rw [← Except.ok.inj h, ← Except.ok.inj h']

theorem cache_unique {k k' : ℕ} {s₁ s₂ : State P} (h : State.cache hash cachemax k s o = .ok s₁)
    (h' : State.cache hash cachemax k' s o = .ok s₂) : s₁ = s₂ := by
  simp only [State.cache] at h h'
  split at h
  · rename_i ho
    rw [if_pos ho] at h'
    rw [← Except.ok.inj h, ← Except.ok.inj h']
  · rename_i ho
    rw [if_neg ho] at h'
    cases hknow : State.know hash (if some o = s.lrutail then { s with lrutail := (s.obj o).prev } else s) o with
    | error e =>
      rw [hknow] at h
      exact nomatch h
    | ok t =>
      rw [hknow] at h h'
      exact evict_unique h h'

/-- What `cache` does, where the list was within the bound. -/
theorem Good.cache (h : Good hash s held l) (hload : (s.obj o).loaded = true)
    (hbound : l ≠ [] → s.ncache ≤ cachemax ∨ ∃ x, l = [x]) :
    (∃ k s' l', State.cache hash cachemax k s o = .ok s' ∧ Good hash s' held l' ∧ l' <+: o :: l.erase o ∧ l' ≠ [] ∧
      (s'.ncache ≤ cachemax ∨ ∃ x, l' = [x]) ∧
      ∀ x, (s.obj x).loaded = true → (s'.obj x).loaded = true ∨ held x = 0) ∨
    ∀ k, State.cache hash cachemax k s o = .error (.osadd .alloc) := by
  simp only [State.cache]
  by_cases ho : some o = s.lruhead
  · left
    obtain ⟨l, rfl⟩ : ∃ l', l = o :: l' := by
      rw [h.list.head_eq] at ho
      exact ⟨_, List.eq_cons_of_mem_head? ho.symm⟩
    refine ⟨0, s, o :: l, by rw [if_pos ho], h, ?_, List.cons_ne_nil _ _, hbound (List.cons_ne_nil _ _),
      fun x hx => .inl hx⟩
    rw [List.erase_cons_head]
  · simp only [if_neg ho]
    rcases h.know o with ⟨t, hknow, hgood, hhead, htail, hprev, hloads⟩ | hstop
    · left
      obtain ⟨hfront, hkept⟩ := hgood.front (hhead ▸ ho) ((hloads o).trans hload)
      obtain ⟨k, s', l', hrun, hgood', hpre, hne, hbound', hkept'⟩ :=
        hfront.evict (List.cons_ne_nil _ _) cachemax
      refine ⟨k, s', l', ?_, hgood', hpre, hne, hbound', ?_⟩
      · have hset : (if some o = s.lrutail then { s with lrutail := (s.obj o).prev } else s) =
            { s with lrutail := if some o = s.lrutail then s.prev o else s.lrutail } := by
          split <;> rfl
        rw [hset, know_eq, hknow, ← htail, ← hprev]
        exact hrun
      · intro x hx
        exact hkept' x ((hkept x).trans ((hloads x).trans hx))
    · right
      intro k
      have hset : (if some o = s.lrutail then { s with lrutail := (s.obj o).prev } else s) =
          { s with lrutail := if some o = s.lrutail then s.prev o else s.lrutail } := by
        split <;> rfl
      rw [hset, know_eq, hstop]
      rfl

end

end State

open State

/-- The cache with the references that its clients hold, and the calls of `cache` so far, the last
one first. -/
structure System (P : Type) where
  state : State P
  held : P → ℕ
  calls : List P

/-- The objects of the calls, each where it was last cached. -/
def recent : List P → List P
  | [] => []
  | o :: l => o :: (recent l).erase o

inductive Step (hash : P → Hash) (cachemax : ℤ) : System P → System P → Prop
  | load {c : System P} {o : P} (type : Kind) (all : Bool) (size : ℤ) (h : (c.state.obj o).loaded = false) :
      Step hash cachemax c { c with state := c.state.load o type all size }
  | parse (c : System P) (o : P) : Step hash cachemax c { c with state := c.state.parseobject o }
  | cache {c : System P} {o : P} {k : ℕ} {s : State P} (h : (c.state.obj o).loaded = true)
      (hcall : c.state.cache hash cachemax k o = .ok s) :
      Step hash cachemax c { c with state := s, calls := o :: c.calls }
  | ref (c : System P) (o : P) :
      Step hash cachemax c { c with state := c.state.ref o, held := Function.update c.held o (c.held o + 1) }
  | unref {c : System P} {o : P} {s : State P} (h : 0 < c.held o) (hcall : c.state.unref (some o) = .ok s) :
      Step hash cachemax c { c with state := s, held := Function.update c.held o (c.held o - 1) }

/-- What holds between the calls. -/
structure Inv (hash : P → Hash) (cachemax : ℤ) (c : System P) (l : List P) : Prop where
  good : Good hash c.state c.held l
  recent : l <+: recent c.calls
  some : c.calls ≠ [] → l ≠ []
  bound : l ≠ [] → c.state.ncache ≤ cachemax ∨ ∃ o, l = [o]

section

variable {hash : P → Hash} {cachemax : ℤ} {c c' : System P} {l : List P}

theorem State.Fresh.inv {s : State P} (h : s.Fresh) : Inv hash cachemax ⟨s, fun _ => 0, []⟩ [] where
  good :=
    { list := ⟨h.lruhead, h.lrutail⟩
      free := fun o _ => (h.obj o).2.2.2.2
      cached := fun o => by simp [(h.obj o).2.1]
      ncache := h.ncache
      refs := fun o => by simp [(h.obj o).2.1, (h.obj o).2.2.2.1]
      loaded := fun o ho => absurd ho List.not_mem_nil
      objcache := by
        rw [h.objcache]
        exact Objtab.Holds.init.ok }
  recent := List.prefix_rfl
  some := fun h => absurd rfl h
  bound := fun h => absurd rfl h

theorem Inv.step (h : Inv hash cachemax c l) (hstep : Step hash cachemax c c') :
    (∃ l', Inv hash cachemax c' l') ∧
      ∀ o, (c.state.obj o).loaded = true → (c'.state.obj o).loaded = true ∨ c'.held o = 0 := by
  cases hstep with
  | @load o type all size hload =>
    have hmem : o ∉ l := fun hmem => absurd (hload.symm.trans (h.good.loaded o hmem)) Bool.false_ne_true
    have hput := h.good.put (o := o) (n := c.held o)
      (v := { c.state.obj o with type := type, all := all, size := size, loaded := true })
      rfl rfl rfl (fun hmem' => absurd hmem' hmem) (fun _ => rfl) (h.good.refs o)
    rw [Function.update_eq_self] at hput
    refine ⟨⟨l, hput, h.recent, h.some, h.bound⟩, fun x hx => .inl ?_⟩
    have hgoal : ((c.state.put o { c.state.obj o with
        type := type, all := all, size := size, loaded := true }).obj x).loaded = true := by
      rcases eq_or_ne x o with rfl | hne
      · rw [put_self]
      · rw [put_of_ne hne, hx]
    exact hgoal
  | parse o =>
    dsimp only [parseobject]
    split
    · exact ⟨⟨l, h⟩, fun x hx => .inl hx⟩
    · set v := { c.state.obj o with
        info := (c.state.obj o).info || decide ((c.state.obj o).type ≠ Kind.other)
        parsed := true }
      have hput := h.good.put (o := o) (v := v) (n := c.held o) rfl rfl rfl (fun _ => rfl) (h.good.loaded o)
        (h.good.refs o)
      rw [Function.update_eq_self] at hput
      refine ⟨⟨l, hput, h.recent, h.some, h.bound⟩, fun x hx => .inl ?_⟩
      rcases eq_or_ne x o with rfl | hne
      · rw [put_self]
        exact hx
      · rw [put_of_ne hne, hx]
  | @cache o k s hload hcall =>
    rcases h.good.cache hload h.bound with ⟨k', s', l', hrun, hgood, hpre, hne, hbound, hkept⟩ | hstop
    · have hs : s = s' := cache_unique hcall hrun
      subst hs
      refine ⟨⟨l', hgood, hpre.trans ?_, fun _ => hne, fun _ => hbound⟩, hkept⟩
      exact (List.prefix_cons_inj o).mpr (h.recent.erase o)
    · rw [hstop] at hcall
      exact nomatch hcall
  | ref o =>
    have hput := h.good.put (o := o) (n := c.held o + 1)
      (v := { c.state.obj o with refs := (c.state.obj o).refs + 1 }) rfl rfl rfl (fun _ => rfl) (h.good.loaded o) (by
        have hrefs := h.good.refs o
        dsimp only
        rw [hrefs]
        omega)
    refine ⟨⟨l, hput, h.recent, h.some, h.bound⟩, fun x hx => .inl ?_⟩
    have hgoal : ((c.state.put o { c.state.obj o with refs := (c.state.obj o).refs + 1 }).obj x).loaded = true := by
      rcases eq_or_ne x o with rfl | hne
      · rw [put_self]
        exact hx
      · rw [put_of_ne hne, hx]
    exact hgoal
  | @unref o s hheld hcall =>
    rcases h.good.unref hheld with ⟨s', hrun, hgood, hncache, hkept⟩ | ⟨hstop, -⟩
    · have hs : s = s' := Except.ok.inj (hcall.symm.trans hrun)
      subst hs
      refine ⟨⟨l, hgood, h.recent, h.some, fun hne => ?_⟩, hkept⟩
      have hbound := h.bound hne
      rw [← hncache] at hbound
      exact hbound
    · rw [hstop] at hcall
      exact nomatch hcall

theorem Inv.run (h : Inv hash cachemax c l) (hrun : Relation.ReflTransGen (Step hash cachemax) c c') :
    ∃ l', Inv hash cachemax c' l' := by
  induction hrun with
  | refl => exact ⟨l, h⟩
  | tail _ hstep ih =>
    obtain ⟨l', hinv⟩ := ih
    exact (hinv.step hstep).1

/-- Whatever is loaded, cached and referenced, the list from `lruhead` to `lrutail` is that of the
cached objects, the calls of `cache` and of `unref` on loaded objects return, unless `eamalloc`
stops, and an object that is cleared has no references. Before the first call of `cache` the list
is empty. -/
theorem lru_consistent {s : State P} (hfresh : s.Fresh)
    (hrun : Relation.ReflTransGen (Step hash cachemax) ⟨s, fun _ => 0, []⟩ c) :
    ∃ l, Dlist c.state.next c.state.prev c.state.lruhead c.state.lrutail l ∧ l.Nodup ∧
      (∀ o, (c.state.obj o).cached = true ↔ o ∈ l) ∧ l <+: recent c.calls ∧
      c.state.ncache = (l.map fun o => (c.state.obj o).size).sum ∧
      (c.calls ≠ [] ∨ 0 ≤ cachemax → c.state.ncache ≤ cachemax ∨ ∃ o, l = [o]) ∧
      (∀ o, (c.state.obj o).refs = c.held o + if (c.state.obj o).cached then 1 else 0) ∧
      (∀ o, (c.state.obj o).loaded = true →
        (∃ k s', c.state.cache hash cachemax k o = .ok s') ∨
          ∀ k, c.state.cache hash cachemax k o = .error (.osadd .alloc)) ∧
      (∀ o, (c.state.obj o).loaded = true → 0 < c.held o → ∃ s', c.state.unref (some o) = .ok s') ∧
      ∀ c', Step hash cachemax c c' → ∀ o, (c.state.obj o).loaded = true → (c'.state.obj o).loaded = false →
        (c'.state.obj o).refs = 0 := by
  obtain ⟨l, h⟩ := hfresh.inv.run hrun
  refine ⟨l, h.good.list, h.good.list.nodup, h.good.cached, h.recent, h.good.ncache, ?_, h.good.refs, ?_, ?_, ?_⟩
  · intro hsome
    rcases eq_or_ne l [] with rfl | hne
    · have hpos : 0 ≤ cachemax := hsome.resolve_left fun hcalls => h.some hcalls rfl
      left
      rw [h.good.ncache]
      exact hpos
    · exact h.bound hne
  · intro o hload
    rcases h.good.cache hload h.bound with ⟨k, s', -, hcall, -⟩ | hstop
    · exact .inl ⟨k, s', hcall⟩
    · exact .inr hstop
  · intro o hload hheld
    rcases h.good.unref hheld with ⟨s', hcall, -⟩ | ⟨-, hlost⟩
    · exact ⟨s', hcall⟩
    · exact absurd (hlost.symm.trans hload) Bool.false_ne_true
  · intro c' hstep o hload hlost
    obtain ⟨⟨l', h'⟩, hkept⟩ := h.step hstep
    have hheld : c'.held o = 0 := (hkept o hload).resolve_left fun hl => Bool.false_ne_true (hlost.symm.trans hl)
    have hcached : ¬ (c'.state.obj o).cached = true := by
      intro hc
      exact Bool.false_ne_true (hlost.symm.trans (h'.good.loaded o ((h'.good.cached o).mp hc)))
    rw [h'.good.refs, hheld, if_neg hcached]
    rfl

end

/-- Two objects, and nothing cached. -/
def two : State (Fin 2) :=
  ⟨fun _ => ⟨.other, 0, false, false, false, false, 0, none, none, false, 0, false⟩, Objtab.osinit, none, none, 0⟩

def nth (i : Fin 2) : Hash := ⟨List.replicate 20 i.val.toUInt8, List.length_replicate⟩

/-- Objects of sizes 6 and 7 do not fit under a bound of 10. -/
theorem lru_consistent_evicts :
    ∃ c : System (Fin 2), c.calls = [1, 0] ∧ c.state.ncache = 7 ∧ (c.state.obj 0).loaded = false ∧
      ∃ l, Dlist c.state.next c.state.prev c.state.lruhead c.state.lrutail l ∧
        (∀ o, (c.state.obj o).cached = true ↔ o ∈ l) ∧ l <+: [1, 0] := by
  have hfresh : two.Fresh := ⟨fun _ => ⟨rfl, rfl, rfl, rfl, rfl, rfl⟩, rfl, rfl, rfl, rfl⟩
  have hrun := (((Relation.ReflTransGen.refl (r := Step nth 10) (a := ⟨two, fun _ => 0, []⟩)).tail
    (.load (o := 0) .other true 6 rfl)).tail (.cache (k := 1) (o := 0) rfl rfl)).tail
    (.load (o := 1) .other true 7 rfl)
  obtain ⟨l, hlist, -, hcached, hrecent, -⟩ := lru_consistent hfresh (hrun.tail (.cache (k := 2) (o := 1) rfl rfl))
  exact ⟨_, rfl, rfl, rfl, l, hlist, hcached, hrecent⟩

end Petele.Git.Lru
