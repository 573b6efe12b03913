import StraightLine.Proofs.WrittenText
import StraightLine.Schedule
import Mathlib.Logic.Function.Basic

/-! # Execution of statements

Statements are executed in order on their texts: a declaration binds a name to the value of its right
side, and a store overwrites one slot of a vector. A name that is not in use when a list of statements
ends can be bound before it without any other effect, and a slot that is not stored into is kept. -/
namespace StraightLine

open Grammar

namespace Memory

variable {R : Type*}

def bind (m : Memory R) (name : String) (v : Quantity R) : Memory R := Function.update m name (some v)

def store (m : Memory R) (vector : String) (index : Nat) (v : Quantity R) : Option (Memory R) :=
  match m vector with
  | some (.list items) =>
    if index < items.length then some (m.bind vector (.list (items.set index v))) else none
  | _ => none

def slot? (m : Memory R) (vector : String) (index : Nat) : Option (Quantity R) :=
  (m vector).bind (·.item? index)

variable {m m' : Memory R} {name vector : String} {index : Nat} {v w : Quantity R}

@[simp] theorem bind_self : m.bind name v name = some v := Function.update_self ..

theorem bind_of_ne {other : String} (h : other ≠ name) : m.bind name v other = m other :=
  Function.update_of_ne h ..

theorem within_bind (h : m name = none) : m.Within (m.bind name v) := by
  intro other w hw
  rw [bind_of_ne, hw]
  rintro rfl
  rw [h] at hw
  cases hw

theorem Within.bind (h : m.Within m') : (m.bind name v).Within (m'.bind name v) := by
  intro other w hw
  by_cases heq : other = name
  · subst heq
    rwa [bind_self] at hw ⊢
  · rw [bind_of_ne heq] at hw ⊢
    exact h other w hw

theorem bind_comm {other : String} (h : name ≠ other) :
    (m.bind name v).bind other w = (m.bind other w).bind name v :=
  Function.update_comm h ..

theorem store_eq_some (h : m.store vector index v = some m') : ∃ items,
    m vector = some (.list items) ∧ index < items.length ∧
      m' = m.bind vector (.list (items.set index v)) := by
  unfold store at h
  split at h
  next items hitems =>
    split at h
    next hlt =>
      cases h
      exact ⟨items, hitems, hlt, rfl⟩
    next => cases h
  next => cases h

theorem store_of_list {items : List (Quantity R)} (hitems : m vector = some (.list items))
    (hlt : index < items.length) :
    m.store vector index v = some (m.bind vector (.list (items.set index v))) := by
  simp [store, hitems, hlt]

theorem slot?_store {other : String} {i : Nat} (h : m.store vector index v = some m')
    (hne : (other, i) ≠ (vector, index)) : m'.slot? other i = m.slot? other i := by
  obtain ⟨items, hitems, -, rfl⟩ := store_eq_some h
  by_cases hother : other = vector
  · subst hother
    have hi : index ≠ i := fun heq => hne (by rw [heq])
    simp [slot?, hitems, Quantity.item?, List.getElem?_set_ne hi]
  · rw [slot?, bind_of_ne hother, slot?]

end Memory

def place? (text : String) : Option (String × Nat) :=
  match Sum.read (lex text) with
  | some (.single (.single (.primary (.slot vector index)))) => some (vector, index)
  | _ => none

theorem place?_slotText {vector : String} (h : isIdentifier vector = true) (index : Nat) :
    place? (slotText vector index) = some (vector, index) := by
  have hread := Sum.read_tokens (.single (.single (.primary (.slot vector index))))
  have htokens : lex (slotText vector index) =
      (Sum.single (.single (.primary (.slot vector index)))).tokens := lex_slotText h index
  rw [place?, htokens, hread]

section

variable {R : Type*} [CommRing R] (I : Interpretation R)

def Statement.execute (m : Memory R) (s : Statement) : Option (Memory R) :=
  (evaluate I m s.value.text).bind fun v =>
    match s.action with
    | .declare name _ => some (m.bind name v)
    | .store target => (place? target.text).bind fun place => m.store place.1 place.2 v

def execute (m : Memory R) (statements : List Statement) : Option (Memory R) :=
  statements.foldlM (Statement.execute I) m

end

variable {R : Type*} [CommRing R] {I : Interpretation R} {m m' : Memory R}

theorem execute_append (xs ys : List Statement) :
    execute I m (xs ++ ys) = (execute I m xs).bind (execute I · ys) := List.foldlM_append

theorem execute_cons (s : Statement) (xs : List Statement) :
    execute I m (s :: xs) = (s.execute I m).bind (execute I · xs) := rfl

@[simp] theorem execute_nil : execute I m [] = some m := rfl

/-- What a statement does: it binds a name to a value, or it overwrites a slot. -/
theorem Statement.execute_cases {s : Statement} (h : s.execute I m = some m') :
    ∃ v, evaluate I m s.value.text = some v ∧
      ((∃ name captures, s.action = .declare name captures ∧ m' = m.bind name v) ∨
        ∃ target vector index, s.action = .store target ∧
          place? target.text = some (vector, index) ∧ m.store vector index v = some m') := by
  obtain ⟨v, hv, h⟩ := Option.bind_eq_some_iff.1 h
  refine ⟨v, hv, ?_⟩
  split at h
  next name captures hs =>
    cases h
    exact .inl ⟨name, captures, hs, rfl⟩
  next target hs =>
    obtain ⟨⟨vector, index⟩, hplace, hstore⟩ := Option.bind_eq_some_iff.1 h
    exact .inr ⟨target, vector, index, hs, hplace, hstore⟩

/-- Names stay bound. -/
theorem Statement.bound_of_execute {s : Statement} (h : s.execute I m = some m') {name : String}
    (hname : m' name = none) : m name = none := by
  obtain ⟨v, -, ⟨other, -, -, rfl⟩ | ⟨target, vector, index, -, -, hstore⟩⟩ := execute_cases h
  · by_cases heq : name = other
    · subst heq
      simp at hname
    · rwa [Memory.bind_of_ne heq] at hname
  · obtain ⟨items, -, -, rfl⟩ := Memory.store_eq_some hstore
    by_cases heq : name = vector
    · subst heq
      simp at hname
    · rwa [Memory.bind_of_ne heq] at hname

theorem bound_of_execute {statements : List Statement} (h : execute I m statements = some m')
    {name : String} (hname : m' name = none) : m name = none := by
  induction statements generalizing m with
  | nil =>
    cases h
    exact hname
  | cons s statements ih =>
    rw [execute_cons, Option.bind_eq_some_iff] at h
    obtain ⟨next, hs, hrest⟩ := h
    exact s.bound_of_execute hs (ih hrest)

theorem Statement.execute_bind {s : Statement} (h : s.execute I m = some m') {name : String}
    (hname : m' name = none) (v : Quantity R) :
    s.execute I (m.bind name v) = some (m'.bind name v) := by
  have hm := s.bound_of_execute h hname
  obtain ⟨w, hw, hcases⟩ := execute_cases h
  have hw' := evaluate_within (Memory.within_bind (v := v) hm) hw
  rcases hcases with ⟨other, captures, hs, rfl⟩ | ⟨target, vector, index, hs, hplace, hstore⟩
  · have hne : name ≠ other := by
      rintro rfl
      simp at hname
    simp [Statement.execute, hs, hw', Memory.bind_comm hne]
  · obtain ⟨items, hitems, hlt, rfl⟩ := Memory.store_eq_some hstore
    have hne : vector ≠ name := by
      rintro rfl
      rw [hm] at hitems
      cases hitems
    have hitems' : m.bind name v vector = some (.list items) := by
      rw [Memory.bind_of_ne hne, hitems]
    simp [Statement.execute, hs, hw', hplace, Memory.store_of_list hitems' hlt,
      Memory.bind_comm hne.symm]

/-- A name that is free in the end may be bound from the start. -/
theorem execute_bind {statements : List Statement} (h : execute I m statements = some m')
    {name : String} (hname : m' name = none) (v : Quantity R) :
    execute I (m.bind name v) statements = some (m'.bind name v) := by
  induction statements generalizing m with
  | nil =>
    cases h
    rfl
  | cons s statements ih =>
    rw [execute_cons, Option.bind_eq_some_iff] at h
    obtain ⟨next, hs, hrest⟩ := h
    rw [execute_cons, s.execute_bind hs (bound_of_execute hrest hname) v]
    exact ih hrest

def Statement.stored? (s : Statement) : Option (String × Nat) :=
  match s.action with
  | .store target => place? target.text
  | .declare .. => none

/-- A slot keeps its content through statements that neither store into it nor rebind its vector. -/
theorem slot?_execute {statements : List Statement} (h : execute I m statements = some m')
    {vector : String} {index : Nat}
    (hstored : ∀ s ∈ statements, s.stored? ≠ some (vector, index))
    (hdeclared : ∀ s ∈ statements, ∀ name captures, s.action = .declare name captures →
      name ≠ vector) : m'.slot? vector index = m.slot? vector index := by
  induction statements generalizing m with
  | nil =>
    cases h
    rfl
  | cons s statements ih =>
    rw [execute_cons, Option.bind_eq_some_iff] at h
    obtain ⟨next, hs, hrest⟩ := h
    rw [ih hrest (fun t ht => hstored t (by simp [ht])) fun t ht => hdeclared t (by simp [ht])]
    obtain ⟨v, -, ⟨name, captures, haction, rfl⟩ | ⟨target, other, i, haction, hplace, hstore⟩⟩ :=
      Statement.execute_cases hs
    · have hne := hdeclared s (by simp) name captures haction
      rw [Memory.slot?, Memory.bind_of_ne hne.symm, Memory.slot?]
    · refine Memory.slot?_store hstore fun heq => ?_
      have hs := hstored s (by simp)
      rw [Statement.stored?, haction] at hs
      exact hs (hplace.trans (congrArg some heq.symm))

end StraightLine
