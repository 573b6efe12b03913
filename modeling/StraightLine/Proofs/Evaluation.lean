import StraightLine.Proofs.Grammar
import Mathlib.Tactic.Ring

/-! # Evaluation of expressions

Expressions are evaluated over a ring; division, functions and comparisons are any operations on it.
A memory gives values to names, and a vector is a name whose value is a list. Evaluation has no
result where a name has no value or an operand is a list, and more memory never changes a result. -/
namespace StraightLine

/-- The operations that the ring does not provide. -/
structure Interpretation (R : Type*) where
  divide : R → R → R
  call : String → List R → R
  compare : String → R → R → Bool

/-- A value: an element of the ring, or a list. -/
inductive Quantity (R : Type*) where
  | scalar (r : R)
  | list (items : List (Quantity R))

namespace Quantity

variable {R : Type*}

def scalar? : Quantity R → Option R
  | .scalar r => some r
  | .list _ => none

def item? : Quantity R → Nat → Option (Quantity R)
  | .list items, i => items[i]?
  | .scalar _, _ => none

theorem mapM_scalar? (xs : List R) : (xs.map scalar).mapM scalar? = some xs := by
  induction xs with
  | nil => rfl
  | cons x xs ih => rw [List.map_cons, List.mapM_cons, ih]; rfl

end Quantity

abbrev Memory (R : Type*) := String → Option (Quantity R)

/-- Every name with a value in the first memory has it in the second. -/
def Memory.Within {R : Type*} (m m' : Memory R) : Prop := ∀ name v, m name = some v → m' name = some v

namespace Grammar

variable {R : Type*} [CommRing R]

def SumOperator.apply : SumOperator → R → R → R
  | .plus, x, y => x + y
  | .minus, x, y => x - y

def ProductOperator.apply (I : Interpretation R) : ProductOperator → R → R → R
  | .times, x, y => x * y
  | .over, x, y => I.divide x y

/-- An operation on two values that must be elements of the ring. -/
def combine (f : R → R → R) (a b : Option (Quantity R)) : Option (Quantity R) := do
  let x ← a.bind Quantity.scalar?
  let y ← b.bind Quantity.scalar?
  return .scalar (f x y)

mutual

def Sum.eval (I : Interpretation R) (m : Memory R) : Sum → Option (Quantity R)
  | .single product => product.eval I m
  | .join left operator right => combine operator.apply (left.eval I m) (right.eval I m)

def Product.eval (I : Interpretation R) (m : Memory R) : Product → Option (Quantity R)
  | .single unary => unary.eval I m
  | .join left operator right => combine (operator.apply I) (left.eval I m) (right.eval I m)

def Unary.eval (I : Interpretation R) (m : Memory R) : Unary → Option (Quantity R)
  | .primary primary => primary.eval I m
  | .negate unary => do return .scalar (-(← (unary.eval I m).bind Quantity.scalar?))

def Primary.eval (I : Interpretation R) (m : Memory R) : Primary → Option (Quantity R)
  | .name text => m text
  | .slot vector index => (m vector).bind (·.item? index)
  | .call function arguments => do
    return .scalar (I.call function (← (← arguments.eval I m).mapM Quantity.scalar?))
  | .paren sum => sum.eval I m
  | .empty => some (.list [])
  | .list items => return .list (← items.eval I m)

def Items.eval (I : Interpretation R) (m : Memory R) : Items → Option (List (Quantity R))
  | .first sum => return [← sum.eval I m]
  | .more items sum => return (← items.eval I m) ++ [← sum.eval I m]

end

omit [CommRing R] in
theorem combine_eq_some {f : R → R → R} {a b : Option (Quantity R)} {v : Quantity R} :
    combine f a b = some v ↔ ∃ x y, a = some (.scalar x) ∧ b = some (.scalar y) ∧
      v = .scalar (f x y) := by
  constructor
  · intro h
    simp only [combine, Option.bind_eq_bind, Option.bind_eq_some_iff] at h
    obtain ⟨x, ⟨w, hw, hx⟩, y, ⟨u, hu, hy⟩, hv⟩ := h
    cases w with
    | list items => cases hx
    | scalar r =>
      cases u with
      | list items => cases hy
      | scalar r' =>
        cases hx
        cases hy
        cases hv
        exact ⟨x, y, hw, hu, rfl⟩
  · rintro ⟨x, y, rfl, rfl, rfl⟩
    rfl

mutual

theorem Sum.eval_within {I : Interpretation R} {m m' : Memory R} (h : m.Within m') :
    ∀ (s : Sum) (v : Quantity R), s.eval I m = some v → s.eval I m' = some v
  | .single product, v, hv => product.eval_within h v hv
  | .join left operator right, v, hv => by
    rw [Sum.eval, combine_eq_some] at hv ⊢
    obtain ⟨x, y, hx, hy, rfl⟩ := hv
    exact ⟨x, y, left.eval_within h _ hx, right.eval_within h _ hy, rfl⟩

theorem Product.eval_within {I : Interpretation R} {m m' : Memory R} (h : m.Within m') :
    ∀ (q : Product) (v : Quantity R), q.eval I m = some v → q.eval I m' = some v
  | .single unary, v, hv => unary.eval_within h v hv
  | .join left operator right, v, hv => by
    rw [Product.eval, combine_eq_some] at hv ⊢
    obtain ⟨x, y, hx, hy, rfl⟩ := hv
    exact ⟨x, y, left.eval_within h _ hx, right.eval_within h _ hy, rfl⟩

theorem Unary.eval_within {I : Interpretation R} {m m' : Memory R} (h : m.Within m') :
    ∀ (u : Unary) (v : Quantity R), u.eval I m = some v → u.eval I m' = some v
  | .primary primary, v, hv => primary.eval_within h v hv
  | .negate unary, v, hv => by
    simp only [Unary.eval, Option.bind_eq_bind, Option.bind_eq_some_iff] at hv ⊢
    obtain ⟨x, ⟨w, hw, hx⟩, hv⟩ := hv
    exact ⟨x, ⟨w, unary.eval_within h w hw, hx⟩, hv⟩

theorem Primary.eval_within {I : Interpretation R} {m m' : Memory R} (h : m.Within m') :
    ∀ (p : Primary) (v : Quantity R), p.eval I m = some v → p.eval I m' = some v
  | .name text, v, hv => h text v hv
  | .slot vector index, v, hv => by
    simp only [Primary.eval, Option.bind_eq_some_iff] at hv ⊢
    obtain ⟨w, hw, hi⟩ := hv
    exact ⟨w, h vector w hw, hi⟩
  | .call function arguments, v, hv => by
    simp only [Primary.eval, Option.bind_eq_bind, Option.bind_eq_some_iff] at hv ⊢
    obtain ⟨ws, hws, hv⟩ := hv
    exact ⟨ws, arguments.eval_within h ws hws, hv⟩
  | .paren sum, v, hv => sum.eval_within h v hv
  | .empty, v, hv => hv
  | .list items, v, hv => by
    simp only [Primary.eval, Option.bind_eq_bind, Option.bind_eq_some_iff] at hv ⊢
    obtain ⟨ws, hws, hv⟩ := hv
    exact ⟨ws, items.eval_within h ws hws, hv⟩

theorem Items.eval_within {I : Interpretation R} {m m' : Memory R} (h : m.Within m') :
    ∀ (items : Items) (vs : List (Quantity R)), items.eval I m = some vs → items.eval I m' = some vs
  | .first sum, vs, hv => by
    simp only [Items.eval, Option.bind_eq_bind, Option.bind_eq_some_iff] at hv ⊢
    obtain ⟨w, hw, hv⟩ := hv
    exact ⟨w, sum.eval_within h w hw, hv⟩
  | .more items sum, vs, hv => by
    simp only [Items.eval, Option.bind_eq_bind, Option.bind_eq_some_iff] at hv ⊢
    obtain ⟨ws, hws, w, hw, hv⟩ := hv
    exact ⟨ws, items.eval_within h ws hws, w, sum.eval_within h w hw, hv⟩

end

/-- What a text may spell: an expression, or a choice between two by a comparison. -/
inductive Reading where
  | sum (sum : Sum)
  | choice (left : Sum) (relation : String) (right success failure : Sum)

namespace Reading

def tokens : Reading → List Token
  | .sum s => s.tokens
  | .choice left relation right success failure =>
    left.tokens ++ .relation relation :: (right.tokens ++ .symbol '?' ::
      (success.tokens ++ .symbol ':' :: failure.tokens))

end Reading

def isRelationToken : Token → Bool
  | .relation _ => true
  | _ => false

/-- Tokens before the first that has a property, and tokens behind it. -/
def before (p : Token → Bool) (ts : List Token) : List Token := ts.takeWhile (!p ·)

def behind (p : Token → Bool) (ts : List Token) : List Token := (ts.dropWhile (!p ·)).tail

namespace Reading

def read (ts : List Token) : Option Reading :=
  match ts.find? isRelationToken with
  | some (.relation relation) => do
    let rest := behind isRelationToken ts
    let branches := behind (· == .symbol '?') rest
    return .choice (← Sum.read (before isRelationToken ts)) relation
      (← Sum.read (before (· == .symbol '?') rest))
      (← Sum.read (before (· == .symbol ':') branches))
      (← Sum.read (behind (· == .symbol ':') branches))
  | _ => return .sum (← Sum.read ts)

def eval (I : Interpretation R) (m : Memory R) : Reading → Option (Quantity R)
  | .sum s => s.eval I m
  | .choice left relation right success failure => do
    let x ← (left.eval I m).bind Quantity.scalar?
    let y ← (right.eval I m).bind Quantity.scalar?
    if I.compare relation x y then success.eval I m else failure.eval I m

end Reading

theorem before_append {p : Token → Bool} {xs ys : List Token} {t : Token} (hx : ∀ x ∈ xs, p x = false)
    (ht : p t = true) : before p (xs ++ t :: ys) = xs := by
  rw [before, List.takeWhile_append_of_pos (by simpa using hx)]
  simp [ht]

theorem behind_append {p : Token → Bool} {xs ys : List Token} {t : Token} (hx : ∀ x ∈ xs, p x = false)
    (ht : p t = true) : behind p (xs ++ t :: ys) = ys := by
  rw [behind, List.dropWhile_append_of_pos (by simpa using hx)]
  simp [ht]

/-- A token that no reader takes is in no expression. -/
theorem Sum.not_mem_tokens {t : Token} (ht : ∀ reader : Reader, reader.step t = none) (s : Sum) :
    t ∉ s.tokens := by
  intro hmem
  obtain ⟨xs, ys, hxs⟩ := List.append_of_mem hmem
  obtain ⟨level, last, hrun, -⟩ := Reader.run_sum [] s
  rw [hxs, Reader.run_append, Option.bind_eq_some_iff] at hrun
  obtain ⟨reader, -, hrun⟩ := hrun
  rw [Reader.run_cons, ht] at hrun
  cases hrun

theorem step_relation (relation : String) (reader : Reader) :
    reader.step (.relation relation) = none := by
  cases reader <;> rfl

theorem Sum.no_relation {s : Sum} {t : Token} (h : t ∈ s.tokens) : isRelationToken t = false := by
  cases t with
  | relation text => exact absurd h (s.not_mem_tokens (step_relation text))
  | _ => rfl

theorem step_mark {c : Char} (hc : c = '?' ∨ c = ':') (reader : Reader) :
    reader.step (.symbol c) = none := by
  rcases hc with rfl | rfl <;> cases reader <;> rfl

theorem Sum.no_mark {s : Sum} {c : Char} (hc : c = '?' ∨ c = ':') {t : Token} (h : t ∈ s.tokens) :
    (t == .symbol c) = false := by
  rw [beq_eq_false_iff_ne]
  rintro rfl
  exact s.not_mem_tokens (step_mark hc) h

/-- A choice or an expression is found in its tokens. -/
theorem Reading.read_tokens (e : Reading) : Reading.read e.tokens = some e := by
  cases e with
  | sum s =>
    have hnone : s.tokens.find? isRelationToken = none := by
      rw [List.find?_eq_none]
      intro t ht
      simp [Sum.no_relation ht]
    rw [Reading.tokens, Reading.read, hnone, Sum.read_tokens]
    rfl
  | choice left relation right success failure =>
    have hleft : ∀ t ∈ left.tokens, isRelationToken t = false := fun t ht => Sum.no_relation ht
    have hright : ∀ t ∈ right.tokens, (t == .symbol '?') = false := fun t ht =>
      Sum.no_mark (.inl rfl) ht
    have hsuccess : ∀ t ∈ success.tokens, (t == .symbol ':') = false := fun t ht =>
      Sum.no_mark (.inr rfl) ht
    have hfind : (Reading.choice left relation right success failure).tokens.find?
        isRelationToken = some (.relation relation) := by
      rw [Reading.tokens, List.find?_append, List.find?_eq_none.2 (by simpa using hleft)]
      rfl
    rw [Reading.read, hfind]
    simp only [Reading.tokens]
    rw [before_append (t := .relation relation) hleft rfl,
      behind_append (t := .relation relation) hleft rfl, before_append hright rfl,
      behind_append hright rfl, before_append hsuccess rfl, behind_append hsuccess rfl]
    simp [Sum.read_tokens]

theorem Reading.eval_within {I : Interpretation R} {m m' : Memory R} (h : m.Within m')
    (e : Reading) {v : Quantity R} (hv : e.eval I m = some v) : e.eval I m' = some v := by
  cases e with
  | sum s => exact s.eval_within h v hv
  | choice left relation right success failure =>
    simp only [Reading.eval, Option.bind_eq_bind, Option.bind_eq_some_iff] at hv ⊢
    obtain ⟨x, ⟨w, hw, hx⟩, y, ⟨u, hu, hy⟩, hv⟩ := hv
    refine ⟨x, ⟨w, left.eval_within h w hw, hx⟩, y, ⟨u, right.eval_within h u hu, hy⟩, ?_⟩
    split at hv
    next hc => simpa [hc] using success.eval_within h v hv
    next hc => simpa [hc] using failure.eval_within h v hv

end Grammar

def evaluate {R : Type*} [CommRing R] (I : Interpretation R) (m : Memory R) (text : String) :
    Option (Quantity R) :=
  (Grammar.Reading.read (lex text)).bind (·.eval I m)

/-- More memory does not change the value of a text. -/
theorem evaluate_within {R : Type*} [CommRing R] {I : Interpretation R} {m m' : Memory R}
    (h : m.Within m') {text : String} {v : Quantity R} (hv : evaluate I m text = some v) :
    evaluate I m' text = some v := by
  rw [evaluate, Option.bind_eq_some_iff] at hv ⊢
  obtain ⟨e, he, hv⟩ := hv
  exact ⟨e, he, e.eval_within h hv⟩

end StraightLine
