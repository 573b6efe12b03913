import StraightLine.Proofs.LifeCycle

/-! # Writing out a graph ends

The expression of a node is made from the expressions of other nodes. These may have smaller or greater
numbers: a field refers to the vector before it, and a mapping to parts behind it. Still no node is
needed for itself, since vectors have names and the parts of a mapping need only nodes before it. So the
recursion over the graph has one solution, which gives every node an expression. -/
namespace StraightLine

/-- Answers for the members of a list that stay the same keep the answer for the list. -/
theorem mapM_eq_some_mono {α β : Type} {f g : α → Option β} {xs : List α} {ys : List β}
    (h : ∀ x ∈ xs, ∀ y, f x = some y → g x = some y) (hf : xs.mapM f = some ys) :
    xs.mapM g = some ys := by
  induction xs generalizing ys with
  | nil => exact hf
  | cons x xs ih =>
    simp only [List.mapM_cons, Option.bind_eq_bind, Option.bind_eq_some_iff] at hf ⊢
    obtain ⟨y, hy, rest, hrest, hys⟩ := hf
    exact ⟨y, h x (by simp) y hy, rest, ih (fun z hz => h z (by simp [hz])) hrest, hys⟩

namespace Arena

variable {a : Arena} {id : NodeId} {f g : NodeId → Option Expr}

def needs (a : Arena) (id : NodeId) : List NodeId :=
  match a.get? id with
  | none => []
  | some node =>
    match node.standing, node.kind with
    | .named _, _ | _, .scalar => []
    | _, .vector cs _ | _, .reduction _ _ cs | _, .mapping _ _ cs => cs
    | _, .field parent _ => [parent]
    | _, .apply _ operands => operands

/-- The expression of a node, made from given expressions of other nodes. -/
def exprFrom (a : Arena) (parts : NodeId → Option Expr) (id : NodeId) : Option Expr := do
  let node ← a.get? id
  match node.standing, node.kind with
  | .named text, _ => some (.name id text)
  | _, .scalar => none
  | _, .vector cs _ | _, .reduction _ _ cs | _, .mapping _ _ cs =>
    return .list (← cs.mapM parts)
  | _, .field parent index => return .slot (← parts parent) index
  | _, .apply _ [] => none
  | _, .apply operation (first :: rest) =>
    return .apply id (Operator.parse operation) (← parts first) (← rest.mapM parts)

theorem exprWithin_succ (a : Arena) (depth : Nat) (id : NodeId) :
    a.exprWithin (depth + 1) id = a.exprFrom (a.exprWithin depth) id := rfl

/-- Expressions of the needed nodes that stay the same keep the expression made from them. -/
theorem exprFrom_mono (h : ∀ c ∈ a.needs id, ∀ e, f c = some e → g c = some e) {e : Expr}
    (hf : a.exprFrom f id = some e) : a.exprFrom g id = some e := by
  unfold needs at h
  unfold exprFrom at hf ⊢
  cases hn : a.get? id with
  | none =>
    rw [hn] at hf
    cases hf
  | some node =>
    rw [hn] at h hf
    obtain ⟨kind, standing, aliasable, uses⟩ := node
    cases standing with
    | named text => exact hf
    | inline | stored store =>
      cases kind with
      | scalar => exact hf
      | vector cs | reduction operation operands cs | mapping operation operands cs =>
        simp only [Option.bind_eq_bind, Option.bind_some, Option.bind_eq_some_iff] at hf ⊢
        obtain ⟨es, hes, he⟩ := hf
        exact ⟨es, mapM_eq_some_mono h hes, he⟩
      | field parent index =>
        simp only [Option.bind_eq_bind, Option.bind_some, Option.bind_eq_some_iff] at hf ⊢
        obtain ⟨base, hbase, he⟩ := hf
        exact ⟨base, h parent (by simp) base hbase, he⟩
      | apply operation operands =>
        cases operands with
        | nil => exact hf
        | cons first rest =>
          simp only [Option.bind_eq_bind, Option.bind_some, Option.bind_eq_some_iff] at hf ⊢
          obtain ⟨head, hhead, es, hes, he⟩ := hf
          have hrest := mapM_eq_some_mono (fun c hc => h c (by simp [hc])) hes
          exact ⟨head, h first (by simp) head hhead, es, hrest, he⟩

/-- Expressions of other nodes than the needed ones do not matter. -/
theorem exprFrom_congr (h : ∀ c ∈ a.needs id, f c = g c) : a.exprFrom f id = a.exprFrom g id := by
  ext e
  constructor
  · exact exprFrom_mono fun c hc e he => h c hc ▸ he
  · exact exprFrom_mono fun c hc e he => (h c hc).symm ▸ he

/-- An expression that is found stays the same with more nesting allowed. -/
theorem exprWithin_mono {depth : Nat} {e : Expr} (h : a.exprWithin depth id = some e) :
    a.exprWithin (depth + 1) id = some e := by
  induction depth generalizing id e with
  | zero => cases h
  | succ depth ih =>
    rw [exprWithin_succ] at h ⊢
    exact exprFrom_mono (fun _ _ _ => ih) h

theorem needs_of_named {name : String} (h : a.standing? id = some (.named name)) :
    a.needs id = [] := by
  obtain ⟨node, hn, hs⟩ := exists_of_standing? h
  simp [needs, hn, hs]

theorem needs_of_get?_eq_none (h : a.get? id = none) : a.needs id = [] := by
  simp [needs, h]

/-- What a node may need: a field its vector, an operation nodes before it, and a mapping or reduction
operations over nodes before it. -/
theorem Placed.needs {node : Node} (hp : a.Placed id node) (hn : a.get? id = some node)
    {c : NodeId} (hc : c ∈ a.needs id) :
    (∃ vector, a.get? c = some vector ∧ vector.kind.isLeaf = true) ∨
      a.contains c = true ∧ c.index < id.index ∨
      ∃ part operation column, a.get? c = some part ∧ part.kind = .apply operation column ∧
        ∀ o ∈ column, o.index < id.index := by
  cases hs : node.standing with
  | named name =>
    rw [needs_of_named (hs ▸ standing?_of_get? hn)] at hc
    cases hc
  | inline | stored store =>
    have hleaf : node.kind.isLeaf = false := by
      by_contra hleaf
      obtain ⟨name, hname⟩ := hp.named (by simpa using hleaf)
      simp [hs] at hname
    cases hk : node.kind with
    | scalar | vector cs square => simp [hk, Kind.isLeaf] at hleaf
    | field parent index =>
      obtain rfl : c = parent := by simpa [Arena.needs, hn, hs, hk] using hc
      obtain ⟨-, vector, cs, square, hv, hvk, -⟩ := hp.parent c index hk
      exact .inl ⟨vector, hv, by simp [hvk, Kind.isLeaf]⟩
    | apply operation operands =>
      have hmem : c ∈ operands := by simpa [Arena.needs, hn, hs, hk] using hc
      have hlt := hp.operands ⟨.apply, operation, operands⟩ (by simp [hk, Kind.identity?]) c hmem
      have hsize := index_lt_of_get? hn
      exact .inr (.inl ⟨by simp [contains]; omega, hlt⟩)
    | reduction operation operands cs | mapping operation operands cs =>
      have hmem : c ∈ cs := by simpa [Arena.needs, hn, hs, hk] using hc
      obtain ⟨part, column, hpart, hpk, hcolumn⟩ :=
        hp.parts operation cs (by simp [hk, Kind.parts?]) c hmem
      exact .inr (.inr ⟨part, operation, column, hpart, hpk, hcolumn⟩)

theorem Placed.contains_needs {node : Node} (hp : a.Placed id node) (hn : a.get? id = some node)
    {c : NodeId} (hc : c ∈ a.needs id) : a.contains c = true := by
  rcases hp.needs hn hc with ⟨vector, hv, -⟩ | ⟨hknown, -⟩ | ⟨part, -, -, hpart, -⟩
  · exact contains_of_get? hv
  · exact hknown
  · exact contains_of_get? hpart

/-- No node is needed for itself, over however many others. -/
theorem WellFormed.wellFounded_needs (ha : a.WellFormed) :
    WellFounded fun c id => c ∈ a.needs id := by
  have hnone : ∀ id, a.needs id = [] → Acc (fun c id => c ∈ a.needs id) id :=
    fun id h => ⟨id, fun c hc => by simp [h] at hc⟩
  refine ⟨fun id => ?_⟩
  induction hi : id.index using Nat.strongRecOn generalizing id with
  | ind i ih =>
    subst hi
    cases hn : a.get? id with
    | none => exact hnone id (needs_of_get?_eq_none hn)
    | some node =>
      refine ⟨id, fun c hc => ?_⟩
      rcases (ha id node hn).needs hn hc with
        ⟨vector, hv, hleaf⟩ | ⟨-, hlt⟩ | ⟨part, operation, column, hpart, hpk, hcolumn⟩
      · obtain ⟨name, hname⟩ := (ha c vector hv).named hleaf
        exact hnone c (needs_of_named (hname ▸ standing?_of_get? hv))
      · exact ih c.index hlt c rfl
      · -- a part may stand behind its owner, but the operands of the part stand before it
        refine ⟨c, fun o ho => ?_⟩
        have hmem : o ∈ column := by
          cases hs : part.standing <;> simp_all [Arena.needs]
        exact ih o.index (hcolumn o hmem) o rfl

/-- The expressions of the nodes are a solution of the recursion over the graph. -/
theorem WellFormed.expr?_eq_exprFrom (ha : a.WellFormed) (id : NodeId) :
    a.expr? id = a.exprFrom a.expr? id := by
  rw [Arena.expr?, exprWithin_succ]
  refine exprFrom_congr fun c hc => ?_
  cases hn : a.get? id with
  | none =>
    rw [needs_of_get?_eq_none hn] at hc
    cases hc
  | some node =>
    have hknown := (ha id node hn).contains_needs hn hc
    have hlt : c.index < a.size := by simpa [contains] using hknown
    obtain ⟨e, he, -⟩ := ha.exprWithin (P := fun _ _ => True)
      ⟨by simp, by simp, by simp, by simp⟩ (2 * a.size) c hknown (by omega)
    exact he.trans (exprWithin_mono he).symm

/-- The recursion over the graph has no other solution. -/
theorem WellFormed.eq_expr?_of_exprFrom (ha : a.WellFormed) (hf : ∀ id, f id = a.exprFrom f id) :
    f = a.expr? := by
  funext id
  induction id using ha.wellFounded_needs.induction with
  | _ id ih =>
    rw [hf, ha.expr?_eq_exprFrom]
    exact exprFrom_congr ih

end Arena

namespace Session

variable {s : Session}

/-- Writing out nodes ends: no node is needed for itself, the recursion over the graph has exactly one
solution, and it gives every node a text with brackets, one without, and a place to store into. -/
structure Renderable (s : Session) : Prop where
  ends : WellFounded fun c id => c ∈ s.arena.needs id
  solved : ∀ f, (∀ id, f id = s.arena.exprFrom f id) ↔ f = s.arena.expr?
  nodes : ∀ id, s.arena.contains id = true → ∃ e place, s.arena.expr? id = some e ∧
    (∀ brackets, s.render id brackets = .ok (e.text brackets)) ∧ s.target id = .ok place

theorem WellFormed.renderable (hs : s.WellFormed) : s.Renderable where
  ends := hs.arena.wellFounded_needs
  solved f := by
    refine ⟨hs.arena.eq_expr?_of_exprFrom, ?_⟩
    rintro rfl
    exact hs.arena.expr?_eq_exprFrom
  nodes id hid := by
    obtain ⟨e, he⟩ := hs.arena.expr?_eq_some hid
    obtain ⟨place, hplace⟩ := hs.arena.target?_eq_some hid
    exact ⟨e, place, he, render_eq_ok he, target_eq_ok hplace⟩

/-- In every session that requests lead to, and in the midst of requests, every node is rendered. -/
theorem rendering_is_total {s₀ : Session} {settings : Settings}
    (h₀ : Session.new settings = .ok s₀) :
    (∀ calls, (s₀.run calls).Renderable) ∧ ∀ effects s, Steps s₀ effects s → s.Renderable := by
  refine ⟨fun calls => ?_, fun effects s h => ?_⟩
  · exact ((complete_of_new h₀).run calls).1.renderable
  · exact (h.lifeCycle h₀).1.renderable

theorem rendering_is_total_of_mapping :
    let s := ({ settings := {} } : Session).run
      [.vector (.length 2) "v", .scalar "x", .map "*" [⟨0⟩, ⟨3⟩]]
    s.arena.needs ⟨4⟩ = [⟨5⟩, ⟨6⟩] ∧ s.arena.needs ⟨5⟩ = [⟨1⟩, ⟨3⟩] ∧ s.arena.needs ⟨1⟩ = [⟨0⟩] ∧
      s.arena.needs ⟨0⟩ = [] ∧ ∃ text, s.render ⟨4⟩ .auto = .ok text := by
  intro s
  have h₀ : Session.new {} = .ok { settings := {} } := rfl
  obtain ⟨hrun, -⟩ := rendering_is_total h₀
  obtain ⟨e, -, -, hrender, -⟩ := (hrun [.vector (.length 2) "v", .scalar "x",
    .map "*" [⟨0⟩, ⟨3⟩]]).nodes ⟨4⟩ (by decide +kernel)
  refine ⟨by decide +kernel, by decide +kernel, by decide +kernel, by decide +kernel, ?_⟩
  exact ⟨e.text .auto, hrender .auto⟩

end Session

end StraightLine
