import StraightLine.Arena
import Mathlib.Data.List.Forall2

/-! # The shape of an expression graph

Operands precede their users, fields follow their vector, and the parts of a mapping or reduction
are operations over nodes that precede it. Along this order every node of a graph can be written,
and what holds of the written operands can be carried to the written node. -/
namespace StraightLine

/-- If every element has a result, so has the whole list. -/
theorem mapM_eq_some_of_forall {α β : Type} {f : α → Option β} {P : α → β → Prop} {xs : List α}
    (h : ∀ x ∈ xs, ∃ y, f x = some y ∧ P x y) :
    ∃ ys, xs.mapM f = some ys ∧ List.Forall₂ P xs ys := by
  induction xs with
  | nil => exact ⟨[], rfl, .nil⟩
  | cons x xs ih =>
    obtain ⟨y, hy, hp⟩ := h x (by simp)
    obtain ⟨ys, hys, hps⟩ := ih fun z hz => h z (by simp [hz])
    exact ⟨y :: ys, by simp [hy, hys], .cons hp hps⟩

namespace Kind

/-- The kinds whose nodes carry a name from the start. -/
def isLeaf : Kind → Bool
  | .scalar | .vector .. => true
  | _ => false

/-- The request that a node of this kind answers. -/
def identity? : Kind → Option Identity
  | .apply operation operands => some ⟨.apply, operation, operands⟩
  | .reduction operation operands _ => some ⟨.reduction, operation, operands⟩
  | .mapping operation operands _ => some ⟨.mapping, operation, operands⟩
  | _ => none

/-- The operation of a reduction or mapping, with the nodes that carry it out. -/
def parts? : Kind → Option (String × List NodeId)
  | .reduction operation _ cs | .mapping operation _ cs => some (operation, cs)
  | _ => none

end Kind

/-- Components are no part of a node's identity. -/
theorem Node.identity?_withComponents (n : Node) (cs : List NodeId) :
    (n.withComponents cs).kind.identity? = n.kind.identity? := by
  cases hk : n.kind <;> simp [withComponents, hk, Kind.identity?]

namespace Arena

theorem contains_of_get? {a : Arena} {id : NodeId} {node : Node} (h : a.get? id = some node) :
    a.contains id = true := contains_iff.2 ⟨node, h⟩

theorem index_lt_of_get? {a : Arena} {id : NodeId} {node : Node} (h : a.get? id = some node) :
    id.index < a.size := by
  simpa [contains] using contains_of_get? h

/-- What the node with a given number may refer to. -/
structure Placed (a : Arena) (id : NodeId) (node : Node) : Prop where
  named : node.kind.isLeaf → ∃ name, node.standing = .named name
  components : ∀ cs square, node.kind = .vector cs square → ∀ c ∈ cs, a.contains c = true
  parent : ∀ parent index, node.kind = .field parent index → parent.index < id.index ∧
    ∃ vector cs square, a.get? parent = some vector ∧ vector.kind = .vector cs square ∧
      cs[index]? = some id
  operands : ∀ key, node.kind.identity? = some key → ∀ o ∈ key.operands, o.index < id.index
  nonempty : ∀ operation operands, node.kind = .apply operation operands → operands ≠ []
  parts : ∀ operation cs, node.kind.parts? = some (operation, cs) → ∀ c ∈ cs,
    ∃ part column, a.get? c = some part ∧ part.kind = .apply operation column ∧
      ∀ o ∈ column, o.index < id.index

def WellFormed (a : Arena) : Prop := ∀ id node, a.get? id = some node → a.Placed id node

theorem wellFormed_empty : WellFormed {} := by
  intro id node h
  simp [get?] at h

structure Extends (a b : Arena) : Prop where
  kind_eq : ∀ id node, a.get? id = some node →
    ∃ other, b.get? id = some other ∧ other.kind = node.kind

theorem Extends.refl (a : Arena) : a.Extends a := ⟨fun _ node h => ⟨node, h, rfl⟩⟩

theorem Extends.trans {a b c : Arena} (hab : a.Extends b) (hbc : b.Extends c) : a.Extends c := by
  refine ⟨fun id node h => ?_⟩
  obtain ⟨other, ho, hk⟩ := hab.kind_eq id node h
  obtain ⟨last, hl, hk'⟩ := hbc.kind_eq id other ho
  exact ⟨last, hl, hk'.trans hk⟩

theorem Extends.contains {a b : Arena} (h : a.Extends b) {id : NodeId}
    (ha : a.contains id = true) : b.contains id = true := by
  obtain ⟨node, hn⟩ := contains_iff.1 ha
  obtain ⟨other, ho, -⟩ := h.kind_eq id node hn
  exact contains_of_get? ho

/-- Every node of the first graph is in the second, and is of the same kind unless it has parts. -/
structure Keeps (a b : Arena) : Prop where
  contains : ∀ id, a.contains id = true → b.contains id = true
  kind_eq : ∀ id node, a.get? id = some node → node.kind.parts? = none →
    ∃ other, b.get? id = some other ∧ other.kind = node.kind

theorem Extends.keeps {a b : Arena} (h : a.Extends b) : a.Keeps b :=
  ⟨fun _ => h.contains, fun id node hn _ => h.kind_eq id node hn⟩

/-- What a node may refer to are known numbers, vectors and operations. -/
theorem Placed.keeps {a b : Arena} (h : a.Keeps b) {id : NodeId} {node other : Node}
    (hp : a.Placed id node) (hk : other.kind = node.kind)
    (hn : other.kind.isLeaf → ∃ name, other.standing = .named name) : b.Placed id other where
  named := hn
  components cs square hc c hm := h.contains c (hp.components cs square (hk ▸ hc) c hm)
  parent p i hf := by
    obtain ⟨hlt, vector, cs, square, hv, hvk, hc⟩ := hp.parent p i (hk ▸ hf)
    obtain ⟨vector', hv', hvk'⟩ := h.kind_eq p vector hv (by simp [hvk, Kind.parts?])
    exact ⟨hlt, vector', cs, square, hv', hvk'.trans hvk, hc⟩
  operands key hkey := hp.operands key (hk ▸ hkey)
  nonempty operation operands hop := hp.nonempty operation operands (hk ▸ hop)
  parts operation cs hcs c hc := by
    obtain ⟨part, column, hg, hpk, hcol⟩ := hp.parts operation cs (hk ▸ hcs) c hc
    obtain ⟨part', hg', hpk'⟩ := h.kind_eq c part hg (by simp [hpk, Kind.parts?])
    exact ⟨part', column, hg', hpk'.trans hpk, hcol⟩

/-- Two graphs of nodes of the same kinds. The second may bind other nodes to names, but its leaves
have names too. -/
structure SameKinds (a b : Arena) : Prop extends Extends a b where
  size_eq : b.size = a.size
  named : ∀ id node, b.get? id = some node → node.kind.isLeaf → ∃ name, node.standing = .named name

theorem SameKinds.get?_left {a b : Arena} (h : a.SameKinds b) {id : NodeId} {other : Node}
    (hb : b.get? id = some other) : ∃ node, a.get? id = some node ∧ other.kind = node.kind := by
  have hlt : id.index < a.size := h.size_eq ▸ index_lt_of_get? hb
  obtain ⟨node, hn⟩ := contains_iff.1 (show a.contains id = true by simpa [contains] using hlt)
  obtain ⟨other', ho, hk⟩ := h.kind_eq id node hn
  rw [hb] at ho
  cases ho
  exact ⟨node, hn, hk⟩

theorem SameKinds.refl {a : Arena} (ha : a.WellFormed) : a.SameKinds a where
  toExtends := .refl a
  size_eq := rfl
  named id node h := (ha id node h).named

theorem SameKinds.trans {a b c : Arena} (hab : a.SameKinds b) (hbc : b.SameKinds c) :
    a.SameKinds c where
  toExtends := hab.toExtends.trans hbc.toExtends
  size_eq := hbc.size_eq.trans hab.size_eq
  named := hbc.named

theorem WellFormed.sameKinds {a b : Arena} (ha : a.WellFormed) (h : a.SameKinds b) :
    b.WellFormed := by
  intro id other hb
  obtain ⟨node, hn, hk⟩ := h.get?_left hb
  exact (ha id node hn).keeps h.toExtends.keeps hk (h.named id other hb)

section Writing

variable {a : Arena} {P : NodeId → Expr → Prop}

/-- The cases in which a property of written nodes is carried along the graph. -/
structure Carried (a : Arena) (P : NodeId → Expr → Prop) : Prop where
  name : ∀ id node text, a.get? id = some node → node.standing = .named text →
    P id (.name id text)
  slot : ∀ id node parent vector index text, a.get? id = some node →
    node.kind = .field parent index → a.get? parent = some vector →
    vector.standing = .named text → P id (.slot (.name parent text) index)
  apply : ∀ id node operation first rest e es, a.get? id = some node →
    node.kind = .apply operation (first :: rest) → P first e → List.Forall₂ P rest es →
    P id (.apply id (Operator.parse operation) e es)
  list : ∀ id node operation cs es, a.get? id = some node →
    node.kind.parts? = some (operation, cs) → List.Forall₂ P cs es → P id (.list es)

/-- An operation is written once its operands are. -/
theorem Carried.writtenApply (hP : a.Carried P) {id : NodeId} {node : Node} {operation : String}
    {operands : List NodeId} {depth : Nat} (hn : a.get? id = some node)
    (hk : node.kind = .apply operation operands) (hne : operands ≠ [])
    (ih : ∀ o ∈ operands, ∃ e, a.exprWithin depth o = some e ∧ P o e) :
    ∃ e, a.exprWithin (depth + 1) id = some e ∧ P id e := by
  cases hs : node.standing with
  | named text => exact ⟨_, by simp [exprWithin, hn, hs], hP.name id node text hn hs⟩
  | inline | stored store =>
    obtain ⟨first, rest, rfl⟩ := List.exists_cons_of_ne_nil hne
    obtain ⟨e, he, hp⟩ := ih first (by simp)
    obtain ⟨es, hes, hps⟩ :=
      mapM_eq_some_of_forall fun o (ho : o ∈ rest) => ih o (by simp [ho])
    exact ⟨_, by simp [exprWithin, hn, hs, hk, he, hes],
      hP.apply id node operation first rest e es hn hk hp hps⟩

/-- Twice the number of a node bounds its nesting: one level leads from a mapping or reduction to its
parts, and another from a part to nodes that precede the mapping or reduction. -/
theorem WellFormed.exprWithin (ha : a.WellFormed) (hP : a.Carried P) (depth : Nat) (id : NodeId)
    (hid : a.contains id = true) (hd : 2 * id.index < depth) :
    ∃ e, a.exprWithin depth id = some e ∧ P id e := by
  induction hi : id.index using Nat.strongRecOn generalizing id depth with
  | ind i ih =>
    subst hi
    obtain ⟨node, hn⟩ := contains_iff.1 hid
    have hp := ha id node hn
    obtain ⟨depth, rfl⟩ : ∃ d, depth = d + 1 := ⟨depth - 1, by omega⟩
    have below : ∀ k ≤ depth, 2 * id.index ≤ k + 1 → ∀ o : NodeId, o.index < id.index →
        ∃ e, a.exprWithin k o = some e ∧ P o e := by
      intro k _ hk o ho
      have hsize := index_lt_of_get? hn
      exact ih o.index ho k o (by simp [contains]; omega) (by omega) rfl
    cases hs : node.standing with
    | named text => exact ⟨_, by simp [Arena.exprWithin, hn, hs], hP.name id node text hn hs⟩
    | inline | stored store =>
      have hleaf : node.kind.isLeaf = false := by
        by_contra hl
        obtain ⟨name, hname⟩ := hp.named (by simpa using hl)
        simp [hs] at hname
      cases hk : node.kind with
      | scalar | vector cs square => simp [hk, Kind.isLeaf] at hleaf
      | field parent index =>
        obtain ⟨hlt, vector, cs, square, hv, hvk, -⟩ := hp.parent parent index hk
        obtain ⟨text, ht⟩ := (ha parent vector hv).named (by simp [hvk, Kind.isLeaf])
        obtain ⟨depth, rfl⟩ : ∃ d, depth = d + 1 := ⟨depth - 1, by omega⟩
        exact ⟨_, by simp [Arena.exprWithin, hn, hs, hk, hv, ht],
          hP.slot id node parent vector index text hn hk hv ht⟩
      | apply operation operands =>
        refine hP.writtenApply hn hk (hp.nonempty operation operands hk) fun o ho => ?_
        exact below depth (by omega) (by omega) o (hp.operands _ (by simp [hk, Kind.identity?]; rfl) o ho)
      | reduction operation operands cs | mapping operation operands cs =>
        have hparts : node.kind.parts? = some (operation, cs) := by simp [hk, Kind.parts?]
        obtain ⟨es, hes, hps⟩ : ∃ es, cs.mapM (a.exprWithin depth) = some es ∧
            List.Forall₂ P cs es := by
          refine mapM_eq_some_of_forall fun c hc => ?_
          obtain ⟨part, column, hg, hpk, hcol⟩ := hp.parts operation cs hparts c hc
          have hne := (ha c part hg).nonempty operation column hpk
          obtain ⟨o, ho⟩ := List.exists_mem_of_ne_nil column hne
          have hlow := hcol o ho
          obtain ⟨depth, rfl⟩ : ∃ d, depth = d + 1 := ⟨depth - 1, by omega⟩
          exact hP.writtenApply hg hpk hne fun o ho => below depth (by omega) (by omega) o (hcol o ho)
        exact ⟨_, by simp [Arena.exprWithin, hn, hs, hk, hes],
          hP.list id node operation cs es hn hparts hps⟩

/-- Every node of a well-formed graph can be written, and has what is carried along the graph. -/
theorem WellFormed.expr? (ha : a.WellFormed) (hP : a.Carried P) {id : NodeId}
    (hid : a.contains id = true) : ∃ e, a.expr? id = some e ∧ P id e := by
  have hlt : id.index < a.size := by simpa [contains] using hid
  exact ha.exprWithin hP _ id hid (by omega)

theorem WellFormed.expr?_eq_some (ha : a.WellFormed) {id : NodeId} (hid : a.contains id = true) :
    ∃ e, a.expr? id = some e := by
  obtain ⟨e, he, -⟩ := ha.expr? (P := fun _ _ => True) ⟨by simp, by simp, by simp, by simp⟩ hid
  exact ⟨e, he⟩

theorem WellFormed.target?_eq_some (ha : a.WellFormed) {id : NodeId}
    (hid : a.contains id = true) : ∃ e, a.target? id = some e := by
  obtain ⟨node, hn⟩ := contains_iff.1 hid
  cases hk : node.kind with
  | field parent index =>
    obtain ⟨-, vector, cs, square, hv, -⟩ := (ha id node hn).parent parent index hk
    obtain ⟨e, he⟩ := ha.expr?_eq_some (contains_of_get? hv)
    exact ⟨.slot e index, by simp [target?, hn, hk, he]⟩
  | _ =>
    obtain ⟨e, he⟩ := ha.expr?_eq_some hid
    exact ⟨e, by simp [target?, hn, hk, he]⟩

end Writing

end Arena

end StraightLine
