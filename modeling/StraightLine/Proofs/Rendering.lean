import StraightLine.Proofs.OperatorMeaning
import StraightLine.Proofs.Runs

/-! # Written nodes mean what they stand for

If the names of a graph have the values of their nodes, the text of every node has the node's value,
whichever nodes are written as names. A slot of a vector may have been overwritten, so the general
statement asks only for the slots that the text reads. -/
namespace StraightLine

open Grammar

mutual

def Expr.slots : Expr → List (String × Nat)
  | .name .. => []
  | .slot base index =>
    match base with
    | .name _ vector => [(vector, index)]
    | other => other.slots
  | .list items => Expr.slotsOf items
  | .apply _ _ first rest => first.slots ++ Expr.slotsOf rest

def Expr.slotsOf : List Expr → List (String × Nat)
  | [] => []
  | e :: es => e.slots ++ Expr.slotsOf es

end

/-- The kinds whose nodes stand for an element of the ring. -/
def Kind.isScalar : Kind → Bool
  | .scalar | .field .. | .apply .. => true
  | _ => false

section Decidable

instance (standing : Standing) (P : String → Prop) [DecidablePred P] :
    Decidable (∀ text, standing = .named text → P text) :=
  match standing with
  | .named text => decidable_of_iff (P text) ⟨by rintro h _ ⟨⟩; exact h, fun h => h text rfl⟩
  | .inline | .stored _ => .isTrue nofun

instance (kind : Kind) (P : String → List NodeId → Prop) [∀ operation, DecidablePred (P operation)] :
    Decidable (∀ operation operands, kind = .apply operation operands → P operation operands) :=
  match kind with
  | .apply operation operands =>
    decidable_of_iff (P operation operands) ⟨by rintro h _ _ ⟨⟩; exact h, fun h => h _ _ rfl⟩
  | .scalar | .vector .. | .field .. | .reduction .. | .mapping .. => .isTrue nofun

instance (kind : Kind) (vector : NodeId) : Decidable (∃ index, kind = .field vector index) :=
  match kind with
  | .field parent index =>
    decidable_of_iff (parent = vector) ⟨fun h => ⟨index, by rw [h]⟩, by rintro ⟨_, ⟨⟩⟩; rfl⟩
  | .scalar | .vector .. | .apply .. | .reduction .. | .mapping .. => .isFalse nofun

/-- What is said of all nodes of a graph is said of finitely many numbers. -/
instance (a : Arena) (P : NodeId → Node → Prop) [∀ id, DecidablePred (P id)] :
    Decidable (∀ id node, a.get? id = some node → P id node) :=
  decidable_of_iff (∀ i < a.size, ∀ node ∈ a.get? ⟨i⟩, P ⟨i⟩ node)
    ⟨fun h id node hn => h id.index (Arena.index_lt_of_get? hn) node hn,
      fun h i _ node hn => h ⟨i⟩ node hn⟩

end Decidable

namespace Arena

variable {R : Type*} [CommRing R]

/-- The memory and the values of nodes agree, as far as slots are readable. -/
structure Valued (a : Arena) (I : Interpretation R) (m : Memory R) (V : NodeId → Quantity R)
    (readable : String × Nat → Prop) : Prop where
  named : ∀ id node text, a.get? id = some node → node.standing = .named text →
    isIdentifier text = true ∧ m text = some (V id)
  field : ∀ id node parent vector index text, a.get? id = some node →
    node.kind = .field parent index → a.get? parent = some vector →
    vector.standing = .named text → readable (text, index) →
    (m text).bind (·.item? index) = some (V id)
  operation : ∀ id node operation operands, a.get? id = some node →
    node.kind = .apply operation operands → isArithmetic operation = true ∧
      ∃ xs, operands.map V = xs.map .scalar ∧ V id = .scalar (I.apply operation xs)
  parts : ∀ id node operation cs, a.get? id = some node →
    node.kind.parts? = some (operation, cs) → V id = .list (cs.map V)

variable {a : Arena} {I : Interpretation R} {m : Memory R} {V : NodeId → Quantity R}
  {readable : String × Nat → Prop}

/-- The texts of several nodes. -/
theorem reads_terms {ids : List NodeId} {es : List Expr}
    (h : List.Forall₂ (fun id e => (∀ slot ∈ e.slots, readable slot) → e.term.Reads I m (V id)) ids es)
    (hslots : ∀ slot ∈ Expr.slotsOf es, readable slot) :
    List.Forall₂ (fun t v => t.Reads I m v) (Expr.terms es) (ids.map V) := by
  induction h with
  | nil => exact .nil
  | cons hhead _ ih =>
    simp only [Expr.slotsOf, List.mem_append] at hslots
    exact .cons (hhead fun slot hs => hslots slot (.inl hs)) (ih fun slot hs => hslots slot (.inr hs))

/-- Along the graph, every node is written with its value. -/
theorem Valued.carried (h : a.Valued I m V readable) :
    a.Carried fun id e => (∀ slot ∈ e.slots, readable slot) → e.term.Reads I m (V id) where
  name id node text hn hs _ := by
    obtain ⟨hname, hv⟩ := h.named id node text hn hs
    exact Term.reads_atom (readsUnary_name hname hv)
  slot id node parent vector index text hn hk hv hs hslots := by
    obtain ⟨hname, -⟩ := h.named parent vector text hv hs
    have hslot := h.field id node parent vector index text hn hk hv hs
      (hslots (text, index) (by simp [Expr.slots]))
    exact Term.reads_atom (readsUnary_slot hname hslot)
  apply id node operation first rest e es hn hk hfirst hrest hslots := by
    simp only [Expr.slots, List.mem_append] at hslots
    obtain ⟨hop, xs, hxs, hv⟩ := h.operation id node operation (first :: rest) hn hk
    have hterms := reads_terms hrest fun slot hs => hslots slot (.inr hs)
    have hterm := hfirst fun slot hs => hslots slot (.inl hs)
    cases xs with
    | nil => cases hxs
    | cons x xs =>
      rw [List.map_cons, List.map_cons, List.cons.injEq] at hxs
      rw [hxs.2, List.forall₂_map_right_iff] at hterms
      rw [hxs.1] at hterm
      rw [hv]
      exact Operator.reads_write hop hterm hterms
  list id node operation cs es hn hp hes hslots := by
    have hterms := reads_terms hes hslots
    rw [h.parts id node operation cs hn hp]
    refine Term.reads_atom (readsUnary_list ?_)
    rw [List.forall₂_map_left_iff]
    exact hterms.imp fun _ _ ht => ht.sum

theorem contains_of_expr? {id : NodeId} {e : Expr} (h : a.expr? id = some e) :
    a.contains id = true := by
  rw [Arena.expr?, exprWithin] at h
  cases hn : a.get? id with
  | none => simp [hn] at h
  | some node => exact contains_of_get? hn

theorem contains_of_target? {id : NodeId} {e : Expr} (h : a.target? id = some e) :
    a.contains id = true := by
  cases hn : a.get? id with
  | none => simp [target?, hn] at h
  | some node => exact contains_of_get? hn

/-- The text of a node has the node's value if it reads readable slots only. -/
theorem Valued.reads (h : a.Valued I m V readable) (ha : a.WellFormed) {id : NodeId} {e : Expr}
    (he : a.expr? id = some e) (hslots : ∀ slot ∈ e.slots, readable slot) :
    e.term.Reads I m (V id) := by
  obtain ⟨e', he', hreads⟩ := ha.expr? h.carried (contains_of_expr? he)
  rw [he] at he'
  cases he'
  exact hreads hslots

/-- Values of the nodes of a graph: operations apply to the values of their operands, and a node with
components is the list of their values. -/
structure Values (a : Arena) (I : Interpretation R) (V : NodeId → Quantity R) : Prop where
  scalar : ∀ id node, a.get? id = some node → node.kind.isScalar = true → ∃ x, V id = .scalar x
  operation : ∀ id node operation operands (xs : List R), a.get? id = some node →
    node.kind = .apply operation operands → operands.map V = xs.map .scalar →
    V id = .scalar (I.apply operation xs)
  components : ∀ id node cs, a.get? id = some node → node.components? = some cs →
    V id = .list (cs.map V)

/-- A graph of arithmetic: names are identifiers, and operations are those of arithmetic or functions,
over operands that stand for elements of the ring. -/
structure Arithmetic (a : Arena) : Prop where
  names : ∀ id node text, a.get? id = some node → node.standing = .named text →
    isIdentifier text = true
  operations : ∀ id node operation operands, a.get? id = some node →
    node.kind = .apply operation operands → isArithmetic operation = true ∧
      ∀ o ∈ operands, ∃ operand, a.get? o = some operand ∧ operand.kind.isScalar = true

instance : DecidablePred Arithmetic := fun a =>
  decidable_of_iff ((∀ id node, a.get? id = some node → ∀ text, node.standing = .named text →
      isIdentifier text = true) ∧
    ∀ id node, a.get? id = some node → ∀ operation operands, node.kind = .apply operation operands →
      isArithmetic operation = true ∧
        ∀ o ∈ operands, ∃ operand ∈ a.get? o, operand.kind.isScalar = true)
    ⟨fun h => ⟨fun id node text hn => h.1 id node hn text,
        fun id node operation operands hn => h.2 id node hn operation operands⟩,
      fun h => ⟨fun id node hn text => h.names id node text hn,
        fun id node hn operation operands => h.operations id node operation operands hn⟩⟩

omit [CommRing R] in
theorem scalars_of_forall {ids : List NodeId} (h : ∀ id ∈ ids, ∃ x, V id = .scalar x) :
    ∃ xs : List R, ids.map V = xs.map .scalar := by
  induction ids with
  | nil => exact ⟨[], rfl⟩
  | cons id ids ih =>
    obtain ⟨x, hx⟩ := h id (by simp)
    obtain ⟨xs, hxs⟩ := ih fun other ho => h other (by simp [ho])
    exact ⟨x :: xs, by simp [hx, hxs]⟩

/-- A graph without components has elements of the ring for values. -/
theorem values_of_scalars {x : NodeId → R}
    (hnone : ∀ id node, a.get? id = some node → node.components? = none)
    (hx : ∀ id node, a.get? id = some node → ∀ operation operands,
      node.kind = .apply operation operands → x id = I.apply operation (operands.map x)) :
    a.Values I fun id => .scalar (x id) where
  scalar id _ _ _ := ⟨x id, rfl⟩
  operation id node operation operands xs hn hk hxs := by
    have hmap : (operands.map x).map Quantity.scalar = xs.map .scalar := by
      rw [List.map_map]
      exact hxs
    rw [List.map_inj_right fun _ _ => Quantity.scalar.inj] at hmap
    rw [hx id node hn operation operands hk, hmap]
  components id node cs hn hcs := by
    rw [hnone id node hn] at hcs
    cases hcs

theorem Values.valued (hV : a.Values I V) (ha : a.WellFormed) (harith : a.Arithmetic)
    (hm : ∀ id node text, a.get? id = some node → node.standing = .named text →
      m text = some (V id)) : a.Valued I m V fun _ => True where
  named id node text hn hs := ⟨harith.names id node text hn hs, hm id node text hn hs⟩
  field id node parent vector index text hn hk hv hs _ := by
    obtain ⟨-, vector', cs, square, hv', hvk, hc⟩ := (ha id node hn).parent parent index hk
    rw [hv] at hv'
    cases hv'
    have hcomponents : vector.components? = some cs := by simp [Node.components?, hvk]
    rw [hm parent vector text hv hs, hV.components parent vector cs hv hcomponents]
    simp [Quantity.item?, hc]
  operation id node operation operands hn hk := by
    obtain ⟨hop, hoperands⟩ := harith.operations id node operation operands hn hk
    obtain ⟨xs, hxs⟩ := scalars_of_forall fun o ho => by
      obtain ⟨operand, hget, hscalar⟩ := hoperands o ho
      exact hV.scalar o operand hget hscalar
    exact ⟨hop, xs, hxs, hV.operation id node operation operands xs hn hk hxs⟩
  parts id node operation cs hn hp := by
    refine hV.components id node cs hn ?_
    cases hk : node.kind <;> simp_all [Kind.parts?, Node.components?]

end Arena

/-- In every graph that requests lead to, with any of its nodes written as names, the text of a node
reads as an expression with the node's value, and the bracketed text reads as an operand. -/
theorem rendered_text_has_node_value {R : Type*} [CommRing R] {settings : Settings} {s₀ : Session}
    (h₀ : Session.new settings = .ok s₀) (calls : List Call) {a : Arena}
    (ha : (s₀.run calls).arena.SameKinds a) (harith : a.Arithmetic) (I : Interpretation R)
    {V : NodeId → Quantity R} (hV : a.Values I V) {m : Memory R}
    (hm : ∀ id node text, a.get? id = some node → node.standing = .named text →
      m text = some (V id)) {id : NodeId} (hid : a.contains id = true) :
    ∃ e, a.expr? id = some e ∧
      (∀ brackets, ∃ s, Sum.read (lex (e.text brackets)) = some s ∧ s.eval I m = some (V id)) ∧
      ∃ u, Sum.read (lex (e.text .auto)) = some (.single (.single u)) := by
  obtain ⟨hwf, -⟩ := (Session.complete_of_new h₀).run calls
  have hshape := hwf.arena.sameKinds ha
  obtain ⟨e, he⟩ := hshape.expr?_eq_some hid
  have hreads := (hV.valued hshape harith hm).reads hshape he fun _ _ => trivial
  refine ⟨e, he, fun brackets => ?_, ?_⟩
  · obtain ⟨s, hs, hv⟩ : ReadsSum I m (e.text brackets) (V id) := by
      cases brackets with
      | auto => exact hreads.operand.sum
      | suppress => exact hreads.sum
    exact ⟨s, by rw [hs, Sum.read_tokens], hv⟩
  · obtain ⟨u, hu, -⟩ := hreads.operand
    refine ⟨u, ?_⟩
    rw [Expr.text, hu]
    exact Sum.read_tokens (.single (.single u))

theorem rendered_text_has_node_value_of_difference :
    ∃ e, ((({ settings := {} } : Session).run
        [.scalar "a", .apply "[[negate]]" [⟨0⟩], .apply "-" [⟨1⟩, ⟨0⟩]]).arena.modify ⟨1⟩
          (Node.bound "t")).expr? ⟨2⟩ = some e ∧
      ∃ s, Sum.read (lex (e.text .suppress)) = some s ∧
        s.eval (⟨(· / ·), fun _ => List.sum, fun _ _ _ => true⟩ : Interpretation ℤ)
          (fun name => some (.scalar (if name = "a" then 5 else -5))) = some (.scalar (-10)) := by
  have h₀ : Session.new {} = .ok { settings := {} } := rfl
  obtain ⟨hwf, -⟩ := (Session.complete_of_new h₀).run
    [.scalar "a", .apply "[[negate]]" [⟨0⟩], .apply "-" [⟨1⟩, ⟨0⟩]]
  have hget : (({ settings := {} } : Session).run
      [.scalar "a", .apply "[[negate]]" [⟨0⟩], .apply "-" [⟨1⟩, ⟨0⟩]]).arena.get? ⟨1⟩ =
      some ⟨.apply "[[negate]]" [⟨0⟩], .inline, true, 1⟩ := by decide +kernel
  have hsame := Arena.sameKinds_modify hwf.arena hget (f := Node.bound "t") rfl
    (by simp [Kind.isLeaf])
  generalize hg : (({ settings := {} } : Session).run
    [.scalar "a", .apply "[[negate]]" [⟨0⟩], .apply "-" [⟨1⟩, ⟨0⟩]]).arena.modify ⟨1⟩
      (Node.bound "t") = g at hsame ⊢
  let x : NodeId → ℤ := fun id => if id.index = 0 then 5 else if id.index = 1 then -5 else -10
  have harith : g.Arithmetic := by
    rw [← hg]
    decide +kernel
  have hvalues : g.Values ⟨(· / ·), fun _ => List.sum, fun _ _ _ => true⟩ fun id => .scalar (x id) := by
    rw [← hg]
    exact Arena.values_of_scalars (by decide +kernel) (by decide +kernel)
  have hnames : ∀ id node, g.get? id = some node → ∀ text, node.standing = .named text →
      (if text = "a" then 5 else -5) = x id := by
    rw [← hg]
    decide +kernel
  have hid : g.contains ⟨2⟩ = true := by
    rw [← hg]
    decide +kernel
  obtain ⟨e, he, htext, -⟩ := rendered_text_has_node_value h₀ _ hsame harith _ hvalues
    (m := fun name => some (.scalar (if name = "a" then 5 else -5)))
    (fun id node text hn hs => by rw [hnames id node hn text hs]) hid
  exact ⟨e, he, htext .suppress⟩

end StraightLine
