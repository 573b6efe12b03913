import StraightLine.Proofs.Expansions
import StraightLine.Proofs.IdentifierNames
import StraightLine.Proofs.TermTrees

/-! # Trees of written expressions

Every expression whose names and operations are spelled with identifiers is read as a tree, with
its brackets and without. Which operators open the bracketed text can be told from the expression.
Sessions whose requests are spelled that way have such expressions only. -/
namespace StraightLine

open Precedence

namespace Operator

def isSpelled : Operator → Bool
  | .property suffix => isMember suffix
  | .keyword word => isKeyword word
  | .method name => isMember name
  | .joined symbol => (BinaryOperator.ofSymbol? symbol).isSome
  | .call function => isIdentifier function
  | .negate | .chain _ | .list => true

/-- The operators that open the bracketed text of an operation, if `ops` open that of its first
operand. -/
def unaries (operator : Operator) (t : Term) (ts : List Term) (ops : List UnaryOperator) :
    List UnaryOperator :=
  match operator, ts with
  | .property _, _ | .method _, _ | .chain _, [] | .joined _, [] => ops
  | .negate, _ => if t.isNegative then ops.tail else .minus :: ops
  | .keyword word, _ => .keyword word :: ops
  | .chain op, ts => if (op.normalize (t :: ts)).negated then [.minus] else []
  | .joined _, _ | .list, _ | .call _, _ => []

end Operator

mutual

def Expr.isSpelled : Expr → Bool
  | .name _ text => isIdentifier text
  | .slot base _ => base.isSpelled
  | .list items => Expr.areSpelled items
  | .apply _ operator first rest => operator.isSpelled && first.isSpelled && Expr.areSpelled rest

def Expr.areSpelled : List Expr → Bool
  | [] => true
  | e :: es => e.isSpelled && Expr.areSpelled es

end

/-- The operators before an operand that open the bracketed text of an expression. -/
def Expr.unaries : Expr → List UnaryOperator
  | .name _ _ | .list _ => []
  | .slot base _ => base.unaries
  | .apply _ operator first rest => operator.unaries first.term (Expr.terms rest) first.unaries

theorem Precedence.BinaryOperator.symbol_of_ofSymbol? {symbol : String} {op : BinaryOperator}
    (h : ofSymbol? symbol = some op) : op.symbol = symbol := by
  unfold ofSymbol? at h
  split at h <;> cases h <;> rfl

/-- Operands with one operator between them, from left to right. -/
theorem exists_tree_of_foldl (op : BinaryOperator) {first : String} {t : Tree} {rest : List String}
    {us : List Tree} (hfirst : Spells first t) (hlevel : op.level ≤ t.level)
    (h : List.Forall₂ (fun text u => Spells text u ∧ 5 ≤ u.level) rest us) :
    ∃ tree, Spells (rest.foldl (fun text next => text ++ (" " ++ op.symbol ++ " ") ++ next) first)
      tree ∧ (t.level = op.level ∨ rest ≠ [] → tree.level = op.level) := by
  induction h generalizing first t with
  | nil => exact ⟨t, hfirst, fun h => h.resolve_right (by simp)⟩
  | @cons text u rest us hhead _ ih =>
    have hop := op.level_le
    have hjoin := Tree.level_join t op hhead.1.fits
    obtain ⟨tree, htree, hsame⟩ := ih (hfirst.join op hhead.1) (by omega)
    exact ⟨tree, htree, fun _ => hsame (.inl (by omega))⟩

namespace Operator

variable {operator : Operator} {t : Term} {ts : List Term} {ops : List UnaryOperator}
  {core bare : Tree}

theorem exists_trees_of_plain (h : ∀ u ∈ ts, ∃ ops core bare, u.Parses ops core bare) :
    ∃ bares, List.Forall₂ Spells (ts.map Term.plain) bares := by
  induction ts with
  | nil => exact ⟨[], .nil⟩
  | cons u us ih =>
    obtain ⟨ops, core, bare, hu⟩ := h u (by simp)
    obtain ⟨bares, hbares⟩ := ih fun v hv => h v (by simp [hv])
    exact ⟨bare :: bares, .cons hu.plain hbares⟩

theorem exists_trees_of_grouped (h : ∀ u ∈ ts, ∃ ops core bare, u.Parses ops core bare) :
    ∃ us, List.Forall₂ (fun text u => Spells text u ∧ 5 ≤ u.level) (ts.map Term.grouped) us := by
  induction ts with
  | nil => exact ⟨[], .nil⟩
  | cons u us ih =>
    obtain ⟨ops, core, bare, hu⟩ := h u (by simp)
    obtain ⟨trees, htrees⟩ := ih fun v hv => h v (by simp [hv])
    exact ⟨core.under ops :: trees, .cons ⟨hu.grouped, hu.five_le⟩ htrees⟩

/-- A symbol between two or more operands. -/
theorem parses_joined {symbol : String} {op : BinaryOperator}
    (hop : BinaryOperator.ofSymbol? symbol = some op) (ht : t.Parses ops core bare)
    (hts : ∀ u ∈ ts, ∃ ops core bare, u.Parses ops core bare) (hne : ts ≠ []) :
    ∃ tree, ((Operator.joined symbol).write t ts).Parses [] (.paren tree) tree ∧
      tree.level = op.level := by
  have hlevel := op.level_le
  have hfive := ht.five_le
  obtain ⟨us, hus⟩ := exists_trees_of_grouped hts
  obtain ⟨tree, htree, hsame⟩ := exists_tree_of_foldl op ht.grouped (by omega) hus
  rw [BinaryOperator.symbol_of_ofSymbol? hop, ← intercalate_cons_eq_foldl] at htree
  obtain ⟨u, rest, rfl⟩ := List.exists_cons_of_ne_nil hne
  exact ⟨tree, Term.parses_group htree, hsame (.inr (by simp))⟩

/-- An operation over operands that are read is read itself. -/
theorem parses_write (hspelled : operator.isSpelled = true) (ht : t.Parses ops core bare)
    (hts : ∀ u ∈ ts, ∃ ops core bare, u.Parses ops core bare) :
    ∃ core bare, (operator.write t ts).Parses (operator.unaries t ts ops) core bare := by
  obtain ⟨bares, hbares⟩ := exists_trees_of_plain hts
  have hcomma := SpellsAll.intercalate hbares
  have hcommaAll := SpellsAll.intercalate (.cons ht.plain hbares)
  cases operator with
  | property suffix => exact ⟨_, _, Term.parses_atom ops (ht.grouped.member ht.level hspelled) rfl⟩
  | negate =>
    obtain ⟨bare, hneg⟩ := ht.negative
    exact ⟨_, _, hneg⟩
  | keyword word =>
    exact ⟨core, _, Term.parses_atom (.keyword word :: ops)
      (Spells.keyword hspelled ht.grouped ht.five_le) ht.level⟩
  | method name =>
    have hcall := hcomma.call ops (ht.grouped.member ht.level hspelled) rfl
    exact ⟨_, _, Term.parses_atom ops hcall rfl⟩
  | chain op =>
    cases ts with
    | nil => exact ⟨core, bare, ht⟩
    | cons u us =>
      have hall : ∀ v ∈ t :: u :: us, ∃ ops core bare, v.Parses ops core bare := by
        rw [List.forall_mem_cons]
        exact ⟨⟨ops, core, bare, ht⟩, hts⟩
      obtain ⟨b, hb, -⟩ := op.exists_tree (by simp) hall
      obtain ⟨bare, hparses⟩ := Chain.parses_term hb
      exact ⟨_, _, hparses⟩
  | joined symbol =>
    cases ts with
    | nil => exact ⟨core, bare, ht⟩
    | cons u us =>
      obtain ⟨op, hop⟩ := Option.isSome_iff_exists.1 hspelled
      obtain ⟨tree, hparses, -⟩ := parses_joined hop ht hts (by simp)
      exact ⟨_, _, hparses⟩
  | list => exact ⟨_, _, Term.parses_atom [] hcommaAll.list rfl⟩
  | call function =>
    exact ⟨_, _, Term.parses_atom [] (hcommaAll.call [] (.name hspelled) rfl) rfl⟩

end Operator

namespace Expr

theorem terms_eq_map (es : List Expr) : Expr.terms es = es.map Expr.term := by
  induction es with
  | nil => rfl
  | cons e es ih => rw [Expr.terms, ih, List.map_cons]

theorem areSpelled_iff {es : List Expr} :
    Expr.areSpelled es = true ↔ ∀ e ∈ es, e.isSpelled = true := by
  induction es with
  | nil => simp [Expr.areSpelled]
  | cons e es ih => simp [Expr.areSpelled, ih]

mutual

/-- A spelled expression is read with its brackets and without. -/
theorem parses (e : Expr) (h : e.isSpelled = true) :
    ∃ core bare, e.term.Parses e.unaries core bare := by
  cases e with
  | name node text => exact ⟨_, _, Term.parses_atom [] (.name h) rfl⟩
  | slot base index =>
    obtain ⟨core, bare, hbase⟩ := parses base h
    exact ⟨_, _, Term.parses_atom base.unaries (hbase.grouped.slot hbase.level index) rfl⟩
  | list items =>
    obtain ⟨bares, hbares⟩ := Operator.exists_trees_of_plain (parsesAll items h)
    exact ⟨_, _, Term.parses_atom [] (SpellsAll.intercalate hbares).list rfl⟩
  | apply node operator first rest =>
    simp only [isSpelled, Bool.and_eq_true] at h
    obtain ⟨⟨hoperator, hfirst⟩, hrest⟩ := h
    obtain ⟨core, bare, hparses⟩ := parses first hfirst
    exact Operator.parses_write hoperator hparses (parsesAll rest hrest)

theorem parsesAll (es : List Expr) (h : Expr.areSpelled es = true) :
    ∀ t ∈ Expr.terms es, ∃ ops core bare, t.Parses ops core bare := by
  cases es with
  | nil => exact fun t ht => by cases ht
  | cons e es =>
    rw [areSpelled, Bool.and_eq_true] at h
    obtain ⟨core, bare, hparses⟩ := parses e h.1
    rw [Expr.terms, List.forall_mem_cons]
    exact ⟨⟨e.unaries, core, bare, hparses⟩, parsesAll es h.2⟩

end

end Expr

/-- An operation without a name is written by its operator over its operands. -/
theorem Arena.WellFormed.expr?_of_unnamed {a : Arena} (ha : a.WellFormed) {id first : NodeId}
    {operation : String} {rest : List NodeId}
    (hk : a.kind? id = some (.apply operation (first :: rest)))
    (hfree : ∀ name, a.standing? id ≠ some (.named name)) :
    ∃ e es, a.expr? first = some e ∧ List.Forall₂ (fun o e => a.expr? o = some e) rest es ∧
      a.expr? id = some (.apply id (Operator.parse operation) e es) := by
  obtain ⟨⟨kind, standing, aliasable, uses⟩, hn, hkind⟩ := exists_of_kind? hk
  obtain ⟨x, hx⟩ := ha.expr?_eq_some (contains_of_get? hn)
  have hfrom := hx
  have hs := standing?_of_get? hn
  cases hkind
  rw [ha.expr?_eq_exprFrom, exprFrom, hn] at hfrom
  cases standing with
  | named name => exact absurd hs (hfree name)
  | inline | stored store =>
    simp only [Option.bind_eq_bind, Option.bind_some, Option.bind_eq_some_iff] at hfrom
    obtain ⟨e, he, es, hes, happly⟩ := hfrom
    cases happly
    exact ⟨e, es, he, forall₂_of_mapM_eq_some hes, hx⟩

def Call.operation? : Call → Option String
  | .apply operation _ | .map operation _ | .reduce operation _ => some operation
  | _ => none

def Call.isSpelled (call : Call) : Bool :=
  call.name?.all isIdentifier &&
    call.operation?.all fun operation => (Operator.parse operation).isSpelled

/-- A graph in which names are identifiers, and so are the words of operations. -/
structure Arena.Spelled (a : Arena) : Prop where
  named : ∀ id name, a.standing? id = some (.named name) → isIdentifier name = true
  operations : ∀ id operation operands, a.kind? id = some (.apply operation operands) →
    (Operator.parse operation).isSpelled = true

/-- The expressions of a spelled graph are spelled. -/
theorem Arena.Spelled.isSpelled {a : Arena} (h : a.Spelled) (ha : a.WellFormed) {id : NodeId}
    {e : Expr} (he : a.expr? id = some e) : e.isSpelled = true := by
  have hcarried : a.Carried fun _ e => e.isSpelled = true := by
    constructor
    · intro id node text hn hs
      exact h.named id text (hs ▸ standing?_of_get? hn)
    · intro id node parent vector index text _ _ hv hs
      exact h.named parent text (hs ▸ standing?_of_get? hv)
    · intro id node operation first rest e es hn hk hfirst hrest
      have hall : ∀ e ∈ es, e.isSpelled = true := fun e he => by
        obtain ⟨o, -, ho⟩ := exists_of_mem_right hrest he
        exact ho
      simp only [Expr.isSpelled, Bool.and_eq_true]
      have hoperation := h.operations id operation _ (hk ▸ kind?_of_get? hn)
      exact ⟨⟨hoperation, hfirst⟩, Expr.areSpelled_iff.2 hall⟩
    · intro id node operation cs es _ _ hcs
      refine Expr.areSpelled_iff.2 fun e he => ?_
      obtain ⟨c, -, hc⟩ := exists_of_mem_right hcs he
      exact hc
  obtain ⟨e', he', hspelled⟩ := ha.expr? hcarried (contains_of_expr? he)
  rw [he, Option.some.injEq] at he'
  rw [he']
  exact hspelled

theorem Arena.Spelled.areSpelled {a : Arena} (h : a.Spelled) (ha : a.WellFormed) {ids : List NodeId}
    {es : List Expr} (hes : List.Forall₂ (fun o e => a.expr? o = some e) ids es) :
    Expr.areSpelled es = true := by
  refine Expr.areSpelled_iff.2 fun e he => ?_
  obtain ⟨o, -, ho⟩ := exists_of_mem_right hes he
  exact h.isSpelled ha ho

namespace Session

variable {s t : Session} {P : String → Prop}

def Operates (P : String → Prop) (s : Session) : Prop :=
  ∀ id operation operands, s.arena.kind? id = some (.apply operation operands) → P operation

theorem Operates.same (h : s.Operates P) (hk : t.arena.kind? = s.arena.kind?) : t.Operates P := by
  intro id operation operands ht
  exact h id operation operands (hk ▸ ht)

theorem Operates.intern (h : s.Operates P) {key : Identity} (hkey : P key.operation) :
    (s.intern key).2.Operates P := by
  intro id operation operands hk
  rcases kind?_intern hk with hold | ⟨-, hnew⟩
  · exact h id operation operands hold
  · obtain ⟨tag, asked, ids⟩ := key
    cases tag <;> cases hnew <;> exact hkey

theorem Operates.addScalar (h : s.Operates P) (name : String) :
    (s.addScalar name).2.Operates P := by
  intro id operation operands hk
  rw [Session.addScalar, Arena.kind?_register, Function.update_apply] at hk
  split at hk
  · cases hk
  · exact h id operation operands hk

theorem Operates.addVector (h : s.Operates P) (shape : Shape) (name : String) (square : Bool) :
    (s.addVector shape name square).2.Operates P := by
  intro id operation operands hk
  cases shape with
  | components cs =>
    rw [Session.addVector, Arena.kind?_register, Function.update_apply] at hk
    split at hk
    · cases hk
    · exact h id operation operands hk
  | length n =>
    rcases Arena.kind?_registerFields _ _ _ _ hk with hold | ⟨-, hnew⟩ | ⟨i, -, -, hnew⟩
    · exact h id operation operands hold
    · cases hnew
    · cases hnew

theorem AppliedAll.operates {operation : String} {columns : List (List NodeId)} {cs : List NodeId}
    (h : AppliedAll operation columns s cs t) (hs : s.Operates P) (hP : P operation)
    (hwf : s.WellFormed)
    (hc : ∀ column ∈ columns, column ≠ [] ∧ ∀ o ∈ column, s.arena.contains o = true) :
    t.Operates P := by
  induction h with
  | nil => exact hs
  | @cons column columns s t u cs head tail ih =>
    obtain ⟨hne, hknown⟩ := hc column (by simp)
    have hkey : s.Requestable ⟨.apply, operation, column⟩ := ⟨rfl, hknown, fun _ => hne⟩
    have hint := hwf.intern hkey
    obtain ⟨ht, hsame⟩ := head.wellFormed hint
    have hext := (extends_intern s ⟨.apply, operation, column⟩).trans hsame.toExtends
    refine ih ((hs.intern hP).same (head.kind?_eq hint)) ht fun column' hm => ?_
    exact ⟨(hc column' (by simp [hm])).1,
      fun o ho => hext.contains ((hc column' (by simp [hm])).2 o ho)⟩

theorem Columnwise.operates {key : Identity} {columns : List (List NodeId)}
    (h : Columnwise key columns s t) (hs : s.Operates P) (hP : P key.operation) (hwf : s.WellFormed)
    (hkey : s.Requestable key) (hempty : (key.kind []).parts? = some (key.operation, []))
    (hc : ∀ column ∈ columns, column ≠ [] ∧ ∀ o ∈ column, s.arena.contains o = true) :
    t.Operates P := by
  have hint := hwf.intern hkey
  cases h with
  | known found used => exact (hs.intern hP).same (used.kind?_eq hint)
  | @fresh cs u new applied =>
    have hext := extends_intern s key
    have hbuilt := applied.kind?_built hwf hkey new hc
    have hu := applied.operates (hs.intern hP) hP hint fun column hm =>
      ⟨(hc column hm).1, fun o ho => hext.contains ((hc column hm).2 o ho)⟩
    obtain ⟨kind, hparts, -, hkind⟩ := kind?_setComponents cs hbuilt hempty
    intro id operation operands hk
    rw [hkind, Function.update_apply] at hk
    split at hk
    · rw [Option.some.inj hk] at hparts
      cases hparts
    · exact hu id operation operands hk

/-- Operations come from requests. -/
theorem Performed.operates {call : Call} {result : Option NodeId} (h : Performed s call result t)
    (hs : s.Operates P) (hwf : s.WellFormed)
    (hP : ∀ operation, call.operation? = some operation → P operation) : t.Operates P := by
  cases h with
  | scalar name => exact hs.addScalar name
  | vector name | matrix name => exact hs.addVector _ name _
  | @apply operation operands _ conditions used =>
    obtain ⟨hne, hknown, -⟩ := checkApply_eq_ok.1 conditions
    have hkey : s.Requestable ⟨.apply, operation, operands⟩ := ⟨rfl, hknown, fun _ => hne⟩
    exact (hs.intern (hP operation rfl)).same (used.kind?_eq (hwf.intern hkey))
  | map conditions built =>
    obtain ⟨hknown, -, hc⟩ := hwf.mapColumns conditions
    exact built.operates hs (hP _ rfl) hwf ⟨rfl, hknown, by simp⟩ rfl hc
  | reduce conditions built =>
    obtain ⟨hknown, -, hc⟩ := hwf.reduceColumns conditions
    exact built.operates hs (hP _ rfl) hwf ⟨rfl, hknown, by simp⟩ rfl hc
  | assign conditions sources stored =>
    obtain ⟨⟨node, square, hn, hkind⟩, -, -⟩ := assignTargets_eq_ok conditions
    obtain ⟨-, hsame⟩ := stored.wellFormed hwf fun p hp =>
      (hwf.arena _ node hn).components _ square hkind p.1 (List.of_mem_zip hp).1
    exact hs.same hsame.kind?_eq
  | @phi test success failure wanted length u name names value conditions used allocate written =>
    have hmerging : (u.merging names name value).Operates P := hs.same (used.kind?_eq hwf)
    cases length with
    | none => exact hmerging.addScalar name
    | some n => exact hmerging.addVector _ name _
  | output known used => exact hs.same (used.wellFormed hwf).2.kind?_eq
  | recycle name => exact hs.same rfl

theorem History.operates {s₀ : Session} {events : List Event} (h : History s₀ events s)
    (h₀ : s₀.Operates P) (hwf : s₀.WellFormed)
    (hP : ∀ e ∈ events, ∀ operation, e.call.operation? = some operation → P operation) :
    s.Operates P := by
  induction h with
  | nil => exact h₀
  | snoc past last ih =>
    refine last.operates (ih fun e he => hP e (by simp [he])) (past.wellFormed hwf) ?_
    exact hP _ (List.mem_append_right _ (List.mem_singleton_self _))

/-- Spelled requests lead to spelled graphs. -/
theorem spelled_of_new {s₀ : Session} {settings : Settings} (h₀ : Session.new settings = .ok s₀)
    {calls : List Call} (hcalls : ∀ call ∈ calls, call.isSpelled = true) :
    (s₀.run calls).arena.Spelled := by
  have hspelled : ∀ e ∈ s₀.events calls,
      (∀ name, e.call.name? = some name → isIdentifier name = true) ∧
      ∀ operation, e.call.operation? = some operation →
        (Operator.parse operation).isSpelled = true := by
    intro e he
    have hcall := hcalls e.call (call_mem_of_mem_events he)
    rw [Call.isSpelled, Bool.and_eq_true, Option.all_eq_true, Option.all_eq_true] at hcall
    exact hcall
  have hhistory := history_of_new h₀ calls
  have hstart : s₀.Operates fun operation => (Operator.parse operation).isSpelled = true := by
    obtain rfl := eq_of_new h₀
    intro id operation operands hk
    simp [Arena.kind?, Arena.get?] at hk
  exact ⟨(hhistory.identified (identified_of_new h₀) fun e he => (hspelled e he).1).named,
    hhistory.operates hstart (wellFormed_of_new h₀) fun e he => (hspelled e he).2⟩

end Session

end StraightLine
