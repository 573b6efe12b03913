import StraightLine.Proofs.ExpressionTrees

/-! # Receivers of members

A member is written behind the bracketed text of its receiver. Brackets are put around chains and
products, but a minus sign or a keyword before an operand needs none in the rules of the writer,
although a member binds tighter. So a receiver that opens with such operators loses its member to
what stands behind them. -/
namespace StraightLine

open Precedence

/-- What an operation behind a receiver reads as, if it is one: a member of the receiver, or a
call of that member with arguments. -/
def Operator.access? (arguments : List Tree) : Operator → Option (Tree → Tree)
  | .property suffix => some fun receiver => .member receiver suffix
  | .method name => some fun receiver => .call (.member receiver name) arguments
  | _ => none

/-- A member access is no operator before an operand. -/
theorem Operator.access?_ne_unary {operator : Operator} {arguments : List Tree}
    {access : Tree → Tree}
    (h : operator.access? arguments = some access) (receiver : Tree) (op : UnaryOperator)
    (operand : Tree) : access receiver ≠ .unary op operand := by
  cases operator <;> cases h <;> simp

/-- A member access goes to what stands behind the operators that open the receiver. -/
theorem Operator.spells_access {operator : Operator} {t : Term} {ts : List Term}
    {ops : List UnaryOperator} {core bare : Tree} {arguments : List Tree} {access : Tree → Tree}
    (haccess : operator.access? arguments = some access) (hspelled : operator.isSpelled = true)
    (ht : t.Parses ops core bare) (harguments : List.Forall₂ Spells (ts.map Term.plain) arguments) :
    ∃ text, operator.write t ts = .atom (t.grouped ++ text) ∧
      Spells (t.grouped ++ text) ((access core).under ops) := by
  cases operator with
  | property suffix =>
    cases haccess
    exact ⟨suffix, rfl, ht.grouped.member ht.level hspelled⟩
  | method name =>
    cases haccess
    have hcall := (SpellsAll.intercalate harguments).call ops
      (ht.grouped.member ht.level hspelled) rfl
    refine ⟨name ++ "(" ++ commaList ts ++ ")", ?_, ?_⟩
    · simp only [write, String.append_assoc]
    · simpa only [commaList, String.append_assoc] using hcall
  | negate | keyword word | chain op | joined symbol | list | call function => cases haccess

namespace Session

/-- How a member access is written and read. Its text is the bracketed text of the receiver and
what is put behind it. The receiver is read as operators before a tree that needs no brackets, and
the access as those operators before the access to that tree. -/
structure ReadsAccess (s : Session) (id receiver : NodeId) (rest : List NodeId)
    (operator : Operator)
    (e : Expr) (es : List Expr) (core : Tree) (arguments : List Tree) (access : Tree → Tree)
    (behind : String) : Prop where
  receiver_expr : s.arena.expr? receiver = some e
  argument_exprs : List.Forall₂ (fun o e => s.arena.expr? o = some e) rest es
  argument_trees : List.Forall₂ (fun e t => Tree.ofText? (e.text .suppress) = some t) es arguments
  access_eq : operator.access? arguments = some access
  written : ∀ brackets, s.render id brackets = .ok (e.text .auto ++ behind)
  core_level : core.level = 6
  receiver_tree : Tree.ofText? (e.text .auto) = some (core.under e.unaries)
  tree : Tree.ofText? (e.text .auto ++ behind) = some ((access core).under e.unaries)

/-- A member access reads as one to its receiver exactly if no minus sign and no keyword opens the
receiver. -/
theorem member_access_is_to_receiver_iff {settings : Settings} {s₀ : Session}
    (h₀ : Session.new settings = .ok s₀) {calls : List Call}
    (hcalls : ∀ call ∈ calls, call.isSpelled = true) {id receiver : NodeId} {operation : String}
    {rest : List NodeId}
    (hk : (s₀.run calls).arena.kind? id = some (.apply operation (receiver :: rest)))
    (hfree : ∀ name, (s₀.run calls).arena.standing? id ≠ some (.named name))
    (hmember : ((Operator.parse operation).access? []).isSome = true) :
    ∃ e es core arguments access behind, (s₀.run calls).ReadsAccess id receiver rest
        (Operator.parse operation) e es core arguments access behind ∧
      (Tree.ofText? (e.text .auto ++ behind) = some (access (core.under e.unaries)) ↔
        e.unaries = []) := by
  have hwf := ((complete_of_new h₀).run calls).1.arena
  have hspelled := spelled_of_new h₀ hcalls
  obtain ⟨e, es, he, hes, hid⟩ := hwf.expr?_of_unnamed hk hfree
  obtain ⟨core, bare, hparses⟩ := e.parses (hspelled.isSpelled hwf he)
  have hrest := hspelled.areSpelled hwf hes
  obtain ⟨arguments, harguments⟩ := Operator.exists_trees_of_plain (Expr.parsesAll es hrest)
  obtain ⟨access, haccess⟩ :
      ∃ access, (Operator.parse operation).access? arguments = some access := by
    cases hoperator : Operator.parse operation <;> simp_all [Operator.access?]
  obtain ⟨behind, hwritten, htext⟩ := Operator.spells_access haccess
    (hspelled.operations id operation _ hk) hparses harguments
  refine ⟨e, es, core, arguments, access, behind, ⟨he, hes, ?_, haccess, fun brackets => ?_,
    hparses.level, hparses.grouped.ofText?, htext.ofText?⟩, ?_⟩
  · rw [Expr.terms_eq_map, List.map_map, List.forall₂_map_left_iff] at harguments
    exact harguments.imp fun _ _ h => h.ofText?
  · rw [render_eq_ok hid]
    cases brackets <;> simp [Expr.text, Expr.term, hwritten, Term.atom]
  · rw [Expr.text, htext.ofText?, Option.some.injEq]
    cases e.unaries with
    | nil => simp [Tree.under]
    | cons op ops =>
      refine iff_of_false (fun heq => ?_) (by simp)
      exact Operator.access?_ne_unary haccess _ op ((access core).under ops) heq.symm

/-- A sum is bracketed and keeps its member. -/
theorem member_access_is_to_receiver_iff_of_sum :
    let s := ({ settings := {} } : Session).run
      [.scalar "a", .scalar "b", .apply "+" [⟨0⟩, ⟨1⟩], .apply "..length" [⟨2⟩]]
    s.render ⟨3⟩ .suppress = .ok "(a + b).length" ∧
      ∃ sum, Tree.ofText? "(a + b)" = some sum ∧
        Tree.ofText? "(a + b).length" = some (.member sum ".length") := by
  intro s
  have h₀ : Session.new {} = .ok { settings := {} } := rfl
  have hcalls : ∀ call ∈ ([.scalar "a", .scalar "b", .apply "+" [⟨0⟩, ⟨1⟩],
    .apply "..length" [⟨2⟩]] : List Call), call.isSpelled = true := by decide
  have hk : s.arena.kind? ⟨3⟩ = some (.apply "..length" [⟨2⟩]) := by decide +kernel
  have hfree : s.arena.standing? ⟨3⟩ = some .inline := by decide +kernel
  have hunaries : (s.arena.expr? ⟨2⟩).map Expr.unaries = some [] := by decide +kernel
  have hreceiver : (s.arena.expr? ⟨2⟩).map (·.text .auto) = some "(a + b)" := by decide +kernel
  have htext : s.render ⟨3⟩ .suppress = .ok "(a + b).length" := by decide +kernel
  obtain ⟨e, es, core, arguments, access, behind, h, hiff⟩ :=
    member_access_is_to_receiver_iff h₀ hcalls hk (by simp [s, hfree]) (by decide)
  rw [show s.arena.expr? ⟨2⟩ = some e from h.receiver_expr, Option.map_some, Option.some.injEq]
    at hunaries hreceiver
  have hwritten : e.text .auto ++ behind = "(a + b).length" :=
    Except.ok.inj ((h.written .suppress).symm.trans htext)
  have haccess : access = fun receiver => .member receiver ".length" :=
    (Option.some.inj h.access_eq).symm
  refine ⟨htext, core.under e.unaries, hreceiver ▸ h.receiver_tree, ?_⟩
  rw [← hwritten, hiff.2 hunaries, haccess]

/-- A member of a negative is read as the negative of a member, and a call of a method of what a
keyword gives is read behind the keyword. -/
theorem member_access_misses_receiver :
    let s := ({ settings := {} } : Session).run
      [.scalar "a", .apply "[[negate]]" [⟨0⟩], .apply "..length" [⟨1⟩], .apply "typeof/" [⟨0⟩],
        .apply ".dot" [⟨3⟩]]
    (s.render ⟨1⟩ .auto = .ok "-a" ∧ s.render ⟨2⟩ .suppress = .ok "-a.length" ∧
      Tree.ofText? "-a.length" = some (.unary .minus (.member (.name "a") ".length")) ∧
      ∀ receiver, Tree.ofText? "-a.length" ≠ some (.member receiver ".length")) ∧
    s.render ⟨4⟩ .suppress = .ok "typeof/ a.dot()" ∧
      Tree.ofText? "typeof/ a.dot()" =
        some (.unary (.keyword "typeof/") (.call (.member (.name "a") ".dot") [])) := by
  have htree : Tree.ofText? "-a.length" =
      some (.unary .minus (.member (.name "a") ".length")) := rfl
  refine ⟨⟨by decide +kernel, by decide +kernel, htree, ?_⟩, by decide +kernel, rfl⟩
  rw [htree]
  simp

end Session

end StraightLine
