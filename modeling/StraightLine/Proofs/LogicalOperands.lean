import StraightLine.Proofs.ExpressionTrees

/-! # Logical operands of additive chains

`&&` and `||` bind weaker than `+` and `-`, so a logical operand of a chain needs its brackets.
The writer of chains keeps them where an operand is subtracted, and where its text opens with a
minus sign behind the leading place. Everywhere else it drops them, as it does for products, which
need none. -/
namespace StraightLine

open Precedence

/-- What binds weaker than a chain is a logical operation. -/
theorem Precedence.Tree.exists_logical {t : Tree} (h : t.level < 3) :
    ∃ left right, t = .binary left .and right ∨ t = .binary left .or right := by
  cases t with
  | binary left op right =>
    cases op with
    | and => exact ⟨left, right, .inl rfl⟩
    | or => exact ⟨left, right, .inr rfl⟩
    | plus | minus | times | divide => simp [BinaryOperator.level] at h
  | _ => simp [level] at h

theorem exists_getElem?_of_forall₂ {α β : Type} {R : α → β → Prop} {xs : List α} {ys : List β}
    (h : List.Forall₂ R xs ys) {i : Nat} {x : α} (hx : xs[i]? = some x) :
    ∃ y, ys[i]? = some y ∧ R x y := by
  induction h generalizing i with
  | nil => simp at hx
  | cons hhead _ ih =>
    cases i with
    | zero =>
      cases hx
      exact ⟨_, rfl, hhead⟩
    | succ i => exact ih hx

namespace ChainOp

variable {op : ChainOp} {ts : List Term} {t : Term} {i : Nat}

/-- The leading operand is added. -/
theorem subtracted_of_leads (hlen : 1 < ts.length) (h : op.leads ts (t, i) = true) :
    (op.placed (op.negates ts) (t, i)).subtracted = false := by
  obtain ⟨lead, added, hside, hwritten⟩ := op.exists_lead hlen
  obtain rfl : lead = (t, i) := by simpa [leads, hwritten] using h
  have hlead : (t, i) ∈ op.side ts (op.negates ts) := hside ▸ List.mem_cons_self
  simp [placed, (mem_of_mem_side hlead).2]

/-- An operand that is not negative is subtracted by its place in a difference, if not all operands
count negatively. -/
theorem subtracted_iff (hmem : (t, i) ∈ ts.zipIdx) (hneg : t.isNegative = false) :
    (op.placed (op.negates ts) (t, i)).subtracted = true ↔
      op = .subtract ∧ 0 < i ∧ op.negates ts = false := by
  have hlowers : op.lowers t i = (op == .subtract && decide (0 < i)) := by simp [lowers, hneg]
  cases hall : op.negates ts with
  | true =>
    rw [negates, List.all_eq_true] at hall
    simp [placed, hall (t, i) hmem]
  | false => simp [placed, hlowers]

/-- Where an operand that is not negative keeps its brackets. -/
theorem isBracketed_iff (hlen : 1 < ts.length) (hmem : (t, i) ∈ ts.zipIdx)
    (hneg : t.isNegative = false) :
    op.isBracketed ts (t, i) = true ↔ op = .subtract ∧ 0 < i ∧ op.negates ts = false ∨
      startsNegative t.plain = true ∧ op.leads ts (t, i) = false := by
  rw [← subtracted_iff hmem hneg, isBracketed, SignedTerm.isBracketed]
  cases hleads : op.leads ts (t, i) with
  | true => simp [subtracted_of_leads hlen hleads]
  | false => simp [placed]

theorem text_shown (hneg : t.isNegative = false) : (op.shown ts (t, i)).text =
    if op.isBracketed ts (t, i) then t.grouped else t.plain := by
  simp [shown, SignedTerm.piece, SignedTerm.text, placed, hneg, isBracketed, SignedTerm.isBracketed]

/-- How a logical operand at a place of a chain is written and read. It has brackets where the
writer keeps them, and it is a term of the chain exactly if all operands that bind weaker than the
chain have theirs. -/
structure PlacesLogical (op : ChainOp) (ts : List Term) (body : Tree) (i : Nat) (t : Term)
    (bare : Tree) : Prop where
  place : ts[i]? = some t
  bare_tree : Tree.ofText? t.plain = some bare
  logical : ∃ left right, bare = .binary left .and right ∨ bare = .binary left .or right
  brackets : t.grouped = "(" ++ t.plain ++ ")"
  shown : op.shown ts (t, i) ∈ (op.normalize ts).pieces
  text : (op.shown ts (t, i)).text = if op.isBracketed ts (t, i) then t.grouped else t.plain
  bracketed_iff : op.isBracketed ts (t, i) = true ↔
    op = .subtract ∧ 0 < i ∧ op.negates ts = false ∨
      startsNegative t.plain = true ∧ op.leads ts (t, i) = false
  term_iff : .paren bare ∈ body.summands ↔
    ∀ p ∈ ts.zipIdx, p.1.isLoose = true → op.isBracketed ts p = true

theorem placesLogical {body bare : Tree} (hlen : 1 < ts.length) (hplace : ts[i]? = some t)
    (ht : t.Parses [] (.paren bare) bare) (hloose : bare.level < 3)
    (hterm : .paren bare ∈ body.summands ↔
      ∀ p ∈ ts.zipIdx, p.1.isLoose = true → op.isBracketed ts p = true) :
    op.PlacesLogical ts body i t bare := by
  have hmem : (t, i) ∈ ts.zipIdx := List.mk_mem_zipIdx_iff_getElem?.2 hplace
  have hbrackets : t.grouped = "(" ++ t.plain ++ ")" := by
    rcases ht.brackets with ⟨-, hsame⟩ | ⟨hbrackets, -⟩
    · rw [hsame] at hloose
      exact absurd hloose (by simp [Tree.under, Tree.level])
    · exact hbrackets
  have hneg : t.isNegative = false := by
    rw [Term.isNegative, hbrackets]
    simp [startsNegative, String.toList_append]
  refine ⟨hplace, ht.plain.ofText?, Tree.exists_logical hloose, hbrackets, ?_, text_shown hneg,
    isBracketed_iff hlen hmem hneg, hterm⟩
  rw [op.normalize_eq_map_shown hlen]
  exact List.mem_map_of_mem ((op.written_perm ts).mem_iff.2 hmem)

end ChainOp

theorem Operator.plain_chain (op : ChainOp) {t : Term} {ts : List Term} (hne : ts ≠ []) :
    ((Operator.chain op).write t ts).plain = (op.normalize (t :: ts)).text := by
  cases ts with
  | nil => contradiction
  | cons u us =>
    rw [write, Chain.term]
    · split <;> rfl
    · simp

namespace Session

/-- A node that is written out as `&&` or `||` over two or more operands. -/
structure WritesLogical (s : Session) (id : NodeId) : Prop where
  unnamed : ∀ name, s.arena.standing? id ≠ some (.named name)
  operation : ∃ symbol operands, s.arena.kind? id = some (.apply symbol operands) ∧
    (symbol = "&&" ∨ symbol = "||") ∧ 2 ≤ operands.length

/-- How a chain is written and read, with or without a minus sign before it. -/
structure ReadsChain (s : Session) (id : NodeId) (op : ChainOp) (operands : List NodeId)
    (es : List Expr) (body : Tree) : Prop where
  operand_exprs : List.Forall₂ (fun o e => s.arena.expr? o = some e) operands es
  written : s.render id .suppress = .ok (op.normalize (es.map Expr.term)).text
  body_tree : Tree.ofText? (op.normalize (es.map Expr.term)).body = some body
  tree : Tree.ofText? (op.normalize (es.map Expr.term)).text =
    some (if op.negates (es.map Expr.term) then .unary .minus (.paren body) else body)

variable {s : Session} {id : NodeId}

/-- A logical operation reads as such without its brackets. -/
theorem WritesLogical.parses (h : s.WritesLogical id) (hwf : s.arena.WellFormed)
    (hspelled : s.arena.Spelled) {e : Expr} (he : s.arena.expr? id = some e) :
    ∃ bare, e.term.Parses [] (.paren bare) bare ∧ bare.level < 3 := by
  obtain ⟨symbol, operands, hk, hsymbol, hlen⟩ := h.operation
  obtain ⟨op, hparse, hop, hlevel⟩ : ∃ op, Operator.parse symbol = .joined symbol ∧
      BinaryOperator.ofSymbol? symbol = some op ∧ op.level < 3 := by
    rcases hsymbol with rfl | rfl
    · exact ⟨.and, by decide, rfl, by decide⟩
    · exact ⟨.or, by decide, rfl, by decide⟩
  match operands, hlen with
  | first :: second :: rest, _ =>
    obtain ⟨e₁, es, he₁, hes, hid⟩ := hwf.expr?_of_unnamed hk h.unnamed
    have hall : Expr.areSpelled es = true := hspelled.areSpelled hwf hes
    obtain ⟨core, bare, hparses⟩ := e₁.parses (hspelled.isSpelled hwf he₁)
    have hne : Expr.terms es ≠ [] := by
      cases hes with
      | cons => simp [Expr.terms]
    obtain ⟨tree, htree, hsame⟩ :=
      Operator.parses_joined hop hparses (Expr.parsesAll es hall) hne
    rw [hid, hparse, Option.some.injEq] at he
    subst he
    exact ⟨tree, htree, by omega⟩

/-- In a chain, a logical operand has its brackets exactly if it is subtracted, or if its text
opens with a minus sign and it does not lead. It is read as one term of the chain exactly if all
operands have their brackets that bind weaker than the chain without them. -/
theorem logical_operand_is_term_iff {settings : Settings} {s₀ : Session}
    (h₀ : Session.new settings = .ok s₀) {calls : List Call}
    (hcalls : ∀ call ∈ calls, call.isSpelled = true) {id : NodeId} {symbol : String} {op : ChainOp}
    {operands : List NodeId} (hop : ChainOp.ofSymbol? symbol = some op)
    (hk : (s₀.run calls).arena.kind? id = some (.apply symbol operands))
    (hlen : 2 ≤ operands.length)
    (hfree : ∀ name, (s₀.run calls).arena.standing? id ≠ some (.named name)) :
    ∃ es body, (s₀.run calls).ReadsChain id op operands es body ∧
      ∀ i o, operands[i]? = some o → (s₀.run calls).WritesLogical o →
        ∃ t bare, op.PlacesLogical (es.map Expr.term) body i t bare := by
  have hwf := ((complete_of_new h₀).run calls).1.arena
  have hspelled := spelled_of_new h₀ hcalls
  have hparse : Operator.parse symbol = .chain op := by
    unfold ChainOp.ofSymbol? at hop
    split at hop <;> cases hop <;> decide
  match operands, hlen with
  | first :: second :: rest, _ =>
    obtain ⟨e, es, he, hes, hid⟩ := hwf.expr?_of_unnamed hk hfree
    have hexprs : List.Forall₂ (fun o e => (s₀.run calls).arena.expr? o = some e)
        (first :: second :: rest) (e :: es) := .cons he hes
    have hterms := Expr.parsesAll (e :: es) (hspelled.areSpelled hwf hexprs)
    rw [Expr.terms_eq_map] at hterms
    have htwo : 1 < ((e :: es).map Expr.term).length := by
      rw [List.length_map, ← hexprs.length_eq]
      simp
    obtain ⟨body, hbody, hsummands⟩ := op.exists_tree htwo hterms
    refine ⟨e :: es, body, ⟨hexprs, ?_, hbody.ofText?, ?_⟩, fun i o ho hlogical => ?_⟩
    · have hne : es.map Expr.term ≠ [] := by
        cases hes with
        | cons => simp
      rw [render_eq_ok hid, hparse, Expr.text, Expr.term, Expr.terms_eq_map,
        Operator.plain_chain op hne, List.map_cons]
    · rw [(Chain.spells_text hbody).ofText?, op.normalize_eq_map_shown htwo]
    · obtain ⟨e', he', heo⟩ := exists_getElem?_of_forall₂ hexprs ho
      obtain ⟨bare, hparses, hloose⟩ := hlogical.parses hwf hspelled heo
      have hplace : ((e :: es).map Expr.term)[i]? = some e'.term := by
        rw [List.getElem?_map, he', Option.map_some]
      have hmem := List.mk_mem_zipIdx_iff_getElem?.2 hplace
      exact ⟨e'.term, bare, ChainOp.placesLogical htwo hplace hparses hloose
        (hsummands _ hmem bare hparses.plain hloose)⟩

/-- A logical operand that is subtracted is one term of the difference. -/
theorem logical_operand_is_term_iff_of_difference :
    let s := ({ settings := {} } : Session).run [.scalar "a", .scalar "b", .scalar "c",
      .apply "&&" [⟨1⟩, ⟨2⟩], .apply "-" [⟨0⟩, ⟨3⟩]]
    s.render ⟨4⟩ .suppress = .ok "a - (b && c)" ∧
      ∃ tree logical, Tree.ofText? "a - (b && c)" = some tree ∧
        Tree.ofText? "b && c" = some logical ∧ .paren logical ∈ tree.summands := by
  intro s
  have h₀ : Session.new {} = .ok { settings := {} } := rfl
  have hcalls : ∀ call ∈ ([.scalar "a", .scalar "b", .scalar "c", .apply "&&" [⟨1⟩, ⟨2⟩],
    .apply "-" [⟨0⟩, ⟨3⟩]] : List Call), call.isSpelled = true := by decide
  have hk : s.arena.kind? ⟨4⟩ = some (.apply "-" [⟨0⟩, ⟨3⟩]) := by decide +kernel
  have hfree : s.arena.standing? ⟨4⟩ = some .inline := by decide +kernel
  have hfree' : s.arena.standing? ⟨3⟩ = some .inline := by decide +kernel
  have hlogical : s.WritesLogical ⟨3⟩ :=
    ⟨by simp [hfree'], "&&", [⟨1⟩, ⟨2⟩], by decide +kernel, .inl rfl, by decide⟩
  have hfirst : (s.arena.expr? ⟨0⟩).map Expr.term = some (.atom "a") := by decide +kernel
  have hsecond : (s.arena.expr? ⟨3⟩).map Expr.term = some (.group "b && c") := by decide +kernel
  obtain ⟨es, body, hreads, hplaces⟩ := logical_operand_is_term_iff h₀ hcalls
    (show ChainOp.ofSymbol? "-" = some .subtract from rfl) hk (by decide) (by simp [s, hfree])
  obtain ⟨t, bare, hplaced⟩ := hplaces 1 ⟨3⟩ rfl hlogical
  have hes : es.map Expr.term = [.atom "a", .group "b && c"] := by
    cases hreads.operand_exprs with
    | cons hhead htail =>
      cases htail with
      | cons hnext hend =>
        cases hend
        rw [show s.arena.expr? ⟨0⟩ = some _ from hhead, Option.map_some,
          Option.some.injEq] at hfirst
        rw [show s.arena.expr? ⟨3⟩ = some _ from hnext, Option.map_some,
          Option.some.injEq] at hsecond
        rw [List.map_cons, List.map_cons, List.map_nil, hfirst, hsecond]
  have htext : (ChainOp.subtract.normalize [.atom "a", .group "b && c"]).text = "a - (b && c)" := by
    decide
  have htree := hreads.tree
  rw [hes, htext] at htree
  rw [hes] at hplaced
  obtain rfl : .group "b && c" = t := Option.some.inj hplaced.place
  refine ⟨by decide +kernel, body, bare, htree, hplaced.bare_tree, ?_⟩
  exact hplaced.term_iff.2 (by decide)

/-- A logical operand that is added loses its brackets, and the sum is read as an operand of its own
operand. -/
theorem logical_operand_loses_brackets :
    let s := ({ settings := {} } : Session).run [.scalar "a", .scalar "b", .scalar "c",
      .apply "&&" [⟨1⟩, ⟨2⟩], .apply "+" [⟨0⟩, ⟨3⟩]]
    s.render ⟨3⟩ .auto = .ok "(b && c)" ∧ s.render ⟨4⟩ .suppress = .ok "a + b && c" ∧
      Tree.ofText? "a + b && c" =
        some (.binary (.binary (.name "a") .plus (.name "b")) .and (.name "c")) ∧
      ∀ tree logical, Tree.ofText? "a + b && c" = some tree → .paren logical ∉ tree.summands := by
  have htree : Tree.ofText? "a + b && c" =
    some (.binary (.binary (.name "a") .plus (.name "b")) .and (.name "c")) := rfl
  refine ⟨by decide +kernel, by decide +kernel, htree, ?_⟩
  rintro tree logical hsome
  rw [htree, Option.some.injEq] at hsome
  rw [← hsome]
  simp [Tree.summands]

end Session

end StraightLine
