import StraightLine.Chain
import StraightLine.Node

/-! # Expressions

How operations are written, and the tree behind a written expression: which nodes were written as
names, and which were written out. The text of an expression is a view of its tree. -/
namespace StraightLine

/-! ## Operators

An operation is requested by a string, and the string decides how it is written: `..length` reads a
property, `.dot` calls a method, `typeof/` stands before its operand, `+` and `-` form additive
chains, `*` `/` `&&` `||` stand between operands, `[]` lists them, and any other string names a
function. -/

/-- How an operation is written around its operands. -/
inductive Operator where
  /-- A property of the operand; holds the text behind it, such as `.length`. -/
  | property (suffix : String)
  /-- The arithmetic negative. -/
  | negate
  /-- A word before the operand, such as `typeof/`. -/
  | keyword (word : String)
  /-- A method of the first operand called on the others; holds the name with its dot. -/
  | method (name : String)
  /-- An additive chain. -/
  | chain (op : ChainOp)
  /-- A symbol between the operands. -/
  | joined (symbol : String)
  /-- The list of the operands. -/
  | list
  /-- A function called on the operands. -/
  | call (function : String)
deriving Repr, DecidableEq

namespace Operator

/-- The operator that a string asks for. The first rule that fits decides: two dots before one, and
a final slash (on a string of more than two bytes) before a leading dot. -/
def parse (operation : String) : Operator :=
  match operation.toList with
  | '.' :: '.' :: rest => .property ("." ++ String.ofList rest)
  | cs =>
    if operation == "[[negate]]" then .negate
    else if operation.utf8ByteSize > 2 && cs.getLast? == some '/' then .keyword operation
    else if cs.head? == some '.' then .method operation
    else match ChainOp.ofSymbol? operation with
      | some op => .chain op
      | none =>
        if operation ∈ ["*", "/", "&&", "||"] then .joined operation
        else if operation == "[]" then .list
        else .call operation

def isUnary : Operator → Bool
  | .property _ | .negate | .keyword _ => true
  | _ => false

/-- The negative of a text: a leading minus sign is dropped, otherwise one is put in front. -/
def negative (text : String) : String :=
  if startsNegative text then dropMinus text else "-" ++ text

def commaList (ts : List Term) : String := ", ".intercalate (ts.map Term.plain)

/-- The term of an operation over its operands. A lone operand of a chain or of a symbol between
operands is passed through as it is. -/
def write : Operator → Term → List Term → Term
  | .property suffix, t, _ => .atom (t.grouped ++ suffix)
  | .negate, t, _ => .atom (negative t.grouped)
  | .keyword word, t, _ => .atom (word ++ " " ++ t.grouped)
  | .method name, t, ts => .atom (t.grouped ++ name ++ "(" ++ commaList ts ++ ")")
  | .chain _, t, [] => t
  | .chain op, t, ts => (op.normalize (t :: ts)).term
  | .joined _, t, [] => t
  | .joined symbol, t, ts =>
    .group ((" " ++ symbol ++ " ").intercalate ((t :: ts).map Term.grouped))
  | .list, t, ts => .atom ("[" ++ commaList (t :: ts) ++ "]")
  | .call function, t, ts => .atom (function ++ "(" ++ commaList (t :: ts) ++ ")")

end Operator

/-! ## Written expressions -/

/-- An expression as it is written. -/
inductive Expr where
  /-- A node written as its name. -/
  | name (node : NodeId) (text : String)
  /-- An indexed component. -/
  | slot (base : Expr) (index : Nat)
  /-- A list of components. -/
  | list (items : List Expr)
  /-- A node written out as its operator over its operands. -/
  | apply (node : NodeId) (operator : Operator) (first : Expr) (rest : List Expr)
deriving Repr

def slotText (base : String) (index : Nat) : String := base ++ "[" ++ toString index ++ "]"

mutual

def Expr.term : Expr → Term
  | .name _ text => .atom text
  | .slot base index => .atom (slotText base.term.grouped index)
  | .list items => .atom ("[" ++ Operator.commaList (Expr.terms items) ++ "]")
  | .apply _ operator first rest => operator.write first.term (Expr.terms rest)

def Expr.terms : List Expr → List Term
  | [] => []
  | e :: es => e.term :: Expr.terms es

end

/-- Whether an expression is bracketed where it needs to be. -/
inductive Brackets where
  | auto
  | suppress
deriving Repr, DecidableEq

def Expr.text (e : Expr) : Brackets → String
  | .auto => e.term.grouped
  | .suppress => e.term.plain

inductive Phrase where
  /-- A text taken as it is. -/
  | verbatim (text : String)
  /-- A written expression. -/
  | expr (e : Expr) (brackets : Brackets)
  /-- A choice between two expressions by a comparison. -/
  | choice (left : Expr) (comparison : String) (right success failure : Expr)
deriving Repr

def Phrase.text : Phrase → String
  | .verbatim text => text
  | .expr e brackets => e.text brackets
  | .choice left comparison right success failure =>
    left.text .auto ++ " " ++ comparison ++ " " ++ right.text .auto ++ " ? " ++
      success.text .suppress ++ " : " ++ failure.text .suppress

end StraightLine
