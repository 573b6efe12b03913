/-! # Additive chains

Terms joined by `+` or `-` are written with canonical signs: added terms stand before subtracted
ones, no join reads `+ -` or `- -`, and a chain in which nothing is added is written as the
negation of a sum. Signs are read off the terms' texts. -/
namespace StraightLine

/-- The two texts of an expression: bare, and as it stands under another operator. -/
structure Term where
  plain : String
  grouped : String
deriving Repr, DecidableEq

namespace Term

/-- A term whose text needs no brackets anywhere. -/
def atom (text : String) : Term := ⟨text, text⟩

/-- A term whose text is bracketed under another operator. -/
def group (text : String) : Term := ⟨text, "(" ++ text ++ ")"⟩

end Term

def startsNegative (text : String) : Bool := text.toList.head? == some '-'

/-- The text behind a leading minus sign, or the text itself. -/
def dropMinus (text : String) : String :=
  match text.toList with
  | '-' :: rest => String.ofList rest
  | _ => text

/-- A term is negative when its bracketed form opens with a minus sign. -/
def Term.isNegative (t : Term) : Bool := startsNegative t.grouped

inductive ChainOp where
  | add
  | subtract
deriving Repr, DecidableEq

def ChainOp.ofSymbol? : String → Option ChainOp
  | "+" => some .add
  | "-" => some .subtract
  | _ => none

def ChainOp.symbol : ChainOp → String
  | .add => "+"
  | .subtract => "-"

/-- A term together with the side of the chain it belongs to. -/
structure SignedTerm where
  term : Term
  subtracted : Bool
deriving Repr, DecidableEq

/-- One summand of a written chain: its sign and its text without that sign. -/
structure Piece where
  subtracted : Bool
  text : String
deriving Repr, DecidableEq

/-- A written chain; `negated` says that the whole sum stands under a minus sign. -/
structure Chain where
  negated : Bool
  pieces : List Piece
deriving Repr, DecidableEq

/-- The text of a summand. A negative term gives up its sign. Any other term is bracketed when it
is subtracted, or when its bare text opens with a minus sign, unless it leads the chain. -/
def SignedTerm.text (s : SignedTerm) (leading : Bool) : String :=
  if s.term.isNegative then dropMinus s.term.plain
  else if !leading && (s.subtracted || startsNegative s.term.plain) then s.term.grouped
  else s.term.plain

def SignedTerm.piece (s : SignedTerm) (leading : Bool) : Piece := ⟨s.subtracted, s.text leading⟩

def SignedTerm.flip (s : SignedTerm) : SignedTerm := { s with subtracted := !s.subtracted }

namespace ChainOp

/-- The side of each term: a negative term is subtracted, and `-` moves every term after the first
to the other side. -/
def signed (op : ChainOp) : List Term → List SignedTerm
  | [] => []
  | t :: ts => ⟨t, t.isNegative⟩ :: ts.map fun u => ⟨u, (op == .subtract) != u.isNegative⟩

/-- Added terms first, then subtracted ones, each in the order given. -/
def ordered (op : ChainOp) (ts : List Term) : List SignedTerm :=
  (op.signed ts).filter (!·.subtracted) ++ (op.signed ts).filter (·.subtracted)

/-- The canonical form of a chain. One term alone is written as it is; with no added term, the
chain is written as a negated sum. -/
def normalize (op : ChainOp) (ts : List Term) : Chain :=
  if ts.length ≤ 1 then ⟨false, ts.map fun t => ⟨false, t.plain⟩⟩
  else
    let negated := (op.signed ts).all (·.subtracted)
    let terms := if negated then (op.ordered ts).map SignedTerm.flip else op.ordered ts
    match terms with
    | [] => ⟨negated, []⟩
    | s :: rest => ⟨negated, s.piece true :: rest.map (·.piece false)⟩

end ChainOp

def Piece.joined (p : Piece) : String := (if p.subtracted then " - " else " + ") ++ p.text

def Chain.body (c : Chain) : String :=
  match c.pieces with
  | [] => ""
  | p :: rest => p.text ++ String.join (rest.map Piece.joined)

def Chain.text (c : Chain) : String := if c.negated then "-(" ++ c.body ++ ")" else c.body

/-- A chain needs brackets under another operator unless its minus sign already brackets it. -/
def Chain.needsBrackets (c : Chain) : Bool := !c.negated

def Chain.term (c : Chain) : Term := if c.needsBrackets then .group c.text else .atom c.text

end StraightLine
