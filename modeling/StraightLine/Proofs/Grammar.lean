import StraightLine.Proofs.Tokens

/-! # The grammar of expressions

A minus sign before an operand binds tighter than `*` and `/`, those bind tighter than `+` and `-`,
and operators of one strength are read from left to right. Operands are names, indexed vectors,
calls, bracketed expressions and lists. The reader takes one token after the other, and finds every
tree in its tokens. -/
namespace StraightLine.Grammar

inductive SumOperator where
  | plus
  | minus
deriving Repr, DecidableEq

inductive ProductOperator where
  | times
  | over
deriving Repr, DecidableEq

def SumOperator.token : SumOperator → Token
  | .plus => .symbol '+'
  | .minus => .symbol '-'

def ProductOperator.token : ProductOperator → Token
  | .times => .symbol '*'
  | .over => .symbol '/'

mutual

inductive Sum where
  | single (product : Product)
  | join (left : Sum) (operator : SumOperator) (right : Product)

inductive Product where
  | single (unary : Unary)
  | join (left : Product) (operator : ProductOperator) (right : Unary)

inductive Unary where
  | primary (primary : Primary)
  | negate (unary : Unary)

inductive Primary where
  | name (text : String)
  | slot (vector : String) (index : Nat)
  | call (function : String) (arguments : Items)
  | paren (sum : Sum)
  | empty
  | list (items : Items)

inductive Items where
  | first (sum : Sum)
  | more (items : Items) (sum : Sum)

end

mutual

def Sum.tokens : Sum → List Token
  | .single product => product.tokens
  | .join left operator right => left.tokens ++ operator.token :: right.tokens

def Product.tokens : Product → List Token
  | .single unary => unary.tokens
  | .join left operator right => left.tokens ++ operator.token :: right.tokens

def Unary.tokens : Unary → List Token
  | .primary primary => primary.tokens
  | .negate unary => .symbol '-' :: unary.tokens

def Primary.tokens : Primary → List Token
  | .name text => [.name text]
  | .slot vector index => [.name vector, .symbol '[', .number index, .symbol ']']
  | .call function arguments => .name function :: .symbol '(' :: (arguments.tokens ++ [.symbol ')'])
  | .paren sum => .symbol '(' :: (sum.tokens ++ [.symbol ')'])
  | .empty => [.symbol '[', .symbol ']']
  | .list items => .symbol '[' :: (items.tokens ++ [.symbol ']'])

def Items.tokens : Items → List Token
  | .first sum => sum.tokens
  | .more items sum => items.tokens ++ .symbol ',' :: sum.tokens

end

/-- What stands before the current operand inside one pair of brackets. -/
structure Level where
  sum : Option (Sum × SumOperator) := none
  product : Option (Product × ProductOperator) := none
  minuses : Nat := 0

namespace Level

def unary (level : Level) (p : Primary) : Unary := Nat.iterate Unary.negate level.minuses (.primary p)

def factor (level : Level) (p : Primary) : Product :=
  match level.product with
  | none => .single (level.unary p)
  | some (left, operator) => .join left operator (level.unary p)

def term (level : Level) (p : Primary) : Sum :=
  match level.sum with
  | none => .single (level.factor p)
  | some (left, operator) => .join left operator (level.factor p)

end Level

inductive Opening where
  | paren
  | call (function : String)
  | list

structure Frame where
  opening : Opening
  items : Option Items
  level : Level

def Frame.add (frame : Frame) (sum : Sum) : Items :=
  match frame.items with
  | none => .first sum
  | some items => .more items sum

/-- The state of the reader: what it expects next, and what it has read. -/
inductive Reader where
  | operand (outer : List Frame) (level : Level)
  | operator (outer : List Frame) (level : Level) (last : Primary)
  | index (outer : List Frame) (level : Level) (vector : String)
  | closing (outer : List Frame) (level : Level) (vector : String) (index : Nat)

namespace Reader

def behind (outer : List Frame) (level : Level) (last : Primary) : Char → Option Reader
  | '+' => some (.operand outer { sum := some (level.term last, .plus) })
  | '-' => some (.operand outer { sum := some (level.term last, .minus) })
  | '*' => some (.operand outer ⟨level.sum, some (level.factor last, .times), 0⟩)
  | '/' => some (.operand outer ⟨level.sum, some (level.factor last, .over), 0⟩)
  | '(' =>
    match last with
    | .name function => some (.operand (⟨.call function, none, level⟩ :: outer) {})
    | _ => none
  | '[' =>
    match last with
    | .name vector => some (.index outer level vector)
    | _ => none
  | ',' =>
    match outer with
    | ⟨.paren, _, _⟩ :: _ | [] => none
    | frame :: outer =>
      some (.operand ({ frame with items := some (frame.add (level.term last)) } :: outer) {})
  | ')' =>
    match outer with
    | ⟨.paren, none, before⟩ :: outer => some (.operator outer before (.paren (level.term last)))
    | ⟨.call function, items, before⟩ :: outer =>
      some (.operator outer before
        (.call function (Frame.add ⟨.call function, items, before⟩ (level.term last))))
    | _ => none
  | ']' =>
    match outer with
    | ⟨.list, items, before⟩ :: outer =>
      some (.operator outer before (.list (Frame.add ⟨.list, items, before⟩ (level.term last))))
    | _ => none
  | _ => none

def step : Reader → Token → Option Reader
  | .operand outer level, .name text => some (.operator outer level (.name text))
  | .operand outer level, .symbol '-' =>
    some (.operand outer ⟨level.sum, level.product, level.minuses + 1⟩)
  | .operand outer level, .symbol '(' => some (.operand (⟨.paren, none, level⟩ :: outer) {})
  | .operand outer level, .symbol '[' => some (.operand (⟨.list, none, level⟩ :: outer) {})
  | .operand (⟨.list, none, before⟩ :: outer) ⟨none, none, 0⟩, .symbol ']' =>
    some (.operator outer before .empty)
  | .operator outer level last, .symbol c => behind outer level last c
  | .index outer level vector, .number i => some (.closing outer level vector i)
  | .closing outer level vector i, .symbol ']' => some (.operator outer level (.slot vector i))
  | _, _ => none

def run (reader : Reader) (tokens : List Token) : Option Reader := tokens.foldlM step reader

theorem run_append (reader : Reader) (xs ys : List Token) :
    reader.run (xs ++ ys) = (reader.run xs).bind (·.run ys) := List.foldlM_append

theorem run_cons (reader : Reader) (token : Token) (tokens : List Token) :
    reader.run (token :: tokens) = (reader.step token).bind (·.run tokens) := rfl

end Reader

def Sum.read (tokens : List Token) : Option Sum :=
  match (Reader.operand [] {}).run tokens with
  | some (.operator [] level last) => some (level.term last)
  | _ => none

namespace Reader

mutual

theorem run_sum (outer : List Frame) (s : Sum) : ∃ level last,
    (Reader.operand outer {}).run s.tokens = some (.operator outer level last) ∧
      level.term last = s := by
  cases s with
  | single product =>
    obtain ⟨level, last, hrun, hsum, hfactor⟩ := run_product outer {} rfl rfl product
    exact ⟨level, last, hrun, by simp [Level.term, hsum, hfactor]⟩
  | join left operator right =>
    obtain ⟨before, last, hleft, rfl⟩ := run_sum outer left
    obtain ⟨level, last', hright, hsum, hfactor⟩ :=
      run_product outer { sum := some (before.term last, operator) } rfl rfl right
    refine ⟨level, last', ?_, by simp [Level.term, hsum, hfactor]⟩
    rw [Sum.tokens, run_append, hleft, Option.bind_some, run_cons]
    cases operator <;> exact hright

theorem run_product (outer : List Frame) (level : Level) (hp : level.product = none)
    (hm : level.minuses = 0) (q : Product) : ∃ level' last,
    (Reader.operand outer level).run q.tokens = some (.operator outer level' last) ∧
      level'.sum = level.sum ∧ level'.factor last = q := by
  cases q with
  | single unary =>
    obtain ⟨level', last, hrun, hsum, hproduct, hunary⟩ := run_unary outer level unary
    exact ⟨level', last, hrun, hsum, by simp [Level.factor, hproduct, hp, hunary, hm]⟩
  | join left operator right =>
    obtain ⟨before, last, hleft, hsum, rfl⟩ := run_product outer level hp hm left
    obtain ⟨level', last', hright, hsum', hproduct, hunary⟩ :=
      run_unary outer ⟨before.sum, some (before.factor last, operator), 0⟩ right
    refine ⟨level', last', ?_, hsum'.trans hsum, by simp [Level.factor, hproduct, hunary]⟩
    rw [Product.tokens, run_append, hleft, Option.bind_some, run_cons]
    cases operator <;> exact hright

theorem run_unary (outer : List Frame) (level : Level) (u : Unary) :
    ∃ level' last, (Reader.operand outer level).run u.tokens = some (.operator outer level' last) ∧
      level'.sum = level.sum ∧ level'.product = level.product ∧
      level'.unary last = Nat.iterate Unary.negate level.minuses u := by
  cases u with
  | primary p => exact ⟨level, p, run_primary outer level p, rfl, rfl, rfl⟩
  | negate u =>
    obtain ⟨level', last, hrun, hsum, hproduct, hunary⟩ :=
      run_unary outer ⟨level.sum, level.product, level.minuses + 1⟩ u
    refine ⟨level', last, ?_, hsum, hproduct, hunary⟩
    rw [Unary.tokens, run_cons]
    exact hrun

theorem run_primary (outer : List Frame) (level : Level) (p : Primary) :
    (Reader.operand outer level).run p.tokens = some (.operator outer level p) := by
  cases p with
  | name text => rfl
  | slot vector index => rfl
  | empty => rfl
  | paren sum =>
    obtain ⟨level', last, hrun, hsum⟩ := run_sum (⟨.paren, none, level⟩ :: outer) sum
    rw [Primary.tokens, run_cons]
    show ((Reader.operand (⟨.paren, none, level⟩ :: outer) {}).run _) = _
    rw [run_append, hrun, ← hsum]
    rfl
  | call function arguments =>
    obtain ⟨level', last, items, hrun, hitems⟩ :=
      run_items outer (.call function) (by simp) level arguments
    rw [Primary.tokens, run_cons]
    show ((Reader.operand (⟨.call function, none, level⟩ :: outer) {}).run _) = _
    rw [run_append, hrun, ← hitems]
    rfl
  | list items =>
    obtain ⟨level', last, before, hrun, hitems⟩ :=
      run_items outer .list (by simp) level items
    rw [Primary.tokens, run_cons]
    show ((Reader.operand (⟨.list, none, level⟩ :: outer) {}).run _) = _
    rw [run_append, hrun, ← hitems]
    rfl

theorem run_items (outer : List Frame) (opening : Opening) (ho : opening ≠ .paren) (base : Level)
    (items : Items) : ∃ level last before,
    (Reader.operand (⟨opening, none, base⟩ :: outer) {}).run items.tokens =
        some (.operator (⟨opening, before, base⟩ :: outer) level last) ∧
      Frame.add ⟨opening, before, base⟩ (level.term last) = items := by
  cases items with
  | first sum =>
    obtain ⟨level, last, hrun, rfl⟩ := run_sum (⟨opening, none, base⟩ :: outer) sum
    exact ⟨level, last, none, hrun, rfl⟩
  | more items sum =>
    obtain ⟨level, last, before, hrun, rfl⟩ := run_items outer opening ho base items
    obtain ⟨level', last', hrun', rfl⟩ := run_sum (⟨opening,
      some (Frame.add ⟨opening, before, base⟩ (level.term last)), base⟩ :: outer) sum
    refine ⟨level', last', some (Frame.add ⟨opening, before, base⟩ (level.term last)), ?_, rfl⟩
    rw [Items.tokens, run_append, hrun, Option.bind_some, run_cons, ← hrun']
    cases opening with
    | paren => exact absurd rfl ho
    | call function => rfl
    | list => rfl

end

end Reader

/-- The reader finds every tree in its tokens. -/
theorem Sum.read_tokens (s : Sum) : Sum.read s.tokens = some s := by
  obtain ⟨level, last, hrun, hterm⟩ := Reader.run_sum [] s
  simp [Sum.read, hrun, hterm]

end StraightLine.Grammar
