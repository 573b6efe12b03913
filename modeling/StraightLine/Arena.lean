import StraightLine.Expr
import StraightLine.Names

/-! # The arena of a session

All nodes of a session in order of construction. A node's expression is read off the arena on
request, so an operand that was bound to a name after its user was built is written as that name. -/
namespace StraightLine

/-! ## Square grids

The side of the largest square grid with at most `n` cells. An estimate of the square root is
corrected until it is exact, so the estimate affects only the number of steps. -/

namespace Grid

/-- The largest number up to `d` whose square is at most `n`. -/
def lower (n : Nat) : Nat → Nat
  | 0 => 0
  | d + 1 => if n < (d + 1) * (d + 1) then lower n d else d + 1

/-- The least number from `d` on whose successor's square exceeds `n`, within a number of steps. -/
def raise (n : Nat) : Nat → Nat → Nat
  | 0, d => d
  | steps + 1, d => if (d + 1) * (d + 1) ≤ n then raise n steps (d + 1) else d

/-- An estimate of the side, corrected downwards and then upwards. No side exceeds its number of
cells, so `n` steps upwards are enough. -/
def settle (n estimate : Nat) : Nat := raise n n (lower n estimate)

def newton (n : Nat) : Nat → Nat → Nat
  | 0, d => d
  | steps + 1, d => newton n steps ((d + n / d) / 2)

/-- Five Newton steps from a power of two above the root. -/
def estimate (n : Nat) : Nat := newton n 5 (Nat.pow 2 (n.log2 / 2 + 1))

/-- The side of the largest square grid with at most `n` cells. -/
def side (n : Nat) : Nat := settle n (estimate n)

end Grid

/-! ## Nodes in order -/

structure Arena where
  nodes : Array Node := #[]
deriving Repr, DecidableEq, Inhabited

namespace Arena

def size (a : Arena) : Nat := a.nodes.size

def get? (a : Arena) (id : NodeId) : Option Node := a.nodes[id.index]?

def contains (a : Arena) (id : NodeId) : Bool := id.index < a.size

def register (a : Arena) (node : Node) : NodeId × Arena := (⟨a.size⟩, ⟨a.nodes.push node⟩)

def modify (a : Arena) (id : NodeId) (f : Node → Node) : Arena := ⟨a.nodes.modify id.index f⟩

theorem contains_iff {a : Arena} {id : NodeId} :
    a.contains id = true ↔ ∃ node, a.get? id = some node := by
  rw [← Option.isSome_iff_exists, contains, decide_eq_true_eq]
  simp [get?, size]

@[simp] theorem size_register (a : Arena) (node : Node) :
    (a.register node).2.size = a.size + 1 := by
  simp [register, size]

/-- A new node stands under the next number, and every other number keeps its node. -/
theorem get?_register (a : Arena) (node : Node) (id : NodeId) :
    (a.register node).2.get? id = if id.index = a.size then some node else a.get? id := by
  unfold register get? size
  rw [Array.getElem?_push]

@[simp] theorem size_modify (a : Arena) (id : NodeId) (f : Node → Node) :
    (a.modify id f).size = a.size := by
  simp [modify, size]

/-- Only the node with the given number changes. -/
theorem get?_modify (a : Arena) (id : NodeId) (f : Node → Node) (other : NodeId) :
    (a.modify id f).get? other =
      if other.index = id.index then (a.get? other).map f else a.get? other := by
  simp [modify, get?, Array.getElem?_modify, eq_comm]

def setComponents (a : Arena) (id : NodeId) (cs : List NodeId) : Arena :=
  a.modify id (·.withComponents cs)

/-- The expression of a node, with nesting at most `depth`. There is none if a number is unknown, an
operation has no operands, or the nesting does not end in time. -/
def exprWithin (a : Arena) : Nat → NodeId → Option Expr
  | 0, _ => none
  | depth + 1, id => do
    let node ← a.get? id
    match node.standing, node.kind with
    | .named text, _ => some (.name id text)
    | _, .scalar => none
    | _, .vector cs _ | _, .reduction _ _ cs | _, .mapping _ _ cs =>
      return .list (← cs.mapM (a.exprWithin depth))
    | _, .field parent index => return .slot (← a.exprWithin depth parent) index
    | _, .apply _ [] => none
    | _, .apply operation (first :: rest) =>
      return .apply id (Operator.parse operation) (← a.exprWithin depth first)
        (← rest.mapM (a.exprWithin depth))

/-- The expression of a node. Operands precede their users, and the components of a node take
operands that precede it, so twice the number of nodes bounds the nesting. -/
def expr? (a : Arena) (id : NodeId) : Option Expr := a.exprWithin (2 * a.size + 1) id

/-- The place that a store into a node writes to. A field is always addressed through its vector,
also once it is bound to a name. -/
def target? (a : Arena) (id : NodeId) : Option Expr := do
  match (← a.get? id).kind with
  | .field parent index => return .slot (← a.expr? parent) index
  | _ => a.expr? id

def hint (a : Arena) (id : NodeId) : Hint :=
  match a.get? id with
  | some { kind := .field parent index, .. } =>
    match a.get? parent with
    | some { kind := .vector cs square, standing := .named name, .. } =>
      if square then .cell name index (Grid.side cs.length) else .field name index
    | _ => .anonymous
  | _ => .anonymous

end Arena

end StraightLine
