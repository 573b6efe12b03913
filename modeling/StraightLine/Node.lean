/-! # Nodes

The entries of an expression graph. Nodes refer to each other, and to the statements that store into
them, by number. -/
namespace StraightLine

/-- The number of a node, in order of construction. -/
structure NodeId where
  index : Nat
deriving Repr, DecidableEq, BEq, ReflBEq, LawfulBEq, Inhabited

def NodeId.text (id : NodeId) : String := "%" ++ toString id.index

structure StatementId where
  number : Nat
deriving Repr, DecidableEq, Inhabited

def StatementId.text (id : StatementId) : String := "s" ++ toString id.number

/-- The kind of a node without its contents. -/
inductive Tag where
  | scalar
  | vector
  | field
  | apply
  | reduction
  | mapping
deriving Repr, DecidableEq

def Tag.name : Tag → String
  | .scalar => "scalar"
  | .vector => "vector"
  | .field => "field"
  | .apply => "apply"
  | .reduction => "reduce"
  | .mapping => "map"

inductive Kind where
  /-- A named leaf. -/
  | scalar
  /-- An ordered grouping; `square` marks a matrix stored row by row. -/
  | vector (components : List NodeId) (square : Bool)
  /-- A component of a vector. -/
  | field (parent : NodeId) (index : Nat)
  /-- An operation over a flat list of operands. -/
  | apply (operation : String) (operands : List NodeId)
  /-- One operation per operand, over that operand's components. -/
  | reduction (operation : String) (operands components : List NodeId)
  /-- One operation per position, over that component of each operand. -/
  | mapping (operation : String) (operands components : List NodeId)
deriving Repr, DecidableEq

def Kind.tag : Kind → Tag
  | .scalar => .scalar
  | .vector .. => .vector
  | .field .. => .field
  | .apply .. => .apply
  | .reduction .. => .reduction
  | .mapping .. => .mapping

/-- How a node is written at present. -/
inductive Standing where
  /-- Written out at every use. -/
  | inline
  /-- Written out, and overwritten by a store; the next use binds the prior value. -/
  | stored (store : StatementId)
  /-- Written as a name. -/
  | named (name : String)
deriving Repr, DecidableEq

structure Node where
  kind : Kind
  standing : Standing
  /-- May be bound to a name once it is used again. -/
  aliasable : Bool
  /-- Uses counted so far. -/
  uses : Nat := 0
deriving Repr, DecidableEq

namespace Node

def name? (n : Node) : Option String :=
  match n.standing with
  | .named name => some name
  | _ => none

def pendingStore? (n : Node) : Option StatementId :=
  match n.standing with
  | .stored s => some s
  | _ => none

/-- The components of a vector, reduction or mapping; all other nodes have none. -/
def components? (n : Node) : Option (List NodeId) :=
  match n.kind with
  | .vector cs _ | .reduction _ _ cs | .mapping _ _ cs => some cs
  | _ => none

def isVector (n : Node) : Bool := n.components?.isSome

/-- Number of components; a node without components counts as one. -/
def length (n : Node) : Nat := (n.components?.map List.length).getD 1

def withComponents (n : Node) (cs : List NodeId) : Node :=
  match n.kind with
  | .vector _ square => { n with kind := .vector cs square }
  | .reduction operation operands _ => { n with kind := .reduction operation operands cs }
  | .mapping operation operands _ => { n with kind := .mapping operation operands cs }
  | _ => n

end Node

/-! ## Identities

A table of the operations requested so far, so that a request made again is answered with the node
of the first one. -/

/-- What identifies a node: its kind, its operation and its operands in order. -/
structure Identity where
  tag : Tag
  operation : String
  operands : List NodeId
deriving Repr, DecidableEq, BEq, ReflBEq, LawfulBEq

/-- The nodes of the identities seen so far, the latest first, and the number of requests answered
from them. -/
structure Identities where
  entries : List (Identity × NodeId) := []
  hits : Nat := 0
deriving Repr, DecidableEq, Inhabited

namespace Identities

def size (t : Identities) : Nat := t.entries.length

def find? (t : Identities) (key : Identity) : Option NodeId := t.entries.lookup key

/-- Answers a request, counting it if the identity is on record. -/
def lookup (t : Identities) (key : Identity) : Option NodeId × Identities :=
  match t.find? key with
  | some id => (some id, { t with hits := t.hits + 1 })
  | none => (none, t)

/-- Records the node of an identity; the first record stays. -/
def insert (t : Identities) (key : Identity) (id : NodeId) : Identities :=
  if (t.find? key).isSome then t else { t with entries := (key, id) :: t.entries }

@[simp] theorem lookup_fst (t : Identities) (key : Identity) : (t.lookup key).1 = t.find? key := by
  unfold lookup
  cases t.find? key <;> rfl

/-- A request leaves the records as they are. -/
@[simp] theorem entries_lookup (t : Identities) (key : Identity) :
    (t.lookup key).2.entries = t.entries := by
  unfold lookup
  cases t.find? key <;> rfl

/-- A record answers for its own identity, unless there was one before, and for no other. -/
theorem find?_insert (t : Identities) (key other : Identity) (id : NodeId) :
    (t.insert key id).find? other =
      if other = key ∧ t.find? key = none then some id else t.find? other := by
  unfold insert
  cases hk : t.find? key with
  | some old => simp
  | none =>
    by_cases h : other = key
    · simp [find?, h]
    · have hb : (other == key) = false := by simpa using h
      simp [find?, List.lookup_cons, h, hb]

end Identities

end StraightLine
