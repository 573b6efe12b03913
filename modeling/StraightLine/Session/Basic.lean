import StraightLine.Arena
import StraightLine.Fault
import StraightLine.Schedule

/-! # Sessions

A session owns the nodes, identities, names and statements of one kernel. Requests that change it
run in `Builder`, where a refused request keeps the state it was refused in. -/
namespace StraightLine

structure Session where
  settings : Settings
  arena : Arena := {}
  identities : Identities := {}
  names : Names := { naming := settings.naming }
  schedule : Schedule := {}

instance : Inhabited Session := ⟨{ settings := {} }⟩

abbrev Builder := EStateM Fault Session

namespace Session

/-- A new session; the settings must be admissible. -/
def new (settings : Settings) : Except Fault Session := do
  settings.validate.mapError .settings
  return { settings }

def node (s : Session) (id : NodeId) : Except Fault Node :=
  match s.arena.get? id with
  | some node => .ok node
  | none => .error (.unknownNode id)

/-- Refuses the first number that the session did not hand out. -/
def requireKnown (s : Session) (ids : List NodeId) : Except Fault Unit :=
  match ids.find? (!s.arena.contains ·) with
  | some id => .error (.unknownNode id)
  | none => .ok ()

/-- A component of a node. A node without components is its own component at every index. -/
def component (s : Session) (id : NodeId) (index : Nat) : Except Fault NodeId := do
  match (← s.node id).components? with
  | none => return id
  | some cs =>
    match cs[index]? with
    | some c => return c
    | none => throw (.indexOutOfRange id index cs.length)

/-- A component of a node, where a sole component stands at every index. -/
def broadcast (s : Session) (id : NodeId) (index : Nat) : Except Fault NodeId := do
  s.component id (if (← s.node id).length = 1 then 0 else index)

def length (s : Session) (id : NodeId) : Except Fault Nat := return (← s.node id).length

def expr (s : Session) (id : NodeId) : Except Fault Expr :=
  match s.arena.expr? id with
  | some e => .ok e
  | none => .error (.unknownNode id)

def target (s : Session) (id : NodeId) : Except Fault Expr :=
  match s.arena.target? id with
  | some e => .ok e
  | none => .error (.unknownNode id)

def render (s : Session) (id : NodeId) (brackets : Brackets) : Except Fault String :=
  return (← s.expr id).text brackets

end Session

namespace Builder

/-- Answers a question about the session and leaves it as it is. -/
def ask {α : Type} (question : Session → Except Fault α) : Builder α := fun s =>
  match question s with
  | .ok a => .ok a s
  | .error e => .error e s

/-- Changes the session by an operation that cannot be refused. -/
def update {α : Type} (change : Session → α × Session) : Builder α := fun s =>
  .ok (change s).1 (change s).2

end Builder

/-! ## Conditions of requests

What must hold before a request may change a session. The conditions are questions about the
session, asked in a fixed order, and the first that fails decides the fault. -/

structure Comparison where
  left : NodeId
  relation : String
  right : NodeId
deriving Repr, DecidableEq

/-- Refuses more than one operand of an operation on one. -/
def checkArity (operation : String) (operands : Nat) : Except Fault Unit :=
  if (Operator.parse operation).isUnary ∧ 1 < operands then
    .error (.unaryArity operation operands)
  else .ok ()

namespace Session

def column (s : Session) (id : NodeId) : Except Fault (List NodeId) :=
  return (← s.node id).components?.getD [id]

def checkApply (s : Session) (operation : String) (operands : List NodeId) :
    Except Fault Unit := do
  if operands.isEmpty then throw (.nothingTo .apply)
  s.requireKnown operands
  checkArity operation operands.length

def checkColumn (operation : String) (column : List NodeId) : Except Fault Unit := do
  if column.isEmpty then throw (.nothingTo .reduce)
  checkArity operation column.length

def reduceColumns (s : Session) (operation : String) (operands : List NodeId) :
    Except Fault (List (List NodeId)) := do
  if operands.isEmpty then throw (.nothingTo .reduce)
  s.requireKnown operands
  let columns ← operands.mapM s.column
  columns.forM (checkColumn operation)
  return columns

/-- The conditions of a mapping, and its columns. Every operand has the greatest length or is
broadcast. -/
def mapColumns (s : Session) (operation : String) (operands : List NodeId) :
    Except Fault (List (List NodeId)) := do
  if operands.isEmpty then throw (.nothingTo .map)
  s.requireKnown operands
  checkArity operation operands.length
  let lengths ← operands.mapM s.length
  let expected := lengths.foldl max 0
  match lengths.find? fun n => n != 1 && n != expected with
  | some found => throw (.lengthMismatch operation expected found)
  | none => (List.range expected).mapM fun i => operands.mapM (s.broadcast · i)

def assignTargets (s : Session) (target source : NodeId) : Except Fault (List NodeId) := do
  s.requireKnown [target, source]
  match (← s.node target).kind with
  | .vector outputs _ =>
    let found ← s.length source
    if found ≠ 1 ∧ found < outputs.length then
      throw (.lengthMismatch "assign" outputs.length found)
    return outputs
  | _ => throw (.assignToNonVector target)

/-- The conditions of a merge, and the length of its result if that is a vector. -/
def phiLength (s : Session) (test : Comparison) (success failure : NodeId) :
    Except Fault (Option Nat) := do
  s.requireKnown [test.left, test.right, success, failure]
  let yes ← s.node success
  let no ← s.node failure
  if yes.isVector != no.isVector then throw .phiShapeMismatch
  return if yes.isVector then some (max yes.length no.length) else none

end Session

end StraightLine
