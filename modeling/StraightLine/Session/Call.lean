import StraightLine.Session.Basic

/-! # Requests

What a caller asks of a session: nodes, statements and returns. Every request counts the uses of the
nodes that it reads. -/
namespace StraightLine

/-! ## Counting uses

A node that may be bound to a name is bound at its second use. A node that awaits a store is bound,
right before that store, to the value it had until then; any other node is bound to its expression
by a declaration at the end, if the settings allow it. -/

namespace Session

def push (s : Session) (action : Action) (value : Phrase) : StatementId × Session :=
  let (id, schedule) := s.schedule.push action value
  (id, { s with schedule })

def modifyNode (s : Session) (id : NodeId) (f : Node → Node) : Session :=
  { s with arena := s.arena.modify id f }

def allocateName (s : Session) (id : NodeId) : String × Session :=
  let (name, names) := s.names.allocate (s.arena.hint id)
  (name, { s with names })

def mayBind (s : Session) (node : Node) : Bool :=
  node.pendingStore?.isSome || s.settings.aliasExpressions

/-- Binds the prior value of a node right before the store that it awaits, if that store is still in
the list. -/
def capture? (s : Session) (node : Node) (name : String) : Option Session := do
  let (_, schedule) ← s.schedule.capture? (← node.pendingStore?) name
  return { s with schedule }

end Session

def Node.bound (name : String) (n : Node) : Node :=
  { n with standing := .named name, aliasable := false }

namespace Builder

def declareNode (id : NodeId) (node : Node) (name : String) : Builder Unit := do
  match (← get).capture? node name with
  | some s => set s
  | none =>
    let e ← ask (·.expr id)
    let _ ← update (·.push (.declare name none) (.expr e .suppress))

def bindNode (id : NodeId) : Builder Unit := do
  let node ← ask (·.node id)
  if (← get).mayBind node then
    let name ← update (·.allocateName id)
    declareNode id node name
    modify (·.modifyNode id (Node.bound name))

def use (id : NodeId) : Builder Unit := do
  let node ← ask (·.node id)
  if node.aliasable then
    modify (·.modifyNode id fun n => { n with uses := n.uses + 1 })
    if node.uses + 1 = 2 then bindNode id

def useAll (ids : List NodeId) : Builder Unit := ids.forM use

end Builder

/-! ## Building kernels

The requests that add nodes and statements to a session. Each request checks all its conditions
before it changes anything. -/

inductive Shape where
  /-- Fresh fields; for a matrix this is the side. -/
  | length (n : Nat)
  /-- Nodes that exist already. -/
  | components (ids : List NodeId)
deriving Repr, DecidableEq

structure Output where
  node : NodeId
deriving Repr, DecidableEq

/-- An output is a statement and has no text as an expression. -/
def Output.source (_ : Output) : Except Fault String := .error .noSourceForm

def Identity.kind (key : Identity) (components : List NodeId) : Kind :=
  match key.tag with
  | .reduction => .reduction key.operation key.operands components
  | .mapping => .mapping key.operation key.operands components
  | _ => .apply key.operation key.operands

namespace Arena

/-- Adds a named vector of fresh fields, which follow it in order. -/
def registerFields (a : Arena) (name : String) (square aliasable : Bool) (n : Nat) :
    NodeId × Arena :=
  let fields := (List.range n).map fun i => NodeId.mk (a.size + 1 + i)
  let (id, b) := a.register ⟨.vector fields square, .named name, false, 0⟩
  (id, ⟨b.nodes ++ (Array.range n).map fun i => ⟨.field id i, .inline, aliasable, 0⟩⟩)

end Arena

namespace Session

def addScalar (s : Session) (name : String) : NodeId × Session :=
  let (id, arena) := s.arena.register ⟨.scalar, .named name, false, 0⟩
  (id, { s with arena, names := s.names.reserve name })

def addVector (s : Session) (shape : Shape) (name : String) (square : Bool) :
    NodeId × Session :=
  let (id, arena) :=
    match shape with
    | .components cs => s.arena.register ⟨.vector cs square, .named name, false, 0⟩
    | .length n =>
      s.arena.registerFields name square s.settings.aliasFields (if square then n * n else n)
  (id, { s with arena, names := s.names.reserve name })

def allocatePhi (s : Session) (wanted : Option String) : String × Session :=
  let (name, names) := s.names.allocatePhi wanted
  (name, { s with names })

/-- The node with a given identity, and whether it is new. -/
def intern (s : Session) (key : Identity) : (NodeId × Bool) × Session :=
  match s.identities.lookup key with
  | (some id, identities) => ((id, false), { s with identities })
  | (none, identities) =>
    let (id, arena) := s.arena.register ⟨key.kind [], .inline, true, 0⟩
    ((id, true), { s with arena, identities := identities.insert key id })

def setComponents (s : Session) (id : NodeId) (cs : List NodeId) : Session :=
  { s with arena := s.arena.setComponents id cs }

def phiValue (s : Session) (test : Comparison) (success failure : NodeId) : Except Fault Phrase :=
  return .choice (← s.expr test.left) test.relation (← s.expr test.right) (← s.expr success)
    (← s.expr failure)

end Session

/-- A node that a store overwrites. One use is on record, so that the next one binds the value the
node had before. -/
def Node.overwritten (store : StatementId) (n : Node) : Node :=
  if n.aliasable then { n with uses := 1, standing := .stored store } else n

namespace Builder

def scalar (name : String) : Builder NodeId := update (·.addScalar name)

/-- A named vector; its components must be known. -/
def addVector (shape : Shape) (name : String) (square : Bool) : Builder NodeId := do
  if let .components cs := shape then ask (·.requireKnown cs)
  update (·.addVector shape name square)

def vector (shape : Shape) (name : String) : Builder NodeId := addVector shape name false

/-- A named square matrix, stored row by row. -/
def matrix (shape : Shape) (name : String) : Builder NodeId := addVector shape name true

/-- The node of an operation whose conditions hold; a node requested before is used again. -/
def applyChecked (operation : String) (operands : List NodeId) : Builder NodeId := do
  let (id, _) ← update (·.intern ⟨.apply, operation, operands⟩)
  useAll operands
  return id

def apply (operation : String) (operands : List NodeId) : Builder NodeId := do
  ask (·.checkApply operation operands)
  applyChecked operation operands

/-- Counts an operation as requested again; any other node is passed over. -/
def useOperands (id : NodeId) : Builder Unit := do
  match (← ask (·.node id)).kind with
  | .apply _ operands => useAll operands
  | _ => pure ()

def useComponents (id : NodeId) : Builder Unit := do
  let node ← ask (·.node id)
  (node.components?.getD []).forM useOperands

/-- A node with one operation per column. For a node requested before, each of its components counts
as requested again. -/
def columnwise (key : Identity) (columns : List (List NodeId)) : Builder NodeId := do
  let (id, fresh) ← update (·.intern key)
  if fresh then
    let cs ← columns.mapM (applyChecked key.operation)
    modify (·.setComponents id cs)
  else
    useComponents id
  return id

/-- One operation per operand, over that operand's components. -/
def reduce (operation : String) (operands : List NodeId) : Builder NodeId := do
  let columns ← ask (·.reduceColumns operation operands)
  columnwise ⟨.reduction, operation, operands⟩ columns

/-- One operation per position, over that component of each operand. -/
def map (operation : String) (operands : List NodeId) : Builder NodeId := do
  let columns ← ask (·.mapColumns operation operands)
  columnwise ⟨.mapping, operation, operands⟩ columns

/-- Stores one component, unless it is stored into itself. -/
def store (output input : NodeId) : Builder Unit := do
  if output ≠ input then
    use input
    let target ← ask (·.target output)
    let value ← ask (·.expr input)
    let id ← update (·.push (.store (.expr target .auto)) (.expr value .suppress))
    modify (·.modifyNode output (Node.overwritten id))

def assign (target source : NodeId) : Builder Unit := do
  let outputs ← ask (·.assignTargets target source)
  outputs.zipIdx.forM fun (output, i) => do
    store output (← ask (·.broadcast source i))

/-- Merges two nodes by a comparison under a new name. -/
def phi (test : Comparison) (success failure : NodeId) (name : Option String) : Builder NodeId := do
  let length ← ask (·.phiLength test success failure)
  useAll [test.left, test.right]
  useAll [success, failure]
  let name ← update (·.allocatePhi name)
  let value ← ask (·.phiValue test success failure)
  let _ ← update (·.push (.declare name none) value)
  match length with
  | some n => vector (.length n) name
  | none => scalar name

def output (id : NodeId) : Builder Output := do
  ask (·.requireKnown [id])
  use id
  return ⟨id⟩

def recycle (name : String) : Builder Unit :=
  modify fun s => { s with names := s.names.recycle name }

end Builder

/-! ## Requests as data

Everything a caller can ask of a session, so that what holds after any requests can be said. -/

inductive Call where
  | scalar (name : String)
  | vector (shape : Shape) (name : String)
  | matrix (shape : Shape) (name : String)
  | apply (operation : String) (operands : List NodeId)
  | map (operation : String) (operands : List NodeId)
  | reduce (operation : String) (operands : List NodeId)
  | assign (target source : NodeId)
  | phi (test : Comparison) (success failure : NodeId) (name : Option String)
  | output (node : NodeId)
  | recycle (name : String)
deriving Repr, DecidableEq

/-- Makes a request; the result is the node it is about, if there is one. -/
def Call.run : Call → Builder (Option NodeId)
  | .scalar name => some <$> Builder.scalar name
  | .vector shape name => some <$> Builder.vector shape name
  | .matrix shape name => some <$> Builder.matrix shape name
  | .apply operation operands => some <$> Builder.apply operation operands
  | .map operation operands => some <$> Builder.map operation operands
  | .reduce operation operands => some <$> Builder.reduce operation operands
  | .assign target source => (fun _ => none) <$> Builder.assign target source
  | .phi test success failure name => some <$> Builder.phi test success failure name
  | .output node => (fun o => some o.node) <$> Builder.output node
  | .recycle name => (fun _ => none) <$> Builder.recycle name

end StraightLine
