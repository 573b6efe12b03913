import StraightLine.Node
import StraightLine.Settings.Basic

/-! # Faults

Why a request to a session or a step of a sink is refused. -/
namespace StraightLine

inductive SinkError where
  /-- A level is closed that was not opened. -/
  | underflow
  /-- Levels are still open at the end. -/
  | unbalanced (depth : Nat)
deriving Repr, DecidableEq

def SinkError.message : SinkError → String
  | .underflow => "Unbalanced tabs: untab below depth zero"
  | .unbalanced depth => "Unbalanced tabs: " ++ toString depth ++ " level(s) still open"

/-- The requests that need at least one operand. -/
inductive Construct where
  | apply
  | map
  | reduce
deriving Repr, DecidableEq

def Construct.name : Construct → String
  | .apply => "apply"
  | .map => "map"
  | .reduce => "reduce"

/-- Why a request is refused. -/
inductive Fault where
  /-- No operand, or an operand without components to reduce. -/
  | nothingTo (construct : Construct)
  | assignToNonVector (target : NodeId)
  /-- An operation on one operand was given several. -/
  | unaryArity (operation : String) (operands : Nat)
  /-- One branch of a merge is a vector and the other is none. -/
  | phiShapeMismatch
  /-- The text of an output was asked for as if it were an expression. -/
  | noSourceForm
  | indexOutOfRange (node : NodeId) (index length : Nat)
  | lengthMismatch (operation : String) (expected found : Nat)
  | unknownNode (node : NodeId)
  | sink (error : SinkError)
  | loader (text : String)
  | settings (error : SettingsError)
deriving Repr, DecidableEq

def Fault.message : Fault → String
  | .nothingTo construct => "Nothing to " ++ construct.name
  | .assignToNonVector target =>
    "Cannot assign to anything but a vector (target " ++ target.text ++ ")"
  | .unaryArity operation operands =>
    "Operation '" ++ operation ++ "' takes one operand but got " ++ toString operands ++
      "; use map, not apply"
  | .phiShapeMismatch => "Phi branches must both be vectors or both be scalars"
  | .noSourceForm => "Output statements have no source form"
  | .indexOutOfRange node index length =>
    "Index " ++ toString index ++ " out of range for " ++ node.text ++ " of length " ++
      toString length
  | .lengthMismatch operation expected found =>
    "Length mismatch in " ++ operation ++ ": expected " ++ toString expected ++ ", found " ++
      toString found
  | .unknownNode node => "Unknown node " ++ node.text
  | .sink error => "Sink error: " ++ error.message
  | .loader text => "Loader error: " ++ text
  | .settings error => "Configuration error: " ++ error.message

end StraightLine
