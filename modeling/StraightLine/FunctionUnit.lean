import StraightLine.Fault

/-! # Function units

A generated body becomes a named function of a module text, with the labels under which a loader
reports it. -/
namespace StraightLine

structure FunctionRequest where
  name : String
  parameters : List String
  body : String
  context : Option String
deriving Repr, DecidableEq

/-- All that a loader needs of one generated function. -/
structure FunctionUnit where
  name : String
  context : String
  parameters : List String
  body : String
  /-- The complete module text. -/
  source : String
  /-- The label of the function in diagnostics. -/
  displayName : String
  /-- The address of the module text. -/
  sourceUrl : String
deriving Repr, DecidableEq

namespace FunctionUnit

def defaultContext : String := "unknown"

/-- The module text that exports a function under its own name. -/
def moduleText (name : String) (parameters : List String) (body : String) : String :=
  "\"use strict\";\n// this is auto-generated code\n\tvar sqrt = Math.sqrt;\n" ++
    "\texports[\"" ++ name ++ "\"] = function " ++ name ++
    "(" ++ ", ".intercalate parameters ++ ") \x7b\n\t\t" ++ body ++ "\x7d"

def ofRequest (r : FunctionRequest) : FunctionUnit :=
  let context := r.context.getD defaultContext
  { name := r.name
    context
    parameters := r.parameters
    body := r.body
    source := moduleText r.name r.parameters r.body
    displayName := "kernelgen:" ++ context ++ ":" ++ r.name
    sourceUrl := "kernelgen/" ++ context ++ "/" ++ r.name }

/-- Hands the unit of a request to a loader; what the loader refuses is a fault. -/
def compile {α : Type} (load : FunctionUnit → Except String α) (r : FunctionRequest) :
    Except Fault α :=
  (load (ofRequest r)).mapError .loader

/-- The loader that evaluates nothing and gives back the module text. -/
def loadSource (unit : FunctionUnit) : Except String String := .ok unit.source

end FunctionUnit

end StraightLine
