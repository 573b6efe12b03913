import StraightLine.Session.Call

/-! # Emission

The text of a finished kernel. -/
namespace StraightLine

/-! ## Layout of statements

Statements are laid out as lines at a depth of indentation. Consecutive declarations share one
keyword: the first stands at the current depth and the others one level deeper. A layout is a list
of steps, which a sink performs one by one. -/

inductive LayoutStep where
  | line (text : String)
  | indent
  | outdent
deriving Repr, DecidableEq

/-- The line of a statement: `opening` marks the first of a run of declarations, `closing` the last
statement before another keyword or a store. -/
def Statement.line (keyword : String) (s : Statement) (opening closing : Bool) : String :=
  (if opening then keyword ++ " " else "") ++ s.target.text ++ " = " ++ s.value.text ++
    (if closing then ";" else ",")

/-- The steps of a list of statements; `declaring` says that a run of declarations is open. -/
def layoutStatements (keyword : String) : Bool → List Statement → List LayoutStep
  | _, [] => []
  | declaring, s :: rest =>
    let declares := s.isDeclaration
    let starts := declares && !declaring
    let stops := declares && !(rest.head?.any Statement.isDeclaration)
    .line (s.line keyword starts (!declares || stops)) ::
      ((if starts && !stops then [.indent] else []) ++
        (if stops && !starts then [.outdent] else []) ++
        layoutStatements keyword (declares && !stops) rest)

/-- The steps of a kernel: its statements, then lines taken as they are. -/
def layout (keyword : String) (statements : List Statement) (terminals : List String) :
    List LayoutStep :=
  layoutStatements keyword false statements ++ terminals.map .line

/-- A destination of lines. A step that is refused leaves the destination as it was. -/
class Sink (σ : Type) where
  perform : LayoutStep → σ → Except SinkError σ

/-- Performs steps until one is refused. -/
def Sink.run {σ : Type} [Sink σ] : List LayoutStep → σ → σ × Option SinkError
  | [], sink => (sink, none)
  | step :: steps, sink =>
    match Sink.perform step sink with
    | .ok next => Sink.run steps next
    | .error e => (sink, some e)

def closeLevel : Nat → Except SinkError Nat
  | 0 => .error .underflow
  | depth + 1 => .ok depth

structure Writer where
  style : Style
  text : String := ""
  depth : Nat := 0
deriving Repr, DecidableEq, Inhabited

namespace Writer

def margin (w : Writer) : String := String.join (List.replicate w.depth w.style.indent)

def append (w : Writer) (text : String) : Writer := { w with text := w.text ++ text ++ "\n" }

/-- Writes a line. A line that ends in an opening brace indents what follows, one that ends in a
closing brace is itself moved out, and a line without an ending of its own gets the terminator. -/
def writeLine (w : Writer) (line : String) : Except SinkError Writer :=
  match line.toList.getLast? with
  | none => .ok (w.append "")
  | some '\x7b' => .ok { w.append (w.margin ++ line) with depth := w.depth + 1 }
  | some '\x7d' => do
    let out := { w with depth := ← closeLevel w.depth }
    return out.append (out.margin ++ line)
  | some ';' | some ',' => .ok (w.append (w.margin ++ line))
  | some _ => .ok (w.append (w.margin ++ line ++ w.style.terminator))

/-- The finished text; there is none while levels are open. -/
def finish (w : Writer) : Except SinkError String :=
  if w.depth = 0 then .ok w.text else .error (.unbalanced w.depth)

end Writer

instance : Sink Writer where
  perform
    | .line text, w => w.writeLine text
    | .indent, w => .ok { w with depth := w.depth + 1 }
    | .outdent, w => return { w with depth := ← closeLevel w.depth }

/-- Lines recorded with their depth; with a limit, no more lines than that are accepted. -/
structure Recorder where
  limit : Option Nat := none
  lines : Array (Nat × String) := #[]
  depth : Nat := 0
deriving Repr, DecidableEq, Inhabited

instance : Sink Recorder where
  perform
    | .line text, r =>
      if r.limit.any (· ≤ r.lines.size) then .error (.unbalanced r.depth)
      else .ok { r with lines := r.lines.push (r.depth, text) }
    | .indent, r => .ok { r with depth := r.depth + 1 }
    | .outdent, r => return { r with depth := ← closeLevel r.depth }

/-! ## Kernels

A kernel is its statements, then its terminal lines. -/

inductive Terminal where
  /-- The return of a node. -/
  | output (output : Output)
  /-- A line taken as it is. -/
  | line (text : String)
deriving Repr, DecidableEq

namespace Session

/-- The return of a node, without the terminator. -/
def renderOutput (s : Session) (output : Output) : Except Fault String :=
  return s.settings.style.returnKeyword ++ " " ++ (← s.render output.node .suppress)

def terminalLine (s : Session) : Terminal → Except Fault String
  | .output output => s.renderOutput output
  | .line text => .ok text

def layout (s : Session) (terminals : List Terminal) : Except Fault (List LayoutStep) :=
  return StraightLine.layout s.settings.style.declarationKeyword s.schedule.statements
    (← terminals.mapM s.terminalLine)

/-- Writes the kernel to a sink, up to the first step that is refused. -/
def write {σ : Type} [Sink σ] (s : Session) (terminals : List Terminal) (sink : σ) :
    σ × Option Fault :=
  match s.layout terminals with
  | .ok steps => (Sink.run steps sink).map id (·.map .sink)
  | .error e => (sink, some e)

def source (s : Session) (terminals : List Terminal) : Except Fault String :=
  match s.write terminals { style := s.settings.style : Writer } with
  | (w, none) => w.finish.mapError .sink
  | (_, some e) => .error e

end Session

end StraightLine
