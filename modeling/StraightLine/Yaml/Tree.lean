import StraightLine.Yaml.Scan
import StraightLine.Yaml.Value

/-! # Documents as trees

The tokens of a text are put together to the tree of its one document. An alias refers to a node by
the number of its anchor. -/
namespace StraightLine.Yaml

/-- A document and its anchored nodes, in the order in which they start. -/
structure Tree where
  root : Value
  anchored : List (Nat × Value)
deriving Repr

/-- The value that a node stands for: an alias stands for the last node with its anchor. -/
def Tree.resolve? (t : Tree) : Value → Option Value
  | .reference anchor => t.anchored.reverse.lookup anchor
  | value => some value

/-- The entries of a mapping whose keys are all scalars; what is empty has none. -/
def Tree.fields? (t : Tree) : Value → Option (List (String × Value))
  | .mapping entries => entries.mapM fun (key, value) => do
    return (← (← t.resolve? key).text?, ← t.resolve? value)
  | .scalar "" .plain _ => some []
  | _ => none

/-- Tokens to be read, and what was said of tags and anchors before them. -/
structure Source where
  tokens : List Token
  /-- What the handles of tags stand for. -/
  handles : List (String × String)
  /-- The anchor that each name refers to. -/
  names : List (String × Nat) := []
  anchored : List (Nat × Value) := []
deriving Repr

abbrev Reader := StateT Source Option

namespace Reader

def peek : Reader (Option Token) := return (← get).tokens.head?

def skip : Reader Unit := modify fun s => { s with tokens := s.tokens.tail }

def nextIn (tokens : List Token) : Reader Bool := return (← peek).any (· ∈ tokens)

def expect (token : Token) : Reader Unit := do
  if ← nextIn [token] then skip else failure

def anchor? : Reader (Option String) := do
  match ← peek with
  | some (.anchor name) => do
    skip
    return some name
  | _ => return none

/-- Passes a tag, if one comes next. Its handle must be known. -/
def tag? : Reader (Option String) := do
  match ← peek with
  | some (.tag handle suffix) => do
    skip
    if handle.isEmpty then return some suffix
    match (← get).handles.lookup handle with
    | some meaning => return some (meaning ++ suffix)
    | none => failure
  | _ => return none

/-- The properties of a node: an anchor and a tag, in either order. -/
def properties : Reader (Option String × Option String) := do
  match ← anchor? with
  | some name => return (some name, ← tag?)
  | none => do
    let tag ← tag?
    if tag.isSome then return (← anchor?, tag) else return (none, none)

/-- Reads an anchored node. Its anchor is the number of names before it, and its name refers to it
from its start on. -/
def anchored (name : String) (read : Reader Value) : Reader Value := do
  let s ← get
  let anchor := s.names.length
  let place := s.anchored.length
  set { s with
    names := (name, anchor) :: s.names.filter (·.1 != name)
    anchored := s.anchored ++ [(anchor, Value.empty)] }
  let value ← read
  modify fun s => { s with anchored := s.anchored.set place (anchor, value) }
  return value

def reference (name : String) : Reader Value := do
  match (← get).names.lookup name with
  | some anchor => return .reference anchor
  | none => failure

mutual

/-- A node. Block collections are read where `block` says so, and items without indentation of their
own where `flush` says so. -/
def node (block flush : Bool) : Nat → Reader Value
  | 0 => failure
  | depth + 1 => do
    match ← peek with
    | some (.reference name) => do
      skip
      reference name
    | _ => do
      match ← properties with
      | (none, tag) => content block flush tag tag.isSome depth
      | (some name, tag) => anchored name (content block flush tag true depth)

/-- A node behind its properties. With properties it may be empty. -/
def content (block flush : Bool) (tag : Option String) (optional : Bool) : Nat → Reader Value
  | 0 => failure
  | depth + 1 => do
    match ← peek, block, flush with
    | some .entry, _, true => return .sequence (← flushItems depth)
    | some (.scalar text style), _, _ => do
      skip
      return .scalar text style tag
    | some .flowSequence, _, _ => do
      skip
      return .sequence (← flowItems true depth)
    | some .flowMapping, _, _ => do
      skip
      return .mapping (← flowEntries true depth)
    | some .blockSequence, true, _ => do
      skip
      return .sequence (← blockItems depth)
    | some .blockMapping, true, _ => do
      skip
      return .mapping (← blockEntries depth)
    | _, _, _ => if optional then return .scalar "" .plain tag else failure

/-- A node in block collections, or nothing before one of the tokens given. -/
def blockPart (flush : Bool) (stops : List Token) : Nat → Reader Value
  | 0 => failure
  | depth + 1 => do
    if ← nextIn stops then return .empty else node true flush depth

def flowPart (stops : List Token) : Nat → Reader Value
  | 0 => failure
  | depth + 1 => do
    if ← nextIn stops then return .empty else node false false depth

def flowPartValue (stops : List Token) : Nat → Reader Value
  | 0 => failure
  | depth + 1 => do
    if ← nextIn [.value] then
      skip
      flowPart stops depth
    else return .empty

def blockItems : Nat → Reader (List Value)
  | 0 => failure
  | depth + 1 => do
    if ← nextIn [.blockEnd] then
      skip
      return []
    else
      expect .entry
      let item ← blockPart false [.entry, .blockEnd] depth
      return item :: (← blockItems depth)

/-- The items of a block sequence at the column of the mapping around it. -/
def flushItems : Nat → Reader (List Value)
  | 0 => failure
  | depth + 1 => do
    if ← nextIn [.entry] then
      skip
      let item ← blockPart false [.entry, .key, .value, .blockEnd] depth
      return item :: (← flushItems depth)
    else return []

def blockEntries : Nat → Reader (List (Value × Value))
  | 0 => failure
  | depth + 1 => do
    if ← nextIn [.blockEnd] then
      skip
      return []
    else
      expect .key
      let key ← blockPart true [.key, .value, .blockEnd] depth
      let value ←
        if ← nextIn [.value] then
          skip
          blockPart true [.key, .value, .blockEnd] depth
        else pure .empty
      return (key, value) :: (← blockEntries depth)

/-- The items of a flow sequence; `first` says that no comma is due. A key alone is an item too: a
mapping with one entry. Where its key is missing, the token in its place is passed. -/
def flowItems (first : Bool) : Nat → Reader (List Value)
  | 0 => failure
  | depth + 1 => do
    if !first && !(← nextIn [.flowSequenceEnd]) then expect .comma
    if ← nextIn [.flowSequenceEnd] then
      skip
      return []
    else if ← nextIn [.key] then
      skip
      let missing ← nextIn [.value, .comma, .flowSequenceEnd]
      if missing then skip
      let key ← if missing then pure .empty else node false false depth
      let value ← flowPartValue [.comma, .flowSequenceEnd] depth
      return .mapping [(key, value)] :: (← flowItems false depth)
    else
      let item ← node false false depth
      return item :: (← flowItems false depth)

def flowEntries (first : Bool) : Nat → Reader (List (Value × Value))
  | 0 => failure
  | depth + 1 => do
    if !first && !(← nextIn [.flowMappingEnd]) then expect .comma
    if ← nextIn [.flowMappingEnd] then
      skip
      return []
    else if ← nextIn [.key] then
      skip
      let key ← flowPart [.value, .comma, .flowMappingEnd] depth
      let value ← flowPartValue [.comma, .flowMappingEnd] depth
      return (key, value) :: (← flowEntries false depth)
    else
      let key ← node false false depth
      return (key, .empty) :: (← flowEntries false depth)

end

/-- Whether nothing but directives and markers of a document comes next. -/
def atDocumentEdge : Reader Bool := do
  match ← peek with
  | none | some (.version ..) | some (.handle ..) | some .documentStart | some .documentEnd =>
    return true
  | _ => return false

def root (depth : Nat) : Reader Value := do
  if ← nextIn [.documentStart] then
    skip
    if ← atDocumentEdge then return .empty else node true false depth
  else node true false depth

end Reader

/-- The handles that directives define, and the tokens behind them. A handle or a version is given
once, and the version is 1.1 or 1.2. -/
def directives? : Bool → List (String × String) → List Token →
    Option (List (String × String) × List Token)
  | versioned, handles, .version major minor :: ts =>
    if !versioned && major == 1 && (minor == 1 || minor == 2) then directives? true handles ts
    else none
  | versioned, handles, .handle name meaning :: ts =>
    if (handles.lookup name).isSome then none
    else directives? versioned (handles ++ [(name, meaning)]) ts
  | _, handles, ts => some (handles, ts)

def defaultHandles : List (String × String) := [("!", "!"), ("!!", "tag:yaml.org,2002:")]

/-- The tree of a document with the given tokens. Directives stand before a start marker only, and
nothing but end markers follows the root. -/
def Tree.ofTokens? (tokens : List Token) : Option Tree := do
  let (handles, rest) ← directives? false [] tokens
  if rest.isEmpty then none
  if rest.length < tokens.length && rest.head? != some .documentStart then none
  let source : Source := { tokens := rest, handles := handles ++ defaultHandles }
  let (root, source) ← (Reader.root (3 * rest.length + 3)).run source
  if source.tokens.all (· == .documentEnd) then return ⟨root, source.anchored⟩ else none

def tree? (text : String) : Option Tree := (tokens? text).bind Tree.ofTokens?

end StraightLine.Yaml
