import StraightLine.Yaml.Scalar

/-! # Reading tokens

Tokens are read one by one from the start of a text. -/
namespace StraightLine.Yaml

/-! ## Anchors, tags and directives

A tag is a handle and a suffix; directives before a document say what handles stand for. The parts
of tags are strings of octets, one character each. -/

/-- Characters of a tag. Those that structure flow collections are read only where nothing else can
follow. -/
def isTagChar (enclosed : Bool) (c : Char) : Bool :=
  isNameChar c ||
    c ∈ [';', '/', '?', ':', '@', '&', '=', '+', '$', '.', '!', '~', '*', '\x27', '(', ')'] ||
    (enclosed && (c == ',' || c == '[' || c == ']'))

/-- How many octets are still to come behind an octet of a character, `pending` before it. -/
def pendingOctets? (pending octet : Nat) : Option Nat :=
  if pending ≠ 0 then if 0x80 ≤ octet ∧ octet < 0xC0 then some (pending - 1) else none
  else if octet < 0x80 then some 0
  else if 0xC0 ≤ octet ∧ octet < 0xE0 then some 1
  else if 0xE0 ≤ octet ∧ octet < 0xF0 then some 2
  else if 0xF0 ≤ octet ∧ octet < 0xF8 then some 3
  else none

/-- Octets of a tag and the rest behind them. An octet may be written as a percent sign and two
hexadecimal digits; then all octets of its character are. -/
def tagOctets (enclosed : Bool) : Nat → List Char → Option (List Char × List Char)
  | pending, [] => if pending = 0 then some ([], []) else none
  | pending, c :: cs =>
    if c == '%' then
      match cs with
      | high :: low :: rest => do
        let octet := (← digit? 16 high) * 16 + (← digit? 16 low)
        let (text, rest) ← tagOctets enclosed (← pendingOctets? pending octet) rest
        return (Char.ofNat octet :: text, rest)
      | _ => none
    else if pending ≠ 0 then none
    else if isTagChar enclosed c then
      (tagOctets enclosed 0 cs).map fun (text, rest) => (c :: text, rest)
    else some ([], c :: cs)

/-- A part of a tag: octets up to the first zero. -/
def tagText (octets : List Char) : String := String.ofList (octets.takeWhile (· != '\x00'))

def tagPart? (enclosed : Bool) (cs : List Char) : Option (String × List Char) :=
  match tagOctets enclosed 0 cs with
  | some ([], _) | none => none
  | some (octets, rest) => some (tagText octets, rest)

def tagHandle? : List Char → Option (List Char × List Char)
  | '!' :: cs =>
    let name := cs.takeWhile isNameChar
    match cs.dropWhile isNameChar with
    | '!' :: rest => some ('!' :: name ++ ['!'], rest)
    | rest => some ('!' :: name, rest)
  | _ => none

def isClosedHandle (handle : List Char) : Bool := 1 < handle.length && handle.getLast? == some '!'

/-- A tag that is not enclosed. Without a closed handle, all but the first exclamation mark is the
suffix, and the mark alone is a tag without a handle. -/
def openTag? (cs : List Char) : Option (Token × List Char) := do
  let (handle, rest) ← tagHandle? cs
  if isClosedHandle handle then
    let (suffix, rest) ← tagPart? false rest
    return (.tag (String.ofList handle) suffix, rest)
  else
    let (octets, rest) ← tagOctets false 0 rest
    let suffix := tagText (handle.tail ++ octets)
    return (if suffix.isEmpty then .tag "" "!" else .tag "!" suffix, rest)

def tag? (flow : Bool) (cs : List Char) : Option (Token × List Char) := do
  let (token, rest) ←
    match cs with
    | '!' :: '<' :: cs =>
      match tagPart? true cs with
      | some (text, '>' :: rest) => some (Token.tag "" text, rest)
      | _ => none
    | _ => openTag? cs
  if atWordEnd rest || (flow && rest.head? == some ',') then return (token, rest) else none

def anchorName? (cs : List Char) : Option (String × List Char) :=
  let name := cs.takeWhile isNameChar
  let rest := cs.dropWhile isNameChar
  if name.isEmpty then none
  else if atWordEnd rest || rest.head?.any (· ∈ ['?', ':', ',', ']', '\x7d', '%', '@', '\x60']) then
    some (String.ofList name, rest)
  else none

def versionNumber? (cs : List Char) : Option (Nat × List Char) :=
  let digits := cs.takeWhile Char.isDigit
  if 9 < digits.length then none
  else (digits? 10 digits).map (·, cs.dropWhile Char.isDigit)

def versionDirective? (cs : List Char) : Option (Token × List Char) := do
  match ← versionNumber? (cs.dropWhile isBlank) with
  | (major, '.' :: rest) =>
    let (minor, rest) ← versionNumber? rest
    return (.version major minor, rest)
  | _ => none

def handleDirective? (cs : List Char) : Option (Token × List Char) := do
  let (handle, rest) ← tagHandle? (cs.dropWhile isBlank)
  if !isClosedHandle handle && handle != ['!'] then none
  if !rest.head?.any isBlank then none
  let (meaning, rest) ← tagPart? true (rest.dropWhile isBlank)
  if atWordEnd rest then return (.handle (String.ofList handle) meaning, rest) else none

def directive? (cs : List Char) : Option (Token × List Char) :=
  let rest := cs.dropWhile isNameChar
  if !atWordEnd rest then none
  else match String.ofList (cs.takeWhile isNameChar) with
    | "YAML" => versionDirective? rest
    | "TAG" => handleDirective? rest
    | _ => none

/-! ## Tokens one by one

What follows a token decides whether it was a key: at a place where a key may stand, the place is
noted, and a colon on the same line turns what stands there into a key. -/

structure KeySpot extends Mark where
  /-- The number of tokens before it. -/
  place : Nat
  /-- Nothing but a key may stand there. -/
  required : Bool
deriving Repr, DecidableEq

/-- How many octets may stand between the start of a key and its colon. -/
def keyReach : Nat := 1024

/-- Whether the place of a key is out of reach: the key ends on its line. -/
def KeySpot.isExpired (k : KeySpot) (m : Mark) : Bool :=
  k.line < m.line || k.offset + keyReach < m.offset

structure Scan where
  cursor : Cursor
  /-- The tokens read so far, the latest first. -/
  tokens : List Token := []
  /-- The columns of the open block collections, the innermost first. -/
  indents : List Nat := []
  /-- Where a key of the innermost collection may stand. -/
  spot : Option KeySpot := none
  /-- The same for the collections around the open flow collections, the innermost first. -/
  outer : List (Option KeySpot) := []
  /-- Whether a key may stand here. -/
  keyAllowed : Bool := true
deriving Repr, DecidableEq

/-- The place behind blanks, comments and breaks, and whether a key may stand there. In block
collections a break allows a key, and a tab may not stand where a key may. A byte order mark at the
start of a line is passed over, though it takes up a column. -/
def skipGap (flow : Bool) : Bool → Bool → Mark → List Char → Bool × Cursor
  | keyAllowed, _, m, [] => (keyAllowed, { m with rest := [] })
  | keyAllowed, comment, m, c :: cs =>
    if isBreak c then skipGap flow (keyAllowed || !flow) false (m.after c) cs
    else if comment || c == '#' then skipGap flow keyAllowed true (m.after c) cs
    else if c == ' ' || (c == '\t' && (flow || !keyAllowed)) ||
        (c == '\ufeff' && m.column == 0) then
      skipGap flow keyAllowed false (m.after c) cs
    else (keyAllowed, { m with rest := c :: cs })

namespace Scan

def inFlow (s : Scan) : Bool := !s.outer.isEmpty

def leastColumn (s : Scan) : Nat := (s.indents.head?.map (· + 1)).getD 0

def emit (s : Scan) (token : Token) (rest : List Char) : Scan :=
  { s with tokens := token :: s.tokens, cursor := s.cursor.moveTo rest }

def emitMark (s : Scan) (token : Token) : Scan :=
  { s with tokens := token :: s.tokens, cursor := s.cursor.skip 1 }

def skipGap (s : Scan) : Scan :=
  let (keyAllowed, cursor) :=
    Yaml.skipGap s.inFlow s.keyAllowed false s.cursor.toMark s.cursor.rest
  { s with keyAllowed, cursor }

/-- Gives up a place where a key may stand; there is no result if one must. -/
def release? : Option KeySpot → Option (Option KeySpot)
  | some k => if k.required then none else some none
  | none => some none

def dropSpot? (s : Scan) : Option Scan := do
  return { s with spot := ← release? s.spot }

/-- Notes that a key may stand here. It must if the innermost block collection is at this column. -/
def noteSpot? (s : Scan) : Option Scan := do
  if s.keyAllowed then
    let _ ← release? s.spot
    let required := !s.inFlow && s.indents.head? == some s.cursor.column
    return { s with spot := some { s.cursor.toMark with place := s.tokens.length, required } }
  else return s

def expireSpots? (s : Scan) : Option Scan := do
  let expire (k : Option KeySpot) : Option (Option KeySpot) :=
    if k.any (·.isExpired s.cursor.toMark) then release? k else some k
  return { s with spot := ← expire s.spot, outer := ← s.outer.mapM expire }

/-- Closes the block collections to the right of a column, or all of them. -/
def closeBlocks (s : Scan) (column : Option Nat) : Scan :=
  if s.inFlow then s
  else
    let isClosed (indent : Nat) : Bool := column.all (· < indent)
    { s with
      tokens := (s.indents.takeWhile isClosed).map (fun _ => .blockEnd) ++ s.tokens
      indents := s.indents.dropWhile isClosed }

/-- Opens a block collection at a column, unless one is open there. Its token comes behind the first
`place` tokens. -/
def openBlock (s : Scan) (token : Token) (column place : Nat) : Scan :=
  if s.inFlow || !s.indents.head?.all (· < column) then s
  else
    { s with
      tokens := s.tokens.insertIdx (s.tokens.length - place) token
      indents := column :: s.indents }

/-- Opens a block collection here, where a key must be allowed. -/
def openHere? (s : Scan) (token : Token) : Option Scan :=
  if s.inFlow then some s
  else if s.keyAllowed then some (s.openBlock token s.cursor.column s.tokens.length)
  else none

/-- A directive or document marker, which closes all block collections. -/
def document? (s : Scan) (token : Token) (rest : List Char) : Option Scan := do
  let s ← (s.closeBlocks none).dropSpot?
  return { s with keyAllowed := false }.emit token rest

def openFlow? (s : Scan) (token : Token) : Option Scan := do
  let s ← s.noteSpot?
  return { s with spot := none, outer := s.spot :: s.outer, keyAllowed := true }.emitMark token

def closeFlow? (s : Scan) (token : Token) : Option Scan := do
  let s ← s.dropSpot?
  let s := match s.outer with
    | spot :: outer => { s with spot, outer }
    | [] => s
  return { s with keyAllowed := false }.emitMark token

def comma? (s : Scan) : Option Scan := do
  let s ← s.dropSpot?
  return { s with keyAllowed := true }.emitMark .comma

def entry? (s : Scan) : Option Scan := do
  let s ← (← s.openHere? .blockSequence).dropSpot?
  return { s with keyAllowed := true }.emitMark .entry

def key? (s : Scan) : Option Scan := do
  let s ← (← s.openHere? .blockMapping).dropSpot?
  return { s with keyAllowed := !s.inFlow }.emitMark .key

/-- The colon before a value. It turns what stands at the place of a key into one. -/
def value? (s : Scan) : Option Scan :=
  match s.spot with
  | some k =>
    let s := { s with
      tokens := s.tokens.insertIdx (s.tokens.length - k.place) .key
      spot := none
      keyAllowed := false }
    some ((s.openBlock .blockMapping k.column k.place).emitMark .value)
  | none => do
    let s ← s.openHere? .blockMapping
    return { s with keyAllowed := !s.inFlow }.emitMark .value

/-- A token that a key may open with. -/
def content? (s : Scan) (read : Option (Token × List Char)) : Option Scan := do
  let s ← s.noteSpot?
  let (token, rest) ← read
  return { s with keyAllowed := false }.emit token rest

/-- A plain scalar. A key may stand behind it if it is followed by a break. -/
def plain? (s : Scan) : Option Scan := do
  let (text, rest, broken) ←
    Yaml.plain s.inFlow s.leastColumn .none s.cursor.column s.cursor.rest
  let s ← s.content? (some (.scalar (String.ofList text) .plain, rest))
  return { s with keyAllowed := broken }

def block? (s : Scan) (style : ScalarStyle) (rest : List Char) : Option Scan := do
  let s ← s.dropSpot?
  let (text, rest) ←
    blockScalar? (style == .folded) (s.indents.head?.getD 0) s.leastColumn rest
  return { s with keyAllowed := true }.emit (.scalar (String.ofList text) style) rest

/-- The next token, which opens with the character `c` before the rest `cs`. -/
def token? (s : Scan) (c : Char) (cs : List Char) : Option Scan :=
  let named (token : String → Token) := (anchorName? cs).map fun (name, rest) => (token name, rest)
  let quoted (style : ScalarStyle) (read : Option (List Char × List Char)) :=
    read.map fun (text, rest) => (Token.scalar (String.ofList text) style, rest)
  if s.cursor.column == 0 && c == '%' then do
    let (token, rest) ← directive? cs
    s.document? token (← restOfLine? rest)
  else if s.cursor.column == 0 && atStartMarker (c :: cs) then
    s.document? .documentStart (cs.drop 2)
  else if s.cursor.column == 0 && atEndMarker (c :: cs) then s.document? .documentEnd (cs.drop 2)
  else if c == '[' then s.openFlow? .flowSequence
  else if c == '\x7b' then s.openFlow? .flowMapping
  else if c == ']' then s.closeFlow? .flowSequenceEnd
  else if c == '\x7d' then s.closeFlow? .flowMappingEnd
  else if c == ',' then s.comma?
  else if c == '-' && atWordEnd cs then s.entry?
  else if c == '?' && (s.inFlow || atWordEnd cs) then s.key?
  else if c == ':' && (s.inFlow || atWordEnd cs) then s.value?
  else if c == '*' then s.content? (named .reference)
  else if c == '&' then s.content? (named .anchor)
  else if c == '!' then s.content? (tag? s.inFlow (c :: cs))
  else if c == '|' && !s.inFlow then s.block? .literal cs
  else if c == '>' && !s.inFlow then s.block? .folded cs
  else if c == '\x27' then s.content? (quoted .single (singleQuoted .none cs))
  else if c == '"' then s.content? (quoted .double (doubleQuoted (.text .none) cs))
  else if opensPlain s.inFlow (c :: cs) then s.plain?
  else none

/-- The tokens of a text, at most `steps` of them from here on. -/
def tokens? : Nat → Scan → Option (List Token)
  | 0, _ => none
  | steps + 1, s => do
    let s ← s.skipGap.expireSpots?
    let s := s.closeBlocks (some s.cursor.column)
    match s.cursor.rest with
    | [] => return (← (s.closeBlocks none).dropSpot?).tokens.reverse
    | c :: cs => tokens? steps (← s.token? c cs)

end Scan

def tokens? (text : String) : Option (List Token) :=
  let cs := text.toList
  if cs.all isPermitted then Scan.tokens? (cs.length + 1) { cursor := { rest := unifyBreaks cs } }
  else none

end StraightLine.Yaml
