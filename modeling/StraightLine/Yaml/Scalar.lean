import StraightLine.Yaml.Text
import StraightLine.Yaml.Value

/-! # Scalars

The three ways to write a scalar, each read up to where the scalar ends. -/
namespace StraightLine.Yaml

/-! ## Quoted scalars

Quoted scalars are read from behind the opening quote to behind the closing one. They may span
lines, and no line of them may open with a document marker. -/

def before (cs : List Char) (result : Option (List Char × List Char)) :
    Option (List Char × List Char) :=
  result.map fun (text, rest) => (cs ++ text, rest)

/-- A text up to a single quote, and the rest behind it. A doubled quote stands for one. -/
def singleQuoted : Gap → List Char → Option (List Char × List Char)
  | _, [] => none
  | gap, '\x27' :: '\x27' :: cs => before (gap.text ++ ['\x27']) (singleQuoted .none cs)
  | gap, c :: cs =>
    if c == '\x27' then some (gap.text, cs)
    else if isBlank c then singleQuoted (gap.addBlank c) cs
    else if isBreak c then if atMarker cs then none else singleQuoted (gap.addBreak c) cs
    else before (gap.text ++ [c]) (singleQuoted .none cs)

def escaped? : Char → Option Char
  | '0' => some '\x00'
  | 'a' => some '\x07'
  | 'b' => some '\x08'
  | 't' | '\t' => some '\t'
  | 'n' => some '\n'
  | 'v' => some '\x0b'
  | 'f' => some '\x0c'
  | 'r' => some '\r'
  | 'e' => some '\x1b'
  | ' ' => some ' '
  | '"' => some '"'
  | '/' => some '/'
  | '\\' => some '\\'
  | 'N' => some '\u0085'
  | '_' => some '\u00a0'
  | 'L' => some '\u2028'
  | 'P' => some '\u2029'
  | _ => none

def hexDigits? : Char → Option Nat
  | 'x' => some 2
  | 'u' => some 4
  | 'U' => some 8
  | _ => none

def character? (n : Nat) : Option Char := if n.isValidChar then some (Char.ofNat n) else none

inductive QuoteState where
  | text (gap : Gap)
  /-- Behind a backslash. -/
  | escape
  /-- Inside a numbered character: digits still to come, and the number so far. -/
  | number (digits value : Nat)
deriving Repr, DecidableEq

def doubleQuoted : QuoteState → List Char → Option (List Char × List Char)
  | _, [] => none
  | .text gap, c :: cs =>
    if c == '"' then some (gap.text, cs)
    else if c == '\\' then before gap.text (doubleQuoted .escape cs)
    else if isBlank c then doubleQuoted (.text (gap.addBlank c)) cs
    else if isBreak c then
      if atMarker cs then none else doubleQuoted (.text (gap.addBreak c)) cs
    else before (gap.text ++ [c]) (doubleQuoted (.text .none) cs)
  | .escape, c :: cs =>
    if isBreak c then
      if atMarker cs then none else doubleQuoted (.text (.breaks none [])) cs
    else match hexDigits? c with
      | some digits => doubleQuoted (.number digits 0) cs
      | none => (escaped? c).bind fun e => before [e] (doubleQuoted (.text .none) cs)
  | .number digits value, c :: cs =>
    (digit? 16 c).bind fun d =>
      let value := value * 16 + d
      if digits ≤ 1 then
        (character? value).bind fun e => before [e] (doubleQuoted (.text .none) cs)
      else doubleQuoted (.number (digits - 1) value) cs

/-! ## Plain scalars

A plain scalar is written without quotes. It ends at a comment, at a colon behind which a word ends,
at a document marker, in block collections at a line that is not indented enough, and in flow
collections at a character that structures them. -/

def opensPlain (flow : Bool) : List Char → Bool
  | [] => false
  | c :: cs =>
    if c == '-' then !atWordEnd cs
    else if c == '?' || c == ':' then !flow && !atWordEnd cs
    else !(isBlank c || isBreak c || isIndicator c)

/-- Whether the next word is not part of the scalar: it opens a line that is not indented enough, a
comment, or a document marker. -/
def Gap.endsScalar (gap : Gap) (flow : Bool) (indent column : Nat) (cs : List Char) : Bool :=
  (gap.spansLines && !flow && column < indent) || (column == 0 && atMarker cs) ||
    (gap != .none && cs.head? == some '#')

/-- Whether a character ends a word and the scalar with it. -/
def endsPlain (flow : Bool) (c : Char) (cs : List Char) : Bool :=
  (c == ':' && atWordEnd cs) || (flow && isFlowIndicator c)

/-- A colon that neither ends a scalar nor belongs to it. -/
def isStrayColon (flow : Bool) (c : Char) (cs : List Char) : Bool :=
  flow && c == ':' && cs.head?.any fun d => isFlowIndicator d || d == '?'

/-- The text of a plain scalar, the rest behind it and the gap that follows it, and whether that gap
spans lines. A tab may not indent a further line. -/
def plain (flow : Bool) (indent : Nat) :
    Gap → Nat → List Char → Option (List Char × List Char × Bool)
  | gap, _, [] => some ([], [], gap.spansLines)
  | gap, column, c :: cs =>
    if isBlank c then
      if gap.spansLines && column < indent && c == '\t' then none
      else plain flow indent (gap.addBlank c) (column + 1) cs
    else if isBreak c then plain flow indent (gap.addBreak c) 0 cs
    else if gap.endsScalar flow indent column (c :: cs) then some ([], c :: cs, gap.spansLines)
    else if isStrayColon flow c cs then none
    else if endsPlain flow c cs then some ([], c :: cs, gap.spansLines)
    else (plain flow indent .none (column + 1) cs).map fun (text, rest, broken) =>
      (gap.text ++ c :: text, rest, broken)

/-! ## Block scalars

A block scalar is a header and the indented lines behind it. Literal scalars keep their line breaks;
in folded scalars a break between two lines that open with a word becomes a space. -/

/-- What becomes of the breaks at the end of a block scalar. -/
inductive Chomping where
  /-- All breaks are dropped. -/
  | strip
  /-- The first break is kept. -/
  | clip
  /-- All breaks are kept. -/
  | keep
deriving Repr, DecidableEq

structure BlockHeader where
  chomping : Chomping := .clip
  indent : Option Nat := none
deriving Repr, DecidableEq

def chomping? : Char → Option Chomping
  | '-' => some .strip
  | '+' => some .keep
  | _ => none

def chompingMark : List Char → Chomping × List Char
  | [] => (.clip, [])
  | c :: cs =>
    match chomping? c with
    | some chomping => (chomping, cs)
    | none => (.clip, c :: cs)

/-- A digit of indentation, if there is one, and the rest. Zero is refused. -/
def indentMark? : List Char → Option (Option Nat × List Char)
  | [] => some (none, [])
  | c :: cs =>
    match digit? 10 c with
    | some 0 => none
    | some n => some (some n, cs)
    | none => some (none, c :: cs)

def blockHeader? (cs : List Char) : Option (BlockHeader × List Char) := do
  match ← indentMark? cs with
  | (some n, rest) =>
    let (chomping, rest) := chompingMark rest
    return (⟨chomping, some n⟩, rest)
  | (none, _) =>
    let (chomping, rest) := chompingMark cs
    if rest.length < cs.length then
      let (indent, rest) ← indentMark? rest
      return (⟨chomping, indent⟩, rest)
    else return ({}, cs)

/-- The rest of a line that may hold blanks and a comment only, with its break. -/
def restOfLine? (cs : List Char) : Option (List Char) :=
  match cs.dropWhile isBlank with
  | '#' :: rest => some ((rest.dropWhile (!isBreak ·)).tail)
  | [] => some []
  | c :: rest => if isBreak c then some rest else none

/-- What stands before a line of a block scalar: breaks of empty lines, the deepest indentation
seen, the column of the line, and the line with all that follows. -/
structure Margin where
  breaks : List Char := []
  deepest : Nat
  column : Nat
  rest : List Char
deriving Repr, DecidableEq

/-- The margin before a line. Spaces are passed up to the indentation, or all of them as long as it
is not known; a tab may not stand among them. -/
def margin? (indent : Option Nat) : Nat → Nat → List Char → Option Margin
  | deepest, column, [] => some ⟨[], max deepest column, column, []⟩
  | deepest, column, c :: cs =>
    let within := indent.all (column < ·)
    if c == ' ' && within then margin? indent deepest (column + 1) cs
    else if c == '\t' && within then none
    else if isBreak c then
      (margin? indent (max deepest column) 0 cs).map fun m => { m with breaks := c :: m.breaks }
    else some ⟨[], max deepest column, column, c :: cs⟩

/-- Breaks between the previous line and this one: the one that ended the previous line, if any, and
those of empty lines. `words` says that both lines open with a word. -/
def lineGap (folded words : Bool) (ended : Option Char) (breaks : List Char) : List Char :=
  if folded && words && ended == some '\n' then if breaks.isEmpty then [' '] else breaks
  else ended.toList ++ breaks

/-- The lines of a block scalar, at most `lines` of them, from a margin on. The previous line ended
in `ended`, and `spaced` says that it opened with a blank. -/
def blockLines (folded : Bool) (chomping : Chomping) (indent : Nat) :
    Nat → Option Char → Bool → Margin → Option (List Char × List Char)
  | 0, _, _, _ => none
  | lines + 1, ended, spaced, m =>
    if m.column == indent && !m.rest.isEmpty then do
      let blank := m.rest.head?.any isBlank
      let line := m.rest.takeWhile (!isBreak ·)
      let behind := m.rest.dropWhile (!isBreak ·)
      let next ← margin? (some indent) 0 0 behind.tail
      let (text, rest) ← blockLines folded chomping indent lines behind.head? blank next
      return (lineGap folded (!spaced && !blank) ended m.breaks ++ line ++ text, rest)
    else
      let kept := match chomping with
        | .strip => []
        | .clip => ended.toList
        | .keep => ended.toList ++ m.breaks
      some (kept, m.rest)

/-- A block scalar from behind its mark, and the rest behind it. The lines are indented by at least
`least`, and by at least one space; an indentation in the header counts from `outer`. -/
def blockScalar? (folded : Bool) (outer least : Nat) (cs : List Char) :
    Option (List Char × List Char) := do
  let (header, rest) ← blockHeader? cs
  let lines ← restOfLine? rest
  let given := header.indent.map (outer + ·)
  let m ← margin? given 0 0 lines
  let indent := given.getD (max (max m.deepest least) 1)
  blockLines folded header.chomping indent (lines.length + 1) none false m

end StraightLine.Yaml
