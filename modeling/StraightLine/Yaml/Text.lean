/-! # Text of a document

The classes of characters that decide how YAML text is read and written, places in a text, and gaps
between words. -/
namespace StraightLine.Yaml

def isBlank (c : Char) : Bool := c == ' ' || c == '\t'

/-- Line breaks, once the spellings of a line feed are unified. -/
def isBreak (c : Char) : Bool := c == '\n' || c == '\u2028' || c == '\u2029'

def isPermitted (c : Char) : Bool :=
  let n := c.toNat
  n == 0x09 || n == 0x0A || n == 0x0D || (0x20 ≤ n && n ≤ 0x7E) || n == 0x85 ||
    (0xA0 ≤ n && n ≤ 0xFFFD) || 0x10000 ≤ n

/-- Characters that are written as they are; a byte order mark is not. -/
def isPrintable (c : Char) : Bool :=
  let n := c.toNat
  n == 0x0A || (0x20 ≤ n && n ≤ 0x7E) || (0xA0 ≤ n && n ≤ 0xFFFD && n != 0xFEFF) ||
    0x10000 ≤ n

/-- Characters of anchors, tag handles and directive names. -/
def isNameChar (c : Char) : Bool := c.isAlphanum || c == '_' || c == '-'

def isFlowIndicator (c : Char) : Bool :=
  c == ',' || c == '[' || c == ']' || c == '\x7b' || c == '\x7d'

/-- Characters that open something other than a plain text, wherever they stand. -/
def isIndicator (c : Char) : Bool :=
  isFlowIndicator c || c == '#' || c == '&' || c == '*' || c == '!' || c == '|' || c == '>' ||
    c == '\x27' || c == '"' || c == '%' || c == '@' || c == '\x60'

/-- Whether a word ends here: at the end, a blank or a break. -/
def atWordEnd : List Char → Bool
  | [] => true
  | c :: _ => isBlank c || isBreak c

def unifyBreaks : List Char → List Char
  | [] => []
  | '\r' :: '\n' :: cs => '\n' :: unifyBreaks cs
  | c :: cs => (if c == '\r' || c == '\u0085' then '\n' else c) :: unifyBreaks cs

def atStartMarker : List Char → Bool
  | '-' :: '-' :: '-' :: cs => atWordEnd cs
  | _ => false

def atEndMarker : List Char → Bool
  | '.' :: '.' :: '.' :: cs => atWordEnd cs
  | _ => false

def atMarker (cs : List Char) : Bool := atStartMarker cs || atEndMarker cs

/-! ## Places in a text

A cursor is the rest of a text together with the place at which it starts. -/

/-- A place in a text: the octets before it, the lines before it, and the characters before it on
its own line. -/
structure Mark where
  offset : Nat := 0
  line : Nat := 0
  column : Nat := 0
deriving Repr, DecidableEq, Inhabited

def Mark.after (m : Mark) (c : Char) : Mark :=
  if isBreak c then ⟨m.offset + c.utf8Size, m.line + 1, 0⟩
  else ⟨m.offset + c.utf8Size, m.line, m.column + 1⟩

structure Cursor extends Mark where
  rest : List Char
deriving Repr, DecidableEq, Inhabited

namespace Cursor

def skip : Nat → Cursor → Cursor
  | 0, p => p
  | n + 1, p =>
    match p.rest with
    | [] => p
    | c :: cs => skip n { p.toMark.after c with rest := cs }

def moveTo (p : Cursor) (rest : List Char) : Cursor := p.skip (p.rest.length - rest.length)

end Cursor

/-! ## Gaps between words

A line break inside a scalar is folded: blanks around it are dropped, one break alone becomes a
space, and further breaks are kept. -/

/-- Blanks and breaks between two words of a scalar. -/
inductive Gap where
  /-- Blanks on one line. -/
  | blanks (cs : List Char)
  /-- A first break, absent if it was escaped, and the breaks behind it. -/
  | breaks (first : Option Char) (more : List Char)
deriving Repr, DecidableEq

namespace Gap

def none : Gap := .blanks []

/-- A gap with one more blank; blanks next to a break are dropped. -/
def addBlank (c : Char) : Gap → Gap
  | .blanks cs => .blanks (cs ++ [c])
  | .breaks first more => .breaks first more

def addBreak (c : Char) : Gap → Gap
  | .blanks _ => .breaks (some c) []
  | .breaks first more => .breaks first (more ++ [c])

def spansLines : Gap → Bool
  | .blanks _ => false
  | .breaks .. => true

def text : Gap → List Char
  | .blanks cs => cs
  | .breaks (some '\n') [] => [' ']
  | .breaks (some '\n') more => more
  | .breaks (some c) more => c :: more
  | .breaks Option.none more => more

end Gap

end StraightLine.Yaml
