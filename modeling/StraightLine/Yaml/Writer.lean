import StraightLine.Yaml.Text
import StraightLine.Yaml.Value

/-! # Writing YAML scalars

A text is written without quotes if it is read back as that text. Otherwise it is written in single
quotes, or, if it holds characters that cannot be written as they are, in double quotes with
escapes. -/
namespace StraightLine.Yaml

/-- Whether characters behind the first one need quotes; `spaced` says that a blank or break stands
before them. -/
def hasInnerIndicator : Bool → List Char → Bool
  | _, [] => false
  | spaced, c :: cs =>
    (c == ':' && atWordEnd cs) || (c == '#' && spaced) ||
      hasInnerIndicator (isBlank c || isBreak c) cs

def hasLeadingIndicator : List Char → Bool
  | [] => false
  | c :: cs => isIndicator c || ((c == '-' || c == '?' || c == ':') && atWordEnd cs)

def opensLikeMarker (cs : List Char) : Bool :=
  ['-', '-', '-'].isPrefixOf cs || ['.', '.', '.'].isPrefixOf cs

def plainAllowed (cs : List Char) : Bool :=
  cs.all (fun c => isPrintable c && !isBreak c) && cs.head? != some ' ' &&
    cs.getLast? != some ' ' && !opensLikeMarker cs && !hasLeadingIndicator cs &&
    !hasInnerIndicator (atWordEnd cs) cs.tail

def hasSpacedBreak : List Char → Bool
  | c :: d :: cs => (c == ' ' && isBreak d) || (isBreak c && d == ' ') || hasSpacedBreak (d :: cs)
  | _ => false

def singleAllowed (cs : List Char) : Bool := cs.all isPrintable && !hasSpacedBreak cs

/-- The inside of a single-quoted text. A quote is doubled, and the first character behind a break
is moved in by four spaces, which are dropped on reading. -/
def singleBody : Bool → List Char → List Char
  | broken, [] => if broken then [' ', ' ', ' ', ' '] else []
  | broken, c :: cs =>
    if isBreak c then c :: singleBody true cs
    else
      (if broken then [' ', ' ', ' ', ' '] else []) ++
        (if c == '\x27' then ['\x27', '\x27'] else [c]) ++ singleBody false cs

def hexDigit (n : Nat) : Char := (Nat.digitChar (n % 16)).toUpper

/-- The lowest `width` hexadecimal digits of a number. -/
def hex : Nat → Nat → List Char
  | 0, _ => []
  | width + 1, n => hexDigit (n / Nat.pow 16 width) :: hex width n

def escapeLetter? (c : Char) : Option Char :=
  match c with
  | '\x00' => some '0'
  | '\x07' => some 'a'
  | '\x08' => some 'b'
  | '\t' => some 't'
  | '\n' => some 'n'
  | '\x0b' => some 'v'
  | '\x0c' => some 'f'
  | '\r' => some 'r'
  | '\x1b' => some 'e'
  | '"' => some '"'
  | '\\' => some '\\'
  | '\u0085' => some 'N'
  | '\u2028' => some 'L'
  | '\u2029' => some 'P'
  | _ => none

def doubleChar (c : Char) : List Char :=
  match escapeLetter? c with
  | some letter => ['\\', letter]
  | none =>
    if isPrintable c then [c]
    else if c.toNat ≤ 0xFF then ['\\', 'x'] ++ hex 2 c.toNat
    else if c.toNat ≤ 0xFFFF then ['\\', 'u'] ++ hex 4 c.toNat
    else ['\\', 'U'] ++ hex 8 c.toNat

def writeChars (cs : List Char) : List Char :=
  if !isAmbiguous (String.ofList cs) && plainAllowed cs then cs
  else if singleAllowed cs then ['\x27'] ++ singleBody false cs ++ ['\x27']
  else ['"'] ++ cs.flatMap doubleChar ++ ['"']

def writeText (text : String) : String := String.ofList (writeChars text.toList)

end StraightLine.Yaml
