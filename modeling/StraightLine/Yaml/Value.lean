/-! # Tokens and values

What a document is made of, and what its scalars mean. -/
namespace StraightLine.Yaml

/-! ## Tokens of YAML

A text as marks, names and scalars. Block collections, which a text shows by indentation alone, are
opened and closed by tokens of their own. -/

inductive ScalarStyle where
  | plain
  | single
  | double
  | literal
  | folded
deriving Repr, DecidableEq

inductive Token where
  /-- The version of the format that a document asks for. -/
  | version (major minor : Nat)
  /-- A handle that tags may open with, and what it stands for. -/
  | handle (name meaning : String)
  | documentStart
  | documentEnd
  | blockSequence
  | blockMapping
  | blockEnd
  | flowSequence
  | flowSequenceEnd
  | flowMapping
  | flowMappingEnd
  /-- The dash before an item. -/
  | entry
  /-- The comma between items. -/
  | comma
  | key
  | value
  | reference (name : String)
  | anchor (name : String)
  /-- A tag as its handle, which may be empty, and the rest. -/
  | tag (handle suffix : String)
  | scalar (text : String) (style : ScalarStyle)
deriving Repr, DecidableEq

/-! ## YAML values

A document as nested mappings, sequences and scalars. A scalar keeps its text, how it was written,
and its tag; what the text means is decided by the reader of the field. -/

inductive Value where
  /-- The node with a given anchor. -/
  | reference (anchor : Nat)
  | scalar (text : String) (style : ScalarStyle) (tag : Option String)
  | sequence (items : List Value)
  | mapping (entries : List (Value × Value))
deriving Repr

/-- What stands where nothing is written. -/
def Value.empty : Value := .scalar "" .plain none

/-! ## Meaning of scalars

An unquoted text may stand for nothing, a truth value or a number. Any scalar may be read as
text. -/

def digit? (base : Nat) (c : Char) : Option Nat :=
  let value :=
    if c.isDigit then c.toNat - '0'.toNat
    else if 'a' ≤ c && c ≤ 'f' then c.toNat - 'a'.toNat + 10
    else if 'A' ≤ c && c ≤ 'F' then c.toNat - 'A'.toNat + 10
    else base
  if value < base then some value else none

def digitsFrom? (base : Nat) (n : Nat) : List Char → Option Nat
  | [] => some n
  | c :: cs => (digit? base c).bind fun d => digitsFrom? base (n * base + d) cs

def digits? (base : Nat) (cs : List Char) : Option Nat :=
  if cs.isEmpty then none else digitsFrom? base 0 cs

/-- The number behind a base mark: hexadecimal, octal or binary. -/
def marked? : List Char → Option Nat
  | '0' :: 'x' :: cs => digits? 16 cs
  | '0' :: 'o' :: cs => digits? 8 cs
  | '0' :: 'b' :: cs => digits? 2 cs
  | _ => none

/-- The text behind a leading sign out of `signs`, or the text itself. -/
def dropSign (signs : List Char) : List Char → List Char
  | c :: cs => if c ∈ signs then cs else c :: cs
  | [] => []

/-- Digits with a superfluous leading zero, which are a text and not a number. -/
def isPaddedNumber (cs : List Char) : Bool :=
  match dropSign ['-', '+'] cs with
  | '0' :: c :: rest => (c :: rest).all Char.isDigit
  | _ => false

def natural? (cs : List Char) : Option Nat :=
  let unsigned := dropSign ['+'] cs
  match marked? unsigned with
  | some n => some n
  | none => if isPaddedNumber cs then none else digits? 10 unsigned

def negative? : List Char → Option Nat
  | '-' :: cs =>
    match marked? cs with
    | some n => some n
    | none => if isPaddedNumber ('-' :: cs) then none else digits? 10 cs
  | _ => none

/-- Integers as far as they are recognised: 128 bits wide. -/
def isInteger (cs : List Char) : Bool :=
  (natural? cs).any (· < Nat.pow 2 128) || (negative? cs).any (· ≤ Nat.pow 2 127)

/-- The exponent of a decimal, `none` if malformed: its sign and its size. -/
def exponent? : List Char → Option (Bool × Nat)
  | [] => some (false, 0)
  | c :: cs =>
    if c == 'e' || c == 'E' then
      match cs with
      | '-' :: ds => (digits? 10 ds).map (true, ·)
      | '+' :: ds => (digits? 10 ds).map (false, ·)
      | ds => (digits? 10 ds).map (false, ·)
    else none

/-- Whether a decimal rounds to a finite double. Its exponent is the difference `up - down`. -/
def isFinite (mantissa up down : Nat) : Bool :=
  let digits := (Nat.toDigits 10 mantissa).length
  if mantissa == 0 || digits + up < 308 + down then true
  else if 310 + down < digits + up then false
  else mantissa * Nat.pow 10 (up - down) <
    (Nat.pow 2 1024 - Nat.pow 2 970) * Nat.pow 10 (down - up)

def isDecimal (cs : List Char) : Bool :=
  let whole := cs.takeWhile Char.isDigit
  let rest := cs.dropWhile Char.isDigit
  let (fraction, rest) := match rest with
    | '.' :: ds => (ds.takeWhile Char.isDigit, ds.dropWhile Char.isDigit)
    | _ => ([], rest)
  match digits? 10 (whole ++ fraction), exponent? rest with
  | some mantissa, some (true, e) => isFinite mantissa 0 (fraction.length + e)
  | some mantissa, some (false, e) => isFinite mantissa e fraction.length
  | _, _ => false

def isFloat (cs : List Char) : Bool :=
  let text := String.ofList cs
  let unsigned := dropSign ['+'] cs
  if unsigned.length < cs.length && (unsigned.head?.any fun c => c == '+' || c == '-') then false
  else
    String.ofList unsigned ∈ [".inf", ".Inf", ".INF"] || text ∈ ["-.inf", "-.Inf", "-.INF"] ||
      text ∈ [".nan", ".NaN", ".NAN"] || isDecimal (dropSign ['-'] unsigned)

def isNull (text : String) : Bool := text ∈ ["", "null", "Null", "NULL", "~"]

def bool? (text : String) : Option Bool :=
  if text ∈ ["true", "True", "TRUE"] then some true
  else if text ∈ ["false", "False", "FALSE"] then some false
  else none

/-- Whether an unquoted text would not be read as that text, or might not be by other readers. -/
def isAmbiguous (text : String) : Bool :=
  isNull text || (bool? text).isSome || isInteger text.toList || isPaddedNumber text.toList ||
    isFloat text.toList

def nullTag : String := "tag:yaml.org,2002:null"

def boolTag : String := "tag:yaml.org,2002:bool"

def intTag : String := "tag:yaml.org,2002:int"

namespace Value

def text? : Value → Option String
  | .scalar text _ _ => some text
  | _ => none

/-- The text of a scalar that may stand for more than a text: it is unquoted, or a literal block
under the given tag. -/
def word? (tag : String) : Value → Option String
  | .scalar text .plain _ => some text
  | .scalar text .literal found => if found == some tag then some text else none
  | _ => none

def bool? (value : Value) : Option Bool := (value.word? boolTag).bind Yaml.bool?

def natBelow? (bound : Nat) (value : Value) : Option Nat :=
  (value.word? intTag).bind fun text => (natural? text.toList).filter (· < bound)

/-- Whether a value stands for something. There is no answer if it is tagged as nothing and is
something, or is not written at all. -/
def isPresent? : Value → Option Bool
  | .scalar text .plain none => some (!isNull text)
  | .scalar text .plain (some tag) =>
    if tag != nullTag then some true
    else if isNull text && !text.isEmpty then some false
    else none
  | _ => some true

end Value

end StraightLine.Yaml
