/-! # Settings of a session

Which nodes may be bound to names, how names are chosen, and how statements are written; and which
settings are admissible. -/
namespace StraightLine

/-- How binding names are chosen. -/
structure Naming where
  /-- Letter of each of the first components of a vector. -/
  axisLetters : String := "xyzw"
  /-- Stem of numbered temporaries. -/
  tempStem : String := "temp"
  /-- Stem of the names of merged values. -/
  phiStem : String := "phi"
  /-- How many digit suffixes are tried on a taken merge name. -/
  phiRetries : Nat := 9
deriving Repr, DecidableEq, Inhabited

/-- How statements are written. -/
structure Style where
  /-- Word that opens a declaration. -/
  declarationKeyword : String := "let"
  /-- One level of indentation. -/
  indent : String := "\t"
  /-- Text that closes a line without an ending of its own. -/
  terminator : String := ";"
  /-- Word that opens an output statement. -/
  returnKeyword : String := "return"
deriving Repr, DecidableEq, Inhabited

structure Settings where
  /-- Fresh vector fields may be bound to names. -/
  aliasFields : Bool := true
  /-- Nodes without a pending store may be bound to names. -/
  aliasExpressions : Bool := true
  naming : Naming := {}
  style : Style := {}
deriving Repr, DecidableEq, Inhabited

/-- Complete settings for a common purpose. -/
inductive Preset where
  /-- Shared subexpressions are bound to names. -/
  | optimized
  /-- Nothing is bound, so every use is written out. -/
  | inline
deriving Repr, DecidableEq

instance : Inhabited Preset := ⟨.optimized⟩

namespace Preset

def name : Preset → String
  | .optimized => "optimized"
  | .inline => "inline"

/-- The preset with a given name; capitals make no difference. -/
def ofName? (text : String) : Option Preset :=
  match text.toLower with
  | "optimized" => some .optimized
  | "inline" => some .inline
  | _ => none

def unknownMessage (text : String) : String :=
  "Unknown preset '" ++ text ++ "'. Valid presets: optimized, inline"

def aliasing : Preset → Bool
  | .optimized => true
  | .inline => false

def settings (p : Preset) : Settings :=
  { aliasFields := p.aliasing, aliasExpressions := p.aliasing }

end Preset

/-- The preset whose two switches these settings have, if any. -/
def Settings.matchingPreset (s : Settings) : Option Preset :=
  match s.aliasFields, s.aliasExpressions with
  | true, true => some .optimized
  | false, false => some .inline
  | _, _ => none

/-! ## Identifiers

The names that a kernel may introduce: an ASCII letter or underscore, then ASCII letters, digits
and underscores. -/

def isIdentifierStart (c : Char) : Bool := c.isAlpha || c == '_'

def isIdentifierPart (c : Char) : Bool := c.isAlphanum || c == '_'

/-- Whether a name is an identifier; the empty name is none. -/
def isIdentifier (name : String) : Bool :=
  match name.toList with
  | [] => false
  | c :: cs => isIdentifierStart c && cs.all isIdentifierPart

/-! ## Admissible settings

Settings are checked field by field in a fixed order, and the first field that is not admissible is
reported. -/

inductive SettingsError where
  /-- The number of axis letters is not between 1 and 8. -/
  | axisCount (found : Nat)
  /-- More suffixes than there are digits. -/
  | retryCount (found : Nat)
  | notIdentifier (field value : String)
  | repeatedAxis (letter : Char)
  | indentCharacters
  | terminatorNewline
  | missingVersion
  | unsupportedVersion (found : Nat)
  | unknownPreset (name : String)
  /-- The file cannot be read as text. -/
  | unreadable
  /-- The text is not a settings document. -/
  | malformed
deriving Repr, DecidableEq

namespace SettingsError

def rangeMessage (field : String) (value low high : Nat) (hint : String) : String :=
  "Invalid range for field '" ++ field ++ "': " ++ toString value ++ " not in " ++ toString low ++
    "..=" ++ toString high ++ ". " ++ hint

def message : SettingsError → String
  | .axisCount found =>
    rangeMessage "axis_letters" found 1 8 "Axis alphabet must name at least one component"
  | .retryCount found =>
    rangeMessage "phi_retry_suffixes" found 0 10 "Only single digit suffixes are tried"
  | .notIdentifier field value =>
    "Field '" ++ field ++ "' must be an identifier, got '" ++ value ++ "'"
  | .repeatedAxis letter => "axis_letters contains '" ++ letter.toString ++ "' twice"
  | .indentCharacters => "indent may only contain spaces and tabs"
  | .terminatorNewline => "terminator must not contain a newline"
  | .missingVersion =>
    "Missing 'version' field in configuration file. Add 'version: 1' to the top of your YAML file."
  | .unsupportedVersion found =>
    "Unsupported configuration version " ++ toString found ++ ". Supported versions: 1"
  | .unknownPreset name => Preset.unknownMessage name
  | .unreadable => "IO error"
  | .malformed => "YAML parsing error"

end SettingsError

def requireIdentifier (field value : String) : Except SettingsError Unit :=
  if isIdentifier value then .ok () else .error (.notIdentifier field value)

/-- The first element of a list that occurred before, `seen` included. -/
def firstRepeated (seen : List Char) : List Char → Option Char
  | [] => none
  | c :: cs => if c ∈ seen then some c else firstRepeated (c :: seen) cs

/-- Axis letters are one to eight distinct ASCII letters. -/
def Naming.checkAxes (letters : List Char) : Except SettingsError Unit :=
  if letters.length = 0 ∨ 8 < letters.length then .error (.axisCount letters.length)
  else if !letters.all Char.isAlpha then
    .error (.notIdentifier "axis_letters" (String.ofList letters))
  else match firstRepeated [] letters with
    | some c => .error (.repeatedAxis c)
    | none => .ok ()

def Naming.validate (n : Naming) : Except SettingsError Unit := do
  Naming.checkAxes n.axisLetters.toList
  requireIdentifier "temp_prefix" n.tempStem
  requireIdentifier "phi_prefix" n.phiStem
  if 10 < n.phiRetries then throw (.retryCount n.phiRetries)

def Style.validate (s : Style) : Except SettingsError Unit := do
  requireIdentifier "declaration_keyword" s.declarationKeyword
  requireIdentifier "return_keyword" s.returnKeyword
  if !s.indent.toList.all (fun c => c == ' ' || c == '\t') then throw .indentCharacters
  if s.terminator.toList.any (· == '\n') then throw .terminatorNewline

/-- Checks the naming settings, then the style settings. -/
def Settings.validate (s : Settings) : Except SettingsError Unit := do
  s.naming.validate
  s.style.validate

end StraightLine
