import StraightLine.Settings.Basic
import StraightLine.Yaml.Tree
import StraightLine.Yaml.Writer

/-! # Settings documents

Settings are kept in YAML: a version, a preset, and what differs from the preset. A document is read
field by field, and the settings that it describes are checked before they are used. -/
namespace StraightLine

open Yaml (Tree Value)

structure Document where
  version : Option Nat
  preset : String
  aliasFields : Option Bool
  aliasExpressions : Option Bool
  naming : Option Naming
  style : Option Style
deriving Repr, DecidableEq

abbrev Fields := List (String × Value)

namespace Fields

/-- Whether a known name occurs twice. -/
def repeats (fields : Fields) (known : List String) : Bool :=
  known.any fun name => 1 < (fields.map Prod.fst).count name

/-- The value of a field that must read in a certain way if it is there. -/
def read? {α : Type} (fields : Fields) (name : String) (read : Value → Option α) :
    Option (Option α) :=
  match fields.lookup name with
  | none => some none
  | some value => (read value).map some

/-- The value of a field that may also stand for nothing. -/
def readOptional? {α : Type} (fields : Fields) (name : String) (read : Value → Option α) :
    Option (Option α) :=
  match fields.lookup name with
  | none => some none
  | some value =>
    match value.isPresent? with
    | none => none
    | some false => some none
    | some true => (read value).map some

end Fields

def Naming.fieldNames : List String :=
  ["axis_letters", "temp_prefix", "phi_prefix", "phi_retry_suffixes"]

/-- Naming settings from a section; missing fields have their default values. -/
def Naming.ofValue? (tree : Tree) (value : Value) : Option Naming := do
  let fields ← tree.fields? value
  if Fields.repeats fields Naming.fieldNames then none
  let base : Naming := {}
  return {
    axisLetters := (← Fields.read? fields "axis_letters" Value.text?).getD base.axisLetters
    tempStem := (← Fields.read? fields "temp_prefix" Value.text?).getD base.tempStem
    phiStem := (← Fields.read? fields "phi_prefix" Value.text?).getD base.phiStem
    phiRetries :=
      (← Fields.read? fields "phi_retry_suffixes" (Value.natBelow? (Nat.pow 2 64))).getD
        base.phiRetries }

def Style.fieldNames : List String :=
  ["declaration_keyword", "indent", "terminator", "return_keyword"]

def Style.ofValue? (tree : Tree) (value : Value) : Option Style := do
  let fields ← tree.fields? value
  if Fields.repeats fields Style.fieldNames then none
  let base : Style := {}
  return {
    declarationKeyword :=
      (← Fields.read? fields "declaration_keyword" Value.text?).getD base.declarationKeyword
    indent := (← Fields.read? fields "indent" Value.text?).getD base.indent
    terminator := (← Fields.read? fields "terminator" Value.text?).getD base.terminator
    returnKeyword := (← Fields.read? fields "return_keyword" Value.text?).getD base.returnKeyword }

namespace Document

def names : List String :=
  ["version", "preset", "alias_fields", "alias_expressions", "naming", "emit"]

/-- The document that a tree holds. Names that no field has and fields given twice are refused. -/
def ofTree? (tree : Tree) : Option Document := do
  let fields ← tree.fields? tree.root
  if fields.any (fun (name, _) => name ∉ names) || Fields.repeats fields names then none
  let version ← Fields.readOptional? fields "version" (Value.natBelow? (Nat.pow 2 32))
  let preset ← (← fields.lookup "preset").text?
  let aliasFields ← Fields.readOptional? fields "alias_fields" Value.bool?
  let aliasExpressions ← Fields.readOptional? fields "alias_expressions" Value.bool?
  let naming ← Fields.readOptional? fields "naming" (Naming.ofValue? tree)
  let style ← Fields.readOptional? fields "emit" (Style.ofValue? tree)
  return { version, preset, aliasFields, aliasExpressions, naming, style }

/-- The settings that a document describes. The version is checked first, then the sections, then
the preset. -/
def settings (d : Document) : Except SettingsError Settings := do
  match d.version with
  | none => throw .missingVersion
  | some 1 => pure ()
  | some version => throw (.unsupportedVersion version)
  if let some naming := d.naming then naming.validate
  if let some style := d.style then style.validate
  match Preset.ofName? d.preset with
  | none => throw (.unknownPreset d.preset)
  | some preset =>
    let base := preset.settings
    let settings : Settings :=
      { aliasFields := d.aliasFields.getD base.aliasFields
        aliasExpressions := d.aliasExpressions.getD base.aliasExpressions
        naming := d.naming.getD base.naming
        style := d.style.getD base.style }
    settings.validate
    return settings

end Document

def Settings.ofYaml (text : String) : Except SettingsError Settings :=
  match (Yaml.tree? text).bind Document.ofTree? with
  | none => .error .malformed
  | some document => document.settings

/-- The settings described by a file; a missing file has no bytes. -/
def Settings.ofFile (bytes : Option ByteArray) : Except SettingsError Settings :=
  match bytes.bind String.fromUTF8? with
  | none => .error .unreadable
  | some text => Settings.ofYaml text

def documentLine (indent : String) (name : String) (value : String) : String :=
  indent ++ name ++ ": " ++ value ++ "\n"

/-- The document of settings: all fields in a fixed order. -/
def Settings.toYaml (s : Settings) : String :=
  let truth (b : Bool) : String := if b then "true" else "false"
  String.join
    [documentLine "" "version" "1",
     documentLine "" "preset" (s.matchingPreset.getD default).name,
     documentLine "" "alias_fields" (truth s.aliasFields),
     documentLine "" "alias_expressions" (truth s.aliasExpressions),
     "naming:\n",
     documentLine "  " "axis_letters" (Yaml.writeText s.naming.axisLetters),
     documentLine "  " "temp_prefix" (Yaml.writeText s.naming.tempStem),
     documentLine "  " "phi_prefix" (Yaml.writeText s.naming.phiStem),
     documentLine "  " "phi_retry_suffixes" (toString s.naming.phiRetries),
     "emit:\n",
     documentLine "  " "declaration_keyword" (Yaml.writeText s.style.declarationKeyword),
     documentLine "  " "indent" (Yaml.writeText s.style.indent),
     documentLine "  " "terminator" (Yaml.writeText s.style.terminator),
     documentLine "  " "return_keyword" (Yaml.writeText s.style.returnKeyword)]

end StraightLine
