import StraightLine.Proofs.DocumentTrees
import StraightLine.Proofs.FreshNames
import StraightLine.Settings.Document

/-! # Settings documents are read back

The document of settings is an outline whose texts are those of the settings, so its tree has a
field for each of them. Admissible settings have no line feeds in their texts, and they are restored
from these fields whichever preset the document names. -/
namespace StraightLine

open Yaml (Tree Value ScalarStyle Label Inscription TopEntry Line plainAllowed)

section Admissible

/-- The style settings that are admissible. -/
theorem Style.validate_eq_ok {s : Style} :
    s.validate = .ok () ↔
      isIdentifier s.declarationKeyword = true ∧ isIdentifier s.returnKeyword = true ∧
        (∀ c ∈ s.indent.toList, c = ' ' ∨ c = '\t') ∧ '\n' ∉ s.terminator.toList := by
  have hindent : (!s.indent.toList.all fun c => c == ' ' || c == '\t') = false ↔
      ∀ c ∈ s.indent.toList, c = ' ' ∨ c = '\t' := by simp
  have hterminator : s.terminator.toList.any (· == '\n') = false ↔ '\n' ∉ s.terminator.toList := by
    simp [List.any_eq_false, List.forall_mem_ne']
  rw [← hindent, ← hterminator, Style.validate]
  simp only [bind_eq_ok, Unique.exists_iff, PUnit.default_eq_unit, requireIdentifier_eq_ok]
  cases !s.indent.toList.all fun c => c == ' ' || c == '\t'
  all_goals cases s.terminator.toList.any (· == '\n')
  all_goals simp [bind_eq_ok, throw, throwThe, MonadExceptOf.throw, pure, Except.pure]

theorem Naming.phiRetries_le {n : Naming} (h : n.validate = .ok ()) : n.phiRetries ≤ 10 := by
  simp only [Naming.validate, bind_eq_ok] at h
  obtain ⟨⟨⟩, -, ⟨⟩, -, ⟨⟩, -, h⟩ := h
  split at h
  next => cases h
  next hle => exact Nat.not_lt.1 hle

theorem newline_not_mem_of_isIdentifier {name : String} (h : isIdentifier name = true) :
    '\n' ∉ name.toList := by
  intro hmem
  exact absurd (List.all_eq_true.1 (all_of_isIdentifier h) _ hmem) (by decide)

/-- Settings that a document holds line by line: no text goes over a line, and the number of retries
has at most two digits. -/
structure Settings.Writable (s : Settings) : Prop where
  axisLetters : '\n' ∉ s.naming.axisLetters.toList
  tempStem : '\n' ∉ s.naming.tempStem.toList
  phiStem : '\n' ∉ s.naming.phiStem.toList
  phiRetries : s.naming.phiRetries ≤ 10
  declarationKeyword : '\n' ∉ s.style.declarationKeyword.toList
  indent : '\n' ∉ s.style.indent.toList
  terminator : '\n' ∉ s.style.terminator.toList
  returnKeyword : '\n' ∉ s.style.returnKeyword.toList

theorem Settings.writable_of_validate {s : Settings} (h : s.validate = .ok ()) : s.Writable := by
  have hadmissible := Settings.naming_admissible h
  rw [Settings.validate, bind_eq_ok] at h
  obtain ⟨⟨⟩, hnaming, hstyle⟩ := h
  obtain ⟨hdeclaration, hreturn, hindent, hterminator⟩ := Style.validate_eq_ok.1 hstyle
  exact {
    axisLetters := fun hmem => absurd (List.all_eq_true.1 hadmissible.axes _ hmem) (by decide)
    tempStem := newline_not_mem_of_isIdentifier hadmissible.temp
    phiStem := newline_not_mem_of_isIdentifier hadmissible.phi
    phiRetries := Naming.phiRetries_le hnaming
    declarationKeyword := newline_not_mem_of_isIdentifier hdeclaration
    indent := fun hmem => absurd (hindent _ hmem) (by decide)
    terminator := hterminator
    returnKeyword := newline_not_mem_of_isIdentifier hreturn }

end Admissible

section Outline

def Yaml.Label.of (name : String)
    (h : name.toList ≠ [] ∧ plainAllowed name.toList = true ∧
      name.toList.length ≤ 256 := by decide) : Label :=
  ⟨name, h.1, h.2.1, h.2.2⟩

namespace Yaml.Inscription

def ofText (text : String) (h : '\n' ∉ text.toList) : Inscription :=
  ⟨writeChars text.toList, text, writtenStyle text.toList, scribed_writeChars h⟩

def word (text : String) (h : text.toList ≠ [] ∧ plainAllowed text.toList = true) : Inscription :=
  ⟨text.toList, text, .plain, .plain h.1 h.2⟩

def truth (b : Bool) : Inscription :=
  word (if b then "true" else "false") (by cases b <;> decide)

def number (n : Nat) (h : n ≤ 10) : Inscription :=
  word (toString n) ((by decide : ∀ n ≤ 10, (toString n).toList ≠ [] ∧
    plainAllowed (toString n).toList = true) n h)

def preset (p : Preset) : Inscription := word p.name (by cases p <;> decide)

end Yaml.Inscription

def Settings.preset (s : Settings) : Preset := s.matchingPreset.getD default

def Settings.entries (s : Settings) (h : s.Writable) : List TopEntry :=
  [.field (.of "version") (.word "1" (by decide)),
    .field (.of "preset") (.preset s.preset),
    .field (.of "alias_fields") (.truth s.aliasFields),
    .field (.of "alias_expressions") (.truth s.aliasExpressions),
    .group (.of "naming") (.of "axis_letters", .ofText s.naming.axisLetters h.axisLetters)
      [(.of "temp_prefix", .ofText s.naming.tempStem h.tempStem),
        (.of "phi_prefix", .ofText s.naming.phiStem h.phiStem),
        (.of "phi_retry_suffixes", .number s.naming.phiRetries h.phiRetries)],
    .group (.of "emit")
      (.of "declaration_keyword", .ofText s.style.declarationKeyword h.declarationKeyword)
      [(.of "indent", .ofText s.style.indent h.indent),
        (.of "terminator", .ofText s.style.terminator h.terminator),
        (.of "return_keyword", .ofText s.style.returnKeyword h.returnKeyword)]]

def Yaml.Line.string (l : Line) : String :=
  String.ofList
    (List.replicate l.column ' ' ++ (l.label.name.toList ++ ':' :: (l.content ++ ['\n'])))

theorem Yaml.Line.ofList_text (ls : List Line) :
    String.ofList (text ls) = String.join (ls.map string) := by
  induction ls with
  | nil => rfl
  | cons l ls ih =>
    rw [List.map_cons, String.join_cons, ← ih, string, ← String.ofList_append, text]
    simp

theorem Yaml.Line.string_value {column : Nat} {indent : String} (label : Label) (i : Inscription)
    (h : indent.toList = List.replicate column ' ') :
    string ⟨column, label, some i⟩ =
      documentLine indent label.name (String.ofList i.written) := by
  apply String.toList_injective
  simp [string, documentLine, content, h]

theorem Yaml.Line.string_name (label : Label) :
    string ⟨0, label, none⟩ = label.name ++ ":\n" := by
  apply String.toList_injective
  simp [string, content]

/-- The document of settings is the text of its entries. -/
theorem Settings.toYaml_eq (s : Settings) (h : s.Writable) :
    s.toYaml = String.ofList (Line.text ((s.entries h).flatMap TopEntry.lines)) := by
  have hmargin : "".toList = List.replicate 0 ' ' := rfl
  have hinner : "  ".toList = List.replicate 2 ' ' := by decide
  have htext : ∀ text h, String.ofList (Inscription.ofText text h).written = Yaml.writeText text :=
    fun _ _ => rfl
  have hword : ∀ text h, String.ofList (Inscription.word text h).written = text :=
    fun _ _ => String.ofList_toList
  have hnaming : "naming:\n" = "naming" ++ ":\n" := by decide
  have hemit : "emit:\n" = "emit" ++ ":\n" := by decide
  -- the names of sections stand alone, so their colons are part of the text
  rw [Yaml.Line.ofList_text, Settings.toYaml, hnaming, hemit]
  simp only [Settings.entries, List.flatMap_cons, List.flatMap_nil, TopEntry.lines, List.map_cons,
    List.map_nil, List.cons_append, List.nil_append, List.append_nil, Yaml.Line.string_name,
    Yaml.Line.string_value _ _ hmargin, Yaml.Line.string_value _ _ hinner, htext,
    Yaml.Inscription.truth, Yaml.Inscription.number, Yaml.Inscription.preset, hword]
  rfl

end Outline

section Fields

theorem Fields.readOptional?_eq_some {α : Type} {fields : Fields} {name : String} {value : Value}
    {read : Value → Option α} {a : α} (hfield : fields.lookup name = some value)
    (hpresent : value.isPresent? = some true) (hread : read value = some a) :
    Fields.readOptional? fields name read = some (some a) := by
  simp [Fields.readOptional?, hfield, hpresent, hread]

theorem Naming.ofValue?_mapping (tree : Tree) (n : Naming) (h : n.phiRetries ≤ 10)
    (s₁ s₂ s₃ : ScalarStyle) :
    Naming.ofValue? tree (.mapping [(.word "axis_letters", .scalar n.axisLetters s₁ none),
      (.word "temp_prefix", .scalar n.tempStem s₂ none),
      (.word "phi_prefix", .scalar n.phiStem s₃ none),
      (.word "phi_retry_suffixes", .word (toString n.phiRetries))]) = some n := by
  have hnumber : ∀ k ≤ 10, Value.natBelow? (Nat.pow 2 64) (.word (toString k)) = some k := by
    decide
  show ((Value.natBelow? (Nat.pow 2 64) (.word (toString n.phiRetries))).map some).bind _ = _
  rw [hnumber _ h]
  rfl

theorem Style.ofValue?_mapping (tree : Tree) (s : Style) (s₁ s₂ s₃ s₄ : ScalarStyle) :
    Style.ofValue? tree (.mapping
      [(.word "declaration_keyword", .scalar s.declarationKeyword s₁ none),
        (.word "indent", .scalar s.indent s₂ none),
        (.word "terminator", .scalar s.terminator s₃ none),
        (.word "return_keyword", .scalar s.returnKeyword s₄ none)]) = some s :=
  rfl

def Settings.document (s : Settings) : Document where
  version := some 1
  preset := s.preset.name
  aliasFields := some s.aliasFields
  aliasExpressions := some s.aliasExpressions
  naming := some s.naming
  style := some s.style

/-- All fields of a document are found in the tree of its entries. -/
theorem Settings.ofTree?_entries (s : Settings) (h : s.Writable) :
    Document.ofTree? ⟨.mapping ((s.entries h).map fun e => (.word e.label.name, e.value)), []⟩ =
      some s.document := by
  let tree : Tree := ⟨.mapping ((s.entries h).map fun e => (.word e.label.name, e.value)), []⟩
  let fields : Fields := (s.entries h).map fun e => (e.label.name, e.value)
  have hfields : tree.fields? tree.root = some fields := rfl
  have htruth : ∀ b : Bool, (Inscription.truth b).value.isPresent? = some true ∧
      (Inscription.truth b).value.bool? = some b := by decide
  have hversion : Fields.readOptional? fields "version" (Value.natBelow? (Nat.pow 2 32)) =
      some (some 1) :=
    Fields.readOptional?_eq_some (show fields.lookup "version" = some (.word "1") from rfl)
      (by decide) (by decide)
  have haliasFields : Fields.readOptional? fields "alias_fields" Value.bool? =
      some (some s.aliasFields) :=
    Fields.readOptional?_eq_some rfl (htruth s.aliasFields).1 (htruth s.aliasFields).2
  have haliasExpressions : Fields.readOptional? fields "alias_expressions" Value.bool? =
      some (some s.aliasExpressions) :=
    Fields.readOptional?_eq_some rfl (htruth s.aliasExpressions).1 (htruth s.aliasExpressions).2
  have hnaming : Fields.readOptional? fields "naming" (Naming.ofValue? tree) =
      some (some s.naming) :=
    Fields.readOptional?_eq_some rfl rfl (Naming.ofValue?_mapping tree s.naming h.phiRetries _ _ _)
  have hstyle : Fields.readOptional? fields "emit" (Style.ofValue? tree) = some (some s.style) :=
    Fields.readOptional?_eq_some rfl rfl (Style.ofValue?_mapping tree s.style _ _ _ _)
  show Document.ofTree? tree = _
  simp only [Document.ofTree?, hfields, Option.bind_eq_bind, Option.bind_some]
  -- no field is unknown, and none is given twice
  refine (if_neg ?_).trans ?_
  · exact Bool.false_ne_true
  · rw [hversion, haliasFields, haliasExpressions, hnaming, hstyle]
    rfl

theorem Preset.ofName?_name (p : Preset) : Preset.ofName? p.name = some p := by
  have hlower : p.name.toLower = p.name := by
    apply String.toList_injective
    show (p.name.map Char.toLower).toList = p.name.toList
    cases p <;> simp [name]
  rw [ofName?, hlower]
  cases p <;> rfl

/-- The document restores all settings, whatever preset it names. -/
theorem Settings.settings_document {s : Settings} (h : s.validate = .ok ()) :
    s.document.settings = .ok s := by
  have hparts := h
  rw [Settings.validate, bind_eq_ok] at hparts
  obtain ⟨⟨⟩, hnaming, hstyle⟩ := hparts
  simp only [Document.settings, Settings.document, hnaming, hstyle, Preset.ofName?_name,
    Option.getD_some, h]
  rfl

end Fields

section RoundTrip

theorem Settings.ofYaml_toYaml {s : Settings} (h : s.validate = .ok ()) :
    Settings.ofYaml s.toYaml = .ok s := by
  have hwritable := Settings.writable_of_validate h
  have htree : Yaml.tree? s.toYaml = some ⟨.mapping ((s.entries hwritable).map
      fun e => (.word e.label.name, e.value)), []⟩ := by
    rw [s.toYaml_eq hwritable]
    exact TopEntry.tree?_text (List.cons_ne_nil _ _)
  rw [Settings.ofYaml, htree, Option.bind_some, s.ofTree?_entries hwritable]
  exact Settings.settings_document h

/-- What a document makes of a preset. -/
def Document.overlay (d : Document) (p : Preset) : Settings where
  aliasFields := d.aliasFields.getD p.settings.aliasFields
  aliasExpressions := d.aliasExpressions.getD p.settings.aliasExpressions
  naming := d.naming.getD p.settings.naming
  style := d.style.getD p.settings.style

/-- What a document makes of the preset that it names, checked. -/
def Document.layered (d : Document) : Except SettingsError Settings :=
  match Preset.ofName? d.preset with
  | none => throw (.unknownPreset d.preset)
  | some p => do
    (d.overlay p).validate
    return d.overlay p

/-- Settings are checked before a document gives them. -/
theorem Document.settings_eq_ok {d : Document} {s : Settings} (h : d.settings = .ok s) :
    ∃ p, Preset.ofName? d.preset = some p ∧ s = d.overlay p ∧ s.validate = .ok () := by
  have hskip : ∀ {check : Except SettingsError Unit} {rest : Except SettingsError Settings},
      (do check; rest) = .ok s → rest = .ok s := by
    intro check rest hrest
    obtain ⟨⟨⟩, -, hrest⟩ := bind_eq_ok.1 hrest
    exact hrest
  -- a document that gives settings has a version, and passed the checks of the sections it has
  have hlast : d.layered = .ok s := by
    unfold Document.settings at h
    dsimp only at h
    split at h
    next => cases h
    next =>
      split at h
      next =>
        replace h := hskip h
        split at h
        next => exact hskip h
        next => exact h
      next =>
        split at h
        next => exact hskip h
        next => exact h
    next => cases h
  unfold Document.layered at hlast
  split at hlast
  next => cases hlast
  next p hp =>
    obtain ⟨⟨⟩, hvalid, hsettings⟩ := bind_eq_ok.1 hlast
    cases hsettings
    exact ⟨p, hp, rfl, hvalid⟩

theorem Settings.validate_of_ofYaml {text : String} {s : Settings}
    (h : Settings.ofYaml text = .ok s) : s.validate = .ok () := by
  unfold Settings.ofYaml at h
  split at h
  next => cases h
  next d _ =>
    obtain ⟨p, -, -, hvalid⟩ := Document.settings_eq_ok h
    exact hvalid

/-- The check does not look at the switches, nor at more of a terminator than its line feeds. -/
theorem Settings.validate_of_terminator {s : Settings} (h : s.validate = .ok ())
    (aliasFields aliasExpressions : Bool) {terminator : String} (hline : '\n' ∉ terminator.toList) :
    Settings.validate
      { s with aliasFields, aliasExpressions, style := { s.style with terminator } } = .ok () := by
  rw [Settings.validate, bind_eq_ok] at h ⊢
  obtain ⟨⟨⟩, hnaming, hstyle⟩ := h
  obtain ⟨hdeclaration, hreturn, hindent, -⟩ := Style.validate_eq_ok.1 hstyle
  exact ⟨(), hnaming, Style.validate_eq_ok.2 ⟨hdeclaration, hreturn, hindent, hline⟩⟩

/-- Admissible settings are restored from their document, whatever the switches are and whatever
stands in a terminator of one line. What any text gives is admissible, so a second round changes
nothing. -/
theorem Settings.documents_restore_settings :
    (∀ s : Settings, s.validate = .ok () → Settings.ofYaml s.toYaml = .ok s) ∧
      (∀ (s : Settings) (aliasFields aliasExpressions : Bool) (terminator : String),
        s.validate = .ok () → '\n' ∉ terminator.toList →
          let t : Settings :=
            { s with aliasFields, aliasExpressions, style := { s.style with terminator } }
          t.validate = .ok () ∧ Settings.ofYaml t.toYaml = .ok t) ∧
      ∀ (text : String) (s : Settings), Settings.ofYaml text = .ok s →
        s.validate = .ok () ∧ Settings.ofYaml s.toYaml = .ok s := by
  refine ⟨fun s => Settings.ofYaml_toYaml, ?_, ?_⟩
  · intro s aliasFields aliasExpressions terminator hvalid hline
    have hother := Settings.validate_of_terminator hvalid aliasFields aliasExpressions hline
    exact ⟨hother, Settings.ofYaml_toYaml hother⟩
  · intro text s h
    have hvalid := Settings.validate_of_ofYaml h
    exact ⟨hvalid, Settings.ofYaml_toYaml hvalid⟩

theorem Settings.documents_restore_settings_of_quotes :
    let s : Settings := { aliasExpressions := false, style := { terminator := " ~: # '\"\t\x07 " } }
    s.validate = .ok () ∧ Settings.ofYaml s.toYaml = .ok s :=
  Settings.documents_restore_settings.2.1 {} true false " ~: # '\"\t\x07 " (by decide) (by decide)

end RoundTrip

end StraightLine
