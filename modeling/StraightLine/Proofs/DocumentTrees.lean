import StraightLine.Proofs.ScannedLines
import StraightLine.Yaml.Tree

/-! # Trees of outlines

An outline has names at the margin, each with a text or with names and texts of its own. Its lines
are scanned to the tokens of nested mappings, from which the tree is read. -/
namespace StraightLine.Yaml

section Reading

variable {α : Type} {ts : List Token} {v : Value}

def Value.word (text : String) : Value := .scalar text .plain none

def Source.withTokens (src : Source) (ts : List Token) : Source := { src with tokens := ts }

/-- Tokens from which a value is read, whatever follows them, as soon as the depth exceeds their
number. -/
structure Reads (ts : List Token) (v : Value) : Prop where
  opens : ∃ t us, ts = t :: us ∧ t ∉ [.key, .value, .blockEnd]
  read : ∀ (flush : Bool) (depth : Nat) (src : Source) (rest : List Token), ts.length < depth →
    (Reader.node true flush depth).run (src.withTokens (ts ++ rest)) =
      some (v, src.withTokens rest)

theorem reads_scalar (text : String) (style : ScalarStyle) :
    Reads [.scalar text style] (.scalar text style none) where
  opens := ⟨_, [], rfl, by simp⟩
  read flush depth src rest hdepth := by
    rw [List.length_singleton] at hdepth
    obtain ⟨depth, rfl⟩ : ∃ d, depth = d + 2 := ⟨depth - 2, by omega⟩
    cases flush <;> rfl

/-- The value behind a colon. -/
theorem Reads.blockPart (h : Reads ts v) {depth : Nat} (hdepth : ts.length < depth) (src : Source)
    (rest : List Token) :
    (Reader.blockPart true [.key, .value, .blockEnd] (depth + 1)).run
        (src.withTokens (ts ++ rest)) =
      some (v, src.withTokens rest) := by
  rw [← h.read true depth src rest hdepth]
  obtain ⟨t, us, rfl, ht⟩ := h.opens
  show ((if decide (t ∈ [Token.key, .value, .blockEnd]) then pure Value.empty
    else Reader.node true true depth : Reader Value)).run _ = _
  rw [decide_eq_false ht]
  rfl

def entryTokens (name : String) (ts : List Token) : List Token :=
  .key :: .scalar name .plain :: .value :: ts

@[simp] theorem length_entryTokens (name : String) (ts : List Token) :
    (entryTokens name ts).length = ts.length + 3 := rfl

/-- One entry after the other is read. -/
theorem blockEntries_of_reads (as : List α) (name : α → String) (tokens : α → List Token)
    (value : α → Value) (h : ∀ a ∈ as, Reads (tokens a) (value a)) {depth : Nat}
    (hdepth : (as.flatMap fun a => entryTokens (name a) (tokens a)).length < depth) (src : Source)
    (rest : List Token) :
    (Reader.blockEntries depth).run (src.withTokens
        ((as.flatMap fun a => entryTokens (name a) (tokens a)) ++ .blockEnd :: rest)) =
      some (as.map fun a => (.word (name a), value a), src.withTokens rest) := by
  induction as generalizing depth src with
  | nil =>
    obtain ⟨depth, rfl⟩ := Nat.exists_eq_succ_of_ne_zero (Nat.ne_of_gt hdepth)
    rfl
  | cons a as ih =>
    rw [List.forall_mem_cons] at h
    rw [List.flatMap_cons, List.length_append, length_entryTokens] at hdepth
    obtain ⟨depth, rfl⟩ : ∃ d, depth = d + 4 := ⟨depth - 4, by omega⟩
    have hvalue := h.1.blockPart (show (tokens a).length < depth + 2 by omega) src
      ((as.flatMap fun a => entryTokens (name a) (tokens a)) ++ .blockEnd :: rest)
    have hothers := ih h.2 (show _ < depth + 3 by omega) src
    rw [List.flatMap_cons, List.append_assoc]
    show ((do
      let v ← Reader.blockPart true [.key, .value, .blockEnd] (depth + 3)
      return (Value.word (name a), v) :: (← Reader.blockEntries (depth + 3))) :
        Reader _).run (src.withTokens (tokens a ++ _)) = _
    rw [StateT.run_bind, hvalue]
    show (((Reader.blockEntries (depth + 3)).run _).bind _) = _
    rw [hothers]
    rfl

theorem reads_mapping (as : List α) (name : α → String) (tokens : α → List Token)
    (value : α → Value) (h : ∀ a ∈ as, Reads (tokens a) (value a)) :
    Reads (.blockMapping :: ((as.flatMap fun a => entryTokens (name a) (tokens a)) ++ [.blockEnd]))
      (.mapping (as.map fun a => (.word (name a), value a))) where
  opens := ⟨_, _, rfl, by simp⟩
  read flush depth src rest hdepth := by
    rw [List.length_cons, List.length_append, List.length_singleton] at hdepth
    obtain ⟨depth, rfl⟩ : ∃ d, depth = d + 2 := ⟨depth - 2, by omega⟩
    have hentries :=
      blockEntries_of_reads as name tokens value h (show _ < depth by omega) src rest
    rw [List.cons_append, List.append_assoc, List.singleton_append]
    have hnode : ∀ us, (Reader.node true flush (depth + 2)).run
        (src.withTokens (.blockMapping :: us)) =
        ((Reader.blockEntries depth).run (src.withTokens us)).bind
          fun (es, src) => some (.mapping es, src) := by
      intro us
      cases flush <;> rfl
    rw [hnode, hentries]
    rfl

/-- A document of one block mapping. -/
theorem ofTokens?_of_reads (h : Reads (.blockMapping :: ts) v) :
    Tree.ofTokens? (.blockMapping :: ts) = some ⟨v, []⟩ := by
  have hread := h.read false (3 * (ts.length + 1) + 3) ⟨[], defaultHandles, [], []⟩ []
    (by rw [List.length_cons]; omega)
  rw [List.append_nil] at hread
  have hroot : (Reader.root (3 * (ts.length + 1) + 3)).run
      ⟨.blockMapping :: ts, defaultHandles, [], []⟩ = some (v, ⟨[], defaultHandles, [], []⟩) :=
    hread
  simp [Tree.ofTokens?, directives?, hroot]

end Reading

section Outlines

def Inscription.value (i : Inscription) : Value := .scalar i.text i.style none

/-- A name at the margin with a text, or with names and texts further in. -/
inductive TopEntry where
  | field (label : Label) (text : Inscription)
  | group (label : Label) (first : Label × Inscription) (others : List (Label × Inscription))

namespace TopEntry

def label : TopEntry → Label
  | field label _ | group label _ _ => label

def lines : TopEntry → List Line
  | field label text => [⟨0, label, some text⟩]
  | group label first others =>
    ⟨0, label, none⟩ :: (first :: others).map fun (label, text) => ⟨2, label, some text⟩

def content : TopEntry → List Token
  | field _ text => [text.token]
  | group _ first others =>
    .blockMapping :: ((first :: others).flatMap (fun f => entryTokens f.1.name [f.2.token]) ++
      [.blockEnd])

def value : TopEntry → Value
  | field _ text => text.value
  | group _ first others =>
    .mapping ((first :: others).map fun f => (.word f.1.name, f.2.value))

theorem reads_content (e : TopEntry) : Reads e.content e.value := by
  cases e with
  | field label text => exact reads_scalar text.text text.style
  | group label first others =>
    exact reads_mapping (first :: others) (fun f => f.1.name) (fun f => [f.2.token])
      (fun f => f.2.value) fun f _ => reads_scalar f.2.text f.2.style

theorem indent_lines (es : List TopEntry) : Line.indent (es.flatMap lines) = 0 := by
  cases es with
  | nil => rfl
  | cons e es => cases e <;> rfl

theorem laid_fields (fs : List (Label × Inscription)) {ls : List Line}
    (hindent : Line.indent ls = 0) (h : Line.Laid ls) :
    Line.Laid ((fs.map fun (label, text) => (⟨2, label, some text⟩ : Line)) ++ ls) := by
  induction fs with
  | nil => exact h
  | cons f fs ih =>
    refine ⟨fun _ => ?_, ih⟩
    cases fs with
    | nil => exact hindent ▸ Nat.zero_le 2
    | cons => exact Nat.le_refl 2

theorem laid_lines (es : List TopEntry) : Line.Laid (es.flatMap lines) := by
  induction es with
  | nil => trivial
  | cons e es ih =>
    have hindent := indent_lines es
    cases e with
    | field label text => exact ⟨fun _ => Nat.le_of_eq hindent, ih⟩
    | group label first others => exact ⟨nofun, laid_fields (first :: others) hindent ih⟩

theorem tokens_fields (fs : List (Label × Inscription)) (ls : List Line) (column : Nat)
    (indents : List Nat) (ts : List Token) :
    Line.tokens ((fs.map fun (label, text) => (⟨column, label, some text⟩ : Line)) ++ ls)
        (column :: indents) ts =
      Line.tokens ls (column :: indents)
        ((fs.flatMap fun f => entryTokens f.1.name [f.2.token]).reverse ++ ts) := by
  induction fs generalizing ts with
  | nil => rfl
  | cons f fs ih =>
    have henter : Scan.enter column (column :: indents) ts = (column :: indents, .key :: ts) := by
      simp [Scan.enter]
    rw [List.map_cons, List.cons_append, Line.tokens, henter, ih, List.flatMap_cons]
    simp [entryTokens, Label.token]

/-- A line at the margin closes the collection further in. -/
theorem tokens_close {ls : List Line} (h : Line.indent ls = 0) (ts : List Token) :
    Line.tokens ls [2, 0] ts = Line.tokens ls [0] (.blockEnd :: ts) := by
  cases ls with
  | nil => rfl
  | cons l ls =>
    rw [Line.tokens, Line.tokens, show l.column = 0 from h]
    rfl

theorem tokens_lines (es : List TopEntry) (ts : List Token) :
    Line.tokens (es.flatMap lines) [0] ts =
      .blockEnd :: ((es.flatMap fun e => entryTokens e.label.name e.content).reverse ++ ts) := by
  induction es generalizing ts with
  | nil => rfl
  | cons e es ih =>
    rw [List.flatMap_cons, List.flatMap_cons, List.reverse_append]
    cases e with
    | field label text =>
      show Line.tokens (es.flatMap lines) [0]
        (text.token :: .value :: label.token :: .key :: ts) = _
      rw [ih]
      simp [entryTokens, content, TopEntry.label, Label.token]
    | group label first others =>
      show Line.tokens ((first :: others).map (fun (label, text) => ⟨2, label, some text⟩) ++
        es.flatMap lines) [2, 0] (.blockMapping :: .value :: label.token :: .key :: ts) = _
      rw [tokens_fields, tokens_close (indent_lines es), ih]
      simp [entryTokens, content, TopEntry.label, Label.token]

/-- The tree of an outline. -/
theorem tree?_text {es : List TopEntry} (h : es ≠ []) :
    tree? (String.ofList (Line.text (es.flatMap lines))) =
      some ⟨.mapping (es.map fun e => (.word e.label.name, e.value)), []⟩ := by
  have hopen : Line.tokens (es.flatMap lines) [] [] =
      Line.tokens (es.flatMap lines) [0] [.blockMapping] := by
    obtain ⟨e, es, rfl⟩ := List.exists_cons_of_ne_nil h
    cases e <;> rfl
  have htokens : (Line.tokens (es.flatMap lines) [] []).reverse = .blockMapping ::
      ((es.flatMap fun e => entryTokens e.label.name e.content) ++ [.blockEnd]) := by
    rw [hopen, tokens_lines]
    simp
  rw [tree?, Line.tokens?_text (laid_lines es), htokens]
  exact ofTokens?_of_reads (reads_mapping es (fun e => e.label.name) content value
    fun e _ => e.reads_content)

end TopEntry

end Outlines

end StraightLine.Yaml
