import StraightLine.Session.Emission
import Mathlib.Data.List.Basic

/-! # Runs of declarations

A layout is made in one pass that looks one statement ahead. The lines it gives are those of a
grouping: the statements are cut into runs of declarations, as long as they can be, and single
stores, and each of these blocks hangs from its first line. A sink that records lines ends at the
depth at which it began. -/
namespace StraightLine

def Statement.equation (s : Statement) : String := s.target.text ++ " = " ++ s.value.text

/-- Ends the last text in a semicolon and every other one in a comma. -/
def punctuated : List String → List String
  | [] => []
  | [last] => [last ++ ";"]
  | text :: next :: rest => (text ++ ",") :: punctuated (next :: rest)

/-- The lines of texts the others of which stand one level deeper than the first. -/
def hanging (depth : Nat) : List String → List (Nat × String)
  | [] => []
  | first :: others => (depth, first) :: others.map (depth + 1, ·)

/-- The steps by which texts are written one level deeper than the first of them. A text alone
opens no level. -/
def hangingSteps : List String → List LayoutStep
  | [] => []
  | [only] => [.line only]
  | first :: others => .line first :: .indent :: (others.map .line ++ [.outdent])

/-- Statements that are laid out together: declarations with a common keyword, or one store. -/
inductive Block where
  | declarations (first : Statement) (others : List Statement)
  | store (statement : Statement)
deriving Repr

namespace Block

def statements : Block → List Statement
  | declarations first others => first :: others
  | store s => [s]

def declares : Block → Bool
  | declarations .. => true
  | store _ => false

def texts (keyword : String) : Block → List String
  | declarations first others =>
    punctuated ((keyword ++ " " ++ first.equation) :: others.map Statement.equation)
  | store s => punctuated [s.equation]

def lines (keyword : String) (depth : Nat) (b : Block) : List (Nat × String) :=
  hanging depth (b.texts keyword)

def steps (keyword : String) (b : Block) : List LayoutStep := hangingSteps (b.texts keyword)

/-- Cuts statements into runs of declarations and single stores. -/
def split : List Statement → List Block
  | [] => []
  | s :: rest =>
    if s.isDeclaration then
      match split rest with
      | declarations first others :: later => declarations s (first :: others) :: later
      | later => declarations s [] :: later
    else store s :: split rest

end Block

/-- Blocks make up a list of statements, each is of one kind, and no two runs of declarations stand
next to each other: so no run can be made longer. -/
structure Splits (statements : List Statement) (blocks : List Block) : Prop where
  whole : blocks.flatMap Block.statements = statements
  uniform : ∀ b ∈ blocks, ∀ s ∈ b.statements, s.isDeclaration = b.declares
  maximal : blocks.IsChain fun b c => ¬(b.declares = true ∧ c.declares = true)

namespace Splits

variable {s : Statement} {statements rest : List Statement} {b : Block} {blocks : List Block}

theorem nil : Splits [] [] := ⟨rfl, by simp, by simp⟩

/-- A run of declarations is not followed by a declaration. -/
theorem exists_of_cons (h : Splits statements (b :: blocks)) :
    ∃ rest, statements = b.statements ++ rest ∧ Splits rest blocks ∧
      (b.declares = true → rest.head?.any Statement.isDeclaration = false) := by
  refine ⟨blocks.flatMap Block.statements, h.whole.symm,
    ⟨rfl, fun c hc => h.uniform c (by simp [hc]), h.maximal.of_cons⟩, fun hb => ?_⟩
  cases blocks with
  | nil => rfl
  | cons c blocks =>
    have hc : c.declares = false := by
      simpa [hb] using (List.isChain_cons_cons.1 h.maximal).1
    have huniform := h.uniform c (by simp)
    cases c with
    | declarations first others => cases hc
    | store s => simpa [Block.statements, hc] using huniform

theorem cons_store (h : Splits rest blocks) (hs : s.isDeclaration = false) :
    Splits (s :: rest) (.store s :: blocks) where
  whole := by simp [Block.statements, h.whole]
  uniform := by simpa [Block.statements, Block.declares, hs] using h.uniform
  maximal := by
    cases blocks with
    | nil => simp
    | cons c blocks => exact List.isChain_cons_cons.2 ⟨by simp [Block.declares], h.maximal⟩

theorem cons_declaration (h : Splits rest blocks) (hs : s.isDeclaration = true)
    (hnext : ∀ c ∈ blocks.head?, c.declares = false) :
    Splits (s :: rest) (.declarations s [] :: blocks) where
  whole := by simp [Block.statements, h.whole]
  uniform := by simpa [Block.statements, Block.declares, hs] using h.uniform
  maximal := by
    cases blocks with
    | nil => simp
    | cons c blocks => exact List.isChain_cons_cons.2 ⟨by simp [hnext c rfl], h.maximal⟩

theorem lengthen {first : Statement} {others : List Statement}
    (h : Splits rest (.declarations first others :: blocks)) (hs : s.isDeclaration = true) :
    Splits (s :: rest) (.declarations s (first :: others) :: blocks) where
  whole := by simpa [Block.statements] using h.whole
  uniform := by simpa [Block.statements, Block.declares, hs] using h.uniform
  maximal := by
    cases blocks with
    | nil => simp
    | cons c blocks => exact List.isChain_cons_cons.2 (List.isChain_cons_cons.1 h.maximal)

end Splits

namespace Block

theorem splits_split (statements : List Statement) : Splits statements (split statements) := by
  induction statements with
  | nil => exact .nil
  | cons s rest ih =>
    unfold split
    split
    next hs =>
      cases hrest : split rest with
      | nil => exact (hrest ▸ ih).cons_declaration hs (by simp)
      | cons c later =>
        rw [hrest] at ih
        cases c with
        | declarations first others => exact ih.lengthen hs
        | store t => exact ih.cons_declaration hs (by simp [declares])
    next hs => exact ih.cons_store (by simpa using hs)

theorem split_declarations {first : Statement} {others rest : List Statement}
    (hrun : ∀ s ∈ first :: others, s.isDeclaration = true)
    (hrest : ∀ c ∈ (split rest).head?, c.declares = false) :
    split (first :: others ++ rest) = declarations first others :: split rest := by
  induction others generalizing first with
  | nil =>
    cases h : split rest with
    | nil => simp [split, hrun first, h]
    | cons c later =>
      cases c with
      | declarations => simp [h, declares] at hrest
      | store t => simp [split, hrun first, h]
  | cons next others ih =>
    rw [List.cons_append, split, if_pos (hrun first (by simp)),
      ih fun s hs => hrun s (by simp [hs])]

/-- There is one way to cut statements into runs that cannot be made longer. -/
theorem splits_iff {statements : List Statement} {blocks : List Block} :
    Splits statements blocks ↔ blocks = split statements := by
  refine ⟨fun h => ?_, fun h => h ▸ splits_split statements⟩
  induction blocks generalizing statements with
  | nil => rw [← h.whole]; rfl
  | cons b blocks ih =>
    obtain ⟨rest, rfl, htail, -⟩ := h.exists_of_cons
    have hb := h.uniform b (by simp)
    obtain rfl := ih htail
    cases b with
    | declarations first others =>
      refine (split_declarations hb fun c hc => ?_).symm
      cases hsplit : split rest with
      | nil => simp [hsplit] at hc
      | cons d later =>
        obtain rfl : d = c := by simpa [hsplit] using hc
        have hmaximal := h.maximal
        rw [hsplit] at hmaximal
        simpa [declares] using (List.isChain_cons_cons.1 hmaximal).1
    | store s =>
      have hs : s.isDeclaration = false := hb s (by simp [statements])
      simp [statements, split, hs]

end Block

/-! ## The pass over the statements -/

theorem punctuated_cons_ne_nil (text : String) (texts : List String) :
    punctuated (text :: texts) ≠ [] := by
  cases texts <;> simp [punctuated]

theorem hangingSteps_cons {others : List String} (first : String) (h : others ≠ []) :
    hangingSteps (first :: others) =
      .line first :: .indent :: (others.map .line ++ [.outdent]) := by
  cases others with
  | nil => exact absurd rfl h
  | cons next others => rfl

section Pass

variable (keyword : String) {first : Statement} {others rest : List Statement}

/-- What is left of a run of declarations whose first line is written. -/
theorem layoutStatements_open (hrun : ∀ s ∈ first :: others, s.isDeclaration = true)
    (hrest : rest.head?.any Statement.isDeclaration = false) :
    layoutStatements keyword true (first :: others ++ rest) =
      (punctuated ((first :: others).map Statement.equation)).map .line ++
        .outdent :: layoutStatements keyword false rest := by
  induction others generalizing first with
  | nil =>
    simp [layoutStatements, hrun first, hrest, punctuated, Statement.line, Statement.equation,
      String.append_assoc]
  | cons next others ih =>
    -- the statement ahead is a declaration, so the run stays open
    have hnext : layoutStatements keyword true (next :: (others ++ rest)) = _ :=
      ih fun s hs => hrun s (List.mem_cons_of_mem first hs)
    rw [List.cons_append, List.cons_append, layoutStatements]
    simp [hrun first, hrun next, hnext, punctuated, Statement.line, Statement.equation,
      String.append_assoc]

theorem layoutStatements_declarations (hrun : ∀ s ∈ first :: others, s.isDeclaration = true)
    (hrest : rest.head?.any Statement.isDeclaration = false) :
    layoutStatements keyword false (first :: others ++ rest) =
      (Block.declarations first others).steps keyword ++ layoutStatements keyword false rest := by
  cases others with
  | nil =>
    simp [layoutStatements, hrun first, hrest, Block.steps, Block.texts, hangingSteps, punctuated,
      Statement.line, Statement.equation, String.append_assoc]
  | cons next others =>
    have hopen : layoutStatements keyword true (next :: (others ++ rest)) = _ :=
      layoutStatements_open keyword (fun s hs => hrun s (List.mem_cons_of_mem first hs)) hrest
    rw [Block.steps, Block.texts, List.map_cons, punctuated,
      hangingSteps_cons _ (punctuated_cons_ne_nil _ _), ← List.map_cons]
    rw [List.cons_append, List.cons_append, layoutStatements]
    simp [hrun first, hrun next, hopen, Statement.line, Statement.equation, String.append_assoc]

theorem layoutStatements_store {s : Statement} (hs : s.isDeclaration = false) :
    layoutStatements keyword false (s :: rest) =
      (Block.store s).steps keyword ++ layoutStatements keyword false rest := by
  simp [layoutStatements, hs, Block.steps, Block.texts, hangingSteps, punctuated, Statement.line,
    Statement.equation, String.append_assoc]

/-- The pass over the statements takes the steps of the blocks. -/
theorem Splits.layoutStatements_eq {statements : List Statement} {blocks : List Block}
    (h : Splits statements blocks) :
    layoutStatements keyword false statements = blocks.flatMap (Block.steps keyword) := by
  induction blocks generalizing statements with
  | nil => rw [← h.whole]; rfl
  | cons b blocks ih =>
    obtain ⟨rest, rfl, htail, hrest⟩ := h.exists_of_cons
    have hb := h.uniform b (by simp)
    rw [List.flatMap_cons, ← ih htail]
    cases b with
    | declarations first others => exact layoutStatements_declarations keyword hb (hrest rfl)
    | store s => exact layoutStatements_store keyword (hb s (by simp [Block.statements]))

end Pass

/-! ## Depths

The steps of a layout say at which depth each line is written, whatever else a sink does with the
line. -/

/-- Steps taken from one depth write lines at their depths and end at another depth. No level is
closed that was not opened. -/
inductive Lays : Nat → List LayoutStep → List (Nat × String) → Nat → Prop where
  | nil (depth : Nat) : Lays depth [] [] depth
  | line {depth final : Nat} {steps : List LayoutStep} {lines : List (Nat × String)}
      (text : String) (tail : Lays depth steps lines final) :
      Lays depth (.line text :: steps) ((depth, text) :: lines) final
  | indent {depth final : Nat} {steps : List LayoutStep} {lines : List (Nat × String)}
      (tail : Lays (depth + 1) steps lines final) : Lays depth (.indent :: steps) lines final
  | outdent {depth final : Nat} {steps : List LayoutStep} {lines : List (Nat × String)}
      (tail : Lays depth steps lines final) : Lays (depth + 1) (.outdent :: steps) lines final

namespace Lays

variable {depth middle final : Nat} {front steps : List LayoutStep}
  {frontLines lines : List (Nat × String)}

theorem append (hfront : Lays depth front frontLines middle) (h : Lays middle steps lines final) :
    Lays depth (front ++ steps) (frontLines ++ lines) final := by
  induction hfront with
  | nil => exact h
  | line text tail ih => exact (ih h).line text
  | indent tail ih => exact (ih h).indent
  | outdent tail ih => exact (ih h).outdent

/-- The first of some steps end at a depth from which the others go on. -/
theorem exists_of_append (h : Lays depth (front ++ steps) lines final) :
    ∃ frontLines lines middle, Lays depth front frontLines middle ∧
      Lays middle steps lines final := by
  induction front generalizing depth lines with
  | nil => exact ⟨[], lines, depth, .nil depth, h⟩
  | cons step front ih =>
    cases h with
    | line text tail =>
      obtain ⟨_, _, middle, hfront, hsteps⟩ := ih tail
      exact ⟨_, _, middle, hfront.line text, hsteps⟩
    | indent tail =>
      obtain ⟨_, _, middle, hfront, hsteps⟩ := ih tail
      exact ⟨_, _, middle, hfront.indent, hsteps⟩
    | outdent tail =>
      obtain ⟨_, _, middle, hfront, hsteps⟩ := ih tail
      exact ⟨_, _, middle, hfront.outdent, hsteps⟩

/-- Steps may be taken from any greater depth. -/
theorem raise (h : Lays depth steps lines final) (levels : Nat) :
    ∃ lines, Lays (depth + levels) steps lines (final + levels) := by
  induction h with
  | nil depth => exact ⟨[], .nil _⟩
  | line text tail ih =>
    obtain ⟨lines, hlines⟩ := ih
    exact ⟨_, hlines.line text⟩
  | indent tail ih =>
    obtain ⟨lines, hlines⟩ := ih
    rw [Nat.add_right_comm] at hlines
    exact ⟨_, hlines.indent⟩
  | outdent tail ih =>
    obtain ⟨lines, hlines⟩ := ih
    rw [Nat.add_right_comm]
    exact ⟨_, hlines.outdent⟩

theorem of_texts (depth : Nat) (texts : List String) :
    Lays depth (texts.map .line) (texts.map (depth, ·)) depth := by
  induction texts with
  | nil => exact .nil depth
  | cons text texts ih => exact ih.line text

theorem of_hanging (depth : Nat) (texts : List String) :
    Lays depth (hangingSteps texts) (hanging depth texts) depth := by
  cases texts with
  | nil => exact .nil depth
  | cons first others =>
    cases others with
    | nil => exact (nil depth).line first
    | cons next others =>
      have hothers := (of_texts (depth + 1) (next :: others)).append (nil depth).outdent
      rw [List.append_nil] at hothers
      exact hothers.indent.line first

theorem of_blocks (keyword : String) (depth : Nat) (blocks : List Block) :
    Lays depth (blocks.flatMap (Block.steps keyword)) (blocks.flatMap (Block.lines keyword depth))
      depth := by
  induction blocks with
  | nil => exact .nil depth
  | cons b blocks ih => exact (of_hanging depth (b.texts keyword)).append ih

/-- A sink that records every line. -/
theorem run_recorder (h : Lays depth steps lines final) (kept : Array (Nat × String)) :
    Sink.run steps (⟨none, kept, depth⟩ : Recorder) =
      (⟨none, kept ++ lines.toArray, final⟩, none) := by
  induction h generalizing kept with
  | nil => simp [Sink.run]
  | @line depth _ _ lines text tail ih =>
    have hkept : kept.push (depth, text) ++ lines.toArray =
        kept ++ ((depth, text) :: lines).toArray := by simp
    rw [← hkept]
    exact ih (kept.push (depth, text))
  | indent tail ih => exact ih kept
  | outdent tail ih => exact ih kept

/-- A sink that takes some more lines and refuses all others. -/
theorem run_limited (h : Lays depth steps lines final) {kept : Array (Nat × String)}
    {limit room : Nat} (hlimit : limit = kept.size + room) :
    let (recorder, refusal) := Sink.run steps (⟨some limit, kept, depth⟩ : Recorder)
    recorder.lines = kept ++ (lines.take room).toArray ∧
      (refusal.isSome ↔ room < lines.length) := by
  induction h generalizing kept room with
  | nil => simp [Sink.run]
  | @line depth _ steps lines text tail ih =>
    cases room with
    | zero =>
      -- the line is refused, and with it all that follows
      simp [Sink.run, Sink.perform, hlimit]
    | succ room =>
      have hroom : ¬limit ≤ kept.size := by omega
      have hpush : limit = (kept.push (depth, text)).size + room := by
        rw [Array.size_push]
        omega
      simpa [Sink.run, Sink.perform, hroom] using ih hpush
  | indent tail ih => exact ih hlimit
  | outdent tail ih => exact ih hlimit

end Lays

/-- The pass over the statements is a grouping. The statements are cut into runs of declarations as
long as they can be and single stores, in the one way there is, and the steps are those of the blocks
and the lines behind them. A sink that records lines from some depth on gets the lines of the blocks
at this depth: no level is closed but one that the layout has opened, and none is open when the lines
behind the statements begin. One that has room for fewer lines gets the first of them and refuses. -/
theorem layout_groups_declarations (keyword : String) (statements : List Statement)
    (terminals : List String) (depth : Nat) (kept : Array (Nat × String)) :
    let blocks := Block.split statements
    let steps := layout keyword statements terminals
    let lines := blocks.flatMap (Block.lines keyword depth) ++ terminals.map (depth, ·)
    let recorder : Recorder := ⟨none, kept, depth⟩
    (∀ others, Splits statements others ↔ others = blocks) ∧
      steps = blocks.flatMap (Block.steps keyword) ++ terminals.map .line ∧
      Sink.run steps recorder = (⟨none, kept ++ lines.toArray, depth⟩, none) ∧
      (∀ front rest, steps = front ++ .outdent :: rest →
        depth + 1 ≤ (Sink.run front recorder).1.depth) ∧
      (∀ front, steps = front ++ terminals.map .line → (Sink.run front recorder).1.depth = depth) ∧
      ∀ room,
        let (limited, refusal) :=
          Sink.run steps { recorder with limit := some (kept.size + room) }
        limited.lines = kept ++ (lines.take room).toArray ∧
          (refusal.isSome ↔ room < lines.length) := by
  intro blocks steps lines recorder
  have hsteps : steps = blocks.flatMap (Block.steps keyword) ++ terminals.map .line := by
    rw [← (Block.splits_split statements).layoutStatements_eq keyword]
    rfl
  have hlays (depth : Nat) : Lays depth steps
      (blocks.flatMap (Block.lines keyword depth) ++ terminals.map (depth, ·)) depth :=
    hsteps ▸ (Lays.of_blocks keyword depth blocks).append (.of_texts depth terminals)
  refine ⟨fun _ => Block.splits_iff, hsteps, (hlays depth).run_recorder kept, ?_, ?_, ?_⟩
  · intro front rest hcut
    -- taken from depth zero, the steps before have opened the level that is closed
    obtain ⟨frontLines, _, middle, hfront, hrest⟩ := (hcut ▸ hlays 0).exists_of_append
    cases hrest with
    | @outdent opened =>
      obtain ⟨_, hraised⟩ := hfront.raise depth
      rw [Nat.zero_add] at hraised
      rw [hraised.run_recorder kept]
      change depth + 1 ≤ opened + 1 + depth
      omega
  · intro front hcut
    obtain rfl : blocks.flatMap (Block.steps keyword) = front :=
      List.append_cancel_right (hsteps.symm.trans hcut)
    rw [(Lays.of_blocks keyword depth blocks).run_recorder kept]
  · intro room
    exact (hlays depth).run_limited rfl

end StraightLine
