import StraightLine.Proofs.DeclarationRuns
import StraightLine.Proofs.Rendering
import StraightLine.Proofs.Runs
import StraightLine.Session.Emission
import Mathlib.Data.List.Infix

/-! # Braces of a source

A text keeps one depth, which both the steps of a layout and the lines that end in a brace change.
The lines of statements end in a comma or a semicolon, whatever the statements say, so only the
lines behind them open and close levels by themselves. Whether a text is made depends on these lines
alone: on what is closed before it was opened, and on what is left open. -/
namespace StraightLine

/-- Whether the lines behind a line stand one level deeper. -/
def opensLevel (line : String) : Bool := line.toList.getLast? == some '\x7b'

def closesLevel (line : String) : Bool := line.toList.getLast? == some '\x7d'

def lacksEnding (line : String) : Bool :=
  line.toList.getLast?.any fun c => c ∉ [';', ',', '\x7b', '\x7d']

/-- A line at its depth, as it stands in a text. -/
def Style.printed (style : Style) (line : Nat × String) : String :=
  (if line.2 = "" then "" else String.join (List.replicate line.1 style.indent)) ++ line.2 ++
    (if lacksEnding line.2 then style.terminator else "") ++ "\n"

/-- Lines with their depths: the levels open at first and those opened before a line, less those
closed up to it. -/
def placed (depth : Nat) (lines : List String) : List (Nat × String) :=
  lines.mapIdx fun i line =>
    (depth + (lines.take i).countP opensLevel - (lines.take (i + 1)).countP closesLevel, line)

/-- Lines from the first up to some line close more levels than there are. -/
def Overdrawn (depth : Nat) (lines : List String) : Prop :=
  ∃ front ∈ lines.inits, depth + front.countP opensLevel < front.countP closesLevel

def Leads (depth : Nat) (line : String) (next : Nat) : Prop :=
  next + [line].countP closesLevel = depth + [line].countP opensLevel

section Levels

variable {depth next : Nat} {line : String}

/-- There is a next depth unless a level is closed where none is open. -/
theorem exists_leads (depth : Nat) (line : String) :
    (∃ next, Leads depth line next) ∨ depth = 0 ∧ closesLevel line = true := by
  by_cases hcloses : closesLevel line = true
  · cases depth with
    | zero => exact .inr ⟨rfl, hcloses⟩
    | succ depth =>
      refine .inl ⟨depth + [line].countP opensLevel, ?_⟩
      simp only [Leads, List.countP_singleton, hcloses, if_true]
      omega
  · exact .inl ⟨depth + [line].countP opensLevel, by simp [Leads, hcloses]⟩

theorem placed_cons (h : Leads depth line next) (lines : List String) :
    placed depth (line :: lines) =
      (depth - [line].countP closesLevel, line) :: placed next lines := by
  simp only [Leads, List.countP_singleton] at h
  rw [placed, List.mapIdx_cons, placed]
  congr 1
  congr 1
  funext i line'
  simp only [List.take_succ_cons, List.countP_cons, Prod.mk.injEq, and_true]
  omega

theorem overdrawn_cons (h : Leads depth line next) (lines : List String) :
    Overdrawn depth (line :: lines) ↔ Overdrawn next lines := by
  simp only [Leads, List.countP_singleton] at h
  simp only [Overdrawn, List.mem_inits, List.prefix_cons_iff]
  constructor
  · rintro ⟨front, rfl | ⟨front, rfl, hfront⟩, hlt⟩
    · simp at hlt
    · refine ⟨front, hfront, ?_⟩
      simp only [List.countP_cons] at hlt
      omega
  · rintro ⟨front, hfront, hlt⟩
    refine ⟨line :: front, .inr ⟨front, rfl, hfront⟩, ?_⟩
    simp only [List.countP_cons]
    omega

theorem overdrawn_of_closesLevel (h : closesLevel line = true) (lines : List String) :
    Overdrawn 0 (line :: lines) := by
  have hopens : opensLevel line = false := by
    simp only [closesLevel, beq_iff_eq] at h
    simp [opensLevel, h]
  exact ⟨[line], by simp, by simp [hopens, h]⟩

end Levels

theorem Style.printed_of_last {style : Style} {depth : Nat} {line : String} {c : Char}
    (h : line.toList.getLast? = some c) :
    style.printed (depth, line) = String.join (List.replicate depth style.indent) ++ line ++
      (if c ∉ [';', ',', '\x7b', '\x7d'] then style.terminator else "") ++ "\n" := by
  have hne : line ≠ "" := by
    rintro rfl
    simp at h
  simp [printed, lacksEnding, h, hne]

namespace Writer

variable (w : Writer) {line : String}

theorem writeLine_of_leads {next : Nat} (h : Leads w.depth line next) :
    w.writeLine line = .ok { w with
      text := w.text ++ w.style.printed (w.depth - [line].countP closesLevel, line)
      depth := next } := by
  simp only [Leads, List.countP_singleton, opensLevel, closesLevel] at h ⊢
  unfold writeLine
  split
  case h_1 hlast =>
    obtain rfl : line = "" := by simpa using hlast
    obtain rfl : next = w.depth := by simpa using h
    simp [append, Style.printed, lacksEnding]
  case h_2 hlast =>
    obtain rfl : next = w.depth + 1 := by simpa [hlast] using h
    simp [Style.printed_of_last hlast, hlast, append, margin, String.append_assoc]
  case h_3 hlast =>
    -- the level is closed before the line is written
    have hnext : w.depth = next + 1 := by simpa [hlast, eq_comm] using h
    simp [Style.printed_of_last hlast, hlast, append, margin, String.append_assoc, hnext,
      closeLevel]
  case h_4 hlast | h_5 hlast =>
    obtain rfl : next = w.depth := by simpa [hlast] using h
    simp [Style.printed_of_last hlast, hlast, append, margin, String.append_assoc]
  case h_6 c hopen hclose hsemicolon hcomma hlast =>
    have hends : c ≠ '\x7b' ∧ c ≠ '\x7d' ∧ c ≠ ';' ∧ c ≠ ',' :=
      ⟨hopen, hclose, hsemicolon, hcomma⟩
    obtain rfl : next = w.depth := by simpa [hlast, hends] using h
    simp [Style.printed_of_last hlast, hlast, append, margin, String.append_assoc, hends]

/-- One line of a run is taken. -/
theorem run_line {next : Nat} (h : Leads w.depth line next) (steps : List LayoutStep) :
    Sink.run (.line line :: steps) w = Sink.run steps { w with
      text := w.text ++ w.style.printed (w.depth - [line].countP closesLevel, line)
      depth := next } := by
  have hperform : Sink.perform (.line line) w = _ := w.writeLine_of_leads h
  rw [Sink.run, hperform]

/-- One line of a run is refused. -/
theorem run_line_of_closesLevel (hdepth : w.depth = 0) (h : closesLevel line = true)
    (steps : List LayoutStep) : Sink.run (.line line :: steps) w = (w, some .underflow) := by
  simp only [closesLevel, beq_iff_eq] at h
  have hperform : Sink.perform (.line line) w = .error .underflow := by
    simp [Sink.perform, writeLine, h, hdepth, closeLevel, bind, Except.bind]
  rw [Sink.run, hperform]

end Writer

theorem Sink.run_append {σ : Type} [Sink σ] {front : List LayoutStep} {sink next : σ}
    (h : Sink.run front sink = (next, none)) (steps : List LayoutStep) :
    Sink.run (front ++ steps) sink = Sink.run steps next := by
  induction front generalizing sink with
  | nil =>
    cases h
    rfl
  | cons step front ih =>
    rw [Sink.run] at h
    rw [List.cons_append, Sink.run]
    split at h
    next hstep => exact ih h
    next => cases h

/-- Steps that write no brace at the end of a line are taken to their end. -/
theorem Lays.run_writer {depth final : Nat} {steps : List LayoutStep} {lines : List (Nat × String)}
    (h : Lays depth steps lines final)
    (hlines : ∀ line ∈ lines, opensLevel line.2 = false ∧ closesLevel line.2 = false)
    (w : Writer) (hw : w.depth = depth) :
    Sink.run steps w = ({ w with
      text := w.text ++ String.join (lines.map w.style.printed)
      depth := final }, none) := by
  induction h generalizing w with
  | nil => simp [Sink.run, ← hw]
  | @line depth final steps lines text tail ih =>
    obtain ⟨hopens, hcloses⟩ := hlines (depth, text) (by simp)
    have hstay : Leads w.depth text w.depth := by simp [Leads, hopens, hcloses]
    have hdepth : w.depth - [text].countP closesLevel = depth := by simp [hcloses, hw]
    have hrest := ih (fun line hline => hlines line (by simp [hline]))
      { w with text := w.text ++ w.style.printed (depth, text) } hw
    rw [w.run_line hstay, hdepth, hrest, List.map_cons, String.join_cons, String.append_assoc]
  | indent tail ih => exact ih hlines { w with depth := w.depth + 1 } (congrArg (· + 1) hw)
  | @outdent depth _ _ _ tail ih =>
    have hperform : Sink.perform .outdent w = .ok { w with depth } := by
      simp [Sink.perform, hw, closeLevel]
    rw [Sink.run, hperform]
    exact ih hlines { w with depth } rfl

namespace Writer

variable (w : Writer) {lines : List String}

/-- Lines that close more levels than there are, are not written to their end. -/
theorem run_lines_of_overdrawn (h : Overdrawn w.depth lines) :
    ∃ left, Sink.run (lines.map .line) w = (left, some .underflow) := by
  induction lines generalizing w with
  | nil => simp [Overdrawn] at h
  | cons line lines ih =>
    rw [List.map_cons]
    rcases exists_leads w.depth line with ⟨next, hnext⟩ | ⟨hdepth, hcloses⟩
    · rw [w.run_line hnext]
      exact ih _ ((overdrawn_cons hnext lines).1 h)
    · exact ⟨w, w.run_line_of_closesLevel hdepth hcloses _⟩

/-- Other lines are written at their depths. -/
theorem run_lines (h : ¬Overdrawn w.depth lines) :
    Sink.run (lines.map .line) w = ({ w with
      text := w.text ++ String.join ((placed w.depth lines).map w.style.printed)
      depth := w.depth + lines.countP opensLevel - lines.countP closesLevel }, none) := by
  induction lines generalizing w with
  | nil => simp [Sink.run, placed]
  | cons line lines ih =>
    rw [List.map_cons]
    rcases exists_leads w.depth line with ⟨next, hnext⟩ | ⟨hdepth, hcloses⟩
    · rw [w.run_line hnext, ih _ fun hover => h ((overdrawn_cons hnext lines).2 hover),
        placed_cons hnext, List.map_cons, String.join_cons, String.append_assoc]
      -- all lines and those behind the first differ in depth by what the first does
      simp only [Leads, List.countP_singleton] at hnext
      simp only [List.countP_cons, Prod.mk.injEq, Writer.mk.injEq, true_and, and_true]
      omega
    · exact absurd (hdepth ▸ overdrawn_of_closesLevel hcloses lines) h

end Writer

/-! ## Lines of statements -/

/-- The texts of a block end in a comma or a semicolon. -/
theorem no_brace_of_mem_punctuated {text : String} {texts : List String}
    (h : text ∈ punctuated texts) : opensLevel text = false ∧ closesLevel text = false := by
  fun_induction punctuated texts with
  | case1 => cases h
  | case2 last =>
    obtain rfl : text = last ++ ";" := by simpa using h
    simp [opensLevel, closesLevel]
  | case3 first next rest ih =>
    rcases List.mem_cons.1 h with rfl | h
    · simp [opensLevel, closesLevel]
    · exact ih h

theorem mem_of_mem_hanging {depth : Nat} {line : Nat × String} {texts : List String}
    (h : line ∈ hanging depth texts) : line.2 ∈ texts := by
  cases texts with
  | nil => cases h
  | cons first others =>
    rcases List.mem_cons.1 h with rfl | h
    · simp
    · obtain ⟨text, htext, rfl⟩ := List.mem_map.1 h
      simp [htext]

theorem Block.no_brace_of_mem_lines {keyword : String} {depth : Nat} {line : Nat × String}
    {b : Block} (h : line ∈ b.lines keyword depth) :
    opensLevel line.2 = false ∧ closesLevel line.2 = false := by
  have htext := mem_of_mem_hanging h
  cases b with
  | declarations first others => exact no_brace_of_mem_punctuated htext
  | store s => exact no_brace_of_mem_punctuated htext

/-- What a text holds when its statements are written; no level is open then. -/
theorem Writer.run_layout (style : Style) (statements : List Statement) (lines : List String) :
    Sink.run (layout style.declarationKeyword statements lines) { style : Writer } =
      Sink.run (lines.map .line) ⟨style, String.join (((Block.split statements).flatMap
        (Block.lines style.declarationKeyword 0)).map style.printed), 0⟩ := by
  rw [layout, (Block.splits_split statements).layoutStatements_eq]
  refine Sink.run_append ?_ _
  rw [(Lays.of_blocks style.declarationKeyword 0 (Block.split statements)).run_writer
    (fun line hline => ?_) { style } rfl]
  · simp
  · obtain ⟨b, -, hb⟩ := List.mem_flatMap.1 hline
    exact Block.no_brace_of_mem_lines hb

/-- The answer to a list is the refusal of the first element that is refused. -/
theorem mapM_eq_error_of_first {α β ε : Type} {f : α → Except ε β} {front rest : List α} {x : α}
    {e : ε} (hfront : ∀ y ∈ front, ∃ b, f y = .ok b) (hx : f x = .error e) :
    (front ++ x :: rest).mapM f = .error e := by
  induction front with
  | nil =>
    rw [List.nil_append, List.mapM_cons, hx]
    rfl
  | cons y front ih =>
    obtain ⟨b, hb⟩ := hfront y (by simp)
    rw [List.cons_append, List.mapM_cons, hb, bind, ih fun z hz => hfront z (by simp [hz])]
    rfl

namespace Session

variable {s : Session} {terminals : List Terminal}

theorem WellFormed.terminalLine_eq_ok (hs : s.WellFormed) {terminal : Terminal}
    (h : ∀ output, terminal = .output output → s.arena.contains output.node = true) :
    ∃ line, s.terminalLine terminal = .ok line := by
  cases terminal with
  | line text => exact ⟨text, rfl⟩
  | output output =>
    obtain ⟨e, he⟩ := hs.arena.expr?_eq_some (h output rfl)
    rw [terminalLine, renderOutput, render_eq_ok he]
    exact ⟨_, rfl⟩

theorem terminalLine_of_unknown {output : Output} (h : s.arena.contains output.node = false) :
    s.terminalLine (.output output) = .error (.unknownNode output.node) := by
  have hnone : s.arena.expr? output.node = none := by
    by_contra hsome
    obtain ⟨e, he⟩ := Option.ne_none_iff_exists'.1 hsome
    simp [Arena.contains_of_expr? he] at h
  simp [terminalLine, renderOutput, render, expr, hnone]

/-- The lines behind the statements are the same whatever the statements are. -/
theorem terminalLine_schedule (s : Session) (schedule : Schedule) :
    { s with schedule }.terminalLine = s.terminalLine := rfl

theorem source_of_error {e : Fault} (h : terminals.mapM s.terminalLine = .error e) :
    s.source terminals = .error e := by
  have hlayout : s.layout terminals = .error e := by
    rw [layout, h]
    rfl
  rw [source, write, hlayout]

def statementLines (s : Session) : List (Nat × String) :=
  (Block.split s.schedule.statements).flatMap (Block.lines s.settings.style.declarationKeyword 0)

section Outcome

variable {lines : List String} (h : terminals.mapM s.terminalLine = .ok lines)
include h

theorem write_of_lines :
    s.write terminals { style := s.settings.style : Writer } =
      (Sink.run (lines.map .line) (⟨s.settings.style,
        String.join (s.statementLines.map s.settings.style.printed), 0⟩ : Writer)).map
          id (·.map .sink) := by
  have hlayout : s.layout terminals = .ok (StraightLine.layout s.settings.style.declarationKeyword
      s.schedule.statements lines) := by
    rw [layout, h]
    rfl
  rw [statementLines, ← Writer.run_layout, write, hlayout]

theorem source_of_overdrawn (hover : Overdrawn 0 lines) :
    s.source terminals = .error (.sink .underflow) := by
  rw [source, write_of_lines h]
  obtain ⟨left, hrun⟩ := Writer.run_lines_of_overdrawn
    ⟨s.settings.style, String.join (s.statementLines.map s.settings.style.printed), 0⟩ hover
  rw [hrun]
  rfl

theorem source_of_not_overdrawn (hover : ¬Overdrawn 0 lines) :
    s.source terminals =
      if lines.countP closesLevel < lines.countP opensLevel then
        .error (.sink (.unbalanced (lines.countP opensLevel - lines.countP closesLevel)))
      else .ok (String.join ((s.statementLines ++ placed 0 lines).map s.settings.style.printed)) := by
  rw [source, write_of_lines h, Writer.run_lines _ hover]
  by_cases hopen : lines.countP closesLevel < lines.countP opensLevel
  · have hdepth : lines.countP opensLevel - lines.countP closesLevel ≠ 0 := by omega
    simp [Writer.finish, hopen, hdepth, Except.mapError]
  · have hdepth : lines.countP opensLevel - lines.countP closesLevel = 0 := by omega
    simp [Writer.finish, hopen, hdepth, Except.mapError]

end Outcome

/-- A text is not made if a node to return is not known, the first of these being named, or if the
lines behind the statements close levels that are not open or leave levels open; otherwise it is
made. Which of these is the case does not depend on the statements: any schedule may stand in the
session. The text consists of the lines of the statements and the lines behind them, each printed at
its depth. -/
theorem source_fails_by_terminals {settings : Settings} {s₀ : Session}
    (h₀ : Session.new settings = .ok s₀) (calls : List Call) (terminals : List Terminal) :
    let s := s₀.run calls
    (∀ front output rest, terminals = front ++ .output output :: rest →
      (∀ known, .output known ∈ front → s.arena.contains known.node = true) →
      s.arena.contains output.node = false →
      ∀ schedule, { s with schedule }.source terminals = .error (.unknownNode output.node)) ∧
    ((∀ known, .output known ∈ terminals → s.arena.contains known.node = true) →
      ∃ lines,
        List.Forall₂ (fun terminal line => s.terminalLine terminal = .ok line) terminals lines ∧
        ∀ schedule, { s with schedule }.source terminals =
          if ∃ front ∈ lines.inits, front.countP opensLevel < front.countP closesLevel then
            .error (.sink .underflow)
          else if lines.countP closesLevel < lines.countP opensLevel then
            .error (.sink (.unbalanced (lines.countP opensLevel - lines.countP closesLevel)))
          else .ok (String.join
            (({ s with schedule }.statementLines ++ placed 0 lines).map s.settings.style.printed))) := by
  intro s
  obtain ⟨hs, -⟩ := (complete_of_new h₀).run calls
  refine ⟨?_, fun hknown => ?_⟩
  · rintro front output rest rfl hfront hunknown schedule
    refine source_of_error (mapM_eq_error_of_first (fun terminal hmem => ?_) ?_)
    · refine hs.toWellFormed.terminalLine_eq_ok fun known heq => hfront known ?_
      rwa [heq] at hmem
    · exact terminalLine_of_unknown hunknown
  · obtain ⟨lines, hlines⟩ : ∃ lines, terminals.mapM s.terminalLine = .ok lines := by
      refine mapM_eq_ok_of_forall fun terminal hmem => ?_
      refine hs.toWellFormed.terminalLine_eq_ok fun known heq => hknown known ?_
      rwa [heq] at hmem
    have hoverdrawn : Overdrawn 0 lines ↔
        ∃ front ∈ lines.inits, front.countP opensLevel < front.countP closesLevel := by
      simp [Overdrawn]
    refine ⟨lines, forall₂_of_mapM_eq_ok hlines, fun schedule => ?_⟩
    rw [← s.terminalLine_schedule schedule] at hlines
    split
    next hover => exact source_of_overdrawn hlines (hoverdrawn.2 hover)
    next hover => exact source_of_not_overdrawn hlines (mt hoverdrawn.1 hover)

/-- A return inside braces. -/
theorem source_fails_by_terminals_of_branch :
    let s := ({ settings := {} } : Session).run
      [.scalar "x", .apply "*" [⟨0⟩, ⟨0⟩], .output ⟨1⟩, .output ⟨1⟩]
    let terminals : List Terminal := [.line "if (x) \x7b", .output ⟨⟨1⟩⟩, .line "\x7d"]
    s.source terminals = .ok "let temp0 = x * x;\nif (x) \x7b\n\treturn temp0;\n\x7d\n" ∧
      ∀ schedule, ∃ text, { s with schedule }.source terminals = .ok text := by
  intro s terminals
  have h₀ : Session.new {} = .ok { settings := {} } := rfl
  obtain ⟨-, hsource⟩ := source_fails_by_terminals h₀
    [.scalar "x", .apply "*" [⟨0⟩, ⟨0⟩], .output ⟨1⟩, .output ⟨1⟩] terminals
  obtain ⟨lines, hlines, htext⟩ := hsource fun known hmem => by
    obtain rfl : known = ⟨⟨1⟩⟩ := by simpa [terminals] using hmem
    decide +kernel
  refine ⟨by decide +kernel, fun schedule => ?_⟩
  simp only [terminals, List.forall₂_cons_left_iff, List.forall₂_nil_left_iff] at hlines
  obtain ⟨first, _, hfirst, ⟨second, _, hsecond, ⟨third, _, hthird, rfl, rfl⟩, rfl⟩, rfl⟩ := hlines
  obtain rfl : "if (x) \x7b" = first := Except.ok.inj hfirst
  obtain rfl : "\x7d" = third := Except.ok.inj hthird
  have hreturn : s.terminalLine (.output ⟨⟨1⟩⟩) = .ok "return temp0" := by decide +kernel
  obtain rfl : "return temp0" = second := Except.ok.inj (hreturn.symm.trans hsecond)
  rw [htext, if_neg (by decide +kernel), if_neg (by decide +kernel)]
  exact ⟨_, rfl⟩

end Session

end StraightLine
