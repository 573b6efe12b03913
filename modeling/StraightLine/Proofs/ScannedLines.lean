import StraightLine.Proofs.WrittenScalars
import StraightLine.Yaml.Scan

/-! # Lines of names and values

A text of lines, each a name and a value or the name alone, is scanned line by line. A line that is
further in than the collections open so far opens one of its own, and a line that is further out
closes those it is out of. -/
namespace StraightLine.Yaml

section Places

variable {cs rest : List Char} {m : Mark}

theorem Cursor.skip_append (m : Mark) (cs rest : List Char) :
    Cursor.skip cs.length ⟨m, cs ++ rest⟩ = ⟨cs.foldl Mark.after m, rest⟩ := by
  induction cs generalizing m with
  | nil => rfl
  | cons c cs ih => exact ih (m.after c)

theorem Cursor.moveTo_append (m : Mark) (cs rest : List Char) :
    Cursor.moveTo ⟨m, cs ++ rest⟩ rest = ⟨cs.foldl Mark.after m, rest⟩ := by
  have hlength : (cs ++ rest).length - rest.length = cs.length := by simp
  rw [Cursor.moveTo, hlength, skip_append]

/-- A word moves the place along its line, by at most four octets for each character. -/
theorem Mark.foldl_after (h : ∀ c ∈ cs, isBreak c = false) :
    (cs.foldl Mark.after m).line = m.line ∧
      (cs.foldl Mark.after m).column = m.column + cs.length ∧
      (cs.foldl Mark.after m).offset ≤ m.offset + 4 * cs.length := by
  induction cs generalizing m with
  | nil => simp
  | cons c cs ih =>
    rw [List.forall_mem_cons] at h
    have hafter : m.after c = ⟨m.offset + c.utf8Size, m.line, m.column + 1⟩ := by
      simp [Mark.after, h.1]
    obtain ⟨hline, hcolumn, hoffset⟩ := ih (m := m.after c) h.2
    have hsize := c.utf8Size_le_four
    rw [List.foldl_cons, hline, hcolumn, List.length_cons]
    rw [hafter] at hoffset ⊢
    refine ⟨rfl, ?_, ?_⟩
    · show m.column + 1 + cs.length = _
      omega
    · exact Nat.le_trans hoffset (by show m.offset + c.utf8Size + _ ≤ _; omega)

theorem Mark.column_foldl_spaces (m : Mark) (k : Nat) :
    ((List.replicate k ' ').foldl Mark.after m).column = m.column + k := by
  have hspaces : ∀ c ∈ List.replicate k ' ', isBreak c = false :=
    fun c hc => List.eq_of_mem_replicate hc ▸ rfl
  rw [(Mark.foldl_after hspaces).2.1, List.length_replicate]

/-- Behind a line feed and spaces, the place is the column behind the spaces. -/
theorem Mark.column_foldl_line (m : Mark) (cs : List Char) (k : Nat) :
    ((cs ++ '\n' :: List.replicate k ' ').foldl Mark.after m).column = k := by
  rw [List.foldl_append, List.foldl_cons, column_foldl_spaces]
  exact Nat.zero_add k

end Places

section Gaps

variable {rest : List Char}

/-- A token is not passed over. -/
theorem skipGap_token (keyAllowed : Bool) (m : Mark) (h : OpensToken rest) :
    skipGap false keyAllowed false m rest = (keyAllowed, ⟨m, rest⟩) := by
  cases rest with
  | nil => rfl
  | cons c cs =>
    obtain ⟨hblank, hbreak, hcomment, hmark⟩ := h
    simp only [isBlank, Bool.or_eq_false_iff, beq_eq_false_iff_ne] at hblank
    simp [skipGap, hbreak, hcomment, hmark, hblank]

theorem skipGap_spaces (keyAllowed : Bool) (m : Mark) (h : OpensToken rest) (k : Nat) :
    skipGap false keyAllowed false m (List.replicate k ' ' ++ rest) =
      (keyAllowed, ⟨(List.replicate k ' ').foldl Mark.after m, rest⟩) := by
  induction k generalizing m with
  | zero => exact skipGap_token keyAllowed m h
  | succ k ih => simpa [List.replicate_succ, skipGap, isBreak] using ih (m.after ' ')

/-- Behind a line feed and spaces a key may stand. -/
theorem skipGap_line (keyAllowed : Bool) (m : Mark) (h : OpensToken rest) (k : Nat) :
    ∃ n : Mark, n.column = k ∧
      skipGap false keyAllowed false m ('\n' :: (List.replicate k ' ' ++ rest)) =
        (true, ⟨n, rest⟩) := by
  refine ⟨_, Mark.column_foldl_line m [] k, ?_⟩
  rw [skipGap, if_pos (by decide), Bool.not_false, Bool.or_true, skipGap_spaces _ _ h]
  rfl

end Gaps

section Keys

namespace Scan

variable {s t u : Scan} {c : Char} {cs rest : List Char} {m : Mark} {indents : List Nat}
  {tokens : List Token} {keyAllowed : Bool}

/-- A scan outside of flow collections, with no key in reach. -/
def outside (keyAllowed : Bool) (m : Mark) (rest : List Char) (indents : List Nat)
    (tokens : List Token) : Scan :=
  ⟨⟨m, rest⟩, tokens, indents, none, [], keyAllowed⟩

/-- One token is read: gaps are passed, keys out of reach and collections further in are given up.
-/
theorem tokens?_succ (n : Nat) (hgap : s.skipGap = t) (hspots : t.expireSpots? = some t)
    (hclose : t.closeBlocks (some t.cursor.column) = u) (hrest : t.cursor.rest = c :: cs) :
    s.tokens? (n + 1) = (u.token? c cs).bind (tokens? n) := by
  have hcursor : (t.closeBlocks (some t.cursor.column)).cursor = t.cursor := by
    unfold closeBlocks
    split <;> rfl
  rw [hclose] at hcursor
  rw [Scan.tokens?, hgap, hspots]
  simp [hclose, hcursor, hrest]

theorem skipGap_eq {cursor : Cursor}
    (h : Yaml.skipGap s.inFlow s.keyAllowed false s.cursor.toMark s.cursor.rest =
      (keyAllowed, cursor)) : s.skipGap = { s with keyAllowed, cursor } := by
  rw [Scan.skipGap, h]

/-- At a token there is no gap. -/
theorem skipGap_of_opensToken (hflow : s.outer = []) (h : OpensToken s.cursor.rest) :
    s.skipGap = s := by
  have hinFlow : s.inFlow = false := by rw [inFlow, hflow]; rfl
  exact skipGap_eq (hinFlow ▸ skipGap_token s.keyAllowed s.cursor.toMark h)

/-- What opens a plain scalar opens no other token. -/
theorem token?_of_opensPlain (hflow : s.outer = []) (hopens : opensPlain false (c :: cs) = true)
    (hmarker : atMarker (c :: cs) = false) : s.token? c cs = s.plain? := by
  obtain ⟨hstart, hend⟩ := Bool.or_eq_false_iff.1 hmarker
  have hflow' : s.inFlow = false := by rw [inFlow, hflow]; rfl
  have hrest : c = '-' ∧ atWordEnd cs = false ∨ c = '?' ∧ atWordEnd cs = false ∨
      c = ':' ∧ atWordEnd cs = false ∨ isIndicator c = false ∧ c ≠ '-' ∧ c ≠ '?' ∧ c ≠ ':' := by
    rw [opensPlain] at hopens
    by_cases hdash : c = '-'
    · exact .inl ⟨hdash, by simpa [hdash] using hopens⟩
    · by_cases hquestion : c = '?'
      · exact .inr (.inl ⟨hquestion, by simpa [hquestion] using hopens⟩)
      · by_cases hcolon : c = ':'
        · exact .inr (.inr (.inl ⟨hcolon, by simpa [hcolon] using hopens⟩))
        · simp [hdash, hquestion, hcolon] at hopens
          exact .inr (.inr (.inr ⟨hopens.2, hdash, hquestion, hcolon⟩))
  rcases hrest with
    ⟨rfl, hword⟩ | ⟨rfl, hword⟩ | ⟨rfl, hword⟩ | ⟨hindicator, hdash, hquestion, hcolon⟩
  · simp [token?, hstart, hend, hword, hflow', hopens]
  · simp [token?, hstart, hend, hword, hflow', hopens]
  · simp [token?, hstart, hend, hword, hflow', hopens]
  · simp only [isIndicator, isFlowIndicator, Bool.or_eq_false_iff,
      beq_eq_false_iff_ne] at hindicator
    simp [token?, hstart, hend, hflow', hopens, hindicator, hdash, hquestion, hcolon]

/-- The columns of the collections that are open behind the name of a line, and the tokens before
that name: a line further in opens a collection, and a line further out closes those it is out of.
-/
def enter (column : Nat) (indents : List Nat) (tokens : List Token) : List Nat × List Token :=
  let kept := indents.dropWhile (column < ·)
  let tokens := (indents.takeWhile (column < ·)).map (fun _ => .blockEnd) ++ tokens
  if kept.head?.all (· < column) then (column :: kept, .key :: .blockMapping :: tokens)
  else (kept, .key :: tokens)

/-- The innermost of the collections that stay open is not further in than the line. -/
theorem le_of_head?_dropWhile {column indent : Nat}
    (h : (indents.dropWhile (column < ·)).head? = some indent) : indent ≤ column := by
  have hfirst := List.head?_dropWhile_not (fun indent : Nat => decide (column < indent)) indents
  rw [h] at hfirst
  simpa using hfirst

/-- The innermost collection is at the column of the line. -/
theorem head?_enter (column : Nat) (indents : List Nat) (tokens : List Token) :
    (enter column indents tokens).1.head? = some column := by
  unfold enter
  dsimp only
  split
  next => rfl
  next h =>
    cases hkept : (indents.dropWhile (column < ·)).head? with
    | none => simp [hkept] at h
    | some indent =>
      have hle := le_of_head?_dropWhile hkept
      have hge : column ≤ indent := by simpa [hkept] using h
      exact congrArg some (Nat.le_antisymm hle hge)

/-- No collection is closed further in than the innermost one. -/
theorem closeBlocks_eq_self (s : Scan) {column : Nat}
    (h : ∀ indent, s.indents.head? = some indent → indent ≤ column) :
    s.closeBlocks (some column) = s := by
  unfold closeBlocks
  split
  next => rfl
  next =>
    cases s with
    | mk cursor tokens indents spot outer keyAllowed =>
      cases indents with
      | nil => rfl
      | cons indent indents =>
        have hle : ¬column < indent := Nat.not_lt.2 (h indent rfl)
        simp [hle]

/-- A plain scalar. Its place is noted if it may be a key. -/
theorem plain?_outside {text : List Char} {broken : Bool}
    (hread : plain false (outside keyAllowed m cs indents tokens).leastColumn .none m.column cs =
      some (text, rest, broken)) :
    (outside keyAllowed m cs indents tokens).plain? =
      some ⟨Cursor.moveTo ⟨m, cs⟩ rest, .scalar (String.ofList text) .plain :: tokens, indents,
        if keyAllowed then some ⟨m, tokens.length, indents.head? == some m.column⟩ else none, [],
        broken⟩ := by
  show (plain false (outside keyAllowed m cs indents tokens).leastColumn .none m.column cs).bind _ =
    _
  rw [hread]
  cases keyAllowed <;> rfl

/-- The colon behind a name turns it into a key. -/
theorem tokens?_colon (n : Nat) {after : Mark} {name : Token} {required : Bool}
    (hline : after.line = m.line) (hcolumn : m.column < after.column)
    (hoffset : after.offset ≤ m.offset + keyReach)
    (hindents : ∀ indent, indents.head? = some indent → indent ≤ m.column)
    (hend : atWordEnd rest = true) :
    tokens? (n + 1) ⟨⟨after, ':' :: rest⟩, name :: tokens, indents,
        some ⟨m, tokens.length, required⟩, [], false⟩ =
      tokens? n (if indents.head?.all (· < m.column) then
        outside false (after.after ':') rest (m.column :: indents)
          (.value :: name :: .key :: .blockMapping :: tokens)
        else outside false (after.after ':') rest indents (.value :: name :: .key :: tokens)) := by
  let s : Scan := ⟨⟨after, ':' :: rest⟩, name :: tokens, indents,
    some ⟨m, tokens.length, required⟩, [], false⟩
  have hgap : s.skipGap = s :=
    skipGap_of_opensToken rfl (show OpensToken (':' :: rest) from ⟨rfl, rfl, by decide, by decide⟩)
  have hspots : s.expireSpots? = some s := by
    have hexpired : KeySpot.isExpired ⟨m, tokens.length, required⟩ after = false := by
      simp [KeySpot.isExpired, hline, hoffset]
    simp [expireSpots?, s, hexpired]
  have hclose : s.closeBlocks (some s.cursor.column) = s :=
    closeBlocks_eq_self s fun indent hindent =>
      Nat.le_of_lt (Nat.lt_of_le_of_lt (hindents indent hindent) hcolumn)
  have hcolon : s.token? ':' rest = s.value? := by
    have hzero : s.cursor.column ≠ 0 := Nat.ne_of_gt (Nat.lt_of_le_of_lt (Nat.zero_le _) hcolumn)
    simp [token?, hzero, hend]
  rw [tokens?_succ n hgap hspots hclose rfl, hcolon]
  have hkey : (name :: tokens).length - tokens.length = 1 := by simp
  have hopen : (name :: .key :: tokens).length - tokens.length = 2 := by
    rw [List.length_cons, List.length_cons]
    omega
  simp only [value?, s, hkey, List.insertIdx_succ_cons, List.insertIdx_zero, openBlock, inFlow,
    hopen, List.isEmpty_nil, Bool.not_true, Bool.false_or, Option.bind_some]
  split <;> simp_all [emitMark, Cursor.skip, outside]

/-- A name and its colon, at a place where a key may stand. -/
theorem tokens?_name (n : Nat) {name : List Char} (hne : name ≠ [])
    (hname : plainAllowed name = true) (hreach : name.length ≤ 256) (hend : atWordEnd rest = true)
    (hgap : s.skipGap = outside true m (name ++ ':' :: rest) indents tokens) :
    s.tokens? (n + 2) =
      tokens? n (outside false ((name.foldl Mark.after m).after ':') rest
        (enter m.column indents tokens).1
        (.value :: .scalar (String.ofList name) .plain :: (enter m.column indents tokens).2)) := by
  obtain ⟨c, cs, rfl⟩ := List.exists_cons_of_ne_nil hne
  let kept := indents.dropWhile (m.column < ·)
  let ended := (indents.takeWhile (m.column < ·)).map (fun _ => Token.blockEnd) ++ tokens
  obtain ⟨hopens, hmarker, hread⟩ := plain_of_plainAllowed
    (outside true m (c :: cs ++ ':' :: rest) kept ended).leastColumn hne hname
    (fun column => plain_colon column hend) (by simp) m.column
  have hclose : (outside true m (c :: cs ++ ':' :: rest) indents tokens).closeBlocks
      (some m.column) = outside true m (c :: cs ++ ':' :: rest) kept ended := rfl
  obtain ⟨hline, hcolumn, hoffset⟩ :=
    Mark.foldl_after (m := m) fun d hd => (printable_of_plainAllowed hname d hd).2
  rw [tokens?_succ (n + 1) hgap rfl hclose rfl]
  rw [token?_of_opensPlain rfl hopens hmarker, plain?_outside hread, Cursor.moveTo_append]
  rw [Option.bind_some, if_pos rfl, tokens?_colon n hline (by rw [hcolumn]; simp)
    (by rw [keyReach]; omega) (fun _ => le_of_head?_dropWhile) hend]
  rw [enter]
  split <;> rfl

end Scan

end Keys

section Values

namespace Scan

variable {s : Scan} {ws text rest : List Char} {style : ScalarStyle} {m : Mark} {indents : List Nat}
  {tokens : List Token} {k : Nat}

/-- Behind a line feed and spaces a key may stand. -/
theorem skipGap_outside (keyAllowed : Bool) (m : Mark) (indents : List Nat) (tokens : List Token)
    (hrest : OpensToken rest) (k : Nat) :
    ∃ m' : Mark, m'.column = k ∧
      (outside keyAllowed m ('\n' :: (List.replicate k ' ' ++ rest)) indents tokens).skipGap =
        outside true m' rest indents tokens := by
  obtain ⟨m', hcolumn, hgap⟩ := skipGap_line keyAllowed m hrest k
  exact ⟨m', hcolumn, skipGap_eq hgap⟩

/-- A token that is no key. -/
theorem content?_outside (m : Mark) (cs rest : List Char) (indents : List Nat) (tokens : List Token)
    (token : Token) :
    (outside false m (cs ++ rest) indents tokens).content? (some (token, rest)) =
      some (outside false (cs.foldl Mark.after m) rest indents (token :: tokens)) := by
  show some (⟨Cursor.moveTo ⟨m, cs ++ rest⟩ rest, token :: tokens, indents, none, [], false⟩ :
    Scan) = _
  rw [Cursor.moveTo_append]
  rfl

theorem token?_single {cs : List Char} (hcolumn : s.cursor.column ≠ 0)
    (hread : singleQuoted .none cs = some (text, rest)) :
    s.token? '\x27' cs = s.content? (some (.scalar (String.ofList text) .single, rest)) := by
  simp [token?, hcolumn, hread]

theorem token?_double {cs : List Char} (hcolumn : s.cursor.column ≠ 0)
    (hread : doubleQuoted (.text .none) cs = some (text, rest)) :
    s.token? '"' cs = s.content? (some (.scalar (String.ofList text) .double, rest)) := by
  simp [token?, hcolumn, hread]

/-- Behind one space, a token is taken at its first character. -/
theorem tokens?_space {c : Char} {cs : List Char} {u : Scan} (hopens : OpensToken (c :: cs))
    (hindents : ∀ indent, indents.head? = some indent → indent ≤ m.column)
    (hu : (outside false (m.after ' ') (c :: cs) indents tokens).token? c cs = some u) (n : Nat) :
    tokens? (n + 1) (outside false m (' ' :: c :: cs) indents tokens) = tokens? n u := by
  have hgap : (outside false m (' ' :: c :: cs) indents tokens).skipGap =
      outside false (m.after ' ') (c :: cs) indents tokens :=
    skipGap_eq (skipGap_spaces false m hopens 1)
  have hclose : (outside false (m.after ' ') (c :: cs) indents tokens).closeBlocks
      (some (m.after ' ').column) = outside false (m.after ' ') (c :: cs) indents tokens :=
    closeBlocks_eq_self _ fun indent hindent => Nat.le_succ_of_le (hindents indent hindent)
  rw [tokens?_succ n hgap rfl hclose rfl, hu, Option.bind_some]

/-- A token that ends at a line feed. -/
theorem tokens?_quoted {c : Char} {cs : List Char} {token : Token}
    (hopens : OpensToken (c :: (cs ++ '\n' :: (List.replicate k ' ' ++ rest))))
    (hrest : OpensToken rest)
    (hindents : ∀ indent, indents.head? = some indent → indent ≤ m.column)
    (hread : ∀ s : Scan, s.cursor.column ≠ 0 →
      s.token? c (cs ++ '\n' :: (List.replicate k ' ' ++ rest)) =
        s.content? (some (token, '\n' :: (List.replicate k ' ' ++ rest)))) :
    ∃ t : Scan, (∃ m' : Mark, m'.column = k ∧
        t.skipGap = outside true m' rest indents (token :: tokens)) ∧
      ∀ n, tokens? (n + 1) (outside false m
        (' ' :: c :: (cs ++ '\n' :: (List.replicate k ' ' ++ rest))) indents tokens) =
          tokens? n t := by
  refine ⟨_, skipGap_outside false ((c :: cs).foldl Mark.after (m.after ' ')) indents _ hrest k, ?_⟩
  refine tokens?_space hopens hindents ?_
  rw [hread _ (Nat.succ_ne_zero m.column)]
  exact content?_outside _ (c :: cs) ..

/-- A written text behind a colon and a space is read back, and a key may stand on the next line,
which is no further in. -/
theorem tokens?_value (h : Scribed ws text style) (hrest : OpensToken rest) {column : Nat}
    (hhead : indents.head? = some column) (hcolumn : column ≤ m.column)
    (hnext : rest ≠ [] → k ≤ column) :
    ∃ t : Scan, (∃ m' : Mark, m'.column = k ∧
        t.skipGap = outside true m' rest indents (.scalar (String.ofList text) style :: tokens)) ∧
      ∀ n, tokens? (n + 1) (outside false m
        (' ' :: (ws ++ '\n' :: (List.replicate k ' ' ++ rest))) indents tokens) = tokens? n t := by
  let tail := '\n' :: (List.replicate k ' ' ++ rest)
  have htoken : OpensToken (ws ++ tail) := h.opensToken tail
  have hindents : ∀ indent, indents.head? = some indent → indent ≤ m.column := by
    intro indent hindent
    rw [hhead] at hindent
    cases hindent
    exact hcolumn
  -- behind a quoted text the gap is still to be passed, behind a plain one it is
  cases h with
  | @plain _ ne allowed =>
    obtain ⟨c, cs, rfl⟩ := List.exists_cons_of_ne_nil ne
    have hleast : (outside false (m.after ' ') (c :: cs ++ tail) indents tokens).leastColumn =
        column + 1 := by
      simp [leastColumn, outside, hhead]
    obtain ⟨hopens, hmarker, hread⟩ := plain_of_plainAllowed
      (outside false (m.after ' ') (c :: cs ++ tail) indents tokens).leastColumn ne allowed
      (fun column => plain_line column k hrest fun h => hleast ▸ Nat.lt_succ_of_le (hnext h))
      (by simp) (m.after ' ').column
    have hmove : Cursor.moveTo ⟨m.after ' ', c :: cs ++ tail⟩ rest =
        ⟨(c :: cs ++ '\n' :: List.replicate k ' ').foldl Mark.after (m.after ' '), rest⟩ := by
      rw [show c :: cs ++ tail = c :: cs ++ '\n' :: List.replicate k ' ' ++ rest by simp [tail],
        Cursor.moveTo_append]
    have hplain := (token?_of_opensPlain rfl hopens hmarker).trans (plain?_outside hread)
    rw [hmove] at hplain
    exact ⟨_, ⟨_, Mark.column_foldl_line _ (c :: cs) k, skipGap_of_opensToken rfl hrest⟩,
      tokens?_space htoken hindents hplain⟩
  | single allowed unbroken =>
    refine tokens?_quoted htoken hrest hindents fun s hzero => ?_
    rw [List.append_assoc, List.singleton_append]
    exact token?_single hzero (singleQuoted_of_singleAllowed allowed unbroken _ (by simp))
  | double =>
    refine tokens?_quoted htoken hrest hindents fun s hzero => ?_
    rw [List.append_assoc, List.singleton_append]
    exact token?_double hzero (doubleQuoted_flatMap text [] _)

end Scan

end Values

section Lines

/-- A name that stands in front of a colon without quotes. -/
structure Label where
  name : String
  ne : name.toList ≠ []
  allowed : plainAllowed name.toList = true
  short : name.toList.length ≤ 256

def Label.token (l : Label) : Token := .scalar l.name .plain

/-- A text and a written form of it. -/
structure Inscription where
  written : List Char
  text : String
  style : ScalarStyle
  scribed : Scribed written text.toList style

def Inscription.token (i : Inscription) : Token := .scalar i.text i.style

/-- A line at a column: a name and its value, or the name alone before lines further in. -/
structure Line where
  column : Nat
  label : Label
  value : Option Inscription

namespace Line

def content (l : Line) : List Char := (l.value.map fun i => ' ' :: i.written).getD []

def indent : List Line → Nat
  | [] => 0
  | l :: _ => l.column

def text : List Line → List Char
  | [] => []
  | l :: ls =>
    List.replicate l.column ' ' ++ (l.label.name.toList ++ ':' :: (l.content ++ '\n' :: text ls))

def opening : List Line → List Char
  | [] => []
  | l :: ls => l.label.name.toList ++ ':' :: (l.content ++ '\n' :: text ls)

/-- No line is further in than the line with a value before it. -/
def Laid : List Line → Prop
  | [] => True
  | l :: ls => (l.value.isSome = true → indent ls ≤ l.column) ∧ Laid ls

/-- The tokens of lines behind `tokens`, the latest first, where collections are open at the columns
`indents`. -/
def tokens : List Line → List Nat → List Token → List Token
  | [], indents, ts => indents.map (fun _ => .blockEnd) ++ ts
  | l :: ls, indents, ts =>
    tokens ls (Scan.enter l.column indents ts).1
      (l.value.toList.map Inscription.token ++
        .value :: l.label.token :: (Scan.enter l.column indents ts).2)

def At (ls : List Line) (indents : List Nat) (ts : List Token) (s : Scan) : Prop :=
  ∃ m : Mark, m.column = indent ls ∧ s.skipGap = Scan.outside true m (opening ls) indents ts

variable {l : Line} {ls : List Line} {s : Scan} {indents : List Nat} {ts : List Token}

theorem text_eq (ls : List Line) : text ls = List.replicate (indent ls) ' ' ++ opening ls := by
  cases ls <;> rfl

theorem opensToken_opening (ls : List Line) : OpensToken (opening ls) := by
  cases ls with
  | nil => trivial
  | cons l ls => exact (Scribed.plain l.label.ne l.label.allowed).opensToken _

/-- Behind the last line all collections are closed. -/
theorem tokens?_nil (n : Nat) (h : At [] indents ts s) :
    s.tokens? (n + 1) = some (tokens [] indents ts).reverse := by
  obtain ⟨m, hcolumn, hgap⟩ := h
  let kept := indents.dropWhile (m.column < ·)
  let closed := indents.takeWhile (m.column < ·)
  have hend : s.tokens? (n + 1) = some (kept.map (fun _ => Token.blockEnd) ++
      (closed.map (fun _ => Token.blockEnd) ++ ts)).reverse := by
    have hevery : ∀ l : List Nat, (l.takeWhile fun _ => true) = l := fun l => by
      induction l with
      | nil => rfl
      | cons a l ih => rw [List.takeWhile_cons_of_pos rfl, ih]
    rw [Scan.tokens?, hgap]
    simp [Scan.expireSpots?, Scan.outside, Scan.closeBlocks, Scan.inFlow, Scan.dropSpot?,
      Scan.release?, hevery, opening, kept, closed]
  have hall : kept.length + closed.length = indents.length := by
    rw [Nat.add_comm, ← List.length_append, List.takeWhile_append_dropWhile]
  rw [hend, tokens, ← List.append_assoc]
  simp only [List.map_const', List.replicate_append_replicate, hall]

/-- The tokens of lines, and of nothing else, are read. -/
theorem tokens?_of_at (h : At ls indents ts s) (hlaid : Laid ls) {n : Nat}
    (hn : 3 * ls.length < n) : s.tokens? n = some (tokens ls indents ts).reverse := by
  induction ls generalizing s indents ts n with
  | nil =>
    obtain ⟨n, rfl⟩ := Nat.exists_eq_succ_of_ne_zero (Nat.ne_of_gt hn)
    exact tokens?_nil n h
  | cons l ls ih =>
    obtain ⟨m, hcolumn, hgap⟩ := h
    obtain ⟨n, rfl⟩ : ∃ k, n = k + 3 := ⟨n - 3, by rw [List.length_cons] at hn; omega⟩
    replace hn : 3 * ls.length < n := by rw [List.length_cons] at hn; omega
    replace hcolumn : m.column = l.column := hcolumn
    have hend : atWordEnd (l.content ++ '\n' :: text ls) = true := by
      unfold content
      cases l.value <;> rfl
    rw [Scan.tokens?_name (n + 1) l.label.ne l.label.allowed l.label.short hend hgap, hcolumn,
      String.ofList_toList, tokens, text_eq]
    have hopening := opensToken_opening ls
    cases hvalue : l.value with
    | none =>
      rw [show l.content = [] by simp [content, hvalue], List.nil_append]
      exact ih (Scan.skipGap_outside false _ _ _ hopening (indent ls)) hlaid.2 (by omega)
    | some i =>
      have hafter : l.column ≤ ((l.label.name.toList.foldl Mark.after m).after ':').column := by
        obtain ⟨-, hmoved, -⟩ :=
          Mark.foldl_after (m := m) fun c hc => (printable_of_plainAllowed l.label.allowed c hc).2
        show l.column ≤ (l.label.name.toList.foldl Mark.after m).column + 1
        omega
      obtain ⟨t, hat, hstep⟩ := Scan.tokens?_value i.scribed hopening
        (Scan.head?_enter l.column indents ts) hafter (fun _ => hlaid.1 (by simp [hvalue]))
      rw [show l.content = ' ' :: i.written by simp [content, hvalue], List.cons_append, hstep n]
      rw [String.ofList_toList] at hat
      exact ih hat hlaid.2 hn

/-- Every line has a name, a colon and a line feed. -/
theorem le_length_text (ls : List Line) : 3 * ls.length ≤ (text ls).length := by
  induction ls with
  | nil => exact Nat.le_refl 0
  | cons l ls ih =>
    have hname := List.length_pos_iff.2 l.label.ne
    simp only [text, List.length_append, List.length_cons]
    omega

theorem isPrintable_text (ls : List Line) : ∀ c ∈ text ls, isPrintable c = true := by
  induction ls with
  | nil => simp [text]
  | cons l ls ih =>
    have hcontent : ∀ c ∈ l.content, isPrintable c = true := by
      unfold content
      cases l.value with
      | none => simp
      | some i => simpa using ⟨rfl, i.scribed.isPrintable⟩
    have hspaces : ∀ c ∈ List.replicate l.column ' ', isPrintable c = true :=
      fun c hc => List.eq_of_mem_replicate hc ▸ rfl
    have hname : ∀ c ∈ l.label.name.toList, isPrintable c = true :=
      fun c hc => (printable_of_plainAllowed l.label.allowed c hc).1
    simp only [text, List.forall_mem_append, List.forall_mem_cons]
    exact ⟨hspaces, hname, rfl, hcontent, rfl, ih⟩

/-- The text of lines gives their tokens. -/
theorem tokens?_text (h : Laid ls) :
    tokens? (String.ofList (text ls)) = some (tokens ls [] []).reverse := by
  have hprintable := isPrintable_text ls
  have hpermitted : (text ls).all isPermitted = true :=
    List.all_eq_true.2 fun c hc => (isPermitted_of_isPrintable (hprintable c hc)).1
  have hbreaks : unifyBreaks (text ls) = text ls :=
    unifyBreaks_eq_self fun c hc => (isPermitted_of_isPrintable (hprintable c hc)).2
  have hat : At ls [] [] { cursor := { rest := text ls } } := by
    have hgap := skipGap_spaces true {} (opensToken_opening ls) (indent ls)
    rw [← text_eq] at hgap
    refine ⟨(List.replicate (indent ls) ' ').foldl Mark.after {}, ?_, ?_⟩
    · rw [Mark.column_foldl_spaces]
      exact Nat.zero_add _
    · exact Scan.skipGap_eq hgap
  have hlength := le_length_text ls
  rw [Yaml.tokens?]
  simp only [String.toList_ofList, hpermitted, if_true, hbreaks]
  exact tokens?_of_at hat h (by omega)

end Line

end Lines

end StraightLine.Yaml
