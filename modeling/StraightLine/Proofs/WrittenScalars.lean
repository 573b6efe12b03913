import StraightLine.Yaml.Scalar
import StraightLine.Yaml.Writer

/-! # Written scalars read back

A text without line feeds is written plain, in single quotes or in double quotes. Whichever it is,
the reader of that style gets the text back, and stops where the writer did. -/
namespace StraightLine.Yaml

section Characters

variable {c : Char} {cs rest : List Char}

theorem isBlank_of_isPrintable (h : isPrintable c = true) : isBlank c = (c == ' ') := by
  have htab : (c == '\t') = false := by
    rw [beq_eq_false_iff_ne]
    rintro rfl
    exact absurd h (by decide)
  rw [isBlank, htab, Bool.or_false]

end Characters

section Plain

variable {least : Nat} {rest : List Char}

/-- Nothing, or the start of a token: what is not passed over between tokens. -/
def OpensToken : List Char → Prop
  | [] => True
  | c :: _ => isBlank c = false ∧ isBreak c = false ∧ c ≠ '#' ∧ c ≠ '\ufeff'

/-- Behind a break, a line that is not indented enough ends a plain scalar. -/
theorem plain_breaks (first : Option Char) (more : List Char) (column k : Nat)
    (hrest : OpensToken rest) (hleast : rest ≠ [] → column + k < least) :
    plain false least (.breaks first more) column (List.replicate k ' ' ++ rest) =
      some ([], rest, true) := by
  induction k generalizing column with
  | zero =>
    cases rest with
    | nil => rfl
    | cons c cs =>
      obtain ⟨hblank, hbreak, -⟩ := hrest
      have hlt : column < least := by simpa using hleast (by simp)
      simp [plain, hblank, hbreak, Gap.endsScalar, Gap.spansLines, hlt]
  | succ k ih =>
    have hnext := ih (column + 1) fun h => by
      have hlt := hleast h
      omega
    simpa [List.replicate_succ, plain, isBlank, Gap.addBlank] using hnext

/-- A line feed ends a plain scalar if the next line is not indented enough. -/
theorem plain_line (column k : Nat) (hrest : OpensToken rest) (hleast : rest ≠ [] → k < least) :
    plain false least .none column ('\n' :: (List.replicate k ' ' ++ rest)) =
      some ([], rest, true) := by
  rw [plain, if_neg (by decide), if_pos (by decide)]
  exact plain_breaks _ _ 0 k hrest (by simpa using hleast)

/-- A colon before a blank or a break ends a plain scalar. -/
theorem plain_colon (column : Nat) (hend : atWordEnd rest = true) :
    plain false least .none column (':' :: rest) = some ([], ':' :: rest, false) := by
  simp [plain, isBlank, isBreak, isStrayColon, endsPlain, hend, Gap.none, Gap.spansLines]

/-- The words of a plain scalar and the spaces between them, up to where the scalar ends; `gap`
stands before the first of them. -/
theorem plain_words {tail : List Char} {broken : Bool}
    (htail : ∀ column, plain false least .none column tail = some ([], rest, broken))
    (cs gap : List Char) (column : Nat)
    (hcolumn : column = 0 → atMarker (cs ++ tail) = false)
    (hchars : ∀ c ∈ cs, isPrintable c = true ∧ isBreak c = false) (hgap : cs = [] → gap = [])
    (hlast : cs.getLast? ≠ some ' ') (hinner : hasInnerIndicator (!gap.isEmpty) cs = false) :
    plain false least (.blanks gap) column (cs ++ tail) = some (gap ++ cs, rest, broken) := by
  induction cs generalizing gap column with
  | nil =>
    rw [hgap rfl]
    exact htail column
  | cons c cs ih =>
    obtain ⟨hprintable, hbreak⟩ := hchars c (by simp)
    have hchars' : ∀ d ∈ cs, isPrintable d = true ∧ isBreak d = false :=
      fun d hd => hchars d (by simp [hd])
    simp only [hasInnerIndicator, Bool.or_eq_false_iff] at hinner
    obtain ⟨⟨hcolon, hcomment⟩, hinner⟩ := hinner
    rw [List.cons_append, plain]
    by_cases hspace : c = ' '
    · subst hspace
      have hne : cs ≠ [] := by
        rintro rfl
        simp at hlast
      have hspaced : (!(gap ++ [' ']).isEmpty) = true := by cases gap <;> rfl
      have hnext := ih (gap ++ [' ']) (column + 1) (by simp) hchars' (by simp [hne])
        (by rwa [List.getLast?_cons_of_ne_nil hne] at hlast) (by rw [hspaced]; exact hinner)
      simpa [isBlank, Gap.spansLines, Gap.addBlank] using hnext
    · have hblank : isBlank c = false := by simpa [isBlank_of_isPrintable hprintable] using hspace
      have hlast' : cs.getLast? ≠ some ' ' := by
        cases cs with
        | nil => simp
        | cons d ds => simpa using hlast
      have hnext := ih [] (column + 1) (by simp) hchars' (by simp) hlast'
        (by simpa [hblank, hbreak] using hinner)
      have hmarker : (column == 0 && atMarker (c :: (cs ++ tail))) = false := by
        by_cases hzero : column = 0
        · simpa [hzero] using hcolumn hzero
        · simp [hzero]
      have hends : Gap.endsScalar (.blanks gap) false least column (c :: (cs ++ tail)) = false := by
        cases gap with
        | nil => simp [Gap.endsScalar, Gap.spansLines, Gap.none, hmarker]
        | cons d ds => simpa [Gap.endsScalar, Gap.spansLines, hmarker] using fun _ => hcomment
      have hplain : endsPlain false c (cs ++ tail) = false := by
        -- a colon is not the last character, so the same character stands behind it
        cases cs with
        | nil =>
          simpa [endsPlain, atWordEnd] using fun h => absurd h (by simpa [atWordEnd] using hcolon)
        | cons d ds => simpa [endsPlain, atWordEnd] using hcolon
      simp [hblank, hbreak, hends, isStrayColon, hplain, Gap.none, hnext, Gap.text]

/-- Three equal characters that neither open a text nor start within it. -/
theorem not_triple_append {c : Char} {cs tail : List Char} (h : [c, c, c].isPrefixOf cs = false)
    (htail : tail.head? ≠ some c) : ∀ rest, cs ++ tail ≠ c :: c :: c :: rest := by
  intro rest heq
  match cs with
  | [] | [_] | [_, _] => simp_all
  | _ :: _ :: _ :: _ => simp_all [List.isPrefixOf]

/-- A text that does not open like a marker is none, whatever else comes behind it. -/
theorem atMarker_append {cs tail : List Char} (h : opensLikeMarker cs = false)
    (htail : tail.head? ≠ some '-' ∧ tail.head? ≠ some '.') : atMarker (cs ++ tail) = false := by
  obtain ⟨hdashes, hdots⟩ := Bool.or_eq_false_iff.1 h
  rw [atMarker, atStartMarker, atEndMarker, Bool.or_self]
  · exact not_triple_append hdots htail.2
  · exact not_triple_append hdashes htail.1

theorem printable_of_plainAllowed {cs : List Char} (h : plainAllowed cs = true) :
    ∀ c ∈ cs, isPrintable c = true ∧ isBreak c = false := by
  simp only [plainAllowed, Bool.and_eq_true, List.all_eq_true, Bool.not_eq_true'] at h
  exact h.1.1.1.1.1

/-- A text that needs no quotes opens a plain scalar, and is read to where the scalar ends. -/
theorem plain_of_plainAllowed (least : Nat) {cs tail : List Char} {broken : Bool} (hne : cs ≠ [])
    (h : plainAllowed cs = true)
    (htail : ∀ column, plain false least .none column tail = some ([], rest, broken))
    (hhead : tail.head? ≠ some '-' ∧ tail.head? ≠ some '.') (column : Nat) :
    opensPlain false (cs ++ tail) = true ∧ atMarker (cs ++ tail) = false ∧
      plain false least .none column (cs ++ tail) = some (cs, rest, broken) := by
  have hchars := printable_of_plainAllowed h
  simp only [plainAllowed, Bool.and_eq_true, Bool.not_eq_true'] at h
  obtain ⟨⟨⟨⟨⟨-, hfirst⟩, hlast⟩, hmarker⟩, hleading⟩, hinner⟩ := h
  have hmarker' := atMarker_append hmarker hhead
  cases cs with
  | nil => exact absurd rfl hne
  | cons c cs =>
    obtain ⟨hprintable, hbreak⟩ := hchars c (by simp)
    have hblank : isBlank c = false := by
      simpa [isBlank_of_isPrintable hprintable] using hfirst
    simp only [hasLeadingIndicator, Bool.or_eq_false_iff] at hleading
    obtain ⟨hindicator, hmark⟩ := hleading
    refine ⟨?_, hmarker', ?_⟩
    · -- a dash, question mark or colon is no indicator as long as its word goes on
      have hgoes : (c == '-' || c == '?' || c == ':') = true → atWordEnd (cs ++ tail) = false := by
        intro hc
        rw [hc, Bool.true_and] at hmark
        cases cs with
        | nil => cases hmark
        | cons d ds => exact hmark
      rw [List.cons_append, opensPlain]
      split
      next hdash => simp [hgoes (by simp [hdash])]
      next =>
        split
        next hquestion =>
          have hend := hgoes (by rw [Bool.or_assoc, hquestion, Bool.or_true])
          simp [hend]
        next => simp [hblank, hbreak, hindicator]
    · refine plain_words htail (c :: cs) [] column (fun _ => hmarker') hchars (by simp)
        (by simpa using hlast) ?_
      have hcolon : (c == ':' && atWordEnd cs) = false := by
        by_cases hc : c = ':'
        · simpa [hc] using hmark
        · simp [hc]
      simp only [hasInnerIndicator, hcolon, List.isEmpty_nil, Bool.not_true, Bool.and_false,
        Bool.false_or]
      exact hinner

end Plain

section Single

variable {c f : Char} {cs more rest : List Char}

theorem singleQuoted_cons (gap : Gap) (h : c ≠ '\x27') (cs : List Char) :
    singleQuoted gap (c :: cs) =
      if isBlank c then singleQuoted (gap.addBlank c) cs
      else if isBreak c then if atMarker cs then none else singleQuoted (gap.addBreak c) cs
      else before (gap.text ++ [c]) (singleQuoted .none cs) := by
  rw [singleQuoted]
  · rw [if_neg (by simpa using h)]
  · intro cs' hquote
    exact absurd hquote h

/-- A break other than a line feed is kept. -/
theorem Gap.text_breaks (h : f ≠ '\n') (more : List Char) :
    (Gap.breaks (some f) more).text = f :: more := by
  unfold Gap.text
  split <;> simp_all

/-- The line behind a break is indented or empty, so no marker opens it. -/
theorem atMarker_singleBody (cs rest : List Char) :
    atMarker (singleBody true cs ++ '\x27' :: rest) = false := by
  cases cs with
  | nil => rfl
  | cons c cs =>
    rw [singleBody]
    split
    next hbreak =>
      have hdash : c ≠ '-' := by rintro rfl; exact absurd hbreak (by decide)
      have hdot : c ≠ '.' := by rintro rfl; exact absurd hbreak (by decide)
      simp [atMarker, atStartMarker, atEndMarker, hdash, hdot]
    next => rfl

/-- The indentation behind a break is dropped. -/
theorem singleQuoted_indented (first : Option Char) (more cs : List Char) :
    singleQuoted (.breaks first more) ([' ', ' ', ' ', ' '] ++ cs) =
      singleQuoted (.breaks first more) cs := by
  simp [singleQuoted_cons, isBlank, Gap.addBlank]

theorem hasSpacedBreak_tail (h : hasSpacedBreak (c :: cs) = false) : hasSpacedBreak cs = false := by
  cases cs with
  | nil => rfl
  | cons d ds =>
    simp only [hasSpacedBreak, Bool.or_eq_false_iff] at h
    exact h.2

theorem head?_of_break (h : hasSpacedBreak (c :: cs) = false) (hbreak : isBreak c = true) :
    cs.head? ≠ some ' ' := by
  intro hhead
  cases cs with
  | nil => cases hhead
  | cons d ds =>
    cases hhead
    simp [hasSpacedBreak, hbreak] at h

theorem head?_of_space (h : hasSpacedBreak (' ' :: cs) = false) :
    cs.head?.all (!isBreak ·) = true := by
  cases cs with
  | nil => rfl
  | cons d ds =>
    simp only [hasSpacedBreak, Bool.or_eq_false_iff] at h
    simpa using h.1.1

theorem singleQuoted_close (gap : Gap) (hrest : rest.head? ≠ some '\x27') :
    singleQuoted gap ('\x27' :: rest) = some (gap.text, rest) := by
  rw [singleQuoted]
  · simp
  · rintro cs' - rfl
    exact hrest rfl

/-- A character of a word is read behind any gap; a quote is doubled. -/
theorem singleQuoted_char {text tail : List Char} (hprintable : isPrintable c = true)
    (hbreak : isBreak c = false) (hspace : c ≠ ' ')
    (htail : singleQuoted .none tail = some (text, rest)) (gap : Gap) :
    singleQuoted gap ((if c == '\x27' then ['\x27', '\x27'] else [c]) ++ tail) =
      some (gap.text ++ c :: text, rest) := by
  have hblank : isBlank c = false := by simpa [isBlank_of_isPrintable hprintable] using hspace
  by_cases hquote : c = '\x27'
  · subst hquote
    simp [singleQuoted, before, htail]
  · simp [hquote, singleQuoted_cons, hblank, hbreak, before, htail]

/-- A break is added to any gap. -/
theorem singleQuoted_break (hprintable : isPrintable c = true) (hbreak : isBreak c = true)
    (gap : Gap) (cs rest : List Char) :
    singleQuoted gap (c :: (singleBody true cs ++ '\x27' :: rest)) =
      singleQuoted (gap.addBreak c) (singleBody true cs ++ '\x27' :: rest) := by
  have hquote : c ≠ '\x27' := by rintro rfl; exact absurd hbreak (by decide)
  have hblank : isBlank c = false := by
    rw [isBlank_of_isPrintable hprintable, beq_eq_false_iff_ne]
    rintro rfl
    exact absurd hbreak (by decide)
  simp [singleQuoted_cons gap hquote, hblank, hbreak, atMarker_singleBody]

/-- A text up to the closing quote, behind spaces on its line or behind breaks. No space stands next
to a break, and no break is a line feed, so all of them are kept. -/
theorem singleQuoted_singleBody (cs : List Char)
    (hchars : ∀ c ∈ cs, isPrintable c = true ∧ c ≠ '\n') (hspaced : hasSpacedBreak cs = false)
    (hrest : rest.head? ≠ some '\x27') :
    (∀ gap : List Char, (gap ≠ [] → cs.head?.all (!isBreak ·) = true) →
      singleQuoted (.blanks gap) (singleBody false cs ++ '\x27' :: rest) = some (gap ++ cs, rest)) ∧
    ∀ first more, first ≠ '\n' → cs.head? ≠ some ' ' →
      singleQuoted (.breaks (some first) more) (singleBody true cs ++ '\x27' :: rest) =
        some (first :: more ++ cs, rest) := by
  induction cs with
  | nil =>
    refine ⟨fun gap _ => ?_, fun first more hfirst _ => ?_⟩
    · simp [singleBody, singleQuoted_close _ hrest, Gap.text]
    · simp only [singleBody, if_pos, singleQuoted_indented, singleQuoted_close _ hrest,
        Gap.text_breaks hfirst]
      simp
  | cons c cs ih =>
    obtain ⟨hprintable, hfeed⟩ := hchars c (by simp)
    obtain ⟨hwords, hlines⟩ :=
      ih (fun d hd => hchars d (by simp [hd])) (hasSpacedBreak_tail hspaced)
    cases hbreak : isBreak c with
    | true =>
      have hindent := head?_of_break hspaced hbreak
      refine ⟨fun gap hgap => ?_, fun first more hfirst _ => ?_⟩
      · have hempty : gap = [] := by
          cases gap with
          | nil => rfl
          | cons d ds => simpa [hbreak] using hgap (by simp)
        rw [hempty, singleBody, if_pos hbreak, List.cons_append, singleQuoted_break hprintable hbreak]
        simpa [Gap.addBreak] using hlines c [] hfeed hindent
      · rw [singleBody, if_pos hbreak, List.cons_append, singleQuoted_break hprintable hbreak]
        simpa [Gap.addBreak] using hlines first (more ++ [c]) hfirst hindent
    | false =>
      have hchar := fun hspace =>
        singleQuoted_char hprintable hbreak hspace (hwords [] (by simp))
      simp only [singleBody, hbreak, Bool.false_eq_true, if_false, if_true, List.nil_append,
        List.append_assoc]
      refine ⟨fun gap _ => ?_, fun first more hfirst hhead => ?_⟩
      · by_cases hspace : c = ' '
        · subst hspace
          have hnext := hwords (gap ++ [' ']) fun _ => head?_of_space hspaced
          simpa [singleQuoted_cons, isBlank, Gap.addBlank] using hnext
        · simpa [Gap.text] using hchar hspace (.blanks gap)
      · rw [singleQuoted_indented, hchar (by simpa using hhead), Gap.text_breaks hfirst]
        rfl

theorem singleQuoted_of_singleAllowed (h : singleAllowed cs = true) (hfeed : '\n' ∉ cs)
    (rest : List Char) (hrest : rest.head? ≠ some '\x27') :
    singleQuoted .none (singleBody false cs ++ '\x27' :: rest) = some (cs, rest) := by
  simp only [singleAllowed, Bool.and_eq_true, List.all_eq_true, Bool.not_eq_true'] at h
  have hchars : ∀ c ∈ cs, isPrintable c = true ∧ c ≠ '\n' :=
    fun c hc => ⟨h.1 c hc, fun heq => hfeed (heq ▸ hc)⟩
  exact (singleQuoted_singleBody cs hchars h.2 hrest).1 [] (by simp)

end Single

section Double

variable {c letter : Char} {cs more rest : List Char}

theorem digit?_hexDigit (n : Nat) : digit? 16 (hexDigit n) = some (n % 16) := by
  have hall : ∀ d < 16, digit? 16 (Nat.digitChar d).toUpper = some d := by decide
  exact hall (n % 16) (Nat.mod_lt n (by decide))

/-- The digits of a number are read one after the other, behind those of `value`. -/
theorem doubleQuoted_hex (width value n : Nat) (rest : List Char) :
    doubleQuoted (.number (width + 1) value) (hex (width + 1) n ++ rest) =
      (character? (value * Nat.pow 16 (width + 1) + n % Nat.pow 16 (width + 1))).bind fun e =>
        before [e] (doubleQuoted (.text .none) rest) := by
  induction width generalizing value with
  | zero => simp [hex, doubleQuoted, digit?_hexDigit]
  | succ width ih =>
    let unit := Nat.pow 16 (width + 1)
    have hunit : Nat.pow 16 (width + 2) = unit * 16 := rfl
    have hsplit : n % (unit * 16) = n / unit % 16 * unit + n % unit := by
      rw [Nat.mod_mul, Nat.mul_comm, Nat.add_comm]
    have hvalue : (value * 16 + n / unit % 16) * unit + n % unit =
        value * (unit * 16) + n % (unit * 16) := by
      rw [hsplit, Nat.add_mul, Nat.mul_comm unit 16, ← Nat.mul_assoc, Nat.add_assoc]
    rw [hex, List.cons_append, doubleQuoted, digit?_hexDigit, hunit, ← hvalue]
    exact ih (value * 16 + n / unit % 16)

/-- A letter behind a backslash stands for the character it was written for. -/
theorem escaped?_of_escapeLetter? (h : escapeLetter? c = some letter) :
    isBreak letter = false ∧ hexDigits? letter = none ∧ escaped? letter = some c := by
  unfold escapeLetter? at h
  split at h
  all_goals cases h
  all_goals exact ⟨rfl, rfl, rfl⟩

theorem character?_toNat (c : Char) : character? c.toNat = some c := by
  have hvalid : c.toNat.isValidChar := c.valid
  rw [character?, if_pos hvalid, Char.ofNat_toNat]

theorem toNat_lt (c : Char) : c.toNat < Nat.pow 16 8 := by
  have hvalid : c.toNat.isValidChar := c.valid
  unfold Nat.isValidChar at hvalid
  show c.toNat < 4294967296
  omega

theorem before_before (cs ds : List Char) (result : Option (List Char × List Char)) :
    before cs (before ds result) = before (cs ++ ds) result := by
  cases result <;> simp [before]

/-- A character that has no letter of its own neither ends the text nor starts a line or an escape.
-/
theorem of_escapeLetter?_eq_none (h : escapeLetter? c = none) :
    c ≠ '"' ∧ c ≠ '\\' ∧ isBreak c = false := by
  refine ⟨?_, ?_, ?_⟩
  · rintro rfl
    exact absurd h (by decide)
  · rintro rfl
    exact absurd h (by decide)
  · rw [isBreak, Bool.or_eq_false_iff, Bool.or_eq_false_iff]
    simp only [beq_eq_false_iff_ne]
    refine ⟨⟨?_, ?_⟩, ?_⟩ <;> (rintro rfl; exact absurd h (by decide))

/-- A character behind spaces: spaces are gathered, and any other character comes behind them. -/
theorem doubleQuoted_doubleChar (gap : List Char) (c : Char) (rest : List Char) :
    doubleQuoted (.text (.blanks gap)) (doubleChar c ++ rest) =
      if c = ' ' then doubleQuoted (.text (.blanks (gap ++ [' ']))) rest
      else before (gap ++ [c]) (doubleQuoted (.text .none) rest) := by
  have hescape : ∀ cs, doubleQuoted (.text (.blanks gap)) ('\\' :: cs) =
      before gap (doubleQuoted .escape cs) := fun cs => by simp [doubleQuoted, Gap.text]
  unfold doubleChar
  split
  next letter hletter =>
    obtain ⟨hbreak, hhex, hescaped⟩ := escaped?_of_escapeLetter? hletter
    have hspace : c ≠ ' ' := by
      rintro rfl
      cases hletter
    rw [if_neg hspace, List.cons_append, List.singleton_append, hescape, doubleQuoted,
      if_neg (by simp [hbreak]), hhex, hescaped, Option.bind_some, before_before]
  next hletter =>
    obtain ⟨hquote, hbackslash, hbreak⟩ := of_escapeLetter?_eq_none hletter
    split
    next hprintable =>
      rw [List.singleton_append, doubleQuoted, if_neg (by simpa using hquote),
        if_neg (by simpa using hbackslash), isBlank_of_isPrintable hprintable]
      by_cases hspace : c = ' ' <;> simp [hspace, hbreak, Gap.addBlank, Gap.text]
    next hprintable =>
      have hspace : c ≠ ' ' := by
        rintro rfl
        exact absurd rfl hprintable
      have hnumbered : ∀ {letter : Char} {width : Nat}, hexDigits? letter = some (width + 1) →
          isBreak letter = false → c.toNat < Nat.pow 16 (width + 1) →
          doubleQuoted (.text (.blanks gap)) (['\\', letter] ++ hex (width + 1) c.toNat ++ rest) =
            before (gap ++ [c]) (doubleQuoted (.text .none) rest) := by
        intro letter width hletter hbreak hlt
        rw [List.append_assoc, List.cons_append, hescape, List.singleton_append, doubleQuoted,
          if_neg (by simp [hbreak]), hletter]
        show before gap (doubleQuoted (.number (width + 1) 0) (hex (width + 1) c.toNat ++ rest)) = _
        rw [doubleQuoted_hex, Nat.zero_mul, Nat.zero_add, Nat.mod_eq_of_lt hlt, character?_toNat,
          Option.bind_some, before_before]
      rw [if_neg hspace]
      split
      next hle => exact hnumbered rfl rfl (Nat.lt_succ_of_le hle)
      next =>
        split
        next hle => exact hnumbered rfl rfl (Nat.lt_succ_of_le hle)
        next => exact hnumbered rfl rfl (toNat_lt c)

theorem doubleQuoted_flatMap (cs gap rest : List Char) :
    doubleQuoted (.text (.blanks gap)) (cs.flatMap doubleChar ++ '"' :: rest) =
      some (gap ++ cs, rest) := by
  induction cs generalizing gap with
  | nil => simp [doubleQuoted, Gap.text]
  | cons c cs ih =>
    rw [List.flatMap_cons, List.append_assoc, doubleQuoted_doubleChar]
    split
    next hspace => rw [ih, hspace, List.append_assoc, List.singleton_append]
    next => simp [Gap.none, ih, before]

end Double

section Written

variable {c : Char} {cs ws rest : List Char} {style : ScalarStyle}

/-- The forms in which a text is written so that it is read back. -/
inductive Scribed : List Char → List Char → ScalarStyle → Prop
  | plain {cs : List Char} (ne : cs ≠ []) (allowed : plainAllowed cs = true) : Scribed cs cs .plain
  | single {cs : List Char} (allowed : singleAllowed cs = true) (unbroken : '\n' ∉ cs) :
      Scribed ('\x27' :: (singleBody false cs ++ ['\x27'])) cs .single
  | double (cs : List Char) : Scribed ('"' :: (cs.flatMap doubleChar ++ ['"'])) cs .double

def writtenStyle (cs : List Char) : ScalarStyle :=
  if !isAmbiguous (String.ofList cs) && plainAllowed cs then .plain
  else if singleAllowed cs then .single
  else .double

theorem scribed_writeChars (h : '\n' ∉ cs) : Scribed (writeChars cs) cs (writtenStyle cs) := by
  unfold writeChars writtenStyle
  split
  next hplain =>
    rw [Bool.and_eq_true] at hplain
    refine .plain ?_ hplain.2
    rintro rfl
    exact absurd hplain.1 (by decide)
  next =>
    split
    next hsingle => exact .single hsingle h
    next => exact .double cs

theorem isPrintable_singleBody (broken : Bool) (h : ∀ c ∈ cs, isPrintable c = true) :
    ∀ c ∈ singleBody broken cs, isPrintable c = true := by
  have hindent : ∀ broken : Bool, ∀ c ∈ (if broken then [' ', ' ', ' ', ' '] else []),
      isPrintable c = true := by
    intro broken c hc
    have hspace : c = ' ' := by cases broken <;> simp_all
    exact hspace ▸ rfl
  induction cs generalizing broken with
  | nil => exact hindent broken
  | cons d ds ih =>
    rw [List.forall_mem_cons] at h
    intro c hc
    rw [singleBody] at hc
    split at hc
    next =>
      rcases List.mem_cons.1 hc with rfl | hc
      · exact h.1
      · exact ih true h.2 c hc
    next =>
      rw [List.mem_append, List.mem_append] at hc
      rcases hc with (hc | hc) | hc
      · exact hindent broken c hc
      · split at hc
        · obtain rfl : c = '\x27' := by simpa using hc
          rfl
        · exact List.mem_singleton.1 hc ▸ h.1
      · exact ih false h.2 c hc

theorem isPrintable_hex (width n : Nat) : ∀ c ∈ hex width n, isPrintable c = true := by
  have hall : ∀ d < 16, isPrintable (Nat.digitChar d).toUpper = true := by decide
  induction width with
  | zero => simp [hex]
  | succ width ih =>
    rw [hex, List.forall_mem_cons]
    exact ⟨hall _ (Nat.mod_lt _ (by decide)), ih⟩

theorem isPrintable_doubleChar (d : Char) : ∀ c ∈ doubleChar d, isPrintable c = true := by
  have hletters : ∀ {letter : Char}, escapeLetter? d = some letter → isPrintable letter = true := by
    intro letter h
    unfold escapeLetter? at h
    split at h
    all_goals cases h
    all_goals rfl
  have hnumbered : ∀ letter ∈ ['x', 'u', 'U'], ∀ width n,
      ∀ c ∈ ['\\', letter] ++ hex width n, isPrintable c = true := by
    intro letter hletter width n
    rw [List.forall_mem_append, List.forall_mem_cons, List.forall_mem_singleton]
    have hmark : isPrintable letter = true := by
      simp only [List.mem_cons, List.not_mem_nil, or_false] at hletter
      rcases hletter with rfl | rfl | rfl <;> rfl
    exact ⟨⟨rfl, hmark⟩, isPrintable_hex width n⟩
  unfold doubleChar
  split
  next letter hletter =>
    rw [List.forall_mem_cons, List.forall_mem_singleton]
    exact ⟨rfl, hletters hletter⟩
  next =>
    split
    next hprintable => simpa using hprintable
    next =>
      split
      next => exact hnumbered 'x' (by simp) _ _
      next =>
        split
        next => exact hnumbered 'u' (by simp) _ _
        next => exact hnumbered 'U' (by simp) _ _

/-- What is written holds only characters that are written as they are. -/
theorem Scribed.isPrintable (h : Scribed ws cs style) : ∀ c ∈ ws, isPrintable c = true := by
  cases h with
  | plain ne allowed => exact fun c hc => (printable_of_plainAllowed allowed c hc).1
  | single allowed unbroken =>
    simp only [singleAllowed, Bool.and_eq_true, List.all_eq_true] at allowed
    intro c hc
    rw [List.mem_cons, List.mem_append, List.mem_singleton] at hc
    rcases hc with rfl | hc | rfl
    · rfl
    · exact isPrintable_singleBody false allowed.1 c hc
    · rfl
  | double =>
    intro c hc
    rw [List.mem_cons, List.mem_append, List.mem_flatMap, List.mem_singleton] at hc
    rcases hc with rfl | ⟨d, -, hc⟩ | rfl
    · rfl
    · exact isPrintable_doubleChar d c hc
    · rfl

/-- A written text opens with a token of its own. -/
theorem Scribed.opensToken (h : Scribed ws cs style) (tail : List Char) :
    OpensToken (ws ++ tail) := by
  cases h with
  | @plain ws ne allowed =>
    obtain ⟨c, ws, rfl⟩ := List.exists_cons_of_ne_nil ne
    obtain ⟨hprintable, hbreak⟩ := printable_of_plainAllowed allowed c (by simp)
    simp only [plainAllowed, Bool.and_eq_true, Bool.not_eq_true'] at allowed
    obtain ⟨⟨⟨⟨⟨-, hfirst⟩, -⟩, -⟩, hleading⟩, -⟩ := allowed
    refine ⟨?_, hbreak, ?_, ?_⟩
    · simpa [isBlank_of_isPrintable hprintable] using hfirst
    · rintro rfl
      cases hleading
    · rintro rfl
      cases hprintable
  | single | double => exact ⟨rfl, rfl, by decide, by decide⟩

/-- Characters that are written as they are may stand in a document, and none of them is a spelling
of the line feed other than the line feed itself. -/
theorem isPermitted_of_isPrintable (h : isPrintable c = true) :
    isPermitted c = true ∧ c ≠ '\r' ∧ c ≠ '\u0085' := by
  refine ⟨?_, ?_, ?_⟩
  · simp only [isPrintable, isPermitted, Bool.or_eq_true, Bool.and_eq_true, beq_iff_eq,
      bne_iff_ne, decide_eq_true_eq] at h ⊢
    omega
  · rintro rfl
    exact absurd h (by decide)
  · rintro rfl
    exact absurd h (by decide)

theorem unifyBreaks_eq_self (h : ∀ c ∈ cs, c ≠ '\r' ∧ c ≠ '\u0085') : unifyBreaks cs = cs := by
  induction cs with
  | nil => rfl
  | cons c cs ih =>
    rw [List.forall_mem_cons] at h
    rw [unifyBreaks, ih h.2, if_neg (by simp [h.1])]
    rintro - rfl
    exact absurd rfl h.1.1

end Written

end StraightLine.Yaml
