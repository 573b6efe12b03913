import StraightLine.Proofs.Tokens

/-! # Lexemes of a program text

A text is cut into names, numbers, member names with their dot, keywords with their slash, and
marks; blanks only separate. A slash directly behind a word belongs to the word, so a division has
a blank before it. -/
namespace StraightLine

inductive Lexeme where
  | name (text : String)
  | number (value : Nat)
  /-- A dot and a name, such as `.length`. -/
  | member (suffix : String)
  /-- A name and a slash, such as `typeof/`. -/
  | keyword (word : String)
  /-- A bracket, a comma or the symbol of an operator. -/
  | mark (text : String)
deriving Repr, DecidableEq

/-- Whether two characters next to each other belong to one lexeme. -/
def sticks (c d : Char) : Bool :=
  isIdentifierPart c && (isIdentifierPart d || d == '/') || c == '.' && isIdentifierPart d ||
    c == d && (c == '&' || c == '|')

/-- A character that sticks to no other. -/
def apart (c : Char) : Bool :=
  !isIdentifierPart c && c != '/' && c != '.' && c != '&' && c != '|'

/-- A dot and an identifier. -/
def isMember (suffix : String) : Bool :=
  match suffix.toList with
  | '.' :: cs => isIdentifier (String.ofList cs)
  | _ => false

/-- An identifier and a slash. -/
def isKeyword (word : String) : Bool :=
  word.toList.getLast? == some '/' && isIdentifier (String.ofList word.toList.dropLast)

def Lexeme.ofPiece? (piece : List Char) : Option Lexeme :=
  let text := String.ofList piece
  if isIdentifier text then some (.name text)
  else if piece.all Char.isDigit then some (.number (Nat.ofDigitChars 10 piece 0))
  else if isMember text then some (.member text)
  else if isKeyword text then some (.keyword text)
  else if piece == [' '] then none
  else some (.mark text)

def lexemes (text : String) : List Lexeme :=
  (text.toList.splitBy sticks).filterMap Lexeme.ofPiece?

section Cuts

variable {a b m : String}

theorem lexemes_append (h : ∀ x ∈ a.toList.getLast?, ∀ y ∈ b.toList.head?, sticks x y = false) :
    lexemes (a ++ b) = lexemes a ++ lexemes b := by
  rw [lexemes, String.toList_append, List.splitBy_append h, List.filterMap_append]
  rfl

theorem sticks_eq_false {c d : Char} (h : apart c = true ∨ apart d = true) :
    sticks c d = false := by
  simp only [apart, Bool.and_eq_true, Bool.not_eq_true', bne_iff_ne, ne_eq] at h
  rcases h with ⟨⟨⟨⟨hpart, hslash⟩, hdot⟩, hand⟩, hor⟩ | ⟨⟨⟨⟨hpart, hslash⟩, hdot⟩, hand⟩, hor⟩
  · simp [sticks, hpart, hdot, hand, hor]
  · by_cases hcd : c = d
    · subst hcd
      simp [sticks, hpart, hand, hor]
    · simp [sticks, hpart, hslash, hcd]

theorem lexemes_append_of_head (h : b.toList.head?.all apart = true) :
    lexemes (a ++ b) = lexemes a ++ lexemes b := by
  refine lexemes_append fun x _ y hy => sticks_eq_false (.inr ?_)
  simpa [Option.mem_def.1 hy] using h

theorem lexemes_append_of_last (h : a.toList.getLast?.all apart = true) :
    lexemes (a ++ b) = lexemes a ++ lexemes b := by
  refine lexemes_append fun x hx y _ => sticks_eq_false (.inl ?_)
  simpa [Option.mem_def.1 hx] using h

/-- A text that opens and ends with characters on their own can be cut out. -/
theorem lexemes_between (hfirst : m.toList.head?.any apart = true)
    (hlast : m.toList.getLast?.all apart = true) :
    lexemes (a ++ m ++ b) = lexemes a ++ lexemes m ++ lexemes b := by
  have hhead : (m ++ b).toList.head?.all apart = true := by
    cases hm : m.toList with
    | nil => simp [hm] at hfirst
    | cons c cs => simpa [String.toList_append, hm] using hfirst
  rw [String.append_assoc, lexemes_append_of_head hhead, lexemes_append_of_last hlast,
    List.append_assoc]

theorem lexemes_minus (text : String) : lexemes ("-" ++ text) = .mark "-" :: lexemes text := by
  have hminus : lexemes "-" = [.mark "-"] := by decide
  rw [lexemes_append_of_last (by decide), hminus]
  rfl

theorem lexemes_round (text : String) :
    lexemes ("(" ++ text ++ ")") = .mark "(" :: (lexemes text ++ [.mark ")"]) := by
  have hopen : lexemes "(" = [.mark "("] := by decide
  have hclose : lexemes ")" = [.mark ")"] := by decide
  rw [lexemes_append_of_head (by decide), lexemes_append_of_last (by decide), hopen, hclose]
  rfl

theorem lexemes_square (text : String) :
    lexemes ("[" ++ text ++ "]") = .mark "[" :: (lexemes text ++ [.mark "]"]) := by
  have hopen : lexemes "[" = [.mark "["] := by decide
  have hclose : lexemes "]" = [.mark "]"] := by decide
  rw [lexemes_append_of_head (by decide), lexemes_append_of_last (by decide), hopen, hclose]
  rfl

/-- A dot does not stick to what stands before it. -/
theorem lexemes_append_member (h : isMember b = true) :
    lexemes (a ++ b) = lexemes a ++ lexemes b := by
  refine lexemes_append fun x _ y hy => ?_
  obtain ⟨cs, hcs⟩ : ∃ cs, b.toList = '.' :: cs := by
    unfold isMember at h
    split at h
    next cs hcs => exact ⟨cs, hcs⟩
    next => cases h
  obtain rfl : y = '.' := by simpa [hcs] using hy.symm
  have hdot : isIdentifierPart '.' = false := by decide
  by_cases hx : x = '.'
  · subst hx
    decide
  · simp [sticks, hdot, hx]

end Cuts

section Words

variable {text : String}

theorem lexemes_of_chain (hne : text.toList ≠ [])
    (h : text.toList.IsChain fun c d => sticks c d = true) :
    lexemes text = (Lexeme.ofPiece? text.toList).toList := by
  rw [lexemes, List.splitBy_of_isChain hne h]
  cases hp : Lexeme.ofPiece? text.toList <;> simp [hp]

theorem isChain_sticks {cs : List Char} (h : cs.all isIdentifierPart = true) :
    cs.IsChain fun c d => sticks c d = true :=
  isChain_of_all (fun c d hc hd => by simp [sticks, hc, hd]) h

theorem lexemes_name (h : isIdentifier text = true) : lexemes text = [.name text] := by
  obtain ⟨c, cs, hcs, -, -⟩ := isIdentifier_cases h
  rw [lexemes_of_chain (by simp [hcs]) (isChain_sticks (all_of_isIdentifier h))]
  simp [Lexeme.ofPiece?, h]

theorem lexemes_number (n : Nat) : lexemes (toString n) = [.number n] := by
  have hdigits : (toString n).toList = Nat.toDigits 10 n := Nat.toList_repr
  have hall : (Nat.toDigits 10 n).all Char.isDigit = true :=
    List.all_eq_true.2 fun c hc => Nat.isDigit_of_mem_toDigits (by omega) (by omega) hc
  have hne : Nat.toDigits 10 n ≠ [] := Nat.toDigits_ne_nil
  have hparts : (Nat.toDigits 10 n).all isIdentifierPart = true := by
    rw [List.all_eq_true] at hall ⊢
    exact fun c hc => isIdentifierPart_of_isDigit (hall c hc)
  have hname : isIdentifier (String.ofList (Nat.toDigits 10 n)) = false := by
    obtain ⟨c, cs, hcs⟩ := List.exists_cons_of_ne_nil hne
    rw [hcs] at hall ⊢
    simp only [List.all_cons, Bool.and_eq_true] at hall
    exact not_isIdentifier_of_head (not_isIdentifierStart_of_isDigit hall.1)
  rw [lexemes_of_chain (hdigits ▸ hne) (hdigits ▸ isChain_sticks hparts), hdigits]
  simp [Lexeme.ofPiece?, hname, hall]

theorem lexemes_member (h : isMember text = true) : lexemes text = [.member text] := by
  have hmember := h
  unfold isMember at h
  split at h
  next cs hcs =>
    have hall := all_of_isIdentifier h
    rw [String.toList_ofList] at hall
    have hchain : text.toList.IsChain fun c d => sticks c d = true := by
      rw [hcs, List.isChain_cons]
      refine ⟨fun d hd => ?_, isChain_sticks hall⟩
      have hd := List.all_eq_true.1 hall d (List.mem_of_mem_head? hd)
      simp [sticks, hd]
    have hname : isIdentifier text = false := by
      rw [isIdentifier, hcs]
      rfl
    have hdigits : text.toList.all Char.isDigit = false := by
      rw [hcs]
      rfl
    rw [lexemes_of_chain (by simp [hcs]) hchain]
    simp [Lexeme.ofPiece?, hname, hdigits, hmember]
  next => cases h

theorem lexemes_keyword (h : isKeyword text = true) : lexemes text = [.keyword text] := by
  have hkeyword := h
  simp only [isKeyword, Bool.and_eq_true, beq_iff_eq] at h
  obtain ⟨hlast, hword⟩ := h
  have hall := all_of_isIdentifier hword
  obtain ⟨c, cs, hcs, hstart, -⟩ := isIdentifier_cases hword
  rw [String.toList_ofList] at hall hcs
  obtain ⟨word, htext⟩ := List.getLast?_eq_some_iff.1 hlast
  rw [htext, List.dropLast_concat] at hall hcs
  have hchain : text.toList.IsChain fun c d => sticks c d = true := by
    rw [htext, List.isChain_append]
    refine ⟨isChain_sticks hall, List.isChain_singleton _, fun x hx y hy => ?_⟩
    have hx := List.all_eq_true.1 hall x (List.mem_of_mem_getLast? hx)
    obtain rfl : y = '/' := by simpa using hy.symm
    simp [sticks, hx]
  have hslash : '/' ∈ text.toList := by simp [htext]
  have hname : isIdentifier text = false := by
    by_contra hname
    have hpart := List.all_eq_true.1 (all_of_isIdentifier (by simpa using hname)) '/' hslash
    exact absurd hpart (by decide)
  have hdigits : text.toList.all Char.isDigit = false := by
    rw [List.all_eq_false]
    exact ⟨'/', hslash, by decide⟩
  have hmember : isMember text = false := by
    rw [isMember, htext, hcs]
    split
    next cs' heq =>
      obtain ⟨rfl, -⟩ := List.cons.inj heq
      exact absurd hstart (by decide)
    next => rfl
  rw [lexemes_of_chain (by simp [htext]) hchain]
  simp [Lexeme.ofPiece?, hname, hdigits, hmember, hkeyword]

end Words

end StraightLine
