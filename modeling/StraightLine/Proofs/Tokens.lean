import StraightLine.Settings.Basic
import Mathlib.Data.List.SplitBy

/-! # Tokens of a written text

A text is cut into names, numbers, relations and single symbols; blanks only separate. Word
characters stick together, and so do the characters of a relation, so a text can be cut anywhere
else. -/
namespace StraightLine

def isRelationPart (c : Char) : Bool := c == '<' || c == '>' || c == '=' || c == '!'

def isRelation (text : String) : Bool := !text.toList.isEmpty && text.toList.all isRelationPart

inductive Token where
  | name (text : String)
  | number (value : Nat)
  | relation (text : String)
  | symbol (c : Char)
deriving Repr, DecidableEq

/-- Whether two characters next to each other belong to one token. -/
def glued (c d : Char) : Bool :=
  isIdentifierPart c && isIdentifierPart d || isRelationPart c && isRelationPart d

/-- A character that is a token of its own, or a blank. -/
def isolated (c : Char) : Bool := !isIdentifierPart c && !isRelationPart c

def Token.ofPiece? (piece : List Char) : Option Token :=
  if isIdentifier (String.ofList piece) then some (.name (String.ofList piece))
  else if piece.all Char.isDigit then some (.number (Nat.ofDigitChars 10 piece 0))
  else if piece.all isRelationPart then some (.relation (String.ofList piece))
  else match piece with
    | [' '] => none
    | c :: _ => some (.symbol c)
    | [] => none

def lex (text : String) : List Token := (text.toList.splitBy glued).filterMap Token.ofPiece?

theorem lex_append {a b : String}
    (h : ∀ x ∈ a.toList.getLast?, ∀ y ∈ b.toList.head?, glued x y = false) :
    lex (a ++ b) = lex a ++ lex b := by
  rw [lex, String.toList_append, List.splitBy_append h, List.filterMap_append]
  rfl

theorem lex_append_of_head {a b : String} (h : b.toList.head?.all isolated = true) :
    lex (a ++ b) = lex a ++ lex b := by
  refine lex_append fun x _ y hy => ?_
  have hi : isolated y = true := by simpa [hy, Option.mem_def.1 hy] using h
  simp only [isolated, Bool.and_eq_true, Bool.not_eq_true'] at hi
  simp [glued, hi.1, hi.2]

theorem lex_append_of_last {a b : String} (h : a.toList.getLast?.all isolated = true) :
    lex (a ++ b) = lex a ++ lex b := by
  refine lex_append fun x hx y _ => ?_
  have hi : isolated x = true := by simpa [Option.mem_def.1 hx] using h
  simp only [isolated, Bool.and_eq_true, Bool.not_eq_true'] at hi
  simp [glued, hi.1, hi.2]

/-- A text that opens and ends with isolated characters can be cut out. -/
theorem lex_between {a b m : String} (hfirst : m.toList.head?.any isolated = true)
    (hlast : m.toList.getLast?.all isolated = true) :
    lex (a ++ m ++ b) = lex a ++ lex m ++ lex b := by
  have hhead : (m ++ b).toList.head?.all isolated = true := by
    cases hm : m.toList with
    | nil => simp [hm] at hfirst
    | cons c cs => simpa [String.toList_append, hm] using hfirst
  rw [String.append_assoc, lex_append_of_head hhead, lex_append_of_last hlast, List.append_assoc]

theorem lex_of_chain {text : String} (hne : text.toList ≠ [])
    (h : text.toList.IsChain fun c d => glued c d = true) :
    lex text = (Token.ofPiece? text.toList).toList := by
  rw [lex, List.splitBy_of_isChain hne h]
  cases hp : Token.ofPiece? text.toList <;> simp [hp]

theorem isChain_of_all {p : Char → Bool} {r : Char → Char → Bool}
    (hr : ∀ c d, p c = true → p d = true → r c d = true) {cs : List Char} (h : cs.all p = true) :
    cs.IsChain fun c d => r c d = true := by
  induction cs with
  | nil => exact .nil
  | cons c cs ih =>
    simp only [List.all_cons, Bool.and_eq_true] at h
    rw [List.isChain_cons]
    refine ⟨fun d hd => ?_, ih h.2⟩
    exact hr c d h.1 (List.all_eq_true.1 h.2 d (List.mem_of_mem_head? hd))

theorem isIdentifierPart_of_isDigit {c : Char} (h : c.isDigit = true) :
    isIdentifierPart c = true := by
  simp [isIdentifierPart, Char.isAlphanum, h]

theorem isIdentifierPart_of_start {c : Char} (h : isIdentifierStart c = true) :
    isIdentifierPart c = true := by
  simp only [isIdentifierStart, Bool.or_eq_true] at h
  rcases h with h | h
  · simp [isIdentifierPart, Char.isAlphanum, h]
  · simp [isIdentifierPart, h]

theorem isIdentifier_cases {name : String} (h : isIdentifier name = true) :
    ∃ c cs, name.toList = c :: cs ∧ isIdentifierStart c = true ∧ cs.all isIdentifierPart = true := by
  unfold isIdentifier at h
  split at h
  next => cases h
  next c cs hcs =>
    rw [Bool.and_eq_true] at h
    exact ⟨c, cs, hcs, h⟩

theorem all_of_isIdentifier {name : String} (h : isIdentifier name = true) :
    name.toList.all isIdentifierPart = true := by
  obtain ⟨c, cs, hcs, hc, hall⟩ := isIdentifier_cases h
  simp [hcs, isIdentifierPart_of_start hc, hall]

theorem lex_name {name : String} (h : isIdentifier name = true) : lex name = [.name name] := by
  obtain ⟨c, cs, hcs, -, -⟩ := isIdentifier_cases h
  have hchain := isChain_of_all (r := glued) (fun c d hc hd => by simp [glued, hc, hd])
    (all_of_isIdentifier h)
  rw [lex_of_chain (by simp [hcs]) hchain]
  simp [Token.ofPiece?, h]

theorem not_isIdentifierStart_of_isDigit {c : Char} (h : c.isDigit = true) :
    isIdentifierStart c = false := by
  simp only [Char.isDigit, Bool.and_eq_true, decide_eq_true_eq, UInt32.le_iff_toNat_le,
    ge_iff_le] at h
  have hne : c ≠ '_' := by
    rintro rfl
    simp at h
  have h0 : '0'.val.toNat = 48 := rfl
  have h9 : '9'.val.toNat = 57 := rfl
  have hA : 'A'.val.toNat = 65 := rfl
  have ha : 'a'.val.toNat = 97 := rfl
  have halpha : c.isAlpha = (c.isUpper || c.isLower) := rfl
  have hupper : c.isUpper = decide (c.val ≥ 'A'.val ∧ c.val ≤ 'Z'.val) := rfl
  have hlower : c.isLower = (decide (c.val ≥ 'a'.val) && decide (c.val ≤ 'z'.val)) := rfl
  simp only [isIdentifierStart, halpha, hupper, hlower, Bool.or_eq_false_iff,
    Bool.and_eq_false_imp, decide_eq_true_eq, decide_eq_false_iff_not, UInt32.le_iff_toNat_le,
    ge_iff_le, not_and, beq_eq_false_iff_ne]
  refine ⟨⟨?_, ?_⟩, hne⟩ <;> omega

theorem not_isIdentifier_of_head {cs : List Char} {c : Char} (h : isIdentifierStart c = false) :
    isIdentifier (String.ofList (c :: cs)) = false := by
  simp [isIdentifier, h]

theorem lex_number (n : Nat) : lex (toString n) = [.number n] := by
  have hdigits : (toString n).toList = Nat.toDigits 10 n := Nat.toList_repr
  have hall : (Nat.toDigits 10 n).all Char.isDigit = true :=
    List.all_eq_true.2 fun c hc => Nat.isDigit_of_mem_toDigits (by omega) (by omega) hc
  have hne : Nat.toDigits 10 n ≠ [] := Nat.toDigits_ne_nil
  have hchain := isChain_of_all (p := Char.isDigit) (r := glued)
    (fun c d hc hd => by simp [glued, isIdentifierPart_of_isDigit, hc, hd]) hall
  have hname : isIdentifier (String.ofList (Nat.toDigits 10 n)) = false := by
    obtain ⟨c, cs, hcs⟩ := List.exists_cons_of_ne_nil hne
    rw [hcs] at hall ⊢
    simp only [List.all_cons, Bool.and_eq_true] at hall
    exact not_isIdentifier_of_head (not_isIdentifierStart_of_isDigit hall.1)
  rw [lex_of_chain (hdigits ▸ hne) (hdigits ▸ hchain), hdigits]
  simp [Token.ofPiece?, hname, hall]

theorem isRelationPart_cases {c : Char} (h : isRelationPart c = true) :
    isIdentifierStart c = false ∧ c.isDigit = false := by
  simp only [isRelationPart, Bool.or_eq_true, beq_iff_eq] at h
  rcases h with ((rfl | rfl) | rfl) | rfl <;> decide

theorem lex_relation {text : String} (h : isRelation text = true) :
    lex text = [.relation text] := by
  simp only [isRelation, Bool.and_eq_true, Bool.not_eq_true', List.isEmpty_eq_false_iff] at h
  obtain ⟨hne, hall⟩ := h
  have hchain := isChain_of_all (r := glued) (fun c d hc hd => by simp [glued, hc, hd]) hall
  obtain ⟨c, cs, hcs⟩ := List.exists_cons_of_ne_nil hne
  have hc : isRelationPart c = true := by
    rw [hcs, List.all_cons, Bool.and_eq_true] at hall
    exact hall.1
  obtain ⟨hstart, hdigit⟩ := isRelationPart_cases hc
  have hname : isIdentifier text = false := by simp [isIdentifier, hcs, hstart]
  have hnumber : text.toList.all Char.isDigit = false := by simp [hcs, hdigit]
  rw [lex_of_chain hne hchain]
  simp [Token.ofPiece?, hname, hnumber, hall]

end StraightLine
