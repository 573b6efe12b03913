import StraightLine.Proofs.ChainSigns
import StraightLine.Proofs.Evaluation
import StraightLine.Expr
import Mathlib.Tactic.Ring

/-! # Values of written texts

Which texts spell a sum, a product or an operand with a given value, and how such texts may be put
together. Only the pieces that the writer of expressions uses are considered. -/
namespace StraightLine

open Grammar

section

variable {R : Type*} [CommRing R] (I : Interpretation R) (m : Memory R)

/-- A text that spells an expression with a given value. -/
def ReadsSum (text : String) (v : Quantity R) : Prop :=
  ∃ s : Sum, lex text = s.tokens ∧ s.eval I m = some v

def ReadsProduct (text : String) (v : Quantity R) : Prop :=
  ∃ q : Product, lex text = q.tokens ∧ q.eval I m = some v

def ReadsUnary (text : String) (v : Quantity R) : Prop :=
  ∃ u : Unary, lex text = u.tokens ∧ u.eval I m = some v

def ReadsItems (text : String) (vs : List (Quantity R)) : Prop :=
  ∃ items : Items, lex text = items.tokens ∧ items.eval I m = some vs

end

variable {R : Type*} [CommRing R] {I : Interpretation R} {m : Memory R} {a b text : String}
  {v : Quantity R} {vs : List (Quantity R)} {x y : R}

theorem ReadsUnary.product (h : ReadsUnary I m text v) : ReadsProduct I m text v := by
  obtain ⟨u, hlex, hv⟩ := h
  exact ⟨.single u, hlex, hv⟩

theorem ReadsProduct.sum (h : ReadsProduct I m text v) : ReadsSum I m text v := by
  obtain ⟨q, hlex, hv⟩ := h
  exact ⟨.single q, hlex, hv⟩

theorem ReadsUnary.sum (h : ReadsUnary I m text v) : ReadsSum I m text v := h.product.sum

theorem ReadsSum.evaluate (h : ReadsSum I m text v) : evaluate I m text = some v := by
  obtain ⟨s, hlex, hv⟩ := h
  have hread : Reading.read (lex text) = some (.sum s) := hlex ▸ Reading.read_tokens (.sum s)
  rw [StraightLine.evaluate, hread]
  exact hv

theorem readsUnary_name (hname : isIdentifier text = true) (hv : m text = some v) :
    ReadsUnary I m text v :=
  ⟨.primary (.name text), lex_name hname, hv⟩

theorem lex_slotText {vector : String} (hname : isIdentifier vector = true) (index : Nat) :
    lex (slotText vector index) =
      [.name vector, .symbol '[', .number index, .symbol ']'] := by
  have hopen : lex "[" = [.symbol '['] := by decide
  have hclose : lex "]" = [.symbol ']'] := by decide
  rw [slotText, lex_append_of_head (by decide), lex_between (by decide) (by decide),
    lex_name hname, lex_number, hopen, hclose]
  rfl

theorem ReadsSum.paren (h : ReadsSum I m text v) : ReadsUnary I m ("(" ++ text ++ ")") v := by
  obtain ⟨s, hlex, hv⟩ := h
  have hopen : lex "(" = [.symbol '('] := by decide
  have hclose : lex ")" = [.symbol ')'] := by decide
  refine ⟨.primary (.paren s), ?_, hv⟩
  rw [lex_append_of_head (by decide), lex_append_of_last (by decide), hlex, hopen, hclose]
  rfl

theorem readsUnary_slot {vector : String} {index : Nat} (hname : isIdentifier vector = true)
    (hv : (m vector).bind (·.item? index) = some v) : ReadsUnary I m (slotText vector index) v :=
  ⟨.primary (.slot vector index), lex_slotText hname index, hv⟩

theorem lex_minus (text : String) : lex ("-" ++ text) = .symbol '-' :: lex text := by
  have hminus : lex "-" = [.symbol '-'] := by decide
  rw [lex_append_of_last (by decide), hminus]
  rfl

theorem ReadsUnary.negate (h : ReadsUnary I m text (.scalar x)) :
    ReadsUnary I m ("-" ++ text) (.scalar (-x)) := by
  obtain ⟨u, hlex, hv⟩ := h
  refine ⟨.negate u, ?_, ?_⟩
  · rw [lex_minus, hlex]
    rfl
  · simp [Unary.eval, hv, Quantity.scalar?]

/-- An operand that opens with a minus sign is the negative of the rest. -/
theorem ReadsUnary.dropMinus (h : ReadsUnary I m text (.scalar x))
    (hneg : startsNegative text = true) :
    ReadsUnary I m (StraightLine.dropMinus text) (.scalar (-x)) := by
  obtain ⟨u, hlex, hv⟩ := h
  rw [eq_minus_append hneg, lex_minus] at hlex
  cases u with
  | primary p => cases p <;> simp [Unary.tokens, Primary.tokens] at hlex
  | negate u =>
    refine ⟨u, by simpa [Unary.tokens] using hlex, ?_⟩
    simp only [Unary.eval, Option.bind_eq_bind, Option.bind_eq_some_iff] at hv
    obtain ⟨y, ⟨w, hw, hy⟩, hxy⟩ := hv
    cases w with
    | list items => cases hy
    | scalar r =>
      cases hy
      cases hxy
      rw [neg_neg, hw]

theorem ReadsUnary.negative (h : ReadsUnary I m text (.scalar x)) :
    ReadsUnary I m (Operator.negative text) (.scalar (-x)) := by
  unfold Operator.negative
  split
  next hneg => exact h.dropMinus hneg
  next => exact h.negate

theorem ReadsProduct.times (ha : ReadsProduct I m a (.scalar x))
    (hb : ReadsUnary I m b (.scalar y)) : ReadsProduct I m (a ++ " * " ++ b) (.scalar (x * y)) := by
  obtain ⟨q, hq, hx⟩ := ha
  obtain ⟨u, hu, hy⟩ := hb
  have htimes : lex " * " = [.symbol '*'] := by decide
  refine ⟨.join q .times u, ?_, combine_eq_some.2 ⟨x, y, hx, hy, rfl⟩⟩
  rw [lex_between (by decide) (by decide), htimes, hq, hu, List.append_assoc]
  rfl

theorem ReadsProduct.over (ha : ReadsProduct I m a (.scalar x))
    (hb : ReadsUnary I m b (.scalar y)) :
    ReadsProduct I m (a ++ " / " ++ b) (.scalar (I.divide x y)) := by
  obtain ⟨q, hq, hx⟩ := ha
  obtain ⟨u, hu, hy⟩ := hb
  have hover : lex " / " = [.symbol '/'] := by decide
  refine ⟨.join q .over u, ?_, combine_eq_some.2 ⟨x, y, hx, hy, rfl⟩⟩
  rw [lex_between (by decide) (by decide), hover, hq, hu, List.append_assoc]
  rfl

def Grammar.Sum.plus (left : Sum) : Sum → Sum
  | .single product => .join left .plus product
  | .join right operator product => .join (left.plus right) operator product

theorem Grammar.Sum.tokens_plus (left right : Sum) :
    (left.plus right).tokens = left.tokens ++ .symbol '+' :: right.tokens := by
  cases right with
  | single product => rfl
  | join right operator product =>
    rw [Sum.plus, Sum.tokens, Sum.tokens_plus left right, Sum.tokens]
    simp

theorem Grammar.Sum.eval_plus {left : Sum} (hx : left.eval I m = some (.scalar x)) :
    ∀ (right : Sum) (y : R), right.eval I m = some (.scalar y) →
      (left.plus right).eval I m = some (.scalar (x + y))
  | .single product, y, hy => combine_eq_some.2 ⟨x, y, hx, hy, rfl⟩
  | .join right operator product, y, hy => by
    rw [Sum.eval, combine_eq_some] at hy
    obtain ⟨z, t, hz, ht, hyzt⟩ := hy
    cases hyzt
    rw [Sum.plus, Sum.eval, combine_eq_some]
    refine ⟨x + z, t, Sum.eval_plus hx right z hz, ht, ?_⟩
    cases operator
    · simp only [SumOperator.apply, add_assoc]
    · simp only [SumOperator.apply, add_sub_assoc]

theorem ReadsSum.plus (ha : ReadsSum I m a (.scalar x)) (hb : ReadsSum I m b (.scalar y)) :
    ReadsSum I m (a ++ " + " ++ b) (.scalar (x + y)) := by
  obtain ⟨s, hs, hx⟩ := ha
  obtain ⟨t, ht, hy⟩ := hb
  have hplus : lex " + " = [.symbol '+'] := by decide
  refine ⟨s.plus t, ?_, Sum.eval_plus hx t y hy⟩
  rw [lex_between (by decide) (by decide), hplus, hs, ht, Sum.tokens_plus, List.append_assoc]
  rfl

theorem ReadsSum.minus (ha : ReadsSum I m a (.scalar x)) (hb : ReadsUnary I m b (.scalar y)) :
    ReadsSum I m (a ++ " - " ++ b) (.scalar (x - y)) := by
  obtain ⟨s, hs, hx⟩ := ha
  obtain ⟨q, hq, hy⟩ := hb.product
  have hminus : lex " - " = [.symbol '-'] := by decide
  refine ⟨.join s .minus q, ?_, combine_eq_some.2 ⟨x, y, hx, hy, rfl⟩⟩
  rw [lex_between (by decide) (by decide), hminus, hs, hq, List.append_assoc]
  rfl

theorem ReadsItems.more (ha : ReadsItems I m a vs) (hb : ReadsSum I m b v) :
    ReadsItems I m (a ++ ", " ++ b) (vs ++ [v]) := by
  obtain ⟨items, hitems, hvs⟩ := ha
  obtain ⟨s, hs, hv⟩ := hb
  have hcomma : lex ", " = [.symbol ','] := by decide
  refine ⟨.more items s, ?_, by simp [Items.eval, hvs, hv]⟩
  rw [lex_between (by decide) (by decide), hcomma, hitems, hs, List.append_assoc]
  rfl

/-- Texts with a separator between them are put together from left to right. -/
theorem intercalate_cons_eq_foldl (separator first : String) (rest : List String) :
    separator.intercalate (first :: rest) =
      rest.foldl (fun text next => text ++ separator ++ next) first := by
  induction rest generalizing first with
  | nil => rfl
  | cons next rest ih => exact ih (first ++ separator ++ next)

theorem ReadsItems.foldl {first : String} {rest : List String} {ws : List (Quantity R)}
    (hfirst : ReadsItems I m first vs) (hrest : List.Forall₂ (ReadsSum I m) rest ws) :
    ReadsItems I m (rest.foldl (fun text next => text ++ ", " ++ next) first) (vs ++ ws) := by
  induction hrest generalizing first vs with
  | nil => simpa using hfirst
  | cons hhead _ ih => simpa using ih (hfirst.more hhead)

theorem readsItems_intercalate {first : String} {rest : List String}
    (hfirst : ReadsSum I m first v) (hrest : List.Forall₂ (ReadsSum I m) rest vs) :
    ReadsItems I m (", ".intercalate (first :: rest)) (v :: vs) := by
  obtain ⟨s, hs, hv⟩ := hfirst
  have hone : ReadsItems I m first [v] := ⟨.first s, hs, by simp [Items.eval, hv]⟩
  rw [intercalate_cons_eq_foldl]
  exact hone.foldl hrest

theorem ReadsItems.call {function : String} {xs : List R} (hname : isIdentifier function = true)
    (h : ReadsItems I m text (xs.map .scalar)) :
    ReadsUnary I m (function ++ "(" ++ text ++ ")") (.scalar (I.call function xs)) := by
  obtain ⟨items, hitems, hvs⟩ := h
  have hopen : lex "(" = [.symbol '('] := by decide
  have hclose : lex ")" = [.symbol ')'] := by decide
  refine ⟨.primary (.call function items), ?_, ?_⟩
  · rw [lex_append_of_head (by decide), lex_between (by decide) (by decide), lex_name hname, hopen,
      hclose, hitems]
    simp [Unary.tokens, Primary.tokens]
  · rw [Unary.eval, Primary.eval, hvs, Option.bind_eq_bind, Option.bind_some, Quantity.mapM_scalar?]
    rfl

theorem ReadsItems.list (h : ReadsItems I m text vs) :
    ReadsUnary I m ("[" ++ text ++ "]") (.list vs) := by
  obtain ⟨items, hitems, hvs⟩ := h
  have hopen : lex "[" = [.symbol '['] := by decide
  have hclose : lex "]" = [.symbol ']'] := by decide
  refine ⟨.primary (.list items), ?_, by simp [Unary.eval, Primary.eval, hvs]⟩
  rw [lex_append_of_head (by decide), lex_append_of_last (by decide), hopen, hclose, hitems]
  rfl

/-- A bracketed list of texts, which may be empty. -/
theorem readsUnary_list {texts : List String} (h : List.Forall₂ (ReadsSum I m) texts vs) :
    ReadsUnary I m ("[" ++ ", ".intercalate texts ++ "]") (.list vs) := by
  cases h with
  | nil => exact ⟨.primary .empty, by decide, rfl⟩
  | cons hhead htail => exact (readsItems_intercalate hhead htail).list

/-- Factors with one separator between them, if that separator joins two factors. -/
theorem ReadsProduct.foldl {separator : String} {f : R → R → R}
    (hjoin : ∀ a b x y, ReadsProduct I m a (.scalar x) → ReadsUnary I m b (.scalar y) →
      ReadsProduct I m (a ++ separator ++ b) (.scalar (f x y)))
    {first : String} {rest : List String} {ys : List R}
    (hfirst : ReadsProduct I m first (.scalar x))
    (hrest : List.Forall₂ (fun text y => ReadsUnary I m text (.scalar y)) rest ys) :
    ReadsProduct I m (rest.foldl (fun text next => text ++ separator ++ next) first)
      (.scalar (ys.foldl f x)) := by
  induction hrest generalizing first x with
  | nil => exact hfirst
  | cons hhead _ ih => exact ih (hjoin _ _ _ _ hfirst hhead)

/-- The text of a choice between two expressions by a comparison. -/
theorem evaluate_choice {left right success failure relation : String} {yes no : Quantity R}
    (hrelation : isRelation relation = true) (hleft : ReadsSum I m left (.scalar x))
    (hright : ReadsSum I m right (.scalar y)) (hsuccess : ReadsSum I m success yes)
    (hfailure : ReadsSum I m failure no) :
    evaluate I m (left ++ " " ++ relation ++ " " ++ right ++ " ? " ++ success ++ " : " ++ failure) =
      some (if I.compare relation x y then yes else no) := by
  obtain ⟨l, hl, hx⟩ := hleft
  obtain ⟨r, hr, hy⟩ := hright
  obtain ⟨s, hs, hyes⟩ := hsuccess
  obtain ⟨f, hf, hno⟩ := hfailure
  have hblank : lex " " = [] := by decide
  have hquestion : lex " ? " = [.symbol '?'] := by decide
  have hcolon : lex " : " = [.symbol ':'] := by decide
  have hlex : lex (left ++ " " ++ relation ++ " " ++ right ++ " ? " ++ success ++ " : " ++ failure) =
      (Reading.choice l relation r s f).tokens := by
    rw [lex_between (by decide) (by decide), lex_between (by decide) (by decide),
      lex_between (by decide) (by decide), lex_between (by decide) (by decide),
      lex_relation hrelation, hl, hr, hs, hf, hblank, hquestion, hcolon]
    simp [Reading.tokens]
  rw [evaluate, hlex, Reading.read_tokens]
  simp only [Option.bind_some, Reading.eval, hx, hy, Quantity.scalar?, Option.bind_eq_bind]
  split
  · exact hyes
  · exact hno

end StraightLine
