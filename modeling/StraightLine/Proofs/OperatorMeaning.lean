import StraightLine.Proofs.WrittenText

/-! # What written operations mean

An operation over operands whose texts have given values is written as a text that has the value of
the operation. The sign rules of additive chains move minus signs between texts, so the value of a
chain is compared summand by summand. -/
namespace StraightLine

open Grammar

variable {R : Type*} [CommRing R] {I : Interpretation R} {m : Memory R}

def Interpretation.apply (I : Interpretation R) (operation : String) : List R → R
  | [] => 0
  | x :: xs =>
    if operation = "+" then x + xs.sum
    else if operation = "-" then x - xs.sum
    else if operation = "*" then xs.foldl (· * ·) x
    else if operation = "/" then xs.foldl I.divide x
    else if operation = "[[negate]]" then -x
    else I.call operation (x :: xs)

def isArithmetic (operation : String) : Bool :=
  operation ∈ ["+", "-", "*", "/", "[[negate]]"] || isIdentifier operation

/-- Both texts of a term have a given value, and the bracketed one is an operand. -/
structure Term.Reads (I : Interpretation R) (m : Memory R) (t : Term) (v : Quantity R) : Prop where
  operand : ReadsUnary I m t.grouped v
  sum : ReadsSum I m t.plain v
  brackets : t.grouped = t.plain ∨ t.grouped = "(" ++ t.plain ++ ")"

theorem Term.reads_atom {text : String} {v : Quantity R} (h : ReadsUnary I m text v) :
    (Term.atom text).Reads I m v := ⟨h, h.sum, .inl rfl⟩

theorem Term.reads_group {text : String} {v : Quantity R} (h : ReadsSum I m text v) :
    (Term.group text).Reads I m v := ⟨h.paren, h, .inr rfl⟩

theorem Term.Reads.grouped_eq {t : Term} {v : Quantity R} (h : t.Reads I m v)
    (hneg : t.isNegative = true) : t.grouped = t.plain := Term.grouped_eq_plain hneg h.brackets

section Chain

variable (I m)

def Term.value (t : Term) : R := ((evaluate I m t.plain).bind Quantity.scalar?).getD 0

/-- The value of a summand as it is written, without its sign. -/
def SignedTerm.magnitude (s : SignedTerm) : R :=
  if s.term.isNegative then -(s.term.value I m) else s.term.value I m

def SignedTerm.amount (s : SignedTerm) : R :=
  if s.subtracted then -(s.magnitude I m) else s.magnitude I m

theorem SignedTerm.amount_eq_share :
    SignedTerm.amount I m = SignedTerm.share (Term.value I m) := by
  funext s
  cases hsub : s.subtracted <;> cases hneg : s.term.isNegative <;>
    simp [amount, magnitude, share, hsub, hneg]

end Chain

theorem Term.Reads.value_eq {t : Term} {x : R} (h : t.Reads I m (.scalar x)) : t.value I m = x := by
  rw [Term.value, h.sum.evaluate]
  rfl

theorem Term.Reads.value {t : Term} {x : R} (h : t.Reads I m (.scalar x)) :
    t.Reads I m (.scalar (t.value I m)) := by
  rwa [h.value_eq]

theorem SignedTerm.readsUnary_of_negative {s : SignedTerm}
    (h : s.term.Reads I m (.scalar (s.term.value I m))) (hneg : s.term.isNegative = true) :
    ReadsUnary I m (dropMinus s.term.plain) (.scalar (s.magnitude I m)) := by
  have hunary := h.operand
  rw [h.grouped_eq hneg] at hunary
  rw [SignedTerm.magnitude, if_pos hneg]
  refine hunary.dropMinus ?_
  rw [← h.grouped_eq hneg]
  exact hneg

/-- The leading summand is written as a sum. -/
theorem SignedTerm.reads_leading {s : SignedTerm}
    (h : s.term.Reads I m (.scalar (s.term.value I m))) :
    ReadsSum I m (s.text true) (.scalar (s.magnitude I m)) := by
  unfold SignedTerm.text
  by_cases hneg : s.term.isNegative = true
  · rw [if_pos hneg]
    exact (readsUnary_of_negative h hneg).sum
  · rw [if_neg hneg, if_neg (by simp), SignedTerm.magnitude, if_neg hneg]
    exact h.sum

/-- A summand behind the leading one is written with its sign. -/
theorem SignedTerm.reads_joined {s : SignedTerm} {text : String} {x : R}
    (h : s.term.Reads I m (.scalar (s.term.value I m))) (htext : ReadsSum I m text (.scalar x)) :
    ReadsSum I m (text ++ (s.piece false).joined) (.scalar (x + s.amount I m)) := by
  have hunary : s.term.isNegative = true ∨ s.subtracted = true →
      ReadsUnary I m (s.text false) (.scalar (s.magnitude I m)) := by
    intro hcase
    unfold SignedTerm.text
    by_cases hneg : s.term.isNegative = true
    · rw [if_pos hneg]
      exact readsUnary_of_negative h hneg
    · have hsub : s.subtracted = true := hcase.resolve_left hneg
      rw [if_neg hneg, if_pos (by simp [hsub]), SignedTerm.magnitude, if_neg hneg]
      exact h.operand
  have hsum : ReadsSum I m (s.text false) (.scalar (s.magnitude I m)) := by
    by_cases hcase : s.term.isNegative = true ∨ s.subtracted = true
    · exact (hunary hcase).sum
    · rw [not_or] at hcase
      unfold SignedTerm.text
      rw [if_neg hcase.1, SignedTerm.magnitude, if_neg hcase.1]
      split
      · exact h.operand.sum
      · exact h.sum
  rw [Piece.joined, SignedTerm.piece, SignedTerm.amount]
  by_cases hsub : s.subtracted = true
  · rw [if_pos hsub, if_pos hsub, ← String.append_assoc, ← sub_eq_add_neg]
    exact htext.minus (hunary (.inr hsub))
  · rw [if_neg hsub, if_neg hsub, ← String.append_assoc]
    exact htext.plus hsum

theorem reads_joined_all {terms : List SignedTerm} {text : String} {x : R}
    (h : ∀ s ∈ terms, s.term.Reads I m (.scalar (s.term.value I m)))
    (htext : ReadsSum I m text (.scalar x)) :
    ReadsSum I m (text ++ String.join (terms.map fun s => (s.piece false).joined))
      (.scalar (x + (terms.map (SignedTerm.amount I m)).sum)) := by
  induction terms generalizing text x with
  | nil => simpa using htext
  | cons s terms ih =>
    have hnext := ih (fun t ht => h t (by simp [ht])) (SignedTerm.reads_joined (h s (by simp)) htext)
    rw [List.map_cons, String.join_cons, ← String.append_assoc, List.map_cons, List.sum_cons,
      ← add_assoc]
    exact hnext

/-- A chain whose leading summand is added is written as the sum of its summands. -/
theorem Chain.reads_body (negated : Bool) {s : SignedTerm} {terms : List SignedTerm}
    (h : ∀ t ∈ s :: terms, t.term.Reads I m (.scalar (t.term.value I m)))
    (hlead : s.subtracted = false) :
    ReadsSum I m (Chain.body ⟨negated, s.piece true :: terms.map (·.piece false)⟩)
      (.scalar (((s :: terms).map (SignedTerm.amount I m)).sum)) := by
  have hfirst := SignedTerm.reads_leading (h s (by simp))
  have hrest : ∀ t ∈ terms, t.term.Reads I m (.scalar (t.term.value I m)) := fun t ht =>
    h t (List.mem_cons_of_mem s ht)
  have hall := reads_joined_all hrest hfirst
  have hamount : s.amount I m = s.magnitude I m := by simp [SignedTerm.amount, hlead]
  rw [List.map_cons, List.sum_cons, hamount, Chain.body]
  dsimp only
  rw [List.map_map]
  exact hall

namespace ChainOp

def value (I : Interpretation R) (m : Memory R) (op : ChainOp) : List Term → R
  | [] => 0
  | t :: ts =>
    match op with
    | .add => t.value I m + (ts.map (Term.value I m)).sum
    | .subtract => t.value I m - (ts.map (Term.value I m)).sum

theorem value_eq_total (op : ChainOp) (ts : List Term) :
    op.value I m ts = op.total (Term.value I m) ts := by
  cases ts <;> rfl

/-- A chain of two or more terms is written with the value of the chain. -/
theorem reads_normalize {op : ChainOp} {ts : List Term} (hlen : 1 < ts.length)
    (h : ∀ t ∈ ts, t.Reads I m (.scalar (t.value I m))) :
    (op.normalize ts).term.Reads I m (.scalar (op.value I m ts)) := by
  obtain ⟨s, rest, hnormal, hlead, hperm, hsum⟩ := op.exists_normalize hlen
  have hterms : ∀ t ∈ s :: rest, t.term.Reads I m (.scalar (t.term.value I m)) := fun t ht =>
    h t.term (hperm.mem_iff.1 (List.mem_map_of_mem ht))
  have hbody := Chain.reads_body ((op.signed ts).all (·.subtracted)) hterms hlead
  rw [SignedTerm.amount_eq_share, hsum, ← value_eq_total] at hbody
  rw [hnormal]
  cases hall : (op.signed ts).all (·.subtracted) with
  | false =>
    rw [hall, if_neg (by simp)] at hbody
    exact Term.reads_group hbody
  | true =>
    rw [hall, if_pos rfl] at hbody
    have hneg := hbody.paren.negate
    rw [neg_neg, ← String.append_assoc, ← String.append_assoc] at hneg
    exact Term.reads_atom hneg

end ChainOp

theorem ne_of_isIdentifier {name : String} (h : isIdentifier name = true) (other : String)
    (hother : isIdentifier other = false) : name ≠ other := by
  rintro rfl
  rw [h] at hother
  cases hother

/-- An identifier names a function. -/
theorem Operator.parse_of_isIdentifier {operation : String} (h : isIdentifier operation = true) :
    Operator.parse operation = .call operation := by
  have hne := ne_of_isIdentifier h
  obtain ⟨c, cs, hcs, hc, hall⟩ := isIdentifier_cases h
  have hdot : c ≠ '.' := by
    rintro rfl
    revert hc
    decide
  have hlast : (operation.toList.getLast? == some '/') = false := by
    rw [beq_eq_false_iff_ne]
    intro hslash
    have hmem := List.all_eq_true.1 (all_of_isIdentifier h) '/' (List.mem_of_getLast? hslash)
    revert hmem
    decide
  have hsymbol : ChainOp.ofSymbol? operation = none := by
    unfold ChainOp.ofSymbol?
    split
    next => exact absurd rfl (hne "+" (by decide))
    next => exact absurd rfl (hne "-" (by decide))
    next => rfl
  have hjoined : operation ∉ ["*", "/", "&&", "||"] := by
    simp only [List.mem_cons, List.not_mem_nil, or_false, not_or]
    exact ⟨hne _ (by decide), hne _ (by decide), hne _ (by decide), hne _ (by decide)⟩
  have hnegate : (operation == "[[negate]]") = false := by
    rw [beq_eq_false_iff_ne]
    exact hne _ (by decide)
  have hlist : (operation == "[]") = false := by
    rw [beq_eq_false_iff_ne]
    exact hne _ (by decide)
  have hhead : (operation.toList.head? == some '.') = false := by
    rw [beq_eq_false_iff_ne, hcs]
    simpa using hdot
  unfold Operator.parse
  split
  next rest hrest =>
    rw [hcs, List.cons.injEq] at hrest
    exact absurd hrest.1 hdot
  next =>
    simp only [hnegate, hlast, hhead, hsymbol, hjoined, hlist, Bool.and_false, Bool.false_eq_true,
      if_false]

theorem Term.values_eq {ts : List Term} {xs : List R}
    (h : List.Forall₂ (fun t x => t.Reads I m (.scalar x)) ts xs) :
    ts.map (Term.value I m) = xs ∧ ∀ t ∈ ts, t.Reads I m (.scalar (t.value I m)) := by
  induction h with
  | nil => simp
  | cons hhead _ ih =>
    refine ⟨by rw [List.map_cons, hhead.value_eq, ih.1], fun t ht => ?_⟩
    rcases List.mem_cons.1 ht with rfl | ht
    · exact hhead.value
    · exact ih.2 t ht

theorem Operator.reads_chain (op : ChainOp) {t : Term} {ts : List Term} {x : R} {xs : List R}
    (ht : t.Reads I m (.scalar x))
    (hts : List.Forall₂ (fun t x => t.Reads I m (.scalar x)) ts xs) :
    ((Operator.chain op).write t ts).Reads I m (.scalar (op.value I m (t :: ts))) := by
  cases hts with
  | nil =>
    have hvalue : op.value I m [t] = x := by cases op <;> simp [ChainOp.value, ht.value_eq]
    rw [hvalue]
    exact ht
  | @cons u y us ys hu hus =>
    have hall : List.Forall₂ (fun t x => t.Reads I m (.scalar x)) (t :: u :: us) (x :: y :: ys) :=
      .cons ht (.cons hu hus)
    exact ChainOp.reads_normalize (by simp) (Term.values_eq hall).2

theorem Operator.reads_joined {symbol separator : String} {f : R → R → R}
    (hseparator : " " ++ symbol ++ " " = separator)
    (hjoin : ∀ a b x y, ReadsProduct I m a (.scalar x) → ReadsUnary I m b (.scalar y) →
      ReadsProduct I m (a ++ separator ++ b) (.scalar (f x y)))
    {t : Term} {ts : List Term} {x : R} {xs : List R} (ht : t.Reads I m (.scalar x))
    (hts : List.Forall₂ (fun t x => t.Reads I m (.scalar x)) ts xs) :
    ((Operator.joined symbol).write t ts).Reads I m (.scalar (xs.foldl f x)) := by
  cases hts with
  | nil => exact ht
  | @cons u y us ys hu hus =>
    have hrest : List.Forall₂ (fun text y => ReadsUnary I m text (.scalar y))
        ((u :: us).map Term.grouped) (y :: ys) := by
      rw [List.forall₂_map_left_iff]
      exact .cons hu.operand (hus.imp fun _ _ h => h.operand)
    refine Term.reads_group (ReadsProduct.sum ?_)
    rw [hseparator, List.map_cons, intercalate_cons_eq_foldl]
    exact ReadsProduct.foldl hjoin ht.operand.product hrest

theorem Operator.reads_call {function : String} {t : Term} {ts : List Term} {x : R} {xs : List R}
    (hname : isIdentifier function = true) (ht : t.Reads I m (.scalar x))
    (hts : List.Forall₂ (fun t x => t.Reads I m (.scalar x)) ts xs) :
    ((Operator.call function).write t ts).Reads I m (.scalar (I.call function (x :: xs))) := by
  have hrest : List.Forall₂ (ReadsSum I m) (ts.map Term.plain) (xs.map .scalar) := by
    rw [List.forall₂_map_left_iff, List.forall₂_map_right_iff]
    exact hts.imp fun _ _ h => h.sum
  have hitems := readsItems_intercalate ht.sum hrest
  rw [← List.map_cons] at hitems
  exact Term.reads_atom (hitems.call hname)

/-- A written operation has the value of the operation. -/
theorem Operator.reads_write {operation : String} {t : Term} {ts : List Term} {x : R} {xs : List R}
    (hop : isArithmetic operation = true) (ht : t.Reads I m (.scalar x))
    (hts : List.Forall₂ (fun t x => t.Reads I m (.scalar x)) ts xs) :
    ((Operator.parse operation).write t ts).Reads I m (.scalar (I.apply operation (x :: xs))) := by
  rw [isArithmetic, Bool.or_eq_true, decide_eq_true_eq] at hop
  rcases hop with hop | hname
  · simp only [List.mem_cons, List.not_mem_nil, or_false] at hop
    rcases hop with rfl | rfl | rfl | rfl | rfl
    · have hparse : Operator.parse "+" = .chain .add := by decide
      have hchain := Operator.reads_chain .add ht hts
      rw [ChainOp.value, ht.value_eq, (Term.values_eq hts).1] at hchain
      rw [hparse]
      exact hchain
    · have hparse : Operator.parse "-" = .chain .subtract := by decide
      have hchain := Operator.reads_chain .subtract ht hts
      rw [ChainOp.value, ht.value_eq, (Term.values_eq hts).1] at hchain
      rw [hparse]
      exact hchain
    · have hparse : Operator.parse "*" = .joined "*" := by decide
      rw [hparse]
      exact Operator.reads_joined (by decide) (fun _ _ _ _ ha hb => ha.times hb) ht hts
    · have hparse : Operator.parse "/" = .joined "/" := by decide
      rw [hparse]
      exact Operator.reads_joined (by decide) (fun _ _ _ _ ha hb => ha.over hb) ht hts
    · have hparse : Operator.parse "[[negate]]" = .negate := by decide
      rw [hparse]
      exact Term.reads_atom ht.operand.negative
  · have hne := ne_of_isIdentifier hname
    have happly : I.apply operation (x :: xs) = I.call operation (x :: xs) := by
      rw [Interpretation.apply, if_neg (hne _ (by decide)), if_neg (hne _ (by decide)),
        if_neg (hne _ (by decide)), if_neg (hne _ (by decide)), if_neg (hne _ (by decide))]
    rw [Operator.parse_of_isIdentifier hname, happly]
    exact Operator.reads_call hname ht hts

end StraightLine
