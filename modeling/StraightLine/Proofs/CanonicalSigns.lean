import StraightLine.Proofs.ChainSigns

/-! # Canonical signs of additive chains

An operand of a chain counts negatively by its text, or by its place behind the first operand of a
difference. Those that do not are written first, and where all of them do, the whole sum is written
under a minus sign. Operands keep their places with them here, so that the order in which they are
written can be compared with the order in which they were given. -/
namespace StraightLine

namespace ChainOp

/-- Whether the operand at a place counts negatively: by its text or by its place, but not by
both. -/
def lowers (op : ChainOp) (t : Term) (i : Nat) : Bool :=
  (op == .subtract && decide (0 < i)) != t.isNegative

/-- The operands that count negatively, or the others, with their places and in the order given. -/
def side (op : ChainOp) (ts : List Term) (lowered : Bool) : List (Term × Nat) :=
  ts.zipIdx.filter fun p => op.lowers p.1 p.2 == lowered

def negates (op : ChainOp) (ts : List Term) : Bool := ts.zipIdx.all fun p => op.lowers p.1 p.2

/-- An operand on the side on which it is written, if all sides are changed or none. -/
def placed (op : ChainOp) (negated : Bool) (p : Term × Nat) : SignedTerm :=
  ⟨p.1, op.lowers p.1 p.2 != negated⟩

theorem signed_eq_map_placed (op : ChainOp) (ts : List Term) :
    op.signed ts = ts.zipIdx.map (op.placed false) := by
  cases ts with
  | nil => rfl
  | cons t ts =>
    have hbehind : ∀ p ∈ ts.zipIdx 1,
        op.placed false p = ⟨p.1, (op == .subtract) != p.1.isNegative⟩ := by
      intro p hp
      have hplace : 0 < p.2 := List.le_snd_of_mem_zipIdx hp
      simp [placed, lowers, hplace]
    have hfirst : op.placed false (t, 0) = ⟨t, t.isNegative⟩ := by simp [placed, lowers]
    rw [signed, List.zipIdx_cons, List.map_cons, hfirst, List.map_congr_left hbehind]
    congr 1
    conv_lhs => rw [← List.zipIdx_map_fst 1 ts, List.map_map]
    rfl

theorem ordered_eq_map_placed (op : ChainOp) (ts : List Term) :
    op.ordered ts = (op.side ts false ++ op.side ts true).map (op.placed false) := by
  simp [ordered, signed_eq_map_placed, side, List.filter_map, Function.comp_def, placed]

theorem all_signed (op : ChainOp) (ts : List Term) :
    (op.signed ts).all (·.subtracted) = op.negates ts := by
  simp [signed_eq_map_placed, negates, List.all_map, Function.comp_def, placed]

theorem side_of_negates {op : ChainOp} {ts : List Term} (h : op.negates ts = true) :
    op.side ts true = ts.zipIdx ∧ op.side ts false = [] := by
  rw [negates, List.all_eq_true] at h
  constructor
  · rw [side, List.filter_eq_self]
    intro p hp
    simp [h p hp]
  · rw [side, List.filter_eq_nil_iff]
    intro p hp
    simp [h p hp]

/-- The leading operand is on the side of the added ones. -/
theorem side_negates_ne_nil (op : ChainOp) {ts : List Term} (hlen : 1 < ts.length) :
    op.side ts (op.negates ts) ≠ [] := by
  cases hall : op.negates ts with
  | true =>
    rw [(side_of_negates hall).1]
    intro hnil
    rw [List.zipIdx_eq_nil_iff] at hnil
    simp [hnil] at hlen
  | false =>
    rw [negates, List.all_eq_false] at hall
    obtain ⟨p, hp, hadded⟩ := hall
    exact List.ne_nil_of_mem (List.mem_filter.2 ⟨hp, by simpa using hadded⟩)

def written (op : ChainOp) (ts : List Term) : List (Term × Nat) :=
  op.side ts (op.negates ts) ++ op.side ts (!op.negates ts)

/-- An added operand leads a chain of two or more operands. -/
theorem exists_lead (op : ChainOp) {ts : List Term} (hlen : 1 < ts.length) :
    ∃ lead added, op.side ts (op.negates ts) = lead :: added ∧
      op.written ts = lead :: (added ++ op.side ts (!op.negates ts)) := by
  obtain ⟨lead, added, hside⟩ := List.exists_cons_of_ne_nil (op.side_negates_ne_nil hlen)
  exact ⟨lead, added, hside, by rw [written, hside, List.cons_append]⟩

/-- The summands of a chain of two or more operands. -/
theorem normalize_eq_written {op : ChainOp} {ts : List Term} (hlen : 1 < ts.length)
    {lead : Term × Nat} {rest : List (Term × Nat)} (h : op.written ts = lead :: rest) :
    op.normalize ts = ⟨op.negates ts, (op.placed (op.negates ts) lead).piece true ::
      rest.map fun p => (op.placed (op.negates ts) p).piece false⟩ := by
  have hterms : (if op.negates ts then (op.ordered ts).map SignedTerm.flip else op.ordered ts) =
      (op.written ts).map (op.placed (op.negates ts)) := by
    rw [ordered_eq_map_placed, written]
    cases hall : op.negates ts with
    | false => rfl
    | true =>
      obtain ⟨hlowered, hnone⟩ := side_of_negates hall
      rw [Bool.not_true, hlowered, hnone, if_pos rfl, List.nil_append, List.append_nil,
        List.map_map]
      exact List.map_congr_left fun p _ => by simp [SignedTerm.flip, placed]
  rw [normalize, if_neg (by omega), all_signed]
  simp only [hterms, h, List.map_cons, List.map_map]
  rfl

/-- Signs of the texts with which every operand counts negatively: in a sum all are negative, in a
difference the first one is and the others are not. -/
def NegativeTexts (op : ChainOp) (ts : List Term) : Prop :=
  match op with
  | .add => ∀ t ∈ ts, t.isNegative = true
  | .subtract => (∀ t ∈ ts.head?, t.isNegative = true) ∧ ∀ t ∈ ts.tail, t.isNegative = false

theorem negates_iff (op : ChainOp) (ts : List Term) :
    op.negates ts = true ↔ op.NegativeTexts ts := by
  have hadd : (add == subtract) = false := rfl
  rw [← all_signed]
  cases ts with
  | nil => cases op <;> simp [signed, NegativeTexts]
  | cons t ts => cases op <;> simp [signed, NegativeTexts, hadd]

theorem mem_of_mem_side {op : ChainOp} {ts : List Term} {lowered : Bool} {p : Term × Nat}
    (h : p ∈ op.side ts lowered) : p.1 ∈ ts ∧ op.lowers p.1 p.2 = lowered := by
  obtain ⟨hmem, hside⟩ := List.mem_filter.1 h
  exact ⟨List.fst_mem_of_mem_zipIdx hmem, by simpa using hside⟩

theorem mem_of_mem_written {op : ChainOp} {ts : List Term} {p : Term × Nat}
    (h : p ∈ op.written ts) : p.1 ∈ ts := by
  rcases List.mem_append.1 h with h | h <;> exact (mem_of_mem_side h).1

end ChainOp

section Texts

theorem startsNegative_dropMinus {text : String} (h : ¬ ['-', '-'] <+: text.toList) :
    startsNegative (dropMinus text) = false := by
  unfold dropMinus
  split
  next rest hrest =>
    rw [startsNegative, String.toList_ofList, beq_eq_false_iff_ne]
    intro hhead
    obtain ⟨cs, rfl⟩ := List.head?_eq_some_iff.1 hhead
    exact h (hrest ▸ ⟨cs, rfl⟩)
  next hother =>
    rw [startsNegative, beq_eq_false_iff_ne]
    intro hhead
    obtain ⟨cs, hcs⟩ := List.head?_eq_some_iff.1 hhead
    exact hother cs hcs

theorem startsNegative_append {a b : String} (hb : startsNegative b = false) :
    startsNegative (a ++ b) = startsNegative a := by
  unfold startsNegative at hb ⊢
  rw [String.toList_append]
  cases hcs : a.toList with
  | nil => simpa using hb
  | cons c cs => rfl

/-- Behind the leading summand, a blank comes first. -/
theorem Chain.startsNegative_body (c : Chain) :
    startsNegative c.body = c.pieces.head?.any fun p => startsNegative p.text := by
  unfold Chain.body
  cases c.pieces with
  | nil => rfl
  | cons lead rest =>
    rw [List.head?_cons, Option.any_some, startsNegative_append]
    cases rest with
    | nil => rfl
    | cons p rest =>
      have hjoin : startsNegative (if p.subtracted then " - " else " + ") = false := by
        cases p.subtracted <;> rfl
      have hblank : (if p.subtracted then " - " else " + ").toList ≠ [] := by
        cases p.subtracted <;> decide
      obtain ⟨d, ds, hds⟩ := List.exists_cons_of_ne_nil hblank
      rw [startsNegative, hds] at hjoin
      rw [startsNegative, List.map_cons, String.toList_join]
      simpa [Piece.joined, hds] using hjoin

namespace SignedTerm

variable {s : SignedTerm}

theorem text_of_negative (h : s.term.isNegative = true) (leading : Bool) :
    s.text leading = dropMinus s.term.plain := by
  rw [text, if_pos h]

/-- No summand behind the leading one opens with a minus sign. -/
theorem startsNegative_text (hdouble : ¬ ['-', '-'] <+: s.term.plain.toList) :
    startsNegative (s.text false) = false := by
  unfold text
  split
  next => exact startsNegative_dropMinus hdouble
  next hneg =>
    split
    next => simpa [Term.isNegative] using hneg
    next hplain =>
      simp only [Bool.not_false, Bool.true_and, Bool.or_eq_true, not_or, Bool.not_eq_true] at hplain
      exact hplain.2

/-- The leading summand opens with a minus sign only if it gave up its brackets. -/
theorem of_startsNegative_text (hdouble : ¬ ['-', '-'] <+: s.term.plain.toList)
    (hbrackets : s.term.grouped = s.term.plain ∨ s.term.grouped = "(" ++ s.term.plain ++ ")")
    (h : startsNegative (s.text true) = true) :
    s.text true = s.term.plain ∧ startsNegative s.term.plain = true ∧
      s.term.grouped = "(" ++ s.term.plain ++ ")" := by
  cases hneg : s.term.isNegative with
  | true =>
    rw [text_of_negative hneg, startsNegative_dropMinus hdouble] at h
    cases h
  | false =>
    have htext : s.text true = s.term.plain := by simp [text, hneg]
    rw [htext] at h
    refine ⟨htext, h, hbrackets.resolve_left fun hsame => ?_⟩
    rw [Term.isNegative, hsame, h] at hneg
    cases hneg

/-- A subtracted summand is bracketed, unless its text loses a minus sign. -/
theorem text_of_subtracted (hsub : s.subtracted = true)
    (hbrackets : s.term.grouped = s.term.plain ∨ s.term.grouped = "(" ++ s.term.plain ++ ")") :
    if s.term.isNegative then s.term.plain = "-" ++ s.text false
      else s.text false = s.term.grouped := by
  split
  next hneg =>
    rw [text_of_negative hneg]
    refine eq_minus_append ?_
    rw [← Term.grouped_eq_plain hneg hbrackets]
    exact hneg
  next hneg => simp [text, hneg, hsub]

end SignedTerm

end Texts

/-- A chain with canonical signs. Added operands stand before subtracted ones, each side in the
order given, no join has a minus sign behind it, and a minus sign at the front is that of the
whole sum or belongs to the inside of the leading operand. -/
structure Chain.Canonical (op : ChainOp) (ts : List Term) (c : Chain) : Prop where
  negated_iff : c.negated = true ↔ ∀ p ∈ ts.zipIdx, op.lowers p.1 p.2 = true
  negated_iff_texts : c.negated = true ↔ op.NegativeTexts ts
  sides : ∃ added subtracted, c.pieces = added ++ subtracted ∧
    List.Forall₂ (fun piece p => piece.subtracted = false ∧ piece.Shows p.1) added
      (op.side ts c.negated) ∧
    List.Forall₂ (fun piece p => piece.subtracted = true ∧
      if p.1.isNegative then p.1.plain = "-" ++ piece.text else piece.text = p.1.grouped) subtracted
      (op.side ts !c.negated)
  joins : ∀ piece ∈ c.pieces.tail, startsNegative piece.text = false
  opening : c.negated = false → startsNegative c.text = true →
    ∃ t i rest, op.side ts false = (t, i) :: rest ∧ c.pieces.head? = some ⟨false, t.plain⟩ ∧
      startsNegative t.plain = true ∧ t.grouped = "(" ++ t.plain ++ ")"

namespace ChainOp

section Sides

variable {op : ChainOp} {ts : List Term} {negated : Bool} {p : Term × Nat}

/-- An operand on the side of the added ones, where the whole sum is negated or not. -/
theorem piece_of_added
    (hbrackets : ∀ t ∈ ts, t.grouped = t.plain ∨ t.grouped = "(" ++ t.plain ++ ")")
    (hp : p ∈ op.side ts negated) (leading : Bool) :
    ((op.placed negated p).piece leading).subtracted = false ∧
      ((op.placed negated p).piece leading).Shows p.1 := by
  obtain ⟨hterm, hlowers⟩ := mem_of_mem_side hp
  refine ⟨by simp [placed, SignedTerm.piece, hlowers], ?_⟩
  exact (op.placed negated p).shows_piece leading (hbrackets p.1 hterm)

/-- An operand on the side of the subtracted ones. -/
theorem piece_of_subtracted
    (hbrackets : ∀ t ∈ ts, t.grouped = t.plain ∨ t.grouped = "(" ++ t.plain ++ ")")
    (hp : p ∈ op.side ts (!negated)) :
    ((op.placed negated p).piece false).subtracted = true ∧
      if p.1.isNegative then p.1.plain = "-" ++ ((op.placed negated p).piece false).text
        else ((op.placed negated p).piece false).text = p.1.grouped := by
  obtain ⟨hterm, hlowers⟩ := mem_of_mem_side hp
  have hsub : (op.placed negated p).subtracted = true := by simp [placed, hlowers]
  exact ⟨hsub, SignedTerm.text_of_subtracted hsub (hbrackets p.1 hterm)⟩

end Sides

/-- Every chain of two or more operands is written with canonical signs, unless the text of an
operand opens with two minus signs. -/
theorem written_chain_has_canonical_signs (op : ChainOp) {ts : List Term} (hlen : 2 ≤ ts.length)
    (hbrackets : ∀ t ∈ ts, t.grouped = t.plain ∨ t.grouped = "(" ++ t.plain ++ ")")
    (hdouble : ∀ t ∈ ts, ¬ ['-', '-'] <+: t.plain.toList) :
    (op.normalize ts).Canonical op ts := by
  obtain ⟨lead, added, hside, hwritten⟩ := op.exists_lead hlen
  have hmem : ∀ p ∈ lead :: (added ++ op.side ts (!op.negates ts)), p.1 ∈ ts := fun p hp =>
    mem_of_mem_written (hwritten ▸ hp)
  have hlead : lead ∈ op.side ts (op.negates ts) := hside ▸ List.mem_cons_self
  rw [normalize_eq_written hlen hwritten]
  refine ⟨by simp [negates], op.negates_iff ts, ?_, ?_, ?_⟩
  · refine ⟨(op.placed (op.negates ts) lead).piece true ::
        added.map fun p => (op.placed (op.negates ts) p).piece false,
      (op.side ts (!op.negates ts)).map fun p => (op.placed (op.negates ts) p).piece false,
      by simp, ?_, ?_⟩
    · rw [hside]
      refine .cons (piece_of_added hbrackets hlead true) ?_
      rw [List.forall₂_map_left_iff, List.forall₂_same]
      exact fun p hp => piece_of_added hbrackets (hside ▸ List.mem_cons_of_mem lead hp) false
    · rw [List.forall₂_map_left_iff, List.forall₂_same]
      exact fun p hp => piece_of_subtracted hbrackets hp
  · intro piece hpiece
    obtain ⟨p, hp, rfl⟩ := List.mem_map.1 hpiece
    exact SignedTerm.startsNegative_text (hdouble p.1 (hmem p (List.mem_cons_of_mem lead hp)))
  · intro (hadded : op.negates ts = false) hstarts
    have hterm := hmem lead List.mem_cons_self
    rw [Chain.text, if_neg (by simp [hadded]), Chain.startsNegative_body] at hstarts
    obtain ⟨htext, hplain, hgrouped⟩ := SignedTerm.of_startsNegative_text
      (s := op.placed (op.negates ts) lead) (hdouble lead.1 hterm) (hbrackets lead.1 hterm) hstarts
    have hsub := (piece_of_added hbrackets hlead true).1
    refine ⟨lead.1, lead.2, added, by rw [← hadded, hside], ?_, hplain, hgrouped⟩
    exact congrArg some (congrArg₂ Piece.mk hsub htext)

/-- Two operands count negatively here, one by its text and one by its place, and two of the others
keep or lose their brackets. -/
theorem written_chain_has_canonical_signs_of_difference :
    let ts : List Term := [.atom "-a", .group "-b * c", .group "d + e", .atom "-f"]
    (subtract.normalize ts).text = "f - a - (-b * c) - (d + e)" ∧
      (subtract.normalize ts).Canonical subtract ts ∧
      (add.normalize ts.tail).text = "-b * c + d + e - f" ∧
      (add.normalize ts.tail).Canonical add ts.tail := by
  intro ts
  refine ⟨by decide, ?_, by decide, ?_⟩
  · exact written_chain_has_canonical_signs subtract (by decide) (by decide) (by decide)
  · exact written_chain_has_canonical_signs add (by decide) (by decide) (by decide)

end ChainOp

end StraightLine
