import Mathlib.Algebra.BigOperators.Group.List.Basic
import Mathlib.Tactic.Abel
import StraightLine.Chain

/-! # Signs of additive chains

Writing a chain moves its terms: added ones come first, and where nothing is added all sides change
and the sum stands under a minus sign. Every term is still there once, and what it contributes to the
sum stays the same, since a side that changes is made up for by a sign that the text of the term loses
or that stands before the sum. -/
namespace StraightLine

universe u

variable {G : Type u} [AddCommGroup G]

/-- What a summand contributes to its chain, if terms have given values. The text of a negative term
loses its sign, so such a term counts on the other side. -/
def SignedTerm.share (f : Term → G) (s : SignedTerm) : G :=
  if s.subtracted != s.term.isNegative then -f s.term else f s.term

def Piece.sum (v : String → G) (pieces : List Piece) : G :=
  (pieces.map fun p => if p.subtracted then -v p.text else v p.text).sum

/-- A summand stands for a term: it is a negative term without its minus sign, or either text of
another one. -/
def Piece.Shows (p : Piece) (t : Term) : Prop :=
  if t.isNegative then t.plain = "-" ++ p.text else p.text = t.plain ∨ p.text = t.grouped

theorem SignedTerm.share_flip (f : Term → G) (s : SignedTerm) : s.flip.share f = -s.share f := by
  cases hsub : s.subtracted <;> cases hneg : s.term.isNegative <;> simp [share, flip, hsub, hneg]

theorem sum_share_flip (f : Term → G) (terms : List SignedTerm) :
    ((terms.map SignedTerm.flip).map (SignedTerm.share f)).sum =
      -(terms.map (SignedTerm.share f)).sum := by
  induction terms with
  | nil => simp
  | cons s terms ih =>
    rw [List.map_cons, List.map_cons, List.sum_cons, ih, SignedTerm.share_flip, List.map_cons,
      List.sum_cons]
    abel

theorem eq_minus_append {text : String} (h : startsNegative text = true) :
    text = "-" ++ dropMinus text := by
  rw [startsNegative, beq_iff_eq] at h
  obtain ⟨cs, hcs⟩ := List.head?_eq_some_iff.1 h
  rw [← String.toList_inj, String.toList_append]
  simp [dropMinus, hcs]

/-- A term that opens with a minus sign is not bracketed. -/
theorem Term.grouped_eq_plain {t : Term} (hneg : t.isNegative = true)
    (h : t.grouped = t.plain ∨ t.grouped = "(" ++ t.plain ++ ")") : t.grouped = t.plain := by
  rcases h with heq | heq
  · exact heq
  · rw [isNegative, heq] at hneg
    simp [startsNegative, String.toList_append] at hneg

theorem SignedTerm.shows_piece (s : SignedTerm) (leading : Bool)
    (h : s.term.grouped = s.term.plain ∨ s.term.grouped = "(" ++ s.term.plain ++ ")") :
    (s.piece leading).Shows s.term := by
  unfold Piece.Shows SignedTerm.piece SignedTerm.text
  split
  next hneg =>
    refine eq_minus_append ?_
    rw [← Term.grouped_eq_plain hneg h]
    exact hneg
  next =>
    split
    · exact .inr rfl
    · exact .inl rfl

/-- A summand is worth what its term contributes, whichever of its texts is written. -/
theorem SignedTerm.value_piece {v : String → G} (s : SignedTerm) (leading : Bool)
    (hsame : v s.term.plain = v s.term.grouped)
    (hdrop : s.term.isNegative = true → v (dropMinus s.term.plain) = -v s.term.plain) :
    (if (s.piece leading).subtracted then -v (s.piece leading).text
      else v (s.piece leading).text) = s.share fun t => v t.plain := by
  have htext : v (s.text leading) =
      if s.term.isNegative then -v s.term.plain else v s.term.plain := by
    unfold SignedTerm.text
    split
    next hneg => exact hdrop hneg
    next =>
      split
      · exact hsame.symm
      · rfl
  show (if s.subtracted then -v (s.text leading) else v (s.text leading)) = _
  rw [htext]
  cases hsub : s.subtracted <;> cases hneg : s.term.isNegative <;> simp [share, hsub, hneg]

namespace ChainOp

/-- The value of a chain, if terms have given values: the first term plus or minus the others. -/
def total (op : ChainOp) (f : Term → G) : List Term → G
  | [] => 0
  | t :: ts =>
    match op with
    | .add => f t + (ts.map f).sum
    | .subtract => f t - (ts.map f).sum

theorem map_term_signed (op : ChainOp) (ts : List Term) :
    (op.signed ts).map SignedTerm.term = ts := by
  cases ts with
  | nil => rfl
  | cons t ts => simp [signed, Function.comp_def]

theorem ordered_perm (op : ChainOp) (ts : List Term) : (op.ordered ts).Perm (op.signed ts) := by
  have hperm := List.filter_append_perm (fun s : SignedTerm => !s.subtracted) (op.signed ts)
  simpa only [ordered, Bool.not_not] using hperm

/-- Behind the first term, the operator decides on which side a term counts. -/
theorem share_behind (op : ChainOp) (f : Term → G) (t : Term) :
    SignedTerm.share f ⟨t, (op == .subtract) != t.isNegative⟩ =
      if op = .subtract then -f t else f t := by
  cases op <;> cases hneg : t.isNegative <;> simp [SignedTerm.share, hneg]

theorem sum_share_signed (op : ChainOp) (f : Term → G) (ts : List Term) :
    ((op.signed ts).map (SignedTerm.share f)).sum = op.total f ts := by
  cases ts with
  | nil => rfl
  | cons t ts =>
    have hfirst : SignedTerm.share f ⟨t, t.isNegative⟩ = f t := by simp [SignedTerm.share]
    have hrest : (ts.map fun u => SignedTerm.share f ⟨u, (op == .subtract) != u.isNegative⟩).sum =
        if op = .subtract then -(ts.map f).sum else (ts.map f).sum := by
      simp only [share_behind]
      cases op <;> simp [List.sum_neg, Function.comp_def]
    rw [signed, List.map_cons, List.sum_cons, List.map_map, hfirst]
    simp only [Function.comp_def, hrest]
    cases op <;> simp [total, sub_eq_add_neg]

/-- With an added summand, the chain starts with one. -/
theorem ordered_head {op : ChainOp} {ts : List Term} {s : SignedTerm} {rest : List SignedTerm}
    (hall : (op.signed ts).all (·.subtracted) = false) (h : op.ordered ts = s :: rest) :
    s.subtracted = false := by
  rw [List.all_eq_false] at hall
  obtain ⟨u, hu, hsub⟩ := hall
  have hmem : u ∈ (op.signed ts).filter (!·.subtracted) := List.mem_filter.2 ⟨hu, by simpa using hsub⟩
  obtain ⟨first, added, hadded⟩ := List.exists_cons_of_ne_nil (List.ne_nil_of_mem hmem)
  have hfirst : first ∈ (op.signed ts).filter (!·.subtracted) := by simp [hadded]
  rw [ordered, hadded, List.cons_append, List.cons.injEq] at h
  rw [← h.1]
  simpa using (List.mem_filter.1 hfirst).2

/-- The summands of a chain of two or more terms: an added one leads, every term is there once, and
they add up to the value of the chain, or to its negative if the sum stands under a minus sign. -/
theorem exists_normalize (op : ChainOp) {ts : List Term} (hlen : 1 < ts.length) :
    ∃ s rest, op.normalize ts =
        ⟨(op.signed ts).all (·.subtracted), s.piece true :: rest.map (·.piece false)⟩ ∧
      s.subtracted = false ∧ ((s :: rest).map SignedTerm.term).Perm ts ∧
      ∀ {G : Type u} [AddCommGroup G] (f : Term → G),
        ((s :: rest).map (SignedTerm.share f)).sum =
          if (op.signed ts).all (·.subtracted) then -op.total f ts else op.total f ts := by
  have hperm := op.ordered_perm ts
  have hterms : ((op.ordered ts).map SignedTerm.term).Perm ts := by
    have hmap := hperm.map SignedTerm.term
    rwa [map_term_signed] at hmap
  have hsum : ∀ {G : Type u} [AddCommGroup G] (f : Term → G),
      ((op.ordered ts).map (SignedTerm.share f)).sum = op.total f ts := by
    intro G _ f
    rw [← sum_share_signed]
    exact (hperm.map (SignedTerm.share f)).sum_eq
  have hne : op.ordered ts ≠ [] := by
    intro hnil
    have hlength := hterms.length_eq
    rw [hnil, List.map_nil, List.length_nil] at hlength
    omega
  obtain ⟨s, rest, hcons⟩ := List.exists_cons_of_ne_nil hne
  rw [hcons] at hterms
  rw [normalize, if_neg (by omega)]
  cases hall : (op.signed ts).all (·.subtracted) with
  | false =>
    refine ⟨s, rest, ?_, ordered_head hall hcons, hterms, fun f => ?_⟩
    · simp [hcons]
    · rw [← hcons, hsum, if_neg (by simp)]
  | true =>
    -- nothing is added, so all sides are changed
    refine ⟨s.flip, rest.map SignedTerm.flip, ?_, ?_, ?_, fun f => ?_⟩
    · simp [hcons]
    · have hmem : s ∈ op.signed ts := hperm.mem_iff.1 (by simp [hcons])
      simp [SignedTerm.flip, List.all_eq_true.1 hall s hmem]
    · rw [← List.map_cons, List.map_map]
      exact hterms
    · rw [← List.map_cons, sum_share_flip, ← hcons, hsum, if_pos rfl]

/-- A chain of two or more terms is written as a sum, under a minus sign exactly if it is negated. Its
summands stand for its terms one by one, an added one leads, and their signed sum, negated if need be,
is the value of the chain, whatever texts are worth, as long as brackets change nothing and a minus sign
that a term gives up negates it. -/
theorem written_chain_keeps_terms_and_value (op : ChainOp) {ts : List Term} (hlen : 2 ≤ ts.length)
    (hbrackets : ∀ t ∈ ts, t.grouped = t.plain ∨ t.grouped = "(" ++ t.plain ++ ")") :
    ∃ lead rest, (op.normalize ts).pieces = lead :: rest ∧ lead.subtracted = false ∧
      (op.normalize ts).text =
        (let sum := lead.text ++
          String.join (rest.map fun p => (if p.subtracted then " - " else " + ") ++ p.text)
        if (op.normalize ts).negated then "-(" ++ sum ++ ")" else sum) ∧
      (∃ pairs : List (Piece × Term), pairs.map Prod.fst = lead :: rest ∧
        (pairs.map Prod.snd).Perm ts ∧ ∀ pair ∈ pairs, pair.1.Shows pair.2) ∧
      ∀ {G : Type u} [AddCommGroup G] (v : String → G), (∀ t ∈ ts, v t.plain = v t.grouped) →
        (∀ t ∈ ts, t.isNegative = true → v (dropMinus t.grouped) = -v t.grouped) →
        (if (op.normalize ts).negated then -Piece.sum v (lead :: rest)
          else Piece.sum v (lead :: rest)) = op.total (fun t => v t.plain) ts := by
  obtain ⟨s, rest, hnormal, hlead, hperm, hsum⟩ := op.exists_normalize hlen
  have hmem : ∀ t ∈ s :: rest, t.term ∈ ts := fun t ht => hperm.mem_iff.1 (List.mem_map_of_mem ht)
  rw [hnormal]
  refine ⟨s.piece true, rest.map (·.piece false), rfl, hlead, ?_, ?_, fun v hsame hdrop => ?_⟩
  · have hjoined : Piece.joined =
        fun p => (if p.subtracted then " - " else " + ") ++ p.text := rfl
    simp only [Chain.text, Chain.body, hjoined]
  · refine ⟨(s.piece true, s.term) :: rest.map fun t => (t.piece false, t.term), ?_, ?_, ?_⟩
    · simp [Function.comp_def]
    · simpa [Function.comp_def] using hperm
    · intro pair hpair
      rcases List.mem_cons.1 hpair with rfl | hpair
      · exact s.shows_piece true (hbrackets _ (hmem s List.mem_cons_self))
      · obtain ⟨t, ht, rfl⟩ := List.mem_map.1 hpair
        exact t.shows_piece false (hbrackets _ (hmem t (List.mem_cons_of_mem s ht)))
  · have hvalue : ∀ t ∈ s :: rest, ∀ leading,
        (if (t.piece leading).subtracted then -v (t.piece leading).text
          else v (t.piece leading).text) = t.share fun t => v t.plain := by
      intro t ht leading
      have hts := hmem t ht
      refine t.value_piece leading (hsame _ hts) fun hneg => ?_
      rw [← Term.grouped_eq_plain hneg (hbrackets _ hts)]
      exact hdrop _ hts hneg
    have hpieces : Piece.sum v (s.piece true :: rest.map (·.piece false)) =
        ((s :: rest).map (SignedTerm.share fun t => v t.plain)).sum := by
      rw [Piece.sum, List.map_cons, List.map_cons, List.map_map, hvalue s List.mem_cons_self]
      congr 2
      exact List.map_congr_left fun t ht => hvalue t (List.mem_cons_of_mem s ht) false
    rw [hpieces, hsum]
    split
    · rw [neg_neg]
    · rfl

theorem written_chain_keeps_terms_and_value_of_negated :
    let ts : List Term := [.atom "-a", .group "b + c", .group "-d * e"]
    let v : String → ℤ := fun text =>
      if text = "-a" then -2 else if text = "a" then 2
      else if text ∈ ["b + c", "(b + c)"] then 5 else -12
    (subtract.normalize ts).text = "-(a + b + c + (-d * e))" ∧
      (subtract.normalize ts).negated = true ∧ subtract.total (fun t => v t.plain) ts = 5 ∧
      ∃ lead rest, (subtract.normalize ts).pieces = lead :: rest ∧
        -Piece.sum v (lead :: rest) = 5 := by
  intro ts v
  have hnegated : (subtract.normalize ts).negated = true := by decide
  have htotal : subtract.total (fun t => v t.plain) ts = 5 := by decide
  refine ⟨by decide, hnegated, htotal, ?_⟩
  obtain ⟨lead, rest, hpieces, -, -, -, hsum⟩ :=
    written_chain_keeps_terms_and_value subtract (show 2 ≤ ts.length by decide) (by decide)
  refine ⟨lead, rest, hpieces, ?_⟩
  have hvalue := hsum v (by decide) (by decide)
  rwa [if_pos hnegated, htotal] at hvalue

end ChainOp

end StraightLine
