import Mathlib.Data.List.Nodup
import Mathlib.Tactic.Choose
import StraightLine.Proofs.CanonicalSigns
import StraightLine.Proofs.Precedence
import StraightLine.Proofs.WrittenText

/-! # Trees of written terms

How the texts that the writer of expressions puts together are read. What is put behind an operand
belongs to what stands behind the minus signs and keywords that open it, and a text without brackets
may hold together less tightly than the operator it is put next to. -/
namespace StraightLine

open Precedence

/-- A text whose lexemes are those of a tree. -/
structure Spells (text : String) (t : Tree) : Prop where
  fits : t.Fits
  tokens : lexemes text = t.tokens

namespace Precedence.Tree

def ofText? (text : String) : Option Tree := read (lexemes text)

/-- A tree with operators before it, the first of them outermost. -/
def under (t : Tree) (ops : List UnaryOperator) : Tree := ops.foldr .unary t

variable {t u : Tree} {ops : List UnaryOperator}

theorem tokens_under (t : Tree) (ops : List UnaryOperator) :
    (t.under ops).tokens = ops.map UnaryOperator.lexeme ++ t.tokens := by
  induction ops with
  | nil => rfl
  | cons op ops ih => exact congrArg (op.lexeme :: ·) ih

theorem five_le_level_under (h : 5 ≤ t.level) : 5 ≤ (t.under ops).level := by
  cases ops with
  | nil => exact h
  | cons op ops => exact Nat.le_refl 5

theorem fits_under (h : 5 ≤ t.level) : (t.under ops).Fits ↔ t.Fits := by
  induction ops with
  | nil => rfl
  | cons op ops ih =>
    rw [← ih]
    exact and_iff_right (five_le_level_under h)

/-- What stands alone opens with no minus sign. -/
theorem exists_tokens_eq_cons (t : Tree) (ht : t.Fits) (hlevel : t.level = 6) :
    ∃ token tokens, t.tokens = token :: tokens ∧ token ≠ .mark "-" := by
  cases t with
  | name text => exact ⟨_, _, rfl, by simp⟩
  | number value => exact ⟨_, _, rfl, by simp⟩
  | list items => exact ⟨_, _, rfl, by simp⟩
  | paren inner => exact ⟨_, _, rfl, by simp⟩
  | unary op operand => cases hlevel
  | binary left op right =>
    have hop := op.level_le
    rw [level_binary] at hlevel
    omega
  | slot base index =>
    obtain ⟨token, tokens, htokens, hne⟩ := exists_tokens_eq_cons base ht.2.1 ht.1
    exact ⟨token, _, by rw [Tree.tokens, htokens, List.cons_append], hne⟩
  | member receiver suffix =>
    obtain ⟨token, tokens, htokens, hne⟩ := exists_tokens_eq_cons receiver ht.2 ht.1
    exact ⟨token, _, by rw [Tree.tokens, htokens, List.cons_append], hne⟩
  | call callee arguments =>
    obtain ⟨token, tokens, htokens, hne⟩ := exists_tokens_eq_cons callee ht.2.1 ht.1
    exact ⟨token, _, by rw [Tree.tokens, htokens, List.cons_append], hne⟩

end Precedence.Tree

namespace Spells

variable {a b text : String} {t u : Tree} {ops : List UnaryOperator}

theorem ofText? (h : Spells text t) : Tree.ofText? text = some t := by
  rw [Tree.ofText?, h.tokens, Tree.read_tokens h.fits]

theorem name (h : isIdentifier text = true) : Spells text (.name text) :=
  ⟨trivial, lexemes_name h⟩

theorem paren (h : Spells text t) : Spells ("(" ++ text ++ ")") (.paren t) := by
  refine ⟨h.fits, ?_⟩
  rw [lexemes_round, h.tokens, Tree.tokens]

theorem minus (h : Spells text t) (hlevel : 5 ≤ t.level) :
    Spells ("-" ++ text) (.unary .minus t) := by
  refine ⟨⟨hlevel, h.fits⟩, ?_⟩
  rw [lexemes_minus, h.tokens]
  rfl

theorem keyword {word : String} (hword : isKeyword word = true) (h : Spells text t)
    (hlevel : 5 ≤ t.level) : Spells (word ++ " " ++ text) (.unary (.keyword word) t) := by
  have hblank : lexemes " " = [] := by decide
  refine ⟨⟨hlevel, h.fits⟩, ?_⟩
  rw [lexemes_between (by decide) (by decide), lexemes_keyword hword, hblank, h.tokens]
  rfl

/-- Two texts with an operator between them, whatever binds tighter. -/
theorem join (op : BinaryOperator) (ha : Spells a t) (hb : Spells b u) :
    Spells (a ++ (" " ++ op.symbol ++ " ") ++ b) (t.join op u) := by
  have hop : lexemes (" " ++ op.symbol ++ " ") = [op.lexeme] := by cases op <;> decide
  refine ⟨Tree.fits_join op ha.fits hb.fits, ?_⟩
  rw [lexemes_between (by cases op <;> decide) (by cases op <;> decide), ha.tokens, hb.tokens, hop,
    Tree.tokens_join, List.append_assoc]
  rfl

/-- What is put behind a text belongs to what stands behind the operators that open it. -/
theorem behind (h : Spells text (t.under ops)) (ht : 5 ≤ t.level) {more : String}
    {tokens : List Lexeme} (hmore : lexemes (text ++ more) = lexemes text ++ tokens)
    (htokens : u.tokens = t.tokens ++ tokens) (hfits : t.Fits → u.Fits) (hu : 5 ≤ u.level) :
    Spells (text ++ more) (u.under ops) := by
  refine ⟨(Tree.fits_under hu).2 (hfits ((Tree.fits_under ht).1 h.fits)), ?_⟩
  rw [hmore, h.tokens, Tree.tokens_under, Tree.tokens_under, htokens, List.append_assoc]

theorem member (h : Spells text (t.under ops)) (ht : t.level = 6) {suffix : String}
    (hsuffix : isMember suffix = true) :
    Spells (text ++ suffix) ((Tree.member t suffix).under ops) := by
  refine h.behind (by omega) (lexemes_append_member hsuffix) ?_ (fun hfits => ⟨ht, hfits⟩)
    (by simp [Tree.level])
  rw [lexemes_member hsuffix]
  rfl

theorem slot (h : Spells text (t.under ops)) (ht : t.level = 6) (index : Nat) :
    Spells (slotText text index) ((Tree.slot t (.number index)).under ops) := by
  have hmore : lexemes (text ++ ("[" ++ toString index ++ "]")) =
      lexemes text ++ [.mark "[", .number index, .mark "]"] := by
    rw [lexemes_append_of_head (by simp; decide), lexemes_square, lexemes_number]
    rfl
  have hspells := h.behind (u := .slot t (.number index)) (by omega) hmore rfl
    (fun hfits => ⟨ht, hfits, trivial⟩) (by simp [Tree.level])
  rwa [← String.append_assoc, ← String.append_assoc] at hspells

end Spells

structure SpellsAll (text : String) (ts : List Tree) : Prop where
  fits : Tree.FitAll ts
  tokens : lexemes text = Tree.itemTokens ts

namespace SpellsAll

variable {text : String} {t : Tree} {ts : List Tree}

theorem fitAll {texts : List String} (h : List.Forall₂ Spells texts ts) : Tree.FitAll ts := by
  induction h with
  | nil => trivial
  | cons hhead _ ih => exact ⟨hhead.fits, ih⟩

theorem lexemes_foldl {rest : List String} (h : List.Forall₂ Spells rest ts) (first : String) :
    lexemes (rest.foldl (fun text next => text ++ ", " ++ next) first) =
      lexemes first ++ Tree.moreTokens ts := by
  have hcomma : lexemes ", " = [.mark ","] := by decide
  induction h generalizing first with
  | nil => exact (List.append_nil _).symm
  | cons hhead _ ih =>
    rw [List.foldl_cons, ih, lexemes_between (by decide) (by decide), hhead.tokens, hcomma,
      Tree.moreTokens]
    simp

theorem intercalate {texts : List String} (h : List.Forall₂ Spells texts ts) :
    SpellsAll (", ".intercalate texts) ts := by
  cases h with
  | nil => exact ⟨trivial, by decide⟩
  | cons hhead htail =>
    refine ⟨⟨hhead.fits, fitAll htail⟩, ?_⟩
    rw [intercalate_cons_eq_foldl, lexemes_foldl htail, hhead.tokens, Tree.itemTokens]

theorem list (h : SpellsAll text ts) : Spells ("[" ++ text ++ "]") (.list ts) := by
  refine ⟨h.fits, ?_⟩
  rw [lexemes_square, h.tokens, Tree.tokens]

theorem call {function : String} (h : SpellsAll text ts) (ops : List UnaryOperator)
    (hf : Spells function (t.under ops)) (ht : t.level = 6) :
    Spells (function ++ "(" ++ text ++ ")") ((Tree.call t ts).under ops) := by
  have hmore : lexemes (function ++ ("(" ++ text ++ ")")) =
      lexemes function ++ .mark "(" :: (Tree.itemTokens ts ++ [.mark ")"]) := by
    rw [lexemes_append_of_head (by simp; decide), lexemes_round, h.tokens]
  have hspells := hf.behind (u := .call t ts) (by omega) hmore rfl
    (fun hfits => ⟨ht, hfits, h.fits⟩) (by simp [Tree.level])
  rwa [← String.append_assoc, ← String.append_assoc] at hspells

end SpellsAll

/-- How both texts of a term are read: the bracketed one as an operand behind operators, and the
bare one in the same way, or as what stands inside the brackets. -/
structure Term.Parses (t : Term) (ops : List UnaryOperator) (core bare : Tree) : Prop where
  level : core.level = 6
  grouped : Spells t.grouped (core.under ops)
  plain : Spells t.plain bare
  brackets : t.grouped = t.plain ∧ bare = core.under ops ∨
    t.grouped = "(" ++ t.plain ++ ")" ∧ ops = [] ∧ core = .paren bare

/-- A term whose bare text reads as something weaker than an additive chain. -/
def Term.isLoose (t : Term) : Bool :=
  (Tree.ofText? t.plain).any fun bare => decide (bare.level < 3)

namespace Term

variable {t : Term} {text : String} {ops : List UnaryOperator} {core bare : Tree}

theorem parses_atom (ops : List UnaryOperator) (h : Spells text (core.under ops))
    (hlevel : core.level = 6) :
    (atom text).Parses ops core (core.under ops) := ⟨hlevel, h, h, .inl ⟨rfl, rfl⟩⟩

theorem parses_group (h : Spells text bare) : (group text).Parses [] (.paren bare) bare :=
  ⟨rfl, h.paren, h, .inr ⟨rfl, rfl, rfl⟩⟩

namespace Parses

theorem five_le (h : t.Parses ops core bare) : 5 ≤ (core.under ops).level :=
  Tree.five_le_level_under (by rw [h.level]; decide)

theorem isLoose_iff (h : t.Parses ops core bare) : t.isLoose = true ↔ bare.level < 3 := by
  simp [isLoose, h.plain.ofText?]

/-- A term that opens with a minus sign is read behind one. -/
theorem dropMinus (h : t.Parses ops core bare) (hneg : t.isNegative = true) :
    ∃ rest, ops = .minus :: rest ∧ Spells (StraightLine.dropMinus t.grouped) (core.under rest) := by
  have htokens := h.grouped.tokens
  have hfive : 5 ≤ core.level := by rw [h.level]; decide
  have hfits := (Tree.fits_under hfive).1 h.grouped.fits
  rw [eq_minus_append hneg, lexemes_minus, Tree.tokens_under] at htokens
  cases ops with
  | nil =>
    obtain ⟨token, tokens, hcore, hne⟩ := core.exists_tokens_eq_cons hfits h.level
    rw [List.map_nil, List.nil_append, hcore, List.cons.injEq] at htokens
    exact absurd htokens.1.symm hne
  | cons op rest =>
    rw [List.map_cons, List.cons_append, List.cons.injEq] at htokens
    cases op with
    | keyword word => cases htokens.1
    | minus =>
      refine ⟨rest, rfl, (Tree.fits_under hfive).2 hfits, ?_⟩
      rw [htokens.2, Tree.tokens_under]

/-- The negative of a term loses the minus sign that opens it, or gets one. -/
theorem negative (h : t.Parses ops core bare) :
    ∃ bare, (atom (Operator.negative t.grouped)).Parses
      (if t.isNegative then ops.tail else .minus :: ops) core bare := by
  unfold Operator.negative
  cases hneg : t.isNegative with
  | true =>
    obtain ⟨rest, rfl, hspells⟩ := h.dropMinus hneg
    rw [if_pos (show startsNegative t.grouped = true from hneg)]
    exact ⟨_, parses_atom rest hspells h.level⟩
  | false =>
    rw [if_neg (by simpa [isNegative] using hneg)]
    exact ⟨_, parses_atom (.minus :: ops) (h.grouped.minus h.five_le) h.level⟩

end Parses

end Term

section Summands

namespace Precedence.Tree

/-- A tree put together from parts with plus and minus signs between them. Its terms are theirs, if
each of them holds together as tightly as a chain. -/
structure SumOf (b : Tree) (parts : List Tree) : Prop where
  level : 3 ≤ b.level ↔ ∀ q ∈ parts, 3 ≤ q.level
  summands : 3 ≤ b.level → b.summands = parts.flatMap Tree.summands

theorem sumOf_single (q : Tree) : q.SumOf [q] := ⟨by simp, fun _ => by simp⟩

theorem SumOf.join {b q : Tree} {parts : List Tree} {op : BinaryOperator} (h : b.SumOf parts)
    (hq : q.Fits) (hop : op.level = 3) : (b.join op q).SumOf (parts ++ [q]) := by
  have hlevel := level_join b op hq
  constructor
  · rw [List.forall_mem_append, List.forall_mem_singleton, ← h.level]
    omega
  · intro hthree
    have hb : 3 ≤ b.level := by omega
    rw [summands_join hb (by omega) hq hop, h.summands hb, List.flatMap_append,
      List.flatMap_singleton]

end Precedence.Tree

def Piece.operator (p : Piece) : BinaryOperator := if p.subtracted then .minus else .plus

theorem Piece.level_operator (p : Piece) : p.operator.level = 3 := by
  cases hsub : p.subtracted <;> simp [operator, hsub, BinaryOperator.level]

theorem Piece.joined_eq (p : Piece) : p.joined = " " ++ p.operator.symbol ++ " " ++ p.text := by
  cases hsub : p.subtracted <;> simp [joined, operator, hsub, BinaryOperator.symbol]

theorem exists_tree_of_joined {text : String} {b : Tree} {parts qs : List Tree} {rest : List Piece}
    (hb : Spells text b) (hsum : b.SumOf parts)
    (h : List.Forall₂ (fun p q => Spells p.text q) rest qs) :
    ∃ t, Spells (text ++ String.join (rest.map Piece.joined)) t ∧ t.SumOf (parts ++ qs) := by
  induction h generalizing text b parts with
  | nil => exact ⟨b, by simpa using hb, by simpa using hsum⟩
  | @cons p q rest qs hhead _ ih =>
    obtain ⟨t, ht, hparts⟩ := ih (hb.join p.operator hhead)
      (hsum.join hhead.fits p.level_operator)
    refine ⟨t, ?_, by simpa using hparts⟩
    rwa [List.map_cons, String.join_cons, p.joined_eq, ← String.append_assoc, ← String.append_assoc]

/-- The sum of a chain is put together from its summands. -/
theorem Chain.exists_tree {c : Chain} {qs : List Tree} (hne : c.pieces ≠ [])
    (h : List.Forall₂ (fun p q => Spells p.text q) c.pieces qs) :
    ∃ b, Spells c.body b ∧ b.SumOf qs := by
  obtain ⟨lead, rest, hpieces⟩ := List.exists_cons_of_ne_nil hne
  rw [hpieces] at h
  rw [Chain.body, hpieces]
  cases h with
  | cons hhead htail => exact exists_tree_of_joined hhead (Tree.sumOf_single _) htail

theorem Chain.spells_text {c : Chain} {b : Tree} (h : Spells c.body b) :
    Spells c.text (if c.negated then .unary .minus (.paren b) else b) := by
  unfold Chain.text
  cases c.negated with
  | false => exact h
  | true =>
    have hspells := h.paren.minus (by simp [Tree.level])
    rwa [← String.append_assoc, ← String.append_assoc] at hspells

/-- A chain is bracketed, or its minus sign is its only operator before brackets. -/
theorem Chain.parses_term {c : Chain} {b : Tree} (h : Spells c.body b) :
    ∃ bare, c.term.Parses (if c.negated then [.minus] else []) (.paren b) bare := by
  have htext := Chain.spells_text h
  unfold Chain.term Chain.needsBrackets
  cases hneg : c.negated with
  | false =>
    rw [hneg] at htext
    exact ⟨b, Term.parses_group htext⟩
  | true =>
    rw [hneg] at htext
    exact ⟨_, Term.parses_atom [.minus] htext rfl⟩

def SignedTerm.isBracketed (s : SignedTerm) (leading : Bool) : Bool :=
  !leading && (s.subtracted || startsNegative s.term.plain)

/-- How a summand is read: what needs brackets has them, or is as loose as it is without them. -/
theorem SignedTerm.exists_tree {s : SignedTerm} {ops : List UnaryOperator} {core bare : Tree}
    (leading : Bool) (h : s.term.Parses ops core bare) :
    ∃ q, Spells (s.text leading) q ∧ (5 ≤ bare.level → 5 ≤ q.level) ∧
      (bare.level < 5 → q = if s.isBracketed leading then .paren bare else bare) := by
  have hbrackets : bare.level < 5 → ops = [] ∧ core = .paren bare := fun hlt => by
    rcases h.brackets with ⟨-, rfl⟩ | ⟨-, hgroup⟩
    · have hfive := h.five_le
      omega
    · exact hgroup
  unfold SignedTerm.text
  split
  next hneg =>
    -- a negative term has no brackets to lose, and without its sign it is still an operand
    obtain ⟨rest, rfl, hspells⟩ := h.dropMinus hneg
    have hfive : 5 ≤ core.level := by rw [h.level]; decide
    have hsame : s.term.grouped = s.term.plain := by
      rcases h.brackets with ⟨hsame, -⟩ | ⟨-, hnone, -⟩
      · exact hsame
      · cases hnone
    rw [hsame] at hspells
    refine ⟨_, hspells, fun _ => Tree.five_le_level_under hfive, fun hlt => ?_⟩
    cases (hbrackets hlt).1
  next =>
    split
    next hbracketed =>
      refine ⟨_, h.grouped, fun _ => h.five_le, fun hlt => ?_⟩
      obtain ⟨rfl, rfl⟩ := hbrackets hlt
      rw [if_pos (show s.isBracketed leading = true from hbracketed)]
      rfl
    next hbare =>
      refine ⟨bare, h.plain, fun hfive => hfive, fun _ => ?_⟩
      rw [if_neg (show ¬ s.isBracketed leading = true from hbare)]

end Summands

namespace ChainOp

variable {ts : List Term}

def leads (op : ChainOp) (ts : List Term) (p : Term × Nat) : Bool :=
  (op.written ts).head? == some p

def shown (op : ChainOp) (ts : List Term) (p : Term × Nat) : Piece :=
  (op.placed (op.negates ts) p).piece (op.leads ts p)

def isBracketed (op : ChainOp) (ts : List Term) (p : Term × Nat) : Bool :=
  (op.placed (op.negates ts) p).isBracketed (op.leads ts p)

theorem written_perm (op : ChainOp) (ts : List Term) : (op.written ts).Perm ts.zipIdx := by
  have hperm := List.filter_append_perm (fun p => op.lowers p.1 p.2 == op.negates ts) ts.zipIdx
  have hother : (fun p : Term × Nat => !(op.lowers p.1 p.2 == op.negates ts)) =
      fun p => op.lowers p.1 p.2 == !op.negates ts := by
    funext p
    cases op.lowers p.1 p.2 <;> cases op.negates ts <;> rfl
  rwa [hother] at hperm

theorem nodup_written (op : ChainOp) (ts : List Term) : (op.written ts).Nodup := by
  rw [(op.written_perm ts).nodup_iff]
  refine List.Nodup.of_map Prod.snd ?_
  rw [List.zipIdx_map_snd]
  exact List.nodup_range'

/-- Every operand is written, in its place on its side. -/
theorem normalize_eq_map_shown (op : ChainOp) (hlen : 1 < ts.length) :
    op.normalize ts = ⟨op.negates ts, (op.written ts).map (op.shown ts)⟩ := by
  obtain ⟨lead, added, -, hwritten⟩ := op.exists_lead hlen
  have hnodup := op.nodup_written ts
  rw [normalize_eq_written hlen hwritten, hwritten, List.map_cons]
  rw [hwritten, List.nodup_cons] at hnodup
  congr 2
  · simp [shown, leads, hwritten]
  · refine List.map_congr_left fun p hp => ?_
    have hne : lead ≠ p := fun heq => hnodup.1 (heq ▸ hp)
    simp [shown, leads, hwritten, beq_eq_false_iff_ne.2 hne]

/-- How the operand at a place is read: a loose one holds together as a chain exactly if it is
bracketed. -/
theorem exists_tree_shown (op : ChainOp) (ts : List Term) {p : Term × Nat}
    {ops : List UnaryOperator} {core bare : Tree}
    (h : p.1.Parses ops core bare) :
    ∃ q, Spells (op.shown ts p).text q ∧
      (3 ≤ q.level ↔ (bare.level < 3 → op.isBracketed ts p = true)) ∧
      (bare.level < 3 → op.isBracketed ts p = true → q = .paren bare) := by
  obtain ⟨q, hspells, htight, hloose⟩ :=
    SignedTerm.exists_tree (s := op.placed (op.negates ts) p) (op.leads ts p) h
  refine ⟨q, hspells, ?_, fun hlt hbracketed => ?_⟩
  · by_cases hfive : 5 ≤ bare.level
    · have hq := htight hfive
      exact iff_of_true (by omega) fun hlt => by omega
    · have hq := hloose (by omega)
      cases hbracketed : op.isBracketed ts p with
      | true =>
        rw [if_pos (show SignedTerm.isBracketed _ _ = true from hbracketed)] at hq
        simp [hq, Tree.level]
      | false =>
        rw [if_neg (by simpa [isBracketed] using hbracketed)] at hq
        simp [hq]
  · rw [hloose (by omega), if_pos (show SignedTerm.isBracketed _ _ = true from hbracketed)]

/-- The sum of a chain has a tree, and a loose operand is one of its terms exactly if every loose
operand is written with its brackets. -/
theorem exists_tree (op : ChainOp) (hlen : 1 < ts.length)
    (hts : ∀ t ∈ ts, ∃ ops core bare, t.Parses ops core bare) :
    ∃ b, Spells (op.normalize ts).body b ∧ ∀ p ∈ ts.zipIdx, ∀ bare, Spells p.1.plain bare →
      bare.level < 3 → (.paren bare ∈ b.summands ↔
        ∀ p ∈ ts.zipIdx, p.1.isLoose = true → op.isBracketed ts p = true) := by
  have hmem : ∀ p, p ∈ op.written ts ↔ p ∈ ts.zipIdx := fun p => (op.written_perm ts).mem_iff
  have hshown : ∀ p, p ∈ ts.zipIdx → ∃ q, Spells (op.shown ts p).text q ∧
      (3 ≤ q.level ↔ (p.1.isLoose = true → op.isBracketed ts p = true)) ∧
      ∀ bare, Spells p.1.plain bare → bare.level < 3 → op.isBracketed ts p = true →
        q = .paren bare := by
    intro p hp
    obtain ⟨ops, core, bare, hparses⟩ := hts p.1 (List.fst_mem_of_mem_zipIdx hp)
    obtain ⟨q, hspells, hlevel, hparen⟩ := op.exists_tree_shown ts hparses
    refine ⟨q, hspells, by rwa [hparses.isLoose_iff], fun other hother hlt hbracketed => ?_⟩
    obtain rfl : bare = other := Option.some.inj (hparses.plain.ofText?.symm.trans hother.ofText?)
    exact hparen hlt hbracketed
  -- one tree for each operand, so that trees stand in the order of the summands
  choose! tree hspells hlevel hparen using hshown
  have hforall : List.Forall₂ (fun piece q => Spells piece.text q)
      ((op.written ts).map (op.shown ts)) ((op.written ts).map tree) := by
    rw [List.forall₂_map_left_iff, List.forall₂_map_right_iff, List.forall₂_same]
    exact fun p hp => hspells p ((hmem p).1 hp)
  have hne : (op.written ts).map (op.shown ts) ≠ [] := by
    obtain ⟨lead, added, -, hwritten⟩ := op.exists_lead hlen
    simp [hwritten]
  obtain ⟨b, hb, hsum⟩ := Chain.exists_tree (c := ⟨op.negates ts, _⟩) hne hforall
  have hall : 3 ≤ b.level ↔ ∀ p ∈ ts.zipIdx, p.1.isLoose = true → op.isBracketed ts p = true := by
    rw [hsum.level, List.forall_mem_map]
    refine forall_congr' fun p => ?_
    rw [hmem]
    exact forall_congr' (hlevel p)
  refine ⟨b, op.normalize_eq_map_shown hlen ▸ hb, fun p hp bare hbare hloose => ?_⟩
  have hisLoose : p.1.isLoose = true := by simp [Term.isLoose, hbare.ofText?, hloose]
  rw [← hall]
  refine ⟨Tree.three_le_level_of_paren_mem, fun hthree => ?_⟩
  have hq := hparen p hp bare hbare hloose (hall.1 hthree p hp hisLoose)
  rw [hsum.summands hthree, List.mem_flatMap]
  exact ⟨tree p, List.mem_map_of_mem ((hmem p).2 hp), by simp [hq, Tree.summands]⟩

end ChainOp

end StraightLine
