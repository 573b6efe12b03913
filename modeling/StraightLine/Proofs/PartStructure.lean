import Mathlib.Order.Bounds.Defs
import StraightLine.Proofs.HashConsing
import StraightLine.Proofs.Refusals

/-! # The parts of mappings and reductions, read off their operands

A mapping is as long as its longest operand and has one part per position; a reduction has one part
per operand. Parts are shared with other requests and may be older than their owner. Which operation
a part is follows from the operands of the owner alone, in every session after the request. -/
namespace StraightLine

namespace Arena

/-- An operation that carries out one column of a mapping or reduction. -/
structure Part (a : Arena) (operation : String) (c : NodeId) (column : List NodeId) : Prop where
  kind : a.kind? c = some (.apply operation column)
  nonempty : column ≠ []
  arity : FitsArity operation column.length
  written : (∃ name, a.expr? c = some (.name c name)) ∨
    ∃ first rest, a.expr? c = some (.apply c (Operator.parse operation) first rest)

/-- Mappings and reductions whose parts follow their operands. -/
structure Shaped (a : Arena) : Prop where
  mapping : ∀ id operation operands cs, a.kind? id = some (.mapping operation operands cs) →
    IsGreatest {n | ∃ o ∈ operands, a.length o = n} cs.length ∧
    ∀ i c, cs[i]? = some c → ∃ column, a.Part operation c column ∧
      List.Forall₂ (a.Stands i) operands column
  reduction : ∀ id operation operands cs, a.kind? id = some (.reduction operation operands cs) →
    List.Forall₂ (fun o c => a.Part operation c (a.column o)) operands cs

end Arena

/-- The kind of a node that answers a request is known up to the parts. -/
theorem Kind.eq_of_identity? {kind : Kind} {key : Identity} (h : kind.identity? = some key) :
    ∃ cs, kind = key.kind cs := by
  cases kind with
  | scalar | vector | field => cases h
  | apply operation operands =>
    cases h
    exact ⟨[], rfl⟩
  | reduction operation operands cs | mapping operation operands cs =>
    cases h
    exact ⟨cs, rfl⟩

namespace Arena

/-- An operation is written as its name or by its operator. -/
theorem WellFormed.expr?_of_apply {a : Arena} (ha : a.WellFormed) {c : NodeId} {operation : String}
    {operands : List NodeId} (hk : a.kind? c = some (.apply operation operands)) :
    (∃ name, a.expr? c = some (.name c name)) ∨
      ∃ first rest, a.expr? c = some (.apply c (Operator.parse operation) first rest) := by
  obtain ⟨node, hn, hkind⟩ := exists_of_kind? hk
  have carried : a.Carried fun id e => id = c → (∃ name, e = .name c name) ∨
      ∃ first rest, e = .apply c (Operator.parse operation) first rest := by
    constructor
    · rintro id node' text - - rfl
      exact .inl ⟨text, rfl⟩
    · rintro id node' parent vector index text hn' hfield - - rfl
      rw [hn, Option.some.injEq] at hn'
      simp [← hn', hkind] at hfield
    · rintro id node' operation' first rest e es hn' happly - - rfl
      rw [hn, Option.some.injEq] at hn'
      rw [← hn', hkind, Kind.apply.injEq] at happly
      exact .inr ⟨e, es, by rw [happly.1]⟩
    · rintro id node' operation' cs es hn' hparts - rfl
      rw [hn, Option.some.injEq] at hn'
      simp [← hn', hkind, Kind.parts?] at hparts
  obtain ⟨e, he, hform⟩ := ha.expr? carried (contains_of_get? hn)
  rw [he]
  simpa using hform rfl

end Arena

namespace Session

variable {s t : Session} {operation : String} {operands : List NodeId} {columns : List (List NodeId)}

/-- The columns of a mapping: one per position of the longest operand. -/
theorem columns_of_mapping (hknown : ∀ o ∈ operands, s.arena.contains o = true)
    (h : s.mapColumns operation operands = .ok columns) :
    IsGreatest {n | ∃ o ∈ operands, s.arena.length o = n} columns.length ∧
    ∀ i column, columns[i]? = some column → List.Forall₂ (s.arena.Stands i) operands column := by
  obtain ⟨hne, -⟩ := fits_of_mapColumns hknown h
  have hall := stands_of_mapColumns h
  obtain ⟨longest, hlongest, heq, hmax⟩ := exists_greatest (s := s) hne
  refine ⟨?_, fun i column hi => ?_⟩
  · rw [← hall.length_eq, List.length_range, heq]
    refine ⟨⟨longest, hlongest, rfl⟩, ?_⟩
    rintro n ⟨o, ho, rfl⟩
    exact hmax o ho
  · obtain ⟨hlt, rfl⟩ := List.getElem?_eq_some_iff.1 hi
    simpa using (List.forall₂_iff_get.1 hall).2 i (by simpa [hall.length_eq] using hlt) hlt

/-- The columns of a node with parts are conditions on single operations that all hold. -/
theorem fits_of_columns {key : Identity} (hknown : ∀ o ∈ key.operands, s.arena.contains o = true)
    (h : s.columns key = .ok columns) :
    ∀ column ∈ columns, column ≠ [] ∧ FitsArity key.operation column.length := by
  intro column hmem
  unfold Session.columns at h
  split at h
  next =>
    obtain ⟨hne, hfits, -⟩ := fits_of_mapColumns hknown h
    obtain ⟨i, hi⟩ := List.getElem?_of_mem hmem
    have hlength := ((columns_of_mapping hknown h).2 i column hi).length_eq
    refine ⟨?_, hlength ▸ hfits⟩
    rintro rfl
    exact hne (List.length_eq_zero_iff.1 hlength)
  next =>
    obtain ⟨-, hfits⟩ := fits_of_reduceColumns hknown h
    rw [columns_of_reduction h] at hmem
    obtain ⟨o, ho, rfl⟩ := List.mem_map.1 hmem
    exact hfits o ho
  next =>
    cases h
    cases hmem

/-- The parts of a node, with the columns that they carry out. -/
theorem Complete.parts (hs : s.Complete) {id : NodeId} {kind : Kind} {key : Identity}
    {cs : List NodeId} (hk : s.arena.kind? id = some kind) (hident : kind.identity? = some key)
    (hparts : kind.parts? = some (operation, cs)) :
    ∃ columns, s.columns key = .ok columns ∧ List.Forall₂ (s.arena.Part operation) cs columns := by
  obtain ⟨columns, hcolumns, hall⟩ := hs.columned id kind key operation cs hk hident hparts
  have hop : key.operation = operation := by
    cases kind <;> cases hident <;> cases hparts <;> rfl
  refine ⟨columns, hcolumns, ?_⟩
  have hfits := fits_of_columns (hs.contains_operand hk hident) hcolumns
  rw [hop] at hfits
  refine (((List.forall₂_and_left _ _).2 ⟨hfits, hall.flip⟩).imp fun column c ⟨hcolumn, hc⟩ => ?_).flip
  exact ⟨hc, hcolumn.1, hcolumn.2, hs.arena.expr?_of_apply hc⟩

theorem Complete.shaped (hs : s.Complete) : s.arena.Shaped where
  mapping id operation operands cs hk := by
    obtain ⟨columns, hcolumns, hall⟩ := hs.parts hk rfl rfl
    obtain ⟨hgreatest, hrows⟩ := columns_of_mapping (hs.contains_operand hk rfl) hcolumns
    refine ⟨hall.length_eq ▸ hgreatest, fun i c hc => ?_⟩
    obtain ⟨hlt, rfl⟩ := List.getElem?_eq_some_iff.1 hc
    have hlt' : i < columns.length := hall.length_eq ▸ hlt
    exact ⟨columns[i], (List.forall₂_iff_get.1 hall).2 i hlt hlt',
      hrows i _ (List.getElem?_eq_getElem hlt')⟩
  reduction id operation operands cs hk := by
    obtain ⟨columns, hcolumns, hall⟩ := hs.parts hk rfl rfl
    rw [columns_of_reduction hcolumns, List.forall₂_map_right_iff] at hall
    exact hall.flip

/-- In every session that requests lead to, each mapping is as long as its longest operand and
applies its operation, position by position, to what stands there for each operand; each reduction
applies its operation to the components of one operand after the other. A request for a mapping or
reduction, new or on record, is answered by such a node, whose parts are fixed from then on. -/
theorem parts_follow_operands {settings : Settings} {s₀ : Session}
    (h₀ : Session.new settings = .ok s₀) (calls : List Call) :
    (s₀.run calls).arena.Shaped ∧
    ∀ earlier request later key result t, calls = earlier ++ request :: later →
      request.key? = some key → key.tag ≠ .apply → request.run (s₀.run earlier) = .ok result t →
      ∃ id cs, result = some id ∧ t.arena.kind? id = some (key.kind cs) ∧
        (s₀.run calls).arena.kind? id = some (key.kind cs) := by
  have hnew := complete_of_new h₀
  refine ⟨(hnew.run calls).1.shaped, ?_⟩
  rintro earlier request later key result t rfl hkey htag hrun
  obtain ⟨hpre, -⟩ := hnew.run earlier
  rcases hpre.after_cases request with ⟨-, e, he⟩ | ⟨found, hfound, hperf⟩
  · rw [he] at hrun
    cases hrun
  · rw [hfound] at hrun
    cases hrun
    obtain ⟨-, hext⟩ := (hperf.complete hpre).run later
    obtain ⟨id, node, rfl, hn, hident⟩ := hperf.answers hpre.toWellFormed hkey
    obtain ⟨cs, hk⟩ := Kind.eq_of_identity? hident
    have hkind := hk ▸ Arena.kind?_of_get? hn
    refine ⟨id, cs, rfl, hkind, ?_⟩
    rw [run_append]
    exact hext.kind? hkind

theorem parts_follow_operands_of_repeated_mapping :
    let earlier : List Call := [.scalar "a", .vector (.length 2) "v", .map "*" [⟨1⟩, ⟨0⟩],
      .reduce "+" [⟨4⟩, ⟨0⟩]]
    let s : Session := ({ settings := {} } : Session).run (earlier ++ [.map "*" [⟨1⟩, ⟨0⟩]])
    ∃ cs, s.arena.kind? ⟨4⟩ = some (.mapping "*" [⟨1⟩, ⟨0⟩] cs) ∧
      IsGreatest {n | ∃ o ∈ [⟨1⟩, ⟨0⟩], s.arena.length o = n} cs.length := by
  intro earlier s
  have h₀ : Session.new {} = .ok { settings := {} } := rfl
  obtain ⟨hshaped, hanswer⟩ := parts_follow_operands h₀ (earlier ++ [.map "*" [⟨1⟩, ⟨0⟩]])
  obtain ⟨hpre, -⟩ := (complete_of_new h₀).run earlier
  have hcolumns : (({ settings := {} } : Session).run earlier).mapColumns "*" [⟨1⟩, ⟨0⟩] =
      .ok [[⟨2⟩, ⟨0⟩], [⟨3⟩, ⟨0⟩]] := by decide +kernel
  have hknown : ((({ settings := {} } : Session).run earlier).intern
      ⟨.mapping, "*", [⟨1⟩, ⟨0⟩]⟩).1.1 = ⟨4⟩ := by decide +kernel
  obtain ⟨t, ht, -⟩ := Builder.map_run hpre hcolumns
  rw [hknown] at ht
  obtain ⟨id, cs, hid, -, hkind⟩ := hanswer earlier (.map "*" [⟨1⟩, ⟨0⟩]) [] _ _ t rfl rfl
    (by decide) ht
  cases hid
  exact ⟨cs, hkind, (hshaped.mapping _ _ _ _ hkind).1⟩

end Session

end StraightLine
