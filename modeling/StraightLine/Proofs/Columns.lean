import StraightLine.Proofs.NodeViews

/-! # The parts of mappings and reductions

A mapping or reduction has one part per column of its operands. Columns never change once a request
was made, so the parts answer the same request however often it is made again: to use the operands of
the parts is to use the columns. Between requests all parts are in place, and every request is refused
as a whole or goes through. -/
namespace StraightLine

def Call.key? : Call → Option Identity
  | .apply operation operands => some ⟨.apply, operation, operands⟩
  | .map operation operands => some ⟨.mapping, operation, operands⟩
  | .reduce operation operands => some ⟨.reduction, operation, operands⟩
  | _ => none

namespace Session

variable {s t : Session} {id : NodeId} {kind : Kind}

def columns (s : Session) (key : Identity) : Except Fault (List (List NodeId)) :=
  match key.tag with
  | .mapping => s.mapColumns key.operation key.operands
  | .reduction => s.reduceColumns key.operation key.operands
  | _ => .ok []

theorem columns_extends (h : s.arena.Extends t.arena) {key : Identity}
    (hknown : ∀ o ∈ key.operands, s.arena.contains o = true) : t.columns key = s.columns key := by
  unfold columns
  cases key.tag with
  | mapping => exact mapColumns_extends h hknown
  | reduction => exact reduceColumns_extends h hknown
  | scalar | vector | field | apply => rfl

/-- The parts of every mapping and reduction carry out its columns. -/
def Columned (s : Session) : Prop :=
  ∀ id kind key operation cs, s.arena.kind? id = some kind → kind.identity? = some key →
    kind.parts? = some (operation, cs) → ∃ columns, s.columns key = .ok columns ∧
      List.Forall₂ (fun c column => s.arena.kind? c = some (.apply operation column)) cs columns

theorem kind?_intern {key : Identity} (h : (s.intern key).2.arena.kind? id = some kind) :
    s.arena.kind? id = some kind ∨ id = (s.intern key).1.1 ∧ kind = key.kind [] := by
  cases hf : s.identities.find? key with
  | some known =>
    rw [intern_known hf] at h
    exact .inl h
  | none =>
    rw [intern_fresh hf] at h ⊢
    rw [Arena.kind?_register, Function.update_apply] at h
    split at h
    next heq =>
      cases h
      exact .inr ⟨heq, rfl⟩
    next => exact .inl h

theorem UsedAll.kind?_eq {ids : List NodeId} (h : UsedAll ids s t) (hs : s.WellFormed) :
    t.arena.kind? = s.arena.kind? := (h.wellFormed hs).2.kind?_eq

/-- Operations on columns have no parts themselves. -/
theorem AppliedAll.kind?_of_parts {operation : String} {columns : List (List NodeId)}
    {cs : List NodeId} (h : AppliedAll operation columns s cs t) (hs : s.WellFormed)
    (hc : ∀ column ∈ columns, column ≠ [] ∧ ∀ o ∈ column, s.arena.contains o = true)
    {parts : String × List NodeId} (hk : t.arena.kind? id = some kind)
    (hp : kind.parts? = some parts) : s.arena.kind? id = some kind := by
  induction h with
  | nil => exact hk
  | @cons column columns s t u cs head tail ih =>
    obtain ⟨hne, hknown⟩ := hc column (by simp)
    have hkey : s.Requestable ⟨.apply, operation, column⟩ := ⟨rfl, hknown, fun _ => hne⟩
    have hint := hs.intern hkey
    obtain ⟨ht, hsame⟩ := head.wellFormed hint
    have hall := (extends_intern s ⟨.apply, operation, column⟩).trans hsame.toExtends
    have hmid := ih ht (fun column' hm => ⟨(hc column' (by simp [hm])).1,
      fun o ho => hall.contains ((hc column' (by simp [hm])).2 o ho)⟩) hk
    rw [head.kind?_eq hint] at hmid
    rcases kind?_intern hmid with hold | ⟨-, rfl⟩
    · exact hold
    · cases hp

/-- The node that is being built is of the requested kind and has no parts yet. -/
theorem AppliedAll.kind?_built {key : Identity} {columns : List (List NodeId)} {cs : List NodeId}
    (h : AppliedAll key.operation columns (s.intern key).2 cs t) (hs : s.WellFormed)
    (hkey : s.Requestable key) (hf : s.identities.find? key = none)
    (hc : ∀ column ∈ columns, column ≠ [] ∧ ∀ o ∈ column, s.arena.contains o = true) :
    t.arena.kind? (s.intern key).1.1 = some (key.kind []) := by
  have hext := extends_intern s key
  obtain ⟨-, hst, -⟩ := h.wellFormed (hs.intern hkey) fun column hm =>
    ⟨(hc column hm).1, fun o ho => hext.contains ((hc column hm).2 o ho)⟩
  refine hst.kind? ?_
  simp [intern_fresh hf, Arena.kind?_register]

/-- The only new node with parts is the one that was asked for, and its parts carry out the
columns. -/
theorem Columnwise.kind?_of_parts {key : Identity} {columns : List (List NodeId)}
    (h : Columnwise key columns s t) (hs : s.WellFormed) (hkey : s.Requestable key)
    (hempty : (key.kind []).parts? = some (key.operation, []))
    (hc : ∀ column ∈ columns, column ≠ [] ∧ ∀ o ∈ column, s.arena.contains o = true)
    {operation : String} {parts : List NodeId} (hk : t.arena.kind? id = some kind)
    (hp : kind.parts? = some (operation, parts)) :
    s.arena.kind? id = some kind ∨ kind.identity? = some key ∧
      List.Forall₂ (fun c column => t.arena.kind? c = some (.apply operation column)) parts
        columns := by
  have hint := hs.intern hkey
  have hext := extends_intern s key
  cases h with
  | known found used =>
    rw [used.kind?_eq hint, intern_known found] at hk
    exact .inl hk
  | @fresh cs u new applied =>
    have hc' : ∀ column ∈ columns, column ≠ [] ∧
        ∀ o ∈ column, (s.intern key).2.arena.contains o = true := fun column hm =>
      ⟨(hc column hm).1, fun o ho => hext.contains ((hc column hm).2 o ho)⟩
    obtain ⟨-, -, hparts⟩ := applied.wellFormed hint hc'
    have hbuilt := applied.kind?_built hs hkey new hc
    obtain ⟨kind', hp', hident, hkind⟩ := kind?_setComponents cs hbuilt hempty
    rw [hkind, Function.update_apply] at hk
    split at hk
    next =>
      cases hk
      rw [hp'] at hp
      cases hp
      refine .inr ⟨hident.trans hkey.answer, hparts.imp fun c column ⟨part, hpart, hpk⟩ => ?_⟩
      have happly := hpk ▸ Arena.kind?_of_get? hpart
      rw [hkind, Function.update_of_ne, happly]
      rintro rfl
      rw [hbuilt, Option.some.injEq] at happly
      rw [happly] at hempty
      cases hempty
    next hne =>
      rcases kind?_intern (applied.kind?_of_parts hint hc' hk hp) with hold | ⟨heq, -⟩
      · exact .inl hold
      · exact absurd heq hne

theorem kind?_addVector_of_parts {shape : Shape} {name : String} {square : Bool}
    {parts : String × List NodeId} (hk : (s.addVector shape name square).2.arena.kind? id = some kind)
    (hp : kind.parts? = some parts) : s.arena.kind? id = some kind := by
  cases shape with
  | components cs =>
    rw [Session.addVector, Arena.kind?_register, Function.update_apply] at hk
    split at hk
    next =>
      cases hk
      cases hp
    next => exact hk
  | length n =>
    rcases Arena.kind?_registerFields _ _ _ _ hk with hold | ⟨-, rfl⟩ | ⟨i, -, -, rfl⟩
    · exact hold
    · cases hp
    · cases hp

/-- A new node with parts carries out the columns of its request. -/
theorem Performed.kind?_of_parts {call : Call} {result : Option NodeId}
    (h : Performed s call result t) (hs : s.WellFormed) {operation : String} {parts : List NodeId}
    (hk : t.arena.kind? id = some kind) (hp : kind.parts? = some (operation, parts)) :
    s.arena.kind? id = some kind ∨ ∃ key columns, call.key? = some key ∧
      kind.identity? = some key ∧ (∀ o ∈ key.operands, s.arena.contains o = true) ∧
      s.columns key = .ok columns ∧ List.Forall₂ (fun c column => t.arena.kind? c = some (.apply operation column)) parts
        columns := by
  cases h with
  | scalar name =>
    rw [Session.addScalar, Arena.kind?_register, Function.update_apply] at hk
    split at hk
    next =>
      cases hk
      cases hp
    next => exact .inl hk
  | vector name known => exact .inl (kind?_addVector_of_parts hk hp)
  | matrix name known => exact .inl (kind?_addVector_of_parts hk hp)
  | @apply operation' operands _ conditions used =>
    obtain ⟨hne, hknown, -⟩ := checkApply_eq_ok.1 conditions
    have hkey : s.Requestable ⟨.apply, operation', operands⟩ := ⟨rfl, hknown, fun _ => hne⟩
    rw [used.kind?_eq (hs.intern hkey)] at hk
    rcases kind?_intern hk with hold | ⟨-, rfl⟩
    · exact .inl hold
    · cases hp
  | @map operation' operands columns _ conditions built =>
    obtain ⟨hknown, -, hc⟩ := hs.mapColumns conditions
    rcases built.kind?_of_parts hs ⟨rfl, hknown, by simp⟩ rfl hc hk hp with hold | ⟨hident, hparts⟩
    · exact .inl hold
    · exact .inr ⟨_, columns, rfl, hident, hknown, conditions, hparts⟩
  | @reduce operation' operands columns _ conditions built =>
    obtain ⟨hknown, -, hc⟩ := hs.reduceColumns conditions
    rcases built.kind?_of_parts hs ⟨rfl, hknown, by simp⟩ rfl hc hk hp with hold | ⟨hident, hparts⟩
    · exact .inl hold
    · exact .inr ⟨_, columns, rfl, hident, hknown, conditions, hparts⟩
  | assign conditions sources stored =>
    obtain ⟨⟨node, square, hn, hkind⟩, -, -⟩ := assignTargets_eq_ok conditions
    obtain ⟨-, hsame⟩ := stored.wellFormed hs fun p hp =>
      (hs.arena _ node hn).components _ square hkind p.1 (List.of_mem_zip hp).1
    rw [hsame.kind?_eq] at hk
    exact .inl hk
  | @phi test success failure wanted length u name names value conditions used allocate written =>
    rw [← used.kind?_eq hs]
    cases length with
    | none =>
      rw [addMerged, Session.addScalar, Arena.kind?_register, Function.update_apply] at hk
      split at hk
      next =>
        cases hk
        cases hp
      next => exact .inl hk
    | some n => exact .inl (kind?_addVector_of_parts (s := u.merging names name value) hk hp)
  | output known used =>
    rw [(used.wellFormed hs).2.kind?_eq] at hk
    exact .inl hk
  | recycle name => exact .inl hk

/-- The operands of a known node are known. -/
theorem WellFormed.contains_operand (hs : s.WellFormed) {key : Identity}
    (hk : s.arena.kind? id = some kind) (hident : kind.identity? = some key) :
    ∀ o ∈ key.operands, s.arena.contains o = true := by
  intro o ho
  obtain ⟨node, hn, hkind⟩ := Arena.exists_of_kind? hk
  have hlt := (hs.arena id node hn).operands key (hkind ▸ hident) o ho
  have hsize := Arena.index_lt_of_get? hn
  simp only [Arena.contains, decide_eq_true_eq]
  omega

/-- Requests keep the parts of mappings and reductions. -/
theorem Performed.columned {call : Call} {result : Option NodeId} (h : Performed s call result t)
    (hs : s.WellFormed) (hcolumned : s.Columned) : t.Columned := by
  obtain ⟨-, hext⟩ := h.wellFormed hs
  intro id kind key operation cs hk hident hp
  rcases h.kind?_of_parts hs hk hp with hold | ⟨key', columns, -, hident', hknown, hcolumns, hparts⟩
  · obtain ⟨columns, hcolumns, hparts⟩ := hcolumned id kind key operation cs hold hident hp
    exact ⟨columns, (columns_extends hext (hs.contains_operand hold hident)).trans hcolumns,
      hparts.imp fun _ _ hc => hext.kind? hc⟩
  · rw [hident, Option.some.injEq] at hident'
    subst hident'
    exact ⟨columns, (columns_extends hext hknown).trans hcolumns, hparts⟩

/-- A session between requests: every mapping and reduction has its parts. -/
structure Complete (s : Session) : Prop extends WellFormed s where
  columned : s.Columned

theorem Performed.complete {call : Call} {result : Option NodeId} (h : Performed s call result t)
    (hs : s.Complete) : t.Complete where
  toWellFormed := (h.wellFormed hs.toWellFormed).1
  columned := h.columned hs.toWellFormed hs.columned

end Session

/-- A node with the identity of a mapping or reduction has parts. -/
theorem Kind.parts?_of_identity? {kind : Kind} {key : Identity} (h : kind.identity? = some key)
    (hp : (key.kind []).parts? = some (key.operation, [])) :
    ∃ cs, kind.parts? = some (key.operation, cs) := by
  cases kind with
  | scalar | vector | field => cases h
  | apply => cases h; cases hp
  | reduction operation operands cs | mapping operation operands cs =>
    cases h
    exact ⟨cs, rfl⟩

theorem Node.components?_of_parts? {node : Node} {operation : String} {cs : List NodeId}
    (h : node.kind.parts? = some (operation, cs)) : node.components? = some cs := by
  cases hk : node.kind <;> simp_all [Kind.parts?, components?]

namespace Builder

open Session

variable {s : Session}

theorem useOperands_of_kind? {id : NodeId} {operation : String} {operands : List NodeId}
    (hk : s.arena.kind? id = some (.apply operation operands)) :
    useOperands id s = useAll operands s := by
  obtain ⟨node, hn, hkind⟩ := Arena.exists_of_kind? hk
  rw [useOperands, bind_ok (ask_ok (node_eq_ok hn)), hkind]

theorem useComponents_of_kind? {id : NodeId} {kind : Kind} {operation : String} {cs : List NodeId}
    (hk : s.arena.kind? id = some kind) (hparts : kind.parts? = some (operation, cs)) :
    useComponents id s = cs.forM useOperands s := by
  obtain ⟨node, hn, rfl⟩ := Arena.exists_of_kind? hk
  rw [useComponents, bind_ok (ask_ok (node_eq_ok hn)), Node.components?_of_parts? hparts]
  rfl

/-- To use the operands of all parts is to use the columns one after the other. -/
theorem useParts_run {operation : String} {cs : List NodeId} {columns : List (List NodeId)}
    (hs : s.WellFormed)
    (hparts : List.Forall₂ (fun c column => s.arena.kind? c = some (.apply operation column)) cs
      columns)
    (hc : ∀ column ∈ columns, ∀ o ∈ column, s.arena.contains o = true) :
    ∃ t, cs.forM useOperands s = .ok () t ∧ UsedAll columns.flatten s t := by
  induction columns generalizing s cs with
  | nil =>
    cases hparts
    exact ⟨s, rfl, .nil s⟩
  | cons column columns ih =>
    cases hparts with
    | cons hpart hparts =>
      obtain ⟨t, ht, hused⟩ := useAll_run hs (hc column (by simp))
      obtain ⟨hwf, hsame⟩ := hused.wellFormed hs
      rw [← hsame.kind?_eq] at hparts
      obtain ⟨u, hu, hall⟩ := ih hwf hparts fun column' hm o ho =>
        hsame.toExtends.contains (hc column' (by simp [hm]) o ho)
      refine ⟨u, ?_, hused.append hall⟩
      rw [List.forM_eq_forM, List.forM_cons, bind_ok ((useOperands_of_kind? hpart).trans ht)]
      exact hu

/-- A request on record finds parts that carry out its columns. -/
theorem useComponents_run {key : Identity} {columns : List (List NodeId)} {id : NodeId}
    (hs : s.Complete) (hp : (key.kind []).parts? = some (key.operation, []))
    (hcolumns : s.columns key = .ok columns)
    (hc : ∀ column ∈ columns, ∀ o ∈ column, s.arena.contains o = true)
    (hf : s.identities.find? key = some id) :
    ∃ t, useComponents id (s.intern key).2 = .ok () t ∧
      UsedAll columns.flatten (s.intern key).2 t := by
  obtain ⟨node, hn, hident⟩ := (hs.identities key id).1 hf
  obtain ⟨cs, hcs⟩ := Kind.parts?_of_identity? hident hp
  obtain ⟨found, hfound, hparts⟩ :=
    hs.columned id node.kind key key.operation cs (Arena.kind?_of_get? hn) hident hcs
  rw [hcolumns, Except.ok.injEq] at hfound
  subst hfound
  rw [intern_known hf]
  obtain ⟨t, ht, hused⟩ := useParts_run
    (s := { s with identities.hits := s.identities.hits + 1 })
    ⟨hs.arena, hs.leaves, hs.identities⟩ hparts hc
  refine ⟨t, (useComponents_of_kind? ?_ hcs).trans ht, hused⟩
  exact Arena.kind?_of_get? hn

theorem columnwise_known {key : Identity} {columns : List (List NodeId)} {id : NodeId} {t : Session}
    (hf : s.identities.find? key = some id) (h : useComponents id (s.intern key).2 = .ok () t) :
    columnwise key columns s = .ok id t := by
  have hu : update (·.intern key) s = .ok (s.intern key).1 (s.intern key).2 := rfl
  rw [columnwise, bind_ok hu]
  rw [intern_known hf] at h ⊢
  dsimp only
  rw [if_neg (by simp), bind_ok h]
  rfl

theorem columnwise_run {key : Identity} {columns : List (List NodeId)} (hs : s.Complete)
    (hk : s.Requestable key) (hp : (key.kind []).parts? = some (key.operation, []))
    (hcolumns : s.columns key = .ok columns)
    (hc : ∀ column ∈ columns, column ≠ [] ∧ ∀ o ∈ column, s.arena.contains o = true) :
    ∃ t, columnwise key columns s = .ok (s.intern key).1.1 t ∧ Columnwise key columns s t := by
  have hint := hs.intern hk
  have hext := extends_intern s key
  cases hf : s.identities.find? key with
  | none =>
    have hu : update (·.intern key) s = .ok (s.intern key).1 (s.intern key).2 := rfl
    obtain ⟨cs, t, ht, happ⟩ := applyAll_run key.operation hint fun column hm =>
      ⟨(hc column hm).1, fun o ho => hext.contains ((hc column hm).2 o ho)⟩
    refine ⟨_, ?_, .fresh hf happ⟩
    have hnew : (s.intern key).1.2 = true := by rw [intern_fresh hf]
    rw [columnwise, bind_ok hu]
    dsimp only
    rw [if_pos hnew, bind_ok ht]
    rfl
  | some id =>
    obtain ⟨t, ht, hused⟩ := useComponents_run hs hp hcolumns (fun column hm => (hc column hm).2) hf
    have hid : (s.intern key).1.1 = id := by rw [intern_known hf]
    rw [hid]
    exact ⟨t, columnwise_known hf ht, .known hf hused⟩

theorem map_run {operation : String} {operands : List NodeId} {columns : List (List NodeId)}
    (hs : s.Complete) (hc : s.mapColumns operation operands = .ok columns) :
    ∃ t, (Call.map operation operands).run s =
        .ok (some (s.intern ⟨.mapping, operation, operands⟩).1.1) t ∧
      Columnwise ⟨.mapping, operation, operands⟩ columns s t := by
  obtain ⟨hknown, -, hcols⟩ := hs.mapColumns hc
  have hkey : s.Requestable ⟨.mapping, operation, operands⟩ := ⟨rfl, hknown, by simp⟩
  obtain ⟨t, ht, hbuilt⟩ := columnwise_run hs hkey rfl hc hcols
  refine ⟨t, map_ok _ ?_, hbuilt⟩
  rw [map, bind_ok (ask_ok hc), ht]

theorem reduce_run {operation : String} {operands : List NodeId} {columns : List (List NodeId)}
    (hs : s.Complete) (hc : s.reduceColumns operation operands = .ok columns) :
    ∃ t, (Call.reduce operation operands).run s =
        .ok (some (s.intern ⟨.reduction, operation, operands⟩).1.1) t ∧
      Columnwise ⟨.reduction, operation, operands⟩ columns s t := by
  obtain ⟨hknown, -, hcols⟩ := hs.reduceColumns hc
  have hkey : s.Requestable ⟨.reduction, operation, operands⟩ := ⟨rfl, hknown, by simp⟩
  obtain ⟨t, ht, hbuilt⟩ := columnwise_run hs hkey rfl hc hcols
  refine ⟨t, map_ok _ ?_, hbuilt⟩
  rw [reduce, bind_ok (ask_ok hc), ht]

def Answered (s : Session) (call : Call) : Prop :=
  (∃ e, call.run s = .error e s) ∨ ∃ result t, call.run s = .ok result t ∧ Performed s call result t

/-- Every request between requests is refused as a whole or goes through. -/
theorem answered (hs : s.Complete) (call : Call) : Answered s call := by
  cases call with
  | scalar name => exact .inr ⟨_, _, rfl, .scalar name⟩
  | vector shape name =>
    rcases addVector_run s shape name false with ⟨e, he⟩ | ⟨hrun, hknown⟩
    · exact .inl ⟨e, map_error _ he⟩
    · exact .inr ⟨_, _, map_ok _ hrun, .vector name hknown⟩
  | matrix shape name =>
    rcases addVector_run s shape name true with ⟨e, he⟩ | ⟨hrun, hknown⟩
    · exact .inl ⟨e, map_error _ he⟩
    · exact .inr ⟨_, _, map_ok _ hrun, .matrix name hknown⟩
  | apply operation operands =>
    cases hc : s.checkApply operation operands with
    | error e => exact .inl ⟨e, map_error _ (bind_error (ask_error hc))⟩
    | ok u =>
      obtain ⟨t, ht, hused⟩ := apply_run hs.toWellFormed hc
      exact .inr ⟨_, t, ht, .apply hc hused⟩
  | map operation operands =>
    cases hc : s.mapColumns operation operands with
    | error e => exact .inl ⟨e, map_error _ (bind_error (ask_error hc))⟩
    | ok columns =>
      obtain ⟨t, ht, hbuilt⟩ := map_run hs hc
      exact .inr ⟨_, t, ht, .map hc hbuilt⟩
  | reduce operation operands =>
    cases hc : s.reduceColumns operation operands with
    | error e => exact .inl ⟨e, map_error _ (bind_error (ask_error hc))⟩
    | ok columns =>
      obtain ⟨t, ht, hbuilt⟩ := reduce_run hs hc
      exact .inr ⟨_, t, ht, .reduce hc hbuilt⟩
  | assign target source =>
    cases hc : s.assignTargets target source with
    | error e => exact .inl ⟨e, map_error _ (bind_error (ask_error hc))⟩
    | ok outputs =>
      obtain ⟨inputs, t, ht, hin, hstored⟩ := assign_run hs.toWellFormed hc
      exact .inr ⟨none, t, ht, .assign hc hin hstored⟩
  | phi test success failure wanted =>
    cases hc : s.phiLength test success failure with
    | error e => exact .inl ⟨e, map_error _ (bind_error (ask_error hc))⟩
    | ok length => exact .inr (phi_run hs.toWellFormed hc wanted)
  | output id =>
    cases hc : s.requireKnown [id] with
    | error e => exact .inl ⟨e, map_error _ (bind_error (ask_error hc))⟩
    | ok u =>
      obtain ⟨t, ht, hused⟩ := output_run hs.toWellFormed hc
      exact .inr ⟨some id, t, ht, .output (requireKnown_eq_ok.1 hc id (by simp)) hused⟩
  | recycle name => exact .inr ⟨_, _, rfl, .recycle name⟩

end Builder

end StraightLine
