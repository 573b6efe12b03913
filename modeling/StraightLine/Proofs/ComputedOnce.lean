import StraightLine.Proofs.DistinctNames
import StraightLine.Proofs.Expansions
import StraightLine.Proofs.SecondUses

/-! # Operations computed once

In a session of leaves, operations and outputs, an operation that is used twice is bound to a name, and
later uses write the name. Statements are never written anew, though. A declaration may have written out
an operation that is bound only afterwards, and that operation is then computed again by its own
declaration. Where this does not happen, every operation is written out at most once in the kernel. -/
namespace StraightLine

namespace Arena

variable {a b : Arena} {n : NodeId}

/-- A declaration that writes out a node, with the operations inside behind it. -/
structure Declares (a : Arena) (root : NodeId) (st : Statement) : Prop extends
    a.Demanded root st.expansions where
  declaration : st.isDeclaration = true
  head : st.expansions.head? = some root

theorem Declares.extends {root : NodeId} {st : Statement} (h : a.Declares root st)
    (hext : a.Extends b) : b.Declares root st :=
  ⟨h.toDemanded.extends hext, h.declaration, h.head⟩

/-- Declarations write out the declared nodes and the operations inside. -/
theorem count_expansions {roots : List NodeId} {statements : List Statement}
    (h : List.Forall₂ a.Declares roots statements) (n : NodeId) :
    (statements.flatMap Statement.expansions).count n =
      roots.count n + (statements.flatMap fun st => st.expansions.tail).count n := by
  induction h with
  | nil => rfl
  | @cons root st roots statements hfirst _ ih =>
    obtain ⟨inner, hinner⟩ := List.head?_eq_some_iff.1 hfirst.head
    rw [List.flatMap_cons, List.flatMap_cons, List.count_append, List.count_append, ih, hinner,
      List.tail_cons, List.count_cons, List.count_cons]
    omega

end Arena

namespace Session

variable {s t : Session} {id : NodeId} {roots : List NodeId}

/-- A session of leaves and operations, whose statements declare the given nodes. -/
structure Outlined (s : Session) (roots : List NodeId) : Prop extends LifeCycle s where
  plain : s.arena.Plain
  statements : List.Forall₂ s.arena.Declares roots s.schedule.statements
  bound : roots.Perm (s.arena.bindings.map Prod.fst)

theorem Outlined.unstored (h : s.Outlined roots) (id : NodeId) (store : StatementId) :
    s.arena.standing? id ≠ some (.stored store) := by
  intro hstanding
  obtain ⟨st, hst, -, hstore⟩ := h.pending id store hstanding
  obtain ⟨root, -, hdeclares⟩ := exists_of_mem_right h.statements hst
  rw [hdeclares.declaration] at hstore
  cases hstore

theorem Outlined.grown (h : s.Outlined roots) (hgrown : s.Grown t) (hplain : t.arena.Plain) :
    t.Outlined roots where
  toLifeCycle := h.toLifeCycle.grown hgrown
  plain := hplain
  statements := by
    have hext : s.arena.Extends t.arena := ⟨fun _ node hn => ⟨node, hgrown.get?_of_get? hn, rfl⟩⟩
    rw [hgrown.schedule]
    exact h.statements.imp fun _ _ hd => hd.extends hext
  bound := hgrown.bindings_eq ▸ h.bound

theorem Outlined.addScalar (h : s.Outlined roots) (name : String) :
    (s.addScalar name).2.Outlined roots := by
  refine h.grown (grown_addScalar s name) fun id kind hk => ?_
  rw [Session.addScalar, Arena.kind?_register, Function.update_apply] at hk
  split at hk
  next =>
    cases hk
    exact .inl rfl
  next => exact h.plain id kind hk

theorem Outlined.intern (h : s.Outlined roots) {operation : String} {operands : List NodeId}
    (hkey : s.Requestable ⟨.apply, operation, operands⟩) :
    (s.intern ⟨.apply, operation, operands⟩).2.Outlined roots := by
  refine h.grown hkey.grown fun id kind hk => ?_
  rcases kind?_intern hk with hold | ⟨-, rfl⟩
  · exact h.plain id kind hold
  · exact .inr ⟨operation, operands, rfl⟩

/-- A use declares at most the used node. -/
theorem Used.outlined (h : Used s id t) (hs : s.WellFormed) (hout : s.Outlined roots) :
    ∃ more, t.Outlined (roots ++ more) := by
  have hlife := hout.toLifeCycle.used h
  obtain ⟨-, hsame⟩ := h.wellFormed hs
  have hold := hout.statements.imp fun _ _ hd => hd.extends hsame.toExtends
  have hplain : t.arena.Plain := by
    rw [Arena.Plain, hsame.kind?_eq]
    exact hout.plain
  cases h with
  | fixed => exact ⟨[], by simpa using hout⟩
  | counted get aliasable =>
    refine ⟨[], hlife, hplain, ?_, ?_⟩
    · rw [List.append_nil]
      exact hold
    · rw [bindings_counted, List.append_nil]
      exact hout.bound
  | @bound node _ get aliasable second bound =>
    have hbindings := hout.toLifeCycle.bindings_bound get aliasable
    have hleaf := hs.not_leaf get aliasable
    obtain ⟨hcounted, -⟩ := hs.counted get aliasable
    obtain ⟨-, hbound⟩ := bound.wellFormed hcounted (get?_counted s get) hleaf
    have hunnamed : ∀ name, (s.counted id).arena.standing? id ≠ some (.named name) := by
      intro name hstanding
      rw [standing?_counted, Arena.standing?_of_get? get, Option.some.injEq] at hstanding
      exact (hout.nodes id node get).not_named aliasable name hstanding
    cases bound with
    | capture found pending =>
      -- a capture needs a store, and all statements are declarations
      refine absurd (pending ▸ Arena.standing?_of_get? found) ?_
      rw [standing?_counted]
      exact hout.unstored id _
    | @declare _ name names e found may missing allocate written =>
      have hwrites : (s.counted id).arena.WritesOut id e.expansions := by
        refine Arena.writesOut_of_exprWithin ?_ written
        rw [Arena.Plain, kind?_counted]
        exact hout.plain
      refine ⟨[id], hlife, hplain, List.rel_append hold (.cons ?_ .nil), ?_⟩
      · exact ⟨hwrites.toDemanded.extends hbound.toExtends, rfl, hwrites.head hunnamed⟩
      · calc List.Perm (roots ++ [id]) (id :: roots) := List.perm_append_singleton id roots
          List.Perm _ (id :: s.arena.bindings.map Prod.fst) := hout.bound.cons id
          List.Perm _ _ := ((hbindings name).map Prod.fst).symm

theorem UsedAll.outlined {ids : List NodeId} (h : UsedAll ids s t) (hs : s.WellFormed)
    (hout : s.Outlined roots) : ∃ more, t.Outlined (roots ++ more) := by
  induction h generalizing roots with
  | nil => exact ⟨[], by simpa using hout⟩
  | cons head tail ih =>
    obtain ⟨more, hmore⟩ := head.outlined hs hout
    obtain ⟨rest, hrest⟩ := ih (head.wellFormed hs).1 hmore
    exact ⟨more ++ rest, by simpa using hrest⟩

end Session

/-- Requests for leaves, operations and outputs. -/
def Call.isPlain : Call → Bool
  | .scalar _ | .apply .. | .output _ => true
  | _ => false

def Event.returned (e : Event) : List NodeId :=
  match e.call with
  | .output _ => e.result.toList
  | _ => []

namespace Arena

variable {a b : Arena}

theorem flatMap_operands_register (a : Arena) (node : Node) :
    (a.register node).2.ids.flatMap (a.register node).2.operands =
      a.ids.flatMap a.operands ++ (a.register node).2.operands ⟨a.size⟩ := by
  have hids : (a.register node).2.ids = a.ids ++ [⟨a.size⟩] := by
    rw [ids, size_register, List.range_succ, List.map_append]
    rfl
  rw [hids, List.flatMap_append, List.flatMap_singleton]
  congr 1
  refine List.flatMap_congr fun id hid => ?_
  obtain ⟨i, hi, rfl⟩ := List.mem_map.1 hid
  have hne : NodeId.mk i ≠ ⟨a.size⟩ := fun h => by
    cases h
    simp at hi
  rw [operands, kind?_register, Function.update_of_ne hne, operands]

theorem SameKinds.flatMap_operands (h : a.SameKinds b) :
    b.ids.flatMap b.operands = a.ids.flatMap a.operands := by
  have hoperands : b.operands = a.operands := by
    funext id
    rw [operands, h.kind?_eq, operands]
  rw [ids, ids, h.size_eq, hoperands]

theorem nodup_bindings (a : Arena) : (a.bindings.map Prod.fst).Nodup := by
  have hfst : ∀ id n, (a.binding? id).map Prod.fst = some n → n = id := by
    intro id n h
    obtain ⟨p, hp, rfl⟩ := Option.map_eq_some_iff.1 h
    exact (binding?_eq_some.1 hp).1
  rw [bindings, List.map_filterMap]
  refine a.nodup_ids.filterMap fun id other n hn ho => ?_
  exact (hfst id n hn).symm.trans (hfst other n ho)

end Arena

namespace Session

variable {s t s₀ : Session} {settings : Settings} {events : List Event} {roots : List NodeId}

theorem Performed.outlined {call : Call} {result : Option NodeId} (h : Performed s call result t)
    (hs : s.WellFormed) (hplain : call.isPlain = true) (hout : s.Outlined roots) :
    ∃ more, t.Outlined (roots ++ more) := by
  cases h with
  | scalar name => exact ⟨[], by simpa using hout.addScalar name⟩
  | @apply operation operands _ conditions used =>
    obtain ⟨hne, hknown, -⟩ := checkApply_eq_ok.1 conditions
    have hkey : s.Requestable ⟨.apply, operation, operands⟩ := ⟨rfl, hknown, fun _ => hne⟩
    exact used.outlined (hs.intern hkey) (hout.intern hkey)
  | output known used => exact used.outlined hs hout
  | vector | matrix | map | reduce | assign | phi | recycle => cases hplain

theorem History.outlined (h₀ : Session.new settings = .ok s₀) (h : History s₀ events s)
    (hplain : ∀ e ∈ events, e.call.isPlain = true) : ∃ roots, s.Outlined roots := by
  induction h with
  | nil =>
    refine ⟨[], (lifeCycle_of_new h₀).1, ?_, ?_, ?_⟩
    all_goals rw [eq_of_new h₀]
    · simp [Arena.Plain, Arena.kind?, Arena.get?]
    · exact .nil
    · exact .nil
  | @snoc events s t call result past last ih =>
    obtain ⟨roots, hroots⟩ := ih fun e he => hplain e (by simp [he])
    obtain ⟨more, hmore⟩ := last.outlined (past.wellFormed (wellFormed_of_new h₀))
      (hplain ⟨s, call, result, t⟩ (by simp)) hroots
    exact ⟨roots ++ more, hmore⟩

/-- The operands that a request adds and the node that it returns are among its uses. -/
theorem Performed.count_places_le {call : Call} {result : Option NodeId}
    (h : Performed s call result t) (hs : s.WellFormed) (hplain : call.isPlain = true) (n : NodeId) :
    (Event.returned ⟨s, call, result, t⟩).count n +
        (t.arena.ids.flatMap t.arena.operands).count n ≤
      (s.arena.ids.flatMap s.arena.operands).count n +
        (Event.uses ⟨s, call, result, t⟩).count n := by
  cases h with
  | scalar name =>
    rw [Session.addScalar, Arena.flatMap_operands_register, Arena.operands, Arena.kind?_register,
      Function.update_self, List.append_nil]
    exact Nat.le_of_eq (Nat.zero_add _)
  | @apply operation operands _ conditions used =>
    obtain ⟨hne, hknown, -⟩ := checkApply_eq_ok.1 conditions
    have hkey : s.Requestable ⟨.apply, operation, operands⟩ := ⟨rfl, hknown, fun _ => hne⟩
    obtain ⟨-, hsame⟩ := used.wellFormed (hs.intern hkey)
    rw [hsame.flatMap_operands]
    cases hfound : s.identities.find? ⟨.apply, operation, operands⟩ with
    | some id =>
      rw [intern_known hfound]
      simp [Event.returned]
    | none =>
      rw [intern_fresh hfound, Arena.flatMap_operands_register, Arena.operands,
        Arena.kind?_register, Function.update_self, List.count_append]
      simp [Event.returned, Event.uses, Event.sources, Identity.kind]
  | output known used =>
    obtain ⟨-, hsame⟩ := used.wellFormed hs
    rw [hsame.flatMap_operands, Nat.add_comm]
    rfl
  | vector | matrix | map | reduce | assign | phi | recycle => cases hplain

/-- Every place that a node has among operands and returns is one of its uses. -/
theorem History.count_places_le (h₀ : Session.new settings = .ok s₀) (h : History s₀ events s)
    (hplain : ∀ e ∈ events, e.call.isPlain = true) (n : NodeId) :
    (events.flatMap Event.returned).count n + (s.arena.ids.flatMap s.arena.operands).count n ≤
      (events.flatMap Event.uses).count n := by
  induction h with
  | nil =>
    rw [eq_of_new h₀]
    exact Nat.le_refl 0
  | @snoc events s t call result past last ih =>
    have hpast := ih fun e he => hplain e (by simp [he])
    have hlast := last.count_places_le (past.wellFormed (wellFormed_of_new h₀))
      (hplain ⟨s, call, result, t⟩ (by simp)) n
    rw [List.flatMap_append, List.flatMap_append, List.count_append, List.count_append,
      List.flatMap_singleton, List.flatMap_singleton]
    omega

def terminalExpansions (s : Session) : Terminal → List NodeId
  | .output output => ((s.arena.expr? output.node).map Expr.expansions).getD []
  | .line _ => []

/-- The nodes that are written out in the kernel, each as often as it is. -/
def expansions (s : Session) (terminals : List Terminal) : List NodeId :=
  s.schedule.statements.flatMap Statement.expansions ++ terminals.flatMap s.terminalExpansions

theorem Outlined.writesOut_terminal (h : s.Outlined roots) (hs : s.WellFormed) {id : NodeId}
    (hid : s.arena.contains id = true) :
    s.arena.WritesOut id (s.terminalExpansions (.output ⟨id⟩)) := by
  obtain ⟨e, he⟩ := hs.arena.expr?_eq_some hid
  rw [terminalExpansions, he]
  exact Arena.writesOut_of_exprWithin h.plain he

/-- The declared nodes are the named operations. -/
theorem Outlined.mem_roots_iff (h : s.Outlined roots) {n : NodeId} :
    n ∈ roots ↔ s.arena.isLeaf n = false ∧ ∃ name, s.arena.standing? n = some (.named name) := by
  rw [h.bound.mem_iff, List.mem_map]
  constructor
  · rintro ⟨p, hp, rfl⟩
    obtain ⟨hnamed, hleaf⟩ := Arena.mem_bindings.1 hp
    exact ⟨hleaf, p.2, hnamed⟩
  · rintro ⟨hleaf, name, hnamed⟩
    exact ⟨(n, name), Arena.mem_bindings.2 ⟨hnamed, hleaf⟩, rfl⟩

/-- With bindings on, an operation without a name was used at most once. -/
theorem History.count_uses_le (h₀ : Session.new settings = .ok s₀) (h : History s₀ events s)
    (hon : settings.aliasExpressions = true) (hplain : ∀ e ∈ events, e.call.isPlain = true)
    {n : NodeId} {operation : String} {operands : List NodeId}
    (hk : s.arena.kind? n = some (.apply operation operands))
    (hunnamed : ∀ name, s.arena.standing? n ≠ some (.named name)) :
    (events.flatMap Event.uses).count n ≤ 1 := by
  obtain ⟨-, htallied⟩ := (h.steps (wellFormed_of_new h₀)).tallied h₀ hon
  obtain ⟨node, hn, hkind⟩ := Arena.exists_of_kind? hk
  have hstored : .stored n ∉ events.flatMap Event.effects := by
    intro hmem
    obtain ⟨e, he, hmem⟩ := List.mem_flatMap.1 hmem
    obtain ⟨p, hp, -⟩ := Event.exists_store_of_stored hmem
    have hcall := hplain e he
    obtain ⟨before, call, result, after⟩ := e
    cases call with
    | assign => cases hcall
    | _ => cases hp
  have hnode := htallied.tallied n node hn (by rw [hkind]; rfl) hstored
  rw [Event.count_flatMap_effects] at hnode
  by_contra hmany
  obtain ⟨name, hname⟩ := hnode.named_iff.2 (by omega)
  exact hunnamed name (hname ▸ Arena.standing?_of_get? hn)

theorem History.contains_of_uses (h₀ : Session.new settings = .ok s₀) (h : History s₀ events s)
    (hon : settings.aliasExpressions = true) {n : NodeId} (hn : n ∈ events.flatMap Event.uses) :
    s.arena.contains n = true := by
  obtain ⟨-, htallied⟩ := (h.steps (wellFormed_of_new h₀)).tallied h₀ hon
  refine htallied.known n (List.count_pos_iff.1 ?_)
  rw [Event.count_flatMap_effects]
  exact List.count_pos_iff.2 hn

/-- No declaration has an operation inside that has a name now. -/
def InlinesUnnamed (s : Session) : Prop :=
  ∀ st ∈ s.schedule.statements, ∀ n ∈ st.expansions.tail,
    ∀ name, s.arena.standing? n ≠ some (.named name)

/-- A named operation is written out by its declaration alone. -/
theorem Outlined.count_of_named (h : s.Outlined roots) (hs : s.WellFormed) {returned : List NodeId}
    (hknown : ∀ id ∈ returned, s.arena.contains id = true) (hinlines : s.InlinesUnnamed) {n : NodeId}
    {name : String} (hnamed : s.arena.standing? n = some (.named name)) :
    (s.expansions (returned.map fun id => .output ⟨id⟩)).count n ≤ 1 := by
  have hdeclared : roots.count n ≤ 1 :=
    List.nodup_iff_count_le_one.1 (h.bound.nodup_iff.2 s.arena.nodup_bindings) n
  have hinner : (s.schedule.statements.flatMap fun st => st.expansions.tail).count n = 0 := by
    refine List.count_eq_zero.2 fun hmem => ?_
    obtain ⟨st, hst, hn⟩ := List.mem_flatMap.1 hmem
    exact hinlines st hst n hn name hnamed
  have hterminals : ((returned.map fun id => Terminal.output ⟨id⟩).flatMap
      s.terminalExpansions).count n = 0 := by
    refine List.count_eq_zero.2 fun hmem => ?_
    rw [List.flatMap_map] at hmem
    obtain ⟨id, hid, hn⟩ := List.mem_flatMap.1 hmem
    exact (h.writesOut_terminal hs (hknown id hid)).unnamed n hn name hnamed
  rw [expansions, List.count_append, Arena.count_expansions h.statements n]
  omega

/-- If operations inside declarations have no names, each operation is written out by its declaration
alone or at its one place. -/
theorem Outlined.count_expansions_le (h : s.Outlined roots) (hs : s.WellFormed)
    {returned : List NodeId} (hknown : ∀ id ∈ returned, s.arena.contains id = true)
    (hplaces : ∀ n operation operands, s.arena.kind? n = some (.apply operation operands) →
      (∀ name, s.arena.standing? n ≠ some (.named name)) →
      returned.count n + (s.arena.ids.flatMap s.arena.operands).count n ≤ 1)
    (hinlines : s.InlinesUnnamed) (n : NodeId) :
    (s.expansions (returned.map fun id => .output ⟨id⟩)).count n ≤ 1 := by
  have hterminals : List.Forall₂ s.arena.Demanded returned
      (returned.map fun id => s.terminalExpansions (.output ⟨id⟩)) := by
    refine List.forall₂_map_right_iff.2 (List.forall₂_same.2 fun id hid => ?_)
    exact (h.writesOut_terminal hs (hknown id hid)).toDemanded
  have hall : List.Forall₂ s.arena.Demanded (roots ++ returned)
      (s.schedule.statements.map Statement.expansions ++
        returned.map fun id => s.terminalExpansions (.output ⟨id⟩)) :=
    List.rel_append (List.forall₂_map_right_iff.2 (h.statements.imp fun _ _ hd => hd.toDemanded))
      hterminals
  have hlists : s.expansions (returned.map fun id => .output ⟨id⟩) =
      (s.schedule.statements.map Statement.expansions ++
        returned.map fun id => s.terminalExpansions (.output ⟨id⟩)).flatten := by
    simp [expansions, List.flatMap_def, Function.comp_def]
  rw [hlists]
  refine hs.arena.count_le_one hall (fun m hm => ?_) n
  by_cases hnamed : ∃ name, s.arena.standing? m = some (.named name)
  · obtain ⟨name, hnamed⟩ := hnamed
    exact .inl (hlists ▸ h.count_of_named hs hknown hinlines hnamed)
  · have hundeclared : roots.count m = 0 :=
      List.count_eq_zero.2 fun hmem => hnamed (h.mem_roots_iff.1 hmem).2
    obtain ⟨nodes, hnodes, hm⟩ := List.mem_flatten.1 hm
    obtain ⟨root, -, hroot⟩ := exists_of_mem_right hall hnodes
    obtain ⟨operation, operands, hk⟩ := hroot.operations m hm
    have hplace := hplaces m operation operands hk fun name h => hnamed ⟨name, h⟩
    rw [List.count_append]
    omega

/-- A named operation inside a declaration is written out there and by its own declaration. -/
theorem Outlined.one_lt_count_expansions (h : s.Outlined roots) (terminals : List Terminal)
    {st : Statement} (hst : st ∈ s.schedule.statements) {n : NodeId} (hn : n ∈ st.expansions.tail)
    {name : String} (hnamed : s.arena.standing? n = some (.named name)) :
    1 < (s.expansions terminals).count n := by
  obtain ⟨root, -, hdeclares⟩ := exists_of_mem_right h.statements hst
  obtain ⟨operation, operands, hk⟩ := hdeclares.operations n (List.mem_of_mem_tail hn)
  have hroot : n ∈ roots := h.mem_roots_iff.2 ⟨by simp [Arena.isLeaf, hk, Kind.isLeaf], name, hnamed⟩
  have hinner : n ∈ s.schedule.statements.flatMap fun st => st.expansions.tail :=
    List.mem_flatMap.2 ⟨st, hst, hn⟩
  have hdeclared := List.count_pos_iff.2 hroot
  have hinlined := List.count_pos_iff.2 hinner
  rw [expansions, List.count_append, Arena.count_expansions h.statements n]
  omega

/-- With bindings on, a kernel of leaves, operations and outputs writes every operation out at most once
exactly if no declaration has an operation inside that got a name of its own. -/
theorem operations_are_written_out_once_iff {s₀ : Session} {settings : Settings}
    (h₀ : Session.new settings = .ok s₀) (hon : settings.aliasExpressions = true)
    (calls : List Call) (hcalls : ∀ call ∈ calls, call.isPlain = true) :
    (∀ id, ((s₀.run calls).expansions (((s₀.events calls).flatMap Event.returned).map
      fun id => .output ⟨id⟩)).count id ≤ 1) ↔ (s₀.run calls).InlinesUnnamed := by
  have hplain : ∀ e ∈ s₀.events calls, e.call.isPlain = true := fun e he =>
    hcalls e.call (call_mem_of_mem_events he)
  have h := history_of_new h₀ calls
  have hs := h.wellFormed (wellFormed_of_new h₀)
  have hplaces := h.count_places_le h₀ hplain
  obtain ⟨roots, hroots⟩ := h.outlined h₀ hplain
  constructor
  · intro honce st hst n hn name hnamed
    have hone := honce n
    have htwice := hroots.one_lt_count_expansions
      (((s₀.events calls).flatMap Event.returned).map fun id => .output ⟨id⟩) hst hn hnamed
    omega
  · refine hroots.count_expansions_le hs (fun id hid => ?_) fun n operation operands hk hunnamed => ?_
    · refine h.contains_of_uses h₀ hon (List.count_pos_iff.1 ?_)
      have hreturned := List.count_pos_iff.2 hid
      have hplace := hplaces id
      omega
    · exact (hplaces n).trans (h.count_uses_le h₀ hon hplain hk hunnamed)

theorem operations_are_written_out_once_iff_of_square :
    let calls : List Call := [.scalar "x", .scalar "y", .apply "+" [⟨0⟩, ⟨1⟩],
      .apply "*" [⟨2⟩, ⟨0⟩], .apply "*" [⟨3⟩, ⟨3⟩], .output ⟨4⟩]
    let s : Session := ({ settings := {} } : Session).run calls
    (∀ st ∈ s.schedule.statements, st.expansions = [⟨3⟩, ⟨2⟩]) ∧
      ∀ id, (s.expansions [.output ⟨⟨4⟩⟩]).count id ≤ 1 := by
  intro calls s
  have h₀ : Session.new {} = .ok { settings := {} } := rfl
  have hdeclared : ∀ st ∈ s.schedule.statements, st.expansions = [⟨3⟩, ⟨2⟩] := by decide +kernel
  have hinline : s.arena.standing? ⟨2⟩ = some .inline := by decide +kernel
  refine ⟨hdeclared, ?_⟩
  refine (operations_are_written_out_once_iff h₀ rfl calls (by decide)).2 fun st hst n hn name => ?_
  rw [hdeclared st hst, List.tail_cons, List.mem_singleton] at hn
  rw [hn, hinline]
  simp

/-- The sum is named at its second use. By then the declaration of the product has it written out, and
its own declaration writes it out again. -/
theorem sum_written_out_twice :
    let calls : List Call := [.scalar "x", .scalar "y", .apply "+" [⟨0⟩, ⟨1⟩],
      .apply "*" [⟨2⟩, ⟨0⟩], .apply "*" [⟨3⟩, ⟨3⟩], .apply "-" [⟨2⟩, ⟨0⟩], .output ⟨4⟩, .output ⟨5⟩]
    let s₀ : Session := { settings := {} }
    (s₀.events calls).flatMap Event.returned = [⟨4⟩, ⟨5⟩] ∧
      (s₀.run calls).schedule.statements.map Statement.expansions = [[⟨3⟩, ⟨2⟩], [⟨2⟩]] ∧
      ((s₀.run calls).expansions [.output ⟨⟨4⟩⟩, .output ⟨⟨5⟩⟩]).count ⟨2⟩ = 2 := by
  decide +kernel

end Session

end StraightLine
