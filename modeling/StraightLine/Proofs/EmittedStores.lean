import StraightLine.Proofs.LaterSessions

/-! # Stores of an assignment

An assignment stores one component after the other, and each store may have a name bound before
it: that of its source at the end of the list, or that of a node an earlier store of the same
assignment has overwritten. So the texts of a store are those of one moment, when the use of its
source has been counted, and all that stands between the stores are declarations. -/
namespace StraightLine

def Statement.storesIn (statements : List Statement) : List Statement :=
  statements.filter fun st => !st.isDeclaration

def Statement.texts (st : Statement) : String × String := (st.target.text, st.value.text)

namespace Statement

theorem storesIn_append (front back : List Statement) :
    storesIn (front ++ back) = storesIn front ++ storesIn back := List.filter_append ..

/-- A list that holds some statements and a store behind them, and no other store, can be cut
between them. -/
theorem exists_cut {old all : List Statement} {st : Statement} (hsub : (old ++ [st]).Sublist all)
    (hstores : storesIn all = storesIn old ++ [st]) :
    ∃ front back, all = front ++ back ∧ old.Sublist front ∧ storesIn front = storesIn old ∧
      storesIn back = [st] := by
  obtain ⟨front, back, rfl, hfront, hback⟩ := List.append_sublist_iff.1 hsub
  rw [storesIn_append] at hstores
  have hstore : st.isDeclaration = false := by
    have hmem : st ∈ storesIn front ++ storesIn back := by simp [hstores]
    rw [← storesIn_append] at hmem
    simpa using (List.mem_filter.1 hmem).2
  have hold : (storesIn old).Sublist (storesIn front) := hfront.filter _
  have hlast : [st].Sublist (storesIn back) := by
    simpa [storesIn, hstore] using hback.filter fun st => !st.isDeclaration
  -- both parts have room for no more than they are known to hold
  have hlengths := congrArg List.length hstores
  rw [List.length_append, List.length_append] at hlengths
  have hfront_le := hold.length_le
  have hback_le := hlast.length_le
  have heq := hold.eq_of_length (by omega)
  exact ⟨front, back, rfl, hfront, heq.symm, (hlast.eq_of_length (by omega)).symm⟩

end Statement

namespace Builder

open Session

variable {s t : Session} {id : NodeId}

/-- The description of a binding says what the run does. -/
theorem bindNode_of_bound (h : Bound s id t) : bindNode id s = .ok () t := by
  have hrun : ∀ {node : Node} {name : String} {names : Names} {u : Session},
      s.arena.get? id = some node → s.mayBind node = true →
      s.names.allocate (s.arena.hint id) = (name, names) →
      declareNode id node name { s with names } = .ok () u →
      bindNode id s = .ok () (u.modifyNode id (Node.bound name)) := by
    intro node name names u hn hmay hallocate hdeclare
    have hname : update (·.allocateName id) s = .ok name { s with names } := by
      simp [update, allocateName, hallocate]
    rw [bindNode, bind_ok (ask_ok (node_eq_ok hn)), bind_ok get_run, if_pos hmay, bind_ok hname,
      bind_ok hdeclare]
    rfl
  cases h with
  | @capture node store number name names schedule get pending allocate capture =>
    have hcapture : ({ s with names } : Session).capture? node name =
        some { s with names, schedule } := by
      simp [Session.capture?, Node.pendingStore?, pending, capture]
    exact hrun get (by simp [mayBind, Node.pendingStore?, pending]) allocate
      (declareNode_captured hcapture)
  | @declare node name names e get may missing allocate written =>
    have hcapture : ({ s with names } : Session).capture? node name = none := by
      cases hst : node.standing with
      | stored store => simp [Session.capture?, Node.pendingStore?, hst, missing store hst]
      | inline | named => simp [Session.capture?, Node.pendingStore?, hst]
    exact hrun get may allocate (declareNode_declared hcapture written)

/-- The description of a use says what the run does. -/
theorem use_of_used (h : Used s id t) : use id s = .ok () t := by
  have hrun : ∀ {node : Node}, s.arena.get? id = some node → node.aliasable = true →
      use id s = (if node.uses + 1 = 2 then bindNode id else pure ()) (s.counted id) := by
    intro node hn haliasable
    rw [use, bind_ok (ask_ok (node_eq_ok hn)), if_pos haliasable]
    rfl
  cases h with
  | fixed get fixed =>
    rw [use, bind_ok (ask_ok (node_eq_ok get)), if_neg (by simp [fixed])]
    rfl
  | @counted node get aliasable kept =>
    rw [hrun get aliasable]
    split
    next hsecond =>
      have hmay : (s.counted id).mayBind { node with uses := node.uses + 1 } = false :=
        kept.resolve_left (by omega)
      rw [bindNode, bind_ok (ask_ok (node_eq_ok (get?_counted s get))), bind_ok get_run,
        if_neg (by simp [hmay])]
      rfl
    next => rfl
  | bound get aliasable second bound =>
    rw [hrun get aliasable, if_pos (by omega)]
    exact bindNode_of_bound bound

theorem store_of_used {output : NodeId} {place e : Expr} (hne : output ≠ id) (h : Used s id t)
    (hplace : t.arena.target? output = some place) (he : t.arena.expr? id = some e) :
    store output id s = .ok () (t.storing output place e) := by
  rw [store, if_pos hne, bind_ok (use_of_used h), bind_ok (ask_ok (target_eq_ok hplace)),
    bind_ok (ask_ok (expr_eq_ok he))]
  rfl

end Builder

open Statement

namespace Session

variable {s t u : Session} {id : NodeId} {pairs : List (NodeId × NodeId)}

/-- The place that a store into a node writes to: a field is addressed through its vector, whether
it has a name or not, and any other node is written with its brackets. -/
inductive Addresses (s : Session) (id : NodeId) : String → Prop
  | slot {parent : NodeId} {index : Nat} {name : String}
      (field : s.arena.kind? id = some (.field parent index))
      (named : s.arena.standing? parent = some (.named name)) :
      Addresses s id (name ++ "[" ++ toString index ++ "]")
  | whole {text : String} (other : ∀ parent index, s.arena.kind? id ≠ some (.field parent index))
      (written : s.render id .auto = .ok text) : Addresses s id text

/-- Stores pair by pair, with the texts of both sides. They are those of the moment when the use
of the source has been counted. -/
inductive Emits : List (NodeId × NodeId) → Session → List (String × String) → Session → Prop
  | nil (s : Session) : Emits [] s [] s
  | cons {output input : NodeId} {pairs : List (NodeId × NodeId)} {s moment t u : Session}
      {place value : String} {texts : List (String × String)}
      (used : Builder.use input s = .ok () moment) (address : moment.Addresses output place)
      (written : moment.render input .suppress = .ok value)
      (stored : Builder.store output input s = .ok () t) (rest : Emits pairs t texts u) :
      Emits ((output, input) :: pairs) s ((place, value) :: texts) u

theorem WellFormed.addresses (hs : s.WellFormed) {place : Expr}
    (h : s.arena.target? id = some place) : s.Addresses id (place.text .auto) := by
  obtain ⟨node, hn⟩ := Arena.contains_iff.1 (Arena.contains_of_target? h)
  cases hk : node.kind with
  | field parent index =>
    obtain ⟨-, vector, cs, square, hv, hvk, -⟩ := (hs.arena id node hn).parent parent index hk
    obtain ⟨name, hname⟩ := (hs.arena parent vector hv).named (by simp [hvk, Kind.isLeaf])
    have hstanding := hname ▸ Arena.standing?_of_get? hv
    have hplace : place = .slot (.name parent name) index := by
      simpa [Arena.target?, hn, hk, Arena.expr?_of_named hstanding] using h.symm
    subst hplace
    exact .slot (hk ▸ Arena.kind?_of_get? hn) hstanding
  | scalar | vector | apply | reduction | mapping =>
    refine .whole (fun parent index hfield => ?_) (render_eq_ok ?_ .auto)
    · rw [Arena.kind?_of_get? hn, hk] at hfield
      cases hfield
    · simpa [Arena.target?, hn, hk] using h

/-- Counting a use adds no store. -/
theorem Used.storesIn_eq (h : Used s id t) :
    storesIn t.schedule.statements = storesIn s.schedule.statements := by
  cases h with
  | fixed | counted => rfl
  | bound get aliasable second bound =>
    cases bound with
    | capture _ _ _ capture =>
      obtain ⟨earlier, overwritten, later, -, hinserted⟩ := Schedule.inserted_capture capture
      rw [hinserted.after, show s.schedule.statements = _ from hinserted.before]
      simp [storesIn, isDeclaration]
    | declare => simp [storesIn, isDeclaration, Session.counted, modifyNode]

theorem Used.get?_of_ne (h : Used s id t) {other : NodeId} (hne : other ≠ id) :
    t.arena.get? other = s.arena.get? other := by
  have hcounted : (s.counted id).arena.get? other = s.arena.get? other :=
    Arena.get?_modify_of_ne hne
  cases h with
  | fixed => rfl
  | counted => exact hcounted
  | bound get aliasable second bound =>
    cases bound with
    | capture | declare => exact (Arena.get?_modify_of_ne hne).trans hcounted

theorem get?_storing_of_ne {output other : NodeId} {place e : Expr} (hne : other ≠ output) :
    (s.storing output place e).arena.get? other = s.arena.get? other :=
  Arena.get?_modify_of_ne hne

/-- What storing pairs does. The list is cut in two: the old statements are in front, with
declarations among them, and the new stores are behind, in the order of the pairs and with the
texts of their moments. Only nodes of the pairs change. -/
structure Emitted (pairs : List (NodeId × NodeId)) (s t : Session) (texts : List (String × String))
    (front back : List Statement) : Prop where
  emits : Emits pairs s texts t
  cut : t.schedule.statements = front ++ back
  old : s.schedule.statements.Sublist front
  old_stores : storesIn front = storesIn s.schedule.statements
  new_stores : (storesIn back).map Statement.texts = texts
  nodes : ∀ id, (∀ p ∈ pairs, id ≠ p.1 ∧ id ≠ p.2) → t.arena.get? id = s.arena.get? id

theorem emitted_nil (s : Session) : Emitted [] s s [] s.schedule.statements [] :=
  ⟨.nil s, by simp, .refl _, rfl, rfl, fun _ _ => rfl⟩

/-- One more store at the front. -/
theorem Emitted.cons {output input : NodeId} {place e : Expr} {texts : List (String × String)}
    {front back : List Statement} (hne : output ≠ input) (used : Used s input t)
    (ht : t.WellFormed) (target : t.arena.target? output = some place)
    (written : t.arena.expr? input = some e)
    (h : Emitted pairs (t.storing output place e) u texts front back) :
    ∃ texts early late, Emitted ((output, input) :: pairs) s u texts early late := by
  have hpushed : (t.storing output place e).schedule.statements = t.schedule.statements ++
      [⟨⟨t.schedule.nextId⟩, .store (.expr place .auto), .expr e .suppress⟩] := rfl
  have hold := h.old
  have hold_stores := h.old_stores
  rw [hpushed] at hold hold_stores
  rw [storesIn_append] at hold_stores
  -- the new store stands behind all that was there when it was added
  obtain ⟨early, late, rfl, hearly, hearly_stores, hlate_stores⟩ := exists_cut hold hold_stores
  refine ⟨_, early, late ++ back, ?_, ?_, ?_, ?_, rfl, fun id hid => ?_⟩
  · rw [storesIn_append, hlate_stores, List.map_append, h.new_stores]
    exact .cons (Builder.use_of_used used) (ht.addresses target) (render_eq_ok written .suppress)
      (Builder.store_of_used hne used target written) h.emits
  · rw [h.cut, List.append_assoc]
  · exact used.sublist.trans hearly
  · exact hearly_stores.trans used.storesIn_eq
  · obtain ⟨hout, hin⟩ := hid (output, input) List.mem_cons_self
    rw [h.nodes id fun p hp => hid p (List.mem_cons_of_mem _ hp), get?_storing_of_ne hout,
      used.get?_of_ne hin]

theorem StoredAll.emitted (h : StoredAll pairs s t) (hs : s.WellFormed) :
    ∃ texts front back, Emitted (pairs.filter fun p => p.1 ≠ p.2) s t texts front back := by
  induction h with
  | nil s => exact ⟨[], s.schedule.statements, [], emitted_nil s⟩
  | same tail ih => simpa using ih hs
  | @store output input pairs s t u place e ne used target written tail ih =>
    obtain ⟨ht, -⟩ := used.wellFormed hs
    obtain ⟨hu, -⟩ := ht.storing (Arena.contains_of_target? target) place e
    obtain ⟨texts, front, back, hemitted⟩ := ih hu
    rw [List.filter_cons_of_pos (by simpa using ne)]
    exact hemitted.cons ne used ht target written

/-- An assignment that goes through adds one store for each component that differs from its
source, in the order of the components and behind all statements there were; what else it adds are
declarations, and it changes no other nodes than the components it stores into and their
sources. -/
theorem assignment_emits_required_stores {s₀ : Session} {settings : Settings}
    (h₀ : Session.new settings = .ok s₀) (calls : List Call) {target source : NodeId}
    (h : (Call.assign target source).run (s₀.run calls) = .ok none t) :
    ∃ outputs square inputs texts front back,
      (s₀.run calls).arena.kind? target = some (.vector outputs square) ∧
      (List.range outputs.length).mapM ((s₀.run calls).broadcast source) = .ok inputs ∧
      Emitted ((outputs.zip inputs).filter fun p => p.1 ≠ p.2) (s₀.run calls) t texts front back ∧
      ∀ st ∈ back, st ∉ (s₀.run calls).schedule.statements := by
  obtain ⟨hcomplete, -⟩ := (complete_of_new h₀).run calls
  have hafter : (s₀.run calls).after (.assign target source) = t := by simp [after, h]
  rcases hcomplete.after_cases (.assign target source) with ⟨-, e, he⟩ | ⟨result, -, hperformed⟩
  · rw [h] at he
    cases he
  · rw [hafter] at hperformed
    cases hperformed with
    | @assign _ _ outputs inputs _ conditions sources stored =>
      obtain ⟨⟨node, square, hn, hk⟩, -, -⟩ := assignTargets_eq_ok conditions
      obtain ⟨texts, front, back, hemitted⟩ := stored.emitted hcomplete.toWellFormed
      refine ⟨outputs, square, inputs, texts, front, back, hk ▸ Arena.kind?_of_get? hn, sources,
        hemitted, fun st hst hold => ?_⟩
      obtain ⟨-, -, hnumbered⟩ := inOrder_of_new h₀ (calls ++ [.assign target source])
      rw [run_append, show (s₀.run calls).run [.assign target source] = t from hafter] at hnumbered
      have hnodup := hnumbered.nodup
      rw [hemitted.cut] at hnodup
      exact (List.nodup_append.1 hnodup).2.2 st (hemitted.old.subset hold) st hst rfl

/-- Two components change places, the third is its own source. The first store overwrites what the
second one reads, so a name is bound before it. -/
theorem assignment_emits_required_stores_of_swap :
    let s := ({ settings := {} } : Session).run
      [.vector (.length 3) "v", .vector (.components [⟨2⟩, ⟨1⟩, ⟨3⟩]) "w"]
    ∃ t, (Call.assign ⟨0⟩ ⟨4⟩).run s = .ok none t ∧
      t.schedule.statements.map Statement.texts =
        [("vx", "v[0]"), ("v[0]", "v[1]"), ("v[1]", "vx")] ∧
      ∃ outputs square inputs texts front back, s.arena.kind? ⟨0⟩ = some (.vector outputs square) ∧
        (List.range outputs.length).mapM (s.broadcast ⟨4⟩) = .ok inputs ∧
        Emitted ((outputs.zip inputs).filter fun p => p.1 ≠ p.2) s t texts front back ∧
        ∀ st ∈ back, st ∉ s.schedule.statements := by
  intro s
  have h₀ : Session.new {} = .ok { settings := {} } := rfl
  obtain ⟨hs, -⟩ := (complete_of_new h₀).run
    [.vector (.length 3) "v", .vector (.components [⟨2⟩, ⟨1⟩, ⟨3⟩]) "w"]
  have hconditions : s.assignTargets ⟨0⟩ ⟨4⟩ = .ok [⟨1⟩, ⟨2⟩, ⟨3⟩] := by decide +kernel
  obtain ⟨inputs, t, ht, -, -⟩ := Builder.assign_run hs.toWellFormed hconditions
  have hafter : t = s.after (.assign ⟨0⟩ ⟨4⟩) := by simp [s, after, ht]
  refine ⟨t, ht, ?_, assignment_emits_required_stores h₀ _ ht⟩
  rw [hafter]
  decide +kernel

end Session

end StraightLine
