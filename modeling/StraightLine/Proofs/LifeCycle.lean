import Mathlib.Data.List.Nodup
import StraightLine.Proofs.Steps

/-! # The life of a node

A leaf has its name from the start. Any other node is written out until its second use binds it to a
name, or it awaits a store until its next use does. How it is written, whether it may be bound and how
often it has been used go together in every session, and a store that a node awaits is in the list and
awaited by no other node. So the prior value of a node that awaits a store is always captured. -/
namespace StraightLine

/-- How the standing of a node, its flag and its count go together. -/
structure Node.Proper (settings : Settings) (node : Node) : Prop where
  leaf : node.kind.isLeaf = true →
    (∃ name, node.standing = .named name) ∧ node.aliasable = false ∧ node.uses = 0
  named : ∀ name, node.standing = .named name → node.aliasable = false
  fixed : node.aliasable = false → (∀ name, node.standing ≠ .named name) →
    node.kind.tag = .field ∧ settings.aliasFields = false ∧ node.standing = .inline ∧ node.uses = 0
  stored : ∀ store, node.standing = .stored store → node.aliasable = true ∧ node.uses = 1
  counted : settings.aliasExpressions = true → node.aliasable = true → node.uses ≤ 1

namespace Node

variable {settings : Settings} {node : Node}

theorem Fresh.proper (h : node.Fresh settings) : node.Proper settings := by
  obtain ⟨huses, halias, hleaf, hinline⟩ := h
  cases hk : node.kind with
  | scalar | vector cs square =>
    obtain ⟨name, hname⟩ := hleaf (by simp [hk, Kind.isLeaf])
    have hfixed : node.aliasable = false := by simpa [hk, Kind.isAliasable] using halias
    exact ⟨fun _ => ⟨⟨name, hname⟩, hfixed, huses⟩, fun _ _ => hfixed,
      fun _ hnot => absurd hname (hnot name), by simp [hname], by simp [huses]⟩
  | field parent index =>
    have hstanding := hinline (by simp [hk, Kind.isLeaf])
    have hflag : node.aliasable = settings.aliasFields := by simpa [hk, Kind.isAliasable] using halias
    exact ⟨by simp [hk, Kind.isLeaf], by simp [hstanding],
      fun hfixed _ => ⟨by simp [hk, Kind.tag], hflag ▸ hfixed, hstanding, huses⟩,
      by simp [hstanding], by simp [huses]⟩
  | apply operation operands | reduction operation operands cs | mapping operation operands cs =>
    have hstanding := hinline (by simp [hk, Kind.isLeaf])
    have hflag : node.aliasable = true := by simpa [hk, Kind.isAliasable] using halias
    exact ⟨by simp [hk, Kind.isLeaf], by simp [hstanding], by simp [hflag], by simp [hstanding],
      by simp [huses]⟩

theorem Proper.not_leaf (h : node.Proper settings) (ha : node.aliasable = true) :
    node.kind.isLeaf = false := by
  by_contra hleaf
  simp [(h.leaf (by simpa using hleaf)).2.1] at ha

theorem Proper.not_named (h : node.Proper settings) (ha : node.aliasable = true) (name : String) :
    node.standing ≠ .named name := by
  intro hname
  simp [h.named name hname] at ha

/-- A use that binds nothing: the node awaits no store, and with bindings on it is the first use. -/
theorem Proper.used (h : node.Proper settings) (ha : node.aliasable = true)
    (hkept : node.uses ≠ 1 ∨ node.pendingStore? = none ∧ settings.aliasExpressions = false) :
    Proper settings { node with uses := node.uses + 1 } where
  leaf hleaf := absurd (h.not_leaf ha) (by simpa using hleaf)
  named := h.named
  fixed hfixed := absurd ha (by simpa using hfixed)
  stored store hstanding := by
    obtain ⟨-, huses⟩ := h.stored store hstanding
    rcases hkept with hne | ⟨hnone, -⟩
    · exact absurd huses hne
    · simp only at hstanding
      simp [pendingStore?, hstanding] at hnone
  counted hon _ := by
    have hle := h.counted hon ha
    rcases hkept with hne | ⟨-, hoff⟩
    · show node.uses + 1 ≤ 1
      omega
    · simp [hon] at hoff

theorem proper_bound (node : Node) (hleaf : node.kind.isLeaf = false) (name : String) :
    (node.bound name).Proper settings :=
  ⟨by simp [Node.bound, hleaf], fun _ _ => rfl, fun _ hnot => absurd rfl (hnot name),
    by simp [Node.bound], by simp [Node.bound]⟩

theorem Proper.overwritten (h : node.Proper settings) (store : StatementId) :
    (node.overwritten store).Proper settings := by
  unfold Node.overwritten
  split
  next ha =>
    exact ⟨by simp [h.not_leaf ha], by simp, by simp [ha], fun _ _ => ⟨ha, rfl⟩,
      fun _ _ => Nat.le_refl 1⟩
  next => exact h

/-- The kind of a node matters only as far as it is a leaf or a field. -/
theorem Proper.withKind (h : node.Proper settings) {kind : Kind} {operation : String}
    {cs old : List NodeId} (hparts : kind.parts? = some (operation, cs))
    (hold : node.kind.parts? = some (operation, old)) :
    Proper settings { node with kind := kind } where
  leaf hleaf := by
    rw [Kind.parts?_of_isLeaf hleaf] at hparts
    cases hparts
  named := h.named
  fixed hfixed hnot := by
    obtain ⟨hfield, -⟩ := h.fixed hfixed hnot
    cases hk : node.kind <;> simp_all [Kind.tag, Kind.parts?]
  stored := h.stored
  counted := h.counted

theorem withComponents_of_parts {operation : String} {old : List NodeId} (cs : List NodeId)
    (hparts : node.kind.parts? = some (operation, old)) :
    ∃ kind, node.withComponents cs = { node with kind } ∧ kind.parts? = some (operation, cs) := by
  cases hk : node.kind <;> simp_all [withComponents, Kind.parts?]

end Node

namespace Schedule

/-- A statement is put into the list under the next number. -/
structure Inserted (s t : Schedule) (earlier : List Statement) (new : Statement)
    (later : List Statement) : Prop where
  before : s.statements = earlier ++ later
  after : t.statements = earlier ++ new :: later
  number : new.id = ⟨s.nextId⟩
  next : t.nextId = s.nextId + 1

/-- Statements have numbers of their own, all below the next one. -/
structure Numbered (s : Schedule) : Prop where
  below : ∀ st ∈ s.statements, st.id.number < s.nextId
  distinct : (s.statements.map Statement.id).Nodup

variable {s t : Schedule} {earlier later : List Statement} {new : Statement}

theorem inserted_push (s : Schedule) (action : Action) (value : Phrase) :
    s.Inserted (s.push action value).2 s.statements ⟨⟨s.nextId⟩, action, value⟩ [] :=
  ⟨by simp, rfl, rfl, rfl⟩

/-- A capture is put right before the statement it refers to. -/
theorem inserted_capture {store number : StatementId} {name : String}
    (h : s.capture? store name = some (number, t)) :
    ∃ earlier overwritten later, overwritten.id = store ∧
      s.Inserted t earlier ⟨⟨s.nextId⟩, .declare name (some store), overwritten.target⟩
        (overwritten :: later) := by
  obtain ⟨earlier, overwritten, later, hsplit, hid, rfl⟩ := capture?_eq_some h
  exact ⟨earlier, overwritten, later, hid, hsplit, rfl, rfl, rfl⟩

theorem Inserted.mem_iff (h : s.Inserted t earlier new later) {st : Statement} :
    st ∈ t.statements ↔ st = new ∨ st ∈ s.statements := by
  rw [h.before, h.after, List.mem_append, List.mem_cons, or_left_comm, List.mem_append]

theorem Inserted.numbered (h : s.Inserted t earlier new later) (hs : s.Numbered) : t.Numbered := by
  constructor
  · intro st hst
    rw [h.next]
    rcases h.mem_iff.1 hst with rfl | hold
    · simp [h.number]
    · exact Nat.lt_succ_of_lt (hs.below st hold)
  · rw [h.after, List.map_append, List.map_cons, List.nodup_middle, ← List.map_append, ← h.before,
      List.nodup_cons]
    refine ⟨fun hmem => ?_, hs.distinct⟩
    obtain ⟨st, hst, hid⟩ := List.mem_map.1 hmem
    have hlt := hs.below st hst
    simp [hid, h.number] at hlt

theorem Numbered.eq_of_id (h : s.Numbered) {one other : Statement} (hone : one ∈ s.statements)
    (hother : other ∈ s.statements) (hid : one.id = other.id) : one = other :=
  List.inj_on_of_nodup_map h.distinct hone hother hid

end Schedule

namespace Session

variable {s t : Session} {id : NodeId} {effects more : List Effect}

/-- Every node is in order, and the store that a node awaits is in the list and is its own. -/
structure LifeCycle (s : Session) : Prop where
  nodes : ∀ id node, s.arena.get? id = some node → node.Proper s.settings
  pending : ∀ id store, s.arena.standing? id = some (.stored store) →
    ∃ st ∈ s.schedule.statements, st.id = store ∧ st.isDeclaration = false
  single : ∀ id other store, s.arena.standing? id = some (.stored store) →
    s.arena.standing? other = some (.stored store) → id = other

/-- A use of a node that awaits a store binds it by a declaration right before that store. -/
def Captures (s : Session) : Prop :=
  ∀ id store, s.arena.standing? id = some (.stored store) →
    ∃ earlier st later name t, s.schedule.statements = earlier ++ st :: later ∧ st.id = store ∧
      st.isDeclaration = false ∧ Builder.use id s = .ok () t ∧
      t.schedule.statements = earlier ++
        ⟨⟨s.schedule.nextId⟩, .declare name (some store), st.target⟩ :: st :: later ∧
      t.arena.standing? id = some (.named name)

/-- No node begins to await a store. -/
theorem LifeCycle.keep (h : s.LifeCycle)
    (hnodes : ∀ id node, t.arena.get? id = some node → node.Proper t.settings)
    (hsub : s.schedule.statements ⊆ t.schedule.statements)
    (hpending : ∀ id store, t.arena.standing? id = some (.stored store) →
      s.arena.standing? id = some (.stored store)) : t.LifeCycle where
  nodes := hnodes
  pending id store hst := by
    obtain ⟨st, hmem, hid⟩ := h.pending id store (hpending id store hst)
    exact ⟨st, hsub hmem, hid⟩
  single id other store hst hst' :=
    h.single id other store (hpending id store hst) (hpending other store hst')

/-- A new node awaits no store. -/
theorem Grown.standing?_stored (h : s.Grown t) {store : StatementId}
    (hst : t.arena.standing? id = some (.stored store)) :
    s.arena.standing? id = some (.stored store) := by
  obtain ⟨node, hn, hstanding⟩ := Arena.exists_of_standing? hst
  rcases h.cases hn with hold | ⟨-, hfresh⟩
  · exact hstanding ▸ Arena.standing?_of_get? hold
  · obtain ⟨-, huses⟩ := hfresh.proper.stored store hstanding
    rw [hfresh.uses] at huses
    cases huses

theorem LifeCycle.grown (h : s.LifeCycle) (hgrown : s.Grown t) : t.LifeCycle := by
  refine h.keep (fun id node hn => ?_) (by simp [hgrown.schedule]) fun _ _ =>
    hgrown.standing?_stored
  rw [hgrown.settings]
  rcases hgrown.cases hn with hold | ⟨-, hfresh⟩
  · exact h.nodes id node hold
  · exact hfresh.proper

/-- A node that gets its parts changes nothing but its kind. -/
theorem get?_setComponents_cases {node found : Node} {operation : String} {old cs : List NodeId}
    {other : NodeId} (hn : s.arena.get? id = some node)
    (hparts : node.kind.parts? = some (operation, old))
    (hfound : (s.setComponents id cs).arena.get? other = some found) :
    s.arena.get? other = some found ∨
      other = id ∧ ∃ kind, found = { node with kind } ∧ kind.parts? = some (operation, cs) := by
  by_cases heq : other = id
  · subst heq
    rw [Session.setComponents, Arena.setComponents, Arena.get?_modify, if_pos rfl, hn,
      Option.map_some, Option.some.injEq] at hfound
    obtain ⟨kind, hnode, hkind⟩ := Node.withComponents_of_parts cs hparts
    exact .inr ⟨rfl, kind, hfound.symm.trans hnode, hkind⟩
  · rw [get?_setComponents_of_ne heq] at hfound
    exact .inl hfound

theorem LifeCycle.setComponents (h : s.LifeCycle) {node : Node} {operation : String}
    {old cs : List NodeId} (hn : s.arena.get? id = some node)
    (hparts : node.kind.parts? = some (operation, old)) : (s.setComponents id cs).LifeCycle := by
  refine h.keep (fun other found hfound => ?_) (List.Subset.refl _) (by simp)
  rcases get?_setComponents_cases hn hparts hfound with hold | ⟨rfl, kind, rfl, hkind⟩
  · exact h.nodes other found hold
  · exact (h.nodes other node hn).withKind hkind hparts

theorem mayBind_eq_false {node : Node} (h : s.mayBind node = false) :
    node.pendingStore? = none ∧ s.settings.aliasExpressions = false := by
  rw [mayBind, Bool.or_eq_false_iff] at h
  exact ⟨by simpa using h.1, h.2⟩

theorem LifeCycle.used (h : s.LifeCycle) (hused : Used s id t) : t.LifeCycle := by
  refine h.keep (fun other node hn => ?_) hused.sublist.subset fun other store hst => ?_
  · rw [hused.settings_eq]
    rcases hused.get?_cases hn with
      ⟨hold, -⟩ | ⟨rfl, old, hold, halias, ⟨hkept, rfl⟩ | ⟨-, name, rfl⟩⟩
    · exact h.nodes other node hold
    · exact (h.nodes other old hold).used halias (hkept.imp_right mayBind_eq_false)
    · have hleaf := (h.nodes other old hold).not_leaf halias
      exact Node.proper_bound { old with uses := old.uses + 1 } hleaf name
  · obtain ⟨node, hn, hstanding⟩ := Arena.exists_of_standing? hst
    rcases hused.get?_cases hn with
      ⟨hold, -⟩ | ⟨rfl, old, hold, -, ⟨-, rfl⟩ | ⟨-, name, rfl⟩⟩
    · exact hstanding ▸ Arena.standing?_of_get? hold
    · exact (Arena.standing?_of_get? hold).trans (congrArg some hstanding)
    · cases hstanding

/-- A node that is stored into awaits the new store; no other node awaits a store of that number. -/
theorem LifeCycle.storing (h : s.LifeCycle) (hnumbered : s.schedule.Numbered) (output : NodeId)
    (place e : Expr) : (s.storing output place e).LifeCycle := by
  have hold : ∀ id store, s.arena.standing? id = some (.stored store) →
      store.number < s.schedule.nextId := by
    intro id store hst
    obtain ⟨st, hmem, rfl, -⟩ := h.pending id store hst
    exact hnumbered.below st hmem
  refine ⟨fun id node hn => ?_, fun id store hst => ?_, fun id other store hst hst' => ?_⟩
  · by_cases heq : id = output
    · subst heq
      rw [Session.storing, modifyNode, Arena.get?_modify, if_pos rfl, Option.map_eq_some_iff] at hn
      obtain ⟨old, hold, rfl⟩ := hn
      exact (h.nodes id old hold).overwritten _
    · rw [Session.storing, modifyNode, Arena.get?_modify_of_ne heq] at hn
      exact h.nodes id node hn
  · rcases standing?_storing hst with hst | ⟨-, hstored⟩
    · obtain ⟨st, hmem, hid⟩ := h.pending id store hst
      exact ⟨st, List.mem_append_left _ hmem, hid⟩
    · cases hstored
      exact ⟨_, List.mem_append_right _ (List.mem_singleton_self _), rfl, rfl⟩
  · rcases standing?_storing hst with hst | ⟨rfl, hstored⟩
    · rcases standing?_storing hst' with hst' | ⟨-, hstored⟩
      · exact h.single id other store hst hst'
      · have hlt := hold id store hst
        cases hstored
        simp at hlt
    · rcases standing?_storing hst' with hst' | ⟨rfl, -⟩
      · have hlt := hold other store hst'
        cases hstored
        simp at hlt
      · rfl

theorem Bound.inserted (h : Bound s id t) :
    ∃ earlier new later, s.schedule.Inserted t.schedule earlier new later := by
  cases h with
  | capture get pending allocate capture =>
    obtain ⟨earlier, overwritten, later, -, hinserted⟩ := Schedule.inserted_capture capture
    exact ⟨earlier, _, overwritten :: later, hinserted⟩
  | declare => exact ⟨_, _, [], Schedule.inserted_push ..⟩

theorem Step.numbered (h : Step s effects t) (hs : s.schedule.Numbered) : t.schedule.Numbered := by
  cases h with
  | add added => exact added.grown.schedule ▸ hs
  | parts => exact hs
  | use used =>
    cases used with
    | fixed | counted => exact hs
    | bound get aliasable second bound =>
      obtain ⟨earlier, new, later, hinserted⟩ := bound.inserted
      exact hinserted.numbered hs
  | store => exact (Schedule.inserted_push ..).numbered hs
  | merge length =>
    rw [schedule_addMerged]
    exact (Schedule.inserted_push ..).numbered hs

theorem Step.lifeCycle (h : Step s effects t) (hs : s.LifeCycle) (hnumbered : s.schedule.Numbered) :
    t.LifeCycle := by
  cases h with
  | add added => exact hs.grown added.grown
  | parts get parts columns => exact hs.setComponents get parts
  | use used => exact hs.used used
  | @store output input place e => exact hs.storing hnumbered output place e
  | @merge _ _ _ _ name names value length =>
    have hmerging : (s.merging names name value).LifeCycle :=
      hs.keep hs.nodes (List.subset_append_left ..) fun _ _ hst => hst
    exact hmerging.grown (grown_addMerged _ name length)

theorem lifeCycle_of_new {settings : Settings} (h : Session.new settings = .ok s) :
    s.LifeCycle ∧ s.schedule.Numbered := by
  obtain rfl := eq_of_new h
  refine ⟨⟨?_, ?_, ?_⟩, ⟨by simp, by simp⟩⟩
  all_goals simp [Arena.standing?, Arena.get?]

theorem Steps.lifeCycle {s₀ : Session} {settings : Settings} (h₀ : Session.new settings = .ok s₀)
    (h : Steps s₀ effects s) : s.WellFormed ∧ s.LifeCycle ∧ s.schedule.Numbered :=
  h.invariant (fun _ s => s.LifeCycle ∧ s.schedule.Numbered) (wellFormed_of_new h₀)
    (lifeCycle_of_new h₀) fun _ hs hstep => ⟨hstep.lifeCycle hs.1 hs.2, hstep.numbered hs.2⟩

/-- The store that a node awaits is in the list, so its prior value is captured and never declared
at the end. -/
theorem LifeCycle.captures (h : s.LifeCycle) (hs : s.WellFormed) (hnumbered : s.schedule.Numbered) :
    s.Captures := by
  intro id store hst
  obtain ⟨node, hn, hstanding⟩ := Arena.exists_of_standing? hst
  obtain ⟨halias, huses⟩ := (h.nodes id node hn).stored store hstanding
  obtain ⟨st, hmem, hid, hstore⟩ := h.pending id store hst
  obtain ⟨t, ht, hused⟩ := Builder.use_run hs (Arena.contains_of_get? hn)
  cases hused with
  | fixed get fixed =>
    rw [hn, Option.some.injEq] at get
    simp [← get, halias] at fixed
  | counted get aliasable kept =>
    rw [hn, Option.some.injEq] at get
    simp [← get, huses, mayBind, Node.pendingStore?, hstanding] at kept
  | bound get aliasable second bound =>
    rw [hn, Option.some.injEq] at get
    subst get
    cases bound with
    | @capture found awaited number name names schedule get pending allocate capture =>
      rw [get?_counted s hn, Option.some.injEq] at get
      obtain rfl : awaited = store := by simpa [← get, hstanding, eq_comm] using pending
      obtain ⟨earlier, overwritten, later, hsplit, hoverwritten, rfl⟩ :=
        Schedule.capture?_eq_some capture
      replace hsplit : s.schedule.statements = earlier ++ overwritten :: later := hsplit
      obtain rfl : st = overwritten :=
        hnumbered.eq_of_id hmem (by simp [hsplit]) (hid.trans hoverwritten.symm)
      refine ⟨earlier, st, later, name, _, hsplit, hid, hstore, ht, rfl, ?_⟩
      exact Arena.standing?_modify_self (get?_counted s hn)
    | declare get may missing allocate written =>
      -- a declaration at the end needs a store that is not in the list
      rw [get?_counted s hn, Option.some.injEq] at get
      exact absurd hid (Schedule.capture?_eq_none (missing store (get ▸ hstanding)) st hmem)

/-- In every session that requests lead to, and in the midst of requests, nodes are in order, and a use
of a node that awaits a store captures its prior value. -/
theorem nodes_follow_life_cycle {s₀ : Session} {settings : Settings}
    (h₀ : Session.new settings = .ok s₀) :
    (∀ calls, (s₀.run calls).LifeCycle ∧ (s₀.run calls).Captures) ∧
      ∀ effects s, Steps s₀ effects s → s.LifeCycle ∧ s.Captures := by
  have hsteps : ∀ effects s, Steps s₀ effects s → s.LifeCycle ∧ s.Captures := by
    intro effects s h
    obtain ⟨hs, hlife, hnumbered⟩ := h.lifeCycle h₀
    exact ⟨hlife, hlife.captures hs hnumbered⟩
  refine ⟨fun calls => ?_, hsteps⟩
  exact hsteps _ _ ((history_of_new h₀ calls).steps (wellFormed_of_new h₀))

theorem nodes_follow_life_cycle_of_swap :
    let s := ({ settings := {} } : Session).run [.vector (.length 2) "v",
      .vector (.components [⟨2⟩, ⟨1⟩]) "w", .assign ⟨0⟩ ⟨3⟩]
    s.arena.standing? ⟨2⟩ = some (.stored ⟨2⟩) ∧ ∃ t name, Builder.use ⟨2⟩ s = .ok () t ∧
      t.arena.standing? ⟨2⟩ = some (.named name) ∧ t.schedule.statements.length = 4 := by
  intro s
  have h₀ : Session.new {} = .ok { settings := {} } := rfl
  obtain ⟨hrun, -⟩ := nodes_follow_life_cycle h₀
  obtain ⟨-, hcaptures⟩ := hrun [.vector (.length 2) "v", .vector (.components [⟨2⟩, ⟨1⟩]) "w",
    .assign ⟨0⟩ ⟨3⟩]
  have hst : s.arena.standing? ⟨2⟩ = some (.stored ⟨2⟩) := by decide +kernel
  obtain ⟨earlier, st, later, name, t, hsplit, -, -, ht, hinserted, hname⟩ := hcaptures ⟨2⟩ ⟨2⟩ hst
  have hlength : s.schedule.statements.length = 3 := by decide +kernel
  refine ⟨hst, t, name, ht, hname, ?_⟩
  replace hsplit : s.schedule.statements = earlier ++ st :: later := hsplit
  rw [hsplit] at hlength
  rw [hinserted]
  simp only [List.length_append, List.length_cons] at hlength ⊢
  omega

end Session

end StraightLine
