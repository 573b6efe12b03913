import StraightLine.Proofs.RegularRuns

/-! # Fields that await a store

A field that has been stored into is bound, right before that store, to the value it had until then, as
soon as it is used again. So a field that is used by itself is never read after a store into its slot,
in whatever order uses and stores come. -/
namespace StraightLine

/-- The slot of an expression that is a field by itself. -/
def Expr.bare : Expr → List (String × Nat)
  | .slot base index => (Expr.slot base index).slots
  | _ => []

def Phrase.bare : Phrase → List (String × Nat)
  | .verbatim _ => []
  | .expr e _ => e.bare
  | .choice left _ right success failure => left.bare ++ right.bare ++ success.bare ++ failure.bare

/-- The slots of the fields that a statement uses by themselves. A capture is not a use. -/
def Statement.bare (st : Statement) : List (String × Nat) :=
  match st.action with
  | .declare _ (some _) => []
  | _ => st.value.bare

/-- No statement uses a field by itself after a store into its slot. -/
def UsesBeforeStores (statements : List Statement) : Prop :=
  statements.Pairwise fun earlier later => ∀ slot ∈ later.bare, earlier.stored? ≠ some slot

theorem UsesBeforeStores.insert {earlier later : List Statement} {st : Statement}
    (h : UsesBeforeStores (earlier ++ later))
    (hbefore : ∀ slot ∈ st.bare, ∀ other ∈ earlier, other.stored? ≠ some slot)
    (hafter : ∀ other ∈ later, ∀ slot ∈ other.bare, st.stored? ≠ some slot) :
    UsesBeforeStores (earlier ++ st :: later) := by
  obtain ⟨hearlier, hlater, hacross⟩ := List.pairwise_append.1 h
  refine List.pairwise_append.2 ⟨hearlier, List.pairwise_cons.2 ⟨hafter, hlater⟩, ?_⟩
  intro one hone other hother
  rcases List.mem_cons.1 hother with rfl | hother
  · exact fun slot hslot => hbefore slot hslot one hone
  · exact hacross one hone other hother

theorem UsesBeforeStores.push {schedule : Schedule} {action : Action} {value : Phrase}
    (h : UsesBeforeStores schedule.statements)
    (hbare : ∀ slot ∈ value.bare, ∀ st ∈ schedule.statements, st.stored? ≠ some slot) :
    UsesBeforeStores (schedule.push action value).2.statements := by
  rw [Schedule.statements_push]
  refine UsesBeforeStores.insert (by rwa [List.append_nil]) (fun slot hslot => hbare slot ?_) (by simp)
  rw [Statement.bare] at hslot
  split at hslot
  · cases hslot
  · exact hslot

/-- Only a field is written as a slot by itself, and that slot is its own. -/
theorem Arena.WellFormed.place?_of_bare {a : Arena} (ha : a.WellFormed) {id : NodeId} {e : Expr}
    (he : a.expr? id = some e) : ∀ slot ∈ e.bare, a.place? id = some slot := by
  have hcarried : a.Carried fun id e => ∀ slot ∈ e.bare, a.place? id = some slot := by
    refine ⟨?_, ?_, ?_, ?_⟩
    · intro id node text _ _ slot hslot
      cases hslot
    · intro id node parent vector index text hn hk hv hs slot hslot
      rw [Expr.bare, Expr.slots, List.mem_singleton] at hslot
      subst hslot
      exact Arena.place?_eq_some.2
        ⟨parent, hk ▸ Arena.kind?_of_get? hn, hs ▸ Arena.standing?_of_get? hv⟩
    · intro id node operation first rest e es _ _ _ _ slot hslot
      cases hslot
    · intro id node operation cs es _ _ _ slot hslot
      cases hslot
  obtain ⟨e', he', hslots⟩ := ha.expr? hcarried (Arena.contains_of_expr? he)
  rw [he] at he'
  cases he'
  exact hslots

/-- A node that awaits a store is bound by its next use, and a field without a name may await one. -/
structure Node.Watched (node : Node) : Prop where
  pending : ∀ store, node.standing = .stored store → node.aliasable = true ∧ node.uses = 1
  field : ∀ parent index, node.kind = .field parent index →
    node.aliasable = true ∨ ∃ name, node.standing = .named name

theorem Node.Watched.overwritten {node : Node} (h : node.Watched) (store : StatementId) :
    (node.overwritten store).Watched := by
  unfold Node.overwritten
  split
  next ha => exact ⟨fun _ _ => ⟨ha, rfl⟩, fun _ _ _ => .inl ha⟩
  next => exact h

/-- A field that is stored into awaits the store, or has a name. -/
theorem Node.Watched.not_inline {node : Node} (h : node.Watched) {parent : NodeId} {index : Nat}
    (hk : node.kind = .field parent index) (store : StatementId) :
    (node.overwritten store).standing ≠ .inline := by
  unfold Node.overwritten
  split
  next => simp
  next ha =>
    obtain halias | ⟨name, hname⟩ := h.field parent index hk
    · exact absurd halias ha
    · simp [hname]

namespace Session

/-- A field whose slot has been stored into has a name or awaits the store, which is in the list. No
statement uses a field by itself after a store into its slot. -/
structure Awaited (s : Session) : Prop where
  aliased : s.settings.aliasFields = true
  nodes : ∀ id node, s.arena.get? id = some node → node.Watched
  listed : ∀ id store, s.arena.standing? id = some (.stored store) →
    ∃ st ∈ s.schedule.statements, st.id = store
  overwritten : ∀ id slot, s.arena.place? id = some slot →
    ∀ st ∈ s.schedule.statements, st.stored? = some slot → s.arena.standing? id ≠ some .inline
  uses : UsesBeforeStores s.schedule.statements

variable {s t : Session} {id : NodeId} {read written : NodeId → Prop}

/-- A node that awaits no store and is written as a field by itself has not been stored into. How
often nodes have been used does not matter. -/
theorem Awaited.unstored (h : s.Awaited) {a : Arena} (ha : a.WellFormed)
    (hkind : a.kind? = s.arena.kind?) (hstanding : a.standing? = s.arena.standing?) {e : Expr}
    (he : a.expr? id = some e) (hpending : ∀ store, s.arena.standing? id ≠ some (.stored store)) :
    ∀ slot ∈ e.bare, ∀ st ∈ s.schedule.statements, st.stored? ≠ some slot := by
  intro slot hslot st hst hstored
  obtain ⟨node, hn⟩ := Arena.contains_iff.1 (Arena.contains_of_expr? he)
  have hnode := Arena.standing?_of_get? hn
  cases hs : node.standing with
  | inline =>
    have hplace : s.arena.place? id = some slot := by
      rw [← ha.place?_of_bare he slot hslot, Arena.place?, Arena.place?, hkind, hstanding]
    exact h.overwritten id slot hplace st hst hstored (by rw [← hstanding, hnode, hs])
  | stored store => exact hpending store (by rw [← hstanding, hnode, hs])
  | named name =>
    rw [Arena.expr?_of_named (hs ▸ hnode)] at he
    cases he
    cases hslot

/-- What has to be checked for a change that adds statements. -/
theorem Awaited.change (h : s.Awaited) (hs : s.Regular read written) (ht : t.Regular read written)
    (hsteady : s.arena.Steady t.arena) (hsettings : t.settings = s.settings)
    (hnodes : ∀ id node, t.arena.get? id = some node → node.Watched)
    (hsub : s.schedule.statements.Sublist t.schedule.statements)
    (hpending : ∀ id store, t.arena.standing? id = some (.stored store) →
      s.arena.standing? id = some (.stored store) ∨ ∃ st ∈ t.schedule.statements, st.id = store)
    (hinline : ∀ id slot, s.arena.place? id = some slot →
      t.arena.standing? id = some .inline → s.arena.standing? id = some .inline)
    (hnew : ∀ st ∈ t.schedule.statements, st ∈ s.schedule.statements ∨
      ∀ slot, st.stored? = some slot → ∀ id, t.arena.place? id = some slot →
        t.arena.standing? id ≠ some .inline)
    (huses : UsesBeforeStores t.schedule.statements) : t.Awaited := by
  refine ⟨hsettings ▸ h.aliased, hnodes, fun id store hstanding => ?_, ?_, huses⟩
  · rcases hpending id store hstanding with hold | hlisted
    · obtain ⟨st, hst, hid⟩ := h.listed id store hold
      exact ⟨st, hsub.subset hst, hid⟩
    · exact hlisted
  · intro id slot hplace st hst hstored hstanding
    rcases hnew st hst with hold | hfresh
    · -- the slot belonged to a field before the change, and it is the slot of one field only
      obtain ⟨other, -, hother⟩ := hs.stores st hold slot hstored
      obtain rfl := ht.eq_of_place? hplace (hsteady.place? hs.arena hother)
      exact h.overwritten id slot hother st hold hstored (hinline id slot hother hstanding)
    · exact hfresh slot hstored id hplace hstanding

/-- The graph changes, and the statements stay. -/
theorem Awaited.keep (h : s.Awaited) (hs : s.Regular read written) (ht : t.Regular read written)
    (hsteady : s.arena.Steady t.arena) (hsettings : t.settings = s.settings)
    (hschedule : t.schedule = s.schedule)
    (hnodes : ∀ id node, t.arena.get? id = some node → node.Watched)
    (hpending : ∀ id store, t.arena.standing? id = some (.stored store) →
      s.arena.standing? id = some (.stored store))
    (hinline : ∀ id slot, s.arena.place? id = some slot →
      t.arena.standing? id = some .inline → s.arena.standing? id = some .inline) : t.Awaited := by
  refine h.change hs ht hsteady hsettings hnodes ?_ (fun id store hst => .inl (hpending id store hst))
    hinline (fun st hst => ?_) ?_
  · rw [hschedule]
  · rw [hschedule] at hst
    exact .inl hst
  · rw [hschedule]
    exact h.uses

/-- Nodes are added. None of them awaits a store, and new fields have no name yet. -/
theorem Awaited.adding (h : s.Awaited) (hs : s.Regular read written) (ht : t.Regular read written)
    (hsettings : t.settings = s.settings) (hschedule : t.schedule = s.schedule)
    (hold : ∀ id node, s.arena.get? id = some node → t.arena.get? id = some node)
    (hnew : ∀ id node, t.arena.get? id = some node → s.arena.get? id = some node ∨
      node.Watched ∧ ∀ store, node.standing ≠ .stored store) : t.Awaited := by
  refine h.keep hs ht (Arena.steady_of_get? hold) hsettings hschedule (fun id node hn => ?_)
    (fun id store hst => ?_) fun id slot hplace hst => ?_
  · rcases hnew id node hn with hn' | ⟨hwatched, -⟩
    · exact h.nodes id node hn'
    · exact hwatched
  · obtain ⟨node, hn, hstanding⟩ := Arena.exists_of_standing? hst
    rcases hnew id node hn with hn' | ⟨-, hnot⟩
    · exact hstanding ▸ Arena.standing?_of_get? hn'
    · exact absurd hstanding (hnot store)
  · obtain ⟨parent, hk, -⟩ := Arena.place?_eq_some.1 hplace
    obtain ⟨node, hn, -⟩ := Arena.exists_of_kind? hk
    rw [Arena.standing?_of_get? (hold id node hn)] at hst
    rw [Arena.standing?_of_get? hn, hst]

theorem Awaited.addScalar (h : s.Awaited) (hs : s.Regular read written) {name : String}
    (ht : (s.addScalar name).2.Regular read written) : (s.addScalar name).2.Awaited := by
  refine h.adding hs ht rfl rfl (fun _ _ => Arena.get?_register_of_get?) fun id node hn => ?_
  simp only [Session.addScalar, Arena.get?_register] at hn
  split at hn
  next =>
    cases hn
    exact .inr ⟨⟨by simp, by simp⟩, by simp⟩
  next => exact .inl hn

theorem Awaited.addVector (h : s.Awaited) (hs : s.Regular read written) {shape : Shape}
    {name : String} {square : Bool} (ht : (s.addVector shape name square).2.Regular read written) :
    (s.addVector shape name square).2.Awaited := by
  cases shape with
  | components cs =>
    refine h.adding hs ht rfl rfl (fun _ _ => Arena.get?_register_of_get?) fun id node hn => ?_
    simp only [Session.addVector, Arena.get?_register] at hn
    split at hn
    next =>
      cases hn
      exact .inr ⟨⟨by simp, by simp⟩, by simp⟩
    next => exact .inl hn
  | length n =>
    refine h.adding hs ht rfl rfl (fun _ _ hn => Arena.get?_registerFields_of_get? hn ..)
      fun id node hn => ?_
    rcases Arena.registerFields_cases _ _ _ _ _ hn with hn' | ⟨-, rfl⟩ | ⟨i, -, -, rfl⟩
    · exact .inl hn'
    · exact .inr ⟨⟨by simp, by simp⟩, by simp⟩
    · exact .inr ⟨⟨by simp, fun _ _ _ => .inl h.aliased⟩, by simp⟩

theorem Awaited.intern (h : s.Awaited) (hs : s.Regular read written) {key : Identity}
    (ht : (s.intern key).2.Regular read written) : (s.intern key).2.Awaited := by
  cases hf : s.identities.find? key with
  | some id =>
    rw [intern_known hf] at ht ⊢
    exact ⟨h.aliased, h.nodes, h.listed, h.overwritten, h.uses⟩
  | none =>
    rw [intern_fresh hf] at ht ⊢
    refine h.adding hs ht rfl rfl (fun _ _ => Arena.get?_register_of_get?) fun id node hn => ?_
    simp only [Arena.get?_register] at hn
    split at hn
    next =>
      cases hn
      exact .inr ⟨⟨by simp, by simp⟩, by simp⟩
    next => exact .inl hn

theorem Awaited.setComponents (h : s.Awaited) (hs : s.Regular read written) {cs : List NodeId}
    (ht : (s.setComponents id cs).Regular read written)
    (hsteady : s.arena.Steady (s.setComponents id cs).arena) : (s.setComponents id cs).Awaited := by
  refine h.keep hs ht hsteady rfl rfl (fun other node hn => ?_) (by simp) (by simp)
  by_cases heq : other = id
  · subst heq
    simp only [Session.setComponents, Arena.setComponents, Arena.get?_modify, if_true,
      Option.map_eq_some_iff] at hn
    obtain ⟨old, hold, rfl⟩ := hn
    have hwatched := h.nodes other old hold
    unfold Node.withComponents
    split
    case h_4 => exact hwatched
    all_goals exact ⟨hwatched.pending, by simp⟩
  · rw [get?_setComponents_of_ne heq] at hn
    exact h.nodes other node hn

/-- A use changes one node. It leaves the node as it is, counts the use, or gives it a name. -/
theorem Used.node (h : Used s id t) {other : NodeId} {node : Node}
    (hn : t.arena.get? other = some node) : other ≠ id ∧ s.arena.get? other = some node ∨
      other = id ∧ ((∃ name, node.standing = .named name) ∨ ∃ old, s.arena.get? id = some old ∧
        (old.aliasable = false ∧ node = old ∨ (old.uses ≠ 1 ∨ s.mayBind old = false) ∧
          node = { old with uses := old.uses + 1 })) := by
  by_cases heq : other = id
  · subst heq
    refine .inr ⟨rfl, ?_⟩
    cases h with
    | @fixed old get fixed =>
      rw [get, Option.some.injEq] at hn
      exact .inr ⟨old, get, .inl ⟨fixed, hn.symm⟩⟩
    | @counted old get aliasable kept =>
      rw [get?_counted s get, Option.some.injEq] at hn
      exact .inr ⟨old, get, .inr ⟨kept, hn.symm⟩⟩
    | bound get aliasable second bound =>
      left
      cases bound with
      | capture | declare =>
        simp only [Arena.get?_modify, if_true, Option.map_eq_some_iff] at hn
        obtain ⟨old, -, rfl⟩ := hn
        exact ⟨_, rfl⟩
  · have hne : other.index ≠ id.index := fun hi => heq (by cases other; cases id; simp_all)
    refine .inl ⟨heq, ?_⟩
    cases h with
    | fixed => exact hn
    | counted => simpa [Session.counted, modifyNode, Arena.get?_modify, hne] using hn
    | bound get aliasable second bound =>
      cases bound with
      | capture | declare => simpa [Session.counted, modifyNode, Arena.get?_modify, hne] using hn

/-- A node that awaits a store has been used once, and may be bound whatever the settings say. -/
theorem Awaited.bound_next (h : s.Awaited) {node : Node} {store : StatementId}
    (hn : s.arena.get? id = some node) (hstanding : node.standing = .stored store) :
    ¬(node.uses ≠ 1 ∨ s.mayBind node = false) := by
  obtain ⟨-, huses⟩ := (h.nodes id node hn).pending store hstanding
  simp [huses, mayBind, Node.pendingStore?, hstanding]

theorem Used.watched (h : Used s id t) (hs : s.Awaited) {other : NodeId} {node : Node}
    (hn : t.arena.get? other = some node) : node.Watched := by
  rcases h.node hn with ⟨-, hold⟩ | ⟨rfl, ⟨name, hname⟩ | ⟨old, hold, ⟨-, rfl⟩ | ⟨hkept, rfl⟩⟩⟩
  · exact hs.nodes other node hold
  · exact ⟨by simp [hname], fun _ _ _ => .inr ⟨name, hname⟩⟩
  · exact hs.nodes other node hold
  · exact ⟨fun store hstanding => absurd hkept (hs.bound_next hold hstanding),
      (hs.nodes other old hold).field⟩

/-- After its use a node awaits no store, and no node begins to await one. -/
theorem Used.awaits (h : Used s id t) (hs : s.Awaited) {other : NodeId} {store : StatementId}
    (hst : t.arena.standing? other = some (.stored store)) :
    other ≠ id ∧ s.arena.standing? other = some (.stored store) := by
  obtain ⟨node, hn, hstanding⟩ := Arena.exists_of_standing? hst
  rcases h.node hn with ⟨hne, hold⟩ | ⟨rfl, ⟨name, hname⟩ | ⟨old, hold, ⟨hfixed, rfl⟩ | ⟨hkept, rfl⟩⟩⟩
  · exact ⟨hne, hstanding ▸ Arena.standing?_of_get? hold⟩
  · rw [hname] at hstanding
    cases hstanding
  · obtain ⟨haliasable, -⟩ := (hs.nodes other node hold).pending store hstanding
    rw [hfixed] at haliasable
    cases haliasable
  · exact absurd hkept (hs.bound_next hold hstanding)

theorem Used.inline (h : Used s id t) {other : NodeId}
    (hst : t.arena.standing? other = some .inline) : s.arena.standing? other = some .inline := by
  obtain ⟨node, hn, hstanding⟩ := Arena.exists_of_standing? hst
  rcases h.node hn with ⟨-, hold⟩ | ⟨rfl, ⟨name, hname⟩ | ⟨old, hold, ⟨-, rfl⟩ | ⟨-, rfl⟩⟩⟩
  · exact hstanding ▸ Arena.standing?_of_get? hold
  · rw [hname] at hstanding
    cases hstanding
  · exact hstanding ▸ Arena.standing?_of_get? hold
  · exact (Arena.standing?_of_get? hold).trans (congrArg some hstanding)

/-- A use binds a field that awaits a store to its prior value, and writes no other field too late. -/
theorem Used.usesBeforeStores (h : Used s id t) (hs : s.Awaited) (hwf : s.WellFormed) :
    UsesBeforeStores t.schedule.statements ∧ ∀ st ∈ t.schedule.statements,
      st ∈ s.schedule.statements ∨ st.stored? = none := by
  cases h with
  | fixed | counted => exact ⟨hs.uses, fun _ hst => .inl hst⟩
  | @bound old _ get aliasable second bound =>
    obtain ⟨hcounted, -⟩ := hwf.counted get aliasable
    cases bound with
    | @capture _ store number name names schedule get' pending allocate capture =>
      obtain ⟨earlier, overwritten, later, hstatements, -, rfl⟩ := Schedule.capture?_eq_some capture
      have huses := hs.uses
      replace hstatements : s.schedule.statements = earlier ++ overwritten :: later := hstatements
      rw [hstatements] at huses ⊢
      refine ⟨huses.insert (by simp [Statement.bare]) (by simp [Statement.stored?]), fun st hst => ?_⟩
      rcases List.mem_append.1 hst with hst | hst
      · exact .inl (by simp [hst])
      · rcases List.mem_cons.1 hst with rfl | hst
        · exact .inr rfl
        · exact .inl (List.mem_append_right _ hst)
    | @declare _ name names e get' may missing allocate expression =>
      have hpending : ∀ store, s.arena.standing? id ≠ some (.stored store) := by
        intro store hst
        obtain ⟨st, hmem, hid⟩ := hs.listed id store hst
        have hstored : old.standing = .stored store := by
          rwa [Arena.standing?_of_get? get, Option.some.injEq] at hst
        rw [get?_counted s get, Option.some.injEq] at get'
        exact Schedule.capture?_eq_none (missing store (get' ▸ hstored)) st hmem hid
      refine ⟨hs.uses.push (hs.unstored hcounted.arena (kind?_counted s id) (standing?_counted s id)
        expression hpending), fun st hst => ?_⟩
      rcases List.mem_append.1 hst with hst | hst
      · exact .inl hst
      · rw [List.mem_singleton] at hst
        subst hst
        exact .inr rfl

theorem Used.awaited (h : Used s id t) (hs : s.Regular read written) (hread : read id)
    (haw : s.Awaited) : t.Awaited := by
  obtain ⟨ht, hsteady⟩ := h.regular hs hread
  obtain ⟨huses, hnew⟩ := h.usesBeforeStores haw hs.toWellFormed
  refine haw.change hs ht hsteady ?_ (fun _ _ => h.watched haw) h.sublist
    (fun other store hst => .inl (h.awaits haw hst).2) (fun _ _ _ => h.inline) (fun st hst => ?_) huses
  · cases h with
    | fixed | counted => rfl
    | bound get aliasable second bound => cases bound <;> rfl
  · rcases hnew st hst with hold | hnone
    · exact .inl hold
    · exact .inr (by simp [hnone])

/-- Nodes that were used await no store. -/
theorem UsedAll.awaited {ids : List NodeId} (h : UsedAll ids s t) (hs : s.Regular read written)
    (hread : ∀ id ∈ ids, read id) (haw : s.Awaited) : t.Awaited ∧
      ∀ id store, t.arena.standing? id = some (.stored store) →
        id ∉ ids ∧ s.arena.standing? id = some (.stored store) := by
  induction h with
  | nil => exact ⟨haw, fun id store hst => ⟨by simp, hst⟩⟩
  | @cons head ids s t u used tail ih =>
    obtain ⟨ht, -⟩ := used.regular hs (hread head (by simp))
    obtain ⟨hu, hawaits⟩ := ih ht (fun id hid => hread id (by simp [hid]))
      (used.awaited hs (hread head (by simp)) haw)
    refine ⟨hu, fun id store hst => ?_⟩
    obtain ⟨hids, hst'⟩ := hawaits id store hst
    obtain ⟨hne, hst''⟩ := used.awaits haw hst'
    exact ⟨by simp [hne, hids], hst''⟩

theorem AppliedAll.awaited {operation : String} {columns : List (List NodeId)} {cs : List NodeId}
    (h : AppliedAll operation columns s cs t) (hs : s.Regular read written)
    (hc : ∀ column ∈ columns, column ≠ [] ∧ ∀ o ∈ column, s.arena.contains o = true)
    (hread : ∀ column ∈ columns, ∀ o ∈ column, read o) (haw : s.Awaited) : t.Awaited := by
  induction h with
  | nil => exact haw
  | @cons column columns s t u cs head tail ih =>
    obtain ⟨hne, hknown⟩ := hc column (by simp)
    have hkey : s.Requestable ⟨.apply, operation, column⟩ := ⟨rfl, hknown, fun _ => hne⟩
    have hint := hs.intern hkey fun _ => hread column (by simp)
    have hext := extends_intern s ⟨.apply, operation, column⟩
    obtain ⟨ht, -⟩ := head.regular hint (hread column (by simp))
    obtain ⟨-, hsame⟩ := head.wellFormed hint.toWellFormed
    obtain ⟨hawt, -⟩ := head.awaited hint (hread column (by simp)) (haw.intern hs hint)
    have hall := hext.trans hsame.toExtends
    exact ih ht (fun column' hm => ⟨(hc column' (by simp [hm])).1,
      fun o ho => hall.contains ((hc column' (by simp [hm])).2 o ho)⟩)
      (fun column' hm => hread column' (by simp [hm])) hawt

theorem Columnwise.awaited {key : Identity} {columns : List (List NodeId)}
    (h : Columnwise key columns s t) (hs : s.Regular read written) (hkey : s.Requestable key)
    (hp : (key.kind []).parts? = some (key.operation, []))
    (hc : ∀ column ∈ columns, column ≠ [] ∧ ∀ o ∈ column, s.arena.contains o = true)
    (hread : ∀ o ∈ columns.flatten, read o) (haw : s.Awaited) : t.Awaited := by
  have ht := h.regular hs hkey hp hc hread
  have htag : key.tag ≠ .apply := by
    obtain ⟨tag, operation, operands⟩ := key
    rintro rfl
    cases hp
  have hint := hs.intern hkey fun ha => absurd ha htag
  have hawi := haw.intern hs hint
  cases h with
  | known found used => exact (used.awaited hint hread hawi).1
  | @fresh cs u new applied =>
    have hext := extends_intern s key
    have hc' : ∀ column ∈ columns, column ≠ [] ∧
        ∀ o ∈ column, (s.intern key).2.arena.contains o = true := fun column hm =>
      ⟨(hc column hm).1, fun o ho => hext.contains ((hc column hm).2 o ho)⟩
    have hread' : ∀ column ∈ columns, ∀ o ∈ column, read o := fun column hm o ho =>
      hread o (List.mem_flatten.2 ⟨column, hm, ho⟩)
    obtain ⟨hu, -⟩ := applied.regular hint hc' hread'
    exact (applied.awaited hint hc' hread' hawi).setComponents hu ht
      (steady_setComponents cs (applied.kind?_built hs.toWellFormed hkey new hc) hp)

/-- A store into a field that may await one makes it do so; its source is not read too late. -/
theorem Awaited.storing (h : s.Awaited) (hs : s.Regular read written) {output input : NodeId}
    {place e : Expr} {slot : String × Nat} (hplace : s.arena.place? output = some slot)
    (htarget : s.arena.target? output = some place)
    (ht : (s.storing output place e).Regular read written) (he : s.arena.expr? input = some e)
    (hpending : ∀ store, s.arena.standing? input ≠ some (.stored store)) :
    (s.storing output place e).Awaited := by
  have hsteady := steady_storing hs.toWellFormed output place e
  obtain ⟨parent, hk, -⟩ := Arena.place?_eq_some.1 hplace
  obtain ⟨node, hn, hkind⟩ := Arena.exists_of_kind? hk
  have hwatched := h.nodes output node hn
  have hout : (s.storing output place e).arena.get? output =
      some (node.overwritten ⟨s.schedule.nextId⟩) := by
    simp [Session.storing, modifyNode, push, Arena.get?_modify, hn]
  refine h.change hs ht hsteady rfl ?_ (List.sublist_append_left ..) ?_ ?_ ?_
    (h.uses.push (h.unstored hs.arena rfl rfl he hpending))
  · intro other found hfound
    by_cases heq : other = output
    · subst heq
      rw [hout, Option.some.injEq] at hfound
      exact hfound ▸ hwatched.overwritten _
    · have hne : other.index ≠ output.index := fun hi => heq (by cases other; cases output; simp_all)
      refine h.nodes other found ?_
      simpa [Session.storing, modifyNode, push, Arena.get?_modify, hne] using hfound
  · intro other store hst
    rcases standing?_storing hst with hold | ⟨-, hstored⟩
    · exact .inl hold
    · cases hstored
      exact .inr ⟨_, List.mem_append_right _ (List.mem_singleton_self _), rfl⟩
  · intro other _ _ hst
    rcases standing?_storing hst with hold | ⟨-, hstored⟩
    · exact hold
    · cases hstored
  · intro st hst
    refine (mem_storing.1 hst).imp_right ?_
    rintro rfl other hstored id hid hinline
    -- the statement stores into the slot of the target, which is the slot of no other field
    have hslot : some other = some slot :=
      hstored.symm.trans (hs.toNamed.place?_target hplace htarget)
    obtain rfl := ht.eq_of_place? hid (hslot ▸ hsteady.place? hs.arena hplace)
    rw [Arena.standing?_of_get? hout, Option.some.injEq] at hinline
    exact hwatched.not_inline hkind _ hinline

theorem StoredAll.awaited {pairs : List (NodeId × NodeId)} (h : StoredAll pairs s t)
    (hs : s.Regular read written)
    (hplace : ∀ p ∈ pairs, ∃ place, s.arena.place? p.1 = some place)
    (hread : ∀ p ∈ pairs, read p.2) (hwritten : ∀ p ∈ pairs, written p.1) (haw : s.Awaited) :
    t.Awaited := by
  induction h with
  | nil => exact haw
  | same tail ih =>
    exact ih hs (fun p hp => hplace p (by simp [hp])) (fun p hp => hread p (by simp [hp]))
      (fun p hp => hwritten p (by simp [hp])) haw
  | @store output input pairs s t u place e ne used target expression tail ih =>
    have hin := hread (output, input) (by simp)
    obtain ⟨⟨vector, index⟩, hout⟩ := hplace (output, input) (by simp)
    obtain ⟨ht, hst⟩ := used.regular hs hin
    have hstored := ht.storing (hst.place? hs.arena hout) target (hwritten (output, input) (by simp))
      (ht.toTraced.slots ht.arena expression fun _ _ _ => hin)
    have hsteady := hst.trans (steady_storing ht.toWellFormed output place e)
    have hawt := (used.awaited hs hin haw).storing ht (hst.place? hs.arena hout) target hstored
      expression fun store hpending => (used.awaits haw hpending).1 rfl
    refine ih hstored (fun p hp => ?_) (fun p hp => hread p (by simp [hp]))
      (fun p hp => hwritten p (by simp [hp])) hawt
    obtain ⟨found, hfound⟩ := hplace p (by simp [hp])
    exact ⟨found, hsteady.place? hs.arena hfound⟩

/-- A merge is declared from nodes that await no store. -/
theorem Awaited.merging (h : s.Awaited) (hs : s.Regular read written) {name : String} {names : Names}
    {test : Comparison} {success failure : NodeId} {value : Phrase}
    (hknown : ∀ id ∈ [test.left, test.right, success, failure], s.arena.contains id = true)
    (hpending : ∀ id ∈ [test.left, test.right, success, failure], ∀ store,
      s.arena.standing? id ≠ some (.stored store))
    (hvalue : s.phiValue test success failure = .ok value)
    (ht : (s.merging names name value).Regular read written) :
    (s.merging names name value).Awaited := by
  obtain ⟨l, r, y, n, hl, hr, hy, hn, hchoice⟩ := Builder.phiValue_eq_ok hs.toWellFormed hknown
  rw [hvalue, Except.ok.injEq] at hchoice
  subst hchoice
  have hbare : ∀ id ∈ [test.left, test.right, success, failure], ∀ e, s.arena.expr? id = some e →
      ∀ slot ∈ e.bare, ∀ st ∈ s.schedule.statements, st.stored? ≠ some slot :=
    fun id hid e he => h.unstored hs.arena rfl rfl he (hpending id hid)
  refine h.change hs ht (Arena.Steady.refl _) rfl h.nodes (List.sublist_append_left ..)
    (fun _ _ hst => .inl hst) (fun _ _ _ hst => hst) (fun st hst => ?_)
    (h.uses.push fun slot hslot => ?_)
  · rcases List.mem_append.1 hst with hst | hst
    · exact .inl hst
    · rw [List.mem_singleton] at hst
      subst hst
      exact .inr (by simp [Statement.stored?])
  · simp only [Phrase.bare, List.mem_append] at hslot
    rcases hslot with ((hslot | hslot) | hslot) | hslot
    · exact hbare test.left (by simp) l hl slot hslot
    · exact hbare test.right (by simp) r hr slot hslot
    · exact hbare success (by simp) y hy slot hslot
    · exact hbare failure (by simp) n hn slot hslot

/-- After an admissible request, too, no statement uses a field after a store into its slot. -/
theorem Performed.awaited {call : Call} {result : Option NodeId} (h : Performed s call result t)
    (hs : s.Regular read written) (hadm : Event.Admissible ⟨s, call, result, t⟩)
    (hread : ∀ id ∈ Event.sources ⟨s, call, result, t⟩, read id)
    (hwritten : ∀ p ∈ Event.stores ⟨s, call, result, t⟩, written p.1) (haw : s.Awaited) :
    t.Awaited := by
  have ht := h.regular hs hadm hread hwritten
  cases h with
  | scalar name => exact haw.addScalar hs ht
  | vector name known => exact haw.addVector hs ht
  | matrix name known => exact haw.addVector hs ht
  | @apply operation operands _ conditions used =>
    obtain ⟨hne, hknown, -⟩ := checkApply_eq_ok.1 conditions
    have hoperands : ∀ o ∈ operands, read o := hread
    have hkey : s.Requestable ⟨.apply, operation, operands⟩ := ⟨rfl, hknown, fun _ => hne⟩
    have hint := hs.intern hkey fun _ => hoperands
    exact (used.awaited hint hoperands (haw.intern hs hint)).1
  | map conditions built =>
    obtain ⟨hknown, -, hc⟩ := hs.toWellFormed.mapColumns conditions
    rw [Event.sources_map conditions] at hread
    exact built.awaited hs ⟨rfl, hknown, by simp⟩ rfl hc hread haw
  | reduce conditions built =>
    obtain ⟨hknown, -, hc⟩ := hs.toWellFormed.reduceColumns conditions
    rw [Event.sources_reduce conditions] at hread
    exact built.awaited hs ⟨rfl, hknown, by simp⟩ rfl hc hread haw
  | @assign target source outputs inputs _ conditions sources stored =>
    rw [Event.sources_assign, Event.stores_assign conditions sources] at hread
    rw [Event.stores_assign conditions sources] at hwritten
    obtain ⟨hplace, -⟩ := hs.toWellFormed.assigned hadm conditions sources
    exact stored.awaited hs hplace (fun p hp => hread p.2 (List.mem_map_of_mem hp)) hwritten haw
  | @phi test success failure wanted length u name names value conditions used allocate choice =>
    obtain ⟨hknown, -⟩ := phiLength_eq_ok conditions
    obtain rfl := length_of_phiLength conditions (hadm.2.2 success (by simp [Event.sources]))
    obtain ⟨hu, -⟩ := used.regular hs hread
    obtain ⟨-, hsame⟩ := used.wellFormed hs.toWellFormed
    obtain ⟨hawu, hawaits⟩ := used.awaited hs hread haw
    have hknown' : ∀ id ∈ [test.left, test.right, success, failure], u.arena.contains id = true :=
      fun id hid => hsame.toExtends.contains (hknown id hid)
    obtain ⟨hmerged, -⟩ := hu.merging hknown' hread allocate choice
    exact (hawu.merging hu hknown' (fun id hid store hst => (hawaits id store hst).1 hid) choice
      hmerged).addScalar hmerged ht
  | output known used => exact used.awaited hs (hread _ (by simp [Event.sources])) haw
  | recycle name => exact hadm.elim

theorem awaited_of_new {settings : Settings} (h : Session.new settings = .ok s)
    (hfields : settings.aliasFields = true) : s.Awaited := by
  obtain rfl := eq_of_new h
  have hnone : ∀ id, ({} : Arena).get? id = none := fun id => by simp [Arena.get?]
  refine ⟨hfields, ?_, ?_, ?_, List.Pairwise.nil⟩
  all_goals simp [Arena.standing?, hnone]

theorem History.awaited {s₀ : Session} {settings : Settings} (h₀ : Session.new settings = .ok s₀)
    (hfields : settings.aliasFields = true) {events : List Event} (h : History s₀ events s)
    (hadm : ∀ e ∈ events, e.Admissible) (hread : ∀ e ∈ events, ∀ id ∈ e.sources, read id)
    (hwritten : ∀ e ∈ events, ∀ p ∈ e.stores, written p.1) : s.Awaited := by
  induction h with
  | nil => exact awaited_of_new h₀ hfields
  | @snoc events s t call result past last ih =>
    have hpast : ∀ e ∈ events, e ∈ events ++ [⟨s, call, result, t⟩] := fun e he => by simp [he]
    have hs := past.regular h₀ (fun e he => hadm e (hpast e he)) (fun e he => hread e (hpast e he))
      fun e he => hwritten e (hpast e he)
    have haw := ih (fun e he => hadm e (hpast e he)) (fun e he => hread e (hpast e he))
      fun e he => hwritten e (hpast e he)
    exact last.awaited hs (hadm ⟨s, call, result, t⟩ (by simp))
      (hread ⟨s, call, result, t⟩ (by simp)) (hwritten ⟨s, call, result, t⟩ (by simp)) haw

end Session

end StraightLine
