import Mathlib.Data.List.TakeWhile
import StraightLine.Proofs.FreshNames
import StraightLine.Proofs.Meaning

/-! # Names and statements of a session

Every name in use is an identifier that is recorded as taken and belongs to one node, statements have
numbers of their own, and a field that awaits a store knows the statement that stores into its slot.
Statements are only ever added. -/
namespace StraightLine

/-- A capture stands right before the statement it refers to. -/
theorem Schedule.capture?_eq_some {schedule next : Schedule} {store number : StatementId}
    {name : String} (h : schedule.capture? store name = some (number, next)) :
    ∃ earlier overwritten later, schedule.statements = earlier ++ overwritten :: later ∧
      overwritten.id = store ∧ next = ⟨earlier ++
        ⟨⟨schedule.nextId⟩, .declare name (some store), overwritten.target⟩ :: overwritten :: later,
        schedule.nextId + 1⟩ := by
  unfold Schedule.capture? at h
  split at h
  next => cases h
  next overwritten later hdrop =>
    cases h
    refine ⟨_, overwritten, later, ?_, ?_, rfl⟩
    · rw [← hdrop, List.takeWhile_append_dropWhile]
    · have hhead := List.head?_dropWhile_not (fun s : Statement => s.id != store) schedule.statements
      simp only [hdrop, List.head?_cons] at hhead
      simpa using hhead

theorem Schedule.capture?_eq_none {schedule : Schedule} {store : StatementId} {name : String}
    (h : schedule.capture? store name = none) : ∀ st ∈ schedule.statements, st.id ≠ store := by
  unfold Schedule.capture? at h
  split at h
  next hnil => simpa using List.dropWhile_eq_nil_iff.1 hnil
  next => cases h

theorem Kind.parts?_of_isLeaf {kind : Kind} (h : kind.isLeaf = true) : kind.parts? = none := by
  cases kind <;> simp_all [Kind.isLeaf, Kind.parts?]

namespace Arena

variable {a b c : Arena} {id : NodeId}

/-- What later changes keep: the kind of every node without parts, and the name of every leaf. -/
structure Steady (a b : Arena) : Prop where
  kind : ∀ id kind, a.kind? id = some kind → kind.parts? = none → b.kind? id = some kind
  leaf : ∀ id kind name, a.kind? id = some kind → kind.isLeaf = true →
    a.standing? id = some (.named name) → b.standing? id = some (.named name)

theorem Steady.refl (a : Arena) : a.Steady a := ⟨fun _ _ h _ => h, fun _ _ _ _ _ h => h⟩

theorem Steady.trans (hab : a.Steady b) (hbc : b.Steady c) : a.Steady c where
  kind id kind hk hp := hbc.kind id kind (hab.kind id kind hk hp) hp
  leaf id kind name hk hl hs :=
    hbc.leaf id kind name (hab.kind id kind hk (Kind.parts?_of_isLeaf hl)) hl
      (hab.leaf id kind name hk hl hs)

theorem place?_eq_some {vector : String} {index : Nat} :
    a.place? id = some (vector, index) ↔ ∃ parent, a.kind? id = some (.field parent index) ∧
      a.standing? parent = some (.named vector) := by
  unfold place?
  constructor
  · intro h
    split at h
    next parent i hk =>
      split at h
      next name hs =>
        cases h
        exact ⟨parent, hk, hs⟩
      next => cases h
    next => cases h
  · rintro ⟨parent, hk, hs⟩
    simp [hk, hs]

/-- The parent of a field is a vector that holds the field at its index. -/
theorem WellFormed.parent_of_kind? (ha : a.WellFormed) {parent : NodeId} {index : Nat}
    (hk : a.kind? id = some (.field parent index)) : ∃ cs square,
      a.kind? parent = some (.vector cs square) ∧ cs[index]? = some id := by
  obtain ⟨node, hn, hkind⟩ := exists_of_kind? hk
  obtain ⟨-, vector, cs, square, hv, hvk, hc⟩ := (ha id node hn).parent parent index hkind
  exact ⟨cs, square, hvk ▸ kind?_of_get? hv, hc⟩

theorem Steady.place? (h : a.Steady b) (ha : a.WellFormed) {place : String × Nat}
    (hp : a.place? id = some place) : b.place? id = some place := by
  obtain ⟨vector, index⟩ := place
  obtain ⟨parent, hk, hs⟩ := place?_eq_some.1 hp
  obtain ⟨cs, square, hv, -⟩ := ha.parent_of_kind? hk
  exact place?_eq_some.2 ⟨parent, h.kind id _ hk rfl, h.leaf parent _ vector hv rfl hs⟩

theorem expr?_of_named {name : String} (h : a.standing? id = some (.named name)) :
    a.expr? id = some (.name id name) := by
  obtain ⟨node, hn, hs⟩ := exists_of_standing? h
  simp [Arena.expr?, exprWithin, hn, hs]

/-- A store into a field goes to the slot of the field. -/
theorem target?_of_place? {vector : String} {index : Nat} (h : a.place? id = some (vector, index)) :
    ∃ parent, a.target? id = some (.slot (.name parent vector) index) := by
  obtain ⟨parent, hk, hs⟩ := place?_eq_some.1 h
  obtain ⟨node, hn, hkind⟩ := exists_of_kind? hk
  exact ⟨parent, by simp [target?, hn, hkind, expr?_of_named hs]⟩

/-- What a node may be called after is an identifier, if all names in use are. -/
theorem isIdentifier_hint (id : NodeId)
    (h : ∀ id name, a.standing? id = some (.named name) → isIdentifier name = true) {parent : String}
    (hp : (a.hint id).parent? = some parent) : isIdentifier parent = true := by
  unfold Arena.hint at hp
  split at hp
  next =>
    split at hp
    next cs square name aliasable uses hget =>
      have hident := h _ name (standing?_of_get? hget)
      split at hp <;> cases hp <;> exact hident
    next => cases hp
  next => cases hp

theorem steady_of_same (hk : b.kind? = a.kind?) (hs : b.standing? = a.standing?) : a.Steady b :=
  ⟨fun _ _ h _ => hk ▸ h, fun _ _ _ _ _ h => hs ▸ h⟩

theorem steady_of_get? (h : ∀ id node, a.get? id = some node → b.get? id = some node) :
    a.Steady b := by
  refine ⟨fun id kind hk _ => ?_, fun id kind name _ _ hs => ?_⟩
  · obtain ⟨node, hn, rfl⟩ := exists_of_kind? hk
    exact kind?_of_get? (h id node hn)
  · obtain ⟨node, hn, hstanding⟩ := exists_of_standing? hs
    exact hstanding ▸ standing?_of_get? (h id node hn)

theorem get?_register_of_get? {node new : Node} (h : a.get? id = some node) :
    (a.register new).2.get? id = some node := by
  have hlt := index_lt_of_get? h
  rw [get?_register, if_neg (by omega), h]

theorem eq_of_register {new node : Node} (h : (a.register new).2.get? id = some node)
    (hnone : a.get? id = none) : id = ⟨a.size⟩ ∧ node = new := by
  rw [get?_register] at h
  split at h
  next heq =>
    cases h
    exact ⟨by cases id; simp_all, rfl⟩
  next =>
    rw [hnone] at h
    cases h

/-- Nodes that stand for an element of the ring stay so. -/
theorem Steady.isScalar (h : a.Steady b) (hs : a.isScalar id = true) : b.isScalar id = true := by
  unfold Arena.isScalar at hs ⊢
  cases hk : a.kind? id with
  | none =>
    rw [hk] at hs
    cases hs
  | some kind =>
    rw [hk, Option.any_some] at hs
    have hparts : kind.parts? = none := by cases kind <;> simp_all [Kind.isScalar, Kind.parts?]
    rw [h.kind id kind hk hparts, Option.any_some, hs]

theorem get?_registerFields_of_get? {node : Node} (h : a.get? id = some node) (name : String)
    (square aliasable : Bool) (n : Nat) :
    (a.registerFields name square aliasable n).2.get? id = some node := by
  rw [get?_registerFields, if_pos (index_lt_of_get? h), h]

end Arena

namespace Session

variable {s t : Session} {id : NodeId}

section Growth

theorem Bound.sublist (h : Bound s id t) :
    s.schedule.statements.Sublist t.schedule.statements := by
  cases h with
  | capture get pending allocate capture =>
    obtain ⟨earlier, overwritten, later, hs, -, rfl⟩ := Schedule.capture?_eq_some capture
    rw [hs]
    exact (List.Sublist.refl earlier).append (List.sublist_cons_self _ _)
  | declare => exact List.sublist_append_left ..

theorem Used.sublist (h : Used s id t) : s.schedule.statements.Sublist t.schedule.statements := by
  cases h with
  | fixed => exact .refl _
  | counted => exact .refl _
  | bound get aliasable second bound => exact bound.sublist

theorem UsedAll.sublist {ids : List NodeId} (h : UsedAll ids s t) :
    s.schedule.statements.Sublist t.schedule.statements := by
  induction h with
  | nil => exact .refl _
  | cons head tail ih => exact head.sublist.trans ih

theorem schedule_intern (s : Session) (key : Identity) :
    (s.intern key).2.schedule = s.schedule ∧ (s.intern key).2.names = s.names := by
  cases h : s.identities.find? key with
  | some id => simp [intern_known h]
  | none => simp [intern_fresh h]

theorem AppliedAll.sublist {operation : String} {columns : List (List NodeId)} {cs : List NodeId}
    (h : AppliedAll operation columns s cs t) :
    s.schedule.statements.Sublist t.schedule.statements := by
  induction h with
  | nil => exact .refl _
  | @cons column columns s t u cs head tail ih =>
    have hhead := head.sublist
    rw [(schedule_intern s _).1] at hhead
    exact hhead.trans ih

theorem Columnwise.sublist {key : Identity} {columns : List (List NodeId)}
    (h : Columnwise key columns s t) : s.schedule.statements.Sublist t.schedule.statements := by
  cases h with
  | fresh new applied =>
    have hsub := applied.sublist
    rw [(schedule_intern s key).1] at hsub
    exact hsub
  | known found used =>
    have hsub := used.sublist
    rw [(schedule_intern s key).1] at hsub
    exact hsub

theorem StoredAll.sublist {pairs : List (NodeId × NodeId)} (h : StoredAll pairs s t) :
    s.schedule.statements.Sublist t.schedule.statements := by
  induction h with
  | nil => exact .refl _
  | same tail ih => exact ih
  | store ne used target written tail ih =>
    exact used.sublist.trans ((List.sublist_append_left ..).trans ih)

theorem schedule_addMerged (s : Session) (name : String) (length : Option Nat) :
    (s.addMerged name length).2.schedule = s.schedule := by
  cases length <;> rfl

theorem taken_addMerged (s : Session) (name : String) (length : Option Nat) :
    (s.addMerged name length).2.names.taken = name :: s.names.taken := by
  cases length <;> rfl

/-- Statements are only ever added. -/
theorem Performed.sublist {call : Call} {result : Option NodeId} (h : Performed s call result t) :
    s.schedule.statements.Sublist t.schedule.statements := by
  cases h with
  | scalar | vector | matrix | recycle => exact .refl _
  | apply conditions used =>
    have hsub := used.sublist
    rw [(schedule_intern s _).1] at hsub
    exact hsub
  | map conditions built => exact built.sublist
  | reduce conditions built => exact built.sublist
  | assign conditions sources stored => exact stored.sublist
  | phi conditions used allocate written =>
    rw [schedule_addMerged]
    exact used.sublist.trans (List.sublist_append_left ..)
  | output known used => exact used.sublist

end Growth

/-- Every name in use is an identifier, is recorded as taken, and belongs to one node. -/
structure Named (s : Session) : Prop where
  naming : s.names.naming.Admissible
  pool : s.names.pool = []
  named : ∀ id name, s.arena.standing? id = some (.named name) →
    name ∈ s.names.taken ∧ isIdentifier name = true
  distinct : ∀ id other name, s.arena.standing? id = some (.named name) →
    s.arena.standing? other = some (.named name) → id = other

/-- Declared names are taken and name no vector, statements have numbers of their own, and a field
that awaits a store knows the statement that stores into its slot. -/
structure Scheduled (s : Session) : Prop where
  declared : ∀ st ∈ s.schedule.statements, ∀ name captures, st.action = .declare name captures →
    name ∈ s.names.taken ∧ ∀ id cs square, s.arena.kind? id = some (.vector cs square) →
      s.arena.standing? id ≠ some (.named name)
  numbered : ∀ st ∈ s.schedule.statements, st.id.number < s.schedule.nextId
  pending : ∀ id store, s.arena.standing? id = some (.stored store) →
    store.number < s.schedule.nextId ∧ ∃ vector index, s.arena.place? id = some (vector, index) ∧
      ∀ st ∈ s.schedule.statements, st.id = store →
        ∃ parent, st.action = .store (.expr (.slot (.name parent vector) index) .auto)

/-- Operations and statements read and store into given fields only. -/
structure Traced (read written : NodeId → Prop) (s : Session) : Prop where
  operands : ∀ id operation operands, s.arena.kind? id = some (.apply operation operands) →
    ∀ o ∈ operands, read o
  reads : ∀ st ∈ s.schedule.statements, ∀ slot ∈ st.value.slots,
    ∃ id, read id ∧ s.arena.place? id = some slot
  stores : ∀ st ∈ s.schedule.statements, ∀ slot, st.stored? = some slot →
    ∃ id, written id ∧ s.arena.place? id = some slot

structure Regular (read written : NodeId → Prop) (s : Session) : Prop extends
  WellFormed s, Named s, Scheduled s, Traced read written s

variable {read written : NodeId → Prop}

section Transfer

/-- No node gets a name. -/
theorem Named.mono (h : s.Named) (hnaming : t.names.naming = s.names.naming)
    (hpool : t.names.pool = s.names.pool) (htaken : s.names.taken ⊆ t.names.taken)
    (hold : ∀ id name, t.arena.standing? id = some (.named name) →
      s.arena.standing? id = some (.named name)) : t.Named where
  naming := hnaming ▸ h.naming
  pool := hpool.trans h.pool
  named id name hs := ⟨htaken (h.named id name (hold id name hs)).1,
    (h.named id name (hold id name hs)).2⟩
  distinct id other name hs ho := h.distinct id other name (hold id name hs) (hold other name ho)

/-- One node gets a name that no node has. -/
theorem Named.grow (h : s.Named) (id : NodeId) (fresh : String)
    (hnaming : t.names.naming = s.names.naming) (hpool : t.names.pool = s.names.pool)
    (htaken : s.names.taken ⊆ t.names.taken) (hfresh : fresh ∈ t.names.taken)
    (hident : isIdentifier fresh = true)
    (hunused : ∀ other, s.arena.standing? other ≠ some (.named fresh))
    (hnew : ∀ other name, t.arena.standing? other = some (.named name) →
      s.arena.standing? other = some (.named name) ∨ other = id ∧ name = fresh) : t.Named where
  naming := hnaming ▸ h.naming
  pool := hpool.trans h.pool
  named other name hs := by
    rcases hnew other name hs with hold | ⟨-, rfl⟩
    · exact ⟨htaken (h.named other name hold).1, (h.named other name hold).2⟩
    · exact ⟨hfresh, hident⟩
  distinct one other name hs ho := by
    rcases hnew one name hs with hold | ⟨rfl, rfl⟩
    · rcases hnew other name ho with hold' | ⟨-, rfl⟩
      · exact h.distinct one other name hold hold'
      · exact absurd hold (hunused one)
    · rcases hnew other name ho with hold' | ⟨rfl, -⟩
      · exact absurd hold' (hunused other)
      · rfl

/-- The graph changes, and the statements stay. -/
theorem Scheduled.keep (h : s.Scheduled) (hwf : s.arena.WellFormed)
    (hsteady : s.arena.Steady t.arena) (hschedule : t.schedule = s.schedule)
    (htaken : s.names.taken ⊆ t.names.taken)
    (hvector : ∀ id cs square name, t.arena.kind? id = some (.vector cs square) →
      t.arena.standing? id = some (.named name) → name ∈ s.names.taken →
      s.arena.kind? id = some (.vector cs square) ∧ s.arena.standing? id = some (.named name))
    (hpending : ∀ id store, t.arena.standing? id = some (.stored store) →
      s.arena.standing? id = some (.stored store)) : t.Scheduled where
  declared st hst name captures haction := by
    obtain ⟨hmem, hfree⟩ := h.declared st (hschedule ▸ hst) name captures haction
    refine ⟨htaken hmem, fun id cs square hk hs => ?_⟩
    obtain ⟨hk', hs'⟩ := hvector id cs square name hk hs hmem
    exact hfree id cs square hk' hs'
  numbered := by
    rw [hschedule]
    exact h.numbered
  pending id store hs := by
    obtain ⟨hlt, vector, index, hplace, haction⟩ := h.pending id store (hpending id store hs)
    rw [hschedule]
    exact ⟨hlt, vector, index, hsteady.place? hwf hplace, haction⟩

theorem Traced.keep (h : s.Traced read written) (hwf : s.arena.WellFormed)
    (hsteady : s.arena.Steady t.arena) (hschedule : t.schedule = s.schedule)
    (hoperands : ∀ id operation operands, t.arena.kind? id = some (.apply operation operands) →
      s.arena.kind? id = some (.apply operation operands) ∨ ∀ o ∈ operands, read o) :
    t.Traced read written where
  operands id operation operands hk := by
    rcases hoperands id operation operands hk with hold | hnew
    · exact h.operands id operation operands hold
    · exact hnew
  reads st hst slot hslot := by
    obtain ⟨id, hread, hplace⟩ := h.reads st (hschedule ▸ hst) slot hslot
    exact ⟨id, hread, hsteady.place? hwf hplace⟩
  stores st hst slot hslot := by
    obtain ⟨id, hwritten, hplace⟩ := h.stores st (hschedule ▸ hst) slot hslot
    exact ⟨id, hwritten, hsteady.place? hwf hplace⟩

end Transfer

section Changes

theorem Regular.same (h : s.Regular read written) (hwf : t.WellFormed)
    (hkind : t.arena.kind? = s.arena.kind?) (hstanding : t.arena.standing? = s.arena.standing?)
    (hnames : t.names = s.names) (hschedule : t.schedule = s.schedule) :
    t.Regular read written := by
  have hsteady := Arena.steady_of_same hkind hstanding
  have hnamed := h.toNamed.mono (t := t) (by rw [hnames]) (by rw [hnames]) (by simp [hnames])
    (by simp [hstanding])
  have hscheduled := h.toScheduled.keep h.arena hsteady hschedule (by simp [hnames])
    (by simp_all) (by simp [hstanding])
  have htraced := h.toTraced.keep h.arena hsteady hschedule fun _ _ _ hk => .inl (hkind ▸ hk)
  exact ⟨hwf, hnamed, hscheduled, htraced⟩

/-- A statement is added that declares a new name. -/
theorem Regular.declaring (h : s.Regular read written) (schedule : Schedule)
    (captures : Option StatementId) (value : Phrase) {name : String} {names : Names}
    (htakes : s.names.Takes name names) (hnext : schedule.nextId = s.schedule.nextId + 1)
    (hmem : ∀ st ∈ schedule.statements, st = ⟨⟨s.schedule.nextId⟩, .declare name captures, value⟩ ∨
      st ∈ s.schedule.statements)
    (hread : ∀ slot ∈ value.slots, ∃ id, read id ∧ s.arena.place? id = some slot) :
    Regular read written { s with names, schedule } := by
  have htaken : s.names.taken ⊆ names.taken := by simp [htakes.taken]
  refine ⟨⟨h.arena, h.leaves, h.identities⟩,
    h.toNamed.mono htakes.naming htakes.pool htaken fun _ _ hs => hs, ⟨?_, ?_, ?_⟩, ⟨?_, ?_, ?_⟩⟩
  · intro st hst other captures' haction
    rcases hmem st hst with rfl | hold
    · cases haction
      refine ⟨by simp [htakes.taken], fun id cs square _ hs => ?_⟩
      exact htakes.free (h.named id name hs).1
    · obtain ⟨hin, hfree⟩ := h.declared st hold other captures' haction
      exact ⟨htaken hin, hfree⟩
  · intro st hst
    show st.id.number < schedule.nextId
    rcases hmem st hst with rfl | hold
    · simp [hnext]
    · have := h.numbered st hold
      omega
  · intro id store hs
    obtain ⟨hlt, vector, index, hplace, haction⟩ := h.pending id store hs
    refine ⟨by simp [hnext]; omega, vector, index, hplace, fun st hst hid => ?_⟩
    rcases hmem st hst with rfl | hold
    · simp only at hid
      subst hid
      simp at hlt
    · exact haction st hold hid
  · exact h.operands
  · intro st hst slot hslot
    rcases hmem st hst with rfl | hold
    · exact hread slot hslot
    · exact h.reads st hold slot hslot
  · intro st hst slot hslot
    rcases hmem st hst with rfl | hold
    · cases hslot
    · exact h.stores st hold slot hslot

theorem steady_bound {node : Node} (hn : s.arena.get? id = some node)
    (hleaf : node.kind.isLeaf = false) (name : String) :
    s.arena.Steady (s.arena.modify id (Node.bound name)) := by
  refine ⟨fun _ _ hk _ => by rw [kind?_bound, hk], fun other kind text hk hl hs => ?_⟩
  rw [standing?_bound hn, Function.update_of_ne, hs]
  rintro rfl
  rw [Arena.kind?_of_get? hn, Option.some.injEq] at hk
  rw [hk, hl] at hleaf
  cases hleaf

/-- A node is written as a name that is declared and that no other node has. -/
theorem Regular.binding (h : s.Regular read written) {node : Node} {name : String}
    (hn : s.arena.get? id = some node) (hleaf : node.kind.isLeaf = false)
    (htaken : name ∈ s.names.taken) (hident : isIdentifier name = true)
    (hunused : ∀ other, s.arena.standing? other ≠ some (.named name)) :
    (s.modifyNode id (Node.bound name)).Regular read written := by
  have hsteady := steady_bound hn hleaf name
  have hstanding : (s.modifyNode id (Node.bound name)).arena.standing? =
      Function.update s.arena.standing? id (some (.named name)) := standing?_bound hn name
  have hkind : (s.modifyNode id (Node.bound name)).arena.kind? = s.arena.kind? := kind?_bound name
  obtain ⟨hwf, -⟩ := h.toWellFormed.modify (t := s.modifyNode id (Node.bound name)) hn
    (by simp [hleaf]) rfl rfl rfl
  refine ⟨hwf, h.toNamed.grow id name rfl rfl (List.Subset.refl _) htaken hident hunused ?_,
    h.toScheduled.keep h.arena hsteady rfl (List.Subset.refl _) ?_ ?_,
    h.toTraced.keep h.arena hsteady rfl fun _ _ _ hk => .inl (hkind ▸ hk)⟩
  · intro other text hs
    rw [hstanding, Function.update_apply] at hs
    split at hs
    next heq =>
      cases hs
      exact .inr ⟨heq, rfl⟩
    next => exact .inl hs
  · intro other cs square text hk hs _
    rw [hkind] at hk
    rw [hstanding, Function.update_of_ne] at hs
    · exact ⟨hk, hs⟩
    · rintro rfl
      rw [Arena.kind?_of_get? hn, Option.some.injEq] at hk
      simp [hk, Kind.isLeaf] at hleaf
  · intro other store hs
    rw [hstanding, Function.update_apply] at hs
    split at hs
    next => cases hs
    next => exact hs

theorem mem_slotsOf {es : List Expr} {slot : String × Nat} :
    slot ∈ Expr.slotsOf es ↔ ∃ e ∈ es, slot ∈ e.slots := by
  induction es with
  | nil => simp [Expr.slotsOf]
  | cons e es ih => simp [Expr.slotsOf, ih]

/-- Along the graph, a written node reads given fields only. A field by itself must be one of them. -/
theorem Traced.slots (h : s.Traced read written) (hwf : s.arena.WellFormed) {e : Expr}
    (he : s.arena.expr? id = some e)
    (hid : ∀ parent index, s.arena.kind? id = some (.field parent index) → read id) :
    ∀ slot ∈ e.slots, ∃ field, read field ∧ s.arena.place? field = some slot := by
  have hcarried : s.arena.Carried fun id e =>
      (∀ parent index, s.arena.kind? id = some (.field parent index) → read id) →
        ∀ slot ∈ e.slots, ∃ field, read field ∧ s.arena.place? field = some slot := by
    refine ⟨?_, ?_, ?_, ?_⟩
    · intro id node text _ _ _ slot hslot
      cases hslot
    · intro id node parent vector index text hn hk hv hs hread slot hslot
      have hkind := hk ▸ Arena.kind?_of_get? hn
      rw [Expr.slots, List.mem_singleton] at hslot
      subst hslot
      exact ⟨id, hread parent index hkind,
        Arena.place?_eq_some.2 ⟨parent, hkind, hs ▸ Arena.standing?_of_get? hv⟩⟩
    · intro id node operation first rest e es hn hk hfirst hrest _ slot hslot
      have hoperands := h.operands id operation (first :: rest) (hk ▸ Arena.kind?_of_get? hn)
      rw [Expr.slots, List.mem_append] at hslot
      rcases hslot with hslot | hslot
      · exact hfirst (fun _ _ _ => hoperands first (by simp)) slot hslot
      · obtain ⟨e', he', hslot⟩ := mem_slotsOf.1 hslot
        obtain ⟨o, ho, hwritten⟩ := exists_of_mem_right hrest he'
        exact hwritten (fun _ _ _ => hoperands o (by simp [ho])) slot hslot
    · intro id node operation cs es hn hp hes _ slot hslot
      obtain ⟨e', he', hslot⟩ := mem_slotsOf.1 hslot
      obtain ⟨c, hc, hwritten⟩ := exists_of_mem_right hes he'
      obtain ⟨part, column, hg, hpk, -⟩ := (hwf id node hn).parts operation cs hp c hc
      refine hwritten (fun parent index hk => ?_) slot hslot
      rw [Arena.kind?_of_get? hg, hpk] at hk
      cases hk
  obtain ⟨e', he', hslots⟩ := hwf.expr? hcarried (Arena.contains_of_expr? he)
  rw [he] at he'
  cases he'
  exact hslots hid

theorem steady_storing (hs : s.WellFormed) (output : NodeId) (place e : Expr) :
    s.arena.Steady (s.storing output place e).arena := by
  refine ⟨fun _ _ hk _ => by rw [kind?_storing, hk], fun id kind name hk hl hstanding => ?_⟩
  exact standing?_storing_named hs hstanding ⟨kind, hk, hl⟩

/-- The text that a store into a field writes to names the slot of the field. -/
theorem Named.place?_target (h : s.Named) {place : Expr} {slot : String × Nat}
    (hplace : s.arena.place? id = some slot) (htarget : s.arena.target? id = some place) :
    place? (place.text .auto) = some slot := by
  obtain ⟨vector, index⟩ := slot
  obtain ⟨parent, htarget'⟩ := Arena.target?_of_place? hplace
  obtain rfl : place = .slot (.name parent vector) index :=
    Option.some.inj (htarget.symm.trans htarget')
  obtain ⟨parent', -, hs⟩ := Arena.place?_eq_some.1 hplace
  exact place?_slotText (h.named parent' vector hs).2 index

section Storing

variable {output : NodeId} {place e : Expr}

theorem mem_storing {st : Statement} :
    st ∈ (s.storing output place e).schedule.statements ↔ st ∈ s.schedule.statements ∨
      st = ⟨⟨s.schedule.nextId⟩, .store (.expr place .auto), .expr e .suppress⟩ := by
  simp [Session.storing, modifyNode, push]

theorem named_of_storing {name : String}
    (h : (s.storing output place e).arena.standing? id = some (.named name)) :
    s.arena.standing? id = some (.named name) := by
  rcases standing?_storing h with hold | ⟨-, hcontra⟩
  · exact hold
  · cases hcontra

/-- A field that is overwritten may await the store from now on. -/
theorem Scheduled.storing (h : s.Scheduled) (hwf : s.WellFormed) {parent : NodeId} {vector : String}
    {index : Nat} (hplace : s.arena.place? output = some (vector, index)) (e : Expr) :
    (s.storing output (.slot (.name parent vector) index) e).Scheduled where
  declared st hst name captures haction := by
    rcases mem_storing.1 hst with hold | rfl
    · obtain ⟨hin, hfree⟩ := h.declared st hold name captures haction
      refine ⟨hin, fun id cs square hkind hnamed => ?_⟩
      rw [kind?_storing] at hkind
      exact hfree id cs square hkind (named_of_storing hnamed)
    · cases haction
  numbered st hst := by
    show st.id.number < s.schedule.nextId + 1
    rcases mem_storing.1 hst with hold | rfl
    · exact Nat.lt_succ_of_lt (h.numbered st hold)
    · exact Nat.lt_succ_self _
  pending id store hst := by
    have hsteady := steady_storing hwf output (.slot (.name parent vector) index) e
    show store.number < s.schedule.nextId + 1 ∧ _
    rcases standing?_storing hst with hold | ⟨rfl, hstored⟩
    · obtain ⟨hlt, vector', index', hplace', haction⟩ := h.pending id store hold
      refine ⟨Nat.lt_succ_of_lt hlt, vector', index', hsteady.place? hwf.arena hplace', ?_⟩
      intro st hst' hid
      rcases mem_storing.1 hst' with hold' | rfl
      · exact haction st hold' hid
      · subst hid
        simp at hlt
    · cases hstored
      refine ⟨Nat.lt_succ_self _, vector, index, hsteady.place? hwf.arena hplace, ?_⟩
      intro st hst' hid
      rcases mem_storing.1 hst' with hold' | rfl
      · have hlt := h.numbered st hold'
        simp [hid] at hlt
      · exact ⟨parent, rfl⟩

theorem Traced.storing (h : s.Traced read written) (hwf : s.WellFormed) {slot : String × Nat}
    (hplace : s.arena.place? output = some slot) (hstored : place? (place.text .auto) = some slot)
    (hwritten : written output)
    (hread : ∀ slot ∈ e.slots, ∃ id, read id ∧ s.arena.place? id = some slot) :
    (s.storing output place e).Traced read written where
  operands id operation operands hkind := by
    rw [kind?_storing] at hkind
    exact h.operands id operation operands hkind
  reads st hst slot' hslot := by
    obtain ⟨id, hid, hp⟩ : ∃ id, read id ∧ s.arena.place? id = some slot' := by
      rcases mem_storing.1 hst with hold | rfl
      · exact h.reads st hold slot' hslot
      · exact hread slot' hslot
    exact ⟨id, hid, (steady_storing hwf output place e).place? hwf.arena hp⟩
  stores st hst slot' hslot := by
    obtain ⟨id, hid, hp⟩ : ∃ id, written id ∧ s.arena.place? id = some slot' := by
      rcases mem_storing.1 hst with hold | rfl
      · exact h.stores st hold slot' hslot
      · rw [Statement.stored?] at hslot
        exact ⟨output, hwritten, hplace.trans (hstored.symm.trans hslot)⟩
    exact ⟨id, hid, (steady_storing hwf output place e).place? hwf.arena hp⟩

/-- A field is overwritten. -/
theorem Regular.storing (h : s.Regular read written) {vector : String} {index : Nat}
    (hplace : s.arena.place? output = some (vector, index))
    (htarget : s.arena.target? output = some place) (hwritten : written output)
    (hread : ∀ slot ∈ e.slots, ∃ id, read id ∧ s.arena.place? id = some slot) :
    (s.storing output place e).Regular read written := by
  have hstored := h.toNamed.place?_target hplace htarget
  obtain ⟨parent, htarget'⟩ := Arena.target?_of_place? hplace
  obtain rfl : place = .slot (.name parent vector) index :=
    Option.some.inj (htarget.symm.trans htarget')
  obtain ⟨_, hk, -⟩ := Arena.place?_eq_some.1 hplace
  obtain ⟨node, hn, -⟩ := Arena.exists_of_kind? hk
  obtain ⟨hwf, -⟩ := h.toWellFormed.storing (Arena.contains_of_get? hn)
    (.slot (.name parent vector) index) e
  exact ⟨hwf, h.toNamed.mono rfl rfl (List.Subset.refl _) fun id name => named_of_storing,
    h.toScheduled.storing h.toWellFormed hplace e,
    h.toTraced.storing h.toWellFormed hplace hstored hwritten hread⟩

end Storing

/-- Nodes are added, one of them under a name that no node has. A vector's name must be free. -/
theorem Regular.adding (h : s.Regular read written) {name : String} (new : NodeId) (hwf : t.WellFormed)
    (hnames : t.names = s.names.reserve name) (hschedule : t.schedule = s.schedule)
    (hident : isIdentifier name = true)
    (hunused : ∀ other, s.arena.standing? other ≠ some (.named name))
    (hold : ∀ id node, s.arena.get? id = some node → t.arena.get? id = some node)
    (hnew : ∀ id node, t.arena.get? id = some node → s.arena.get? id = some node ∨
      node.kind.identity? = none ∧ (node.standing = .inline ∨ id = new ∧
        node.standing = .named name ∧ (node.kind.tag = .vector → name ∉ s.names.taken))) :
    t.Regular read written := by
  have hsteady := Arena.steady_of_get? hold
  have htaken : s.names.taken ⊆ t.names.taken := by simp [hnames, Names.reserve]
  refine ⟨hwf, h.toNamed.grow new name ?_ ?_ htaken ?_ hident hunused ?_,
    h.toScheduled.keep h.arena hsteady hschedule htaken ?_ ?_,
    h.toTraced.keep h.arena hsteady hschedule ?_⟩
  · rw [hnames, Names.reserve]
  · rw [hnames, Names.reserve]
  · simp [hnames, Names.reserve]
  · intro id text hs
    obtain ⟨node, hn, hstanding⟩ := Arena.exists_of_standing? hs
    rcases hnew id node hn with hn' | ⟨-, hinline | ⟨rfl, hname, -⟩⟩
    · exact .inl (hstanding ▸ Arena.standing?_of_get? hn')
    · rw [hinline] at hstanding
      cases hstanding
    · rw [hname] at hstanding
      cases hstanding
      exact .inr ⟨rfl, rfl⟩
  · intro id cs square text hk hs hmem
    obtain ⟨node, hn, hstanding⟩ := Arena.exists_of_standing? hs
    have hkind := Arena.kind?_of_get? hn
    rcases hnew id node hn with hn' | ⟨-, hinline | ⟨rfl, hname, hfree⟩⟩
    · rw [← hk, ← hs, hkind, Arena.standing?_of_get? hn]
      exact ⟨Arena.kind?_of_get? hn', Arena.standing?_of_get? hn'⟩
    · rw [hinline] at hstanding
      cases hstanding
    · rw [hname] at hstanding
      cases hstanding
      rw [hkind, Option.some.injEq] at hk
      exact absurd hmem (hfree (by rw [hk]; rfl))
  · intro id store hs
    obtain ⟨node, hn, hstanding⟩ := Arena.exists_of_standing? hs
    rcases hnew id node hn with hn' | ⟨-, hinline | ⟨-, hname, -⟩⟩
    · exact hstanding ▸ Arena.standing?_of_get? hn'
    · rw [hinline] at hstanding
      cases hstanding
    · rw [hname] at hstanding
      cases hstanding
  · intro id operation operands hk
    obtain ⟨node, hn, hkind⟩ := Arena.exists_of_kind? hk
    rcases hnew id node hn with hn' | ⟨hnone, -⟩
    · exact .inl (hkind ▸ Arena.kind?_of_get? hn')
    · rw [hkind] at hnone
      cases hnone

theorem Regular.addScalar (h : s.Regular read written) {name : String}
    (hident : isIdentifier name = true)
    (hunused : ∀ other, s.arena.standing? other ≠ some (.named name)) :
    (s.addScalar name).2.Regular read written := by
  refine h.adding ⟨s.arena.size⟩ (h.toWellFormed.addScalar name) rfl rfl hident hunused
    (fun _ _ => Arena.get?_register_of_get?) fun id node hn => ?_
  simp only [Session.addScalar, Arena.get?_register] at hn
  split at hn
  next heq =>
    cases hn
    exact .inr ⟨rfl, .inr ⟨by cases id; simp_all, rfl, by simp [Kind.tag]⟩⟩
  next => exact .inl hn

theorem Named.unused (h : s.Named) {name : String} (hfree : name ∉ s.names.taken) (other : NodeId) :
    s.arena.standing? other ≠ some (.named name) := fun hs => hfree (h.named other name hs).1

theorem Regular.addVector (h : s.Regular read written) {shape : Shape} {name : String} {square : Bool}
    (hknown : ∀ cs, shape = .components cs → ∀ c ∈ cs, s.arena.contains c = true)
    (hident : isIdentifier name = true) (hfree : name ∉ s.names.taken) :
    (s.addVector shape name square).2.Regular read written := by
  have hwf := h.toWellFormed.addVector shape name square hknown
  cases shape with
  | components cs =>
    refine h.adding ⟨s.arena.size⟩ hwf rfl rfl hident (h.toNamed.unused hfree)
      (fun _ _ => Arena.get?_register_of_get?) fun id node hn => ?_
    simp only [Session.addVector, Arena.get?_register] at hn
    split at hn
    next heq =>
      cases hn
      exact .inr ⟨rfl, .inr ⟨by cases id; simp_all, rfl, fun _ => hfree⟩⟩
    next => exact .inl hn
  | length n =>
    refine h.adding ⟨s.arena.size⟩ hwf rfl rfl hident (h.toNamed.unused hfree)
      (fun _ _ hn => Arena.get?_registerFields_of_get? hn ..) fun id node hn => ?_
    rcases Arena.registerFields_cases _ _ _ _ _ hn with hn' | ⟨rfl, rfl⟩ | ⟨i, -, -, rfl⟩
    · exact .inl hn'
    · exact .inr ⟨rfl, .inr ⟨rfl, rfl, fun _ => hfree⟩⟩
    · exact .inr ⟨rfl, .inl rfl⟩

theorem steady_intern (s : Session) (key : Identity) :
    s.arena.Steady (s.intern key).2.arena := by
  cases hf : s.identities.find? key with
  | some id => simpa [intern_known hf] using Arena.Steady.refl s.arena
  | none =>
    rw [intern_fresh hf]
    exact Arena.steady_of_get? fun _ _ => Arena.get?_register_of_get?

/-- A request is answered; the operands of an operation must be among the given nodes. -/
theorem Regular.intern (h : s.Regular read written) {key : Identity} (hkey : s.Requestable key)
    (hread : key.tag = .apply → ∀ o ∈ key.operands, read o) :
    (s.intern key).2.Regular read written := by
  have hwf := h.toWellFormed.intern hkey
  have hsteady := steady_intern s key
  cases hf : s.identities.find? key with
  | some id =>
    rw [intern_known hf] at hwf ⊢
    exact h.same hwf rfl rfl rfl rfl
  | none =>
    rw [intern_fresh hf] at hwf hsteady ⊢
    refine ⟨hwf, h.toNamed.mono rfl rfl (List.Subset.refl _) ?_,
      h.toScheduled.keep h.arena hsteady rfl (List.Subset.refl _) ?_ ?_,
      h.toTraced.keep h.arena hsteady rfl ?_⟩
    · intro id name hs
      rw [Arena.standing?_register, Function.update_apply] at hs
      split at hs
      next => cases hs
      next => exact hs
    · intro id cs square name hk hs _
      rw [Arena.kind?_register, Function.update_apply] at hk
      rw [Arena.standing?_register, Function.update_apply] at hs
      split at hs
      next => cases hs
      next hne =>
        rw [if_neg hne] at hk
        exact ⟨hk, hs⟩
    · intro id store hs
      rw [Arena.standing?_register, Function.update_apply] at hs
      split at hs
      next => cases hs
      next => exact hs
    · intro id operation operands hk
      rw [Arena.kind?_register, Function.update_apply] at hk
      split at hk
      next =>
        obtain ⟨tag, operation', operands'⟩ := key
        have hanswer := hkey.answer
        simp only [Option.some.injEq] at hk
        rw [hk, Kind.identity?, Option.some.injEq, Identity.mk.injEq] at hanswer
        obtain ⟨rfl, -, rfl⟩ := hanswer
        exact .inr (hread rfl)
      next => exact .inl hk

theorem steady_setComponents {parts : String × List NodeId} {kind : Kind} (cs : List NodeId)
    (hk : s.arena.kind? id = some kind) (hp : kind.parts? = some parts) :
    s.arena.Steady (s.setComponents id cs).arena := by
  obtain ⟨kind', -, -, hkind⟩ := kind?_setComponents cs hk hp
  refine ⟨fun other found hf hnone => ?_, fun _ _ _ _ _ hs => by rw [standing?_setComponents, hs]⟩
  rw [hkind, Function.update_of_ne, hf]
  rintro rfl
  rw [hk, Option.some.injEq] at hf
  rw [hf, hnone] at hp
  cases hp

/-- A mapping or reduction gets its parts. -/
theorem Regular.setComponents (h : s.Regular read written) {parts : String × List NodeId}
    {kind : Kind} {cs : List NodeId} (hwf : (s.setComponents id cs).WellFormed)
    (hk : s.arena.kind? id = some kind) (hp : kind.parts? = some parts) :
    (s.setComponents id cs).Regular read written := by
  have hsteady := steady_setComponents cs hk hp
  obtain ⟨kind', hp', -, hkind⟩ := kind?_setComponents cs hk hp
  refine ⟨hwf, h.toNamed.mono rfl rfl (List.Subset.refl _) (by simp),
    h.toScheduled.keep h.arena hsteady rfl (List.Subset.refl _) ?_ (by simp),
    h.toTraced.keep h.arena hsteady rfl ?_⟩
  · intro other cs' square name hother hs _
    rw [hkind, Function.update_apply] at hother
    rw [standing?_setComponents] at hs
    split at hother
    next =>
      cases hother
      cases hp'
    next => exact ⟨hother, hs⟩
  · intro other operation operands hother
    rw [hkind, Function.update_apply] at hother
    split at hother
    next =>
      cases hother
      cases hp'
    next => exact .inl hother

theorem regular_of_new {settings : Settings} (h : Session.new settings = .ok s) :
    s.Regular read written := by
  have hwf := wellFormed_of_new h
  simp only [Session.new, bind_eq_ok] at h
  obtain ⟨u, hvalid, hs⟩ := h
  cases hs
  have hnone : ∀ id, ({} : Arena).get? id = none := fun id => by simp [Arena.get?]
  have hadmissible : settings.naming.Admissible := by
    refine Settings.naming_admissible ?_
    cases hv : settings.validate with
    | ok v => rfl
    | error e =>
      rw [hv] at hvalid
      cases hvalid
  refine ⟨hwf, ⟨hadmissible, rfl, ?_, ?_⟩, ⟨?_, ?_, ?_⟩, ⟨?_, ?_, ?_⟩⟩
  all_goals simp [Arena.standing?, Arena.kind?, hnone]

end Changes

end Session

theorem ReadsBeforeStores.sublist {xs ys : List Statement} (h : ReadsBeforeStores ys)
    (hsub : xs.Sublist ys) : ReadsBeforeStores xs := List.Pairwise.sublist hsub h

end StraightLine
