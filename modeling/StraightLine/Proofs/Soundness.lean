import StraightLine.Proofs.Bookkeeping

/-! # Statements compute the values of nodes

The invariant behind every kernel: the statements run to the end, names have the values of their nodes,
and fields have the values that the caller passed in. A text may be evaluated as long as it reads no
slot that was overwritten; each change of a session keeps the invariant on that condition. -/
namespace StraightLine

/-- What a statement reads was not overwritten before. -/
theorem ReadsBeforeStores.reads {earlier later : List Statement} {st : Statement}
    (h : ReadsBeforeStores (earlier ++ st :: later)) :
    ∀ slot ∈ st.value.slots, ∀ other ∈ earlier, other.stored? ≠ some slot := by
  intro slot hslot other hother
  exact (List.pairwise_append.1 h).2.2 other hother st (by simp) slot hslot

variable {R : Type*} [CommRing R]

theorem Arena.WellFormed.contains_of_operand {a : Arena} (ha : a.WellFormed) {id o : NodeId}
    {operation : String} {operands : List NodeId}
    (hk : a.kind? id = some (.apply operation operands)) (ho : o ∈ operands) :
    a.contains o = true := by
  obtain ⟨node, hn, hkind⟩ := exists_of_kind? hk
  have hlt := (ha id node hn).operands ⟨.apply, operation, operands⟩
    (by rw [hkind, Kind.identity?]) o ho
  have hsize := index_lt_of_get? hn
  simp only [contains, decide_eq_true_eq]
  omega

namespace Arena

variable {a b : Arena} {id : NodeId} {node : Node}
  (hold : ∀ id node, a.get? id = some node → b.get? id = some node)

include hold

theorem kind?_of_grown (hn : a.get? id = some node) : b.kind? id = a.kind? id := by
  rw [kind?_of_get? hn, kind?_of_get? (hold id node hn)]

theorem standing?_of_grown (hn : a.get? id = some node) : b.standing? id = a.standing? id := by
  rw [standing?_of_get? hn, standing?_of_get? (hold id node hn)]

/-- The slot of a field that was there before is older than any new vector. -/
theorem place?_of_grown (ha : a.WellFormed) (hn : a.get? id = some node) {place : String × Nat}
    (hp : b.place? id = some place) : a.place? id = some place := by
  obtain ⟨vector, index⟩ := place
  obtain ⟨parent, hk, hv⟩ := place?_eq_some.1 hp
  rw [kind?_of_grown hold hn] at hk
  obtain ⟨cs, square, hvk, -⟩ := ha.parent_of_kind? hk
  obtain ⟨old, hparent, -⟩ := exists_of_kind? hvk
  rw [standing?_of_grown hold hparent] at hv
  exact place?_eq_some.2 ⟨parent, hk, hv⟩

end Arena

namespace Meaning

variable {k l : Meaning R} {a b : Arena} {id : NodeId}

/-- The nodes of a graph keep their values. -/
def Keeps (k l : Meaning R) (a : Arena) : Prop := ∀ c, a.contains c = true → l.value c = k.value c

omit [CommRing R] in
theorem returned_of_isScalar (k : Meaning R) (h : a.isScalar id = true) :
    k.returned a id = .scalar (k.value id) := by
  unfold returned
  cases hk : a.kind? id with
  | none => rfl
  | some kind => cases kind <;> simp_all [Arena.isScalar, Kind.isScalar]

omit [CommRing R] in
theorem assign_eq_self {x : R} (h : k.value id = x) : k.assign id x = k := by
  subst h
  simp [assign]

omit [CommRing R] in
/-- A value for a new node. -/
theorem keeps_assign (k : Meaning R) (x : R) : k.Keeps (k.assign ⟨a.size⟩ x) a := by
  intro c hc
  refine Function.update_of_ne ?_ ..
  rintro rfl
  simp [Arena.contains] at hc

omit [CommRing R] in
/-- Assignments change neither the values of nodes nor what the caller passed in. -/
theorem value_overwrites (k : Meaning R) (pairs : List (NodeId × NodeId)) :
    (pairs.foldl (overwrite a) k).value = k.value ∧
      (pairs.foldl (overwrite a) k).start = k.start := by
  induction pairs generalizing k with
  | nil => exact ⟨rfl, rfl⟩
  | cons p pairs ih =>
    have hstep : (k.overwrite a p).value = k.value ∧ (k.overwrite a p).start = k.start := by
      unfold overwrite
      split
      · exact ⟨rfl, rfl⟩
      · split <;> exact ⟨rfl, rfl⟩
    rw [List.foldl_cons]
    exact ⟨(ih _).1.trans hstep.1, (ih _).2.trans hstep.2⟩

omit [CommRing R] in
/-- The value of a node depends on its kind, on values of older nodes, and on its vector's slots. -/
theorem returned_congr (ha : a.WellFormed) {kind : Kind} (hk : a.kind? id = some kind)
    (hk' : b.kind? id = some kind)
    (hvector : ∀ cs square name, kind = .vector cs square → a.standing? id = some (.named name) →
      b.standing? id = some (.named name) ∧ l.final name = k.final name)
    (hvalue : k.Keeps l a) :
    l.returned b id = k.returned a id := by
  obtain ⟨node, hn, hkind⟩ := Arena.exists_of_kind? hk
  have hid := hvalue id (Arena.contains_of_get? hn)
  have hparts : ∀ operation cs, kind.parts? = some (operation, cs) →
      cs.map (fun c => Quantity.scalar (l.value c)) = cs.map fun c => Quantity.scalar (k.value c) := by
    intro operation cs hp
    refine List.map_congr_left fun c hc => ?_
    obtain ⟨part, column, hg, -⟩ := (ha id node hn).parts operation cs (hkind ▸ hp) c hc
    rw [hvalue c (Arena.contains_of_get? hg)]
  unfold returned
  rw [hk, hk']
  cases kind with
  | vector cs square =>
    obtain ⟨name, hname⟩ := (ha id node hn).named (by simp [hkind, Kind.isLeaf])
    have hs := hname ▸ Arena.standing?_of_get? hn
    obtain ⟨hs', hfinal⟩ := hvector cs square name rfl hs
    simp only [hs, hs', hfinal]
  | reduction operation operands cs | mapping operation operands cs =>
    simp only [hparts operation cs rfl]
  | scalar | field parent index | apply operation operands => simp only [hid]

end Meaning

namespace Session

variable {s t : Session} {id : NodeId} {read written : NodeId → Prop} {I : Interpretation R}
  {k l : Meaning R} {m m' : Memory R}

/-- Statements, names and values agree. -/
structure Faithful (I : Interpretation R) (k : Meaning R) (s : Session) (m : Memory R) : Prop where
  run : execute I k.start s.schedule.statements = some m
  unbound : ∀ name, name ∉ s.names.taken → m name = none
  final : k.final.Within m
  names : ∀ id name, s.arena.standing? id = some (.named name) →
    m name = some (k.returned s.arena id)
  vectors : ∀ id cs square name, s.arena.kind? id = some (.vector cs square) →
    s.arena.standing? id = some (.named name) →
    ∃ items, k.final name = some (.list items) ∧ items.length = cs.length
  fields : ∀ id vector index, s.arena.place? id = some (vector, index) →
    k.start.slot? vector index = some (.scalar (k.value id))
  operations : ∀ id operation operands, s.arena.kind? id = some (.apply operation operands) →
    isArithmetic operation = true ∧ (∀ o ∈ operands, s.arena.isScalar o = true) ∧
      k.value id = I.apply operation (operands.map k.value)

section Reading

/-- A slot that no statement has overwritten holds what the caller passed in. -/
theorem Scheduled.slot?_run (hs : s.Scheduled) (hwf : s.arena.WellFormed) {vector : String}
    {index : Nat} {statements : List Statement} (hrun : execute I k.start statements = some m)
    (hsub : statements ⊆ s.schedule.statements) (hplace : s.arena.place? id = some (vector, index))
    (hstored : ∀ st ∈ statements, st.stored? ≠ some (vector, index)) :
    m.slot? vector index = k.start.slot? vector index := by
  refine slot?_execute hrun hstored fun st hst name captures haction heq => ?_
  obtain ⟨parent, hk, hname⟩ := Arena.place?_eq_some.1 hplace
  obtain ⟨cs, square, hv, -⟩ := hwf.parent_of_kind? hk
  exact (hs.declared st (hsub hst) name captures haction).2 parent cs square hv (heq ▸ hname)

/-- The memory and the values of nodes agree, apart from slots that were overwritten. -/
theorem Faithful.valued (h : Faithful I k s m) (hs : s.Regular read written) :
    s.arena.Valued I m (k.returned s.arena)
      fun slot => ∀ st ∈ s.schedule.statements, st.stored? ≠ some slot where
  named id node name hn hstanding := by
    have hname := hstanding ▸ Arena.standing?_of_get? hn
    exact ⟨(hs.named id name hname).2, h.names id name hname⟩
  field id node parent vector index name hn hk hv hstanding hslot := by
    have hkind := hk ▸ Arena.kind?_of_get? hn
    have hplace := Arena.place?_eq_some.2 ⟨parent, hkind, hstanding ▸ Arena.standing?_of_get? hv⟩
    have hscalar : s.arena.isScalar id = true := by simp [Arena.isScalar, hkind, Kind.isScalar]
    have hkept := hs.toScheduled.slot?_run hs.arena h.run (List.Subset.refl _) hplace hslot
    rw [k.returned_of_isScalar hscalar, ← h.fields id name index hplace, ← hkept, Memory.slot?]
  operation id node operation operands hn hk := by
    have hkind := hk ▸ Arena.kind?_of_get? hn
    obtain ⟨hop, hscalars, hvalue⟩ := h.operations id operation operands hkind
    refine ⟨hop, operands.map k.value, ?_, ?_⟩
    · rw [List.map_map]
      exact List.map_congr_left fun o ho => k.returned_of_isScalar (hscalars o ho)
    · rw [k.returned_of_isScalar (by simp [Arena.isScalar, hkind, Kind.isScalar]), hvalue]
  parts id node operation cs hn hp := by
    have hkind := Arena.kind?_of_get? hn
    have hscalars : ∀ c ∈ cs, k.returned s.arena c = .scalar (k.value c) := by
      intro c hc
      obtain ⟨part, column, hg, hpk, -⟩ := (hs.arena id node hn).parts operation cs hp c hc
      refine k.returned_of_isScalar ?_
      simp [Arena.isScalar, Arena.kind?_of_get? hg, hpk, Kind.isScalar]
    rw [List.map_congr_left hscalars]
    cases hk : node.kind <;> simp_all [Kind.parts?, Meaning.returned]

/-- The text of a node has the node's value, unless it reads an overwritten slot. -/
theorem Faithful.reads (h : Faithful I k s m) (hs : s.Regular read written) {e : Expr}
    (he : s.arena.expr? id = some e)
    (hslots : ∀ slot ∈ e.slots, ∀ st ∈ s.schedule.statements, st.stored? ≠ some slot) :
    e.term.Reads I m (k.returned s.arena id) := (h.valued hs).reads hs.arena he hslots

end Reading

section Changes

theorem Faithful.same (h : Faithful I k s m) (hkind : t.arena.kind? = s.arena.kind?)
    (hstanding : t.arena.standing? = s.arena.standing?) (hnames : t.names = s.names)
    (hschedule : t.schedule = s.schedule) : Faithful I k t m := by
  have hreturned : k.returned t.arena = k.returned s.arena := by
    funext id
    simp only [Meaning.returned, hkind, hstanding]
  have hplace : t.arena.place? = s.arena.place? := by
    funext id
    simp only [Arena.place?, hkind, hstanding]
  have hscalar : t.arena.isScalar = s.arena.isScalar := by
    funext id
    simp only [Arena.isScalar, hkind]
  refine ⟨?_, ?_, h.final, ?_, ?_, ?_, ?_⟩
  · rw [hschedule]
    exact h.run
  · rw [hnames]
    exact h.unbound
  · rw [hstanding, hreturned]
    exact h.names
  · rw [hkind, hstanding]
    exact h.vectors
  · rw [hplace]
    exact h.fields
  · rw [hkind, hscalar]
    exact h.operations

/-- A new name is declared, with any value. -/
theorem Faithful.declaring (h : Faithful I k s m) (hs : s.Named) {name : String} {names : Names}
    {schedule : Schedule} {v : Quantity R} (htakes : s.names.Takes name names)
    (hrun : execute I k.start schedule.statements = some (m.bind name v)) :
    Faithful I k { s with names, schedule } (m.bind name v) := by
  refine ⟨hrun, fun other hother => ?_, fun other w hw => ?_, fun id other hstanding => ?_,
    h.vectors, h.fields, h.operations⟩
  · rw [htakes.taken, List.mem_cons, not_or] at hother
    rw [Memory.bind_of_ne hother.1]
    exact h.unbound other hother.2
  · exact Memory.within_bind (h.unbound name htakes.free) other w (h.final other w hw)
  · have hne : other ≠ name := by
      rintro rfl
      exact htakes.free (hs.named id other hstanding).1
    rw [Memory.bind_of_ne hne]
    exact h.names id other hstanding

/-- A node is written as a name that has its value. -/
theorem Faithful.binding (h : Faithful I k s m) (hs : s.WellFormed) {node : Node} {name : String}
    (hn : s.arena.get? id = some node) (hleaf : node.kind.isLeaf = false)
    (hname : m name = some (k.returned s.arena id)) :
    Faithful I k (s.modifyNode id (Node.bound name)) m := by
  have hsteady := steady_bound hn hleaf name
  have hkind : (s.modifyNode id (Node.bound name)).arena.kind? = s.arena.kind? := kind?_bound name
  have hstanding : (s.modifyNode id (Node.bound name)).arena.standing? =
      Function.update s.arena.standing? id (some (.named name)) := standing?_bound hn name
  have hplace : ∀ other place, (s.modifyNode id (Node.bound name)).arena.place? other = some place →
      s.arena.place? other = some place := by
    rintro other ⟨vector, index⟩ hp
    obtain ⟨parent, hk, hv⟩ := Arena.place?_eq_some.1 hp
    rw [hkind] at hk
    obtain ⟨cs, square, hvk, -⟩ := hs.arena.parent_of_kind? hk
    rw [hstanding, Function.update_of_ne] at hv
    · exact Arena.place?_eq_some.2 ⟨parent, hk, hv⟩
    · rintro rfl
      rw [Arena.kind?_of_get? hn, Option.some.injEq] at hvk
      simp [hvk, Kind.isLeaf] at hleaf
  have hreturned : ∀ other kind, s.arena.kind? other = some kind →
      k.returned (s.modifyNode id (Node.bound name)).arena other = k.returned s.arena other := by
    intro other kind hk
    exact Meaning.returned_congr hs.arena hk (hkind ▸ hk)
      (fun _ _ text hv ht => ⟨hsteady.leaf other kind text hk (by rw [hv]; rfl) ht, rfl⟩)
      fun _ _ => rfl
  refine ⟨h.run, h.unbound, h.final, fun other text ht => ?_, fun other cs square text hk ht => ?_,
    fun other vector index hp => h.fields other vector index (hplace other _ hp), ?_⟩
  · rw [hstanding, Function.update_apply] at ht
    split at ht
    next heq =>
      cases ht
      rw [heq, hreturned id node.kind (Arena.kind?_of_get? hn), hname]
    next =>
      obtain ⟨old, hold, -⟩ := Arena.exists_of_standing? ht
      rw [hreturned other old.kind (Arena.kind?_of_get? hold)]
      exact h.names other text ht
  · rw [hkind] at hk
    rw [hstanding, Function.update_of_ne] at ht
    · exact h.vectors other cs square text hk ht
    · rintro rfl
      rw [Arena.kind?_of_get? hn, Option.some.injEq] at hk
      simp [hk, Kind.isLeaf] at hleaf
  · intro other operation operands hk
    simp only [Arena.isScalar, hkind] at hk ⊢
    exact h.operations other operation operands hk

/-- An operation keeps its value with its operands. -/
theorem Faithful.value_of_keeps (h : Faithful I k s m) (hs : s.Regular read written)
    (hvalue : k.Keeps l s.arena) {operation : String} {operands : List NodeId}
    (hk : s.arena.kind? id = some (.apply operation operands)) :
    l.value id = I.apply operation (operands.map l.value) := by
  obtain ⟨node, hn, -⟩ := Arena.exists_of_kind? hk
  have hoperands : ∀ o ∈ operands, l.value o = k.value o := fun o ho =>
    hvalue o (hs.arena.contains_of_operand hk ho)
  rw [hvalue id (Arena.contains_of_get? hn), (h.operations id operation operands hk).2.2,
    List.map_congr_left hoperands]

/-- Nodes are added. What is said of a new node holds by assumption; names in use keep their values,
and so do nodes that were there before. -/
theorem Faithful.grow (h : Faithful I k s m) (hs : s.Regular read written)
    (hold : ∀ id node, s.arena.get? id = some node → t.arena.get? id = some node)
    (hrun : execute I l.start t.schedule.statements = some m')
    (hunbound : ∀ name, name ∉ t.names.taken → m' name = none) (hfinal : l.final.Within m')
    (hkept : ∀ name ∈ s.names.taken,
      m' name = m name ∧ l.start name = k.start name ∧ l.final name = k.final name)
    (hvalue : k.Keeps l s.arena)
    (hnames : ∀ id name, s.arena.get? id = none → t.arena.standing? id = some (.named name) →
      m' name = some (l.returned t.arena id))
    (hvectors : ∀ id cs square name, s.arena.get? id = none →
      t.arena.kind? id = some (.vector cs square) → t.arena.standing? id = some (.named name) →
      ∃ items, l.final name = some (.list items) ∧ items.length = cs.length)
    (hfields : ∀ id vector index, s.arena.get? id = none →
      t.arena.place? id = some (vector, index) →
      l.start.slot? vector index = some (.scalar (l.value id)))
    (hoperations : ∀ id operation operands, s.arena.get? id = none →
      t.arena.kind? id = some (.apply operation operands) →
      isArithmetic operation = true ∧ (∀ o ∈ operands, t.arena.isScalar o = true) ∧
        l.value id = I.apply operation (operands.map l.value)) : Faithful I l t m' := by
  refine ⟨hrun, hunbound, hfinal, fun id name ht => ?_, fun id cs square name hk ht => ?_,
    fun id vector index hp => ?_, fun id operation operands hk => ?_⟩
  · cases hn : s.arena.get? id with
    | none => exact hnames id name hn ht
    | some node =>
      rw [Arena.standing?_of_grown hold hn] at ht
      obtain ⟨hm, -⟩ := hkept name (hs.named id name ht).1
      rw [hm, h.names id name ht, Meaning.returned_congr hs.arena (Arena.kind?_of_get? hn)
        (Arena.kind?_of_get? (hold id node hn)) (fun _ _ text _ hs' => ?_) hvalue]
      refine ⟨by rw [Arena.standing?_of_grown hold hn, hs'], ?_⟩
      exact (hkept text (hs.named id text hs').1).2.2
  · cases hn : s.arena.get? id with
    | none => exact hvectors id cs square name hn hk ht
    | some node =>
      rw [Arena.standing?_of_grown hold hn] at ht
      rw [Arena.kind?_of_grown hold hn] at hk
      rw [(hkept name (hs.named id name ht).1).2.2]
      exact h.vectors id cs square name hk ht
  · cases hn : s.arena.get? id with
    | none => exact hfields id vector index hn hp
    | some node =>
      have hplace := Arena.place?_of_grown hold hs.arena hn hp
      obtain ⟨parent, -, hv⟩ := Arena.place?_eq_some.1 hplace
      obtain ⟨-, hstart, -⟩ := hkept vector (hs.named parent vector hv).1
      rw [Memory.slot?, hstart, hvalue id (Arena.contains_of_get? hn)]
      exact h.fields id vector index hplace
  · cases hn : s.arena.get? id with
    | none => exact hoperations id operation operands hn hk
    | some node =>
      rw [Arena.kind?_of_grown hold hn] at hk
      obtain ⟨hop, hscalars, -⟩ := h.operations id operation operands hk
      exact ⟨hop, fun o ho => (Arena.steady_of_get? hold).isScalar (hscalars o ho),
        h.value_of_keeps hs hvalue hk⟩

/-- A node that is written out is added, under a new number. -/
theorem Faithful.register (h : Faithful I k s m) (hs : s.Regular read written) {kind : Kind}
    {identities : Identities} (hstart : l.start = k.start) (hfinal : l.final = k.final)
    (hvalue : k.Keeps l s.arena) (hfield : kind.tag ≠ .field)
    (hoperation : ∀ operation operands, kind = .apply operation operands →
      isArithmetic operation = true ∧ (∀ o ∈ operands, s.arena.isScalar o = true) ∧
        l.value ⟨s.arena.size⟩ = I.apply operation (operands.map l.value)) :
    Faithful I l { s with arena := (s.arena.register ⟨kind, .inline, true, 0⟩).2, identities } m := by
  have hsteady : s.arena.Steady (s.arena.register ⟨kind, .inline, true, 0⟩).2 :=
    Arena.steady_of_get? fun _ _ => Arena.get?_register_of_get?
  refine h.grow hs (fun _ _ => Arena.get?_register_of_get?) (hstart ▸ h.run) h.unbound
    (hfinal ▸ h.final) (fun _ _ => ⟨rfl, by rw [hstart], by rw [hfinal]⟩) hvalue ?_ ?_ ?_ ?_
  · intro id name hnone hst
    obtain ⟨node, hn, hstanding⟩ := Arena.exists_of_standing? hst
    obtain ⟨-, rfl⟩ := Arena.eq_of_register hn hnone
    cases hstanding
  · intro id cs square name hnone hk hst
    obtain ⟨node, hn, hstanding⟩ := Arena.exists_of_standing? hst
    obtain ⟨-, rfl⟩ := Arena.eq_of_register hn hnone
    cases hstanding
  · intro id vector index hnone hplace
    obtain ⟨parent, hk, -⟩ := Arena.place?_eq_some.1 hplace
    obtain ⟨node, hn, hkind⟩ := Arena.exists_of_kind? hk
    obtain ⟨-, rfl⟩ := Arena.eq_of_register hn hnone
    exact absurd (congrArg Kind.tag hkind) hfield
  · intro id operation operands hnone hk
    obtain ⟨node, hn, hkind⟩ := Arena.exists_of_kind? hk
    obtain ⟨rfl, rfl⟩ := Arena.eq_of_register hn hnone
    obtain ⟨hop, hscalars, hv⟩ := hoperation operation operands hkind
    exact ⟨hop, fun o ho => hsteady.isScalar (hscalars o ho), hv⟩

/-- A mapping or reduction is asked for; its parts are yet to come. -/
theorem Faithful.intern_parts (h : Faithful I k s m) (hs : s.Regular read written) {key : Identity}
    (hp : (key.kind []).parts? = some (key.operation, [])) :
    Faithful I k (s.intern key).2 m := by
  cases hf : s.identities.find? key with
  | some id =>
    rw [intern_known hf]
    exact h.same rfl rfl rfl rfl
  | none =>
    rw [intern_fresh hf]
    refine h.register hs rfl rfl (fun _ _ => rfl) ?_ ?_
    · intro htag
      cases hk : key.kind [] <;> simp_all [Kind.tag, Kind.parts?]
    · intro operation operands hk
      rw [hk] at hp
      cases hp

/-- An operation asked for again has the value it had. -/
theorem Faithful.operate_eq_self (h : Faithful I k s m) {operation : String}
    {operands : List NodeId} (hk : s.arena.kind? id = some (.apply operation operands)) :
    k.operate I (id, operation, operands) = k :=
  Meaning.assign_eq_self (h.operations id operation operands hk).2.2

/-- An operation that is asked for may give a value to a new node only. -/
theorem Faithful.keeps_operate (h : Faithful I k s m) (hs : s.Regular read written)
    (operation : String) (operands : List NodeId) :
    k.Keeps (k.operate I ((s.intern ⟨.apply, operation, operands⟩).1.1, operation, operands))
      s.arena := by
  intro c hc
  cases hf : s.identities.find? ⟨.apply, operation, operands⟩ with
  | some id =>
    obtain ⟨node, hn, hident⟩ := (hs.identities _ id).1 hf
    have hkind : node.kind = .apply operation operands := by
      cases hk : node.kind <;> simp_all [Kind.identity?]
    rw [intern_known hf, h.operate_eq_self (hkind ▸ Arena.kind?_of_get? hn)]
  | none =>
    rw [intern_fresh hf]
    refine Function.update_of_ne ?_ ..
    rintro rfl
    simp [Arena.contains] at hc

/-- An operation is asked for. -/
theorem Faithful.intern_apply (h : Faithful I k s m) (hs : s.Regular read written)
    {operation : String} {operands : List NodeId}
    (hkey : s.Requestable ⟨.apply, operation, operands⟩) (hop : isArithmetic operation = true)
    (hscalars : ∀ o ∈ operands, s.arena.isScalar o = true) :
    Faithful I (k.operate I ((s.intern ⟨.apply, operation, operands⟩).1.1, operation, operands))
      (s.intern ⟨.apply, operation, operands⟩).2 m := by
  have hvalue := h.keeps_operate hs operation operands
  cases hf : s.identities.find? ⟨.apply, operation, operands⟩ with
  | some id =>
    obtain ⟨node, hn, hident⟩ := (hs.identities _ id).1 hf
    have hkind : node.kind = .apply operation operands := by
      cases hk : node.kind <;> simp_all [Kind.identity?]
    rw [intern_known hf, h.operate_eq_self (hkind ▸ Arena.kind?_of_get? hn)]
    exact h.same rfl rfl rfl rfl
  | none =>
    rw [intern_fresh hf] at hvalue ⊢
    refine h.register hs rfl rfl hvalue (by simp [Identity.kind, Kind.tag]) ?_
    intro operation' operands' hk
    cases hk
    refine ⟨hop, hscalars, ?_⟩
    rw [List.map_congr_left fun o ho => hvalue o (hkey.known o ho)]
    exact Function.update_self ..

/-- What the memory and the meaning hold of the slots of a field's vector. -/
theorem Faithful.items (h : Faithful I k s m) (hs : s.Regular read written) {vector : String}
    {index : Nat} (hplace : s.arena.place? id = some (vector, index)) :
    ∃ parent cs square items, s.arena.standing? parent = some (.named vector) ∧
      s.arena.kind? parent = some (.vector cs square) ∧ items.length = cs.length ∧
      index < items.length ∧ m vector = some (.list items) ∧ k.final vector = some (.list items) := by
  obtain ⟨parent, hk, hv⟩ := Arena.place?_eq_some.1 hplace
  obtain ⟨cs, square, hvk, hc⟩ := hs.arena.parent_of_kind? hk
  obtain ⟨items, hfinal, hlength⟩ := h.vectors parent cs square vector hvk hv
  have hlt := (List.getElem?_eq_some_iff.1 hc).1
  exact ⟨parent, cs, square, items, hv, hvk, hlength, hlength ▸ hlt, h.final vector _ hfinal, hfinal⟩

omit [CommRing R] in
/-- A store changes the value of no node but the vector that it goes to. -/
theorem returned_storing (hs : s.WellFormed) {output : NodeId} {place e : Expr} {name vector : String}
    (w : Quantity R) (hst : s.arena.standing? id = some (.named name)) (hne : name ≠ vector) :
    Meaning.returned { k with final := k.final.bind vector w } (s.storing output place e).arena id =
      k.returned s.arena id := by
  obtain ⟨node, hn, -⟩ := Arena.exists_of_standing? hst
  have hk := Arena.kind?_of_get? hn
  refine Meaning.returned_congr hs.arena hk ?_ (fun _ _ text hv ht => ?_) fun _ _ => rfl
  · rw [kind?_storing, hk]
  · refine ⟨(steady_storing hs output place e).leaf id node.kind text hk (by rw [hv]; rfl) ht,
      Memory.bind_of_ne ?_⟩
    rw [hst] at ht
    cases ht
    exact hne

/-- The statement of a store changes one slot. -/
theorem Faithful.execute_storing (h : Faithful I k s m) (output : NodeId) {place e : Expr}
    {v : Quantity R} {vector : String} {index : Nat} {items : List (Quantity R)}
    (hvalue : evaluate I m (e.text .suppress) = some v)
    (hslot : place? (place.text .auto) = some (vector, index))
    (hitems : m vector = some (.list items)) (hlt : index < items.length) :
    execute I k.start (s.storing output place e).schedule.statements =
      some (m.bind vector (.list (items.set index v))) := by
  show execute I k.start (s.schedule.statements ++ [_]) = _
  rw [execute_append, h.run, Option.bind_some, execute_cons]
  simp only [Statement.execute, Phrase.text, hvalue, hslot, Option.bind_some,
    Memory.store_of_list hitems hlt]
  rfl

/-- A value is stored into a field. -/
theorem Faithful.storing (h : Faithful I k s m) (hs : s.Regular read written)
    {output input : NodeId} {place e : Expr} {vector : String} {index : Nat} (hne : output ≠ input)
    (hplace : s.arena.place? output = some (vector, index))
    (htarget : s.arena.target? output = some place) (he : s.arena.expr? input = some e)
    (hslots : ∀ slot ∈ e.slots, ∀ st ∈ s.schedule.statements, st.stored? ≠ some slot) :
    ∃ m', Faithful I (k.overwrite s.arena (output, input)) (s.storing output place e) m' := by
  obtain ⟨parent, cs, square, items, hparent, hkind, hlength, hlt, hm, hfinal⟩ := h.items hs hplace
  have hrun := h.execute_storing output (h.reads hs he hslots).sum.evaluate
    (hs.toNamed.place?_target hplace htarget) hm hlt
  generalize hv : k.returned s.arena input = v at hrun
  have hmeaning : k.overwrite s.arena (output, input) =
      { k with final := k.final.bind vector (.list (items.set index v)) } := by
    simp [Meaning.overwrite, hne, hplace, hv, Memory.store_of_list hfinal hlt]
  rw [hmeaning]
  refine ⟨_, hrun, fun name hname => ?_, h.final.bind, fun id name hst => ?_,
    fun id cs' square' name hk hst => ?_, fun id vector' index' hp => ?_,
    fun id operation operands hk => ?_⟩
  · have htaken := (hs.named parent vector hparent).1
    rw [Memory.bind_of_ne (by rintro rfl; exact hname htaken)]
    exact h.unbound name hname
  · by_cases heq : name = vector
    · subst heq
      obtain rfl := hs.distinct id parent name (named_of_storing hst) hparent
      rw [← kind?_storing s output place e] at hkind
      simp [Meaning.returned, hkind, hst]
    · rw [Memory.bind_of_ne heq, h.names id name (named_of_storing hst),
        returned_storing hs.toWellFormed _ (named_of_storing hst) heq]
  · rw [kind?_storing] at hk
    by_cases heq : name = vector
    · subst heq
      obtain rfl := hs.distinct id parent name (named_of_storing hst) hparent
      rw [hkind] at hk
      cases hk
      exact ⟨_, Memory.bind_self, by rw [List.length_set, hlength]⟩
    · obtain ⟨items', hitems', hlen⟩ := h.vectors id cs' square' name hk (named_of_storing hst)
      exact ⟨items', (Memory.bind_of_ne heq).trans hitems', hlen⟩
  · -- nodes read fields as they were passed in
    obtain ⟨owner, hk, hst⟩ := Arena.place?_eq_some.1 hp
    rw [kind?_storing] at hk
    exact h.fields id vector' index' (Arena.place?_eq_some.2 ⟨owner, hk, named_of_storing hst⟩)
  · simp only [Arena.isScalar, kind?_storing] at hk ⊢
    exact h.operations id operation operands hk

/-- A mapping or reduction that is written out gets its parts. -/
theorem Faithful.setComponents (h : Faithful I k s m) (hs : s.Regular read written)
    {parts : String × List NodeId} {kind : Kind} (cs : List NodeId)
    (hk : s.arena.kind? id = some kind) (hp : kind.parts? = some parts)
    (hinline : s.arena.standing? id = some .inline) : Faithful I k (s.setComponents id cs) m := by
  have hsteady := steady_setComponents cs hk hp
  obtain ⟨kind', hp', -, hkind⟩ := kind?_setComponents cs hk hp
  have hold : ∀ other found, (s.setComponents id cs).arena.kind? other = some found →
      found.parts? = none → s.arena.kind? other = some found := by
    intro other found hf hnone
    rw [hkind, Function.update_apply] at hf
    split at hf
    next =>
      cases hf
      rw [hnone] at hp'
      cases hp'
    next => exact hf
  refine ⟨h.run, h.unbound, h.final, fun other name hst => ?_, fun other cs' square name hother hst => ?_,
    fun other vector index hplace => ?_, fun other operation operands hother => ?_⟩
  · rw [standing?_setComponents] at hst
    have hne : other ≠ id := by
      rintro rfl
      rw [hinline] at hst
      cases hst
    obtain ⟨node, hn, -⟩ := Arena.exists_of_standing? hst
    have hother := Arena.kind?_of_get? hn
    rw [h.names other name hst]
    refine congrArg some (Eq.symm (Meaning.returned_congr hs.arena hother ?_
      (fun _ _ text _ ht => ?_) fun _ _ => rfl))
    · rw [hkind, Function.update_of_ne hne, hother]
    · exact ⟨by rw [standing?_setComponents, ht], rfl⟩
  · rw [standing?_setComponents] at hst
    exact h.vectors other cs' square name (hold other _ hother rfl) hst
  · obtain ⟨parent, hother, hst⟩ := Arena.place?_eq_some.1 hplace
    rw [standing?_setComponents] at hst
    exact h.fields other vector index (Arena.place?_eq_some.2 ⟨parent, hold other _ hother rfl, hst⟩)
  · obtain ⟨hop, hscalars, hv⟩ := h.operations other operation operands (hold other _ hother rfl)
    exact ⟨hop, fun o ho => hsteady.isScalar (hscalars o ho), hv⟩

/-- A scalar is added under a name that has its value. -/
theorem Faithful.addScalar (h : Faithful I k s m) (hs : s.Regular read written) {name : String}
    {x : R} (hrun : execute I l.start s.schedule.statements = some m')
    (hunbound : ∀ other, other ∉ name :: s.names.taken → m' other = none)
    (hfinal : l.final.Within m')
    (hkept : ∀ other ∈ s.names.taken,
      m' other = m other ∧ l.start other = k.start other ∧ l.final other = k.final other)
    (hvalue : l.value = Function.update k.value ⟨s.arena.size⟩ x)
    (hname : m' name = some (.scalar x)) : Faithful I l (s.addScalar name).2 m' := by
  have hscalar : (s.addScalar name).2.arena.isScalar ⟨s.arena.size⟩ = true := by
    simp [Arena.isScalar, Session.addScalar, Arena.kind?_register, Kind.isScalar]
  refine h.grow hs (fun _ _ => Arena.get?_register_of_get?) hrun hunbound hfinal hkept ?_ ?_ ?_ ?_ ?_
  · intro c hc
    rw [hvalue, Function.update_of_ne]
    rintro rfl
    simp [Arena.contains] at hc
  · intro id other hnone hst
    obtain ⟨node, hn, hstanding⟩ := Arena.exists_of_standing? hst
    obtain ⟨rfl, rfl⟩ := Arena.eq_of_register hn hnone
    cases hstanding
    rw [l.returned_of_isScalar hscalar, hname, hvalue, Function.update_self]
  · intro id cs square other hnone hk
    obtain ⟨node, hn, hkind⟩ := Arena.exists_of_kind? hk
    obtain ⟨-, rfl⟩ := Arena.eq_of_register hn hnone
    cases hkind
  · intro id vector index hnone hplace
    obtain ⟨parent, hk, -⟩ := Arena.place?_eq_some.1 hplace
    obtain ⟨node, hn, hkind⟩ := Arena.exists_of_kind? hk
    obtain ⟨-, rfl⟩ := Arena.eq_of_register hn hnone
    cases hkind
  · intro id operation operands hnone hk
    obtain ⟨node, hn, hkind⟩ := Arena.exists_of_kind? hk
    obtain ⟨-, rfl⟩ := Arena.eq_of_register hn hnone
    cases hkind

theorem get?_addVector_of_get? {node : Node} (h : s.arena.get? id = some node) (shape : Shape)
    (name : String) (square : Bool) :
    (s.addVector shape name square).2.arena.get? id = some node := by
  cases shape with
  | components cs => exact Arena.get?_register_of_get? h
  | length n => exact Arena.get?_registerFields_of_get? h ..

/-- A vector is added, and with it no other nodes than its fields. -/
theorem addVector_cases (s : Session) (shape : Shape) (name : String) (square : Bool) :
    (s.addVector shape name square).1 = ⟨s.arena.size⟩ ∧
    ∃ cs, (s.addVector shape name square).2.arena.get? ⟨s.arena.size⟩ =
        some ⟨.vector cs square, .named name, false, 0⟩ ∧
      ∀ id node, (s.addVector shape name square).2.arena.get? id = some node →
        s.arena.get? id = none → id = ⟨s.arena.size⟩ ∨
          node.standing = .inline ∧ ∃ i < cs.length, node.kind = .field ⟨s.arena.size⟩ i := by
  cases shape with
  | components cs =>
    refine ⟨rfl, cs, by simp [Session.addVector, Arena.get?_register], fun id node hn hnone => ?_⟩
    exact .inl (Arena.eq_of_register hn hnone).1
  | length n =>
    refine ⟨rfl, _, Arena.get?_registerFields_vector .., fun id node hn hnone => ?_⟩
    rcases Arena.registerFields_cases _ _ _ _ _ hn with hold | ⟨rfl, -⟩ | ⟨i, hi, -, rfl⟩
    · rw [hnone] at hold
      cases hold
    · exact .inl rfl
    · exact .inr ⟨rfl, i, by simpa using hi, rfl⟩

theorem names_addVector (s : Session) (shape : Shape) (name : String) (square : Bool) :
    (s.addVector shape name square).2.names = s.names.reserve name ∧
      (s.addVector shape name square).2.schedule = s.schedule := by
  cases shape <;> exact ⟨rfl, rfl⟩

/-- The vector is the only new node with a name. -/
theorem named_of_addVector {shape : Shape} {name other : String} {square : Bool}
    (hnone : s.arena.get? id = none)
    (h : (s.addVector shape name square).2.arena.standing? id = some (.named other)) :
    id = ⟨s.arena.size⟩ ∧ other = name := by
  obtain ⟨-, cs, hget, hcases⟩ := addVector_cases s shape name square
  obtain ⟨node, hn, hstanding⟩ := Arena.exists_of_standing? h
  rcases hcases id node hn hnone with rfl | ⟨hinline, -⟩
  · rw [Arena.standing?_of_get? hget] at h
    cases h
    exact ⟨rfl, rfl⟩
  · rw [hinline] at hstanding
    cases hstanding

omit [CommRing R] in
/-- A new vector has new fields only. -/
theorem keeps_enterVector (hwf : s.arena.WellFormed) (shape : Shape) (square : Bool) (k : Meaning R)
    (entry : Entry R) (name : String) :
    k.Keeps (k.enterVector entry (s.addVector shape name square).2.arena
      (s.addVector shape name square).1 name) s.arena := by
  intro c hc
  obtain ⟨node, hn⟩ := Arena.contains_iff.1 hc
  have hkind := Arena.kind?_of_get? (get?_addVector_of_get? hn shape name square)
  simp only [Meaning.enterVector, Meaning.fields, (addVector_cases s shape name square).1, hkind]
  split
  next parent index hk =>
    rw [if_neg]
    · rfl
    · rintro rfl
      obtain ⟨cs, square, hparent, -⟩ := hwf.parent_of_kind? ((Arena.kind?_of_get? hn).trans hk)
      rw [Arena.kind?_size] at hparent
      cases hparent
  next => rfl

/-- A vector is added under a new name, with the caller's slots. -/
theorem Faithful.addVector (h : Faithful I k s m) (hs : s.Regular read written) {shape : Shape}
    {name : String} {square : Bool} (hfree : name ∉ s.names.taken) (entry : Entry R) :
    ∃ m', Faithful I (k.enterVector entry (s.addVector shape name square).2.arena
      (s.addVector shape name square).1 name) (s.addVector shape name square).2 m' := by
  have hkeeps := keeps_enterVector hs.arena shape square k entry name
  obtain ⟨hnames, hschedule⟩ := names_addVector s shape name square
  obtain ⟨hid, cs, hget, hcases⟩ := addVector_cases s shape name square
  have hkind := Arena.kind?_of_get? hget
  have hstanding := Arena.standing?_of_get? hget
  have hlength : (s.addVector shape name square).2.arena.length ⟨s.arena.size⟩ = cs.length := by
    simp [Arena.length, hget, Node.length, Node.components?]
  rw [Meaning.enterVector, hid, hlength] at hkeeps ⊢
  refine ⟨m.bind name (entry.vector name cs.length),
    h.grow hs (fun _ _ hn => get?_addVector_of_get? hn shape name square) ?_ (fun other hother => ?_)
      h.final.bind (fun other hother => ?_) hkeeps ?_ ?_ ?_ ?_⟩
  · rw [hschedule]
    exact execute_bind h.run (h.unbound name hfree) _
  · rw [hnames, Names.reserve, List.mem_cons, not_or] at hother
    rw [Memory.bind_of_ne hother.1]
    exact h.unbound other hother.2
  · have hne : other ≠ name := by
      rintro rfl
      exact hfree hother
    exact ⟨Memory.bind_of_ne hne, Memory.bind_of_ne hne, Memory.bind_of_ne hne⟩
  · intro id other hnone hst
    obtain ⟨rfl, rfl⟩ := named_of_addVector hnone hst
    simp [Meaning.returned, hkind, hstanding, Meaning.fields, Meaning.enter]
  · intro id cs' square' other hnone hk hst
    obtain ⟨rfl, rfl⟩ := named_of_addVector hnone hst
    rw [hkind, Option.some.injEq, Kind.vector.injEq] at hk
    obtain ⟨rfl, -⟩ := hk
    exact ⟨_, Memory.bind_self, by simp⟩
  · intro id vector index hnone hplace
    obtain ⟨parent, hk, hst⟩ := Arena.place?_eq_some.1 hplace
    obtain ⟨node, hn, hkind'⟩ := Arena.exists_of_kind? hk
    rcases hcases id node hn hnone with rfl | ⟨-, i, hi, hfield⟩
    · rw [hkind] at hk
      cases hk
    · rw [hfield, Kind.field.injEq] at hkind'
      obtain ⟨rfl, rfl⟩ := hkind'
      rw [hstanding, Option.some.injEq, Standing.named.injEq] at hst
      subst hst
      simp only [Meaning.fields, Meaning.enter, Memory.slot?, Memory.bind_self, Option.bind_some,
        Entry.item?_vector entry name hi, hk, if_true]
  · intro id operation operands hnone hk
    obtain ⟨node, hn, hkind'⟩ := Arena.exists_of_kind? hk
    rcases hcases id node hn hnone with rfl | ⟨-, i, -, hfield⟩
    · rw [hkind] at hk
      cases hk
    · rw [hfield] at hkind'
      cases hkind'

end Changes

end Session

end StraightLine
