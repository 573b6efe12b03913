import StraightLine.Proofs.Execution
import StraightLine.Proofs.NodeViews
import StraightLine.Proofs.Rendering
import StraightLine.Session.Emission

/-! # What a run of requests means

The requests of a run are interpreted one by one and without any sharing: an operation applies to the
values of its operands, a mapping or reduction applies its operation to each column, a merge picks a
value, and an assignment overwrites slots of the caller's memory. Values of fields are those that the
caller passed in. -/
namespace StraightLine

/-- The caller's values of scalars and of vector slots. -/
structure Entry (R : Type*) where
  scalar : String → R
  slot : String → Nat → R

/-- The values of nodes, and the caller's memory before and after the assignments made so far. -/
structure Meaning (R : Type*) where
  start : Memory R
  final : Memory R
  value : NodeId → R

namespace Arena

def isScalar (a : Arena) (id : NodeId) : Bool := (a.kind? id).any Kind.isScalar

def length (a : Arena) (id : NodeId) : Nat := ((a.get? id).map Node.length).getD 0

def parts (a : Arena) (id : NodeId) : List NodeId :=
  (((a.kind? id).bind Kind.parts?).map Prod.snd).getD []

def place? (a : Arena) (id : NodeId) : Option (String × Nat) :=
  match a.kind? id with
  | some (.field parent index) =>
    match a.standing? parent with
    | some (.named vector) => some (vector, index)
    | _ => none
  | _ => none

/-- The components of a node; a node without components stands for itself. -/
def column (a : Arena) (id : NodeId) : List NodeId := ((a.get? id).bind Node.components?).getD [id]

def isVector (a : Arena) (id : NodeId) : Bool := (a.get? id).any Node.isVector

/-- What stands for an operand at a position of a mapping: its component there, or its sole one. A
node without components is its own sole component. -/
def Stands (a : Arena) (i : Nat) (operand c : NodeId) : Prop :=
  a.column operand = [c] ∨ (a.column operand)[i]? = some c

def standsAt? (a : Arena) (i : Nat) (operand : NodeId) : Option NodeId :=
  match a.column operand with
  | [sole] => some sole
  | cs => cs[i]?

theorem standsAt?_eq_some_iff {a : Arena} {i : Nat} {operand c : NodeId} :
    a.standsAt? i operand = some c ↔ a.Stands i operand c := by
  unfold standsAt? Stands
  split
  next sole hsole =>
    rw [hsole]
    constructor
    · rintro ⟨⟩
      exact .inl rfl
    · rintro (⟨⟨⟩⟩ | hc)
      · rfl
      · obtain ⟨-, rfl⟩ := List.mem_singleton.1 (List.mem_of_getElem? hc)
        rfl
  next hseveral =>
    constructor
    · exact .inr
    · rintro (hc | hc)
      · exact absurd hc (hseveral c)
      · exact hc

end Arena

/-! ## What a request finds in its operands

The conditions of mappings and reductions gather the components of the operands one by one. What they
gather is read off the arena here. -/

namespace Session

def greatest (s : Session) (operands : List NodeId) : Nat :=
  (operands.map s.arena.length).foldl max 0

variable {s : Session} {id : NodeId} {operation : String} {operands : List NodeId}
  {columns : List (List NodeId)}

theorem node_of_contains (h : s.arena.contains id = true) :
    ∃ node, s.arena.get? id = some node ∧ s.node id = .ok node ∧
      s.arena.length id = node.length ∧ s.arena.column id = node.components?.getD [id] ∧
      s.arena.isVector id = node.isVector := by
  obtain ⟨node, hn⟩ := Arena.contains_iff.1 h
  exact ⟨node, hn, node_eq_ok hn, by simp [Arena.length, hn], by simp [Arena.column, hn],
    by simp [Arena.isVector, hn]⟩

theorem length_eq_ok (h : s.arena.contains id = true) : s.length id = .ok (s.arena.length id) := by
  obtain ⟨node, -, hnode, hlength, -⟩ := node_of_contains h
  rw [Session.length, hnode, hlength]
  rfl

theorem column_eq_ok (h : s.arena.contains id = true) : s.column id = .ok (s.arena.column id) := by
  obtain ⟨node, -, hnode, -, hcolumn, -⟩ := node_of_contains h
  rw [Session.column, hnode, hcolumn]
  rfl

theorem stands_of_broadcast {o c : NodeId} {i : Nat} (hknown : s.arena.contains o = true)
    (h : s.broadcast o i = .ok c) : s.arena.Stands i o c := by
  obtain ⟨node, -, hnode, -, hcolumn, -⟩ := node_of_contains hknown
  unfold Arena.Stands
  rw [hcolumn]
  cases hcs : node.components? with
  | none =>
    simp only [broadcast, component, hnode, hcs, bind, Except.bind, pure, Except.pure,
      Except.ok.injEq] at h
    exact .inl (by simp [h])
  | some cs =>
    have hlength : node.length = cs.length := by simp [Node.length, hcs]
    simp only [broadcast, component, hnode, hcs, hlength, bind, Except.bind] at h
    split at h
    next c' hc =>
      cases h
      split at hc
      next hone =>
        obtain ⟨sole, rfl⟩ := List.length_eq_one_iff.1 hone
        exact .inl (by simpa using hc)
      next => exact .inr hc
    next => cases h

/-- A mapping gathers one row per position of its longest operand. -/
theorem rows_of_mapColumns (h : s.mapColumns operation operands = .ok columns) :
    (∀ o ∈ operands, s.arena.contains o = true) ∧
      List.Forall₂ (fun i column => operands.mapM (s.broadcast · i) = .ok column)
        (List.range (s.greatest operands)) columns := by
  cases operands with
  | nil => cases h
  | cons o os =>
    simp only [mapColumns, List.isEmpty_cons, Bool.false_eq_true, if_false, bind_eq_ok] at h
    obtain ⟨⟨⟩, hk, ⟨⟩, -, lengths, hlengths, hrows⟩ := h
    have hknown := requireKnown_eq_ok.1 hk
    rw [mapM_eq_ok_map fun p hp => length_eq_ok (hknown p hp)] at hlengths
    cases hlengths
    split at hrows
    next => cases hrows
    next => exact ⟨hknown, forall₂_of_mapM_eq_ok hrows⟩

/-- The columns of a mapping: what stands for each operand, position by position. -/
theorem stands_of_mapColumns (h : s.mapColumns operation operands = .ok columns) :
    List.Forall₂ (fun i column => List.Forall₂ (s.arena.Stands i) operands column)
      (List.range (s.greatest operands)) columns := by
  obtain ⟨hknown, hrows⟩ := rows_of_mapColumns h
  refine hrows.imp fun i column hrow => ?_
  exact ((List.forall₂_and_left _ _).2 ⟨hknown, forall₂_of_mapM_eq_ok hrow⟩).imp
    fun o c ⟨hk, hc⟩ => stands_of_broadcast hk hc

/-- The columns of a reduction: the components of each operand. -/
theorem columns_of_reduction (h : s.reduceColumns operation operands = .ok columns) :
    columns = operands.map s.arena.column := by
  cases operands with
  | nil => cases h
  | cons o os =>
    simp only [reduceColumns, List.isEmpty_cons, Bool.false_eq_true, if_false, bind_eq_ok] at h
    obtain ⟨⟨⟩, hk, found, hfound, ⟨⟩, -, hpure⟩ := h
    cases hpure
    rw [mapM_eq_ok_map fun p hp => column_eq_ok (requireKnown_eq_ok.1 hk p hp)] at hfound
    exact (Except.ok.inj hfound).symm

/-- The targets of an assignment are the components of the vector, and what is stored into each of
them is what stands there for the source. -/
theorem stands_of_assignTargets {target source : NodeId} {outputs inputs : List NodeId}
    (h : s.assignTargets target source = .ok outputs)
    (hin : (List.range outputs.length).mapM (s.broadcast source) = .ok inputs) :
    s.arena.column target = outputs ∧ List.Forall₂ (fun i c => s.arena.Stands i source c)
      (List.range outputs.length) inputs := by
  obtain ⟨⟨node, square, hn, hkind⟩, hknown, -⟩ := assignTargets_eq_ok h
  refine ⟨by simp [Arena.column, hn, Node.components?, hkind], ?_⟩
  exact (forall₂_of_mapM_eq_ok hin).imp fun i c hc => stands_of_broadcast hknown hc

end Session

theorem filterMap_of_forall₂ {α β : Type} {f : α → Option β} {xs : List α} {ys : List β}
    (h : List.Forall₂ (fun x y => f x = some y) xs ys) : xs.filterMap f = ys := by
  induction h with
  | nil => rfl
  | cons hx _ ih => rw [List.filterMap_cons_some hx, ih]

def columnOperations (operation : String) (cs : List NodeId) (columns : List (List NodeId)) :
    List (NodeId × String × List NodeId) :=
  cs.zipWith (fun c column => (c, operation, column)) columns

namespace Event

/-- The columns of a mapping or reduction: a mapping takes what stands for its operands at each
position of the longest one, a reduction the components of each operand. -/
def columns (e : Event) : List (List NodeId) :=
  match e.call with
  | .map _ operands => (List.range (e.before.greatest operands)).map fun i =>
      operands.filterMap (e.before.arena.standsAt? i)
  | .reduce _ operands => operands.map e.before.arena.column
  | _ => []

def operations (e : Event) : List (NodeId × String × List NodeId) :=
  match e.call, e.result with
  | .apply operation operands, some id => [(id, operation, operands)]
  | .map operation _, some id | .reduce operation _, some id =>
    columnOperations operation (e.after.arena.parts id) e.columns
  | _, _ => []

/-- The components of an assignment's target, each with what stands there for the source. -/
def stores (e : Event) : List (NodeId × NodeId) :=
  match e.call with
  | .assign target source =>
    let outputs := e.before.arena.column target
    outputs.zip ((List.range outputs.length).filterMap (e.before.arena.standsAt? · source))
  | _ => []

def sources (e : Event) : List NodeId :=
  match e.call with
  | .apply _ operands => operands
  | .map .. | .reduce .. => e.columns.flatten
  | .assign .. => e.stores.map Prod.snd
  | .phi test success failure _ => [test.left, test.right, success, failure]
  | .output id => [id]
  | _ => []

section Contents

variable {s t : Session} {result : Option NodeId} {operation : String} {operands : List NodeId}
  {columns : List (List NodeId)}

theorem columns_map (h : s.mapColumns operation operands = .ok columns) :
    Event.columns ⟨s, .map operation operands, result, t⟩ = columns := by
  show (List.range (s.greatest operands)).map _ = columns
  rw [← List.forall₂_eq_eq_eq, List.forall₂_map_left_iff]
  refine (Session.stands_of_mapColumns h).imp fun i column hrow => ?_
  exact filterMap_of_forall₂ (hrow.imp fun o c => Arena.standsAt?_eq_some_iff.2)

theorem columns_reduce (h : s.reduceColumns operation operands = .ok columns) :
    Event.columns ⟨s, .reduce operation operands, result, t⟩ = columns :=
  (Session.columns_of_reduction h).symm

theorem sources_map (h : s.mapColumns operation operands = .ok columns) :
    Event.sources ⟨s, .map operation operands, result, t⟩ = columns.flatten := by
  rw [sources, columns_map h]

theorem sources_reduce (h : s.reduceColumns operation operands = .ok columns) :
    Event.sources ⟨s, .reduce operation operands, result, t⟩ = columns.flatten := by
  rw [sources, columns_reduce h]

theorem stores_assign {target source : NodeId} {outputs inputs : List NodeId}
    (h : s.assignTargets target source = .ok outputs)
    (hin : (List.range outputs.length).mapM (s.broadcast source) = .ok inputs) :
    Event.stores ⟨s, .assign target source, result, t⟩ = outputs.zip inputs := by
  obtain ⟨hcolumn, hstands⟩ := Session.stands_of_assignTargets h hin
  simp only [Event.stores, hcolumn]
  rw [filterMap_of_forall₂ (hstands.imp fun i c => Arena.standsAt?_eq_some_iff.2)]

theorem sources_assign {target source : NodeId} :
    Event.sources ⟨s, .assign target source, result, t⟩ =
      (Event.stores ⟨s, .assign target source, result, t⟩).map Prod.snd := rfl

end Contents

/-- A request over arithmetic: new names are identifiers not yet taken, operations are those of
arithmetic or functions over elements of the ring, merges compare and pick elements of the ring, and
assignments go to fields. No name is offered for reuse. -/
def Admissible (e : Event) : Prop :=
  match e.call with
  | .scalar name | .vector _ name | .matrix _ name =>
    isIdentifier name = true ∧ name ∉ e.before.names.taken
  | .apply operation _ | .map operation _ | .reduce operation _ =>
    isArithmetic operation = true ∧ ∀ id ∈ e.sources, e.before.arena.isScalar id = true
  | .assign .. => ∀ p ∈ e.stores, (e.before.arena.place? p.1).isSome = true
  | .phi test _ _ wanted => isRelation test.relation = true ∧ wanted.all isIdentifier = true ∧
    ∀ id ∈ e.sources, e.before.arena.isScalar id = true
  | .output _ => True
  | .recycle _ => False

instance : DecidablePred Admissible
  | ⟨s, .scalar name, _, _⟩ | ⟨s, .vector _ name, _, _⟩ | ⟨s, .matrix _ name, _, _⟩ =>
    inferInstanceAs (Decidable (isIdentifier name = true ∧ name ∉ s.names.taken))
  | ⟨s, .apply operation operands, result, t⟩ =>
    inferInstanceAs (Decidable (isArithmetic operation = true ∧
      ∀ id ∈ sources ⟨s, .apply operation operands, result, t⟩, s.arena.isScalar id = true))
  | ⟨s, .map operation operands, result, t⟩ =>
    inferInstanceAs (Decidable (isArithmetic operation = true ∧
      ∀ id ∈ sources ⟨s, .map operation operands, result, t⟩, s.arena.isScalar id = true))
  | ⟨s, .reduce operation operands, result, t⟩ =>
    inferInstanceAs (Decidable (isArithmetic operation = true ∧
      ∀ id ∈ sources ⟨s, .reduce operation operands, result, t⟩, s.arena.isScalar id = true))
  | ⟨s, .assign target source, result, t⟩ =>
    inferInstanceAs (Decidable (∀ p ∈ stores ⟨s, .assign target source, result, t⟩,
      (s.arena.place? p.1).isSome = true))
  | ⟨s, .phi test success failure wanted, result, t⟩ =>
    inferInstanceAs (Decidable (isRelation test.relation = true ∧ wanted.all isIdentifier = true ∧
      ∀ id ∈ sources ⟨s, .phi test success failure wanted, result, t⟩, s.arena.isScalar id = true))
  | ⟨_, .output _, _, _⟩ => inferInstanceAs (Decidable True)
  | ⟨_, .recycle _, _, _⟩ => inferInstanceAs (Decidable False)

end Event

def Entry.vector {R : Type*} (entry : Entry R) (name : String) (length : Nat) : Quantity R :=
  .list ((List.range length).map fun i => .scalar (entry.slot name i))

theorem Entry.item?_vector {R : Type*} (entry : Entry R) (name : String) {n i : Nat} (hi : i < n) :
    (entry.vector name n).item? i = some (.scalar (entry.slot name i)) := by
  simp [Entry.vector, Quantity.item?, List.getElem?_range hi]

namespace Meaning

variable {R : Type*} [CommRing R]

def initial : Meaning R := ⟨fun _ => none, fun _ => none, fun _ => 0⟩

def enter (k : Meaning R) (name : String) (v : Quantity R) : Meaning R :=
  { k with start := k.start.bind name v, final := k.final.bind name v }

def assign (k : Meaning R) (id : NodeId) (x : R) : Meaning R :=
  { k with value := Function.update k.value id x }

def fields (k : Meaning R) (entry : Entry R) (a : Arena) (vector : NodeId) (name : String) :
    Meaning R :=
  { k with value := fun id =>
      match a.kind? id with
      | some (.field parent index) => if parent = vector then entry.slot name index else k.value id
      | _ => k.value id }

def enterVector (k : Meaning R) (entry : Entry R) (a : Arena) (vector : NodeId) (name : String) :
    Meaning R :=
  (k.enter name (entry.vector name (a.length vector))).fields entry a vector name

def operate (I : Interpretation R) (k : Meaning R) (o : NodeId × String × List NodeId) : Meaning R :=
  k.assign o.1 (I.apply o.2.1 (o.2.2.map k.value))

/-- The value of a node that is returned. A vector is a value of the caller's under its own name, as
the assignments left it. This includes a vector of given components: mappings and assignments read its
components, but what is returned is the caller's value of that name and not theirs. -/
def returned (k : Meaning R) (a : Arena) (id : NodeId) : Quantity R :=
  match a.kind? id with
  | some (.vector ..) =>
    match a.standing? id with
    | some (.named name) => (k.final name).getD (.list [])
    | _ => .list []
  | some (.reduction _ _ cs) | some (.mapping _ _ cs) => .list (cs.map fun c => .scalar (k.value c))
  | _ => .scalar (k.value id)

/-- A value is stored into a field, unless the field is its own source. -/
def overwrite (a : Arena) (k : Meaning R) (p : NodeId × NodeId) : Meaning R :=
  if p.1 = p.2 then k
  else match a.place? p.1 with
    | some (vector, index) =>
      { k with final := (k.final.store vector index (k.returned a p.2)).getD k.final }
    | none => k

def merged (I : Interpretation R) (k : Meaning R) (test : Comparison) (success failure : NodeId) : R :=
  if I.compare test.relation (k.value test.left) (k.value test.right) then k.value success
  else k.value failure

def after (I : Interpretation R) (entry : Entry R) (k : Meaning R) (e : Event) : Meaning R :=
  match e.call, e.result with
  | .scalar name, some id => (k.enter name (.scalar (entry.scalar name))).assign id (entry.scalar name)
  | .vector _ name, some id | .matrix _ name, some id =>
    k.enterVector entry e.after.arena id name
  | .phi test success failure _, some id => k.assign id (k.merged I test success failure)
  | .assign .., _ => e.stores.foldl (overwrite e.before.arena) k
  | _, _ => e.operations.foldl (operate I) k

def ofEvents (I : Interpretation R) (entry : Entry R) (events : List Event) : Meaning R :=
  events.foldl (after I entry) initial

end Meaning

def Phrase.slots : Phrase → List (String × Nat)
  | .verbatim _ => []
  | .expr e _ => e.slots
  | .choice left _ right success failure =>
    left.slots ++ right.slots ++ success.slots ++ failure.slots

/-- No statement reads a slot that an earlier one has overwritten. -/
def ReadsBeforeStores (statements : List Statement) : Prop :=
  statements.Pairwise fun earlier later => ∀ slot ∈ later.value.slots, earlier.stored? ≠ some slot

end StraightLine
