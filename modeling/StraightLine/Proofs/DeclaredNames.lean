import StraightLine.Proofs.LifeCycle

/-! # Declared names

A session introduces a name for a node that it binds and for the node of a merged value, and declares
the name by a statement of its own. That statement stands before every statement in which the name is
written, also where it is put into the midst of the list. -/
namespace StraightLine

mutual

/-- The names in a written expression, each with its node. -/
def Expr.names : Expr → List (NodeId × String)
  | .name node text => [(node, text)]
  | .slot base _ => base.names
  | .list items => Expr.namesOf items
  | .apply _ _ first rest => first.names ++ Expr.namesOf rest

def Expr.namesOf : List Expr → List (NodeId × String)
  | [] => []
  | e :: es => e.names ++ Expr.namesOf es

end

theorem Expr.namesOf_eq (es : List Expr) : Expr.namesOf es = es.flatMap Expr.names := by
  induction es with
  | nil => rfl
  | cons e es ih => rw [Expr.namesOf, ih, List.flatMap_cons]

def Phrase.names : Phrase → List (NodeId × String)
  | .verbatim _ => []
  | .expr e _ => e.names
  | .choice left _ right success failure =>
    left.names ++ right.names ++ success.names ++ failure.names

namespace Statement

def names (st : Statement) : List (NodeId × String) := st.target.names ++ st.value.names

def declared? (st : Statement) : Option String :=
  match st.action with
  | .declare name _ => some name
  | .store _ => none

/-- The name that a statement binds, with the number of the statement. -/
def binding? (st : Statement) : Option (StatementId × String) := st.declared?.map (st.id, ·)

theorem binding?_eq_some {st : Statement} {id : StatementId} {name : String} :
    st.binding? = some (id, name) ↔ st.id = id ∧ st.declared? = some name := by
  simp [binding?, and_comm]

end Statement

namespace Schedule

def declarations (s : Schedule) : List (StatementId × String) :=
  s.statements.filterMap Statement.binding?

variable {s t : Schedule} {earlier later : List Statement} {new : Statement}

/-- What is read off each statement, after one more was put into the list. -/
theorem Inserted.filterMap_perm (h : s.Inserted t earlier new later) {α : Type}
    (f : Statement → Option α) :
    (t.statements.filterMap f).Perm ((f new).toList ++ s.statements.filterMap f) := by
  rw [h.before, h.after, List.filterMap_append, List.filterMap_cons, List.filterMap_append]
  cases f new with
  | none => exact .refl _
  | some a => exact List.perm_middle

theorem Inserted.declarations_perm (h : s.Inserted t earlier new later) :
    t.declarations.Perm (new.binding?.toList ++ s.declarations) :=
  h.filterMap_perm Statement.binding?

/-- A statement of the longer list is the new one, stands before it or stands behind it. -/
theorem Inserted.cases (h : s.Inserted t earlier new later) {front rest : List Statement}
    {st : Statement} (hsplit : t.statements = front ++ st :: rest) :
    (front = earlier ∧ st = new ∧ rest = later) ∨
      (∃ between, earlier = front ++ st :: between ∧ rest = between ++ new :: later) ∨
      ∃ between, front = earlier ++ new :: between ∧ later = between ++ st :: rest := by
  rw [h.after, List.append_eq_append_iff] at hsplit
  rcases hsplit with ⟨between, rfl, hnew⟩ | ⟨between, rfl, hnew⟩
  · cases between with
    | nil =>
      cases hnew
      exact .inl ⟨by simp, rfl, rfl⟩
    | cons first between =>
      obtain ⟨rfl, rfl⟩ := List.cons.inj hnew
      exact .inr (.inr ⟨between, rfl, rfl⟩)
  · cases between with
    | nil =>
      cases hnew
      exact .inl ⟨by simp, rfl, rfl⟩
    | cons first between =>
      obtain ⟨rfl, rfl⟩ := List.cons.inj hnew
      exact .inr (.inl ⟨between, rfl, rfl⟩)

/-- A statement of the longer list is the new one, or no fewer statements stand before it now. -/
theorem Inserted.split (h : s.Inserted t earlier new later) {front rest : List Statement}
    {st : Statement} (hsplit : t.statements = front ++ st :: rest) :
    front = earlier ∧ st = new ∨
      ∃ old tail, s.statements = old ++ st :: tail ∧ old ⊆ front := by
  rw [h.before]
  rcases h.cases hsplit with ⟨rfl, rfl, -⟩ | ⟨between, rfl, -⟩ | ⟨between, rfl, rfl⟩
  · exact .inl ⟨rfl, rfl⟩
  · exact .inr ⟨front, between ++ later, by simp, List.Subset.refl _⟩
  · exact .inr ⟨earlier ++ between, rest, by simp, by simp⟩

theorem Numbered.declarations_nodup (h : s.Numbered) : (s.declarations.map Prod.fst).Nodup := by
  refine List.Nodup.sublist ?_ h.distinct
  rw [declarations]
  induction s.statements with
  | nil => exact .slnil
  | cons st statements ih =>
    rw [List.filterMap_cons, List.map_cons]
    cases hst : st.binding? with
    | none => exact ih.cons _
    | some binding =>
      obtain ⟨id, name⟩ := binding
      obtain ⟨rfl, -⟩ := Statement.binding?_eq_some.1 hst
      exact ih.cons_cons _

end Schedule

theorem Kind.not_isLeaf_of_parts? {kind : Kind} {parts : String × List NodeId}
    (h : kind.parts? = some parts) : kind.isLeaf = false := by
  by_contra hleaf
  simp [Kind.parts?_of_isLeaf (by simpa using hleaf)] at h

namespace Arena

variable {a b : Arena} {id : NodeId}

def isLeaf (a : Arena) (id : NodeId) : Bool := (a.kind? id).any Kind.isLeaf

def binding? (a : Arena) (id : NodeId) : Option (NodeId × String) :=
  match a.standing? id with
  | some (.named name) => if a.isLeaf id then none else some (id, name)
  | _ => none

def ids (a : Arena) : List NodeId := (List.range a.size).map NodeId.mk

def bindings (a : Arena) : List (NodeId × String) := a.ids.filterMap a.binding?

theorem mem_ids {node : Node} (h : a.get? id = some node) : id ∈ a.ids :=
  List.mem_map.2 ⟨id.index, List.mem_range.2 (index_lt_of_get? h), rfl⟩

theorem nodup_ids (a : Arena) : a.ids.Nodup :=
  List.nodup_range.map fun _ _ h => congrArg NodeId.index h

theorem isLeaf_eq (h : b.kind? = a.kind?) : b.isLeaf = a.isLeaf := by
  funext id
  rw [isLeaf, h, isLeaf]

theorem binding?_eq_some {p : NodeId × String} : a.binding? id = some p ↔
    p.1 = id ∧ a.standing? id = some (.named p.2) ∧ a.isLeaf id = false := by
  obtain ⟨other, name⟩ := p
  unfold binding?
  split
  next text hstanding => cases hleaf : a.isLeaf id <;> simp [hstanding, eq_comm]
  next hnot =>
    refine ⟨fun h => (by cases h), fun h => absurd h.2.1 (hnot name)⟩

theorem mem_bindings {p : NodeId × String} : p ∈ a.bindings ↔
    a.standing? p.1 = some (.named p.2) ∧ a.isLeaf p.1 = false := by
  simp only [bindings, List.mem_filterMap, binding?_eq_some]
  constructor
  · rintro ⟨id, -, rfl, h⟩
    exact h
  · intro h
    obtain ⟨node, hn, -⟩ := exists_of_standing? h.1
    exact ⟨p.1, mem_ids hn, rfl, h⟩

theorem bindings_eq (hsize : b.size = a.size) (hleaf : b.isLeaf = a.isLeaf)
    (hstanding : ∀ id name,
      b.standing? id = some (.named name) ↔ a.standing? id = some (.named name)) :
    b.bindings = a.bindings := by
  have h : b.binding? = a.binding? := by
    funext id
    ext p
    rw [binding?_eq_some, binding?_eq_some, hstanding, hleaf]
  rw [bindings, bindings, ids, ids, hsize, h]

/-- One more node is bound. -/
theorem bindings_perm {node : Node} {name : String} (hn : a.get? id = some node)
    (hold : a.binding? id = none) (hsize : b.size = a.size)
    (h : b.binding? = Function.update a.binding? id (some (id, name))) :
    b.bindings.Perm ((id, name) :: a.bindings) := by
  obtain ⟨front, rest, hsplit⟩ := List.append_of_mem (mem_ids hn)
  have hnodup := a.nodup_ids
  rw [hsplit, List.nodup_middle, List.nodup_cons, List.mem_append, not_or] at hnodup
  have hother : ∀ ids : List NodeId, id ∉ ids →
      ids.filterMap b.binding? = ids.filterMap a.binding? := by
    intro ids hids
    refine List.filterMap_congr fun other hmem => ?_
    rw [h, Function.update_of_ne]
    rintro rfl
    exact hids hmem
  have hself : b.binding? id = some (id, name) := by rw [h, Function.update_self]
  have hids : b.ids = a.ids := by rw [ids, ids, hsize]
  rw [bindings, bindings, hids, hsplit, List.filterMap_append, List.filterMap_append,
    List.filterMap_cons_some hself, List.filterMap_cons_none hold, hother front hnodup.1.1,
    hother rest hnodup.1.2]
  exact List.perm_middle

/-- The names in a written node are those of nodes. -/
theorem WellFormed.standing?_of_names (ha : a.WellFormed) {e : Expr} (he : a.expr? id = some e) :
    ∀ p ∈ e.names, a.standing? p.1 = some (.named p.2) := by
  have hcarried : a.Carried fun _ e => ∀ p ∈ e.names, a.standing? p.1 = some (.named p.2) := by
    refine ⟨?_, ?_, ?_, ?_⟩
    · intro id node text hn hs p hp
      obtain rfl := List.mem_singleton.1 hp
      exact hs ▸ standing?_of_get? hn
    · intro id node parent vector index text _ _ hv hs p hp
      obtain rfl := List.mem_singleton.1 hp
      exact hs ▸ standing?_of_get? hv
    · intro id node operation first rest e es _ _ hfirst hrest p hp
      rw [Expr.names, Expr.namesOf_eq, List.mem_append, List.mem_flatMap] at hp
      rcases hp with hp | ⟨e', he', hp⟩
      · exact hfirst p hp
      · obtain ⟨o, -, ho⟩ := exists_of_mem_right hrest he'
        exact ho p hp
    · intro id node operation cs es _ _ hes p hp
      rw [Expr.names, Expr.namesOf_eq, List.mem_flatMap] at hp
      obtain ⟨e', he', hp⟩ := hp
      obtain ⟨c, -, hc⟩ := exists_of_mem_right hes he'
      exact hc p hp
  obtain ⟨e', he', hnames⟩ := ha.expr? hcarried (contains_of_expr? he)
  rw [he] at he'
  cases he'
  exact hnames

theorem WellFormed.standing?_of_target (ha : a.WellFormed) {place : Expr}
    (h : a.target? id = some place) : ∀ p ∈ place.names, a.standing? p.1 = some (.named p.2) := by
  obtain ⟨node, hn⟩ := contains_iff.1 (contains_of_target? h)
  cases hk : node.kind with
  | field parent index =>
    simp only [target?, hn, hk, Option.bind_eq_bind, Option.bind_some, Option.bind_eq_some_iff] at h
    obtain ⟨e, he, hplace⟩ := h
    cases hplace
    rw [Expr.names]
    exact ha.standing?_of_names he
  | _ =>
    have he : a.expr? id = some place := by simpa [target?, hn, hk] using h
    exact ha.standing?_of_names he

end Arena

namespace Effect

def merge? : Effect → Option (NodeId × String)
  | .merged id name => some (id, name)
  | .used _ | .stored _ => none

end Effect

namespace Session

variable {s t : Session} {id : NodeId} {effects more : List Effect}
  {merges new : List (NodeId × String)} {home : NodeId → StatementId}

section Bindings

theorem bindings_counted (s : Session) (id : NodeId) :
    (s.counted id).arena.bindings = s.arena.bindings :=
  Arena.bindings_eq (Arena.size_modify ..) (Arena.isLeaf_eq (kind?_counted s id)) (by simp)

theorem bindings_setComponents {node : Node} {operation : String} {old : List NodeId}
    (cs : List NodeId) (hn : s.arena.get? id = some node)
    (hparts : node.kind.parts? = some (operation, old)) :
    (s.setComponents id cs).arena.bindings = s.arena.bindings := by
  refine Arena.bindings_eq (Arena.size_modify ..) ?_ (by simp)
  obtain ⟨kind, hkind, -, hupdate⟩ := kind?_setComponents cs (Arena.kind?_of_get? hn) hparts
  funext other
  by_cases heq : other = id
  · subst heq
    simp [Arena.isLeaf, hupdate, Arena.kind?_of_get? hn, Kind.not_isLeaf_of_parts? hkind,
      Kind.not_isLeaf_of_parts? hparts]
  · rw [Arena.isLeaf, hupdate, Function.update_of_ne heq, Arena.isLeaf]

/-- A new node is a leaf or is written out. -/
theorem Grown.binding?_eq (h : s.Grown t) : t.arena.binding? = s.arena.binding? := by
  funext id
  ext p
  rw [Arena.binding?_eq_some, Arena.binding?_eq_some]
  refine and_congr_right fun _ => ⟨?_, ?_⟩
  · rintro ⟨hstanding, hleaf⟩
    obtain ⟨node, hn, hname⟩ := Arena.exists_of_standing? hstanding
    rw [Arena.isLeaf, Arena.kind?_of_get? hn, Option.any_some] at hleaf
    rcases h.cases hn with hold | ⟨-, hfresh⟩
    · rw [Arena.standing?_of_get? hold, Arena.isLeaf, Arena.kind?_of_get? hold, hname]
      exact ⟨rfl, hleaf⟩
    · rw [hfresh.inline hleaf] at hname
      cases hname
  · rintro ⟨hstanding, hleaf⟩
    obtain ⟨node, hn, hname⟩ := Arena.exists_of_standing? hstanding
    have hnew := h.get?_of_get? hn
    rw [Arena.isLeaf, Arena.kind?_of_get? hn] at hleaf
    rw [Arena.standing?_of_get? hnew, Arena.isLeaf, Arena.kind?_of_get? hnew, hname]
    exact ⟨rfl, hleaf⟩

theorem Grown.bindings_eq (h : s.Grown t) : t.arena.bindings = s.arena.bindings := by
  obtain ⟨added, hnodes, -⟩ := h.nodes
  have hsize : t.arena.size = s.arena.size + added.length := by simp [Arena.size, hnodes]
  have hnone : ∀ i, s.arena.binding? ⟨s.arena.size + i⟩ = none := by
    intro i
    rw [Option.eq_none_iff_forall_ne_some]
    intro p hp
    obtain ⟨-, hstanding, -⟩ := Arena.binding?_eq_some.1 hp
    obtain ⟨node, hn, -⟩ := Arena.exists_of_standing? hstanding
    have hlt := Arena.index_lt_of_get? hn
    simp at hlt
  have hids : t.arena.ids =
      s.arena.ids ++ (List.range added.length).map fun i => ⟨s.arena.size + i⟩ := by
    rw [Arena.ids, hsize, List.range_add, List.map_append, List.map_map]
    rfl
  rw [Arena.bindings, h.binding?_eq, hids, List.filterMap_append, Arena.bindings]
  simp [hnone]

theorem get?_storing_of_fixed {output : NodeId} {place e : Expr} {node : Node}
    (hn : s.arena.get? id = some node) (hfixed : node.aliasable = false) :
    (s.storing output place e).arena.get? id = some node := by
  by_cases heq : id = output
  · subst heq
    rw [Session.storing, modifyNode, Arena.get?_modify, if_pos rfl]
    show (s.arena.get? id).map _ = some node
    rw [hn, Option.map_some, Node.overwritten, if_neg (by simp [hfixed])]
  · rw [Session.storing, modifyNode, Arena.get?_modify_of_ne heq]
    exact hn

theorem Used.get?_of_fixed (h : Used s id t) {other : NodeId} {node : Node}
    (hn : s.arena.get? other = some node) (hfixed : node.aliasable = false) :
    t.arena.get? other = some node := by
  have hne : ∀ {found : Node}, s.arena.get? id = some found → found.aliasable = true →
      other ≠ id := by
    rintro found hfound halias rfl
    rw [hn, Option.some.injEq] at hfound
    simp [← hfound, hfixed] at halias
  cases h with
  | fixed => exact hn
  | counted get aliasable =>
    rw [Session.counted, modifyNode, Arena.get?_modify_of_ne (hne get aliasable)]
    exact hn
  | bound get aliasable second bound =>
    cases bound with
    | capture | declare =>
      rw [Arena.get?_modify_of_ne (hne get aliasable), Session.counted, modifyNode,
        Arena.get?_modify_of_ne (hne get aliasable)]
      exact hn

/-- A node that has a name keeps it. -/
theorem Step.named (h : Step s effects t) (hs : s.LifeCycle) {name : String}
    (hname : s.arena.standing? id = some (.named name)) :
    t.arena.standing? id = some (.named name) := by
  obtain ⟨node, hn, hstanding⟩ := Arena.exists_of_standing? hname
  have hfixed := (hs.nodes id node hn).named name hstanding
  rw [← hstanding]
  cases h with
  | add added => exact Arena.standing?_of_get? (added.grown.get?_of_get? hn)
  | parts =>
    rw [standing?_setComponents]
    exact Arena.standing?_of_get? hn
  | use used => exact Arena.standing?_of_get? (used.get?_of_fixed hn hfixed)
  | store => exact Arena.standing?_of_get? (get?_storing_of_fixed hn hfixed)
  | merge length => exact Arena.standing?_of_get? ((grown_addMerged _ _ length).get?_of_get? hn)

theorem LifeCycle.bindings_storing (h : s.LifeCycle) (output : NodeId) (place e : Expr) :
    (s.storing output place e).arena.bindings = s.arena.bindings := by
  refine Arena.bindings_eq (Arena.size_modify ..) (Arena.isLeaf_eq (kind?_storing ..))
    fun id name => ⟨named_of_storing, fun hst => ?_⟩
  obtain ⟨node, hn, hstanding⟩ := Arena.exists_of_standing? hst
  have hfixed := (h.nodes id node hn).named name hstanding
  exact hstanding ▸ Arena.standing?_of_get? (get?_storing_of_fixed hn hfixed)

/-- A node that has no name yet and is bound joins the bound nodes. -/
theorem LifeCycle.bindings_bound (h : s.LifeCycle) {node : Node}
    (hn : s.arena.get? id = some node) (halias : node.aliasable = true) (name : String) :
    ((s.counted id).arena.modify id (Node.bound name)).bindings.Perm
      ((id, name) :: s.arena.bindings) := by
  have hleaf : s.arena.isLeaf id = false := by
    simp [Arena.isLeaf, Arena.kind?_of_get? hn, (h.nodes id node hn).not_leaf halias]
  have hstanding := standing?_bound (get?_counted s hn) name
  rw [standing?_counted] at hstanding
  have hkind : ((s.counted id).arena.modify id (Node.bound name)).kind? = s.arena.kind? :=
    (kind?_bound name).trans (kind?_counted s id)
  refine Arena.bindings_perm hn ?_ (by simp [Session.counted, modifyNode]) ?_
  · rw [Option.eq_none_iff_forall_ne_some]
    intro p hp
    obtain ⟨-, hnamed, -⟩ := Arena.binding?_eq_some.1 hp
    rw [Arena.standing?_of_get? hn, Option.some.injEq] at hnamed
    exact (h.nodes id node hn).not_named halias p.2 hnamed
  · funext other
    by_cases heq : other = id
    · subst heq
      rw [Function.update_self, Arena.binding?_eq_some, hstanding, Arena.isLeaf_eq hkind]
      exact ⟨rfl, by simp, hleaf⟩
    · rw [Function.update_of_ne heq, Arena.binding?, Arena.binding?, hstanding,
        Function.update_of_ne heq, Arena.isLeaf_eq hkind]

end Bindings

section Writing

/-- The names in a new statement are those that nodes have, or those in the statement before which it
is put. -/
def Renders (s : Session) (new : Statement) (later : List Statement) : Prop :=
  later = [] ∧ (∀ p ∈ new.names, s.arena.standing? p.1 = some (.named p.2)) ∨
    ∃ st rest, later = st :: rest ∧ new.names ⊆ st.names

/-- What a step does to the statements and to the names that the session introduced; `merges` are the
nodes that it adds for merged values. -/
inductive Writes (s : Session) : List (NodeId × String) → Session → Prop
  | nothing {t : Session} (schedule : t.schedule = s.schedule)
      (bindings : t.arena.bindings = s.arena.bindings) : Writes s [] t
  | store {t : Session} {earlier later : List Statement} {new : Statement}
      (inserted : s.schedule.Inserted t.schedule earlier new later) (renders : s.Renders new later)
      (undeclared : new.declared? = none) (bindings : t.arena.bindings = s.arena.bindings) :
      Writes s [] t
  | declaration {merges : List (NodeId × String)} {t : Session} {earlier later : List Statement}
      {new : Statement} {name : String} (id : NodeId)
      (inserted : s.schedule.Inserted t.schedule earlier new later) (renders : s.Renders new later)
      (declared : new.declared? = some name)
      (unnamed : ∀ text, s.arena.standing? id ≠ some (.named text))
      (merged : ∀ p ∈ merges, t.arena.standing? p.1 = some (.named p.2))
      (bindings : (t.arena.bindings ++ merges).Perm ((id, name) :: s.arena.bindings)) :
      Writes s merges t

theorem Bound.writes {node : Node} (h : Bound (s.counted id) id t) (hs : s.WellFormed)
    (hlife : s.LifeCycle) (hn : s.arena.get? id = some node) (halias : node.aliasable = true) :
    Writes s [] t := by
  have hunnamed : ∀ text, s.arena.standing? id ≠ some (.named text) := by
    intro text hst
    rw [Arena.standing?_of_get? hn, Option.some.injEq] at hst
    exact (hlife.nodes id node hn).not_named halias text hst
  have hbindings := hlife.bindings_bound hn halias
  cases h with
  | @capture _ _ _ name _ _ _ _ _ capture =>
    -- the value of a capture is the left side of the store before which it stands
    obtain ⟨earlier, overwritten, later, -, hinserted⟩ := Schedule.inserted_capture capture
    refine .declaration id hinserted (.inr ⟨overwritten, later, rfl, ?_⟩) rfl
      hunnamed (by simp) (by simpa using hbindings name)
    exact List.subset_append_left ..
  | @declare _ name _ _ _ _ _ _ written =>
    obtain ⟨hcounted, -⟩ := hs.counted hn halias
    refine .declaration id (Schedule.inserted_push ..) (.inl ⟨rfl, fun p hp => ?_⟩) rfl
      hunnamed (by simp) (by simpa using hbindings name)
    have hnamed := hcounted.arena.standing?_of_names written p hp
    rwa [standing?_counted] at hnamed

theorem WellFormed.standing?_of_phiValue (hs : s.WellFormed) {test : Comparison}
    {success failure : NodeId} {value : Phrase}
    (hknown : ∀ id ∈ [test.left, test.right, success, failure], s.arena.contains id = true)
    (h : s.phiValue test success failure = .ok value) :
    ∀ p ∈ value.names, s.arena.standing? p.1 = some (.named p.2) := by
  obtain ⟨l, r, y, n, hl, hr, hy, hn, hvalue⟩ := Builder.phiValue_eq_ok hs hknown
  rw [h, Except.ok.injEq] at hvalue
  subst hvalue
  intro p hp
  simp only [Phrase.names, List.mem_append] at hp
  rcases hp with ((hp | hp) | hp) | hp
  · exact hs.arena.standing?_of_names hl p hp
  · exact hs.arena.standing?_of_names hr p hp
  · exact hs.arena.standing?_of_names hy p hp
  · exact hs.arena.standing?_of_names hn p hp

theorem Step.writes (h : Step s effects t) (hs : s.WellFormed) (hlife : s.LifeCycle) :
    Writes s (effects.filterMap Effect.merge?) t := by
  cases h with
  | add added => exact .nothing added.grown.schedule added.grown.bindings_eq
  | parts get parts => exact .nothing rfl (bindings_setComponents _ get parts)
  | use used =>
    cases used with
    | fixed => exact .nothing rfl rfl
    | counted => exact .nothing rfl (bindings_counted ..)
    | bound get aliasable second bound => exact bound.writes hs hlife get aliasable
  | store target written =>
    refine .store (Schedule.inserted_push ..) (.inl ⟨rfl, fun p hp => ?_⟩) rfl
      (hlife.bindings_storing ..)
    rcases List.mem_append.1 hp with hp | hp
    · exact hs.arena.standing?_of_target target p hp
    · exact hs.arena.standing?_of_names written p hp
  | @merge test success failure _ name names value length known allocate written =>
    have hgrown := grown_addMerged (s.merging names name value) name length
    have hinserted : s.schedule.Inserted (s.merging names name value).schedule _ _ _ :=
      Schedule.inserted_push s.schedule (.declare name none) value
    rw [← hgrown.schedule] at hinserted
    obtain ⟨-, node, hnode, hname⟩ := get?_addMerged (s.merging names name value) name length
    refine .declaration ⟨s.arena.size⟩ hinserted
      (.inl ⟨rfl, hs.standing?_of_phiValue known written⟩) rfl (by simp [Arena.standing?_size]) ?_ ?_
    · intro p hp
      obtain rfl : p = (⟨s.arena.size⟩, name) := by simpa [Effect.merge?] using hp
      exact hname ▸ Arena.standing?_of_get? hnode
    · rw [hgrown.bindings_eq]
      exact List.perm_append_singleton ..

end Writing

section Declarations

/-- Every name that the session introduced is declared by a statement that `home` gives for its node,
every declaration is one of these, and the names in a statement are declared before it. -/
structure Declared (s : Session) (merges : List (NodeId × String)) (home : NodeId → StatementId) :
    Prop where
  merged : ∀ p ∈ merges, s.arena.standing? p.1 = some (.named p.2)
  written : ∀ st ∈ s.schedule.statements, ∀ p ∈ st.names,
    s.arena.standing? p.1 = some (.named p.2)
  perm : s.schedule.declarations.Perm
    ((s.arena.bindings ++ merges).map fun p => (home p.1, p.2))
  before : ∀ earlier st later, s.schedule.statements = earlier ++ st :: later →
    ∀ p ∈ st.names, p ∈ s.arena.bindings ++ merges →
      ∃ d ∈ earlier, d.binding? = some (home p.1, p.2)

theorem Declared.named (h : s.Declared merges home) {p : NodeId × String}
    (hp : p ∈ s.arena.bindings ++ merges) : s.arena.standing? p.1 = some (.named p.2) := by
  rcases List.mem_append.1 hp with hp | hp
  · exact (Arena.mem_bindings.1 hp).1
  · exact h.merged p hp

theorem Declared.exists_declaration (h : s.Declared merges home) {p : NodeId × String}
    (hp : p ∈ s.arena.bindings ++ merges) :
    ∃ d ∈ s.schedule.statements, d.binding? = some (home p.1, p.2) :=
  List.mem_filterMap.1 (h.perm.mem_iff.2 (List.mem_map_of_mem hp))

theorem Renders.named {st : Statement} {earlier later : List Statement} (h : s.Renders st later)
    (hs : s.Declared merges home) (hbefore : s.schedule.statements = earlier ++ later) :
    ∀ p ∈ st.names, s.arena.standing? p.1 = some (.named p.2) := by
  rcases h with ⟨-, hnamed⟩ | ⟨old, rest, rfl, hsub⟩
  · exact hnamed
  · exact fun p hp => hs.written old (by simp [hbefore]) p (hsub hp)

/-- A new statement is put where all names in it are declared before it, and it moves no declaration
behind a statement. -/
theorem Declared.insert (h : s.Declared merges home) {st : Statement}
    {earlier later : List Statement} (hinserted : s.schedule.Inserted t.schedule earlier st later)
    (hrenders : s.Renders st later) {introduced : List (NodeId × String)}
    {next : NodeId → StatementId} (hold : ∀ p ∈ introduced,
      s.arena.standing? p.1 = some (.named p.2) →
        p ∈ s.arena.bindings ++ merges ∧ next p.1 = home p.1) :
    ∀ front found rest, t.schedule.statements = front ++ found :: rest →
      ∀ p ∈ found.names, p ∈ introduced → ∃ d ∈ front, d.binding? = some (next p.1, p.2) := by
  intro front found rest hsplit p hp hintroduced
  rcases hinserted.split hsplit with ⟨rfl, rfl⟩ | ⟨old, tail, hstatements, hsub⟩
  · obtain ⟨hmem, hnext⟩ :=
      hold p hintroduced (hrenders.named h hinserted.before p hp)
    rw [hnext]
    rcases hrenders with ⟨rfl, -⟩ | ⟨overwritten, later, rfl, hsub⟩
    · have hd := h.exists_declaration hmem
      rwa [hinserted.before, List.append_nil] at hd
    · exact h.before front overwritten later hinserted.before p (hsub hp) hmem
  · obtain ⟨hmem, hnext⟩ := hold p hintroduced (h.written found (by simp [hstatements]) p hp)
    obtain ⟨d, hd, hbinding⟩ := h.before old found tail hstatements p hp hmem
    exact ⟨d, hsub hd, hnext ▸ hbinding⟩

theorem Declared.written_insert (h : s.Declared merges home) {st : Statement}
    {earlier later : List Statement} (hinserted : s.schedule.Inserted t.schedule earlier st later)
    (hrenders : s.Renders st later)
    (hkept : ∀ id name, s.arena.standing? id = some (.named name) →
      t.arena.standing? id = some (.named name)) :
    ∀ found ∈ t.schedule.statements, ∀ p ∈ found.names,
      t.arena.standing? p.1 = some (.named p.2) := by
  intro found hfound p hp
  refine hkept p.1 p.2 ?_
  rcases hinserted.mem_iff.1 hfound with rfl | hfound
  · exact hrenders.named h hinserted.before p hp
  · exact h.written found hfound p hp

theorem Writes.declared (h : Writes s new t) (hs : s.Declared merges home)
    (hkept : ∀ id name, s.arena.standing? id = some (.named name) →
      t.arena.standing? id = some (.named name)) :
    ∃ next, t.Declared (merges ++ new) next := by
  have hmerged : ∀ p ∈ merges, t.arena.standing? p.1 = some (.named p.2) :=
    fun p hp => hkept p.1 p.2 (hs.merged p hp)
  cases h with
  | nothing schedule bindings =>
    refine ⟨home, ?_⟩
    rw [List.append_nil]
    refine ⟨hmerged, ?_, ?_, ?_⟩
    · rw [schedule]
      exact fun st hst p hp => hkept p.1 p.2 (hs.written st hst p hp)
    · rw [schedule, bindings]
      exact hs.perm
    · rw [schedule, bindings]
      exact hs.before
  | store inserted renders undeclared bindings =>
    refine ⟨home, ?_⟩
    rw [List.append_nil]
    refine ⟨hmerged, hs.written_insert inserted renders hkept, ?_, ?_⟩
    · have hperm := inserted.declarations_perm
      rw [Statement.binding?, undeclared] at hperm
      rw [bindings]
      exact hperm.trans hs.perm
    · rw [bindings]
      exact hs.insert inserted renders fun p hp _ => ⟨hp, rfl⟩
  | @declaration _ _ earlier later st name id inserted renders declared unnamed merged bindings =>
    have hne : ∀ p ∈ s.arena.bindings ++ merges, p.1 ≠ id := by
      rintro p hp rfl
      exact unnamed p.2 (hs.named hp)
    have hall : (t.arena.bindings ++ (merges ++ new)).Perm
        ((id, name) :: (s.arena.bindings ++ merges)) := by
      refine (List.perm_append_comm.append_left t.arena.bindings).trans ?_
      rw [← List.append_assoc, ← List.cons_append]
      exact bindings.append_right merges
    -- a node without a name stands in no statement so far, so its declaration may be any new one
    refine ⟨Function.update home id ⟨s.schedule.nextId⟩, ?_, ?_, ?_, ?_⟩
    · intro p hp
      rcases List.mem_append.1 hp with hp | hp
      · exact hmerged p hp
      · exact merged p hp
    · exact hs.written_insert inserted renders hkept
    · have hperm := inserted.declarations_perm
      rw [Statement.binding?_eq_some.2 ⟨inserted.number, declared⟩] at hperm
      refine hperm.trans (.trans ?_ (hall.map _).symm)
      rw [List.map_cons, Function.update_self]
      refine .cons _ (hs.perm.trans (.of_eq (List.map_congr_left fun p hp => ?_)))
      rw [Function.update_of_ne (hne p hp)]
    · refine hs.insert inserted renders fun p hp hnamed => ?_
      rcases List.mem_cons.1 (hall.mem_iff.1 hp) with rfl | hp
      · exact absurd hnamed (unnamed _)
      · exact ⟨hp, Function.update_of_ne (hne p hp) ..⟩

theorem declared_of_new {settings : Settings} (h : Session.new settings = .ok s) :
    s.Declared [] home := by
  obtain rfl := eq_of_new h
  refine ⟨?_, ?_, ?_, ?_⟩
  all_goals simp [Schedule.declarations, Arena.bindings, Arena.ids, Arena.size]

theorem Steps.declared {s₀ : Session} {settings : Settings} (h₀ : Session.new settings = .ok s₀)
    (h : Steps s₀ effects s) : s.WellFormed ∧ (s.LifeCycle ∧ s.schedule.Numbered) ∧
      ∃ home, s.Declared (effects.filterMap Effect.merge?) home := by
  refine h.invariant (fun effects s => (s.LifeCycle ∧ s.schedule.Numbered) ∧
    ∃ home, s.Declared (effects.filterMap Effect.merge?) home) (wellFormed_of_new h₀)
    ⟨lifeCycle_of_new h₀, fun _ => ⟨0⟩, declared_of_new h₀⟩ ?_
  intro past more s t hs ⟨⟨hlife, hnumbered⟩, home, hdeclared⟩ hstep
  rw [List.filterMap_append]
  exact ⟨⟨hstep.lifeCycle hlife hnumbered, hstep.numbered hnumbered⟩,
    (hstep.writes hs hlife).declared hdeclared fun _ _ => hstep.named hlife⟩

/-- Different nodes have their names from different declarations. -/
theorem Declared.eq_of_home (h : s.Declared merges home) (hs : s.schedule.Numbered)
    {p q : NodeId × String} (hp : p ∈ s.arena.bindings ++ merges)
    (hq : q ∈ s.arena.bindings ++ merges) (heq : home p.1 = home q.1) : p = q := by
  have hnodup := (h.perm.map Prod.fst).nodup_iff.1 hs.declarations_nodup
  rw [List.map_map] at hnodup
  exact List.inj_on_of_nodup_map hnodup hp hq heq

theorem Declared.mem (h : s.Declared merges home) {p : NodeId × String}
    (hnamed : s.arena.standing? p.1 = some (.named p.2))
    (hp : s.arena.isLeaf p.1 = false ∨ ∃ name, (p.1, name) ∈ merges) :
    p ∈ s.arena.bindings ++ merges := by
  rcases hp with hleaf | ⟨name, hmem⟩
  · exact List.mem_append_left _ (Arena.mem_bindings.2 ⟨hnamed, hleaf⟩)
  · have hname := h.merged _ hmem
    rw [hnamed, Option.some.injEq, Standing.named.injEq] at hname
    have hpair : (p.1, name) = p := Prod.ext rfl hname.symm
    exact List.mem_append_right _ (hpair ▸ hmem)

end Declarations

end Session

namespace Event

theorem filterMap_effects (e : Event) : e.effects.filterMap Effect.merge? = e.merged?.toList := by
  have hsources : (e.sources.map Effect.used).filterMap Effect.merge? = [] := by
    simp [Effect.merge?]
  obtain ⟨before, call, result, after⟩ := e
  cases call with
  | assign target source =>
    simp [effects, merged?, Session.storeEffects, List.filterMap_flatMap, Effect.merge?]
  | phi test success failure name =>
    rw [effects, List.filterMap_append, hsources]
    cases result <;> simp [merged?, Effect.merge?]
  | _ =>
    rw [effects, List.filterMap_append, hsources]
    simp [merged?]

theorem filterMap_flatMap_effects (events : List Event) :
    (events.flatMap effects).filterMap Effect.merge? = events.filterMap merged? := by
  rw [List.filterMap_flatMap, List.filterMap_eq_flatMap_toList]
  exact List.flatMap_congr fun e _ => e.filterMap_effects

end Event

namespace Session

/-- Whether a session gave a node its name: it is no leaf, or it was added by a merge. -/
def Introduced (s : Session) (events : List Event) (id : NodeId) : Prop :=
  s.arena.isLeaf id = false ∨ ∃ e ∈ events, ∃ name, e.merged? = some (id, name)

/-- Where `home` is the number of the declaration of a node's name: it is the declaration of no other
node, it stands before every statement in which the name is written, and it is in the list if the name
is written in a node. -/
structure DeclaresBeforeUse (s : Session) (introduced : NodeId → Prop)
    (home : NodeId → StatementId) : Prop where
  single : ∀ id other name text, introduced id → introduced other →
    s.arena.standing? id = some (.named name) → s.arena.standing? other = some (.named text) →
    home id = home other → id = other
  statements : ∀ earlier st later, s.schedule.statements = earlier ++ st :: later →
    ∀ p ∈ st.names, introduced p.1 → ∃ d ∈ earlier, d.id = home p.1 ∧ d.declared? = some p.2
  nodes : ∀ id e, s.arena.expr? id = some e → ∀ p ∈ e.names, introduced p.1 →
    ∃ d ∈ s.schedule.statements, d.id = home p.1 ∧ d.declared? = some p.2

/-- In every session that requests lead to, the names that the session introduced are declared before
they are used. -/
theorem names_are_declared_before_use {s₀ : Session} {settings : Settings}
    (h₀ : Session.new settings = .ok s₀) (calls : List Call) :
    ∃ home, (s₀.run calls).DeclaresBeforeUse
      ((s₀.run calls).Introduced (s₀.events calls)) home := by
  have hsteps := (history_of_new h₀ calls).steps (wellFormed_of_new h₀)
  obtain ⟨hs, ⟨-, hnumbered⟩, home, hdeclared⟩ := hsteps.declared h₀
  rw [Event.filterMap_flatMap_effects] at hdeclared
  have hmem : ∀ p : NodeId × String, (s₀.run calls).arena.standing? p.1 = some (.named p.2) →
      (s₀.run calls).Introduced (s₀.events calls) p.1 →
      p ∈ (s₀.run calls).arena.bindings ++ (s₀.events calls).filterMap Event.merged? := by
    intro p hnamed hp
    refine hdeclared.mem hnamed (hp.imp_right ?_)
    rintro ⟨e, he, name, hname⟩
    exact ⟨name, List.mem_filterMap.2 ⟨e, he, hname⟩⟩
  refine ⟨home, ?_, ?_, ?_⟩
  · intro id other name text hid hother hname htext heq
    have hpair := hdeclared.eq_of_home hnumbered (hmem (id, name) hname hid)
      (hmem (other, text) htext hother) heq
    exact congrArg Prod.fst hpair
  · intro earlier st later hsplit p hp hintroduced
    have hnamed := hdeclared.written st (by simp [hsplit]) p hp
    obtain ⟨d, hd, hbinding⟩ :=
      hdeclared.before earlier st later hsplit p hp (hmem p hnamed hintroduced)
    exact ⟨d, hd, Statement.binding?_eq_some.1 hbinding⟩
  · intro id e he p hp hintroduced
    have hnamed := hs.arena.standing?_of_names he p hp
    obtain ⟨d, hd, hbinding⟩ := hdeclared.exists_declaration (hmem p hnamed hintroduced)
    exact ⟨d, hd, Statement.binding?_eq_some.1 hbinding⟩

theorem names_are_declared_before_use_of_capture :
    let calls : List Call := [.vector (.length 1) "v", .phi ⟨⟨1⟩, "<", ⟨1⟩⟩ ⟨0⟩ ⟨0⟩ none,
      .assign ⟨2⟩ ⟨0⟩, .output ⟨3⟩]
    let s := ({ settings := {} } : Session).run calls
    s.schedule.statements.map Statement.names = [[(⟨0⟩, "v")],
        [(⟨1⟩, "vx"), (⟨1⟩, "vx"), (⟨0⟩, "v"), (⟨0⟩, "v")], [(⟨2⟩, "phi")],
        [(⟨2⟩, "phi"), (⟨1⟩, "vx")]] ∧
      ∃ d ∈ s.schedule.statements.take 2, d.declared? = some "phi" := by
  intro calls s
  have h₀ : Session.new {} = .ok { settings := {} } := rfl
  obtain ⟨home, hhome⟩ := names_are_declared_before_use h₀ calls
  have hthird : s.schedule.statements[2]?.map Statement.names = some [(⟨2⟩, "phi")] := by
    decide +kernel
  obtain ⟨st, hst, hnames⟩ := Option.map_eq_some_iff.1 hthird
  obtain ⟨_, hst⟩ := List.getElem?_eq_some_iff.1 hst
  have hsplit : s.schedule.statements =
      s.schedule.statements.take 2 ++ st :: s.schedule.statements.drop 3 := by
    rw [← hst, List.getElem_cons_drop, List.take_append_drop]
  have hmerged : (⟨2⟩, "phi") ∈
      (({ settings := {} } : Session).events calls).filterMap Event.merged? := by decide +kernel
  obtain ⟨e, he, hname⟩ := List.mem_filterMap.1 hmerged
  obtain ⟨d, hd, -, hdeclared⟩ :=
    hhome.statements _ st _ hsplit (⟨2⟩, "phi") (by simp [hnames]) (.inr ⟨e, he, "phi", hname⟩)
  exact ⟨by decide +kernel, d, hd, hdeclared⟩

end Session

end StraightLine
