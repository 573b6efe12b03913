import StraightLine.Proofs.Performed
import Mathlib.Logic.Function.Basic

/-! # Kinds and standings of nodes

What later statements say of a graph, they say of the kinds of its nodes and of how these are written.
Each change of a session is described here by its effect on the two. -/
namespace StraightLine

namespace Arena

def kind? (a : Arena) (id : NodeId) : Option Kind := (a.get? id).map Node.kind

def standing? (a : Arena) (id : NodeId) : Option Standing := (a.get? id).map Node.standing

variable {a b : Arena} {id other : NodeId} {node : Node}

theorem kind?_of_get? (h : a.get? id = some node) : a.kind? id = some node.kind := by
  simp [kind?, h]

theorem standing?_of_get? (h : a.get? id = some node) : a.standing? id = some node.standing := by
  simp [standing?, h]

theorem exists_of_kind? {kind : Kind} (h : a.kind? id = some kind) :
    ∃ node, a.get? id = some node ∧ node.kind = kind := Option.map_eq_some_iff.1 h

theorem exists_of_standing? {standing : Standing} (h : a.standing? id = some standing) :
    ∃ node, a.get? id = some node ∧ node.standing = standing := Option.map_eq_some_iff.1 h

theorem Extends.kind? {kind : Kind} (h : a.Extends b) (hk : a.kind? id = some kind) :
    b.kind? id = some kind := by
  obtain ⟨node, hn, rfl⟩ := exists_of_kind? hk
  obtain ⟨next, hnext, hkind⟩ := h.kind_eq id node hn
  rw [kind?_of_get? hnext, hkind]

theorem SameKinds.kind?_eq (h : a.SameKinds b) : b.kind? = a.kind? := by
  funext id
  cases hk : a.kind? id with
  | some kind => exact h.toExtends.kind? hk
  | none =>
    cases hb : b.kind? id with
    | none => rfl
    | some kind =>
      obtain ⟨node, hn, -⟩ := exists_of_kind? hb
      obtain ⟨old, hold, -⟩ := h.get?_left hn
      rw [kind?_of_get? hold] at hk
      cases hk

theorem get?_modify_of_ne {f : Node → Node} (h : other ≠ id) :
    (a.modify id f).get? other = a.get? other := by
  have hne : other.index ≠ id.index := fun hi => h (by cases other; cases id; simp_all)
  rw [get?_modify, if_neg hne]

theorem standing?_modify_of_ne {f : Node → Node} (h : other ≠ id) :
    (a.modify id f).standing? other = a.standing? other := by
  rw [standing?, get?_modify_of_ne h, standing?]

theorem standing?_modify_self {f : Node → Node} (h : a.get? id = some node) :
    (a.modify id f).standing? id = some (f node).standing := by
  simp [standing?, get?_modify, h]

/-- A change of one node that leaves its standing. -/
theorem standing?_modify_same {f : Node → Node} (hf : ∀ node, (f node).standing = node.standing) :
    (a.modify id f).standing? = a.standing? := by
  funext other
  by_cases h : other = id
  · subst h
    cases hn : a.get? other with
    | none => simp [standing?, get?_modify, hn]
    | some node => rw [standing?_modify_self hn, standing?_of_get? hn, hf]
  · exact standing?_modify_of_ne h

theorem kind?_modify_same {f : Node → Node} (hf : ∀ node, (f node).kind = node.kind) :
    (a.modify id f).kind? = a.kind? := by
  funext other
  rw [kind?, get?_modify, kind?]
  split
  · cases a.get? other <;> simp [hf]
  · rfl

theorem kind?_register (a : Arena) (node : Node) :
    (a.register node).2.kind? = Function.update a.kind? ⟨a.size⟩ (some node.kind) := by
  funext id
  by_cases h : id = ⟨a.size⟩
  · subst h
    simp [kind?, get?_register]
  · have hne : id.index ≠ a.size := fun hi => h (by cases id; simp_all)
    rw [kind?, get?_register, if_neg hne, Function.update_of_ne h, kind?]

theorem standing?_register (a : Arena) (node : Node) :
    (a.register node).2.standing? = Function.update a.standing? ⟨a.size⟩ (some node.standing) := by
  funext id
  by_cases h : id = ⟨a.size⟩
  · subst h
    simp [standing?, get?_register]
  · have hne : id.index ≠ a.size := fun hi => h (by cases id; simp_all)
    rw [standing?, get?_register, if_neg hne, Function.update_of_ne h, standing?]

theorem get?_size (a : Arena) : a.get? ⟨a.size⟩ = none := by
  cases h : a.get? ⟨a.size⟩ with
  | none => rfl
  | some node => exact absurd (index_lt_of_get? h) (by simp)

theorem kind?_size (a : Arena) : a.kind? ⟨a.size⟩ = none := by simp [kind?, get?_size]

theorem standing?_size (a : Arena) : a.standing? ⟨a.size⟩ = none := by simp [standing?, get?_size]

theorem ne_size_of_standing? {standing : Standing} (h : a.standing? id = some standing) :
    id ≠ ⟨a.size⟩ := by
  rintro rfl
  rw [standing?_size] at h
  cases h

section Fields

variable (name : String) (square aliasable : Bool) (n : Nat)

/-- A vector of fresh fields and its fields are the only new nodes. -/
theorem kind?_registerFields {kind : Kind}
    (h : (a.registerFields name square aliasable n).2.kind? id = some kind) :
    a.kind? id = some kind ∨
      (id = ⟨a.size⟩ ∧ kind = .vector ((List.range n).map fun i => ⟨a.size + 1 + i⟩) square) ∨
      ∃ i < n, id = ⟨a.size + 1 + i⟩ ∧ kind = .field ⟨a.size⟩ i := by
  obtain ⟨node, hn, rfl⟩ := exists_of_kind? h
  rcases registerFields_cases a name square aliasable n hn with hold | ⟨rfl, rfl⟩ | ⟨i, hi, rfl, rfl⟩
  · exact .inl (kind?_of_get? hold)
  · exact .inr (.inl ⟨rfl, rfl⟩)
  · exact .inr (.inr ⟨i, hi, rfl, rfl⟩)

end Fields

end Arena

namespace Session

variable {s t : Session} {id : NodeId}

@[simp] theorem kind?_counted (s : Session) (id : NodeId) :
    (s.counted id).arena.kind? = s.arena.kind? := Arena.kind?_modify_same fun _ => rfl

@[simp] theorem standing?_counted (s : Session) (id : NodeId) :
    (s.counted id).arena.standing? = s.arena.standing? := Arena.standing?_modify_same fun _ => rfl

/-- A node that is bound to a name is written as that name. -/
theorem standing?_bound {node : Node} (h : s.arena.get? id = some node) (name : String) :
    (s.arena.modify id (Node.bound name)).standing? =
      Function.update s.arena.standing? id (some (.named name)) := by
  funext other
  by_cases heq : other = id
  · subst heq
    rw [Arena.standing?_modify_self h, Function.update_self]
    rfl
  · rw [Arena.standing?_modify_of_ne heq, Function.update_of_ne heq]

theorem kind?_bound (name : String) : (s.arena.modify id (Node.bound name)).kind? = s.arena.kind? :=
  Arena.kind?_modify_same fun _ => rfl

theorem kind?_storing (s : Session) (output : NodeId) (place e : Expr) :
    (s.storing output place e).arena.kind? = s.arena.kind? := by
  refine Arena.kind?_modify_same fun node => ?_
  unfold Node.overwritten
  split <;> rfl

/-- A store changes the standing of the stored component only. -/
theorem standing?_storing {output other : NodeId} {place e : Expr} {standing : Standing}
    (h : (s.storing output place e).arena.standing? other = some standing) :
    s.arena.standing? other = some standing ∨
      other = output ∧ standing = .stored ⟨s.schedule.nextId⟩ := by
  by_cases heq : other = output
  · subst heq
    obtain ⟨node, hn, rfl⟩ := Arena.exists_of_standing? h
    simp only [storing, modifyNode, push, Arena.get?_modify, if_true, Option.map_eq_some_iff] at hn
    obtain ⟨old, hold, rfl⟩ := hn
    unfold Node.overwritten
    split
    · exact .inr ⟨rfl, rfl⟩
    · exact .inl (Arena.standing?_of_get? hold)
  · left
    rw [← h]
    exact (Arena.standing?_modify_of_ne heq).symm

theorem standing?_storing_named {output other : NodeId} {place e : Expr} {name : String}
    (hs : s.WellFormed) (h : s.arena.standing? other = some (.named name))
    (hleaf : ∃ kind, s.arena.kind? other = some kind ∧ kind.isLeaf = true) :
    (s.storing output place e).arena.standing? other = some (.named name) := by
  by_cases heq : other = output
  · subst heq
    obtain ⟨node, hn, hstanding⟩ := Arena.exists_of_standing? h
    obtain ⟨kind, hk, hl⟩ := hleaf
    rw [Arena.kind?_of_get? hn, Option.some.injEq] at hk
    have hfixed := hs.leaves other node hn (hk ▸ hl)
    have hself := Arena.standing?_modify_self (f := Node.overwritten ⟨s.schedule.nextId⟩) hn
    rw [Node.overwritten, if_neg (by simp [hfixed]), hstanding] at hself
    exact hself
  · rw [← h]
    exact Arena.standing?_modify_of_ne heq

@[simp] theorem standing?_setComponents (s : Session) (id : NodeId) (cs : List NodeId) :
    (s.setComponents id cs).arena.standing? = s.arena.standing? := by
  refine Arena.standing?_modify_same fun node => ?_
  unfold Node.withComponents
  split <;> rfl

/-- Only the node that gets its parts changes its kind, and it has parts before and after. -/
theorem kind?_setComponents {parts : String × List NodeId} {kind : Kind} (cs : List NodeId)
    (hk : s.arena.kind? id = some kind) (hp : kind.parts? = some parts) :
    ∃ kind', kind'.parts? = some (parts.1, cs) ∧ kind'.identity? = kind.identity? ∧
      (s.setComponents id cs).arena.kind? = Function.update s.arena.kind? id (some kind') := by
  obtain ⟨node, hn, rfl⟩ := Arena.exists_of_kind? hk
  refine ⟨(node.withComponents cs).kind, ?_, node.identity?_withComponents cs, ?_⟩
  · obtain ⟨operation, old⟩ := parts
    cases hkind : node.kind <;> simp_all [Node.withComponents, Kind.parts?]
  · funext other
    by_cases heq : other = id
    · subst heq
      rw [Function.update_self, Arena.kind?, setComponents, Arena.setComponents, Arena.get?_modify,
        if_pos rfl, hn]
      rfl
    · rw [Function.update_of_ne heq, Arena.kind?, get?_setComponents_of_ne heq, Arena.kind?]

end Session

end StraightLine
