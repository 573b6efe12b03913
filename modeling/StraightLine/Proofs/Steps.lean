import StraightLine.Proofs.Bookkeeping
import StraightLine.Proofs.Columns

/-! # Requests step by step

A request that goes through adds nodes, gives a node its parts, counts uses one after the other, stores
into components and declares merged values. What each of these steps keeps, every run keeps, and it
holds in the midst of a request as well. A run leaves a record of the nodes that were used, stored into
and added by merges. -/
namespace StraightLine

inductive Effect where
  | used (node : NodeId)
  | stored (node : NodeId)
  /-- A node was added for a merged value that is declared under a name. -/
  | merged (node : NodeId) (name : String)
deriving Repr, DecidableEq

def Kind.isAliasable (settings : Settings) : Kind → Bool
  | .scalar | .vector .. => false
  | .field .. => settings.aliasFields
  | .apply .. | .reduction .. | .mapping .. => true

theorem Kind.not_isLeaf_of_isAliasable {settings : Settings} {kind : Kind}
    (h : kind.isAliasable settings = true) : kind.isLeaf = false := by
  cases kind <;> simp_all [isAliasable, isLeaf]

/-- A node as it is when it is added: leaves have names, and all other nodes are written out. -/
structure Node.Fresh (settings : Settings) (node : Node) : Prop where
  uses : node.uses = 0
  aliasable : node.aliasable = node.kind.isAliasable settings
  leaf : node.kind.isLeaf = true → ∃ name, node.standing = .named name
  inline : node.kind.isLeaf = false → node.standing = .inline

theorem Arena.nodes_registerFields (a : Arena) (name : String) (square aliasable : Bool) (n : Nat) :
    (a.registerFields name square aliasable n).2.nodes = a.nodes ++
      (⟨.vector ((List.range n).map fun i => ⟨a.size + 1 + i⟩) square, .named name, false, 0⟩ ::
        (List.range n).map fun i => ⟨.field ⟨a.size⟩ i, .inline, aliasable, 0⟩ :
          List Node).toArray := by
  simp [registerFields, register, ← List.toArray_range]

namespace Session

/-- Nodes are added behind the others, and nothing else is changed but the names. -/
structure Grown (s t : Session) : Prop where
  settings : t.settings = s.settings
  schedule : t.schedule = s.schedule
  nodes : ∃ new : List Node, t.arena.nodes = s.arena.nodes ++ new.toArray ∧
    ∀ node ∈ new, node.Fresh s.settings

/-- Changes that add nodes, or offer a name for reuse. -/
inductive Addition (s : Session) : Session → Prop
  | scalar (name : String) : Addition s (s.addScalar name).2
  | vector {shape : Shape} (name : String) (square : Bool)
      (known : ∀ cs, shape = .components cs → ∀ c ∈ cs, s.arena.contains c = true) :
      Addition s (s.addVector shape name square).2
  | intern {key : Identity} (requestable : s.Requestable key) : Addition s (s.intern key).2
  | recycle (name : String) : Addition s { s with names := s.names.recycle name }

/-- One step of a request, with its effect. -/
inductive Step (s : Session) : List Effect → Session → Prop
  | add {t : Session} (added : Addition s t) : Step s [] t
  | parts {id : NodeId} {node : Node} {operation : String} {old cs : List NodeId}
      (get : s.arena.get? id = some node) (parts : node.kind.parts? = some (operation, old))
      (columns : ∀ c ∈ cs, ∃ part column, s.arena.get? c = some part ∧
        part.kind = .apply operation column ∧ ∀ o ∈ column, o.index < id.index) :
      Step s [] (s.setComponents id cs)
  | use {id : NodeId} {t : Session} (used : Used s id t) : Step s [.used id] t
  | store {output input : NodeId} {place e : Expr} (target : s.arena.target? output = some place)
      (written : s.arena.expr? input = some e) :
      Step s [.stored output] (s.storing output place e)
  | merge {test : Comparison} {success failure : NodeId} {wanted : Option String} {name : String}
      {names : Names} {value : Phrase} (length : Option Nat)
      (known : ∀ id ∈ [test.left, test.right, success, failure], s.arena.contains id = true)
      (allocate : s.names.allocatePhi wanted = (name, names))
      (written : s.phiValue test success failure = .ok value) :
      Step s [.merged ⟨s.arena.size⟩ name] ((s.merging names name value).addMerged name length).2

inductive Steps (s : Session) : List Effect → Session → Prop
  | refl : Steps s [] s
  | snoc {effects more : List Effect} {t u : Session} (past : Steps s effects t)
      (last : Step t more u) : Steps s (effects ++ more) u

variable {s t u : Session} {effects more : List Effect} {id : NodeId} {node : Node}

section Growth

theorem Grown.get?_of_get? (h : s.Grown t) (hn : s.arena.get? id = some node) :
    t.arena.get? id = some node := by
  obtain ⟨new, hnodes, -⟩ := h.nodes
  have hlt := Arena.index_lt_of_get? hn
  rw [Arena.get?, hnodes, Array.getElem?_append_left hlt]
  exact hn

theorem Grown.cases (h : s.Grown t) (hn : t.arena.get? id = some node) :
    s.arena.get? id = some node ∨ s.arena.size ≤ id.index ∧ node.Fresh s.settings := by
  obtain ⟨new, hnodes, hfresh⟩ := h.nodes
  by_cases hlt : id.index < s.arena.size
  · rw [Arena.get?, hnodes, Array.getElem?_append_left hlt] at hn
    exact .inl hn
  · have hle : s.arena.nodes.size ≤ id.index := Nat.le_of_not_lt hlt
    rw [Arena.get?, hnodes, Array.getElem?_append_right hle, List.getElem?_toArray] at hn
    exact .inr ⟨hle, hfresh node (List.mem_of_getElem? hn)⟩

theorem grown_register {new : Node} (h : new.Fresh s.settings)
    (harena : t.arena = (s.arena.register new).2) (hsettings : t.settings = s.settings)
    (hschedule : t.schedule = s.schedule) : s.Grown t := by
  refine ⟨hsettings, hschedule, [new], ?_, by simpa using h⟩
  rw [harena]
  simp [Arena.register]

theorem grown_addScalar (s : Session) (name : String) : s.Grown (s.addScalar name).2 :=
  grown_register ⟨rfl, rfl, fun _ => ⟨name, rfl⟩, by simp [Kind.isLeaf]⟩ rfl rfl rfl

theorem grown_addVector (s : Session) (shape : Shape) (name : String) (square : Bool) :
    s.Grown (s.addVector shape name square).2 := by
  cases shape with
  | components cs =>
    exact grown_register ⟨rfl, rfl, fun _ => ⟨name, rfl⟩, by simp [Kind.isLeaf]⟩ rfl rfl rfl
  | length n =>
    refine ⟨rfl, rfl, _, Arena.nodes_registerFields .., fun node hnode => ?_⟩
    rcases List.mem_cons.1 hnode with rfl | hfield
    · exact ⟨rfl, rfl, fun _ => ⟨name, rfl⟩, by simp [Kind.isLeaf]⟩
    · obtain ⟨i, -, rfl⟩ := List.mem_map.1 hfield
      exact ⟨rfl, rfl, by simp [Kind.isLeaf], fun _ => rfl⟩

theorem Requestable.fresh {key : Identity} (h : s.Requestable key) :
    (⟨key.kind [], .inline, true, 0⟩ : Node).Fresh s.settings := by
  refine ⟨rfl, ?_, fun hleaf => ?_, fun _ => rfl⟩
  · obtain ⟨tag, operation, operands⟩ := key
    cases tag <;> rfl
  · rw [h.not_leaf] at hleaf
    cases hleaf

theorem Requestable.grown {key : Identity} (h : s.Requestable key) : s.Grown (s.intern key).2 := by
  cases hf : s.identities.find? key with
  | some id =>
    rw [intern_known hf]
    exact ⟨rfl, rfl, [], by simp, by simp⟩
  | none =>
    rw [intern_fresh hf]
    exact grown_register h.fresh rfl rfl rfl

theorem Addition.grown (h : Addition s t) : s.Grown t := by
  cases h with
  | scalar name => exact grown_addScalar s name
  | vector name square known => exact grown_addVector s _ name square
  | intern requestable => exact requestable.grown
  | recycle name => exact ⟨rfl, rfl, [], by simp, by simp⟩

theorem Addition.wellFormed (h : Addition s t) (hs : s.WellFormed) : t.WellFormed := by
  cases h with
  | scalar name => exact hs.addScalar name
  | vector name square known => exact hs.addVector _ name square known
  | intern requestable => exact hs.intern requestable
  | recycle name => exact ⟨hs.arena, hs.leaves, hs.identities⟩

theorem grown_addMerged (s : Session) (name : String) (length : Option Nat) :
    s.Grown (s.addMerged name length).2 := by
  cases length with
  | none => exact grown_addScalar s name
  | some n => exact grown_addVector s (.length n) name false

/-- The node of a merged value has the declared name. -/
theorem get?_addMerged (s : Session) (name : String) (length : Option Nat) :
    (s.addMerged name length).1 = ⟨s.arena.size⟩ ∧
      ∃ node, (s.addMerged name length).2.arena.get? ⟨s.arena.size⟩ = some node ∧
        node.standing = .named name := by
  cases length with
  | none =>
    refine ⟨rfl, ⟨.scalar, .named name, false, 0⟩, ?_, rfl⟩
    simp [addMerged, Session.addScalar, Arena.get?_register]
  | some n => exact ⟨rfl, _, Arena.get?_registerFields_vector .., rfl⟩

end Growth

section Kept

theorem Bound.settings_eq (h : Bound s id t) : t.settings = s.settings := by
  cases h <;> rfl

theorem Used.settings_eq (h : Used s id t) : t.settings = s.settings := by
  cases h with
  | fixed | counted => rfl
  | bound get aliasable second bound => exact bound.settings_eq

/-- A use changes one node at most: the use is counted, and a second use may bind the node. -/
theorem Used.get?_cases (h : Used s id t) {other : NodeId} (hn : t.arena.get? other = some node) :
    s.arena.get? other = some node ∧ (other = id → node.aliasable = false) ∨
      other = id ∧ ∃ old, s.arena.get? id = some old ∧ old.aliasable = true ∧
      ((old.uses ≠ 1 ∨ s.mayBind old = false) ∧ node = { old with uses := old.uses + 1 } ∨
        old.uses = 1 ∧ ∃ name, node = Node.bound name { old with uses := old.uses + 1 }) := by
  cases h with
  | fixed get fixed =>
    refine .inl ⟨hn, fun heq => ?_⟩
    rw [heq, get, Option.some.injEq] at hn
    exact hn ▸ fixed
  | @counted old get aliasable kept =>
    by_cases heq : other = id
    · subst heq
      rw [get?_counted s get, Option.some.injEq] at hn
      exact .inr ⟨rfl, old, get, aliasable, .inl ⟨kept, hn.symm⟩⟩
    · rw [Session.counted, modifyNode, Arena.get?_modify_of_ne heq] at hn
      exact .inl ⟨hn, fun h => absurd h heq⟩
  | @bound old _ get aliasable second bound =>
    by_cases heq : other = id
    · subst heq
      refine .inr ⟨rfl, old, get, aliasable, .inr ⟨second, ?_⟩⟩
      cases bound with
      | capture | declare =>
        rw [Arena.get?_modify, if_pos rfl, get?_counted s get, Option.map_some,
          Option.some.injEq] at hn
        exact ⟨_, hn.symm⟩
    · refine .inl ⟨?_, fun h => absurd h heq⟩
      cases bound with
      | capture | declare =>
        rwa [Arena.get?_modify_of_ne heq, Session.counted, modifyNode,
          Arena.get?_modify_of_ne heq] at hn

theorem Step.settings_eq (h : Step s effects t) : t.settings = s.settings := by
  cases h with
  | add added => exact added.grown.settings
  | parts | store => rfl
  | use used => exact used.settings_eq
  | merge length => exact (grown_addMerged _ _ length).settings

theorem Step.wellFormed (h : Step s effects t) (hs : s.WellFormed) : t.WellFormed := by
  cases h with
  | add added => exact added.wellFormed hs
  | parts get parts columns => exact hs.setComponents get parts columns
  | use used => exact (used.wellFormed hs).1
  | @store output input place e target written =>
    exact (hs.storing (Arena.contains_of_target? target) place e).1
  | @merge _ _ _ _ name names value length =>
    exact (hs.merging names name value).addMerged name length

theorem Steps.trans (h : Steps s effects t) (h' : Steps t more u) :
    Steps s (effects ++ more) u := by
  induction h' with
  | refl => simpa using h
  | snoc past last ih =>
    rw [← List.append_assoc]
    exact .snoc ih last

theorem Step.steps (h : Step s effects t) : Steps s effects t := .snoc .refl h

/-- What holds at the start and is kept by every step holds after all steps. -/
theorem Steps.invariant (P : List Effect → Session → Prop) (h : Steps s effects t)
    (hs : s.WellFormed) (hstart : P [] s)
    (hstep : ∀ {past more : List Effect} {t u : Session}, t.WellFormed → P past t →
      Step t more u → P (past ++ more) u) : t.WellFormed ∧ P effects t := by
  induction h with
  | refl => exact ⟨hs, hstart⟩
  | snoc past last ih => exact ⟨last.wellFormed ih.1, hstep ih.1 ih.2 last⟩

end Kept

section Requests

theorem UsedAll.steps {ids : List NodeId} (h : UsedAll ids s t) :
    Steps s (ids.map .used) t := by
  induction h with
  | nil => exact .refl
  | cons head tail ih => exact (Step.use head).steps.trans ih

theorem AppliedAll.steps {operation : String} {columns : List (List NodeId)} {cs : List NodeId}
    (h : AppliedAll operation columns s cs t) (hs : s.WellFormed)
    (hc : ∀ column ∈ columns, column ≠ [] ∧ ∀ o ∈ column, s.arena.contains o = true) :
    Steps s (columns.flatten.map .used) t := by
  induction h with
  | nil => exact .refl
  | @cons column columns s t u cs head tail ih =>
    obtain ⟨hne, hknown⟩ := hc column (by simp)
    have hkey : s.Requestable ⟨.apply, operation, column⟩ := ⟨rfl, hknown, fun _ => hne⟩
    obtain ⟨ht, hsame⟩ := head.wellFormed (hs.intern hkey)
    have hall := (extends_intern s ⟨.apply, operation, column⟩).trans hsame.toExtends
    have htail := ih ht fun column' hm => ⟨(hc column' (by simp [hm])).1,
      fun o ho => hall.contains ((hc column' (by simp [hm])).2 o ho)⟩
    rw [List.flatten_cons, List.map_append]
    exact (Step.add (.intern hkey)).steps.trans (head.steps.trans htail)

theorem Columnwise.steps {key : Identity} {columns : List (List NodeId)}
    (h : Columnwise key columns s t) (hs : s.WellFormed) (hkey : s.Requestable key)
    (hp : (key.kind []).parts? = some (key.operation, []))
    (hc : ∀ column ∈ columns, column ≠ [] ∧ ∀ o ∈ column, s.arena.contains o = true) :
    Steps s (columns.flatten.map .used) t := by
  have hint := (Step.add (.intern hkey)).steps
  cases h with
  | known found used => exact hint.trans used.steps
  | @fresh cs u new applied =>
    have hext := extends_intern s key
    have hc' : ∀ column ∈ columns, column ≠ [] ∧
        ∀ o ∈ column, (s.intern key).2.arena.contains o = true := fun column hm =>
      ⟨(hc column hm).1, fun o ho => hext.contains ((hc column hm).2 o ho)⟩
    have happlied := hint.trans (applied.steps (hs.intern hkey) hc')
    obtain ⟨-, -, hparts⟩ := applied.wellFormed (hs.intern hkey) hc'
    obtain ⟨node, hn, hkind⟩ := Arena.exists_of_kind? (applied.kind?_built hs hkey new hc)
    have hlast : Step u [] (u.setComponents (s.intern key).1.1 cs) := by
      refine .parts hn (by rw [hkind, hp]) fun c hm => ?_
      obtain ⟨column, hcolumn, part, hpart, hpk⟩ := exists_of_mem_right hparts.flip hm
      refine ⟨part, column, hpart, hpk, fun o ho => ?_⟩
      rw [intern_fresh new]
      simpa [Arena.contains] using (hc column hcolumn).2 o ho
    simpa using happlied.snoc hlast

/-- What storing does to nodes; a component that is its own source is passed. -/
def storeEffects (pairs : List (NodeId × NodeId)) : List Effect :=
  (pairs.filter fun p => p.1 ≠ p.2).flatMap fun p => [.used p.2, .stored p.1]

theorem StoredAll.steps {pairs : List (NodeId × NodeId)} (h : StoredAll pairs s t) :
    Steps s (storeEffects pairs) t := by
  induction h with
  | nil => exact .refl
  | same tail ih => simpa [storeEffects] using ih
  | @store output input pairs s t u place e ne used target written tail ih =>
    have hstored := (Step.use used).steps.snoc (.store target written)
    simpa [storeEffects, ne] using hstored.trans ih

end Requests

end Session

namespace Event

def merged? (e : Event) : Option (NodeId × String) :=
  match e.call, e.result with
  | .phi .., some id => some (id, ((e.after.arena.get? id).bind Node.name?).getD "")
  | _, _ => none

def effects (e : Event) : List Effect :=
  match e.call with
  | .assign .. => Session.storeEffects e.stores
  | _ => e.sources.map .used ++ e.merged?.toList.map fun m => .merged m.1 m.2

end Event

namespace Session

variable {s t s₀ : Session}

/-- A request that goes through is made of steps. -/
theorem Performed.steps {call : Call} {result : Option NodeId} (h : Performed s call result t)
    (hs : s.WellFormed) : Steps s (Event.effects ⟨s, call, result, t⟩) t := by
  cases h with
  | scalar name => exact (Step.add (.scalar name)).steps
  | vector name known => exact (Step.add (.vector name false known)).steps
  | matrix name known => exact (Step.add (.vector name true known)).steps
  | @apply operation operands _ conditions used =>
    obtain ⟨hne, hknown, -⟩ := checkApply_eq_ok.1 conditions
    have hkey : s.Requestable ⟨.apply, operation, operands⟩ := ⟨rfl, hknown, fun _ => hne⟩
    simpa [Event.effects, Event.sources, Event.merged?] using
      (Step.add (.intern hkey)).steps.trans used.steps
  | map conditions built =>
    obtain ⟨hknown, -, hc⟩ := hs.mapColumns conditions
    simpa [Event.effects, Event.sources_map conditions, Event.merged?] using
      built.steps hs ⟨rfl, hknown, by simp⟩ rfl hc
  | reduce conditions built =>
    obtain ⟨hknown, -, hc⟩ := hs.reduceColumns conditions
    simpa [Event.effects, Event.sources_reduce conditions, Event.merged?] using
      built.steps hs ⟨rfl, hknown, by simp⟩ rfl hc
  | assign conditions sources stored =>
    rw [Event.effects, Event.stores_assign conditions sources]
    exact stored.steps
  | @phi test success failure wanted length u name names value conditions used allocate written =>
    obtain ⟨hknown, -⟩ := phiLength_eq_ok conditions
    obtain ⟨-, hsame⟩ := used.wellFormed hs
    obtain ⟨hid, node, hn, hname⟩ := get?_addMerged (u.merging names name value) name length
    have hmerge : Step u _ _ := .merge length (fun id hid => hsame.toExtends.contains (hknown id hid))
      allocate written
    have hsize : (u.merging names name value).arena.size = u.arena.size := rfl
    rw [hsize] at hid hn
    simpa [Event.effects, Event.sources, Event.merged?, hid, hn, Node.name?, hname] using
      used.steps.snoc hmerge
  | output known used =>
    simpa [Event.effects, Event.sources, Event.merged?] using (Step.use used).steps
  | recycle name => exact (Step.add (.recycle name)).steps

/-- A history is made of the steps of its requests. -/
theorem History.steps {events : List Event} (h : History s₀ events s) (h₀ : s₀.WellFormed) :
    Steps s₀ (events.flatMap Event.effects) s := by
  induction h with
  | nil => exact .refl
  | snoc past last ih =>
    rw [List.flatMap_append, List.flatMap_singleton]
    exact ih.trans (last.steps (past.wellFormed h₀))

end Session

end StraightLine
