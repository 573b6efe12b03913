import StraightLine.Proofs.ArenaShape
import StraightLine.Session.Call

/-! # Runs that count uses

What counting a use can do to a session, case by case. On a well-formed session it is never refused,
and it changes no kind of any node. -/
namespace StraightLine

namespace Builder

variable {α β : Type} {s s' : Session} {a : α} {e : Fault}

theorem bind_ok {x : Builder α} {f : α → Builder β} (h : x s = .ok a s') : (x >>= f) s = f a s' := by
  simp [bind, EStateM.bind, h]

theorem bind_error {x : Builder α} {f : α → Builder β} (h : x s = .error e s') :
    (x >>= f) s = .error e s' := by
  simp [bind, EStateM.bind, h]

theorem map_ok {x : Builder α} (f : α → β) (h : x s = .ok a s') : (f <$> x) s = .ok (f a) s' := by
  simp [Functor.map, EStateM.map, h]

theorem map_error {x : Builder α} (f : α → β) (h : x s = .error e s') :
    (f <$> x) s = .error e s' := by
  simp [Functor.map, EStateM.map, h]

theorem error_of_map {x : Builder α} {f : α → β} (h : (f <$> x) s = .error e s') :
    x s = .error e s' := by
  cases hx : x s with
  | ok a t =>
    rw [map_ok f hx] at h
    cases h
  | error d t =>
    rw [map_error f hx] at h
    cases h
    rfl

theorem get_run : (get : Builder Session) s = .ok s s := rfl

theorem ask_ok {question : Session → Except Fault α} (h : question s = .ok a) :
    ask question s = .ok a s := by
  simp [ask, h]

theorem ask_error {question : Session → Except Fault α} (h : question s = .error e) :
    ask question s = .error e s := by
  simp [ask, h]

end Builder

/-- A well-formed graph, whose leaves keep their names, with a record of exactly the requests that
its nodes answer. -/
structure Session.WellFormed (s : Session) : Prop where
  arena : s.arena.WellFormed
  leaves : ∀ id node, s.arena.get? id = some node → node.kind.isLeaf → node.aliasable = false
  identities : ∀ key id, s.identities.find? key = some id ↔
    ∃ node, s.arena.get? id = some node ∧ node.kind.identity? = some key

namespace Arena

/-- A change of one node that keeps its kind, and leaves a leaf as it is. -/
theorem sameKinds_modify {a : Arena} (ha : a.WellFormed) {id : NodeId} {f : Node → Node}
    {node : Node} (hn : a.get? id = some node) (hk : (f node).kind = node.kind)
    (hl : node.kind.isLeaf → f node = node) : a.SameKinds (a.modify id f) where
  kind_eq other n ho := by
    rw [get?_modify]
    split
    next h =>
      obtain rfl : other = id := by cases other; cases id; simp_all
      rw [hn] at ho
      cases ho
      exact ⟨f node, by simp [hn], hk⟩
    next => exact ⟨n, ho, rfl⟩
  size_eq := size_modify a id f
  named other n ho hleaf := by
    rw [get?_modify] at ho
    split at ho
    next h =>
      obtain rfl : other = id := by cases other; cases id; simp_all
      simp only [hn, Option.map_some, Option.some.injEq] at ho
      subst ho
      rw [hk] at hleaf
      rw [hl hleaf]
      exact (ha other node hn).named hleaf
    next => exact (ha other n ho).named hleaf

end Arena

namespace Session

/-- A change of the graph that keeps the kinds keeps a session well-formed. -/
theorem WellFormed.sameKinds {s t : Session} (hs : s.WellFormed) (h : s.arena.SameKinds t.arena)
    (hi : t.identities.entries = s.identities.entries)
    (hl : ∀ id node, t.arena.get? id = some node → node.kind.isLeaf → node.aliasable = false) :
    t.WellFormed where
  arena := hs.arena.sameKinds h
  leaves := hl
  identities key id := by
    have he : t.identities.find? key = s.identities.find? key := by simp [Identities.find?, hi]
    rw [he, hs.identities]
    constructor
    · rintro ⟨node, hn, hk⟩
      obtain ⟨other, ho, hk'⟩ := h.kind_eq id node hn
      exact ⟨other, ho, hk' ▸ hk⟩
    · rintro ⟨other, ho, hk⟩
      obtain ⟨node, hn, hk'⟩ := h.get?_left ho
      exact ⟨node, hn, hk' ▸ hk⟩

theorem node_eq_ok {s : Session} {id : NodeId} {node : Node} (h : s.arena.get? id = some node) :
    s.node id = .ok node := by
  simp [Session.node, h]

theorem expr_eq_ok {s : Session} {id : NodeId} {e : Expr} (h : s.arena.expr? id = some e) :
    s.expr id = .ok e := by
  simp [Session.expr, h]

theorem render_eq_ok {s : Session} {id : NodeId} {e : Expr} (h : s.arena.expr? id = some e)
    (brackets : Brackets) : s.render id brackets = .ok (e.text brackets) := by
  rw [Session.render, expr_eq_ok h]
  rfl

theorem target_eq_ok {s : Session} {id : NodeId} {e : Expr} (h : s.arena.target? id = some e) :
    s.target id = .ok e := by
  simp [Session.target, h]

def counted (s : Session) (id : NodeId) : Session :=
  s.modifyNode id fun node => { node with uses := node.uses + 1 }

/-- What binding a node to a name does: a node that awaits a store is bound to its prior value right
before that store, any other node is declared at the end. -/
inductive Bound (s : Session) (id : NodeId) : Session → Prop
  | capture {node : Node} {store number : StatementId} {name : String} {names : Names}
      {schedule : Schedule} (get : s.arena.get? id = some node)
      (pending : node.standing = .stored store)
      (allocate : s.names.allocate (s.arena.hint id) = (name, names))
      (capture : s.schedule.capture? store name = some (number, schedule)) :
      Bound s id { s with arena := s.arena.modify id (Node.bound name), names, schedule }
  | declare {node : Node} {name : String} {names : Names} {e : Expr}
      (get : s.arena.get? id = some node) (may : s.mayBind node = true)
      (missing : ∀ store, node.standing = .stored store → s.schedule.capture? store name = none)
      (allocate : s.names.allocate (s.arena.hint id) = (name, names))
      (written : s.arena.expr? id = some e) :
      Bound s id { s with
        arena := s.arena.modify id (Node.bound name), names,
        schedule := (s.schedule.push (.declare name none) (.expr e .suppress)).2 }

inductive Used (s : Session) (id : NodeId) : Session → Prop
  | fixed {node : Node} (get : s.arena.get? id = some node) (fixed : node.aliasable = false) :
      Used s id s
  | counted {node : Node} (get : s.arena.get? id = some node) (aliasable : node.aliasable = true)
      (kept : node.uses ≠ 1 ∨ s.mayBind node = false) : Used s id (s.counted id)
  | bound {node : Node} {t : Session} (get : s.arena.get? id = some node)
      (aliasable : node.aliasable = true) (second : node.uses = 1)
      (bound : Bound (s.counted id) id t) : Used s id t

inductive UsedAll : List NodeId → Session → Session → Prop
  | nil (s : Session) : UsedAll [] s s
  | cons {id : NodeId} {ids : List NodeId} {s t u : Session} (head : Used s id t)
      (tail : UsedAll ids t u) : UsedAll (id :: ids) s u

theorem get?_counted (s : Session) {id : NodeId} {node : Node} (h : s.arena.get? id = some node) :
    (s.counted id).arena.get? id = some { node with uses := node.uses + 1 } := by
  simp [counted, modifyNode, Arena.get?_modify, h]

theorem WellFormed.not_leaf {s : Session} (hs : s.WellFormed) {id : NodeId} {node : Node}
    (hn : s.arena.get? id = some node) (ha : node.aliasable = true) : node.kind.isLeaf = false := by
  by_contra hl
  simp [hs.leaves id node hn (by simpa using hl)] at ha

theorem WellFormed.modify {s t : Session} (hs : s.WellFormed) {id : NodeId} {f : Node → Node}
    {node : Node} (hn : s.arena.get? id = some node) (hl : node.kind.isLeaf → f node = node)
    (hk : (f node).kind = node.kind) (harena : t.arena = s.arena.modify id f)
    (hi : t.identities = s.identities) : t.WellFormed ∧ s.arena.SameKinds t.arena := by
  have hsame := harena ▸ Arena.sameKinds_modify hs.arena hn hk hl
  refine ⟨hs.sameKinds hsame (by rw [hi]) fun other n ho hleaf => ?_, hsame⟩
  rw [harena, Arena.get?_modify] at ho
  split at ho
  next h =>
    obtain rfl : other = id := by cases other; cases id; simp_all
    simp only [hn, Option.map_some, Option.some.injEq] at ho
    subst ho
    rw [hk] at hleaf
    rw [hl hleaf]
    exact hs.leaves other node hn hleaf
  next => exact hs.leaves other n ho hleaf

theorem Bound.wellFormed {s t : Session} {id : NodeId} (h : Bound s id t) (hs : s.WellFormed)
    {node : Node} (hn : s.arena.get? id = some node) (hl : node.kind.isLeaf = false) :
    t.WellFormed ∧ s.arena.SameKinds t.arena := by
  cases h with
  | capture get => exact hs.modify hn (by simp [hl]) rfl rfl rfl
  | declare get => exact hs.modify hn (by simp [hl]) rfl rfl rfl

theorem WellFormed.counted {s : Session} (hs : s.WellFormed) {id : NodeId} {node : Node}
    (hn : s.arena.get? id = some node) (ha : node.aliasable = true) :
    (s.counted id).WellFormed ∧ s.arena.SameKinds (s.counted id).arena :=
  hs.modify hn (by simp [hs.not_leaf hn ha]) rfl rfl rfl

theorem Used.wellFormed {s t : Session} {id : NodeId} (h : Used s id t) (hs : s.WellFormed) :
    t.WellFormed ∧ s.arena.SameKinds t.arena := by
  cases h with
  | fixed get fixed => exact ⟨hs, .refl hs.arena⟩
  | counted get aliasable kept => exact hs.counted get aliasable
  | bound get aliasable second bound =>
    obtain ⟨hc, hsame⟩ := hs.counted get aliasable
    have hl := hs.not_leaf get aliasable
    obtain ⟨ht, hsame'⟩ := bound.wellFormed hc (get?_counted s get) hl
    exact ⟨ht, hsame.trans hsame'⟩

theorem UsedAll.wellFormed {s t : Session} {ids : List NodeId} (h : UsedAll ids s t)
    (hs : s.WellFormed) : t.WellFormed ∧ s.arena.SameKinds t.arena := by
  induction h with
  | nil s => exact ⟨hs, .refl hs.arena⟩
  | cons head tail ih =>
    obtain ⟨ht, hsame⟩ := head.wellFormed hs
    obtain ⟨hu, hsame'⟩ := ih ht
    exact ⟨hu, hsame.trans hsame'⟩

theorem UsedAll.append {s t u : Session} {ids others : List NodeId} (h : UsedAll ids s t)
    (h' : UsedAll others t u) : UsedAll (ids ++ others) s u := by
  induction h with
  | nil s => exact h'
  | cons head tail ih => exact .cons head (ih h')

end Session

namespace Builder

open Session

variable {s : Session} {id : NodeId} {node : Node}

theorem declareNode_captured {name : String} {t : Session} (h : s.capture? node name = some t) :
    declareNode id node name s = .ok () t := by
  rw [declareNode, bind_ok get_run, h]
  rfl

theorem declareNode_declared {name : String} {e : Expr} (h : s.capture? node name = none)
    (he : s.arena.expr? id = some e) :
    declareNode id node name s = .ok () (s.push (.declare name none) (.expr e .suppress)).2 := by
  rw [declareNode, bind_ok get_run, h]
  dsimp only
  rw [bind_ok (ask_ok (expr_eq_ok he))]
  rfl

/-- Binding a node of a well-formed session is never refused. -/
theorem bindNode_run (hs : s.WellFormed) (hn : s.arena.get? id = some node)
    (hm : s.mayBind node = true) : ∃ t, bindNode id s = .ok () t ∧ Bound s id t := by
  obtain ⟨name, names, hname⟩ : ∃ name names, s.names.allocate (s.arena.hint id) = (name, names) :=
    ⟨_, _, rfl⟩
  obtain ⟨e, he⟩ := hs.arena.expr?_eq_some (Arena.contains_of_get? hn)
  have hrun : ∀ t, declareNode id node name { s with names } = .ok () t →
      bindNode id s = .ok () (t.modifyNode id (Node.bound name)) := by
    intro t ht
    have hu : update (·.allocateName id) s = .ok name { s with names } := by
      simp [update, allocateName, hname]
    rw [bindNode, bind_ok (ask_ok (node_eq_ok hn)), bind_ok get_run, if_pos hm, bind_ok hu,
      bind_ok ht]
    rfl
  cases hc : ({ s with names } : Session).capture? node name with
  | some t =>
    refine ⟨_, hrun t (declareNode_captured hc), ?_⟩
    cases hp : node.standing with
    | stored store =>
      cases hcap : s.schedule.capture? store name with
      | some found =>
        simp only [Session.capture?, Node.pendingStore?, hp, hcap, Option.bind_eq_bind,
          Option.bind_some, pure, Option.some.injEq] at hc
        exact hc ▸ .capture hn hp hname hcap
      | none => simp [Session.capture?, Node.pendingStore?, hp, hcap] at hc
    | inline | named text => simp [Session.capture?, Node.pendingStore?, hp] at hc
  | none =>
    refine ⟨_, hrun _ (declareNode_declared hc he), .declare hn hm (fun store hp => ?_) hname he⟩
    cases hcap : s.schedule.capture? store name with
    | none => rfl
    | some found => simp [Session.capture?, Node.pendingStore?, hp, hcap] at hc

/-- Counting a use of a known node is never refused. -/
theorem use_run (hs : s.WellFormed) (hid : s.arena.contains id = true) :
    ∃ t, use id s = .ok () t ∧ Used s id t := by
  obtain ⟨node, hn⟩ := Arena.contains_iff.1 hid
  cases ha : node.aliasable with
  | false =>
    refine ⟨s, ?_, .fixed hn ha⟩
    rw [use, bind_ok (ask_ok (node_eq_ok hn)), if_neg (by simp [ha])]
    rfl
  | true =>
    obtain ⟨hc, -⟩ := hs.counted hn ha
    have hnode := get?_counted s hn
    have hcount : use id s = (if node.uses + 1 = 2 then bindNode id else pure ()) (s.counted id) := by
      rw [use, bind_ok (ask_ok (node_eq_ok hn)), if_pos ha]
      rfl
    rw [hcount]
    by_cases hu : node.uses = 1
    · rw [if_pos (by omega)]
      cases hm : s.mayBind node with
      | true =>
        obtain ⟨t, ht, hb⟩ := bindNode_run hc hnode hm
        exact ⟨t, ht, .bound hn ha hu hb⟩
      | false =>
        refine ⟨s.counted id, ?_, .counted hn ha (.inr hm)⟩
        have hm' : (s.counted id).mayBind { node with uses := node.uses + 1 } = false := hm
        rw [bindNode, bind_ok (ask_ok (node_eq_ok hnode)), bind_ok get_run, if_neg (by simp [hm'])]
        rfl
    · rw [if_neg (by omega)]
      exact ⟨s.counted id, rfl, .counted hn ha (.inl hu)⟩

/-- Counting the uses of known nodes is never refused. -/
theorem useAll_run {ids : List NodeId} (hs : s.WellFormed)
    (hids : ∀ id ∈ ids, s.arena.contains id = true) :
    ∃ t, useAll ids s = .ok () t ∧ UsedAll ids s t := by
  induction ids generalizing s with
  | nil => exact ⟨s, rfl, .nil s⟩
  | cons id ids ih =>
    obtain ⟨t, ht, hused⟩ := use_run hs (hids id (by simp))
    obtain ⟨hwf, hsame⟩ := hused.wellFormed hs
    obtain ⟨u, hu, hall⟩ :=
      ih hwf fun other ho => hsame.toExtends.contains (hids other (by simp [ho]))
    refine ⟨u, ?_, .cons hused hall⟩
    rw [useAll, List.forM_eq_forM, List.forM_cons, bind_ok ht]
    exact hu

end Builder

end StraightLine
