import StraightLine.Proofs.UseRuns
import StraightLine.Session.Basic

/-! # What the conditions of requests guarantee

A request whose conditions hold speaks of known nodes only. The conditions are about the kinds of
nodes, so they hold again in every session that extends the graph. -/
namespace StraightLine

theorem bind_eq_ok {α β ε : Type} {x : Except ε α} {f : α → Except ε β} {b : β} :
    (x >>= f) = .ok b ↔ ∃ a, x = .ok a ∧ f a = .ok b := by
  cases x with
  | error e => simp [bind, Except.bind]
  | ok a => simp [bind, Except.bind]

/-- A list that is answered as a whole is answered element by element. -/
theorem forall₂_of_mapM_eq_ok {α β ε : Type} {f : α → Except ε β} {xs : List α} {ys : List β}
    (h : xs.mapM f = .ok ys) : List.Forall₂ (fun x y => f x = .ok y) xs ys := by
  induction xs generalizing ys with
  | nil =>
    cases h
    exact .nil
  | cons x xs ih =>
    rw [List.mapM_cons] at h
    cases hx : f x with
    | error e => simp [hx, bind, Except.bind] at h
    | ok y =>
      cases hxs : xs.mapM f with
      | error e => simp [hx, hxs, bind, Except.bind] at h
      | ok zs =>
        simp only [hx, hxs, bind, Except.bind, pure, Except.pure, Except.ok.injEq] at h
        exact h ▸ .cons hx (ih hxs)

theorem mapM_eq_ok_of_forall {α β ε : Type} {f : α → Except ε β} {xs : List α}
    (h : ∀ x ∈ xs, ∃ y, f x = .ok y) : ∃ ys, xs.mapM f = .ok ys := by
  induction xs with
  | nil => exact ⟨[], rfl⟩
  | cons x xs ih =>
    obtain ⟨y, hy⟩ := h x (by simp)
    obtain ⟨ys, hys⟩ := ih fun z hz => h z (by simp [hz])
    exact ⟨y :: ys, by simp [List.mapM_cons, hy, hys, bind, Except.bind, pure, Except.pure]⟩

theorem mapM_eq_ok_map {α β ε : Type} {f : α → Except ε β} {g : α → β} {xs : List α}
    (h : ∀ x ∈ xs, f x = .ok (g x)) : xs.mapM f = .ok (xs.map g) := by
  induction xs with
  | nil => rfl
  | cons x xs ih =>
    rw [List.mapM_cons, h x (by simp), ih fun y hy => h y (by simp [hy])]
    rfl

theorem mapM_congr_of_mem {α β ε : Type} {f g : α → Except ε β} {xs : List α}
    (h : ∀ x ∈ xs, f x = g x) : xs.mapM f = xs.mapM g := by
  induction xs with
  | nil => rfl
  | cons x xs ih =>
    rw [List.mapM_cons, List.mapM_cons, h x (by simp), ih fun y hy => h y (by simp [hy])]

theorem exists_of_mem_right {α β : Type} {R : α → β → Prop} {xs : List α} {ys : List β}
    (h : List.Forall₂ R xs ys) {y : β} (hy : y ∈ ys) : ∃ x ∈ xs, R x y := by
  induction h with
  | nil => simp at hy
  | cons hr _ ih =>
    rcases List.mem_cons.1 hy with rfl | hy
    · exact ⟨_, by simp, hr⟩
    · obtain ⟨x, hx, hxy⟩ := ih hy
      exact ⟨x, by simp [hx], hxy⟩

namespace Node

theorem components?_congr {m n : Node} (h : m.kind = n.kind) : m.components? = n.components? := by
  simp [components?, h]

theorem length_congr {m n : Node} (h : m.kind = n.kind) : m.length = n.length := by
  simp [Node.length, components?_congr h]

end Node

namespace Session

variable {s t : Session}

theorem requireKnown_eq_ok {ids : List NodeId} :
    s.requireKnown ids = .ok () ↔ ∀ id ∈ ids, s.arena.contains id = true := by
  unfold requireKnown
  cases h : ids.find? (!s.arena.contains ·) with
  | none => simpa using h
  | some id =>
    have hm := List.mem_of_find?_eq_some h
    have hn := List.find?_some h
    simp only [reduceCtorEq, false_iff, not_forall]
    exact ⟨id, hm, by simpa using hn⟩

theorem nonempty_of_checkColumns {operation : String} {columns : List (List NodeId)}
    (h : columns.forM (checkColumn operation) = .ok ()) {column : List NodeId}
    (hc : column ∈ columns) : column ≠ [] := by
  induction columns with
  | nil => simp at hc
  | cons c cs ih =>
    rw [List.forM_eq_forM, List.forM_cons, bind_eq_ok] at h
    obtain ⟨⟨⟩, hhead, htail⟩ := h
    rcases List.mem_cons.1 hc with rfl | hc
    · rintro rfl
      simp [checkColumn, throw, throwThe, MonadExceptOf.throw, bind, Except.bind] at hhead
    · exact ih htail hc

/-- Every component of a known node is known. -/
theorem WellFormed.contains_component (hs : s.WellFormed) {id c : NodeId} {node : Node}
    {cs : List NodeId} (hn : s.arena.get? id = some node) (hcs : node.components? = some cs)
    (hc : c ∈ cs) : s.arena.contains c = true := by
  have hp := hs.arena id node hn
  cases hk : node.kind with
  | scalar | field parent index | apply operation operands => simp [Node.components?, hk] at hcs
  | vector cs' square =>
    simp only [Node.components?, hk, Option.some.injEq] at hcs
    exact hp.components cs' square hk c (hcs ▸ hc)
  | reduction operation operands cs' | mapping operation operands cs' =>
    simp only [Node.components?, hk, Option.some.injEq] at hcs
    obtain ⟨part, -, hg, -⟩ := hp.parts operation cs' (by simp [hk, Kind.parts?]) c (hcs ▸ hc)
    exact Arena.contains_of_get? hg

theorem WellFormed.contains_of_component (hs : s.WellFormed) {id c : NodeId} {index : Nat}
    (h : s.component id index = .ok c) : s.arena.contains c = true := by
  unfold component Session.node at h
  cases hn : s.arena.get? id with
  | none => simp [hn, bind, Except.bind] at h
  | some node =>
    cases hcs : node.components? with
    | none =>
      simp only [hn, hcs, bind, Except.bind, pure, Except.pure, Except.ok.injEq] at h
      exact h ▸ Arena.contains_of_get? hn
    | some cs =>
      cases hi : cs[index]? with
      | none => simp [hn, hcs, hi, bind, Except.bind, throw, throwThe, MonadExceptOf.throw] at h
      | some c' =>
        simp only [hn, hcs, hi, bind, Except.bind, pure, Except.pure, Except.ok.injEq] at h
        exact h ▸ hs.contains_component hn hcs (List.mem_of_getElem? hi)

theorem WellFormed.contains_of_broadcast (hs : s.WellFormed) {id c : NodeId} {index : Nat}
    (h : s.broadcast id index = .ok c) : s.arena.contains c = true := by
  unfold broadcast at h
  cases hn : s.node id with
  | error e => simp [hn, bind, Except.bind] at h
  | ok node =>
    simp only [hn, bind, Except.bind] at h
    exact hs.contains_of_component h

/-- A component stands at every index below the length, and a sole one at every index. -/
theorem broadcast_eq_ok {id : NodeId} {node : Node} {index : Nat} (hn : s.arena.get? id = some node)
    (h : node.length = 1 ∨ index < node.length) : ∃ c, s.broadcast id index = .ok c := by
  have hnode := node_eq_ok hn
  cases hcs : node.components? with
  | none => exact ⟨id, by simp [broadcast, component, hnode, hcs, bind, Except.bind]; rfl⟩
  | some cs =>
    have hlen : node.length = cs.length := by simp [Node.length, hcs]
    have hlt : (if node.length = 1 then 0 else index) < cs.length := by
      split <;> omega
    refine ⟨cs[if node.length = 1 then 0 else index], ?_⟩
    simp only [broadcast, component, hnode, hcs, bind, Except.bind, List.getElem?_eq_getElem hlt]
    rfl

section Extends

variable (h : s.arena.Extends t.arena)

include h

theorem node_extends {id : NodeId} (hid : s.arena.contains id = true) :
    ∃ m n, s.node id = .ok m ∧ t.node id = .ok n ∧ n.kind = m.kind := by
  obtain ⟨m, hm⟩ := Arena.contains_iff.1 hid
  obtain ⟨n, hn, hk⟩ := h.kind_eq id m hm
  exact ⟨m, n, node_eq_ok hm, node_eq_ok hn, hk⟩

theorem length_extends {id : NodeId} (hid : s.arena.contains id = true) :
    t.length id = s.length id := by
  obtain ⟨m, n, hm, hn, hk⟩ := node_extends h hid
  simp [Session.length, hm, hn, Node.length_congr hk, bind, Except.bind]

theorem column_extends {id : NodeId} (hid : s.arena.contains id = true) :
    t.column id = s.column id := by
  obtain ⟨m, n, hm, hn, hk⟩ := node_extends h hid
  simp [column, hm, hn, Node.components?_congr hk, bind, Except.bind]

theorem broadcast_extends {id : NodeId} (hid : s.arena.contains id = true) (index : Nat) :
    t.broadcast id index = s.broadcast id index := by
  obtain ⟨m, n, hm, hn, hk⟩ := node_extends h hid
  simp [broadcast, component, hm, hn, Node.length_congr hk, Node.components?_congr hk, bind,
    Except.bind]

theorem requireKnown_extends {ids : List NodeId} (hids : ∀ id ∈ ids, s.arena.contains id = true) :
    t.requireKnown ids = .ok () :=
  requireKnown_eq_ok.2 fun id hid => h.contains (hids id hid)

end Extends

/-- The conditions of an operation over a flat list. -/
theorem checkApply_eq_ok {operation : String} {operands : List NodeId} :
    s.checkApply operation operands = .ok () ↔ operands ≠ [] ∧
      (∀ o ∈ operands, s.arena.contains o = true) ∧ checkArity operation operands.length = .ok () := by
  cases operands with
  | nil => simp [checkApply, throw, throwThe, MonadExceptOf.throw, bind, Except.bind]
  | cons o os =>
    rw [← requireKnown_eq_ok]
    simp only [checkApply, List.isEmpty_cons, Bool.false_eq_true, if_false, ne_eq, reduceCtorEq,
      not_false_eq_true, true_and]
    rw [bind_eq_ok]
    constructor
    · rintro ⟨⟨⟩, h, h'⟩
      exact ⟨h, h'⟩
    · rintro ⟨h, h'⟩
      exact ⟨(), h, h'⟩

/-- The columns of a reduction are nonempty and known. -/
theorem WellFormed.reduceColumns (hs : s.WellFormed) {operation : String} {operands : List NodeId}
    {columns : List (List NodeId)} (h : s.reduceColumns operation operands = .ok columns) :
    (∀ o ∈ operands, s.arena.contains o = true) ∧
      List.Forall₂ (fun o column => s.column o = .ok column) operands columns ∧
      ∀ column ∈ columns, column ≠ [] ∧ ∀ o ∈ column, s.arena.contains o = true := by
  cases operands with
  | nil => simp [Session.reduceColumns, throw, throwThe, MonadExceptOf.throw, bind, Except.bind] at h
  | cons o os =>
    simp only [Session.reduceColumns, List.isEmpty_cons, Bool.false_eq_true, if_false,
      bind_eq_ok] at h
    obtain ⟨⟨⟩, hk, found, hcols, ⟨⟩, hcheck, hpure⟩ := h
    cases hpure
    have hknown := requireKnown_eq_ok.1 hk
    have hall := forall₂_of_mapM_eq_ok hcols
    refine ⟨hknown, hall, fun column hc => ⟨?_, fun c hmem => ?_⟩⟩
    · exact nonempty_of_checkColumns hcheck hc
    · obtain ⟨p, hp, hcol⟩ := exists_of_mem_right hall hc
      obtain ⟨node, hn⟩ := Arena.contains_iff.1 (hknown p hp)
      simp only [Session.column, node_eq_ok hn, bind, Except.bind, pure, Except.pure,
        Except.ok.injEq] at hcol
      cases hcs : node.components? with
      | none =>
        simp only [hcs, Option.getD_none] at hcol
        subst hcol
        simp only [List.mem_singleton] at hmem
        exact hmem ▸ hknown p hp
      | some cs =>
        simp only [hcs, Option.getD_some] at hcol
        exact hs.contains_component hn hcs (hcol ▸ hmem)

/-- The columns of a mapping are nonempty and known. -/
theorem WellFormed.mapColumns (hs : s.WellFormed) {operation : String} {operands : List NodeId}
    {columns : List (List NodeId)} (h : s.mapColumns operation operands = .ok columns) :
    (∀ o ∈ operands, s.arena.contains o = true) ∧
      (∃ n, List.Forall₂ (fun i column => operands.mapM (s.broadcast · i) = .ok column)
        (List.range n) columns) ∧
      ∀ column ∈ columns, column ≠ [] ∧ ∀ o ∈ column, s.arena.contains o = true := by
  cases operands with
  | nil => simp [Session.mapColumns, throw, throwThe, MonadExceptOf.throw, bind, Except.bind] at h
  | cons o os =>
    simp only [Session.mapColumns, List.isEmpty_cons, Bool.false_eq_true, if_false,
      bind_eq_ok] at h
    obtain ⟨⟨⟩, hk, ⟨⟩, -, lengths, -, hfound⟩ := h
    split at hfound
    next => cases hfound
    next =>
      have hall := forall₂_of_mapM_eq_ok hfound
      refine ⟨requireKnown_eq_ok.1 hk, ⟨_, hall⟩, fun column hc => ?_⟩
      obtain ⟨i, -, hcol⟩ := exists_of_mem_right hall hc
      have hrow := forall₂_of_mapM_eq_ok hcol
      refine ⟨?_, fun c hmem => ?_⟩
      · rintro rfl
        cases hrow
      · obtain ⟨p, -, hp⟩ := exists_of_mem_right hrow hmem
        exact hs.contains_of_broadcast hp

/-- The conditions of an assignment: the target is a vector, and each of its components has a
component of the source to be stored into it. -/
theorem assignTargets_eq_ok {target source : NodeId} {outputs : List NodeId}
    (h : s.assignTargets target source = .ok outputs) :
    (∃ node square, s.arena.get? target = some node ∧ node.kind = .vector outputs square) ∧
      s.arena.contains source = true ∧
      ∃ inputs, (List.range outputs.length).mapM (s.broadcast source) = .ok inputs := by
  simp only [assignTargets, bind_eq_ok] at h
  obtain ⟨⟨⟩, hk, node, hnode, hkind⟩ := h
  have hknown := requireKnown_eq_ok.1 hk
  obtain ⟨found, hf⟩ := Arena.contains_iff.1 (hknown target (by simp))
  obtain rfl : found = node := by simpa [node_eq_ok hf] using hnode
  obtain ⟨origin, ho⟩ := Arena.contains_iff.1 (hknown source (by simp))
  split at hkind
  next cs square hk =>
    simp only [bind_eq_ok, Session.length, node_eq_ok ho] at hkind
    obtain ⟨n, ⟨m, hm, hn⟩, hlen⟩ := hkind
    cases hm
    cases hn
    split at hlen
    next => cases hlen
    next hle =>
      cases hlen
      refine ⟨⟨found, square, hf, hk⟩, hknown source (by simp), mapM_eq_ok_of_forall fun i hi => ?_⟩
      have hi' := List.mem_range.1 hi
      exact broadcast_eq_ok ho (by omega)
  next => cases hkind

/-- The conditions of a merge. -/
theorem phiLength_eq_ok {test : Comparison} {success failure : NodeId} {length : Option Nat}
    (h : s.phiLength test success failure = .ok length) :
    (∀ id ∈ [test.left, test.right, success, failure], s.arena.contains id = true) ∧
      ∃ yes no, s.arena.get? success = some yes ∧ s.arena.get? failure = some no ∧
        yes.isVector = no.isVector ∧
        length = if yes.isVector then some (max yes.length no.length) else none := by
  simp only [phiLength, bind_eq_ok] at h
  obtain ⟨⟨⟩, hk, yes, hyes, no, hno, hshape⟩ := h
  have hknown := requireKnown_eq_ok.1 hk
  obtain ⟨y, hy⟩ := Arena.contains_iff.1 (hknown success (by simp))
  obtain ⟨n, hn⟩ := Arena.contains_iff.1 (hknown failure (by simp))
  obtain rfl : y = yes := by simpa [node_eq_ok hy] using hyes
  obtain rfl : n = no := by simpa [node_eq_ok hn] using hno
  refine ⟨hknown, y, n, hy, hn, ?_⟩
  split at hshape
  next => cases hshape
  next hsame =>
    cases hshape
    exact ⟨by simpa using hsame, rfl⟩

section Extends

variable (h : s.arena.Extends t.arena)

include h

theorem checkApply_extends {operation : String} {operands : List NodeId}
    (hok : s.checkApply operation operands = .ok ()) : t.checkApply operation operands = .ok () := by
  obtain ⟨hne, hknown, harity⟩ := checkApply_eq_ok.1 hok
  exact checkApply_eq_ok.2 ⟨hne, fun o ho => h.contains (hknown o ho), harity⟩

theorem reduceColumns_extends {operation : String} {operands : List NodeId}
    (hknown : ∀ o ∈ operands, s.arena.contains o = true) :
    t.reduceColumns operation operands = s.reduceColumns operation operands := by
  simp only [Session.reduceColumns, requireKnown_extends h hknown, requireKnown_eq_ok.2 hknown,
    mapM_congr_of_mem fun o ho => column_extends h (hknown o ho)]

theorem mapColumns_extends {operation : String} {operands : List NodeId}
    (hknown : ∀ o ∈ operands, s.arena.contains o = true) :
    t.mapColumns operation operands = s.mapColumns operation operands := by
  have hrow : ∀ i, operands.mapM (t.broadcast · i) = operands.mapM (s.broadcast · i) := fun i =>
    mapM_congr_of_mem fun o ho => broadcast_extends h (hknown o ho) i
  simp only [Session.mapColumns, requireKnown_extends h hknown, requireKnown_eq_ok.2 hknown,
    mapM_congr_of_mem fun o ho => length_extends h (hknown o ho), hrow]

end Extends

end Session

end StraightLine
