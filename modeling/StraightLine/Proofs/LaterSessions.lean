import StraightLine.Proofs.DeclaredNames
import StraightLine.Proofs.HashConsing

/-! # Later sessions

What later requests keep of a session. Nodes keep their numbers and kinds, a node that has a name keeps
it, and no name is given back. Statements stay as they are and in their order; later ones stand behind
them, but for captures, which are put right before a store. -/
namespace StraightLine

/-- How the standing of a node may change. -/
inductive Standing.Becomes : Standing → Standing → Prop
  | same (standing : Standing) : Becomes standing standing
  | stored (store : StatementId) : Becomes .inline (.stored store)
  | again {first second : StatementId} (later : first.number < second.number) :
      Becomes (.stored first) (.stored second)
  | named {standing : Standing} (unnamed : ∀ text, standing ≠ .named text) (name : String) :
      Becomes standing (.named name)

theorem Standing.Becomes.trans {one two three : Standing} (h : one.Becomes two)
    (h' : two.Becomes three) : one.Becomes three := by
  cases h with
  | same => exact h'
  | stored store =>
    cases h' with
    | same => exact .stored store
    | again later => exact .stored _
    | named unnamed name => exact .named (by simp) name
  | again later =>
    cases h' with
    | same => exact .again later
    | again later' => exact .again (later.trans later')
    | named unnamed name => exact .named (by simp) name
  | named unnamed name =>
    cases h' with
    | same => exact .named unnamed name
    | named unnamed' => exact absurd rfl (unnamed' name)

namespace Schedule

/-- A list of statements, and a later one: captures are put before old statements, and any statements
behind all of them. -/
inductive Continued : List Statement → List Statement → Prop
  | behind (new : List Statement) : Continued [] new
  | old (st : Statement) {old all : List Statement} (rest : Continued old all) :
      Continued (st :: old) (st :: all)
  | capture {st : Statement} (captures : st.captures?.isSome = true) {old all : List Statement}
      (rest : Continued old all) : Continued old (st :: all)

variable {old all last : List Statement} {s t : Schedule} {earlier later : List Statement}
  {new : Statement}

theorem Continued.refl (old : List Statement) : Continued old old := by
  induction old with
  | nil => exact .behind []
  | cons st old ih => exact .old st ih

theorem Continued.trans (h : Continued old all) (h' : Continued all last) : Continued old last := by
  induction h' generalizing old with
  | behind new =>
    cases h
    exact .behind new
  | old st rest ih =>
    cases h with
    | behind => exact .behind _
    | old _ rest' => exact .old st (ih rest')
    | capture captures rest' => exact .capture captures (ih rest')
  | capture captures rest ih => exact .capture captures (ih h)

theorem Continued.sublist (h : Continued old all) : old.Sublist all := by
  induction h with
  | behind new => exact List.nil_sublist new
  | old st rest ih => exact ih.cons_cons st
  | capture captures rest ih => exact ih.cons _

/-- A new statement with an old one behind it is a capture. -/
theorem Continued.isSome_captures? (h : Continued old all) (hnodup : all.Nodup) {st : Statement}
    (hnew : st ∉ old) {front rest : List Statement} (hsplit : all = front ++ st :: rest)
    (hbehind : ∃ other ∈ rest, other ∈ old) : st.captures?.isSome = true := by
  induction h generalizing front with
  | behind new =>
    obtain ⟨other, -, hother⟩ := hbehind
    cases hother
  | @old first old all _ ih =>
    obtain ⟨hfirst, hall⟩ := List.nodup_cons.1 hnodup
    cases front with
    | nil =>
      obtain ⟨rfl, -⟩ := List.cons.inj hsplit
      exact absurd List.mem_cons_self hnew
    | cons _ front =>
      obtain ⟨rfl, rfl⟩ := List.cons.inj hsplit
      refine ih hall (fun hmem => hnew (List.mem_cons_of_mem _ hmem)) rfl ?_
      obtain ⟨other, hrest, hother⟩ := hbehind
      rcases List.mem_cons.1 hother with rfl | hother
      · exact absurd (by simp [hrest]) hfirst
      · exact ⟨other, hrest, hother⟩
  | @capture first captures old all _ ih =>
    cases front with
    | nil =>
      obtain ⟨rfl, -⟩ := List.cons.inj hsplit
      exact captures
    | cons _ front =>
      obtain ⟨rfl, rfl⟩ := List.cons.inj hsplit
      exact ih (List.nodup_cons.1 hnodup).2 hnew rfl hbehind

theorem Inserted.continued (h : s.Inserted t earlier new later)
    (hnew : later = [] ∨ new.captures?.isSome = true) : Continued s.statements t.statements := by
  rw [h.before, h.after]
  clear h
  induction earlier with
  | nil =>
    rcases hnew with rfl | hcaptures
    · exact .behind _
    · exact .capture hcaptures (.refl later)
  | cons st earlier ih => exact .old st ih

theorem Numbered.nodup (h : s.Numbered) : s.statements.Nodup := h.distinct.of_map _

end Schedule

namespace Session

variable {s t u : Session} {id : NodeId} {effects : List Effect}

/-- What every step keeps. In the midst of a request a node may still get its parts, so kinds are
left out here. -/
structure Advances (s t : Session) : Prop where
  standing : ∀ id before, s.arena.standing? id = some before →
    ∃ now, t.arena.standing? id = some now ∧ before.Becomes now
  taken : s.names.taken ⊆ t.names.taken
  statements : Schedule.Continued s.schedule.statements t.schedule.statements

theorem Advances.refl (s : Session) : s.Advances s :=
  ⟨fun _ before h => ⟨before, h, .same before⟩, List.Subset.refl _, .refl _⟩

theorem Advances.trans (h : s.Advances t) (h' : t.Advances u) : s.Advances u where
  standing id before hs := by
    obtain ⟨between, ht, hbetween⟩ := h.standing id before hs
    obtain ⟨now, hu, hnow⟩ := h'.standing id between ht
    exact ⟨now, hu, hbetween.trans hnow⟩
  taken := List.Subset.trans h.taken h'.taken
  statements := h.statements.trans h'.statements

theorem Grown.advances (h : s.Grown t) (htaken : s.names.taken ⊆ t.names.taken) :
    s.Advances t where
  standing id before hs := by
    obtain ⟨node, hn, rfl⟩ := Arena.exists_of_standing? hs
    exact ⟨_, Arena.standing?_of_get? (h.get?_of_get? hn), .same _⟩
  taken := htaken
  statements := by
    rw [h.schedule]
    exact .refl _

theorem Addition.taken_subset (h : Addition s t) : s.names.taken ⊆ t.names.taken := by
  cases h with
  | scalar | vector => exact List.subset_cons_self ..
  | intern requestable => rw [(schedule_intern s _).2]; exact List.Subset.refl _
  | recycle => exact List.Subset.refl _

/-- A node that gets a name had none. -/
theorem Bound.advances (h : Bound (s.counted id) id t) {node : Node} (hlife : s.LifeCycle)
    (hn : s.arena.get? id = some node) (halias : node.aliasable = true) : s.Advances t := by
  have hstanding : ∀ name other before, s.arena.standing? other = some before →
      ∃ now, ((s.counted id).arena.modify id (Node.bound name)).standing? other = some now ∧
        before.Becomes now := by
    intro name other before hs
    rw [standing?_bound (get?_counted s hn), standing?_counted, Function.update_apply]
    split
    next heq =>
      subst heq
      rw [Arena.standing?_of_get? hn, Option.some.injEq] at hs
      subst hs
      exact ⟨_, rfl, .named ((hlife.nodes other node hn).not_named halias) name⟩
    next => exact ⟨before, hs, .same before⟩
  have htaken : ∀ {name : String} {names : Names} {hint : Hint},
      s.names.allocate hint = (name, names) → s.names.taken ⊆ names.taken := by
    intro name names hint hallocate
    have htaken := s.names.taken_allocate hint
    rw [hallocate] at htaken
    rw [htaken]
    exact List.subset_cons_self ..
  cases h with
  | @capture _ _ _ name _ _ _ _ allocate capture =>
    obtain ⟨earlier, overwritten, later, -, hinserted⟩ := Schedule.inserted_capture capture
    exact ⟨hstanding name, htaken allocate, hinserted.continued (.inr rfl)⟩
  | @declare _ name _ _ _ _ _ allocate =>
    exact ⟨hstanding name, htaken allocate, (Schedule.inserted_push ..).continued (.inl rfl)⟩

theorem Used.advances (h : Used s id t) (hlife : s.LifeCycle) : s.Advances t := by
  cases h with
  | fixed => exact .refl s
  | counted =>
    refine ⟨fun other before hs => ⟨before, ?_, .same before⟩, List.Subset.refl _, .refl _⟩
    rw [standing?_counted, hs]
  | bound get aliasable second bound => exact bound.advances hlife get aliasable

/-- A node that awaits a store and is stored into again awaits the later store. -/
theorem LifeCycle.advances_storing (h : s.LifeCycle) (hnumbered : s.schedule.Numbered)
    (output : NodeId) (place e : Expr) : s.Advances (s.storing output place e) := by
  refine ⟨fun id before hs => ?_, List.Subset.refl _,
    (Schedule.inserted_push ..).continued (.inl rfl)⟩
  obtain ⟨node, hn, rfl⟩ := Arena.exists_of_standing? hs
  by_cases heq : id = output
  · subst heq
    refine ⟨_, Arena.standing?_modify_self hn, ?_⟩
    unfold Node.overwritten
    split
    next halias =>
      cases hst : node.standing with
      | inline => exact .stored _
      | stored store =>
        obtain ⟨st, hmem, rfl, -⟩ := h.pending id store (hst ▸ hs)
        exact .again (hnumbered.below st hmem)
      | named name => exact absurd hst ((h.nodes id node hn).not_named halias name)
    next => exact .same _
  · exact ⟨_, (Arena.standing?_modify_of_ne heq).trans hs, .same _⟩

theorem Step.advances (h : Step s effects t) (hlife : s.LifeCycle)
    (hnumbered : s.schedule.Numbered) : s.Advances t := by
  cases h with
  | add added => exact added.grown.advances added.taken_subset
  | parts =>
    refine ⟨fun other before hs => ⟨before, ?_, .same before⟩, List.Subset.refl _, .refl _⟩
    rw [standing?_setComponents, hs]
  | use used => exact used.advances hlife
  | store target written => exact hlife.advances_storing hnumbered _ _ _
  | @merge _ _ _ wanted name names value length known allocate written =>
    have htakes := s.names.takes_allocatePhi wanted
    rw [allocate] at htakes
    have hmerging : s.Advances (s.merging names name value) :=
      ⟨fun _ before hs => ⟨before, hs, .same before⟩,
        htakes.taken ▸ List.subset_cons_self .., (Schedule.inserted_push ..).continued (.inl rfl)⟩
    refine hmerging.trans ((grown_addMerged _ name length).advances ?_)
    rw [taken_addMerged]
    exact List.subset_cons_self ..

/-- Steps from a session in order lead on from it. -/
theorem Steps.advances (h : Steps s effects t) (hs : s.WellFormed) (hlife : s.LifeCycle)
    (hnumbered : s.schedule.Numbered) : s.Advances t := by
  obtain ⟨-, -, -, hadvances⟩ := h.invariant
    (fun _ t => t.LifeCycle ∧ t.schedule.Numbered ∧ s.Advances t) hs ⟨hlife, hnumbered, .refl s⟩
    fun _ ht hstep => ⟨hstep.lifeCycle ht.1 ht.2.1, hstep.numbered ht.2.1,
      ht.2.2.trans (hstep.advances ht.1 ht.2.1)⟩
  exact hadvances

theorem inOrder_of_new {s₀ : Session} {settings : Settings} (h₀ : Session.new settings = .ok s₀)
    (calls : List Call) : (s₀.run calls).WellFormed ∧ (s₀.run calls).LifeCycle ∧
      (s₀.run calls).schedule.Numbered :=
  ((history_of_new h₀ calls).steps (wellFormed_of_new h₀)).lifeCycle h₀

/-- A run of requests from a session that requests led to. -/
theorem advances_run {s₀ : Session} {settings : Settings} (h₀ : Session.new settings = .ok s₀)
    (calls more : List Call) : (s₀.run calls).Advances ((s₀.run calls).run more) := by
  obtain ⟨hs, hlife, hnumbered⟩ := inOrder_of_new h₀ calls
  have hrun := History.nil.run ((complete_of_new h₀).run calls).1 more
  exact (hrun.steps hs).advances hs hlife hnumbered

structure Continues (s t : Session) : Prop where
  nodes : ∀ id node, s.arena.get? id = some node → ∃ now, t.arena.get? id = some now ∧
    now.kind = node.kind ∧ node.standing.Becomes now.standing
  taken : s.names.taken ⊆ t.names.taken
  statements : s.schedule.statements.Sublist t.schedule.statements
  captures : ∀ front st rest, t.schedule.statements = front ++ st :: rest →
    st ∉ s.schedule.statements → (∃ old ∈ rest, old ∈ s.schedule.statements) →
    st.captures?.isSome = true

/-- Every session continues all sessions that it was reached through. -/
theorem later_sessions_continue {s₀ : Session} {settings : Settings}
    (h₀ : Session.new settings = .ok s₀) (calls more : List Call) :
    (s₀.run calls).Continues ((s₀.run calls).run more) := by
  have hadvances := advances_run h₀ calls more
  obtain ⟨hs, -⟩ := (complete_of_new h₀).run calls
  obtain ⟨-, hextends⟩ := hs.run more
  refine ⟨fun id node hn => ?_, hadvances.taken, hadvances.statements.sublist, ?_⟩
  · obtain ⟨now, hnow, hkind⟩ := hextends.kind_eq id node hn
    obtain ⟨standing, hstanding, hbecomes⟩ :=
      hadvances.standing id node.standing (Arena.standing?_of_get? hn)
    rw [Arena.standing?_of_get? hnow, Option.some.injEq] at hstanding
    exact ⟨now, hnow, hkind, hstanding ▸ hbecomes⟩
  · intro front st rest hsplit hnew hbehind
    obtain ⟨-, -, hnumbered⟩ := inOrder_of_new h₀ (calls ++ more)
    rw [run_append] at hnumbered
    exact hadvances.statements.isSome_captures? hnumbered.nodup hnew hsplit hbehind

theorem later_sessions_continue_of_swap :
    let calls : List Call := [.vector (.length 2) "v", .vector (.components [⟨2⟩, ⟨1⟩]) "w",
      .assign ⟨0⟩ ⟨3⟩]
    let s := ({ settings := {} } : Session).run calls
    let t := s.run [.output ⟨2⟩]
    s.schedule.statements.map Statement.id = [⟨1⟩, ⟨0⟩, ⟨2⟩] ∧
      t.schedule.statements.map Statement.id = [⟨1⟩, ⟨0⟩, ⟨3⟩, ⟨2⟩] ∧
      s.arena.standing? ⟨2⟩ = some (.stored ⟨2⟩) ∧ t.arena.standing? ⟨2⟩ = some (.named "vy") ∧
      s.Continues t := by
  intro calls s t
  have h₀ : Session.new {} = .ok { settings := {} } := rfl
  refine ⟨by decide +kernel, by decide +kernel, by decide +kernel, by decide +kernel, ?_⟩
  exact later_sessions_continue h₀ calls [.output ⟨2⟩]

end Session

end StraightLine
