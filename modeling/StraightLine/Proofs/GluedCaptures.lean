import StraightLine.Proofs.LaterSessions

/-! # Captures and their stores

A capture is put right before the store that overwrites the place it reads. Only another capture of
the same store could come between the two. But a store has one capture at most: a node that was captured
awaits no store any more, and no other node awaits that store. So the two stay side by side whatever is
put into the list later. -/
namespace StraightLine

theorem Statement.isDeclaration_of_captures? {st : Statement} {store : StatementId}
    (h : st.captures? = some store) : st.isDeclaration = true := by
  unfold captures? at h
  unfold isDeclaration
  split at h
  next => simp_all
  next => cases h

namespace Schedule

/-- Statements have numbers of their own. A capture declares what the place of the next statement
holds, the next statement is the store that the capture refers to, and no store has two captures. -/
structure Glued (s : Schedule) : Prop extends Numbered s where
  followed : ∀ earlier capture later store, s.statements = earlier ++ capture :: later →
    capture.captures? = some store → capture.isDeclaration = true ∧
      ∃ st rest, later = st :: rest ∧ st.id = store ∧ st.isDeclaration = false ∧
        capture.value = st.target
  single : (s.statements.filterMap Statement.captures?).Nodup

variable {s t : Schedule} {earlier later : List Statement} {new : Statement}

theorem Glued.exists_store (h : s.Glued) {capture : Statement} {store : StatementId}
    (hmem : capture ∈ s.statements) (hcaptures : capture.captures? = some store) :
    ∃ st ∈ s.statements, st.id = store := by
  obtain ⟨front, rest, hsplit⟩ := List.append_of_mem hmem
  obtain ⟨-, st, tail, rfl, hid, -⟩ := h.followed front capture rest store hsplit hcaptures
  exact ⟨st, by simp [hsplit], hid⟩

/-- A statement is put into the list where no capture refers to the statement behind it. If it is a
capture, that statement is its store. -/
theorem Glued.insert (h : s.Glued) (hinserted : s.Inserted t earlier new later)
    (hfree : ∀ st rest, later = st :: rest → ∀ capture ∈ s.statements,
      capture.captures? ≠ some st.id)
    (hnew : ∀ store, new.captures? = some store → ∃ st rest, later = st :: rest ∧ st.id = store ∧
      st.isDeclaration = false ∧ new.value = st.target) : t.Glued where
  toNumbered := hinserted.numbered h.toNumbered
  followed front capture rest store hsplit hcaptures := by
    refine ⟨Statement.isDeclaration_of_captures? hcaptures, ?_⟩
    have hold := h.followed
    rw [hinserted.before] at hold
    rcases hinserted.cases hsplit with ⟨rfl, rfl, rfl⟩ | ⟨between, rfl, rfl⟩ | ⟨between, rfl, rfl⟩
    · exact hnew store hcaptures
    · obtain ⟨-, st, tail, hnext, hid, hstore⟩ :=
        hold front capture (between ++ later) store (by simp) hcaptures
      cases between with
      | nil =>
        refine absurd hcaptures ?_
        rw [← hid]
        exact hfree st tail hnext capture (by simp [hinserted.before])
      | cons next between =>
        obtain ⟨rfl, -⟩ := List.cons.inj hnext
        exact ⟨next, between ++ new :: later, rfl, hid, hstore⟩
    · obtain ⟨-, hnext⟩ := hold (earlier ++ between) capture rest store (by simp) hcaptures
      exact hnext
  single := by
    refine (hinserted.filterMap_perm Statement.captures?).nodup_iff.2 ?_
    cases hcaptures : new.captures? with
    | none => exact h.single
    | some store =>
      obtain ⟨st, rest, hlater, rfl, -⟩ := hnew store hcaptures
      refine List.nodup_cons.2 ⟨fun hmem => ?_, h.single⟩
      obtain ⟨capture, hcapture, heq⟩ := List.mem_filterMap.1 hmem
      exact hfree st rest hlater capture hcapture heq

theorem Glued.push (h : s.Glued) {action : Action} (value : Phrase)
    (hcaptures : Statement.captures? ⟨⟨s.nextId⟩, action, value⟩ = none) :
    (s.push action value).2.Glued :=
  h.insert (inserted_push ..) (by simp) (by simp [hcaptures])

end Schedule

namespace Session

variable {s t : Session} {id : NodeId} {effects : List Effect}

/-- Captures stand with their stores, and a store that a node awaits has no capture yet. -/
structure Glued (s : Session) : Prop where
  schedule : s.schedule.Glued
  awaited : ∀ id store, s.arena.standing? id = some (.stored store) →
    ∀ st ∈ s.schedule.statements, st.captures? ≠ some store

/-- Statements that are no captures are added, and no node begins to await a store. -/
theorem Glued.keep (h : s.Glued) (hschedule : t.schedule.Glued)
    (hadded : ∀ st ∈ t.schedule.statements, st ∈ s.schedule.statements ∨ st.captures? = none)
    (hpending : ∀ id store, t.arena.standing? id = some (.stored store) →
      s.arena.standing? id = some (.stored store)) : t.Glued where
  schedule := hschedule
  awaited id store hst st hmem := by
    rcases hadded st hmem with hold | hnone
    · exact h.awaited id store (hpending id store hst) st hold
    · simp [hnone]

theorem Glued.grown (h : s.Glued) (hgrown : s.Grown t) : t.Glued := by
  refine h.keep (hgrown.schedule ▸ h.schedule) (fun st hmem => ?_) fun _ _ =>
    hgrown.standing?_stored
  rw [hgrown.schedule] at hmem
  exact .inl hmem

theorem Glued.push (h : s.Glued) {action : Action} (value : Phrase)
    (hcaptures : Statement.captures? ⟨⟨s.schedule.nextId⟩, action, value⟩ = none)
    (hschedule : t.schedule = (s.schedule.push action value).2)
    (hpending : ∀ id store, t.arena.standing? id = some (.stored store) →
      s.arena.standing? id = some (.stored store)) : t.Glued := by
  refine h.keep (hschedule ▸ h.schedule.push value hcaptures) (fun st hmem => ?_) hpending
  rw [hschedule, Schedule.statements_push, List.mem_append, List.mem_singleton] at hmem
  rcases hmem with hold | rfl
  · exact .inl hold
  · exact .inr hcaptures

/-- A node that is bound awaits no store any more. -/
theorem standing?_stored_of_bound {node : Node} {name : String} {other : NodeId}
    {store : StatementId} (hn : s.arena.get? id = some node)
    (hst : ((s.counted id).arena.modify id (Node.bound name)).standing? other =
      some (.stored store)) : other ≠ id ∧ s.arena.standing? other = some (.stored store) := by
  rw [standing?_bound (get?_counted s hn), standing?_counted, Function.update_apply] at hst
  split at hst
  next => cases hst
  next hne => exact ⟨hne, hst⟩

theorem Bound.glued (h : Bound (s.counted id) id t) {node : Node} (hs : s.Glued)
    (hlife : s.LifeCycle) (hn : s.arena.get? id = some node) : t.Glued := by
  cases h with
  | @declare _ _ _ e =>
    exact hs.push (.expr e .suppress) rfl rfl fun _ _ hst => (standing?_stored_of_bound hn hst).2
  | @capture _ store _ name _ _ get pending allocate capture =>
    obtain ⟨earlier, overwritten, later, rfl, hinserted⟩ := Schedule.inserted_capture capture
    replace hinserted : s.schedule.Inserted _ _ _ _ := hinserted
    have hawaits : s.arena.standing? id = some (.stored overwritten.id) := by
      rw [← standing?_counted s id, Arena.standing?_of_get? get, pending]
    have hfree := hs.awaited id _ hawaits
    have hstore : overwritten.isDeclaration = false := by
      obtain ⟨st, hmem, hid, hstore⟩ := hlife.pending id _ hawaits
      rwa [hs.schedule.eq_of_id hmem (by simp [hinserted.before]) hid] at hstore
    refine ⟨hs.schedule.insert hinserted ?_ ?_, fun other store hst => ?_⟩
    · intro st rest hlater
      obtain ⟨rfl, -⟩ := List.cons.inj hlater
      exact hfree
    · intro store hcaptures
      cases hcaptures
      exact ⟨overwritten, later, rfl, rfl, hstore, rfl⟩
    · obtain ⟨hne, hold⟩ := standing?_stored_of_bound hn hst
      intro st hmem hcaptures
      rcases hinserted.mem_iff.1 hmem with rfl | hmem
      · cases hcaptures
        exact hne (hlife.single other id _ hold hawaits)
      · exact hs.awaited other store hold st hmem hcaptures

theorem Used.glued (h : Used s id t) (hs : s.Glued) (hlife : s.LifeCycle) : t.Glued := by
  cases h with
  | fixed => exact hs
  | counted => exact hs.keep hs.schedule (fun _ => .inl) (by simp)
  | bound get aliasable second bound => exact bound.glued hs hlife get

/-- A new store has a number that no capture refers to. -/
theorem Glued.storing (h : s.Glued) (output : NodeId) (place e : Expr) :
    (s.storing output place e).Glued := by
  have hschedule : (s.storing output place e).schedule.Glued :=
    h.schedule.push (.expr e .suppress) rfl
  refine ⟨hschedule, fun id store hst st hmem hcaptures => ?_⟩
  have hmem' : st ∈ s.schedule.statements := by
    rcases List.mem_append.1 hmem with hold | hnew
    · exact hold
    · rw [List.mem_singleton.1 hnew] at hcaptures
      cases hcaptures
  rcases standing?_storing hst with hold | ⟨rfl, hnew⟩
  · exact h.awaited id store hold st hmem' hcaptures
  · obtain ⟨found, hfound, hid⟩ := h.schedule.exists_store hmem' hcaptures
    have hlt := h.schedule.below found hfound
    cases hnew
    rw [hid] at hlt
    exact Nat.lt_irrefl _ hlt

theorem Step.glued (h : Step s effects t) (hs : s.Glued) (hlife : s.LifeCycle) : t.Glued := by
  cases h with
  | add added => exact hs.grown added.grown
  | parts => exact hs.keep hs.schedule (fun _ => .inl) (by simp)
  | use used => exact used.glued hs hlife
  | store => exact hs.storing _ _ _
  | @merge _ _ _ _ name names value length =>
    have hmerging : (s.merging names name value).Glued :=
      hs.push value rfl rfl fun _ _ hst => hst
    exact hmerging.grown (grown_addMerged _ name length)

theorem Steps.glued {s₀ : Session} {settings : Settings} (h₀ : Session.new settings = .ok s₀)
    (h : Steps s₀ effects s) : s.Glued := by
  obtain ⟨hlife₀, hnumbered₀⟩ := lifeCycle_of_new h₀
  have hglued₀ : s₀.Glued := by
    obtain rfl := eq_of_new h₀
    exact ⟨⟨hnumbered₀, by simp, by simp⟩, by simp⟩
  obtain ⟨-, -, hglued⟩ := h.invariant (fun _ s => s.LifeCycle ∧ s.Glued) (wellFormed_of_new h₀)
    ⟨hlife₀, hglued₀⟩ fun _ hs hstep =>
      ⟨hstep.lifeCycle hs.1 hs.2.schedule.toNumbered, hstep.glued hs.2 hs.1⟩
  exact hglued

theorem glued_of_new {s₀ : Session} {settings : Settings} (h₀ : Session.new settings = .ok s₀)
    (calls : List Call) : (s₀.run calls).schedule.Glued :=
  (((history_of_new h₀ calls).steps (wellFormed_of_new h₀)).glued h₀).schedule

/-- In every session that requests lead to, captures stand right before their stores, and they still
do so after any further requests. -/
theorem captures_stay_before_their_stores {s₀ : Session} {settings : Settings}
    (h₀ : Session.new settings = .ok s₀) (calls : List Call) :
    (s₀.run calls).schedule.Glued ∧ ∀ more earlier capture st later store,
      (s₀.run calls).schedule.statements = earlier ++ capture :: st :: later →
      capture.captures? = some store → ∃ front rest,
        ((s₀.run calls).run more).schedule.statements = front ++ capture :: st :: rest := by
  have hglued := glued_of_new h₀ calls
  refine ⟨hglued, fun more earlier capture st later store hsplit hcaptures => ?_⟩
  have hlater := glued_of_new h₀ (calls ++ more)
  rw [run_append] at hlater
  have hkept := (advances_run h₀ calls more).statements.sublist.subset
  obtain ⟨front, rest, hfront⟩ := List.append_of_mem (hkept (show capture ∈ _ by simp [hsplit]))
  obtain ⟨-, next, tail, rfl, hnext, -⟩ :=
    hlater.followed front capture rest store hfront hcaptures
  obtain ⟨-, _, _, hst, hid, -⟩ := hglued.followed earlier capture _ store hsplit hcaptures
  obtain ⟨rfl, -⟩ := List.cons.inj hst
  obtain rfl := hlater.eq_of_id (hkept (show st ∈ _ by simp [hsplit]))
    (show next ∈ _ by simp [hfront]) (hid.trans hnext.symm)
  exact ⟨front, tail, hfront⟩

theorem captures_stay_before_their_stores_of_swap :
    let calls : List Call := [.vector (.length 2) "v", .vector (.components [⟨2⟩, ⟨1⟩]) "w",
      .assign ⟨0⟩ ⟨3⟩]
    let s := ({ settings := {} } : Session).run calls
    let t := s.run [.output ⟨2⟩]
    s.schedule.statements.map Statement.captures? = [some ⟨0⟩, none, none] ∧
      t.schedule.statements.map Statement.captures? = [some ⟨0⟩, none, some ⟨2⟩, none] ∧
      ∃ front capture st rest, s.schedule.statements.take 2 = [capture, st] ∧
        t.schedule.statements = front ++ capture :: st :: rest := by
  intro calls s t
  have h₀ : Session.new {} = .ok { settings := {} } := rfl
  have hs : s.schedule.statements.map Statement.captures? = [some ⟨0⟩, none, none] := by
    decide +kernel
  refine ⟨hs, by decide +kernel, ?_⟩
  obtain ⟨-, hstay⟩ := captures_stay_before_their_stores h₀ calls
  obtain ⟨capture, tail, hsplit, hcapture, htail⟩ := List.map_eq_cons_iff.1 hs
  obtain ⟨st, later, rfl, -, -⟩ := List.map_eq_cons_iff.1 htail
  obtain ⟨front, rest, ht⟩ := hstay [.output ⟨2⟩] [] capture st later ⟨0⟩ hsplit hcapture
  exact ⟨front, capture, st, rest, by rw [hsplit]; rfl, ht⟩

end Session

end StraightLine
