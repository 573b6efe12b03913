import StraightLine.Proofs.DeclaredNames

/-! # Sessions that write every use out

With both switches off, no field is ever bound, and a second use of an operation is written out like
the first. What is left are captures: an operation that is a component of an assigned vector awaits a
store, and its next use binds what it was before. All other statements are the stores of assignments and
the declarations of merges, in the order of the requests. -/
namespace StraightLine

def Statement.capturing? (st : Statement) : Option String :=
  match st.action with
  | .declare name (some _) => some name
  | .declare _ none | .store _ => none

theorem Statement.capturing?_eq_none {st : Statement} :
    st.capturing? = none ↔ st.captures?.isNone = true := by
  unfold capturing? captures?
  cases st.action with
  | declare name captures => cases captures <;> simp
  | store place => simp

namespace Schedule

def pushed (s : Schedule) : List Statement := s.statements.filter fun st => st.captures?.isNone

variable {s t : Schedule} {earlier later : List Statement} {new : Statement}

theorem pushed_push (s : Schedule) (action : Action) (value : Phrase)
    (h : Statement.captures? ⟨⟨s.nextId⟩, action, value⟩ = none) :
    (s.push action value).2.pushed = s.pushed ++ [⟨⟨s.nextId⟩, action, value⟩] := by
  simp [pushed, List.filter_append, h]

theorem Inserted.pushed_eq (h : s.Inserted t earlier new later)
    (hnew : new.captures?.isSome = true) : t.pushed = s.pushed := by
  simp [pushed, h.before, h.after, List.filter_append, Option.ne_none_iff_isSome.2 hnew]

theorem pushed_eq_statements (h : s.statements.filterMap Statement.capturing? = []) :
    s.pushed = s.statements := by
  refine List.filter_eq_self.2 fun st hst => ?_
  exact Statement.capturing?_eq_none.1 (List.filterMap_eq_nil_iff.1 h st hst)

end Schedule

def Arena.isOperation (a : Arena) (id : NodeId) : Bool :=
  (a.kind? id).any fun kind => kind.tag ∈ [.apply, .reduction, .mapping]

namespace Session

variable {s t s₀ : Session} {id : NodeId} {effects more : List Effect}

/-- The statements that the effects of a run put behind all others: a store into every component that
was stored into, and a declaration for every merge, written as they were at that time. -/
inductive Pushed (s₀ : Session) : List Effect → List Statement → Prop
  | nil : Pushed s₀ [] []
  | used {effects : List Effect} {sts : List Statement} (past : Pushed s₀ effects sts) (id : NodeId) :
      Pushed s₀ (effects ++ [.used id]) sts
  | stored {effects : List Effect} {sts : List Statement} {t : Session} {output input : NodeId}
      {place e : Expr} (past : Pushed s₀ effects sts) (steps : Steps s₀ effects t)
      (target : t.arena.target? output = some place) (written : t.arena.expr? input = some e) :
      Pushed s₀ (effects ++ [.stored output])
        (sts ++ [⟨⟨t.schedule.nextId⟩, .store (.expr place .auto), .expr e .suppress⟩])
  | merged {effects : List Effect} {sts : List Statement} {t : Session} {test : Comparison}
      {success failure : NodeId} {value : Phrase} (past : Pushed s₀ effects sts)
      (steps : Steps s₀ effects t) (written : t.phiValue test success failure = .ok value)
      (name : String) :
      Pushed s₀ (effects ++ [.merged ⟨t.arena.size⟩ name])
        (sts ++ [⟨⟨t.schedule.nextId⟩, .declare name none, value⟩])

section Fields

/-- No field may be bound, and every one is written out. -/
def FieldsInline (s : Session) : Prop :=
  ∀ id node, s.arena.get? id = some node → node.kind.tag = .field →
    node.aliasable = false ∧ node.standing = .inline

theorem FieldsInline.grown (h : s.FieldsInline) (hgrown : s.Grown t)
    (hoff : s.settings.aliasFields = false) : t.FieldsInline := by
  intro id node hn htag
  rcases hgrown.cases hn with hold | ⟨-, hfresh⟩
  · exact h id node hold htag
  · obtain ⟨-, halias, -, hinline⟩ := hfresh
    cases hk : node.kind <;> simp_all [Kind.tag, Kind.isAliasable, Kind.isLeaf]

theorem Step.fieldsInline (h : Step s effects t) (hs : s.FieldsInline)
    (hoff : s.settings.aliasFields = false) : t.FieldsInline := by
  cases h with
  | add added => exact hs.grown added.grown hoff
  | parts get parts columns =>
    intro id node hn htag
    rcases get?_setComponents_cases get parts hn with hold | ⟨-, kind, rfl, hkind⟩
    · exact hs id node hold htag
    · cases kind <;> simp_all [Kind.tag, Kind.parts?]
  | use used =>
    intro id node hn htag
    rcases used.get?_cases hn with ⟨hold, -⟩ | ⟨-, old, hold, halias, hnode⟩
    · exact hs id node hold htag
    · have hkind : node.kind = old.kind := by
        rcases hnode with ⟨-, rfl⟩ | ⟨-, name, rfl⟩ <;> rfl
      rw [(hs _ old hold (hkind ▸ htag)).1] at halias
      cases halias
  | @store output input place e =>
    intro id node hn htag
    rw [Session.storing, modifyNode, Arena.get?_modify] at hn
    split at hn
    next =>
      obtain ⟨old, hold, rfl⟩ := Option.map_eq_some_iff.1 hn
      have hkind : (old.overwritten ⟨s.schedule.nextId⟩).kind = old.kind := by
        unfold Node.overwritten
        split <;> rfl
      have hfixed := hs id old hold (hkind ▸ htag)
      rw [Node.overwritten, if_neg (by simp [hfixed.1])]
      exact hfixed
    next => exact hs id node hn htag
  | @merge _ _ _ _ name names value length =>
    have hmerging : (s.merging names name value).FieldsInline := hs
    exact hmerging.grown (grown_addMerged _ name length) hoff

end Fields

section Captures

/-- What a session with both switches off comes to. A node other than a leaf has a name only if it was
stored into and used later, by a capture of its own, and no statement but a capture was put into the
midst of the list. -/
structure CapturesOnly (s₀ : Session) (effects : List Effect) (s : Session) : Prop where
  awaiting : ∀ id store, s.arena.standing? id = some (.stored store) → .stored id ∈ effects
  bound : ∀ p ∈ s.arena.bindings, [.stored p.1, .used p.1].Sublist effects
  captures : (s.schedule.statements.filterMap Statement.capturing?).Perm
    (s.arena.bindings.map Prod.snd)
  pushed : Pushed s₀ effects s.schedule.pushed

/-- Nothing is bound. -/
theorem CapturesOnly.keep (h : CapturesOnly s₀ effects s) {more : List Effect}
    (hbindings : t.arena.bindings = s.arena.bindings)
    (hcapturing : t.schedule.statements.filterMap Statement.capturing? =
      s.schedule.statements.filterMap Statement.capturing?)
    (hawaiting : ∀ id store, t.arena.standing? id = some (.stored store) →
      s.arena.standing? id = some (.stored store) ∨ .stored id ∈ more)
    (hpushed : Pushed s₀ (effects ++ more) t.schedule.pushed) :
    CapturesOnly s₀ (effects ++ more) t where
  awaiting id store hst := by
    rcases hawaiting id store hst with hold | hnew
    · exact List.mem_append_left _ (h.awaiting id store hold)
    · exact List.mem_append_right _ hnew
  bound p hp := (h.bound p (hbindings ▸ hp)).trans (List.sublist_append_left ..)
  captures := by
    rw [hcapturing, hbindings]
    exact h.captures
  pushed := hpushed

/-- With the switch off, a binding is a capture of the store that the node awaits. -/
theorem CapturesOnly.bind (h : CapturesOnly s₀ effects s) (hlife : s.LifeCycle) {node : Node}
    (hoff : s.settings.aliasExpressions = false) (hn : s.arena.get? id = some node)
    (halias : node.aliasable = true) (hbound : Bound (s.counted id) id t) :
    CapturesOnly s₀ (effects ++ [.used id]) t := by
  cases hbound with
  | @capture found store number name names schedule get pending allocate capture =>
    have hstanding : s.arena.standing? id = some (.stored store) := by
      rw [← standing?_counted s id, Arena.standing?_of_get? get, pending]
    obtain ⟨earlier, overwritten, later, -, hinserted⟩ := Schedule.inserted_capture capture
    replace hinserted : s.schedule.Inserted schedule _ _ _ := hinserted
    have hbindings := hlife.bindings_bound hn halias name
    refine ⟨fun other found hst => ?_, fun p hp => ?_, ?_, ?_⟩
    · rw [standing?_bound (get?_counted s hn), Function.update_apply] at hst
      split at hst
      next => cases hst
      next => exact List.mem_append_left _ (h.awaiting other found (by simpa using hst))
    · rcases List.mem_cons.1 (hbindings.mem_iff.1 hp) with rfl | hold
      · exact (List.singleton_sublist.2 (h.awaiting _ store hstanding)).append (List.Sublist.refl _)
      · exact (h.bound p hold).trans (List.sublist_append_left ..)
    · refine (hinserted.filterMap_perm Statement.capturing?).trans ?_
      exact (h.captures.cons name).trans (hbindings.map Prod.snd).symm
    · rw [show schedule.pushed = s.schedule.pushed from hinserted.pushed_eq rfl]
      exact h.pushed.used id
  | @declare found name names e get may missing allocate written =>
    -- the store that the node awaits would have to be missing from the list
    rw [get?_counted s hn, Option.some.injEq] at get
    subst get
    replace hoff : (s.counted id).settings.aliasExpressions = false := hoff
    cases hst : node.standing with
    | stored store =>
      obtain ⟨st, hmem, hid, -⟩ := hlife.pending id store (hst ▸ Arena.standing?_of_get? hn)
      exact absurd hid (Schedule.capture?_eq_none (missing store hst) st hmem)
    | inline | named => simp [mayBind, hoff, Node.pendingStore?, hst] at may

theorem Step.capturesOnly (h : Step s more t) (hs : CapturesOnly s₀ effects s)
    (hsteps : Steps s₀ effects s) (hlife : s.LifeCycle)
    (hoff : s.settings.aliasExpressions = false) : CapturesOnly s₀ (effects ++ more) t := by
  cases h with
  | add added =>
    have hgrown := added.grown
    refine hs.keep hgrown.bindings_eq (by rw [hgrown.schedule])
      (fun id store hst => .inl (hgrown.standing?_stored hst)) ?_
    rw [hgrown.schedule, List.append_nil]
    exact hs.pushed
  | parts get parts columns =>
    refine hs.keep (bindings_setComponents _ get parts) rfl (fun id store hst => .inl ?_) ?_
    · rwa [standing?_setComponents] at hst
    · rw [List.append_nil]
      exact hs.pushed
  | @use id _ used =>
    cases used with
    | fixed => exact hs.keep rfl rfl (fun _ _ => .inl) (hs.pushed.used id)
    | counted =>
      exact hs.keep (bindings_counted ..) rfl (fun _ _ hst => .inl (by simpa using hst))
        (hs.pushed.used id)
    | bound get aliasable second bound => exact hs.bind hlife hoff get aliasable bound
  | @store output input place e target written =>
    refine hs.keep (hlife.bindings_storing ..) ?_ (fun id store hst => ?_) ?_
    · simp [Session.storing, modifyNode, Session.push, Statement.capturing?]
    · exact (standing?_storing hst).imp_right fun hnew => by simp [hnew.1]
    · show Pushed s₀ _ (s.schedule.push _ _).2.pushed
      rw [s.schedule.pushed_push (.store (.expr place .auto)) (.expr e .suppress) rfl]
      exact hs.pushed.stored hsteps target written
  | @merge test success failure wanted name names value length known allocate written =>
    have hgrown := grown_addMerged (s.merging names name value) name length
    refine hs.keep hgrown.bindings_eq ?_ (fun id store hst => .inl (hgrown.standing?_stored hst)) ?_
    · rw [hgrown.schedule]
      simp [merging, Statement.capturing?]
    · rw [hgrown.schedule]
      show Pushed s₀ _ (s.schedule.push _ _).2.pushed
      rw [s.schedule.pushed_push (.declare name none) value rfl]
      exact hs.pushed.merged hsteps written name

end Captures

/-- What holds along every run with both switches off. -/
theorem Steps.capturesOnly {settings : Settings} (h₀ : Session.new settings = .ok s₀)
    (hfields : settings.aliasFields = false) (hexpressions : settings.aliasExpressions = false)
    (h : Steps s₀ effects s) : s.FieldsInline ∧ CapturesOnly s₀ effects s := by
  obtain ⟨hlife₀, hnumbered₀⟩ := lifeCycle_of_new h₀
  have hnew := eq_of_new h₀
  have hinline₀ : s₀.FieldsInline := by
    rw [hnew]
    simp [FieldsInline, Arena.get?]
  have hcaptures₀ : CapturesOnly s₀ [] s₀ := by
    refine ⟨?_, ?_, ?_, ?_⟩
    · simp [hnew, Arena.standing?, Arena.get?]
    · simp [hnew, Arena.mem_bindings, Arena.standing?, Arena.get?]
    · simp [hnew, Arena.bindings, Arena.ids, Arena.size]
    · rw [show s₀.schedule.pushed = [] by simp [hnew, Schedule.pushed]]
      exact .nil
  obtain ⟨-, -, -, -, -, hall⟩ := h.invariant (fun effects s => s.settings = settings ∧
    Steps s₀ effects s ∧ s.LifeCycle ∧ s.schedule.Numbered ∧ s.FieldsInline ∧
      CapturesOnly s₀ effects s) (wellFormed_of_new h₀)
    ⟨by rw [hnew], .refl, hlife₀, hnumbered₀, hinline₀, hcaptures₀⟩ (by
      rintro past more t u - ⟨hsettings, hsteps, hlife, hnumbered, hinline, hcaptures⟩ hstep
      exact ⟨hstep.settings_eq.trans hsettings, hsteps.snoc hstep, hstep.lifeCycle hlife hnumbered,
        hstep.numbered hnumbered, hstep.fieldsInline hinline (by rw [hsettings, hfields]),
        hstep.capturesOnly hcaptures hsteps hlife (by rw [hsettings, hexpressions])⟩)
  exact hall

/-- A node that is no leaf and has a name is an operation. -/
theorem FieldsInline.isOperation_of_mem_bindings (h : s.FieldsInline) {p : NodeId × String}
    (hp : p ∈ s.arena.bindings) : s.arena.isOperation p.1 = true := by
  obtain ⟨hstanding, hleaf⟩ := Arena.mem_bindings.1 hp
  obtain ⟨node, hn, hname⟩ := Arena.exists_of_standing? hstanding
  have hfield : node.kind.tag ≠ .field := by
    intro htag
    rw [(h p.1 node hn htag).2] at hname
    cases hname
  rw [Arena.isLeaf, Arena.kind?_of_get? hn, Option.any_some] at hleaf
  rw [Arena.isOperation, Arena.kind?_of_get? hn, Option.any_some]
  cases hk : node.kind <;> simp_all [Kind.tag, Kind.isLeaf]

/-- In a session with both switches off no field gets a name. An operation gets one only if it is used
after an assignment stored into it, and then by a capture; all other statements are the stores of
assignments and the declarations of merges, in the order of the requests. So nothing is bound, and these
are all statements, unless an assignment stores into an operation. -/
theorem inline_sessions_bind_captured_operations_only :
    ∃ s₀, Session.new Preset.inline.settings = .ok s₀ ∧ ∀ calls : List Call,
      let s := s₀.run calls
      let effects := (s₀.events calls).flatMap Event.effects
      (∀ id parent index, s.arena.kind? id = some (.field parent index) →
        s.arena.standing? id = some .inline) ∧
      (∀ p ∈ s.arena.bindings, s.arena.isOperation p.1 = true ∧
        [.stored p.1, .used p.1].Sublist effects) ∧
      (s.schedule.statements.filterMap Statement.capturing?).Perm (s.arena.bindings.map Prod.snd) ∧
      Pushed s₀ effects s.schedule.pushed ∧
      ((∀ id, .stored id ∈ effects → s.arena.isOperation id = false) →
        s.arena.bindings = [] ∧ Pushed s₀ effects s.schedule.statements) := by
  have h₀ : Session.new Preset.inline.settings = .ok { settings := Preset.inline.settings } := rfl
  refine ⟨_, h₀, fun calls => ?_⟩
  intro s effects
  obtain ⟨hinline, hcaptures⟩ :=
    ((history_of_new h₀ calls).steps (wellFormed_of_new h₀)).capturesOnly h₀ rfl rfl
  have hbound : ∀ p ∈ s.arena.bindings, s.arena.isOperation p.1 = true ∧
      [.stored p.1, .used p.1].Sublist effects := fun p hp =>
    ⟨hinline.isOperation_of_mem_bindings hp, hcaptures.bound p hp⟩
  refine ⟨fun id parent index hk => ?_, hbound, hcaptures.captures, hcaptures.pushed, fun hno => ?_⟩
  · obtain ⟨node, hn, hkind⟩ := Arena.exists_of_kind? hk
    rw [Arena.standing?_of_get? hn, (hinline id node hn (by rw [hkind]; rfl)).2]
  · have hnone : s.arena.bindings = [] := by
      refine List.eq_nil_iff_forall_not_mem.2 fun p hp => ?_
      obtain ⟨hoperation, hsub⟩ := hbound p hp
      rw [hno p.1 (hsub.subset (List.mem_cons_self ..))] at hoperation
      cases hoperation
    have hempty : s.schedule.statements.filterMap Statement.capturing? = [] := by
      have hperm := hcaptures.captures
      rw [hnone] at hperm
      exact hperm.eq_nil
    refine ⟨hnone, ?_⟩
    rw [← Schedule.pushed_eq_statements hempty]
    exact hcaptures.pushed

theorem inline_sessions_bind_captured_operations_only_of_field :
    let calls : List Call := [.scalar "x", .vector (.length 1) "v", .apply "+" [⟨0⟩, ⟨2⟩],
      .assign ⟨1⟩ ⟨3⟩, .apply "*" [⟨3⟩, ⟨2⟩], .phi ⟨⟨0⟩, "<", ⟨2⟩⟩ ⟨3⟩ ⟨4⟩ (some "m")]
    let s₀ : Session := { settings := Preset.inline.settings }
    let effects : List Effect := [.used ⟨0⟩, .used ⟨2⟩, .used ⟨3⟩, .stored ⟨2⟩, .used ⟨3⟩, .used ⟨2⟩,
      .used ⟨0⟩, .used ⟨2⟩, .used ⟨3⟩, .used ⟨4⟩, .merged ⟨5⟩ "m"]
    (s₀.run calls).schedule.statements.map Statement.declared? = [none, some "m"] ∧
      (s₀.run calls).arena.bindings = [] ∧
      Pushed s₀ effects (s₀.run calls).schedule.statements := by
  intro calls s₀ effects
  obtain ⟨found, hnew, hrun⟩ := inline_sessions_bind_captured_operations_only
  obtain rfl : s₀ = found := (eq_of_new hnew).symm
  obtain ⟨-, -, -, -, hnone⟩ := hrun calls
  have heffects : (s₀.events calls).flatMap Event.effects = effects := by decide +kernel
  rw [heffects] at hnone
  refine ⟨by decide +kernel, hnone fun id hid => ?_⟩
  obtain rfl : id = ⟨2⟩ := by simpa [effects] using hid
  decide +kernel

/-- A sum that is a component of an assigned vector is bound by its next use, to what it was before. -/
theorem sum_captured_in_inline_session :
    let s := ({ settings := Preset.inline.settings } : Session).run [.scalar "x", .scalar "y",
      .apply "+" [⟨0⟩, ⟨1⟩], .vector (.components [⟨2⟩]) "w", .assign ⟨3⟩ ⟨0⟩, .output ⟨2⟩]
    Session.new Preset.inline.settings = .ok { settings := Preset.inline.settings } ∧
      s.arena.kind? ⟨2⟩ = some (.apply "+" [⟨0⟩, ⟨1⟩]) ∧
      s.arena.standing? ⟨2⟩ = some (.named "temp0") ∧
      s.schedule.statements.map Statement.declared? = [some "temp0", none] := by
  refine ⟨rfl, ?_, ?_, ?_⟩ <;> decide +kernel

end Session

end StraightLine
