import Mathlib.Logic.Relation
import StraightLine.Proofs.DeclaredNames

/-! # Names of declarations

A name that is handed out was free, unless it was offered for reuse, and it is taken from then on. So in
a session without recycled names no two declarations bind the same name, and none binds the name of a
leaf that was there before it. -/
namespace StraightLine

namespace Names

/-- What a supply of names hands out. Both searches end, at the first number whose name is free. A name
was free, unless it was the next one on offer for reuse, and is taken from then on. -/
structure Supplies (ns : Names) : Prop where
  temporary : IsLeast {k | ns.tempCounter ≤ k ∧ ns.temporary k ∉ ns.taken}
    (ns.nextFree ns.temporary ns.tempCounter)
  phiDefault : IsLeast {k | ns.phiCounter ≤ k ∧ ns.phiDefault k ∉ ns.taken}
    (ns.nextFree ns.phiDefault ns.phiCounter)
  allocate : ∀ hint, (ns.allocate hint).1 ∉ ns.taken ∨
    ns.positional? hint = none ∧ ns.pool = (ns.allocate hint).1 :: (ns.allocate hint).2.pool
  allocatePhi : ∀ wanted, (ns.allocatePhi wanted).1 ∉ ns.taken
  taken_allocate : ∀ hint, (ns.allocate hint).2.taken = (ns.allocate hint).1 :: ns.taken
  taken_allocatePhi : ∀ wanted,
    (ns.allocatePhi wanted).2.taken = (ns.allocatePhi wanted).1 :: ns.taken

theorem supplies (ns : Names) : ns.Supplies where
  temporary := isLeast_nextFree (append_toString_injective _) _
  phiDefault := isLeast_nextFree ns.phiDefault_injective _
  allocate hint := by
    rcases ns.allocate_cases hint with htakes | ⟨hnone, hpool, -⟩
    · exact .inl htakes.free
    · exact .inr ⟨hnone, hpool⟩
  allocatePhi wanted := (ns.takes_allocatePhi wanted).free
  taken_allocate := ns.taken_allocate
  taken_allocatePhi wanted := (ns.takes_allocatePhi wanted).taken

end Names

namespace Session

variable {s t u : Session} {id : NodeId}

section Changes

/-- What requests other than the offer of a name change, one at a time. -/
inductive Change (s : Session) : Session → Prop
  | scalar (name : String) : Change s (s.addScalar name).2
  | vector (shape : Shape) (name : String) (square : Bool) :
      Change s (s.addVector shape name square).2
  | intern (key : Identity) : Change s (s.intern key).2
  | parts (id : NodeId) (cs : List NodeId) : Change s (s.setComponents id cs)
  | use {id : NodeId} {t : Session} (used : Used s id t) : Change s t
  | store (output : NodeId) (place e : Expr) : Change s (s.storing output place e)
  | merge {wanted : Option String} {name : String} {names : Names} (value : Phrase)
      (length : Option Nat) (allocate : s.names.allocatePhi wanted = (name, names)) :
      Change s ((s.merging names name value).addMerged name length).2

abbrev Changes : Session → Session → Prop := Relation.ReflTransGen Change

theorem UsedAll.changes {ids : List NodeId} (h : UsedAll ids s t) : Changes s t := by
  induction h with
  | nil => exact .refl
  | cons head tail ih => exact .head (.use head) ih

theorem AppliedAll.changes {operation : String} {columns : List (List NodeId)} {cs : List NodeId}
    (h : AppliedAll operation columns s cs t) : Changes s t := by
  induction h with
  | nil => exact .refl
  | cons head tail ih => exact .head (.intern _) (head.changes.trans ih)

theorem Columnwise.changes {key : Identity} {columns : List (List NodeId)}
    (h : Columnwise key columns s t) : Changes s t := by
  cases h with
  | known found used => exact .head (.intern key) used.changes
  | fresh new applied => exact .head (.intern key) (applied.changes.tail (.parts _ _))

theorem StoredAll.changes {pairs : List (NodeId × NodeId)} (h : StoredAll pairs s t) :
    Changes s t := by
  induction h with
  | nil => exact .refl
  | same tail ih => exact ih
  | store ne used target written tail ih => exact .head (.use used) (.head (.store _ _ _) ih)

theorem Performed.changes {call : Call} {result : Option NodeId} (h : Performed s call result t)
    (hcall : ∀ name, call ≠ .recycle name) : Changes s t := by
  cases h with
  | scalar name => exact .single (.scalar name)
  | vector name | matrix name => exact .single (.vector _ name _)
  | apply conditions used => exact .head (.intern _) used.changes
  | map conditions built | reduce conditions built => exact built.changes
  | assign conditions sources stored => exact stored.changes
  | phi conditions used allocate written => exact used.changes.tail (.merge _ _ allocate)
  | output known used => exact .single (.use used)
  | recycle name => exact absurd rfl (hcall name)

end Changes

section Drawing

/-- No name is on offer for reuse, and declared names are taken and differ. -/
structure Unclashing (s : Session) : Prop where
  pool : s.names.pool = []
  declared : ∀ st ∈ s.schedule.statements, ∀ name, st.declared? = some name → name ∈ s.names.taken
  distinct : (s.schedule.statements.filterMap Statement.declared?).Nodup

/-- A later session without clashes, in which no name is given back and every name declared since was
free before. -/
structure Draws (s t : Session) : Prop extends Unclashing t where
  taken : s.names.taken ⊆ t.names.taken
  fresh : ∀ st ∈ t.schedule.statements, st ∉ s.schedule.statements →
    ∀ name, st.declared? = some name → name ∉ s.names.taken

theorem Draws.trans (h : s.Draws t) (h' : t.Draws u) : s.Draws u where
  toUnclashing := h'.toUnclashing
  taken := List.Subset.trans h.taken h'.taken
  fresh st hst hnew name hname := by
    by_cases hmem : st ∈ t.schedule.statements
    · exact h.fresh st hmem hnew name hname
    · exact fun htaken => h'.fresh st hst hmem name hname (h.taken htaken)

/-- Nothing is declared. -/
theorem Unclashing.keep (h : s.Unclashing) (hschedule : t.schedule = s.schedule)
    (hpool : t.names.pool = s.names.pool) (htaken : s.names.taken ⊆ t.names.taken) :
    s.Draws t where
  pool := hpool.trans h.pool
  declared st hst name hname := htaken (h.declared st (hschedule ▸ hst) name hname)
  distinct := hschedule ▸ h.distinct
  taken := htaken
  fresh _ hst hnew := absurd (hschedule ▸ hst) hnew

/-- A statement is added; a name that it declares was free and is taken now. -/
theorem Unclashing.insert (h : s.Unclashing) {earlier later : List Statement} {new : Statement}
    (hinserted : s.schedule.Inserted t.schedule earlier new later)
    (hpool : t.names.pool = s.names.pool) (htaken : s.names.taken ⊆ t.names.taken)
    (hnew : ∀ name, new.declared? = some name → name ∉ s.names.taken ∧ name ∈ t.names.taken) :
    s.Draws t := by
  refine ⟨⟨hpool.trans h.pool, fun st hst name hname => ?_, ?_⟩, htaken,
    fun st hst hold name hname => ?_⟩
  · rcases hinserted.mem_iff.1 hst with rfl | hold
    · exact (hnew name hname).2
    · exact htaken (h.declared st hold name hname)
  · refine (hinserted.filterMap_perm Statement.declared?).nodup_iff.2 ?_
    cases hname : new.declared? with
    | none => exact h.distinct
    | some name =>
      refine List.nodup_cons.2 ⟨fun hdeclared => ?_, h.distinct⟩
      obtain ⟨st, hst, hst'⟩ := List.mem_filterMap.1 hdeclared
      exact (hnew name hname).1 (h.declared st hst name hst')
  · rcases hinserted.mem_iff.1 hst with rfl | hst
    · exact (hnew name hname).1
    · exact absurd hst hold

theorem Unclashing.declare (h : s.Unclashing) {earlier later : List Statement} {new : Statement}
    {name : String} (hinserted : s.schedule.Inserted t.schedule earlier new later)
    (hname : new.declared? = some name) (htakes : s.names.Takes name t.names) : s.Draws t := by
  refine h.insert hinserted htakes.pool (htakes.taken ▸ List.subset_cons_self ..)
    fun found hfound => ?_
  rw [hname, Option.some.injEq] at hfound
  subst hfound
  exact ⟨htakes.free, by simp [htakes.taken]⟩

theorem Bound.draws (h : Bound (s.counted id) id t) (hs : s.Unclashing) : s.Draws t := by
  have htakes : ∀ {name : String} {names : Names} {hint : Hint},
      s.names.allocate hint = (name, names) → s.names.Takes name names := by
    intro name names hint hallocate
    have htakes := Names.takes_allocate hs.pool hint
    rwa [hallocate] at htakes
  cases h with
  | capture get pending allocate capture =>
    obtain ⟨earlier, overwritten, later, -, hinserted⟩ := Schedule.inserted_capture capture
    exact hs.declare hinserted rfl (htakes allocate)
  | declare get may missing allocate written =>
    exact hs.declare (Schedule.inserted_push ..) rfl (htakes allocate)

theorem Change.draws (h : Change s t) (hs : s.Unclashing) : s.Draws t := by
  cases h with
  | scalar name => exact hs.keep rfl rfl (List.subset_cons_self ..)
  | vector shape name square => exact hs.keep rfl rfl (List.subset_cons_self ..)
  | intern key =>
    obtain ⟨hschedule, hnames⟩ := schedule_intern s key
    exact hs.keep hschedule (by rw [hnames]) (by rw [hnames]; exact List.Subset.refl _)
  | parts => exact hs.keep rfl rfl (List.Subset.refl _)
  | use used =>
    cases used with
    | fixed | counted => exact hs.keep rfl rfl (List.Subset.refl _)
    | bound get aliasable second bound => exact bound.draws hs
  | store =>
    exact hs.insert (Schedule.inserted_push ..) rfl (List.Subset.refl _)
      (by simp [Statement.declared?])
  | @merge wanted name names value length allocate =>
    have htakes := s.names.takes_allocatePhi wanted
    rw [allocate] at htakes
    have hmerging : s.Draws (s.merging names name value) :=
      hs.declare (Schedule.inserted_push ..) rfl htakes
    refine hmerging.trans (hmerging.toUnclashing.keep (schedule_addMerged ..) ?_ ?_)
    · cases length <;> rfl
    · rw [taken_addMerged]
      exact List.subset_cons_self ..

theorem Changes.draws (h : Changes s t) (hs : s.Unclashing) : s.Draws t := by
  induction h with
  | refl => exact hs.keep rfl rfl (List.Subset.refl _)
  | tail past last ih => exact ih.trans (last.draws ih.toUnclashing)

end Drawing

end Session

def Event.leafName? (e : Event) : Option String :=
  match e.call with
  | .scalar name | .vector _ name | .matrix _ name => some name
  | .phi .. => e.merged?.map Prod.snd
  | _ => none

namespace Session

variable {s t s₀ : Session} {events : List Event}

theorem Performed.leafName?_taken {call : Call} {result : Option NodeId}
    (h : Performed s call result t) {name : String}
    (hname : Event.leafName? ⟨s, call, result, t⟩ = some name) : name ∈ t.names.taken := by
  cases h with
  | scalar | vector | matrix =>
    cases hname
    exact List.mem_cons_self ..
  | @phi _ _ _ _ length u found names value =>
    obtain ⟨hid, node, hn, hstanding⟩ := get?_addMerged (u.merging names found value) found length
    have heq : name = found := by
      simpa [Event.leafName?, Event.merged?, hid, hn, Node.name?, hstanding, eq_comm] using hname
    rw [heq, taken_addMerged]
    exact List.mem_cons_self ..
  | apply | map | reduce | assign | output | recycle => cases hname

theorem call_mem_of_mem_events {calls : List Call} {e : Event} (h : e ∈ s.events calls) :
    e.call ∈ calls := by
  induction calls generalizing s with
  | nil => cases h
  | cons call calls ih =>
    rw [Session.events] at h
    split at h
    next =>
      rcases List.mem_cons.1 h with rfl | h
      · exact List.mem_cons_self ..
      · exact List.mem_cons_of_mem _ (ih h)
    next => exact List.mem_cons_of_mem _ (ih h)

/-- Without recycled names, declared names are drawn from the free ones, and names of leaves are
taken. -/
theorem History.draws (h : History s₀ events s) (h₀ : s₀.Unclashing)
    (hcalls : ∀ e ∈ events, ∀ name, e.call ≠ .recycle name) : s₀.Draws s ∧
      ∀ e ∈ events, ∀ name, e.leafName? = some name → name ∈ s.names.taken := by
  induction h with
  | nil => exact ⟨h₀.keep rfl rfl (List.Subset.refl _), by simp⟩
  | @snoc events s t call result past last ih =>
    obtain ⟨hs, hleaves⟩ := ih fun e he => hcalls e (by simp [he])
    have ht := (last.changes (hcalls ⟨s, call, result, t⟩ (by simp))).draws hs.toUnclashing
    refine ⟨hs.trans ht, fun e he name hname => ?_⟩
    rcases List.mem_append.1 he with he | he
    · exact ht.taken (hleaves e he name hname)
    · rw [List.mem_singleton.1 he] at hname
      exact last.leafName?_taken hname

/-- Names that are handed out are free unless they were offered for reuse. So without such offers,
declarations bind different names in every session, and none binds the name of a leaf that was there
before it. -/
theorem declared_names_are_fresh {settings : Settings} (h₀ : Session.new settings = .ok s₀) :
    (∀ ns : Names, ns.Supplies) ∧ ∀ calls more : List Call,
      (∀ name, .recycle name ∉ calls ++ more) →
      ((s₀.run calls).schedule.statements.filterMap Statement.declared?).Nodup ∧
        ∀ st ∈ ((s₀.run calls).run more).schedule.statements,
          st ∉ (s₀.run calls).schedule.statements → ∀ name, st.declared? = some name →
            ∀ e ∈ s₀.events calls, e.leafName? ≠ some name := by
  refine ⟨Names.supplies, fun calls more hcalls => ?_⟩
  have hempty : s₀.Unclashing := by
    obtain rfl := eq_of_new h₀
    exact ⟨rfl, by simp, by simp⟩
  have hallowed : ∀ {s : Session} {part : List Call}, part ⊆ calls ++ more →
      ∀ e ∈ s.events part, ∀ name, e.call ≠ .recycle name := by
    intro s part hsub e he name hcall
    exact hcalls name (hcall ▸ hsub (call_mem_of_mem_events he))
  obtain ⟨hs, hleaves⟩ :=
    (history_of_new h₀ calls).draws hempty (hallowed (List.subset_append_left ..))
  have hcomplete := (history_of_new h₀ calls).complete (complete_of_new h₀)
  obtain ⟨ht, -⟩ :=
    (History.nil.run hcomplete more).draws hs.toUnclashing (hallowed (List.subset_append_right ..))
  refine ⟨hs.distinct, fun st hst hnew name hname e he hleaf => ?_⟩
  exact ht.fresh st hst hnew name hname (hleaves e he name hleaf)

theorem declared_names_are_fresh_of_imitated_temporary :
    let calls : List Call := [.scalar "temp0", .apply "+" [⟨0⟩, ⟨0⟩]]
    let more : List Call := [.apply "*" [⟨1⟩, ⟨1⟩]]
    let s₀ : Session := { settings := {} }
    ((s₀.run calls).run more).schedule.statements.filterMap Statement.declared? = ["temp1"] ∧
      (s₀.events calls).map Event.leafName? = [some "temp0", none] ∧
      ∀ e ∈ s₀.events calls, e.leafName? ≠ some "temp1" := by
  intro calls more s₀
  have h₀ : Session.new {} = .ok s₀ := rfl
  obtain ⟨-, hfresh⟩ := declared_names_are_fresh h₀
  obtain ⟨-, hleaves⟩ := hfresh calls more (by simp [calls, more])
  have hdeclared : ((s₀.run calls).run more).schedule.statements.filterMap Statement.declared? =
      ["temp1"] := by decide +kernel
  obtain ⟨st, hst, hname⟩ := List.mem_filterMap.1 (hdeclared ▸ List.mem_singleton_self "temp1")
  have hnone : (s₀.run calls).schedule.statements = [] :=
    List.eq_nil_of_length_eq_zero (by decide +kernel)
  exact ⟨hdeclared, by decide +kernel, hleaves st hst (by simp [hnone]) "temp1" hname⟩

end Session

end StraightLine
