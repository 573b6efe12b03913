import StraightLine.Proofs.DistinctNames

/-! # Declared names are identifiers

A binding is called after the position of its node, after a name on offer, or after a stem and a
number, and a merge after the name asked for or the stem of merges. Admissible settings make stems and
axis letters parts of identifiers. So where callers give identifiers, every name in use is one, and the
names of merges, which fields are called after in turn, are no exception. -/
namespace StraightLine

def Call.name? : Call → Option String
  | .scalar name | .vector _ name | .matrix _ name | .recycle name => some name
  | .phi _ _ _ wanted => wanted
  | .apply .. | .map .. | .reduce .. | .assign .. | .output _ => none

/-- A node that is added has the standing it is added with. -/
theorem Arena.standing?_register_cases {a : Arena} {id : NodeId} {node : Node} {standing : Standing}
    (h : (a.register node).2.standing? id = some standing) :
    a.standing? id = some standing ∨ standing = node.standing := by
  rw [standing?_register, Function.update_apply] at h
  split at h
  · exact .inr (Option.some.inj h).symm
  · exact .inl h

namespace Session

variable {s t : Session} {id : NodeId}

/-- Names on offer, names of nodes and declared names are identifiers, and so are those to come. -/
structure Identified (s : Session) : Prop where
  naming : s.names.naming.Admissible
  pool : ∀ name ∈ s.names.pool, isIdentifier name = true
  named : ∀ id name, s.arena.standing? id = some (.named name) → isIdentifier name = true
  declared : ∀ st ∈ s.schedule.statements, ∀ name, st.declared? = some name →
    isIdentifier name = true

/-- Names are given back at most, and new names of nodes and new declared names are identifiers. -/
theorem Identified.grow (h : s.Identified) (hnaming : t.names.naming = s.names.naming)
    (hpool : t.names.pool ⊆ s.names.pool)
    (hnamed : ∀ id name, t.arena.standing? id = some (.named name) →
      s.arena.standing? id = some (.named name) ∨ isIdentifier name = true)
    (hdeclared : ∀ st ∈ t.schedule.statements, st ∈ s.schedule.statements ∨
      ∀ name, st.declared? = some name → isIdentifier name = true) : t.Identified where
  naming := hnaming ▸ h.naming
  pool name hname := h.pool name (hpool hname)
  named id name hs := (hnamed id name hs).elim (h.named id name) fun hident => hident
  declared st hst name hname :=
    (hdeclared st hst).elim (fun hold => h.declared st hold name hname) fun hnew => hnew name hname

theorem Identified.addScalar (h : s.Identified) {name : String} (hname : isIdentifier name = true) :
    (s.addScalar name).2.Identified := by
  refine h.grow rfl (List.Subset.refl _) (fun id found hs => ?_) fun st hst => .inl hst
  rcases Arena.standing?_register_cases hs with hold | hnew
  · exact .inl hold
  · cases hnew
    exact .inr hname

/-- The fields of a vector have no names of their own. -/
theorem Identified.addVector (h : s.Identified) {name : String} (hname : isIdentifier name = true)
    (shape : Shape) (square : Bool) : (s.addVector shape name square).2.Identified := by
  refine h.grow rfl (List.Subset.refl _) (fun id found hs => ?_) fun st hst => .inl hst
  cases shape with
  | components cs =>
    rcases Arena.standing?_register_cases hs with hold | hnew
    · exact .inl hold
    · cases hnew
      exact .inr hname
  | length n =>
    obtain ⟨node, hn, hstanding⟩ := Arena.exists_of_standing? hs
    rcases Arena.registerFields_cases _ _ _ _ _ hn with hold | ⟨-, rfl⟩ | ⟨i, -, -, rfl⟩
    · exact .inl (hstanding ▸ Arena.standing?_of_get? hold)
    · cases hstanding
      exact .inr hname
    · cases hstanding

theorem Identified.intern (h : s.Identified) (key : Identity) : (s.intern key).2.Identified := by
  obtain ⟨hschedule, hnames⟩ := schedule_intern s key
  refine h.grow (by rw [hnames]) (by rw [hnames]; exact List.Subset.refl _) (fun id name hs => ?_)
    fun st hst => .inl (hschedule ▸ hst)
  cases hf : s.identities.find? key with
  | some found =>
    rw [intern_known hf] at hs
    exact .inl hs
  | none =>
    rw [intern_fresh hf] at hs
    exact .inl ((Arena.standing?_register_cases hs).resolve_right fun hnew => by cases hnew)

/-- A node is bound, by a statement put anywhere. -/
theorem Identified.bind (h : s.Identified) {node : Node} {name : String} {names : Names}
    {schedule : Schedule} {earlier later : List Statement} {new : Statement}
    (hn : s.arena.get? id = some node)
    (hallocate : s.names.allocate (s.arena.hint id) = (name, names))
    (hinserted : s.schedule.Inserted schedule earlier new later)
    (hdeclared : new.declared? = some name) :
    Identified { s with arena := s.arena.modify id (Node.bound name), names, schedule } := by
  have hident : isIdentifier name = true := by
    have hident := Names.isIdentifier_allocate h.naming h.pool fun parent hp =>
      Arena.isIdentifier_hint id h.named hp
    rwa [hallocate] at hident
  obtain ⟨hpool, hnaming⟩ := s.names.pool_allocate (s.arena.hint id)
  rw [hallocate] at hpool hnaming
  refine h.grow hnaming hpool (fun other found hs => ?_) fun st hst => ?_
  · rw [standing?_bound hn, Function.update_apply] at hs
    split at hs
    · cases hs
      exact .inr hident
    · exact .inl hs
  · rcases hinserted.mem_iff.1 hst with rfl | hold
    · refine .inr fun found hfound => ?_
      rw [hdeclared, Option.some.injEq] at hfound
      exact hfound ▸ hident
    · exact .inl hold

theorem Used.identified (h : Used s id t) (hs : s.Identified) : t.Identified := by
  have hcounted : (s.counted id).Identified :=
    hs.grow rfl (List.Subset.refl _) (fun other name hst => .inl (by simpa using hst))
      fun st hst => .inl hst
  cases h with
  | fixed => exact hs
  | counted => exact hcounted
  | bound get aliasable second bound =>
    cases bound with
    | capture get pending allocate capture =>
      obtain ⟨earlier, overwritten, later, -, hinserted⟩ := Schedule.inserted_capture capture
      exact hcounted.bind get allocate hinserted rfl
    | declare get may missing allocate written =>
      exact hcounted.bind get allocate (Schedule.inserted_push ..) rfl

theorem UsedAll.identified {ids : List NodeId} (h : UsedAll ids s t) (hs : s.Identified) :
    t.Identified := by
  induction h with
  | nil => exact hs
  | cons head tail ih => exact ih (head.identified hs)

theorem AppliedAll.identified {operation : String} {columns : List (List NodeId)} {cs : List NodeId}
    (h : AppliedAll operation columns s cs t) (hs : s.Identified) : t.Identified := by
  induction h with
  | nil => exact hs
  | cons head tail ih => exact ih (head.identified (hs.intern _))

theorem Columnwise.identified {key : Identity} {columns : List (List NodeId)}
    (h : Columnwise key columns s t) (hs : s.Identified) : t.Identified := by
  cases h with
  | known found used => exact used.identified (hs.intern key)
  | fresh new applied =>
    exact (applied.identified (hs.intern key)).grow rfl (List.Subset.refl _)
      (fun id name hst => .inl (by simpa using hst)) fun st hst => .inl hst

theorem StoredAll.identified {pairs : List (NodeId × NodeId)} (h : StoredAll pairs s t)
    (hs : s.Identified) : t.Identified := by
  induction h with
  | nil => exact hs
  | same tail ih => exact ih hs
  | store ne used target written tail ih =>
    refine ih ((used.identified hs).grow rfl (List.Subset.refl _) (fun id name hst => ?_)
      fun st hst => ?_)
    · exact (standing?_storing hst).imp_right fun hnew => by cases hnew.2
    · exact ((Schedule.inserted_push ..).mem_iff.1 hst).symm.imp_right
        fun hnew name hname => by rw [hnew] at hname; cases hname

/-- The name of a merge is the one asked for or comes from the stem of merges. -/
theorem Identified.merge (h : s.Identified) {wanted : Option String} {name : String} {names : Names}
    (hallocate : s.names.allocatePhi wanted = (name, names))
    (hwanted : ∀ name, wanted = some name → isIdentifier name = true) (value : Phrase)
    (length : Option Nat) : ((s.merging names name value).addMerged name length).2.Identified := by
  have hident := Names.isIdentifier_allocatePhi h.naming hwanted
  have htakes := s.names.takes_allocatePhi wanted
  rw [hallocate] at hident htakes
  have hmerging : (s.merging names name value).Identified := by
    refine h.grow htakes.naming (fun found hfound => htakes.pool ▸ hfound)
      (fun id found hs => .inl hs) fun st hst => ?_
    rcases (Schedule.inserted_push ..).mem_iff.1 hst with rfl | hold
    · exact .inr fun found hfound => Option.some.inj hfound ▸ hident
    · exact .inl hold
  cases length with
  | none => exact hmerging.addScalar hident
  | some n => exact hmerging.addVector hident _ _

theorem Performed.identified {call : Call} {result : Option NodeId} (h : Performed s call result t)
    (hs : s.Identified) (hname : ∀ name, call.name? = some name → isIdentifier name = true) :
    t.Identified := by
  cases h with
  | scalar name => exact hs.addScalar (hname name rfl)
  | vector name | matrix name => exact hs.addVector (hname name rfl) _ _
  | apply conditions used => exact used.identified (hs.intern _)
  | map conditions built | reduce conditions built => exact built.identified hs
  | assign conditions sources stored => exact stored.identified hs
  | phi conditions used allocate written =>
    exact (used.identified hs).merge allocate hname _ _
  | output known used => exact used.identified hs
  | recycle name =>
    refine ⟨hs.naming, fun found hfound => ?_, hs.named, hs.declared⟩
    rcases List.mem_append.1 hfound with hold | hnew
    · exact hs.pool found hold
    · exact List.mem_singleton.1 hnew ▸ hname name rfl

variable {s₀ : Session}

theorem History.identified {events : List Event} (h : History s₀ events s) (h₀ : s₀.Identified)
    (hnames : ∀ e ∈ events, ∀ name, e.call.name? = some name → isIdentifier name = true) :
    s.Identified := by
  induction h with
  | nil => exact h₀
  | snoc past last ih =>
    refine last.identified (ih fun e he => hnames e (by simp [he])) fun name hname => ?_
    exact hnames _ (List.mem_append_right _ (List.mem_singleton_self _)) name hname

theorem identified_of_new {settings : Settings} (h₀ : Session.new settings = .ok s₀) :
    s₀.Identified := by
  have hregular : s₀.Regular (fun _ => True) (fun _ => True) := regular_of_new h₀
  refine ⟨hregular.naming, by simp [hregular.pool],
    fun id name hs => (hregular.named id name hs).2, ?_⟩
  obtain rfl := eq_of_new h₀
  simp

/-- In a session with admissible settings whose callers give identifiers, also to names that they offer
for reuse, every declared name and every name of a node is an identifier. -/
theorem names_in_use_are_identifiers {settings : Settings} (h₀ : Session.new settings = .ok s₀)
    (calls : List Call)
    (hnames : ∀ call ∈ calls, ∀ name, call.name? = some name → isIdentifier name = true) :
    (∀ st ∈ (s₀.run calls).schedule.statements, ∀ name, st.declared? = some name →
        isIdentifier name = true) ∧
      ∀ id name, (s₀.run calls).arena.standing? id = some (.named name) →
        isIdentifier name = true := by
  have h := (history_of_new h₀ calls).identified (identified_of_new h₀) fun e he =>
    hnames e.call (call_mem_of_mem_events he)
  exact ⟨h.declared, h.named⟩

theorem names_in_use_are_identifiers_of_merged_field :
    let calls : List Call := [.vector (.length 2) "a", .phi ⟨⟨1⟩, "<", ⟨2⟩⟩ ⟨0⟩ ⟨0⟩ none,
      .recycle "spare", .apply "+" [⟨4⟩, ⟨4⟩], .apply "*" [⟨6⟩, ⟨6⟩]]
    let s : Session := ({ settings := {} } : Session).run calls
    s.schedule.statements.filterMap Statement.declared? = ["phi", "phix", "spare"] ∧
      (∀ name ∈ ["phi", "phix", "spare"], isIdentifier name = true) ∧
      s.arena.standing? ⟨4⟩ = some (.named "phix") ∧ isIdentifier "phix" = true := by
  intro calls s
  have h₀ : Session.new {} = .ok { settings := {} } := rfl
  obtain ⟨hdeclared, hnamed⟩ := names_in_use_are_identifiers h₀ calls (by
    intro call hcall name hname
    simp only [calls, List.mem_cons, List.not_mem_nil, or_false] at hcall
    rcases hcall with rfl | rfl | rfl | rfl | rfl <;> cases hname <;> decide)
  have hnames : s.schedule.statements.filterMap Statement.declared? = ["phi", "phix", "spare"] := by
    decide +kernel
  have hfield : s.arena.standing? ⟨4⟩ = some (.named "phix") := by decide +kernel
  refine ⟨hnames, fun name hname => ?_, hfield, hnamed ⟨4⟩ "phix" hfield⟩
  obtain ⟨st, hst, hst'⟩ := List.mem_filterMap.1 (hnames ▸ hname)
  exact hdeclared st hst name hst'

end Session

end StraightLine
