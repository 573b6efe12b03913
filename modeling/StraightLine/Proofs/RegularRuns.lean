import StraightLine.Proofs.Bookkeeping
import StraightLine.Proofs.Columns

/-! # Requests keep a session in order

Names and statements stay in order through every use, operation, store and merge, if the request is
admissible. What is read and what is written are given sets of nodes, so that a caller who keeps the two
apart learns that no statement reads a slot that another stores into. -/
namespace StraightLine

namespace Session

variable {s t : Session} {id : NodeId} {read written : NodeId → Prop}

/-- The name of a binding is an identifier that was free. -/
theorem Named.allocated (h : s.Named) {name : String} {names : Names}
    (hallocate : s.names.allocate (s.arena.hint id) = (name, names)) :
    s.names.Takes name names ∧ isIdentifier name = true := by
  have htakes := Names.takes_allocate h.pool (s.arena.hint id)
  have hident : isIdentifier (s.names.allocate (s.arena.hint id)).1 = true :=
    Names.isIdentifier_allocate h.naming (by simp [h.pool]) fun parent hp =>
      Arena.isIdentifier_hint id (fun other name hs => (h.named other name hs).2) hp
  rw [hallocate] at htakes hident
  exact ⟨htakes, hident⟩

/-- A pending store is one into the slot of the field that awaits it. -/
theorem Scheduled.overwritten (h : s.Scheduled) {store : StatementId} {overwritten : Statement}
    (hs : s.arena.standing? id = some (.stored store))
    (hmem : overwritten ∈ s.schedule.statements) (hid : overwritten.id = store) :
    ∃ parent vector index, s.arena.place? id = some (vector, index) ∧
      overwritten.target = .expr (.slot (.name parent vector) index) .auto := by
  obtain ⟨-, vector, index, hplace, haction⟩ := h.pending id store hs
  obtain ⟨parent, hstore⟩ := haction overwritten hmem hid
  exact ⟨parent, vector, index, hplace, by rw [Statement.target, hstore]⟩

theorem Bound.regular (h : Bound s id t) (hs : s.Regular read written) {node : Node}
    (hn : s.arena.get? id = some node) (hleaf : node.kind.isLeaf = false) (hread : read id) :
    t.Regular read written ∧ s.arena.Steady t.arena := by
  cases h with
  | @capture _ store number name names schedule get pending allocate capture =>
    obtain ⟨htakes, hident⟩ := hs.toNamed.allocated allocate
    obtain ⟨earlier, overwritten, later, hstatements, hid, rfl⟩ :=
      Schedule.capture?_eq_some capture
    have hstanding := pending ▸ Arena.standing?_of_get? get
    obtain ⟨parent, vector, index, hplace, htarget⟩ :=
      hs.toScheduled.overwritten hstanding (by simp [hstatements]) hid
    refine ⟨?_, steady_bound hn hleaf name⟩
    have hdeclared := hs.declaring ⟨earlier ++ ⟨⟨s.schedule.nextId⟩, .declare name (some store),
        overwritten.target⟩ :: overwritten :: later, s.schedule.nextId + 1⟩ (some store)
      overwritten.target htakes rfl (by simp [hstatements]; tauto) (by
        rw [htarget]
        intro slot hslot
        rw [Phrase.slots, Expr.slots, List.mem_singleton] at hslot
        exact ⟨id, hread, hslot ▸ hplace⟩)
    exact hdeclared.binding hn hleaf (by simp [htakes.taken]) hident
      (hs.toNamed.unused htakes.free)
  | @declare _ name names e get may missing allocate expression =>
    obtain ⟨htakes, hident⟩ := hs.toNamed.allocated allocate
    refine ⟨?_, steady_bound hn hleaf name⟩
    have hslots := hs.toTraced.slots hs.arena expression fun _ _ _ => hread
    have hdeclared := hs.declaring (s.schedule.push (.declare name none) (.expr e .suppress)).2 none
      (.expr e .suppress) htakes rfl (by simp; tauto) hslots
    exact hdeclared.binding hn hleaf (by simp [htakes.taken]) hident
      (hs.toNamed.unused htakes.free)

theorem Regular.counted (hs : s.Regular read written) {node : Node}
    (hn : s.arena.get? id = some node) (ha : node.aliasable = true) :
    (s.counted id).Regular read written :=
  hs.same (hs.toWellFormed.counted hn ha).1 (kind?_counted s id) (standing?_counted s id) rfl rfl

theorem Used.regular (h : Used s id t) (hs : s.Regular read written) (hread : read id) :
    t.Regular read written ∧ s.arena.Steady t.arena := by
  cases h with
  | fixed => exact ⟨hs, .refl _⟩
  | counted get aliasable =>
    exact ⟨hs.counted get aliasable,
      Arena.steady_of_same (kind?_counted s id) (standing?_counted s id)⟩
  | bound get aliasable second bound =>
    have hleaf := hs.toWellFormed.not_leaf get aliasable
    obtain ⟨ht, hsteady⟩ := bound.regular (hs.counted get aliasable) (get?_counted s get) hleaf hread
    exact ⟨ht, (Arena.steady_of_same (kind?_counted s id) (standing?_counted s id)).trans hsteady⟩

theorem UsedAll.regular {ids : List NodeId} (h : UsedAll ids s t) (hs : s.Regular read written)
    (hread : ∀ id ∈ ids, read id) : t.Regular read written ∧ s.arena.Steady t.arena := by
  induction h with
  | nil => exact ⟨hs, .refl _⟩
  | cons head tail ih =>
    obtain ⟨ht, hst⟩ := head.regular hs (hread _ (by simp))
    obtain ⟨hu, htu⟩ := ih ht fun id hid => hread id (by simp [hid])
    exact ⟨hu, hst.trans htu⟩

theorem AppliedAll.regular {operation : String} {columns : List (List NodeId)} {cs : List NodeId}
    (h : AppliedAll operation columns s cs t) (hs : s.Regular read written)
    (hc : ∀ column ∈ columns, column ≠ [] ∧ ∀ o ∈ column, s.arena.contains o = true)
    (hread : ∀ column ∈ columns, ∀ o ∈ column, read o) :
    t.Regular read written ∧ s.arena.Steady t.arena := by
  induction h with
  | nil => exact ⟨hs, .refl _⟩
  | @cons column columns s t u cs head tail ih =>
    obtain ⟨hne, hknown⟩ := hc column (by simp)
    have hkey : s.Requestable ⟨.apply, operation, column⟩ := ⟨rfl, hknown, fun _ => hne⟩
    have hint := hs.intern hkey fun _ => hread column (by simp)
    have hext := extends_intern s ⟨.apply, operation, column⟩
    obtain ⟨ht, hst⟩ := head.regular hint (hread column (by simp))
    obtain ⟨-, hsame⟩ := head.wellFormed hint.toWellFormed
    have hall := hext.trans hsame.toExtends
    obtain ⟨hu, htu⟩ := ih ht
      (fun column' hm => ⟨(hc column' (by simp [hm])).1,
        fun o ho => hall.contains ((hc column' (by simp [hm])).2 o ho)⟩)
      fun column' hm => hread column' (by simp [hm])
    exact ⟨hu, (steady_intern s _).trans (hst.trans htu)⟩

theorem Columnwise.regular {key : Identity} {columns : List (List NodeId)}
    (h : Columnwise key columns s t) (hs : s.Regular read written) (hkey : s.Requestable key)
    (hp : (key.kind []).parts? = some (key.operation, []))
    (hc : ∀ column ∈ columns, column ≠ [] ∧ ∀ o ∈ column, s.arena.contains o = true)
    (hread : ∀ o ∈ columns.flatten, read o) : t.Regular read written := by
  obtain ⟨hwf, -⟩ := h.wellFormed hs.toWellFormed hkey hp hc
  have htag : key.tag ≠ .apply := by
    obtain ⟨tag, operation, operands⟩ := key
    rintro rfl
    cases hp
  have hint := hs.intern hkey fun ha => absurd ha htag
  cases h with
  | known found used => exact (used.regular hint hread).1
  | @fresh cs u new applied =>
    have hext := extends_intern s key
    obtain ⟨hu, -⟩ := applied.regular hint
      (fun column hm => ⟨(hc column hm).1, fun o ho => hext.contains ((hc column hm).2 o ho)⟩)
      fun column hm o ho => hread o (List.mem_flatten.2 ⟨column, hm, ho⟩)
    exact hu.setComponents hwf (applied.kind?_built hs.toWellFormed hkey new hc) hp

theorem StoredAll.regular {pairs : List (NodeId × NodeId)} (h : StoredAll pairs s t)
    (hs : s.Regular read written)
    (hplace : ∀ p ∈ pairs, ∃ place, s.arena.place? p.1 = some place)
    (hread : ∀ p ∈ pairs, read p.2) (hwritten : ∀ p ∈ pairs, written p.1) :
    t.Regular read written := by
  induction h with
  | nil => exact hs
  | same tail ih =>
    exact ih hs (fun p hp => hplace p (by simp [hp])) (fun p hp => hread p (by simp [hp]))
      fun p hp => hwritten p (by simp [hp])
  | @store output input pairs s t u place e ne used target expression tail ih =>
    have hin := hread (output, input) (by simp)
    obtain ⟨⟨vector, index⟩, hout⟩ := hplace (output, input) (by simp)
    obtain ⟨ht, hst⟩ := used.regular hs hin
    have hstored := ht.storing (hst.place? hs.arena hout) target (hwritten (output, input) (by simp))
      (ht.toTraced.slots ht.arena expression fun _ _ _ => hin)
    have hsteady := hst.trans (steady_storing ht.toWellFormed output place e)
    refine ih hstored (fun p hp => ?_) (fun p hp => hread p (by simp [hp]))
      fun p hp => hwritten p (by simp [hp])
    obtain ⟨found, hfound⟩ := hplace p (by simp [hp])
    exact ⟨found, hsteady.place? hs.arena hfound⟩

/-- Elements of the ring are merged into one. -/
theorem length_of_phiLength {test : Comparison} {success failure : NodeId} {length : Option Nat}
    (h : s.phiLength test success failure = .ok length)
    (hscalar : s.arena.isScalar success = true) : length = none := by
  obtain ⟨-, yes, no, hyes, -, -, rfl⟩ := phiLength_eq_ok h
  rw [if_neg]
  simp only [Arena.isScalar, Arena.kind?_of_get? hyes, Option.any_some] at hscalar
  cases hk : yes.kind <;> simp_all [Node.isVector, Node.components?, Kind.isScalar]

theorem Regular.merging (hs : s.Regular read written) {wanted : Option String} {name : String}
    {names : Names} {test : Comparison} {success failure : NodeId} {value : Phrase}
    (hknown : ∀ id ∈ [test.left, test.right, success, failure], s.arena.contains id = true)
    (hread : ∀ id ∈ [test.left, test.right, success, failure], read id)
    (hallocate : s.names.allocatePhi wanted = (name, names))
    (hvalue : s.phiValue test success failure = .ok value) :
    (s.merging names name value).Regular read written ∧ s.names.Takes name names := by
  have htakes := s.names.takes_allocatePhi wanted
  rw [hallocate] at htakes
  obtain ⟨l, r, y, n, hl, hr, hy, hn, hchoice⟩ := Builder.phiValue_eq_ok hs.toWellFormed hknown
  rw [hvalue, Except.ok.injEq] at hchoice
  subst hchoice
  refine ⟨hs.declaring _ none (.choice l test.relation r y n) htakes rfl (by simp; tauto) ?_, htakes⟩
  have hslots : ∀ id ∈ [test.left, test.right, success, failure], ∀ e, s.arena.expr? id = some e →
      ∀ slot ∈ e.slots, ∃ field, read field ∧ s.arena.place? field = some slot :=
    fun id hid e he => hs.toTraced.slots hs.arena he fun _ _ _ => hread id hid
  intro slot hslot
  simp only [Phrase.slots, List.mem_append] at hslot
  rcases hslot with ((hslot | hslot) | hslot) | hslot
  · exact hslots test.left (by simp) l hl slot hslot
  · exact hslots test.right (by simp) r hr slot hslot
  · exact hslots success (by simp) y hy slot hslot
  · exact hslots failure (by simp) n hn slot hslot

/-- What an admissible assignment stores into are fields, and what it stores are known nodes. -/
theorem WellFormed.assigned (hs : s.WellFormed) {target source : NodeId} {result : Option NodeId}
    {outputs inputs : List NodeId} (hadm : Event.Admissible ⟨s, .assign target source, result, t⟩)
    (conditions : s.assignTargets target source = .ok outputs)
    (sources : (List.range outputs.length).mapM (s.broadcast source) = .ok inputs) :
    (∀ p ∈ outputs.zip inputs, ∃ place, s.arena.place? p.1 = some place) ∧
      ∀ p ∈ outputs.zip inputs, s.arena.contains p.2 = true := by
  rw [Event.Admissible, Event.stores_assign conditions sources] at hadm
  refine ⟨fun p hp => Option.isSome_iff_exists.1 (hadm p hp), fun p hp => ?_⟩
  obtain ⟨i, -, hi⟩ := exists_of_mem_right (forall₂_of_mapM_eq_ok sources) (List.of_mem_zip hp).2
  exact hs.contains_of_broadcast hi

/-- An admissible request keeps names and statements in order. -/
theorem Performed.regular {call : Call} {result : Option NodeId} (h : Performed s call result t)
    (hs : s.Regular read written) (hadm : Event.Admissible ⟨s, call, result, t⟩)
    (hread : ∀ id ∈ Event.sources ⟨s, call, result, t⟩, read id)
    (hwritten : ∀ p ∈ Event.stores ⟨s, call, result, t⟩, written p.1) : t.Regular read written := by
  cases h with
  | scalar name =>
    obtain ⟨hident, hfree⟩ := hadm
    exact hs.addScalar hident (hs.toNamed.unused hfree)
  | vector name known => exact hs.addVector known hadm.1 hadm.2
  | matrix name known => exact hs.addVector known hadm.1 hadm.2
  | @apply operation operands _ conditions used =>
    obtain ⟨hne, hknown, -⟩ := checkApply_eq_ok.1 conditions
    have hoperands : ∀ o ∈ operands, read o := hread
    have hkey : s.Requestable ⟨.apply, operation, operands⟩ := ⟨rfl, hknown, fun _ => hne⟩
    have hint := hs.intern hkey fun _ => hoperands
    exact (used.regular hint hoperands).1
  | map conditions built =>
    obtain ⟨hknown, -, hc⟩ := hs.toWellFormed.mapColumns conditions
    rw [Event.sources_map conditions] at hread
    exact built.regular hs ⟨rfl, hknown, by simp⟩ rfl hc hread
  | reduce conditions built =>
    obtain ⟨hknown, -, hc⟩ := hs.toWellFormed.reduceColumns conditions
    rw [Event.sources_reduce conditions] at hread
    exact built.regular hs ⟨rfl, hknown, by simp⟩ rfl hc hread
  | @assign target source outputs inputs _ conditions sources stored =>
    rw [Event.sources_assign, Event.stores_assign conditions sources] at hread
    rw [Event.stores_assign conditions sources] at hwritten
    obtain ⟨hplace, -⟩ := hs.toWellFormed.assigned hadm conditions sources
    exact stored.regular hs hplace (fun p hp => hread p.2 (List.mem_map_of_mem hp)) hwritten
  | @phi test success failure wanted length u name names value conditions used allocate choice =>
    obtain ⟨-, hwanted, hscalar⟩ := hadm
    obtain ⟨hknown, -⟩ := phiLength_eq_ok conditions
    obtain rfl := length_of_phiLength conditions (hscalar success (by simp [Event.sources]))
    obtain ⟨hu, -⟩ := used.regular hs hread
    obtain ⟨-, hsame⟩ := used.wellFormed hs.toWellFormed
    have hident := Names.isIdentifier_allocatePhi hu.naming ((Option.all_eq_true ..).1 hwanted)
    rw [allocate] at hident
    obtain ⟨hmerged, htakes⟩ := hu.merging (fun id hid => hsame.toExtends.contains (hknown id hid))
      hread allocate choice
    exact hmerged.addScalar hident (hu.toNamed.unused htakes.free)
  | output known used => exact (used.regular hs (hread _ (by simp [Event.sources]))).1
  | recycle name => exact hadm.elim

theorem History.regular {s₀ : Session} {settings : Settings} (h₀ : Session.new settings = .ok s₀)
    {events : List Event} (h : History s₀ events s) (hadm : ∀ e ∈ events, e.Admissible)
    (hread : ∀ e ∈ events, ∀ id ∈ e.sources, read id)
    (hwritten : ∀ e ∈ events, ∀ p ∈ e.stores, written p.1) : s.Regular read written := by
  induction h with
  | nil => exact regular_of_new h₀
  | @snoc events s t call result past last ih =>
    have hs := ih (fun e he => hadm e (by simp [he])) (fun e he => hread e (by simp [he]))
      fun e he => hwritten e (by simp [he])
    exact last.regular hs (hadm ⟨s, call, result, t⟩ (by simp))
      (hread ⟨s, call, result, t⟩ (by simp)) (hwritten ⟨s, call, result, t⟩ (by simp))

/-- A slot is the slot of one field. -/
theorem Regular.eq_of_place? (h : s.Regular read written) {one other : NodeId} {place : String × Nat}
    (hone : s.arena.place? one = some place) (hother : s.arena.place? other = some place) :
    one = other := by
  obtain ⟨vector, index⟩ := place
  obtain ⟨parent, hk, hs⟩ := Arena.place?_eq_some.1 hone
  obtain ⟨parent', hk', hs'⟩ := Arena.place?_eq_some.1 hother
  obtain rfl := h.distinct parent parent' vector hs hs'
  obtain ⟨cs, square, hv, hc⟩ := h.arena.parent_of_kind? hk
  obtain ⟨cs', square', hv', hc'⟩ := h.arena.parent_of_kind? hk'
  rw [hv] at hv'
  cases hv'
  rw [hc] at hc'
  cases hc'
  rfl

/-- If no node is both read and written, no slot is. -/
theorem Regular.not_stored (h : s.Regular read written) (hapart : ∀ id, read id → ¬written id)
    {slot : String × Nat} (hslot : ∃ id, read id ∧ s.arena.place? id = some slot) :
    ∀ st ∈ s.schedule.statements, st.stored? ≠ some slot := by
  intro st hst hstored
  obtain ⟨id, hread, hplace⟩ := hslot
  obtain ⟨id', hwritten, hplace'⟩ := h.stores st hst slot hstored
  obtain rfl := h.eq_of_place? hplace hplace'
  exact hapart id hread hwritten

theorem Regular.readsBeforeStores (h : s.Regular read written)
    (hapart : ∀ id, read id → ¬written id) : ReadsBeforeStores s.schedule.statements := by
  refine List.pairwise_of_forall_mem_list fun earlier he later hl slot hslot => ?_
  exact h.not_stored hapart (h.reads later hl slot hslot) earlier he

end Session

end StraightLine
