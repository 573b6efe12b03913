import StraightLine.Proofs.RegularRuns
import StraightLine.Proofs.Soundness

/-! # Kernels compute what was asked for

Statements and values agree through every admissible request, as long as no statement reads a slot that
an earlier one has overwritten. So a kernel leaves the caller's memory as the assignments ask, and what
it returns has the value that was asked for. -/
namespace StraightLine

namespace Session

variable {R : Type*} [CommRing R] {s t : Session} {id : NodeId} {read written : NodeId → Prop}
  {I : Interpretation R} {k : Meaning R} {m : Memory R}

/-- The value that a field had before its store is bound right before that store. -/
theorem Faithful.capture (h : Faithful I k s m) (hs : s.Regular read written) {store : StatementId}
    {name : String} {names : Names} {earlier later : List Statement} {overwritten : Statement}
    (hstanding : s.arena.standing? id = some (.stored store))
    (htakes : s.names.Takes name names)
    (hstatements : s.schedule.statements = earlier ++ overwritten :: later)
    (hid : overwritten.id = store)
    (hreads : ReadsBeforeStores (earlier ++ ⟨⟨s.schedule.nextId⟩, .declare name (some store),
      overwritten.target⟩ :: overwritten :: later)) :
    Faithful I k { s with names, schedule := ⟨earlier ++ ⟨⟨s.schedule.nextId⟩,
        .declare name (some store), overwritten.target⟩ :: overwritten :: later,
        s.schedule.nextId + 1⟩ } (m.bind name (k.returned s.arena id)) := by
  obtain ⟨parent, vector, index, hplace, htarget⟩ :=
    hs.toScheduled.overwritten hstanding (by simp [hstatements]) hid
  obtain ⟨owner, hk, hname⟩ := Arena.place?_eq_some.1 hplace
  have hident := (hs.named owner vector hname).2
  have hscalar : s.arena.isScalar id = true := by simp [Arena.isScalar, hk, Kind.isScalar]
  have hrun := h.run
  rw [hstatements, execute_append, Option.bind_eq_some_iff] at hrun
  obtain ⟨m₁, hearlier, hlater⟩ := hrun
  have hunstored : ∀ st ∈ earlier, st.stored? ≠ some (vector, index) :=
    hreads.reads (vector, index) (by simp [htarget, Phrase.slots, Expr.slots])
  have hslot := hs.toScheduled.slot?_run hs.arena hearlier (by simp [hstatements]) hplace hunstored
  rw [h.fields id vector index hplace, ← k.returned_of_isScalar hscalar] at hslot
  have hvalue : evaluate I m₁ overwritten.target.text = some (k.returned s.arena id) := by
    rw [htarget]
    exact (readsUnary_slot hident hslot).sum.evaluate
  refine h.declaring hs.toNamed htakes ?_
  show execute I k.start (earlier ++ _ :: overwritten :: later) = _
  rw [execute_append, hearlier, Option.bind_some, execute_cons]
  simp only [Statement.execute, hvalue, Option.bind_some]
  -- the statements behind the capture do not know the new name, so they run as before
  exact execute_bind hlater (h.unbound name htakes.free) _

/-- A text that reads no overwritten slot is declared at the end. -/
theorem Faithful.declare (h : Faithful I k s m) (hs : s.Regular read written) (value : Phrase)
    {name : String} {names : Names} {v : Quantity R} (htakes : s.names.Takes name names)
    (hvalue : evaluate I m value.text = some v) :
    Faithful I k (s.merging names name value) (m.bind name v) := by
  refine h.declaring hs.toNamed htakes ?_
  show execute I k.start (s.schedule.statements ++ [_]) = _
  rw [execute_append, h.run, Option.bind_some, execute_cons]
  simp [Statement.execute, hvalue]

theorem Bound.faithful (hb : Bound s id t) (h : Faithful I k s m) (hs : s.Regular read written)
    {node : Node} (hn : s.arena.get? id = some node) (hleaf : node.kind.isLeaf = false)
    (hreads : ReadsBeforeStores t.schedule.statements) : ∃ m', Faithful I k t m' := by
  cases hb with
  | @capture _ store number name names schedule get pending allocate capture =>
    obtain ⟨htakes, -⟩ := hs.toNamed.allocated allocate
    obtain ⟨earlier, overwritten, later, hstatements, hid, rfl⟩ :=
      Schedule.capture?_eq_some capture
    have hstanding := pending ▸ Arena.standing?_of_get? get
    have hdeclared := h.capture hs hstanding htakes hstatements hid hreads
    exact ⟨_, hdeclared.binding ⟨hs.arena, hs.leaves, hs.identities⟩ hn hleaf Memory.bind_self⟩
  | @declare _ name names e get may missing allocate expression =>
    obtain ⟨htakes, -⟩ := hs.toNamed.allocated allocate
    have hvalue := (h.reads hs expression hreads.reads).sum.evaluate
    have hdeclared := h.declare hs (.expr e .suppress) htakes hvalue
    exact ⟨_, hdeclared.binding ⟨hs.arena, hs.leaves, hs.identities⟩ hn hleaf Memory.bind_self⟩

theorem Used.faithful (hu : Used s id t) (h : Faithful I k s m) (hs : s.Regular read written)
    (hreads : ReadsBeforeStores t.schedule.statements) : ∃ m', Faithful I k t m' := by
  cases hu with
  | fixed => exact ⟨m, h⟩
  | counted get aliasable =>
    exact ⟨m, h.same (kind?_counted s id) (standing?_counted s id) rfl rfl⟩
  | bound get aliasable second bound =>
    have hleaf := hs.toWellFormed.not_leaf get aliasable
    exact bound.faithful (h.same (kind?_counted s id) (standing?_counted s id) rfl rfl)
      (hs.counted get aliasable) (get?_counted s get) hleaf hreads

theorem UsedAll.faithful {ids : List NodeId} (hu : UsedAll ids s t) (h : Faithful I k s m)
    (hs : s.Regular read written) (hread : ∀ id ∈ ids, read id)
    (hreads : ReadsBeforeStores t.schedule.statements) : ∃ m', Faithful I k t m' := by
  induction hu generalizing m with
  | nil => exact ⟨m, h⟩
  | cons head tail ih =>
    obtain ⟨m₁, h₁⟩ := head.faithful h hs (hreads.sublist tail.sublist)
    obtain ⟨ht, -⟩ := head.regular hs (hread _ (by simp))
    exact ih h₁ ht (fun id hid => hread id (by simp [hid])) hreads

/-- Only the nodes that are used may be bound to names. -/
theorem UsedAll.standing?_of_not_mem {ids : List NodeId} (hu : UsedAll ids s t) (hid : id ∉ ids) :
    t.arena.standing? id = s.arena.standing? id := by
  induction hu with
  | nil => rfl
  | @cons other ids s t u head tail ih =>
    rw [List.mem_cons, not_or] at hid
    rw [ih hid.2]
    cases head with
    | fixed => rfl
    | counted => rw [standing?_counted]
    | bound get aliasable second bound =>
      rw [← standing?_counted s other]
      cases bound <;> exact Arena.standing?_modify_of_ne hid.1

theorem AppliedAll.faithful {operation : String} {columns : List (List NodeId)} {cs : List NodeId}
    (ha : AppliedAll operation columns s cs t) (h : Faithful I k s m) (hs : s.Regular read written)
    (hop : isArithmetic operation = true)
    (hc : ∀ column ∈ columns, column ≠ [] ∧ ∀ o ∈ column, s.arena.contains o = true)
    (hread : ∀ column ∈ columns, ∀ o ∈ column, read o)
    (hscalars : ∀ column ∈ columns, ∀ o ∈ column, s.arena.isScalar o = true)
    (hreads : ReadsBeforeStores t.schedule.statements) :
    k.Keeps ((columnOperations operation cs columns).foldl (Meaning.operate I) k) s.arena ∧
      ∃ m', Faithful I ((columnOperations operation cs columns).foldl (Meaning.operate I) k) t m' := by
  induction ha generalizing k m with
  | nil => exact ⟨fun _ _ => rfl, m, h⟩
  | @cons column columns s t u cs head tail ih =>
    obtain ⟨hne, hknown⟩ := hc column (by simp)
    have hcolumn := hread column (by simp)
    have hkey : s.Requestable ⟨.apply, operation, column⟩ := ⟨rfl, hknown, fun _ => hne⟩
    have hint := hs.intern hkey fun _ => hcolumn
    have hasked := h.intern_apply hs hkey hop (hscalars column (by simp))
    obtain ⟨ht, hst⟩ := head.regular hint hcolumn
    obtain ⟨m₁, h₁⟩ := head.faithful hasked hint hcolumn (hreads.sublist tail.sublist)
    obtain ⟨-, hsame⟩ := head.wellFormed hint.toWellFormed
    have hall := (extends_intern s ⟨.apply, operation, column⟩).trans hsame.toExtends
    have hsteady := (steady_intern s ⟨.apply, operation, column⟩).trans hst
    obtain ⟨hkeeps, hfaithful⟩ := ih h₁ ht
      (fun column' hm => ⟨(hc column' (by simp [hm])).1,
        fun o ho => hall.contains ((hc column' (by simp [hm])).2 o ho)⟩)
      (fun column' hm => hread column' (by simp [hm]))
      (fun column' hm o ho => hsteady.isScalar (hscalars column' (by simp [hm]) o ho)) hreads
    refine ⟨fun c hc => ?_, hfaithful⟩
    exact (hkeeps c (hall.contains hc)).trans (h.keeps_operate hs operation column c hc)

/-- A node that is no operand of any column stays as it is written. -/
theorem AppliedAll.standing?_of_not_mem {operation : String} {columns : List (List NodeId)}
    {cs : List NodeId} (ha : AppliedAll operation columns s cs t) {standing : Standing}
    (hid : ∀ column ∈ columns, id ∉ column) (hst : s.arena.standing? id = some standing) :
    t.arena.standing? id = some standing := by
  induction ha with
  | nil => exact hst
  | @cons column columns s t u cs head tail ih =>
    refine ih (fun column' hm => hid column' (by simp [hm])) ?_
    rw [head.standing?_of_not_mem (hid column (by simp))]
    cases hf : s.identities.find? ⟨.apply, operation, column⟩ with
    | some known =>
      rw [intern_known hf]
      exact hst
    | none =>
      rw [intern_fresh hf, Arena.standing?_register,
        Function.update_of_ne (Arena.ne_size_of_standing? hst)]
      exact hst

/-- Operations asked for again keep all values. -/
theorem Faithful.columnOperations_eq_self (h : Faithful I k s m) {operation : String}
    {columns : List (List NodeId)} {cs : List NodeId}
    (hall : List.Forall₂ (fun c column => s.arena.kind? c = some (.apply operation column)) cs columns) :
    (columnOperations operation cs columns).foldl (Meaning.operate I) k = k := by
  induction hall with
  | nil => rfl
  | cons head tail ih =>
    rw [columnOperations, List.zipWith_cons_cons, List.foldl_cons, h.operate_eq_self head]
    exact ih

/-- The parts of a node on record have the values that its columns ask for. -/
theorem Faithful.columns_of_known (h : Faithful I k s m) (hs : s.Regular read written)
    (hcolumned : s.Columned) {key : Identity} {columns : List (List NodeId)} {found : NodeId}
    (hp : (key.kind []).parts? = some (key.operation, []))
    (hcolumns : s.columns key = .ok columns) (hf : s.identities.find? key = some found) :
    ∃ cs kind, s.arena.kind? found = some kind ∧ kind.parts? = some (key.operation, cs) ∧
      (columnOperations key.operation cs columns).foldl (Meaning.operate I) k = k := by
  obtain ⟨node, hn, hident⟩ := (hs.identities key found).1 hf
  have hk := Arena.kind?_of_get? hn
  obtain ⟨cs, hparts⟩ : ∃ cs, node.kind.parts? = some (key.operation, cs) := by
    generalize node.kind = kind at hident ⊢
    cases kind with
    | scalar | vector | field => cases hident
    | apply operation operands =>
      cases hident
      cases hp
    | reduction operation operands cs | mapping operation operands cs =>
      cases hident
      exact ⟨cs, rfl⟩
  obtain ⟨columns', hcolumns', hall⟩ := hcolumned found node.kind key key.operation cs hk hident hparts
  rw [hcolumns, Except.ok.injEq] at hcolumns'
  subst hcolumns'
  exact ⟨cs, node.kind, hk, hparts, h.columnOperations_eq_self hall⟩

theorem Columnwise.faithful {key : Identity} {columns : List (List NodeId)}
    (hb : Columnwise key columns s t) (h : Faithful I k s m) (hs : s.Regular read written)
    (hcolumned : s.Columned) (hkey : s.Requestable key)
    (hp : (key.kind []).parts? = some (key.operation, []))
    (hcolumns : s.columns key = .ok columns) (hop : isArithmetic key.operation = true)
    (hc : ∀ column ∈ columns, column ≠ [] ∧ ∀ o ∈ column, s.arena.contains o = true)
    (hread : ∀ o ∈ columns.flatten, read o)
    (hscalars : ∀ o ∈ columns.flatten, s.arena.isScalar o = true)
    (hreads : ReadsBeforeStores t.schedule.statements) :
    k.Keeps ((columnOperations key.operation (t.arena.parts (s.intern key).1.1) columns).foldl
        (Meaning.operate I) k) s.arena ∧
      ∃ m', Faithful I ((columnOperations key.operation (t.arena.parts (s.intern key).1.1)
        columns).foldl (Meaning.operate I) k) t m' := by
  have htag : key.tag ≠ .apply := by
    obtain ⟨tag, operation, operands⟩ := key
    rintro rfl
    cases hp
  have hint := hs.intern hkey fun ha => absurd ha htag
  have hasked := h.intern_parts hs hp
  have hext := extends_intern s key
  have hsteady := steady_intern s key
  cases hb with
  | @known found _ hf used =>
    obtain ⟨cs, kind, hk, hparts, hself⟩ := h.columns_of_known hs hcolumned hp hcolumns hf
    have hkind : t.arena.kind? found = some kind := by
      rw [used.kind?_eq hint.toWellFormed, intern_known hf, hk]
    have hcs : t.arena.parts (s.intern key).1.1 = cs := by
      simp [intern_known hf, Arena.parts, hkind, hparts]
    rw [hcs, hself]
    exact ⟨fun _ _ => rfl, used.faithful hasked hint hread hreads⟩
  | @fresh cs u new applied =>
    have hc' : ∀ column ∈ columns, column ≠ [] ∧
        ∀ o ∈ column, (s.intern key).2.arena.contains o = true := fun column hm =>
      ⟨(hc column hm).1, fun o ho => hext.contains ((hc column hm).2 o ho)⟩
    have hread' : ∀ column ∈ columns, ∀ o ∈ column, read o := fun column hm o ho =>
      hread o (List.mem_flatten.2 ⟨column, hm, ho⟩)
    have hscalars' : ∀ column ∈ columns, ∀ o ∈ column, (s.intern key).2.arena.isScalar o = true :=
      fun column hm o ho => hsteady.isScalar (hscalars o (List.mem_flatten.2 ⟨column, hm, ho⟩))
    obtain ⟨hkeeps, m', happlied⟩ := applied.faithful hasked hint hop hc' hread' hscalars' hreads
    obtain ⟨hu, -⟩ := applied.regular hint hc' hread'
    have hbuilt := applied.kind?_built hs.toWellFormed hkey new hc
    have hinline : u.arena.standing? (s.intern key).1.1 = some .inline := by
      refine applied.standing?_of_not_mem (fun column hm hmem => ?_) ?_
      · have hknown := (hc column hm).2 _ hmem
        simp [intern_fresh new, Arena.contains] at hknown
      · simp [intern_fresh new, Arena.standing?_register]
    obtain ⟨kind', hp', -, hkind⟩ := kind?_setComponents cs hbuilt hp
    have hcs : (u.setComponents (s.intern key).1.1 cs).arena.parts (s.intern key).1.1 = cs := by
      simp [Arena.parts, hkind, hp']
    rw [hcs]
    exact ⟨fun c hm => hkeeps c (hext.contains hm), m',
      happlied.setComponents hu cs hbuilt hp hinline⟩

omit [CommRing R] in
/-- An assignment means the same in every graph of the same kinds and leaves. -/
theorem overwrite_steady {a b : Arena} (ha : a.WellFormed) (hsteady : a.Steady b)
    (hkind : b.kind? = a.kind?) {p : NodeId × NodeId} {place : String × Nat}
    (hp : a.contains p.2 = true) (hplace : a.place? p.1 = some place) (k : Meaning R) :
    k.overwrite b p = k.overwrite a p := by
  obtain ⟨node, hn⟩ := Arena.contains_iff.1 hp
  have hk := Arena.kind?_of_get? hn
  have hreturned : k.returned b p.2 = k.returned a p.2 := Meaning.returned_congr ha hk (hkind ▸ hk)
    (fun _ _ name hv hs => ⟨hsteady.leaf p.2 node.kind name hk (by rw [hv]; rfl) hs, rfl⟩)
    fun _ _ => rfl
  rw [Meaning.overwrite, Meaning.overwrite, hplace, hsteady.place? ha hplace, hreturned]

theorem StoredAll.faithful {pairs : List (NodeId × NodeId)} (hst : StoredAll pairs s t)
    (h : Faithful I k s m) (hs : s.Regular read written) {a : Arena} (ha : a.WellFormed)
    (hsteady : a.Steady s.arena) (hkind : s.arena.kind? = a.kind?)
    (hknown : ∀ p ∈ pairs, a.contains p.2 = true)
    (hplace : ∀ p ∈ pairs, ∃ place, a.place? p.1 = some place)
    (hread : ∀ p ∈ pairs, read p.2) (hwritten : ∀ p ∈ pairs, written p.1)
    (hreads : ReadsBeforeStores t.schedule.statements) :
    ∃ m', Faithful I (pairs.foldl (Meaning.overwrite a) k) t m' := by
  induction hst generalizing k m with
  | nil => exact ⟨m, h⟩
  | @same id pairs s t tail ih =>
    have hself : k.overwrite a (id, id) = k := if_pos rfl
    rw [List.foldl_cons, hself]
    exact ih h hs hsteady hkind (fun p hp => hknown p (by simp [hp]))
      (fun p hp => hplace p (by simp [hp])) (fun p hp => hread p (by simp [hp]))
      (fun p hp => hwritten p (by simp [hp])) hreads
  | @store output input pairs s t u place e ne used target expression tail ih =>
    have hin := hread (output, input) (by simp)
    have hout := hwritten (output, input) (by simp)
    obtain ⟨⟨vector, index⟩, hslot⟩ := hplace (output, input) (by simp)
    obtain ⟨ht, hst⟩ := used.regular hs hin
    have hall := hsteady.trans hst
    have hkind' : t.arena.kind? = a.kind? := (used.wellFormed hs.toWellFormed).2.kind?_eq.trans hkind
    have hstored : ReadsBeforeStores (t.schedule.statements ++ [⟨⟨t.schedule.nextId⟩,
        .store (.expr place .auto), .expr e .suppress⟩]) := hreads.sublist tail.sublist
    obtain ⟨m₁, h₁⟩ := used.faithful h hs (hstored.sublist (List.sublist_append_left ..))
    have hslot' := hall.place? ha hslot
    obtain ⟨m₂, h₂⟩ := h₁.storing ht ne hslot' target expression hstored.reads
    rw [overwrite_steady ha hall hkind' (hknown (output, input) (by simp)) hslot] at h₂
    have hnext := ht.storing hslot' target hout
      (ht.toTraced.slots ht.arena expression fun _ _ _ => hin)
    rw [List.foldl_cons]
    exact ih h₂ hnext (hall.trans (steady_storing ht.toWellFormed output place e))
      ((kind?_storing t output place e).trans hkind') (fun p hp => hknown p (by simp [hp]))
      (fun p hp => hplace p (by simp [hp])) (fun p hp => hread p (by simp [hp]))
      (fun p hp => hwritten p (by simp [hp])) hreads

/-- A merge of elements of the ring declares the element that its comparison picks. -/
theorem Faithful.merging (h : Faithful I k s m) (hs : s.Regular read written) {name : String}
    {names : Names} {test : Comparison} {success failure : NodeId} {value : Phrase}
    (htakes : s.names.Takes name names) (hrelation : isRelation test.relation = true)
    (hscalar : ∀ id ∈ [test.left, test.right, success, failure], s.arena.isScalar id = true)
    (hknown : ∀ id ∈ [test.left, test.right, success, failure], s.arena.contains id = true)
    (hvalue : s.phiValue test success failure = .ok value)
    (hslots : ∀ slot ∈ value.slots, ∀ st ∈ s.schedule.statements, st.stored? ≠ some slot) :
    Faithful I k (s.merging names name value)
      (m.bind name (.scalar (k.merged I test success failure))) := by
  obtain ⟨l, r, y, n, hl, hr, hy, hn, hchoice⟩ := Builder.phiValue_eq_ok hs.toWellFormed hknown
  rw [hvalue, Except.ok.injEq] at hchoice
  subst hchoice
  have hterm : ∀ id ∈ [test.left, test.right, success, failure], ∀ e, s.arena.expr? id = some e →
      (∀ slot ∈ e.slots, ∀ st ∈ s.schedule.statements, st.stored? ≠ some slot) →
      e.term.Reads I m (.scalar (k.value id)) := by
    intro id hid e he hread
    rw [← k.returned_of_isScalar (hscalar id hid)]
    exact h.reads hs he hread
  have hleft := hterm test.left (by simp) l hl fun slot hm => hslots slot (by simp [Phrase.slots, hm])
  have hright := hterm test.right (by simp) r hr fun slot hm =>
    hslots slot (by simp [Phrase.slots, hm])
  have hsuccess := hterm success (by simp) y hy fun slot hm =>
    hslots slot (by simp [Phrase.slots, hm])
  have hfailure := hterm failure (by simp) n hn fun slot hm =>
    hslots slot (by simp [Phrase.slots, hm])
  have hchosen := evaluate_choice hrelation hleft.operand.sum hright.operand.sum hsuccess.sum
    hfailure.sum
  refine h.declare hs _ htakes (hchosen.trans (congrArg some ?_))
  rw [Meaning.merged]
  split <;> rfl

/-- A merge of elements of the ring adds a scalar with the value that is picked. -/
theorem Faithful.merge (h : Faithful I k s m) (hs : s.Regular read written) {u : Session}
    {test : Comparison} {success failure : NodeId} {wanted : Option String} {name : String}
    {names : Names} {value : Phrase} (hrelation : isRelation test.relation = true)
    (hscalar : ∀ id ∈ [test.left, test.right, success, failure], s.arena.isScalar id = true)
    (hknown : ∀ id ∈ [test.left, test.right, success, failure], s.arena.contains id = true)
    (hread : ∀ id ∈ [test.left, test.right, success, failure], read id)
    (used : UsedAll [test.left, test.right, success, failure] s u)
    (allocate : u.names.allocatePhi wanted = (name, names))
    (choice : u.phiValue test success failure = .ok value)
    (hreads : ReadsBeforeStores (u.merging names name value).schedule.statements) :
    k.Keeps (k.assign ⟨u.arena.size⟩ (k.merged I test success failure)) s.arena ∧
      ∃ m', Faithful I (k.assign ⟨u.arena.size⟩ (k.merged I test success failure))
        ((u.merging names name value).addScalar name).2 m' := by
  obtain ⟨hu, hsteady⟩ := used.regular hs hread
  obtain ⟨-, hsame⟩ := used.wellFormed hs.toWellFormed
  have hknown' : ∀ id ∈ [test.left, test.right, success, failure], u.arena.contains id = true :=
    fun id hid => hsame.toExtends.contains (hknown id hid)
  have hdeclared : ReadsBeforeStores (u.schedule.statements ++ [⟨⟨u.schedule.nextId⟩,
      .declare name none, value⟩]) := hreads
  obtain ⟨m₁, h₁⟩ := used.faithful h hs hread (hdeclared.sublist (List.sublist_append_left ..))
  obtain ⟨hmerged, htakes⟩ := hu.merging hknown' hread allocate choice
  have h₂ := h₁.merging hu htakes hrelation (fun id hid => hsteady.isScalar (hscalar id hid))
    hknown' choice hdeclared.reads
  have hkeeps : k.Keeps (k.assign ⟨u.arena.size⟩ (k.merged I test success failure)) s.arena := by
    rw [hsame.size_eq]
    exact Meaning.keeps_assign k _
  refine ⟨hkeeps, _, h₂.addScalar hmerged h₂.run (fun other hother => ?_) h₂.final
    (fun _ _ => ⟨rfl, rfl, rfl⟩) rfl Memory.bind_self⟩
  exact h₂.unbound other fun hmem => hother (List.mem_cons_of_mem _ hmem)

/-- The caller passes in a scalar. -/
theorem Faithful.enterScalar (h : Faithful I k s m) (hs : s.Regular read written) {name : String}
    (hfree : name ∉ s.names.taken) (x : R) :
    Faithful I ((k.enter name (.scalar x)).assign (s.addScalar name).1 x) (s.addScalar name).2
      (m.bind name (.scalar x)) := by
  have hne : ∀ other ∈ s.names.taken, other ≠ name := by
    rintro other hother rfl
    exact hfree hother
  refine h.addScalar hs (execute_bind h.run (h.unbound name hfree) _) (fun other hother => ?_)
    h.final.bind (fun other hother => ?_) rfl Memory.bind_self
  · rw [List.mem_cons, not_or] at hother
    rw [Memory.bind_of_ne hother.1]
    exact h.unbound other hother.2
  · exact ⟨Memory.bind_of_ne (hne other hother), Memory.bind_of_ne (hne other hother),
      Memory.bind_of_ne (hne other hother)⟩

/-- An admissible request keeps statements, names and values in agreement. -/
theorem Performed.faithful {call : Call} {result : Option NodeId} (hp : Performed s call result t)
    (h : Faithful I k s m) (hs : s.Regular read written) (hcolumned : s.Columned) (entry : Entry R)
    (hadm : Event.Admissible ⟨s, call, result, t⟩)
    (hread : ∀ id ∈ Event.sources ⟨s, call, result, t⟩, read id)
    (hwritten : ∀ p ∈ Event.stores ⟨s, call, result, t⟩, written p.1)
    (hreads : ReadsBeforeStores t.schedule.statements) :
    k.Keeps (k.after I entry ⟨s, call, result, t⟩) s.arena ∧
      ∃ m', Faithful I (k.after I entry ⟨s, call, result, t⟩) t m' := by
  cases hp with
  | scalar name =>
    exact ⟨Meaning.keeps_assign k _, _, h.enterScalar hs hadm.2 (entry.scalar name)⟩
  | @vector shape name known =>
    exact ⟨keeps_enterVector hs.arena shape false k entry name, h.addVector hs hadm.2 entry⟩
  | @matrix shape name known =>
    exact ⟨keeps_enterVector hs.arena shape true k entry name, h.addVector hs hadm.2 entry⟩
  | @apply operation operands _ conditions used =>
    obtain ⟨hne, hknown, -⟩ := checkApply_eq_ok.1 conditions
    obtain ⟨hop, hscalars⟩ := hadm
    have hoperands : ∀ o ∈ operands, read o := hread
    have hkey : s.Requestable ⟨.apply, operation, operands⟩ := ⟨rfl, hknown, fun _ => hne⟩
    exact ⟨h.keeps_operate hs operation operands, used.faithful (h.intern_apply hs hkey hop hscalars)
      (hs.intern hkey fun _ => hoperands) hoperands hreads⟩
  | map conditions built =>
    obtain ⟨hknown, -, hc⟩ := hs.toWellFormed.mapColumns conditions
    obtain ⟨hop, hscalars⟩ := hadm
    rw [Event.sources_map conditions] at hread hscalars
    have hbuilt := built.faithful h hs hcolumned ⟨rfl, hknown, by simp⟩ rfl conditions hop hc hread
      hscalars hreads
    simpa only [Meaning.after, Event.operations, Event.columns_map conditions] using hbuilt
  | reduce conditions built =>
    obtain ⟨hknown, -, hc⟩ := hs.toWellFormed.reduceColumns conditions
    obtain ⟨hop, hscalars⟩ := hadm
    rw [Event.sources_reduce conditions] at hread hscalars
    have hbuilt := built.faithful h hs hcolumned ⟨rfl, hknown, by simp⟩ rfl conditions hop hc hread
      hscalars hreads
    simpa only [Meaning.after, Event.operations, Event.columns_reduce conditions] using hbuilt
  | @assign target source outputs inputs _ conditions sources stored =>
    rw [Event.sources_assign, Event.stores_assign conditions sources] at hread
    rw [Event.stores_assign conditions sources] at hwritten
    obtain ⟨hplace, hknown⟩ := hs.toWellFormed.assigned hadm conditions sources
    have hstored := stored.faithful h hs hs.arena (.refl _) rfl hknown hplace
      (fun p hp => hread p.2 (List.mem_map_of_mem hp)) hwritten hreads
    simp only [Meaning.after, Event.stores_assign conditions sources]
    exact ⟨fun c _ => by rw [(Meaning.value_overwrites ..).1], hstored⟩
  | @phi test success failure wanted length u name names value conditions used allocate choice =>
    obtain ⟨hrelation, -, hscalar⟩ := hadm
    obtain ⟨hknown, -⟩ := phiLength_eq_ok conditions
    obtain rfl := length_of_phiLength conditions (hscalar success (by simp [Event.sources]))
    exact h.merge hs hrelation hscalar hknown hread used allocate choice hreads
  | output known used => exact ⟨fun _ _ => rfl, used.faithful h hs hreads⟩
  | recycle name => exact hadm.elim

theorem Faithful.initial {settings : Settings} (h : Session.new settings = .ok s) :
    Faithful I Meaning.initial s fun _ => none := by
  obtain rfl := eq_of_new h
  have hnone : ∀ id, ({} : Arena).get? id = none := fun id => by simp [Arena.get?]
  refine ⟨rfl, fun _ _ => rfl, fun _ _ hw => hw, ?_, ?_, ?_, ?_⟩
  all_goals simp [Arena.standing?, Arena.kind?, Arena.place?, hnone]

/-- Requests that go through one after the other keep statements, names and values in agreement. -/
theorem History.faithful {s₀ : Session} {settings : Settings} (h₀ : Session.new settings = .ok s₀)
    {events : List Event} (h : History s₀ events s) (I : Interpretation R) (entry : Entry R)
    (hadm : ∀ e ∈ events, e.Admissible) (hread : ∀ e ∈ events, ∀ id ∈ e.sources, read id)
    (hwritten : ∀ e ∈ events, ∀ p ∈ e.stores, written p.1)
    (hreads : ReadsBeforeStores s.schedule.statements) :
    ∃ m, Faithful I (Meaning.ofEvents I entry events) s m := by
  induction h with
  | nil => exact ⟨_, Faithful.initial h₀⟩
  | @snoc events s t call result past last ih =>
    have hadm' : ∀ e ∈ events, e.Admissible := fun e he => hadm e (by simp [he])
    have hread' : ∀ e ∈ events, ∀ id ∈ e.sources, read id := fun e he => hread e (by simp [he])
    have hwritten' : ∀ e ∈ events, ∀ p ∈ e.stores, written p.1 := fun e he =>
      hwritten e (by simp [he])
    obtain ⟨m, hm⟩ := ih hadm' hread' hwritten' (hreads.sublist last.sublist)
    have hs := past.regular h₀ hadm' hread' hwritten'
    have hcolumned := (past.complete (complete_of_new h₀)).columned
    rw [Meaning.ofEvents, List.foldl_append]
    exact (last.faithful hm hs hcolumned entry (hadm ⟨s, call, result, t⟩ (by simp))
      (hread ⟨s, call, result, t⟩ (by simp)) (hwritten ⟨s, call, result, t⟩ (by simp)) hreads).2

end Session

end StraightLine
