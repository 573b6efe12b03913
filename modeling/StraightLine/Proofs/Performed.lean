import StraightLine.Proofs.Additions

/-! # Requests that go through

A request on a well-formed session is refused and changes nothing, or its conditions hold and it goes
through as described here, by a chain of additions and uses. Nothing is refused halfway. -/
namespace StraightLine

namespace Session

/-- One operation per column: each is interned, then its operands are used. -/
inductive AppliedAll (operation : String) : List (List NodeId) → Session → List NodeId → Session → Prop
  | nil (s : Session) : AppliedAll operation [] s [] s
  | cons {column : List NodeId} {columns : List (List NodeId)} {s t u : Session} {cs : List NodeId}
      (head : UsedAll column (s.intern ⟨.apply, operation, column⟩).2 t)
      (tail : AppliedAll operation columns t cs u) :
      AppliedAll operation (column :: columns) s
        ((s.intern ⟨.apply, operation, column⟩).1.1 :: cs) u

/-- A reduction or mapping with given columns. -/
inductive Columnwise (key : Identity) (columns : List (List NodeId)) (s : Session) : Session → Prop
  | fresh {cs : List NodeId} {t : Session} (new : s.identities.find? key = none)
      (applied : AppliedAll key.operation columns (s.intern key).2 cs t) :
      Columnwise key columns s (t.setComponents (s.intern key).1.1 cs)
  | known {id : NodeId} {t : Session} (found : s.identities.find? key = some id)
      (used : UsedAll columns.flatten (s.intern key).2 t) : Columnwise key columns s t

/-- Stores of sources into components, pair by pair; a component that is its own source is passed. -/
inductive StoredAll : List (NodeId × NodeId) → Session → Session → Prop
  | nil (s : Session) : StoredAll [] s s
  | same {id : NodeId} {pairs : List (NodeId × NodeId)} {s t : Session}
      (tail : StoredAll pairs s t) : StoredAll ((id, id) :: pairs) s t
  | store {output input : NodeId} {pairs : List (NodeId × NodeId)} {s t u : Session}
      {place e : Expr} (ne : output ≠ input) (used : Used s input t)
      (target : t.arena.target? output = some place) (written : t.arena.expr? input = some e)
      (tail : StoredAll pairs (t.storing output place e) u) :
      StoredAll ((output, input) :: pairs) s u

def merging (s : Session) (names : Names) (name : String) (value : Phrase) : Session :=
  { s with names, schedule := (s.schedule.push (.declare name none) value).2 }

def addMerged (s : Session) (name : String) : Option Nat → NodeId × Session
  | none => s.addScalar name
  | some n => s.addVector (.length n) name false

/-- A request that goes through, with its result and the session it leaves. -/
inductive Performed (s : Session) : Call → Option NodeId → Session → Prop
  | scalar (name : String) :
      Performed s (.scalar name) (some (s.addScalar name).1) (s.addScalar name).2
  | vector {shape : Shape} (name : String)
      (known : ∀ cs, shape = .components cs → ∀ c ∈ cs, s.arena.contains c = true) :
      Performed s (.vector shape name) (some (s.addVector shape name false).1)
        (s.addVector shape name false).2
  | matrix {shape : Shape} (name : String)
      (known : ∀ cs, shape = .components cs → ∀ c ∈ cs, s.arena.contains c = true) :
      Performed s (.matrix shape name) (some (s.addVector shape name true).1)
        (s.addVector shape name true).2
  | apply {operation : String} {operands : List NodeId} {t : Session}
      (conditions : s.checkApply operation operands = .ok ())
      (used : UsedAll operands (s.intern ⟨.apply, operation, operands⟩).2 t) :
      Performed s (.apply operation operands)
        (some (s.intern ⟨.apply, operation, operands⟩).1.1) t
  | map {operation : String} {operands : List NodeId} {columns : List (List NodeId)} {t : Session}
      (conditions : s.mapColumns operation operands = .ok columns)
      (built : Columnwise ⟨.mapping, operation, operands⟩ columns s t) :
      Performed s (.map operation operands)
        (some (s.intern ⟨.mapping, operation, operands⟩).1.1) t
  | reduce {operation : String} {operands : List NodeId} {columns : List (List NodeId)}
      {t : Session} (conditions : s.reduceColumns operation operands = .ok columns)
      (built : Columnwise ⟨.reduction, operation, operands⟩ columns s t) :
      Performed s (.reduce operation operands)
        (some (s.intern ⟨.reduction, operation, operands⟩).1.1) t
  | assign {target source : NodeId} {outputs inputs : List NodeId} {t : Session}
      (conditions : s.assignTargets target source = .ok outputs)
      (sources : (List.range outputs.length).mapM (s.broadcast source) = .ok inputs)
      (stored : StoredAll (outputs.zip inputs) s t) : Performed s (.assign target source) none t
  | phi {test : Comparison} {success failure : NodeId} {wanted : Option String}
      {length : Option Nat} {t : Session} {name : String} {names : Names} {value : Phrase}
      (conditions : s.phiLength test success failure = .ok length)
      (used : UsedAll [test.left, test.right, success, failure] s t)
      (allocate : t.names.allocatePhi wanted = (name, names))
      (written : t.phiValue test success failure = .ok value) :
      Performed s (.phi test success failure wanted)
        (some ((t.merging names name value).addMerged name length).1)
        ((t.merging names name value).addMerged name length).2
  | output {id : NodeId} {t : Session} (known : s.arena.contains id = true) (used : Used s id t) :
      Performed s (.output id) (some id) t
  | recycle (name : String) :
      Performed s (.recycle name) none { s with names := s.names.recycle name }

variable {s t : Session}

theorem AppliedAll.wellFormed {operation : String} {columns : List (List NodeId)} {cs : List NodeId}
    (h : AppliedAll operation columns s cs t) (hs : s.WellFormed)
    (hc : ∀ column ∈ columns, column ≠ [] ∧ ∀ o ∈ column, s.arena.contains o = true) :
    t.WellFormed ∧ s.arena.Extends t.arena ∧
      List.Forall₂ (fun c column => ∃ node, t.arena.get? c = some node ∧
        node.kind = .apply operation column) cs columns := by
  induction h with
  | nil s => exact ⟨hs, .refl _, .nil⟩
  | @cons column columns s t u cs head tail ih =>
    obtain ⟨hne, hknown⟩ := hc column (by simp)
    have hkey : s.Requestable ⟨.apply, operation, column⟩ := ⟨rfl, hknown, fun _ => hne⟩
    have hint := hs.intern hkey
    have hext := extends_intern s ⟨.apply, operation, column⟩
    obtain ⟨node, hn, hkind⟩ := hs.get?_intern hkey
    obtain ⟨ht, hsame⟩ := head.wellFormed hint
    have hst := hext.trans hsame.toExtends
    obtain ⟨hu, htu, hparts⟩ := ih ht fun column' hm =>
      ⟨(hc column' (by simp [hm])).1, fun o ho => hst.contains ((hc column' (by simp [hm])).2 o ho)⟩
    refine ⟨hu, hst.trans htu, .cons ?_ hparts⟩
    obtain ⟨other, ho, hk⟩ := (hsame.toExtends.trans htu).kind_eq _ node hn
    refine ⟨other, ho, hk.trans ?_⟩
    cases hnk : node.kind <;> simp_all [Kind.identity?]

theorem get?_setComponents_of_ne {id other : NodeId} {cs : List NodeId} (h : other ≠ id) :
    (s.setComponents id cs).arena.get? other = s.arena.get? other := by
  have hne : other.index ≠ id.index := fun hi => h (by cases other; cases id; simp_all)
  rw [setComponents, Arena.setComponents, Arena.get?_modify, if_neg hne]

theorem Columnwise.wellFormed {key : Identity} {columns : List (List NodeId)}
    (h : Columnwise key columns s t) (hs : s.WellFormed) (hk : s.Requestable key)
    (hp : (key.kind []).parts? = some (key.operation, []))
    (hc : ∀ column ∈ columns, column ≠ [] ∧ ∀ o ∈ column, s.arena.contains o = true) :
    t.WellFormed ∧ s.arena.Extends t.arena := by
  have hint := hs.intern hk
  have hext := extends_intern s key
  have hc' : ∀ column ∈ columns, column ≠ [] ∧
      ∀ o ∈ column, (s.intern key).2.arena.contains o = true := fun column hm =>
    ⟨(hc column hm).1, fun o ho => hext.contains ((hc column hm).2 o ho)⟩
  cases h with
  | known found used =>
    obtain ⟨ht, hsame⟩ := used.wellFormed hint
    exact ⟨ht, hext.trans hsame.toExtends⟩
  | @fresh cs u new applied =>
    obtain ⟨hu, hsu, hparts⟩ := applied.wellFormed hint hc'
    rw [intern_fresh new] at *
    have hnode : (s.arena.register ⟨key.kind [], .inline, true, 0⟩).2.get? ⟨s.arena.size⟩ =
        some ⟨key.kind [], .inline, true, 0⟩ := by simp [Arena.get?_register]
    obtain ⟨node, hn, hkind⟩ := hsu.kind_eq _ _ hnode
    refine ⟨hu.setComponents hn (by rw [hkind]; exact hp) fun c hm => ?_, ⟨fun id old hold => ?_⟩⟩
    · obtain ⟨column, hcol, part, hpart, hpk⟩ := exists_of_mem_right hparts.flip hm
      refine ⟨part, column, hpart, hpk, fun o ho => ?_⟩
      simpa [Arena.contains] using (hc column hcol).2 o ho
    · obtain ⟨other, ho, hok⟩ := (hext.trans hsu).kind_eq id old hold
      have hlt := Arena.index_lt_of_get? hold
      refine ⟨other, ?_, hok⟩
      rw [get?_setComponents_of_ne, ho]
      rintro rfl
      simp at hlt

theorem StoredAll.wellFormed {pairs : List (NodeId × NodeId)} (h : StoredAll pairs s t)
    (hs : s.WellFormed) (hp : ∀ p ∈ pairs, s.arena.contains p.1 = true) :
    t.WellFormed ∧ s.arena.SameKinds t.arena := by
  induction h with
  | nil s => exact ⟨hs, .refl hs.arena⟩
  | same tail ih => exact ih hs fun p hm => hp p (by simp [hm])
  | @store output input pairs s t u place e ne used target written tail ih =>
    obtain ⟨ht, hst⟩ := used.wellFormed hs
    have hout := hst.toExtends.contains (hp (output, input) (by simp))
    obtain ⟨ht', hst'⟩ := ht.storing hout place e
    have hall := hst.trans hst'
    obtain ⟨hu, htu⟩ := ih ht' fun p hm => hall.toExtends.contains (hp p (by simp [hm]))
    exact ⟨hu, hall.trans htu⟩

theorem WellFormed.merging (hs : s.WellFormed) (names : Names) (name : String) (value : Phrase) :
    (s.merging names name value).WellFormed := ⟨hs.arena, hs.leaves, hs.identities⟩

theorem extends_addMerged (s : Session) (name : String) (length : Option Nat) :
    s.arena.Extends (s.addMerged name length).2.arena := by
  cases length with
  | none => exact extends_addScalar s name
  | some n => exact extends_addVector s (.length n) name false

theorem WellFormed.addMerged (hs : s.WellFormed) (name : String) (length : Option Nat) :
    (s.addMerged name length).2.WellFormed := by
  cases length with
  | none => exact hs.addScalar name
  | some n => exact hs.addVector (.length n) name false (by simp)

/-- A request that goes through keeps the session well-formed and every node in place. -/
theorem Performed.wellFormed {call : Call} {result : Option NodeId}
    (h : Performed s call result t) (hs : s.WellFormed) :
    t.WellFormed ∧ s.arena.Extends t.arena := by
  cases h with
  | scalar name => exact ⟨hs.addScalar name, extends_addScalar s name⟩
  | vector name known => exact ⟨hs.addVector _ name false known, extends_addVector ..⟩
  | matrix name known => exact ⟨hs.addVector _ name true known, extends_addVector ..⟩
  | apply conditions used =>
    obtain ⟨hne, hknown, -⟩ := checkApply_eq_ok.1 conditions
    obtain ⟨ht, hsame⟩ := used.wellFormed (hs.intern ⟨rfl, hknown, fun _ => hne⟩)
    exact ⟨ht, (extends_intern ..).trans hsame.toExtends⟩
  | map conditions built =>
    obtain ⟨hknown, -, hc⟩ := hs.mapColumns conditions
    exact built.wellFormed hs ⟨rfl, hknown, by simp⟩ rfl hc
  | reduce conditions built =>
    obtain ⟨hknown, -, hc⟩ := hs.reduceColumns conditions
    exact built.wellFormed hs ⟨rfl, hknown, by simp⟩ rfl hc
  | assign conditions sources stored =>
    obtain ⟨⟨node, square, hn, hk⟩, -, -⟩ := assignTargets_eq_ok conditions
    obtain ⟨ht, hsame⟩ := stored.wellFormed hs fun p hp =>
      (hs.arena _ node hn).components _ square hk p.1 (List.of_mem_zip hp).1
    exact ⟨ht, hsame.toExtends⟩
  | phi conditions used allocate written =>
    obtain ⟨ht, hsame⟩ := used.wellFormed hs
    exact ⟨(ht.merging ..).addMerged .., hsame.toExtends.trans (extends_addMerged (merging ..) ..)⟩
  | output known used =>
    obtain ⟨ht, hsame⟩ := used.wellFormed hs
    exact ⟨ht, hsame.toExtends⟩
  | recycle name => exact ⟨⟨hs.arena, hs.leaves, hs.identities⟩, .refl _⟩

end Session

namespace Builder

open Session

variable {s : Session}

theorem applyChecked_run (operation : String) {operands : List NodeId} (hs : s.WellFormed)
    (hne : operands ≠ []) (hknown : ∀ o ∈ operands, s.arena.contains o = true) :
    ∃ t, applyChecked operation operands s =
        .ok (s.intern ⟨.apply, operation, operands⟩).1.1 t ∧
      UsedAll operands (s.intern ⟨.apply, operation, operands⟩).2 t := by
  have hkey : s.Requestable ⟨.apply, operation, operands⟩ := ⟨rfl, hknown, fun _ => hne⟩
  obtain ⟨t, ht, hused⟩ := useAll_run (hs.intern hkey) fun o ho =>
    (extends_intern s _).contains (hknown o ho)
  refine ⟨t, ?_, hused⟩
  have hu : update (·.intern ⟨.apply, operation, operands⟩) s =
      .ok (s.intern ⟨.apply, operation, operands⟩).1 (s.intern ⟨.apply, operation, operands⟩).2 := rfl
  rw [applyChecked, bind_ok hu]
  dsimp only
  rw [bind_ok ht]
  rfl

theorem applyAll_run (operation : String) {columns : List (List NodeId)} (hs : s.WellFormed)
    (hc : ∀ column ∈ columns, column ≠ [] ∧ ∀ o ∈ column, s.arena.contains o = true) :
    ∃ cs t, columns.mapM (applyChecked operation) s = .ok cs t ∧
      AppliedAll operation columns s cs t := by
  induction columns generalizing s with
  | nil => exact ⟨[], s, rfl, .nil s⟩
  | cons column columns ih =>
    obtain ⟨hne, hknown⟩ := hc column (by simp)
    obtain ⟨t, ht, hused⟩ := applyChecked_run operation hs hne hknown
    obtain ⟨hwf, hsame⟩ := hused.wellFormed (hs.intern ⟨rfl, hknown, fun _ => hne⟩)
    have hst := (extends_intern s ⟨.apply, operation, column⟩).trans hsame.toExtends
    obtain ⟨cs, u, hu, hall⟩ := ih hwf fun column' hm =>
      ⟨(hc column' (by simp [hm])).1, fun o ho => hst.contains ((hc column' (by simp [hm])).2 o ho)⟩
    refine ⟨_, u, ?_, .cons hused hall⟩
    rw [List.mapM_cons, bind_ok ht, bind_ok hu]
    rfl

theorem store_run {output input : NodeId} (hs : s.WellFormed)
    (ho : s.arena.contains output = true) (hi : s.arena.contains input = true)
    (hne : output ≠ input) :
    ∃ t place e, store output input s = .ok () (t.storing output place e) ∧ Used s input t ∧
      t.arena.target? output = some place ∧ t.arena.expr? input = some e := by
  obtain ⟨t, ht, hused⟩ := use_run hs hi
  obtain ⟨hwf, hsame⟩ := hused.wellFormed hs
  obtain ⟨place, hplace⟩ := hwf.arena.target?_eq_some (hsame.toExtends.contains ho)
  obtain ⟨e, he⟩ := hwf.arena.expr?_eq_some (hsame.toExtends.contains hi)
  refine ⟨t, place, e, ?_, hused, hplace, he⟩
  rw [store, if_pos hne, bind_ok ht, bind_ok (ask_ok (target_eq_ok hplace)),
    bind_ok (ask_ok (expr_eq_ok he))]
  rfl

/-- The stores of an assignment; no store changes what the source's components are. -/
theorem storeAll_run {source : NodeId} {outputs inputs : List NodeId} {start : Nat}
    (hs : s.WellFormed) (hsource : s.arena.contains source = true)
    (hout : ∀ o ∈ outputs, s.arena.contains o = true)
    (hin : List.Forall₂ (fun i input => s.broadcast source i = .ok input)
      (List.range' start outputs.length) inputs) :
    ∃ t, ((outputs.zipIdx start).forM fun (output, i) => do
        store output (← ask (·.broadcast source i)) : Builder Unit) s = .ok () t ∧
      StoredAll (outputs.zip inputs) s t := by
  induction outputs generalizing s start inputs with
  | nil => exact ⟨s, rfl, .nil s⟩
  | cons output outputs ih =>
    rw [List.length_cons, List.range'_succ] at hin
    cases hin with
    | @cons _ input _ inputs hhead htail =>
      have hinput := hs.contains_of_broadcast hhead
      have houtput := hout output (by simp)
      rw [List.zipIdx_cons, List.forM_eq_forM, List.forM_cons, List.zip_cons_cons]
      by_cases hne : output = input
      · subst hne
        obtain ⟨t, ht, hall⟩ := ih hs hsource (fun o ho => hout o (by simp [ho])) htail
        refine ⟨t, ?_, .same hall⟩
        have hstore : (do store output (← ask (·.broadcast source start)) : Builder Unit) s = .ok () s := by
          rw [bind_ok (ask_ok hhead), store, if_neg (by simp)]
          rfl
        rw [bind_ok hstore]
        exact ht
      · obtain ⟨t, place, e, hrun, hused, hplace, he⟩ := store_run hs houtput hinput hne
        obtain ⟨hwf, hsame⟩ := hused.wellFormed hs
        obtain ⟨hwf', hsame'⟩ := hwf.storing (hsame.toExtends.contains houtput) place e
        have hext := (hsame.trans hsame').toExtends
        obtain ⟨u, hu, hall⟩ := ih hwf' (hext.contains hsource)
          (fun o ho => hext.contains (hout o (by simp [ho])))
          (htail.imp fun i input h => (broadcast_extends hext hsource i).trans h)
        refine ⟨u, ?_, .store hne hused hplace he hall⟩
        have hstore : (do store output (← ask (·.broadcast source start)) : Builder Unit) s =
            .ok () (t.storing output place e) := by
          rw [bind_ok (ask_ok hhead), hrun]
        rw [bind_ok hstore]
        exact hu

theorem phiValue_eq_ok {test : Comparison} {success failure : NodeId} (hs : s.WellFormed)
    (hknown : ∀ id ∈ [test.left, test.right, success, failure], s.arena.contains id = true) :
    ∃ l r y n, s.arena.expr? test.left = some l ∧ s.arena.expr? test.right = some r ∧
      s.arena.expr? success = some y ∧ s.arena.expr? failure = some n ∧
      s.phiValue test success failure = .ok (.choice l test.relation r y n) := by
  obtain ⟨l, hl⟩ := hs.arena.expr?_eq_some (hknown test.left (by simp))
  obtain ⟨r, hr⟩ := hs.arena.expr?_eq_some (hknown test.right (by simp))
  obtain ⟨y, hy⟩ := hs.arena.expr?_eq_some (hknown success (by simp))
  obtain ⟨n, hn⟩ := hs.arena.expr?_eq_some (hknown failure (by simp))
  refine ⟨l, r, y, n, hl, hr, hy, hn, ?_⟩
  simp [phiValue, expr_eq_ok hl, expr_eq_ok hr, expr_eq_ok hy, expr_eq_ok hn, bind, Except.bind]
  rfl

theorem addVector_run (s : Session) (shape : Shape) (name : String) (square : Bool) :
    (∃ e, addVector shape name square s = .error e s) ∨
      addVector shape name square s =
        .ok (s.addVector shape name square).1 (s.addVector shape name square).2 ∧
      ∀ cs, shape = .components cs → ∀ c ∈ cs, s.arena.contains c = true := by
  cases shape with
  | length n => exact .inr ⟨rfl, by simp⟩
  | components cs =>
    cases hk : s.requireKnown cs with
    | error e => exact .inl ⟨e, bind_error (ask_error hk)⟩
    | ok u =>
      refine .inr ⟨bind_ok (ask_ok hk), ?_⟩
      rintro _ ⟨⟩
      exact requireKnown_eq_ok.1 hk

theorem apply_run {operation : String} {operands : List NodeId} (hs : s.WellFormed)
    (hc : s.checkApply operation operands = .ok ()) :
    ∃ t, (Call.apply operation operands).run s =
        .ok (some (s.intern ⟨.apply, operation, operands⟩).1.1) t ∧
      UsedAll operands (s.intern ⟨.apply, operation, operands⟩).2 t := by
  obtain ⟨hne, hknown, -⟩ := checkApply_eq_ok.1 hc
  obtain ⟨t, ht, hused⟩ := applyChecked_run operation hs hne hknown
  refine ⟨t, map_ok _ ?_, hused⟩
  rw [apply, bind_ok (ask_ok hc), ht]

theorem assign_run {target source : NodeId} {outputs : List NodeId} (hs : s.WellFormed)
    (hc : s.assignTargets target source = .ok outputs) :
    ∃ inputs t, (Call.assign target source).run s = .ok none t ∧
      (List.range outputs.length).mapM (s.broadcast source) = .ok inputs ∧
      StoredAll (outputs.zip inputs) s t := by
  obtain ⟨⟨node, square, hn, hk⟩, hsource, inputs, hin⟩ := assignTargets_eq_ok hc
  have hall := forall₂_of_mapM_eq_ok hin
  rw [List.range_eq_range'] at hall
  obtain ⟨t, ht, hstored⟩ := storeAll_run hs hsource
    ((hs.arena target node hn).components outputs square hk) hall
  refine ⟨inputs, t, map_ok (a := ()) _ ?_, hin, hstored⟩
  rw [assign, bind_ok (ask_ok hc), ht]

theorem phi_run {test : Comparison} {success failure : NodeId} {length : Option Nat}
    (hs : s.WellFormed) (hc : s.phiLength test success failure = .ok length)
    (wanted : Option String) :
    ∃ result t, (Call.phi test success failure wanted).run s = .ok result t ∧
      Performed s (.phi test success failure wanted) result t := by
  obtain ⟨hknown, -⟩ := phiLength_eq_ok hc
  have hcompared : ∀ id ∈ [test.left, test.right], s.arena.contains id = true := fun id hid =>
    hknown id (List.mem_append_left [success, failure] hid)
  have hmerged : ∀ id ∈ [success, failure], s.arena.contains id = true := fun id hid =>
    hknown id (List.mem_append_right [test.left, test.right] hid)
  obtain ⟨t, ht, hused⟩ := useAll_run hs hcompared
  obtain ⟨htwf, hst⟩ := hused.wellFormed hs
  obtain ⟨u, hu, hused'⟩ := useAll_run htwf fun id hid => hst.toExtends.contains (hmerged id hid)
  obtain ⟨huwf, htu⟩ := hused'.wellFormed htwf
  obtain ⟨l, r, y, n, -, -, -, -, hvalue⟩ := phiValue_eq_ok huwf fun id hid =>
    (hst.trans htu).toExtends.contains (hknown id hid)
  obtain ⟨name, names, hname⟩ : ∃ name names, u.names.allocatePhi wanted = (name, names) :=
    ⟨_, _, rfl⟩
  have hall : update (·.allocatePhi wanted) u = .ok name { u with names } := by
    simp [update, Session.allocatePhi, hname]
  have hvalue' : ({ u with names } : Session).phiValue test success failure =
      .ok (.choice l test.relation r y n) := hvalue
  refine ⟨_, _, map_ok _ ?_, .phi hc (hused.append hused') hname hvalue⟩
  rw [phi, bind_ok (ask_ok hc), bind_ok ht, bind_ok hu, bind_ok hall,
    bind_ok (ask_ok hvalue')]
  cases length <;> rfl

theorem output_run {id : NodeId} (hs : s.WellFormed) (hc : s.requireKnown [id] = .ok ()) :
    ∃ t, (Call.output id).run s = .ok (some id) t ∧ Used s id t := by
  have hknown := requireKnown_eq_ok.1 hc id (by simp)
  obtain ⟨t, ht, hused⟩ := use_run hs hknown
  refine ⟨t, map_ok (a := (⟨id⟩ : Output)) _ ?_, hused⟩
  rw [output, bind_ok (ask_ok hc), bind_ok ht]
  rfl

end Builder

end StraightLine
