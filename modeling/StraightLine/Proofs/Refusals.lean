import StraightLine.Proofs.Meaning
import StraightLine.Proofs.Runs

/-! # Why requests are refused

A request is refused for what it asks of the session that it meets, and for nothing else: its
conditions speak of the nodes it names, and a request whose conditions hold goes through. Nothing is
changed before the conditions are known to hold, so a refusal leaves no trace. -/
namespace StraightLine

section Answers

variable {α β ε : Type} {e : ε}

theorem bind_eq_error {x : Except ε α} {f : α → Except ε β} :
    (x >>= f) = .error e ↔ x = .error e ∨ ∃ a, x = .ok a ∧ f a = .error e := by
  cases x with
  | error d => simp [bind, Except.bind]
  | ok a => simp [bind, Except.bind]

theorem exists_of_mapM_eq_error {f : α → Except ε β} {xs : List α} (h : xs.mapM f = .error e) :
    ∃ x ∈ xs, f x = .error e := by
  induction xs with
  | nil => cases h
  | cons x xs ih =>
    rw [List.mapM_cons, bind_eq_error] at h
    rcases h with hx | ⟨y, -, h⟩
    · exact ⟨x, by simp, hx⟩
    · rcases bind_eq_error.1 h with hxs | ⟨ys, -, hpure⟩
      · obtain ⟨z, hz, he⟩ := ih hxs
        exact ⟨z, by simp [hz], he⟩
      · cases hpure

theorem exists_of_forM_eq_error {f : α → Except ε Unit} {xs : List α} (h : xs.forM f = .error e) :
    ∃ x ∈ xs, f x = .error e := by
  induction xs with
  | nil => cases h
  | cons x xs ih =>
    rw [List.forM_eq_forM, List.forM_cons, bind_eq_error] at h
    rcases h with hx | ⟨u, -, hxs⟩
    · exact ⟨x, by simp, hx⟩
    · obtain ⟨z, hz, he⟩ := ih hxs
      exact ⟨z, by simp [hz], he⟩

theorem forall_of_forM_eq_ok {f : α → Except ε Unit} {xs : List α} (h : xs.forM f = .ok ()) :
    ∀ x ∈ xs, f x = .ok () := by
  induction xs with
  | nil => simp
  | cons x xs ih =>
    rw [List.forM_eq_forM, List.forM_cons, bind_eq_ok] at h
    obtain ⟨u, hx, hxs⟩ := h
    intro y hy
    rcases List.mem_cons.1 hy with rfl | hy
    · exact hx
    · exact ih hxs y hy

end Answers

/-- The greatest of some numbers is one of them. -/
theorem foldl_max_spec (ns : List Nat) (h : ns ≠ []) :
    ns.foldl max 0 ∈ ns ∧ ∀ n ∈ ns, n ≤ ns.foldl max 0 := by
  cases ns with
  | nil => exact absurd rfl h
  | cons n ns =>
    refine List.max?_eq_some_iff.1 ?_
    rw [List.max?_cons', List.foldl_cons, Nat.zero_max]

def Call.nodes : Call → List NodeId
  | .vector (.components ids) _ | .matrix (.components ids) _ => ids
  | .apply _ operands | .map _ operands | .reduce _ operands => operands
  | .assign target source => [target, source]
  | .phi test success failure _ => [test.left, test.right, success, failure]
  | .output id => [id]
  | .scalar _ | .vector .. | .matrix .. | .recycle _ => []

def FitsArity (operation : String) (operands : Nat) : Prop :=
  (Operator.parse operation).isUnary = true → operands = 1

def Arena.tag? (a : Arena) (id : NodeId) : Option Tag := (a.get? id).map fun node => node.kind.tag

namespace Session

/-- What a request asks of its operands, targets and branches. -/
def Fits (s : Session) : Call → Prop
  | .apply operation operands => operands ≠ [] ∧ FitsArity operation operands.length
  | .map operation operands => operands ≠ [] ∧ FitsArity operation operands.length ∧
      ∀ o ∈ operands, s.arena.length o = 1 ∨ ∀ p ∈ operands, s.arena.length p ≤ s.arena.length o
  | .reduce operation operands => operands ≠ [] ∧
      ∀ o ∈ operands, s.arena.column o ≠ [] ∧ FitsArity operation (s.arena.column o).length
  | .assign target source => s.arena.tag? target = some .vector ∧
      (s.arena.length source = 1 ∨ s.arena.length target ≤ s.arena.length source)
  | .phi _ success failure _ => s.arena.isVector success = s.arena.isVector failure
  | .scalar _ | .vector .. | .matrix .. | .output _ | .recycle _ => True

instance (operation : String) (operands : Nat) : Decidable (FitsArity operation operands) :=
  inferInstanceAs (Decidable (_ → _))

instance (s : Session) : DecidablePred s.Fits
  | .apply .. | .map .. | .reduce .. | .assign .. => inferInstanceAs (Decidable (_ ∧ _))
  | .phi .. => inferInstanceAs (Decidable (_ = _))
  | .scalar _ | .vector .. | .matrix .. | .output _ | .recycle _ => inferInstanceAs (Decidable True)

structure Accepts (s : Session) (call : Call) : Prop where
  known : ∀ id ∈ call.nodes, s.arena.contains id = true
  fits : s.Fits call

instance (s : Session) (call : Call) : Decidable (s.Accepts call) :=
  decidable_of_iff ((∀ id ∈ call.nodes, s.arena.contains id = true) ∧ s.Fits call)
    ⟨fun h => ⟨h.1, h.2⟩, fun h => ⟨h.known, h.fits⟩⟩

/-- The reasons for which a request is refused, each with the fault that reports it. -/
inductive Refusal (s : Session) : Call → Fault → Prop
  | unknown {call : Call} {id : NodeId} (mem : id ∈ call.nodes)
      (unknown : s.arena.contains id = false) : Refusal s call (.unknownNode id)
  | nothingToApply (operation : String) : Refusal s (.apply operation []) (.nothingTo .apply)
  | nothingToMap (operation : String) : Refusal s (.map operation []) (.nothingTo .map)
  | nothingToReduce (operation : String) : Refusal s (.reduce operation []) (.nothingTo .reduce)
  | emptyColumn {operation : String} {operands : List NodeId} {o : NodeId} (mem : o ∈ operands)
      (empty : s.arena.column o = []) : Refusal s (.reduce operation operands) (.nothingTo .reduce)
  | applyArity {operation : String} {operands : List NodeId}
      (unary : (Operator.parse operation).isUnary = true) (several : 1 < operands.length) :
      Refusal s (.apply operation operands) (.unaryArity operation operands.length)
  | mapArity {operation : String} {operands : List NodeId}
      (unary : (Operator.parse operation).isUnary = true) (several : 1 < operands.length) :
      Refusal s (.map operation operands) (.unaryArity operation operands.length)
  | columnArity {operation : String} {operands : List NodeId} {o : NodeId} (mem : o ∈ operands)
      (unary : (Operator.parse operation).isUnary = true)
      (several : 1 < (s.arena.column o).length) :
      Refusal s (.reduce operation operands) (.unaryArity operation (s.arena.column o).length)
  | operandLength {operation : String} {operands : List NodeId} {o longest : NodeId}
      (mem : o ∈ operands) (mem_longest : longest ∈ operands)
      (greatest : ∀ p ∈ operands, s.arena.length p ≤ s.arena.length longest)
      (several : s.arena.length o ≠ 1) (short : s.arena.length o < s.arena.length longest) :
      Refusal s (.map operation operands)
        (.lengthMismatch operation (s.arena.length longest) (s.arena.length o))
  | notVector {target source : NodeId} (other : s.arena.tag? target ≠ some .vector) :
      Refusal s (.assign target source) (.assignToNonVector target)
  | sourceLength {target source : NodeId} (vector : s.arena.tag? target = some .vector)
      (several : s.arena.length source ≠ 1)
      (short : s.arena.length source < s.arena.length target) :
      Refusal s (.assign target source)
        (.lengthMismatch "assign" (s.arena.length target) (s.arena.length source))
  | branches {test : Comparison} {success failure : NodeId} {name : Option String}
      (differ : s.arena.isVector success ≠ s.arena.isVector failure) :
      Refusal s (.phi test success failure name) .phiShapeMismatch

variable {s t : Session} {call : Call} {e : Fault}

/-- Every reason for a refusal is a condition that fails. -/
theorem Refusal.not_accepts (h : s.Refusal call e) : ¬s.Accepts call := by
  rintro ⟨hknown, hfits⟩
  cases h with
  | @unknown _ id mem unknown => simp [hknown id mem] at unknown
  | nothingToApply | nothingToMap | nothingToReduce => exact hfits.1 rfl
  | emptyColumn mem empty => exact (hfits.2 _ mem).1 empty
  | applyArity unary several => exact absurd (hfits.2 unary) (by omega)
  | mapArity unary several => exact absurd (hfits.2.1 unary) (by omega)
  | columnArity mem unary several => exact absurd ((hfits.2 _ mem).2 unary) (by omega)
  | operandLength mem mem_longest greatest several short =>
    rcases hfits.2.2 _ mem with hone | hall
    · exact several hone
    · exact absurd (hall _ mem_longest) (by omega)
  | notVector other => exact other hfits.1
  | sourceLength vector several short =>
    obtain ⟨-, hlength⟩ := hfits
    omega
  | branches differ => exact differ hfits

section Checks

variable {operation : String} {operands : List NodeId} {column : List NodeId}

theorem requireKnown_eq_error {ids : List NodeId} (h : s.requireKnown ids = .error e) :
    ∃ id ∈ ids, s.arena.contains id = false ∧ e = .unknownNode id := by
  unfold requireKnown at h
  split at h
  next id hfind =>
    cases h
    exact ⟨id, List.mem_of_find?_eq_some hfind, by simpa using List.find?_some hfind, rfl⟩
  next => cases h

theorem fitsArity_of_check {n : Nat} (h : checkArity operation n = .ok ()) (hn : n ≠ 0) :
    FitsArity operation n := by
  intro hunary
  unfold checkArity at h
  split at h
  next => cases h
  next hnot => exact (Nat.le_of_not_lt fun hlt => hnot ⟨hunary, hlt⟩).antisymm (by omega)

theorem check_of_fitsArity {n : Nat} (h : FitsArity operation n) :
    checkArity operation n = .ok () := by
  refine if_neg fun ⟨hunary, hlt⟩ => ?_
  have hone := h hunary
  omega

theorem checkArity_eq_error {n : Nat} (h : checkArity operation n = .error e) :
    (Operator.parse operation).isUnary = true ∧ 1 < n ∧ e = .unaryArity operation n := by
  unfold checkArity at h
  split at h
  next hbad =>
    cases h
    exact ⟨hbad.1, hbad.2, rfl⟩
  next => cases h

theorem refusal_of_checkApply (h : s.checkApply operation operands = .error e) :
    s.Refusal (.apply operation operands) e := by
  cases operands with
  | nil =>
    cases h
    exact .nothingToApply operation
  | cons o os =>
    simp only [checkApply, List.isEmpty_cons, Bool.false_eq_true, if_false] at h
    rcases bind_eq_error.1 h with hknown | ⟨u, -, harity⟩
    · obtain ⟨id, hid, hunknown, rfl⟩ := requireKnown_eq_error hknown
      exact .unknown hid hunknown
    · obtain ⟨hunary, hlt, rfl⟩ := checkArity_eq_error harity
      exact .applyArity hunary hlt

theorem checkColumn_eq_error (h : checkColumn operation column = .error e) :
    column = [] ∧ e = .nothingTo .reduce ∨ (Operator.parse operation).isUnary = true ∧
      1 < column.length ∧ e = .unaryArity operation column.length := by
  cases column with
  | nil =>
    cases h
    exact .inl ⟨rfl, rfl⟩
  | cons o os => exact .inr (checkArity_eq_error h)

theorem fits_of_checkColumn (h : checkColumn operation column = .ok ()) :
    column ≠ [] ∧ FitsArity operation column.length := by
  cases column with
  | nil => cases h
  | cons o os => exact ⟨by simp, fitsArity_of_check h (by simp)⟩

/-- The conditions of a reduction are conditions on the components of its operands. -/
theorem reduceColumns_of_known (hne : operands ≠ [])
    (hknown : ∀ o ∈ operands, s.arena.contains o = true) :
    s.reduceColumns operation operands = do
      (operands.map s.arena.column).forM (checkColumn operation)
      return operands.map s.arena.column := by
  have hcolumns := mapM_eq_ok_map fun o ho => column_eq_ok (hknown o ho)
  have hnonempty : operands.isEmpty = false := by simpa using hne
  simp only [reduceColumns, hnonempty, Bool.false_eq_true, if_false, requireKnown_eq_ok.2 hknown,
    hcolumns]
  rfl

theorem refusal_of_reduceColumns (h : s.reduceColumns operation operands = .error e) :
    s.Refusal (.reduce operation operands) e := by
  cases hknown : s.requireKnown operands with
  | error fault =>
    cases operands with
    | nil => cases hknown
    | cons o os =>
      simp only [reduceColumns, List.isEmpty_cons, Bool.false_eq_true, if_false, hknown] at h
      cases h
      obtain ⟨id, hid, hunknown, rfl⟩ := requireKnown_eq_error hknown
      exact .unknown hid hunknown
  | ok u =>
    by_cases hne : operands = []
    · subst hne
      cases h
      exact .nothingToReduce operation
    · rw [reduceColumns_of_known hne (requireKnown_eq_ok.1 hknown)] at h
      rcases bind_eq_error.1 h with hcheck | ⟨u, -, hpure⟩
      · obtain ⟨column, hcolumn, hfault⟩ := exists_of_forM_eq_error hcheck
        obtain ⟨o, ho, rfl⟩ := List.mem_map.1 hcolumn
        rcases checkColumn_eq_error hfault with ⟨hempty, rfl⟩ | ⟨hunary, hlt, rfl⟩
        · exact .emptyColumn ho hempty
        · exact .columnArity ho hunary hlt
      · cases hpure

theorem fits_of_reduceColumns {columns : List (List NodeId)}
    (hknown : ∀ o ∈ operands, s.arena.contains o = true)
    (h : s.reduceColumns operation operands = .ok columns) : s.Fits (.reduce operation operands) := by
  have hne : operands ≠ [] := by
    rintro rfl
    cases h
  refine ⟨hne, fun o ho => ?_⟩
  rw [reduceColumns_of_known hne hknown] at h
  obtain ⟨u, hcheck, -⟩ := bind_eq_ok.1 h
  exact fits_of_checkColumn (forall_of_forM_eq_ok hcheck _ (List.mem_map_of_mem ho))

/-- The conditions of a mapping are conditions on the lengths of its operands. -/
theorem mapColumns_of_known (hne : operands ≠ [])
    (hknown : ∀ o ∈ operands, s.arena.contains o = true)
    (harity : checkArity operation operands.length = .ok ()) :
    s.mapColumns operation operands =
      match (operands.map s.arena.length).find? fun n => n != 1 && n != s.greatest operands with
      | some found => throw (.lengthMismatch operation (s.greatest operands) found)
      | none => (List.range (s.greatest operands)).mapM fun i => operands.mapM (s.broadcast · i) := by
  have hlengths := mapM_eq_ok_map fun o ho => length_eq_ok (hknown o ho)
  have hnonempty : operands.isEmpty = false := by simpa using hne
  simp only [mapColumns, hnonempty, Bool.false_eq_true, if_false, requireKnown_eq_ok.2 hknown,
    harity, hlengths]
  rfl

theorem exists_greatest (hne : operands ≠ []) : ∃ longest ∈ operands,
    s.greatest operands = s.arena.length longest ∧
      ∀ p ∈ operands, s.arena.length p ≤ s.arena.length longest := by
  obtain ⟨hmem, hle⟩ := foldl_max_spec (operands.map s.arena.length) (by simpa using hne)
  obtain ⟨longest, hlongest, heq⟩ := List.mem_map.1 hmem
  refine ⟨longest, hlongest, heq.symm, fun p hp => ?_⟩
  rw [heq]
  exact hle _ (List.mem_map_of_mem hp)

theorem broadcast_of_fitting (hknown : ∀ o ∈ operands, s.arena.contains o = true)
    (hlengths : ∀ o ∈ operands, s.arena.length o = 1 ∨ s.arena.length o = s.greatest operands)
    {i : Nat} (hi : i < s.greatest operands) : ∀ o ∈ operands, ∃ c, s.broadcast o i = .ok c := by
  intro o ho
  obtain ⟨node, hn, -, hlength, -⟩ := node_of_contains (hknown o ho)
  have hfits := hlengths o ho
  rw [hlength] at hfits
  exact broadcast_eq_ok hn (by omega)

theorem lengths_of_find? (h : ((operands.map s.arena.length).find?
      fun n => n != 1 && n != s.greatest operands) = none) :
    ∀ o ∈ operands, s.arena.length o = 1 ∨ s.arena.length o = s.greatest operands := by
  intro o ho
  have hnot := List.find?_eq_none.1 h _ (List.mem_map_of_mem ho)
  by_cases hone : s.arena.length o = 1
  · exact .inl hone
  · exact .inr (by simpa [hone] using hnot)

theorem refusal_of_mapColumns (h : s.mapColumns operation operands = .error e) :
    s.Refusal (.map operation operands) e := by
  by_cases hne : operands = []
  · subst hne
    cases h
    exact .nothingToMap operation
  · have hnonempty : operands.isEmpty = false := by simpa using hne
    cases hk : s.requireKnown operands with
    | error fault =>
      simp only [mapColumns, hnonempty, Bool.false_eq_true, if_false, hk] at h
      cases h
      obtain ⟨id, hid, hunknown, rfl⟩ := requireKnown_eq_error hk
      exact .unknown hid hunknown
    | ok u =>
      have hknown := requireKnown_eq_ok.1 hk
      cases harity : checkArity operation operands.length with
      | error fault =>
        simp only [mapColumns, hnonempty, Bool.false_eq_true, if_false, hk, harity] at h
        cases h
        obtain ⟨hunary, hlt, rfl⟩ := checkArity_eq_error harity
        exact .mapArity hunary hlt
      | ok v =>
        rw [mapColumns_of_known hne hknown harity] at h
        obtain ⟨longest, hlongest, heq, hall⟩ := exists_greatest (s := s) hne
        split at h
        next found hfind =>
          cases h
          obtain ⟨o, ho, rfl⟩ := List.mem_map.1 (List.mem_of_find?_eq_some hfind)
          have hbad := List.find?_some hfind
          simp only [Bool.and_eq_true, bne_iff_ne, ne_eq, heq] at hbad
          rw [heq]
          exact .operandLength ho hlongest hall hbad.1 (lt_of_le_of_ne (hall o ho) hbad.2)
        next hfind =>
          obtain ⟨i, hi, hrow⟩ := exists_of_mapM_eq_error h
          obtain ⟨o, ho, hfault⟩ := exists_of_mapM_eq_error hrow
          obtain ⟨c, hc⟩ := broadcast_of_fitting hknown (lengths_of_find? hfind)
            (List.mem_range.1 hi) o ho
          rw [hc] at hfault
          cases hfault

theorem fits_of_mapColumns {columns : List (List NodeId)}
    (hknown : ∀ o ∈ operands, s.arena.contains o = true)
    (h : s.mapColumns operation operands = .ok columns) : s.Fits (.map operation operands) := by
  have hne : operands ≠ [] := by
    rintro rfl
    cases h
  have hnonempty : operands.isEmpty = false := by simpa using hne
  cases harity : checkArity operation operands.length with
  | error fault =>
    simp only [mapColumns, hnonempty, Bool.false_eq_true, if_false, requireKnown_eq_ok.2 hknown,
      harity] at h
    cases h
  | ok v =>
    refine ⟨hne, fitsArity_of_check harity (by simpa using hne), fun o ho => ?_⟩
    rw [mapColumns_of_known hne hknown harity] at h
    obtain ⟨longest, -, heq, hall⟩ := exists_greatest (s := s) hne
    split at h
    next => cases h
    next hfind =>
      refine (lengths_of_find? hfind o ho).imp_right fun hmax p hp => ?_
      rw [hmax, heq]
      exact hall p hp

/-- The conditions of an assignment are conditions on the kind of its target and on two lengths. -/
theorem assignTargets_of_known {target source : NodeId} {node : Node}
    (hn : s.arena.get? target = some node) (hsource : s.arena.contains source = true) :
    s.assignTargets target source = match node.kind with
      | .vector outputs _ =>
        if s.arena.length source ≠ 1 ∧ s.arena.length source < outputs.length then
          .error (.lengthMismatch "assign" outputs.length (s.arena.length source))
        else .ok outputs
      | _ => .error (.assignToNonVector target) := by
  have hknown : s.requireKnown [target, source] = .ok () :=
    requireKnown_eq_ok.2 (by simp [Arena.contains_of_get? hn, hsource])
  rw [assignTargets, hknown, node_eq_ok hn, length_eq_ok hsource]
  rfl

theorem length_of_vector {id : NodeId} {node : Node} {outputs : List NodeId} {square : Bool}
    (hn : s.arena.get? id = some node) (hk : node.kind = .vector outputs square) :
    s.arena.length id = outputs.length ∧ s.arena.tag? id = some .vector := by
  simp [Arena.length, Arena.tag?, hn, Node.length, Node.components?, hk, Kind.tag]

theorem refusal_of_assignTargets {target source : NodeId}
    (h : s.assignTargets target source = .error e) : s.Refusal (.assign target source) e := by
  cases hk : s.requireKnown [target, source] with
  | error fault =>
    rw [assignTargets, hk] at h
    cases h
    obtain ⟨id, hid, hunknown, rfl⟩ := requireKnown_eq_error hk
    exact .unknown hid hunknown
  | ok u =>
    have hknown := requireKnown_eq_ok.1 hk
    obtain ⟨node, hn⟩ := Arena.contains_iff.1 (hknown target (by simp))
    rw [assignTargets_of_known hn (hknown source (by simp))] at h
    split at h
    next outputs square hvector =>
      obtain ⟨hlength, htag⟩ := length_of_vector hn hvector
      split at h
      next hshort =>
        cases h
        rw [← hlength] at hshort ⊢
        exact .sourceLength htag hshort.1 hshort.2
      next => cases h
    next hother =>
      cases h
      refine .notVector fun htag => ?_
      rw [Arena.tag?, hn, Option.map_some, Option.some.injEq] at htag
      cases hkind : node.kind with
      | vector outputs square => exact hother outputs square hkind
      | _ =>
        rw [hkind] at htag
        cases htag

theorem fits_of_assignTargets {target source : NodeId} {outputs : List NodeId}
    (hknown : ∀ id ∈ [target, source], s.arena.contains id = true)
    (h : s.assignTargets target source = .ok outputs) : s.Fits (.assign target source) := by
  obtain ⟨node, hn⟩ := Arena.contains_iff.1 (hknown target (by simp))
  rw [assignTargets_of_known hn (hknown source (by simp))] at h
  split at h
  next outputs' square hvector =>
    obtain ⟨hlength, htag⟩ := length_of_vector hn hvector
    split at h
    next => cases h
    next hlong => exact ⟨htag, by omega⟩
  next => cases h

theorem refusal_of_phiLength {test : Comparison} {success failure : NodeId} {name : Option String}
    (h : s.phiLength test success failure = .error e) :
    s.Refusal (.phi test success failure name) e := by
  rcases bind_eq_error.1 h with hk | ⟨u, hk, h⟩
  · obtain ⟨id, hid, hunknown, rfl⟩ := requireKnown_eq_error hk
    exact .unknown hid hunknown
  · have hknown := requireKnown_eq_ok.1 hk
    obtain ⟨yes, -, hyes, -, -, hyesv⟩ := node_of_contains (hknown success (by simp))
    obtain ⟨no, -, hno, -, -, hnov⟩ := node_of_contains (hknown failure (by simp))
    rw [hyes, hno] at h
    change (if _ then _ else _) = _ at h
    split at h
    next hdiffer =>
      cases h
      refine .branches ?_
      rw [hyesv, hnov]
      simpa using hdiffer
    next => cases h

end Checks

/-- A request that goes through meets its conditions. -/
theorem Performed.accepts {result : Option NodeId} (h : Performed s call result t)
    (hs : s.WellFormed) : s.Accepts call := by
  cases h with
  | scalar | recycle => exact ⟨by simp [Call.nodes], trivial⟩
  | @vector shape name known | @matrix shape name known =>
    refine ⟨?_, trivial⟩
    cases shape with
    | length n => simp [Call.nodes]
    | components cs => exact known cs rfl
  | apply conditions used =>
    obtain ⟨hne, hknown, harity⟩ := checkApply_eq_ok.1 conditions
    exact ⟨hknown, hne, fitsArity_of_check harity (by simpa using hne)⟩
  | map conditions built =>
    obtain ⟨hknown, -⟩ := hs.mapColumns conditions
    exact ⟨hknown, fits_of_mapColumns hknown conditions⟩
  | reduce conditions built =>
    obtain ⟨hknown, -⟩ := hs.reduceColumns conditions
    exact ⟨hknown, fits_of_reduceColumns hknown conditions⟩
  | @assign target source _ _ _ conditions sources stored =>
    obtain ⟨⟨node, square, hn, -⟩, hsource, -⟩ := assignTargets_eq_ok conditions
    have hknown : ∀ id ∈ [target, source], s.arena.contains id = true := by
      simp [Arena.contains_of_get? hn, hsource]
    exact ⟨hknown, fits_of_assignTargets hknown conditions⟩
  | phi conditions used allocate written =>
    obtain ⟨hknown, yes, no, hyes, hno, hshape, -⟩ := phiLength_eq_ok conditions
    refine ⟨hknown, ?_⟩
    simpa [Fits, Arena.isVector, hyes, hno] using hshape
  | output known used => exact ⟨by simpa [Call.nodes] using known, trivial⟩

theorem refusal_of_addVector {shape : Shape} {name : String} {square : Bool}
    (h : Builder.addVector shape name square s = .error e t) :
    ∃ ids, shape = .components ids ∧ ∃ id ∈ ids, s.arena.contains id = false ∧
      e = .unknownNode id := by
  cases shape with
  | length n => cases h
  | components ids =>
    refine ⟨ids, rfl, ?_⟩
    cases hk : s.requireKnown ids with
    | error fault =>
      rw [Builder.addVector, Builder.bind_error (Builder.ask_error hk)] at h
      cases h
      exact requireKnown_eq_error hk
    | ok u =>
      rw [Builder.addVector, Builder.bind_ok (Builder.ask_ok hk)] at h
      cases h

theorem check_eq_error_of_run {α β γ : Type} {check : Session → Except Fault α} {rest : α → Builder β}
    {f : β → γ} (h : (f <$> (Builder.ask check >>= rest)) s = .error e t)
    (hok : ∀ a, check s = .ok a → ∃ c u, (f <$> (Builder.ask check >>= rest)) s = .ok c u) :
    check s = .error e := by
  cases hc : check s with
  | error fault =>
    rw [Builder.map_error f (Builder.bind_error (Builder.ask_error hc))] at h
    cases h
    rfl
  | ok a =>
    obtain ⟨c, u, hrun⟩ := hok a hc
    rw [hrun] at h
    cases h

/-- A refused request is refused for one of the reasons, and none of them is met halfway. -/
theorem Complete.refusal_of_run (hs : s.Complete) (h : call.run s = .error e t) :
    s.Refusal call e := by
  cases call with
  | scalar name | recycle name => cases h
  | vector shape name | matrix shape name =>
    obtain ⟨ids, rfl, id, hid, hunknown, rfl⟩ := refusal_of_addVector (Builder.error_of_map h)
    exact .unknown hid hunknown
  | apply operation operands =>
    refine refusal_of_checkApply (check_eq_error_of_run h fun _ hc => ?_)
    obtain ⟨u, hu, -⟩ := Builder.apply_run hs.toWellFormed hc
    exact ⟨_, u, hu⟩
  | map operation operands =>
    refine refusal_of_mapColumns (check_eq_error_of_run h fun columns hc => ?_)
    obtain ⟨u, hu, -⟩ := Builder.map_run hs hc
    exact ⟨_, u, hu⟩
  | reduce operation operands =>
    refine refusal_of_reduceColumns (check_eq_error_of_run h fun columns hc => ?_)
    obtain ⟨u, hu, -⟩ := Builder.reduce_run hs hc
    exact ⟨_, u, hu⟩
  | assign target source =>
    refine refusal_of_assignTargets (check_eq_error_of_run h fun outputs hc => ?_)
    obtain ⟨-, u, hu, -⟩ := Builder.assign_run hs.toWellFormed hc
    exact ⟨_, u, hu⟩
  | phi test success failure wanted =>
    refine refusal_of_phiLength (check_eq_error_of_run h fun length hc => ?_)
    obtain ⟨result, u, hu, -⟩ := Builder.phi_run hs.toWellFormed hc wanted
    exact ⟨result, u, hu⟩
  | output id =>
    have hcheck := check_eq_error_of_run h fun _ hc => by
      obtain ⟨u, hu, -⟩ := Builder.output_run hs.toWellFormed hc
      exact ⟨_, u, hu⟩
    obtain ⟨id', hid, hunknown, rfl⟩ := requireKnown_eq_error hcheck
    exact .unknown hid hunknown

/-- In every session that requests lead to, a request goes through exactly when its conditions hold,
and a refused one leaves the whole session as it was, for a reason that the session shows. -/
theorem refusals_are_up_front {settings : Settings} {s₀ : Session}
    (h₀ : Session.new settings = .ok s₀) (calls : List Call) (call : Call) :
    ((∃ result t, call.run (s₀.run calls) = .ok result t) ↔ (s₀.run calls).Accepts call) ∧
      ∀ e t, call.run (s₀.run calls) = .error e t →
        t = s₀.run calls ∧ (s₀.run calls).Refusal call e := by
  obtain ⟨hs, -⟩ := (complete_of_new h₀).run calls
  refine ⟨⟨?_, fun haccepts => ?_⟩, fun e t h => ?_⟩
  · rintro ⟨result, t, h⟩
    rcases Builder.answered hs call with ⟨e, he⟩ | ⟨result', t', -, hperformed⟩
    · rw [he] at h
      cases h
    · exact hperformed.accepts hs.toWellFormed
  · rcases Builder.answered hs call with ⟨e, he⟩ | ⟨result, t, ht, -⟩
    · exact absurd haccepts (hs.refusal_of_run he).not_accepts
    · exact ⟨result, t, ht⟩
  · refine ⟨?_, hs.refusal_of_run h⟩
    rcases Builder.answered hs call with ⟨e', he⟩ | ⟨result, t', ht, -⟩
    · rw [he] at h
      cases h
      rfl
    · rw [ht] at h
      cases h

theorem refusals_are_up_front_of_lengths :
    let s := ({ settings := {} } : Session).run [.scalar "a", .vector (.length 2) "v",
      .vector (.length 3) "w", .apply "[[negate]]" [⟨0⟩, ⟨1⟩]]
    (∃ result t, (Call.map "+" [⟨1⟩, ⟨0⟩]).run s = .ok result t) ∧
      ∃ e, (Call.map "+" [⟨1⟩, ⟨4⟩]).run s = .error e s := by
  intro s
  have h₀ : Session.new {} = .ok { settings := {} } := rfl
  obtain ⟨hmap, -⟩ := refusals_are_up_front h₀ [.scalar "a", .vector (.length 2) "v",
    .vector (.length 3) "w", .apply "[[negate]]" [⟨0⟩, ⟨1⟩]] (.map "+" [⟨1⟩, ⟨0⟩])
  obtain ⟨hiff, hrefused⟩ := refusals_are_up_front h₀ [.scalar "a", .vector (.length 2) "v",
    .vector (.length 3) "w", .apply "[[negate]]" [⟨0⟩, ⟨1⟩]] (.map "+" [⟨1⟩, ⟨4⟩])
  refine ⟨hmap.2 (by decide +kernel), ?_⟩
  cases h : (Call.map "+" [⟨1⟩, ⟨4⟩]).run s with
  | ok result t => exact absurd (hiff.1 ⟨result, t, h⟩) (by decide +kernel)
  | error e t => exact ⟨e, by rw [(hrefused e t h).1]⟩

end Session

end StraightLine
