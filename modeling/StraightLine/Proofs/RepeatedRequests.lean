import StraightLine.Proofs.PartStructure

/-! # Requests made again

A mapping or reduction on record is answered by the node of the first request, and each of its parts
counts as requested again. The session is then the one that requests for the parts, one after the
other, would have led to: uses neither read nor change the record of identities, so only the number of
requests answered from it tells the two apart. -/
namespace StraightLine

def Session.recording (s : Session) (record : Identities) : Session :=
  { s with identities := record }

namespace Builder

variable {α β : Type} {s t u : Session}

theorem exists_of_bind_ok {x : Builder α} {f : α → Builder β} {b : β} (h : (x >>= f) s = .ok b u) :
    ∃ a t, x s = .ok a t ∧ f a t = .ok b u := by
  cases hx : x s with
  | error e t =>
    rw [bind_error hx] at h
    cases h
  | ok a t =>
    rw [bind_ok hx] at h
    exact ⟨a, t, rfl, h⟩

/-- A request that neither reads nor changes the record of identities. -/
def Ignores (x : Builder α) : Prop :=
  ∀ ⦃s a t⦄, x s = .ok a t → ∀ record, x (s.recording record) = .ok a (t.recording record)

/-- The record stays as it is. -/
theorem Ignores.identities_eq {x : Builder α} (hx : Ignores x) {a : α} (h : x s = .ok a t) :
    t.identities = s.identities := by
  have hsame := hx h s.identities
  rw [show s.recording s.identities = s from rfl, h, EStateM.Result.ok.injEq] at hsame
  have heq := congrArg Session.identities hsame.2
  exact heq

theorem Ignores.pure (a : α) : Ignores (pure a) := by
  intro s b t h record
  cases h
  rfl

theorem Ignores.bind {x : Builder α} {f : α → Builder β} (hx : Ignores x)
    (hf : ∀ a, Ignores (f a)) : Ignores (x >>= f) := by
  intro s b u h record
  obtain ⟨a, t, hxs, hft⟩ := exists_of_bind_ok h
  rw [bind_ok (hx hxs record)]
  exact hf a hft record

theorem Ignores.ite {p : Prop} [Decidable p] {x y : Builder α} (hx : Ignores x) (hy : Ignores y) :
    Ignores (if p then x else y) := by
  split
  · exact hx
  · exact hy

theorem Ignores.ask {question : Session → Except Fault α}
    (hq : ∀ s record, question (Session.recording s record) = question s) : Ignores (ask question) := by
  intro s a t h record
  cases ha : question s with
  | error e =>
    rw [ask_error ha] at h
    cases h
  | ok b =>
    rw [ask_ok ha] at h
    cases h
    exact ask_ok ((hq s record).trans ha)

theorem Ignores.modify {f : Session → Session}
    (hf : ∀ s record, f (s.recording record) = (f s).recording record) :
    Ignores (modify f : Builder Unit) := by
  intro s a t h record
  cases h
  show EStateM.Result.ok _ (f (s.recording record)) = _
  rw [hf]

theorem Ignores.update {change : Session → α × Session}
    (hc : ∀ s record, change (s.recording record) =
      ((change s).1, (change s).2.recording record)) : Ignores (update change) := by
  intro s a t h record
  cases h
  simp only [Builder.update, hc]

theorem Ignores.get {f : Session → Builder α} (hf : ∀ s, Ignores (f s))
    (hsame : ∀ s record, f (Session.recording s record) = f s) : Ignores (get >>= f) := by
  intro s a t h record
  rw [bind_ok get_run] at h ⊢
  rw [hsame]
  exact hf s h record

theorem ignores_declareNode (id : NodeId) (node : Node) (name : String) :
    Ignores (declareNode id node name) := by
  intro s a t h record
  cases hc : s.capture? node name with
  | some u =>
    rw [declareNode_captured hc] at h
    cases h
    refine declareNode_captured ?_
    obtain ⟨store, hstore, found, hfound, rfl⟩ : ∃ store, node.pendingStore? = some store ∧
        ∃ found, s.schedule.capture? store name = some found ∧
          { s with schedule := found.2 } = t := by
      simpa [Session.capture?, Option.bind_eq_some_iff] using hc
    simp [Session.capture?, Session.recording, hstore, hfound]
  | none =>
    have hc' : (s.recording record).capture? node name = none := by
      simpa [Session.capture?, Session.recording] using hc
    rw [declareNode, bind_ok get_run, hc] at h
    obtain ⟨e, u, he, hpush⟩ := exists_of_bind_ok h
    cases hs : s.expr id with
    | error fault =>
      rw [ask_error hs] at he
      cases he
    | ok e' =>
      rw [ask_ok hs] at he
      cases he
      cases hpush
      rw [declareNode, bind_ok get_run, hc']
      dsimp only
      rw [bind_ok (ask_ok (show (s.recording record).expr id = .ok e from hs))]
      rfl

theorem ignores_bindNode (id : NodeId) : Ignores (bindNode id) := by
  refine .bind (.ask fun _ _ => rfl) fun node => .get (fun s => .ite ?_ (.pure ())) fun _ _ => rfl
  refine .bind (.update fun _ _ => rfl) fun name => ?_
  exact .bind (ignores_declareNode id node name) fun _ => .modify fun _ _ => rfl

theorem ignores_use (id : NodeId) : Ignores (use id) := by
  refine .bind (.ask fun _ _ => rfl) fun node => .ite ?_ (.pure ())
  refine .bind (.modify fun _ _ => rfl) fun _ => .ite (ignores_bindNode id) (.pure ())

theorem Ignores.forM {f : α → Builder Unit} (hf : ∀ a, Ignores (f a)) (as : List α) :
    Ignores (as.forM f) := by
  induction as with
  | nil => exact .pure ()
  | cons a as ih => exact .bind (hf a) fun _ => ih

theorem ignores_useAll (ids : List NodeId) : Ignores (useAll ids) := .forM ignores_use ids

theorem ignores_useOperands (id : NodeId) : Ignores (useOperands id) := by
  refine .bind (.ask fun _ _ => rfl) fun node => ?_
  split
  · exact ignores_useAll _
  · exact .pure ()

open Session

/-- An operation on record is answered from there, and its operands are used. -/
theorem apply_again {operation : String} {operands : List NodeId} {c : NodeId}
    (hc : s.checkApply operation operands = .ok ())
    (hf : s.identities.find? ⟨.apply, operation, operands⟩ = some c)
    (ht : useAll operands s = .ok () t) :
    apply operation operands s =
      .ok c (t.recording { s.identities with hits := s.identities.hits + 1 }) := by
  have hu : update (·.intern ⟨.apply, operation, operands⟩) s =
      .ok (c, false) (s.recording { s.identities with hits := s.identities.hits + 1 }) := by
    rw [update, intern_known hf]
    rfl
  rw [apply, bind_ok (ask_ok hc), applyChecked, bind_ok hu]
  dsimp only
  rw [bind_ok (ignores_useAll operands ht _)]
  rfl

/-- To use the operands of all parts is to request the parts, but for the count of requests answered
from the record. -/
theorem applyAll_again {operation : String} {cs : List NodeId} {columns : List (List NodeId)}
    (hs : s.WellFormed)
    (hparts : List.Forall₂ (fun c column => s.arena.kind? c = some (.apply operation column)) cs
      columns)
    (hc : ∀ column ∈ columns, s.checkApply operation column = .ok ()) :
    ∃ t, cs.forM useOperands s = .ok () t ∧ columns.mapM (apply operation) s =
      .ok cs (t.recording { s.identities with hits := s.identities.hits + columns.length }) := by
  induction columns generalizing s cs with
  | nil =>
    cases hparts
    exact ⟨s, rfl, rfl⟩
  | cons column columns ih =>
    cases hparts with
    | @cons c _ cs _ hpart hparts =>
      have hcheck := hc column (by simp)
      obtain ⟨-, hknown, -⟩ := checkApply_eq_ok.1 hcheck
      obtain ⟨node, hn, hkind⟩ := Arena.exists_of_kind? hpart
      have hfound := (hs.identities ⟨.apply, operation, column⟩ c).2 ⟨node, hn, by rw [hkind]; rfl⟩
      obtain ⟨t, ht, hused⟩ := useAll_run hs hknown
      obtain ⟨hwf, hsame⟩ := hused.wellFormed hs
      have hrecord := (ignores_useAll column).identities_eq ht
      have hwf' : (t.recording { s.identities with hits := s.identities.hits + 1 }).WellFormed :=
        ⟨hwf.arena, hwf.leaves, hrecord ▸ hwf.identities⟩
      rw [← hsame.kind?_eq] at hparts
      obtain ⟨u, hu, hall⟩ := ih hwf' hparts fun column' hm =>
        checkApply_extends hsame.toExtends (hc column' (by simp [hm]))
      -- the uses of the other parts are made without a request in between
      have hrest := Ignores.forM ignores_useOperands cs hu t.identities
      refine ⟨u.recording t.identities, ?_, ?_⟩
      · rw [List.forM_eq_forM, List.forM_cons, bind_ok ((useOperands_of_kind? hpart).trans ht)]
        exact hrest
      · rw [List.mapM_cons, bind_ok (apply_again hcheck hfound ht), bind_ok hall, List.length_cons,
          Nat.add_comm columns.length, ← Nat.add_assoc]
        rfl

end Builder

namespace Session

open Builder

variable {s t : Session} {request : Call} {key : Identity} {id : NodeId}

theorem parts_of_tag (hkey : request.key? = some key) (htag : key.tag ≠ .apply)
    (cs : List NodeId) : (key.kind cs).parts? = some (key.operation, cs) := by
  cases request <;> cases hkey
  · exact absurd rfl htag
  · rfl
  · rfl

theorem run_of_columnwise {columns : List (List NodeId)} (hkey : request.key? = some key)
    (htag : key.tag ≠ .apply) (hcolumns : s.columns key = .ok columns)
    (h : columnwise key columns s = .ok id t) : request.run s = .ok (some id) t := by
  cases request <;> cases hkey
  · exact absurd rfl htag
  · exact map_ok _ (by rw [Builder.map, bind_ok (ask_ok hcolumns), h])
  · exact map_ok _ (by rw [Builder.reduce, bind_ok (ask_ok hcolumns), h])

/-- Every column of a mapping or reduction may be requested by itself. -/
theorem WellFormed.checkApply_of_columns (hs : s.WellFormed) {columns : List (List NodeId)}
    (hknown : ∀ o ∈ key.operands, s.arena.contains o = true) (h : s.columns key = .ok columns) :
    ∀ column ∈ columns, s.checkApply key.operation column = .ok () := by
  intro column hmem
  obtain ⟨hne, hfits⟩ := fits_of_columns hknown h column hmem
  refine checkApply_eq_ok.2 ⟨hne, ?_, check_of_fitsArity hfits⟩
  unfold Session.columns at h
  split at h
  next =>
    obtain ⟨-, -, hc⟩ := hs.mapColumns h
    exact (hc column hmem).2
  next =>
    obtain ⟨-, -, hc⟩ := hs.reduceColumns h
    exact (hc column hmem).2
  next =>
    cases h
    cases hmem

/-- A mapping or reduction on record, requested again. -/
theorem Complete.again (hs : s.Complete) (hkey : request.key? = some key) (htag : key.tag ≠ .apply)
    (hfound : s.identities.find? key = some id) :
    ∃ cs columns, ∃ t : Session, s.arena.kind? id = some (key.kind cs) ∧
      s.columns key = .ok columns ∧
      List.Forall₂ (fun c column => s.arena.kind? c = some (.apply key.operation column)) cs
        columns ∧
      request.run s =
        .ok (some id) (t.recording { s.identities with hits := s.identities.hits + 1 }) ∧
      columns.mapM (Builder.apply key.operation) s =
        .ok cs (t.recording
          { s.identities with hits := s.identities.hits + columns.length }) := by
  obtain ⟨node, hn, hident⟩ := (hs.identities key id).1 hfound
  obtain ⟨cs, hkind⟩ := Kind.eq_of_identity? hident
  have hk := hkind ▸ Arena.kind?_of_get? hn
  have hparts := parts_of_tag hkey htag cs
  rw [hkind] at hident
  obtain ⟨columns, hcolumns, hall⟩ := hs.columned id _ key key.operation cs hk hident hparts
  obtain ⟨t, ht, happly⟩ := applyAll_again hs.toWellFormed hall
    (hs.checkApply_of_columns (hs.contains_operand hk hident) hcolumns)
  have huse : useComponents id (s.intern key).2 =
      .ok () (t.recording { s.identities with hits := s.identities.hits + 1 }) := by
    rw [intern_known hfound]
    refine (useComponents_of_kind? ?_ hparts).trans (Ignores.forM ignores_useOperands cs ht _)
    exact hk
  exact ⟨cs, columns, t, hk, hcolumns, hall,
    run_of_columnwise hkey htag hcolumns (columnwise_known hfound huse), happly⟩

/-- A node with parts goes back to a request for it. -/
theorem History.requested {s₀ : Session} {events : List Event} {kind : Kind}
    {parts : String × List NodeId} (h : History s₀ events s) (h₀ : s₀.WellFormed)
    (hk : s.arena.kind? id = some kind) (hident : kind.identity? = some key)
    (hp : kind.parts? = some parts) :
    s₀.arena.kind? id = some kind ∨ ∃ e ∈ events, e.call.key? = some key := by
  induction h with
  | nil => exact .inl hk
  | @snoc events s t call result past last ih =>
    rcases last.kind?_of_parts (past.wellFormed h₀) hk hp with
      hold | ⟨key', columns, hkey, hident', -⟩
    · exact (ih hold).imp_right fun ⟨e, he, hkey⟩ => ⟨e, by simp [he], hkey⟩
    · rw [hident, Option.some.injEq] at hident'
      exact .inr ⟨⟨s, call, result, t⟩, by simp, hident' ▸ hkey⟩

/-- Requests with one identity are answered by the node on record. -/
theorem History.answers {s₀ : Session} {events : List Event} (h : History s₀ events s)
    (h₀ : s₀.WellFormed) {e : Event} (he : e ∈ events) (hkey : e.call.key? = some key) :
    ∃ id, e.result = some id ∧ s.identities.find? key = some id := by
  induction h with
  | nil => cases he
  | @snoc events s t call result past last ih =>
    have hs := past.wellFormed h₀
    obtain ⟨ht, hext⟩ := last.wellFormed hs
    rcases List.mem_append.1 he with hpast | hlast
    · obtain ⟨id, hid, hfound⟩ := ih hpast
      obtain ⟨node, hn, hident⟩ := (hs.identities key id).1 hfound
      obtain ⟨next, hnext, hkind⟩ := hext.kind_eq id node hn
      exact ⟨id, hid, (ht.identities key id).2 ⟨next, hnext, hkind ▸ hident⟩⟩
    · cases List.mem_singleton.1 hlast
      obtain ⟨id, node, hid, hn, hident⟩ := last.answers hs hkey
      exact ⟨id, hid, (ht.identities key id).2 ⟨node, hn, hident⟩⟩

theorem eq_of_key? {call : Call} (hkey : request.key? = some key) (h : call.key? = some key) :
    call = request := by
  cases request <;> cases hkey <;> cases call <;> cases h <;> rfl

/-- A request for a mapping or reduction that is on record is answered by the node of the first such
request. The session it leaves differs from the one that requests for the parts leave, each over the
operands of its part, in the number of requests answered from the record and in nothing else. -/
theorem known_requests_repeat_parts {settings : Settings} {s₀ : Session}
    (h₀ : Session.new settings = .ok s₀) (calls : List Call) {request : Call} {key : Identity}
    {id : NodeId} (hkey : request.key? = some key) (htag : key.tag ≠ .apply)
    (hfound : (s₀.run calls).identities.find? key = some id) :
    ((∃ e ∈ s₀.events calls, e.call = request) ∧
      ∀ e ∈ s₀.events calls, e.call = request → e.result = some id) ∧
    ∃ cs columns t u, (s₀.run calls).arena.kind? id = some (key.kind cs) ∧
      List.Forall₂ (fun c column =>
        (s₀.run calls).arena.kind? c = some (.apply key.operation column)) cs columns ∧
      (key.tag = .reduction → columns = key.operands.map (s₀.run calls).arena.column) ∧
      request.run (s₀.run calls) = .ok (some id) t ∧
      columns.mapM (Builder.apply key.operation) (s₀.run calls) = .ok cs u ∧
      t = { u with identities.hits := (s₀.run calls).identities.hits + 1 } ∧
      u.identities.hits = (s₀.run calls).identities.hits + columns.length := by
  have hnew := complete_of_new h₀
  have hpast := history_of_new h₀ calls
  obtain ⟨hs, -⟩ := hnew.run calls
  obtain ⟨cs, columns, t, hk, hcolumns, hparts, hrun, happly⟩ := hs.again hkey htag hfound
  obtain ⟨node, hn, hident⟩ := (hs.identities key id).1 hfound
  have hkind : node.kind = key.kind cs := by
    rw [Arena.kind?_of_get? hn, Option.some.injEq] at hk
    exact hk
  refine ⟨⟨?_, fun e he hcall => ?_⟩, cs, columns, _, _, hk, hparts, fun hred => ?_, hrun, happly, rfl,
    rfl⟩
  · rcases hpast.requested hnew.toWellFormed hk (hkind ▸ hident) (parts_of_tag hkey htag cs) with
      hold | ⟨e, he, hcall⟩
    · rw [eq_of_new h₀] at hold
      simp [Arena.kind?, Arena.get?] at hold
    · exact ⟨e, he, eq_of_key? hkey hcall⟩
  · obtain ⟨id', hid', hfound'⟩ := hpast.answers hnew.toWellFormed he (hcall ▸ hkey)
    rw [hfound] at hfound'
    rw [hid', hfound']
  · simp only [Session.columns, hred] at hcolumns
    exact columns_of_reduction hcolumns

theorem known_requests_repeat_parts_of_older_part :
    let s : Session := ({ settings := {} } : Session).run [.scalar "a", .vector (.length 2) "v",
      .apply "*" [⟨2⟩, ⟨0⟩], .map "*" [⟨1⟩, ⟨0⟩]]
    ∃ (cs : List NodeId) (columns : List (List NodeId)) (t u : Session),
      s.arena.kind? ⟨5⟩ = some (.mapping "*" [⟨1⟩, ⟨0⟩] cs) ∧
      (Call.map "*" [⟨1⟩, ⟨0⟩]).run s = .ok (some ⟨5⟩) t ∧
      columns.mapM (Builder.apply "*") s = .ok cs u ∧ t = { u with identities.hits := 2 } := by
  intro s
  have h₀ : Session.new {} = .ok { settings := {} } := rfl
  have hfound : s.identities.find? ⟨.mapping, "*", [⟨1⟩, ⟨0⟩]⟩ = some ⟨5⟩ := by decide +kernel
  have hhits : s.identities.hits = 1 := by decide +kernel
  have hkey : (Call.map "*" [⟨1⟩, ⟨0⟩]).key? = some ⟨.mapping, "*", [⟨1⟩, ⟨0⟩]⟩ := rfl
  obtain ⟨-, cs, columns, t, u, hk, -, -, hrun, happly, heq, -⟩ :=
    known_requests_repeat_parts h₀ _ hkey (by decide) hfound
  refine ⟨cs, columns, t, u, hk, hrun, happly, heq.trans ?_⟩
  rw [show (({ settings := {} } : Session).run _).identities.hits = 1 from hhits]

end Session

end StraightLine
