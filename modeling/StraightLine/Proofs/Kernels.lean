import StraightLine.Proofs.LastSources

/-! # Kernels

A kernel is run by executing its statements on the caller's memory and then evaluating what it returns.
If the caller never reads a field that it assigns to, no statement can read an overwritten slot, and the
kernel computes what the requests ask for, however much of it is shared, named and put off. -/
namespace StraightLine

namespace Session

variable {R : Type*} [CommRing R] {s s₀ : Session} {settings : Settings} {events : List Event}
  {read written : NodeId → Prop} {I : Interpretation R} {entry : Entry R} {m : Memory R}

/-- The statements run to the end, and leave the caller's memory as the assignments ask. In
particular a slot holds the value of its last source, and slots without a source are untouched. -/
structure Computes (I : Interpretation R) (entry : Entry R) (events : List Event) (s : Session)
    (m : Memory R) : Prop where
  run : execute I (Meaning.ofEvents I entry events).start s.schedule.statements = some m
  memory : (Meaning.ofEvents I entry events).final.Within m
  untouched : ∀ vector index v, lastSource? events (vector, index) = none →
    (Meaning.ofEvents I entry events).start.slot? vector index = some v →
    m.slot? vector index = some v
  assigned : ∀ vector index source, lastSource? events (vector, index) = some source →
    (∀ cs square, s.arena.kind? source ≠ some (.vector cs square)) →
    m.slot? vector index = some ((Meaning.ofEvents I entry events).returned s.arena source)

/-- The return of a node has the value that the requests give to the node. -/
def Returns (I : Interpretation R) (entry : Entry R) (events : List Event) (s : Session)
    (m : Memory R) (id : NodeId) : Prop :=
  ∃ text, s.renderOutput ⟨id⟩ = .ok (s.settings.style.returnKeyword ++ " " ++ text) ∧
    evaluate I m text = some ((Meaning.ofEvents I entry events).returned s.arena id)

/-- The text of a node reads no slot that a statement stores into. -/
def Unstored (s : Session) (id : NodeId) : Prop :=
  ∀ e, s.arena.expr? id = some e → ∀ slot ∈ e.slots,
    ∀ st ∈ s.schedule.statements, st.stored? ≠ some slot

omit [CommRing R] in
theorem slot?_within {m m' : Memory R} (h : m.Within m') {vector : String} {index : Nat} {v : Quantity R}
    (hslot : m.slot? vector index = some v) : m'.slot? vector index = some v := by
  obtain ⟨w, hw, hitem⟩ := Option.bind_eq_some_iff.1 hslot
  rw [Memory.slot?, h vector w hw, Option.bind_some, hitem]

/-- A kernel in which no statement reads an overwritten slot computes what was asked for. -/
theorem History.computes (h₀ : Session.new settings = .ok s₀) (h : History s₀ events s)
    (I : Interpretation R) (entry : Entry R) (hadm : ∀ e ∈ events, e.Admissible)
    (hread : ∀ e ∈ events, ∀ id ∈ e.sources, read id)
    (hwritten : ∀ e ∈ events, ∀ p ∈ e.stores, written p.1)
    (hreads : ReadsBeforeStores s.schedule.statements) :
    ∃ m, Computes I entry events s m ∧
      ∀ id, s.arena.contains id = true → s.Unstored id → Returns I entry events s m id := by
  have hs := h.regular h₀ hadm hread hwritten
  obtain ⟨m, hm⟩ := h.faithful h₀ I entry hadm hread hwritten hreads
  have hholds := h.holds h₀ I entry hadm hread hwritten hreads
  refine ⟨m, ⟨hm.run, hm.final, fun vector index v hlast hslot => ?_,
    fun vector index source hlast hnot => ?_⟩, fun id hid hunstored => ?_⟩
  · have hslot' := hholds (vector, index)
    rw [hlast, Holds, hslot] at hslot'
    exact slot?_within hm.final hslot'
  · have hslot := hholds (vector, index)
    rw [hlast] at hslot
    exact slot?_within hm.final (hslot.2.2 hnot)
  · obtain ⟨e, he⟩ := hs.arena.expr?_eq_some hid
    refine ⟨e.text .suppress, ?_, (hm.reads hs he (hunstored e he)).sum.evaluate⟩
    simp [renderOutput, render, expr_eq_ok he, bind, Except.bind, pure, Except.pure]

theorem History.contains_output (h : History s₀ events s) (h₀ : s₀.WellFormed) {e : Event}
    (he : e ∈ events) {id : NodeId} (hcall : e.call = .output id) : s.arena.contains id = true := by
  induction h with
  | nil => cases he
  | @snoc events s t call result past last ih =>
    obtain ⟨-, hext⟩ := last.wellFormed (past.wellFormed h₀)
    rcases List.mem_append.1 he with hold | hnew
    · exact hext.contains (ih hold)
    · rw [List.mem_singleton] at hnew
      subst hnew
      simp only at hcall
      subst hcall
      cases last with
      | output known used => exact hext.contains known

def Read (events : List Event) (id : NodeId) : Prop := ∃ e ∈ events, id ∈ e.sources

def Written (events : List Event) (id : NodeId) : Prop := ∃ e ∈ events, ∃ p ∈ e.stores, p.1 = id

/-- If the caller never reads a field that it assigns to, every kernel computes what the requests
ask for. -/
theorem kernel_has_requested_meaning (h₀ : Session.new settings = .ok s₀) (calls : List Call)
    (hadm : ∀ e ∈ s₀.events calls, e.Admissible)
    (hwriteOnly : ∀ id, Written (s₀.events calls) id → ¬Read (s₀.events calls) id)
    (I : Interpretation R) (entry : Entry R) :
    ∃ m, Computes I entry (s₀.events calls) (s₀.run calls) m ∧
      ∀ e ∈ s₀.events calls, ∀ id, e.call = .output id →
        Returns I entry (s₀.events calls) (s₀.run calls) m id := by
  have h := history_of_new h₀ calls
  generalize s₀.events calls = events at *
  generalize s₀.run calls = s at *
  have hread : ∀ e ∈ events, ∀ id ∈ e.sources, Read events id := fun e he id hid => ⟨e, he, hid⟩
  have hwritten : ∀ e ∈ events, ∀ p ∈ e.stores, Written events p.1 := fun e he p hp =>
    ⟨e, he, p, hp, rfl⟩
  have hapart : ∀ id, Read events id → ¬Written events id := fun id hr hw => hwriteOnly id hw hr
  have hs := h.regular h₀ hadm hread hwritten
  obtain ⟨m, hcomputes, hreturns⟩ := h.computes h₀ I entry hadm hread hwritten
    (hs.readsBeforeStores hapart)
  refine ⟨m, hcomputes, fun e he id hcall => hreturns id ?_ fun expr hexpr slot hslot => ?_⟩
  · exact h.contains_output (wellFormed_of_new h₀) he hcall
  · refine hs.not_stored hapart (hs.toTraced.slots hs.arena hexpr (fun _ _ _ => ?_) slot hslot)
    exact ⟨e, he, by simp [Event.sources, hcall]⟩

theorem kernel_has_requested_meaning_of_scaled_vector :
    let s₀ : Session := { settings := {} }
    let calls : List Call := [.scalar "x", .vector (.length 2) "v", .vector (.length 2) "out",
      .map "*" [⟨1⟩, ⟨0⟩], .reduce "+" [⟨7⟩], .assign ⟨4⟩ ⟨7⟩, .output ⟨11⟩]
    let I : Interpretation ℤ := ⟨(· / ·), fun _ => List.sum, fun _ _ _ => true⟩
    let entry : Entry ℤ := ⟨fun _ => 3, fun _ i => 4 + i⟩
    ∃ m, execute I (Meaning.ofEvents I entry (s₀.events calls)).start
        (s₀.run calls).schedule.statements = some m ∧ m.slot? "out" 1 = some (.scalar 15) ∧
      ∃ text, (s₀.run calls).renderOutput ⟨⟨11⟩⟩ = .ok ("return " ++ text) ∧
        evaluate I m text = some (.scalar 27) := by
  intro s₀ calls I entry
  have h₀ : Session.new {} = .ok s₀ := rfl
  have hwriteOnly : ∀ e ∈ s₀.events calls, ∀ p ∈ e.stores, ∀ d ∈ s₀.events calls,
      p.1 ∉ d.sources := by decide +kernel
  obtain ⟨m, hm, hreturns⟩ := kernel_has_requested_meaning h₀ calls (by decide +kernel)
    (fun _ ⟨e, he, p, hp, hid⟩ ⟨d, hd, hread⟩ => hwriteOnly e he p hp d hd (hid ▸ hread)) I entry
  have hlast : lastSource? (s₀.events calls) ("out", 1) = some ⟨9⟩ := by decide +kernel
  have hkind : (s₀.run calls).arena.kind? ⟨9⟩ = some (.apply "*" [⟨3⟩, ⟨0⟩]) := by decide +kernel
  have hstored : (Meaning.ofEvents I entry (s₀.events calls)).value ⟨9⟩ = 15 := by decide +kernel
  have hscalar : (s₀.run calls).arena.isScalar ⟨11⟩ = true := by decide +kernel
  have hvalue : (Meaning.ofEvents I entry (s₀.events calls)).value ⟨11⟩ = 27 := by decide +kernel
  have houtput : ∃ e ∈ s₀.events calls, e.call = .output ⟨11⟩ := by decide +kernel
  have hkeyword : (s₀.run calls).settings.style.returnKeyword ++ " " = "return " := by decide +kernel
  clear_value s₀ calls I entry
  have hslot := hm.assigned "out" 1 ⟨9⟩ hlast (by simp [hkind])
  obtain ⟨e, he, hcall⟩ := houtput
  obtain ⟨text, htext, heval⟩ := hreturns e he ⟨11⟩ hcall
  rw [hkeyword] at htext
  refine ⟨m, hm.run, ?_, text, htext, ?_⟩
  · rw [hslot, Meaning.returned, hkind, hstored]
  · rw [heval, Meaning.returned_of_isScalar _ hscalar, hvalue]

end Session

end StraightLine
