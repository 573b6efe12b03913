import StraightLine.Proofs.SoundRuns

/-! # Slots hold their last sources

In the end a slot of the caller holds what the caller passed in, or the value of the last node that was
assigned to it. Values of nodes do not change along a run, so it does not matter when they are asked
for. -/
namespace StraightLine

/-- The source of a slot after a request. A field that is its own source is passed. -/
def Event.sourceOf (slot : String × Nat) (last : Option NodeId) (e : Event) : Option NodeId :=
  e.stores.foldl (fun last p =>
    if p.1 ≠ p.2 ∧ e.before.arena.place? p.1 = some slot then some p.2 else last) last

/-- The last node that was assigned to a slot. -/
def lastSource? (events : List Event) (slot : String × Nat) : Option NodeId :=
  events.foldl (Event.sourceOf slot) none

variable {R : Type*} [CommRing R]

namespace Session

variable {s t : Session} {read written : NodeId → Prop} {I : Interpretation R} {k l : Meaning R}
  {m : Memory R} {slot : String × Nat} {last : Option NodeId}

/-- What a slot holds in the end. A vector as a source is left out: it may be assigned to later. -/
def Holds (k : Meaning R) (s : Session) (slot : String × Nat) : Option NodeId → Prop
  | none => k.final.slot? slot.1 slot.2 = k.start.slot? slot.1 slot.2
  | some source => (∃ v, k.final slot.1 = some v) ∧ s.arena.contains source = true ∧
    ((∀ cs square, s.arena.kind? source ≠ some (.vector cs square)) →
      k.final.slot? slot.1 slot.2 = some (k.returned s.arena source))

omit [CommRing R] in
theorem Holds.mono (h : Holds k s slot last) (hwf : s.arena.WellFormed)
    (hext : s.arena.Extends t.arena) (hkeeps : k.Keeps l s.arena)
    (hstart : l.start slot.1 = k.start slot.1) (hfinal : l.final slot.1 = k.final slot.1) :
    Holds l t slot last := by
  cases last with
  | none =>
    rw [Holds, Memory.slot?, Memory.slot?, hstart, hfinal]
    exact h
  | some source =>
    obtain ⟨⟨v, hv⟩, hknown, hslot⟩ := h
    refine ⟨⟨v, hfinal.trans hv⟩, hext.contains hknown, fun hnot => ?_⟩
    obtain ⟨node, hn⟩ := Arena.contains_iff.1 hknown
    have hk := Arena.kind?_of_get? hn
    have hk' := hext.kind? hk
    have hplain : ∀ cs square, node.kind ≠ .vector cs square := by
      intro cs square heq
      exact hnot cs square (heq ▸ hk')
    have hreturned : l.returned t.arena source = k.returned s.arena source :=
      Meaning.returned_congr hwf hk hk' (fun cs square _ hv _ => absurd hv (hplain cs square)) hkeeps
    rw [hreturned, Memory.slot?, hfinal]
    refine hslot fun cs square heq => hplain cs square ?_
    rwa [hk, Option.some.injEq] at heq

/-- The slots of all fields exist. -/
def Covers (k : Meaning R) (a : Arena) : Prop :=
  ∀ id vector index, a.place? id = some (vector, index) →
    ∃ items, k.final vector = some (.list items) ∧ index < items.length

omit [CommRing R] in
theorem Covers.overwrite {a : Arena} (h : Covers k a) (p : NodeId × NodeId) :
    Covers (k.overwrite a p) a := by
  unfold Meaning.overwrite
  split
  · exact h
  · split
    next vector index hplace =>
      obtain ⟨items, hitems, hlt⟩ := h p.1 vector index hplace
      intro id vector' index' hplace'
      obtain ⟨items', hitems', hlt'⟩ := h id vector' index' hplace'
      simp only [Memory.store_of_list hitems hlt, Option.getD_some]
      by_cases heq : vector' = vector
      · subst heq
        rw [hitems] at hitems'
        cases hitems'
        exact ⟨_, Memory.bind_self, by rwa [List.length_set]⟩
      · exact ⟨items', (Memory.bind_of_ne heq).trans hitems', hlt'⟩
    next => exact h

omit [CommRing R] in
/-- A store gives its slot a new source. -/
theorem Holds.overwrite (h : Holds k s slot last) (hwf : s.arena.WellFormed)
    (hcovers : Covers k s.arena) {p : NodeId × NodeId} (hknown : s.arena.contains p.2 = true)
    {place : String × Nat} (hplace : s.arena.place? p.1 = some place) :
    Holds (k.overwrite s.arena p) s slot
      (if p.1 ≠ p.2 ∧ s.arena.place? p.1 = some slot then some p.2 else last) := by
  obtain ⟨vector, index⟩ := place
  obtain ⟨items, hitems, hlt⟩ := hcovers p.1 vector index hplace
  by_cases hne : p.1 = p.2
  · rw [if_neg (by simp [hne]), Meaning.overwrite, if_pos hne]
    exact h
  · have hstore := Memory.store_of_list (v := k.returned s.arena p.2) hitems hlt
    have hmeaning : k.overwrite s.arena p = { k with
        final := k.final.bind vector (.list (items.set index (k.returned s.arena p.2))) } := by
      simp [Meaning.overwrite, hne, hplace, hstore]
    have hvector : (k.overwrite s.arena p).final vector =
        some (.list (items.set index (k.returned s.arena p.2))) := by
      rw [hmeaning]
      exact Memory.bind_self
    have hreturned : ∀ source, s.arena.contains source = true →
        (∀ cs square, s.arena.kind? source ≠ some (.vector cs square)) →
        (k.overwrite s.arena p).returned s.arena source = k.returned s.arena source := by
      intro source hsource hnot
      obtain ⟨node, hn⟩ := Arena.contains_iff.1 hsource
      have hk := Arena.kind?_of_get? hn
      refine Meaning.returned_congr hwf hk hk (fun cs square _ hv _ => ?_) fun c _ => ?_
      · exact absurd (hv ▸ hk) (hnot cs square)
      · rw [hmeaning]
    by_cases heq : (vector, index) = slot
    · subst heq
      rw [if_pos ⟨hne, hplace⟩]
      refine ⟨⟨_, hvector⟩, hknown, fun hnot => ?_⟩
      rw [hreturned p.2 hknown hnot, Memory.slot?, hvector]
      simp [Quantity.item?, hlt]
    · have hkept : (k.overwrite s.arena p).final.slot? slot.1 slot.2 =
          k.final.slot? slot.1 slot.2 := by
        rw [hmeaning]
        exact Memory.slot?_store hstore (Ne.symm heq)
      rw [if_neg (by simp [hplace, heq])]
      cases last with
      | none =>
        rw [Holds, hkept, hmeaning]
        exact h
      | some source =>
        obtain ⟨⟨v, hv⟩, hsource, hslot⟩ := h
        refine ⟨?_, hsource, fun hnot => ?_⟩
        · by_cases hother : slot.1 = vector
          · exact ⟨_, hother ▸ hvector⟩
          · refine ⟨v, ?_⟩
            rw [hmeaning]
            exact (Memory.bind_of_ne hother).trans hv
        · rw [hreturned source hsource hnot, hkept]
          exact hslot hnot

omit [CommRing R] in
theorem Holds.overwrites {pairs : List (NodeId × NodeId)} (h : Holds k s slot last)
    (hwf : s.arena.WellFormed) (hcovers : Covers k s.arena)
    (hknown : ∀ p ∈ pairs, s.arena.contains p.2 = true)
    (hplace : ∀ p ∈ pairs, ∃ place, s.arena.place? p.1 = some place) :
    Holds (pairs.foldl (Meaning.overwrite s.arena) k) s slot (pairs.foldl (fun last p =>
      if p.1 ≠ p.2 ∧ s.arena.place? p.1 = some slot then some p.2 else last) last) := by
  induction pairs generalizing k last with
  | nil => exact h
  | cons p pairs ih =>
    obtain ⟨place, hp⟩ := hplace p (by simp)
    exact ih (h.overwrite hwf hcovers (hknown p (by simp)) hp) (hcovers.overwrite p)
      (fun q hq => hknown q (by simp [hq])) fun q hq => hplace q (by simp [hq])

theorem memory_operations (I : Interpretation R) (k : Meaning R)
    (operations : List (NodeId × String × List NodeId)) :
    (operations.foldl (Meaning.operate I) k).start = k.start ∧
      (operations.foldl (Meaning.operate I) k).final = k.final := by
  induction operations generalizing k with
  | nil => exact ⟨rfl, rfl⟩
  | cons o operations ih => exact ih (k.operate I o)

/-- Every request but an assignment leaves the caller's memory, or adds a new name to it. -/
theorem Performed.memory {call : Call} {result : Option NodeId} (h : Performed s call result t)
    (hadm : Event.Admissible ⟨s, call, result, t⟩)
    (hassign : ∀ target source, call ≠ .assign target source) (k : Meaning R)
    (I : Interpretation R) (entry : Entry R) :
    ((k.after I entry ⟨s, call, result, t⟩).start = k.start ∧
      (k.after I entry ⟨s, call, result, t⟩).final = k.final) ∨
    ∃ name v, name ∉ s.names.taken ∧
      (k.after I entry ⟨s, call, result, t⟩).start = k.start.bind name v ∧
      (k.after I entry ⟨s, call, result, t⟩).final = k.final.bind name v := by
  cases h with
  | scalar name => exact .inr ⟨name, _, hadm.2, rfl, rfl⟩
  | vector name known => exact .inr ⟨name, _, hadm.2, rfl, rfl⟩
  | matrix name known => exact .inr ⟨name, _, hadm.2, rfl, rfl⟩
  | apply | map | reduce | output => exact .inl (memory_operations I k _)
  | assign => exact absurd rfl (hassign _ _)
  | phi => exact .inl ⟨rfl, rfl⟩
  | recycle => exact hadm.elim

theorem Faithful.covers (h : Faithful I k s m) (hs : s.Regular read written) :
    Covers k s.arena := by
  intro id vector index hplace
  obtain ⟨-, -, -, items, -, -, -, hlt, -, hfinal⟩ := h.items hs hplace
  exact ⟨items, hfinal, hlt⟩

/-- A request keeps what slots hold, but for those it assigns to. -/
theorem Performed.holds {call : Call} {result : Option NodeId} (hp : Performed s call result t)
    (h : Faithful I k s m) (hs : s.Regular read written) (entry : Entry R)
    (hadm : Event.Admissible ⟨s, call, result, t⟩)
    (hkeeps : k.Keeps (k.after I entry ⟨s, call, result, t⟩) s.arena)
    (hlast : Holds k s slot last) :
    Holds (k.after I entry ⟨s, call, result, t⟩) t slot
      (Event.sourceOf slot last ⟨s, call, result, t⟩) := by
  obtain ⟨-, hext⟩ := hp.wellFormed hs.toWellFormed
  by_cases hassign : ∃ target source, call = .assign target source
  · obtain ⟨target, source, rfl⟩ := hassign
    cases hp with
    | @assign _ _ outputs inputs _ conditions sources stored =>
      have hstores : Event.stores ⟨s, .assign target source, none, t⟩ = outputs.zip inputs :=
        Event.stores_assign conditions sources
      obtain ⟨hplace, hknown⟩ := hs.toWellFormed.assigned hadm conditions sources
      have hstored := hlast.overwrites hs.arena (h.covers hs) hknown hplace
      simp only [Meaning.after, Event.sourceOf, hstores]
      exact hstored.mono hs.arena hext (fun _ _ => rfl) rfl rfl
  · have hassign' : ∀ target source, call ≠ .assign target source := fun target source heq =>
      hassign ⟨target, source, heq⟩
    have hsource : Event.sourceOf slot last ⟨s, call, result, t⟩ = last := by
      cases call <;> first | rfl | exact absurd rfl (hassign' _ _)
    rw [hsource]
    rcases hp.memory hadm hassign' k I entry with ⟨hstart, hfinal⟩ | ⟨name, v, hfree, hstart, hfinal⟩
    · exact hlast.mono hs.arena hext hkeeps (by rw [hstart]) (by rw [hfinal])
    · by_cases heq : slot.1 = name
      · cases last with
        | none =>
          rw [Holds, Memory.slot?, Memory.slot?, hstart, hfinal, heq, Memory.bind_self,
            Memory.bind_self]
        | some source =>
          -- a slot with a source belongs to a vector, whose name was taken before
          obtain ⟨⟨w, hw⟩, -⟩ := hlast
          have hbound := h.final slot.1 w hw
          rw [heq, h.unbound name hfree] at hbound
          cases hbound
      · exact hlast.mono hs.arena hext hkeeps (by rw [hstart, Memory.bind_of_ne heq])
          (by rw [hfinal, Memory.bind_of_ne heq])

/-- After every run, slots hold what the caller passed in or the values of their last sources. -/
theorem History.holds {s₀ : Session} {settings : Settings} (h₀ : Session.new settings = .ok s₀)
    {events : List Event} (h : History s₀ events s) (I : Interpretation R) (entry : Entry R)
    (hadm : ∀ e ∈ events, e.Admissible) (hread : ∀ e ∈ events, ∀ id ∈ e.sources, read id)
    (hwritten : ∀ e ∈ events, ∀ p ∈ e.stores, written p.1)
    (hreads : ReadsBeforeStores s.schedule.statements) (slot : String × Nat) :
    Holds (Meaning.ofEvents I entry events) s slot (lastSource? events slot) := by
  induction h with
  | nil => rfl
  | @snoc events s t call result past last ih =>
    have hadm' : ∀ e ∈ events, e.Admissible := fun e he => hadm e (by simp [he])
    have hread' : ∀ e ∈ events, ∀ id ∈ e.sources, read id := fun e he => hread e (by simp [he])
    have hwritten' : ∀ e ∈ events, ∀ p ∈ e.stores, written p.1 := fun e he =>
      hwritten e (by simp [he])
    have hbefore := hreads.sublist last.sublist
    have hs := past.regular h₀ hadm' hread' hwritten'
    have hcolumned := (past.complete (complete_of_new h₀)).columned
    obtain ⟨m, hm⟩ := past.faithful h₀ I entry hadm' hread' hwritten' hbefore
    have hlast := hadm ⟨s, call, result, t⟩ (by simp)
    obtain ⟨hkeeps, -⟩ := last.faithful hm hs hcolumned entry hlast
      (hread ⟨s, call, result, t⟩ (by simp)) (hwritten ⟨s, call, result, t⟩ (by simp)) hreads
    rw [Meaning.ofEvents, lastSource?, List.foldl_append, List.foldl_append]
    exact last.holds hm hs entry hlast hkeeps (ih hadm' hread' hwritten' hbefore)

end Session

end StraightLine
