import StraightLine.Proofs.Awaiting
import StraightLine.Proofs.Kernels

/-! # Prior values of fields

Where only fields by themselves are used after stores into them, a kernel works on the values that the
caller passed in. What can be read too late is an expression that was left inline while one of its
fields was stored into, and a field that was stored into twice before it was used again. -/
namespace StraightLine

/-- No statement reads a slot that an earlier one has overwritten, unless it uses the field by
itself. -/
def InlineReadsBeforeStores (statements : List Statement) : Prop :=
  statements.Pairwise fun earlier later =>
    ∀ slot ∈ later.value.slots, slot ∉ later.bare → earlier.stored? ≠ some slot

instance (statements : List Statement) : Decidable (InlineReadsBeforeStores statements) :=
  inferInstanceAs (Decidable (statements.Pairwise _))

theorem ReadsBeforeStores.of_bare {statements : List Statement}
    (hinline : InlineReadsBeforeStores statements) (hbare : UsesBeforeStores statements) :
    ReadsBeforeStores statements := by
  refine (hinline.and hbare).imp fun {earlier later} ⟨hrest, huse⟩ slot hslot => ?_
  by_cases h : slot ∈ later.bare
  · exact huse slot h
  · exact hrest slot hslot h

namespace Session

/-- Fields have the values that the caller passed in, whatever is stored into them: no use of a field
itself comes after a store into its slot, and if no other read does, the kernel computes what the
requests ask for. -/
theorem kernel_reads_prior_values {R : Type*} [CommRing R] {s₀ : Session} {settings : Settings}
    (h₀ : Session.new settings = .ok s₀) (hfields : settings.aliasFields = true) (calls : List Call)
    (hadm : ∀ e ∈ s₀.events calls, e.Admissible) (I : Interpretation R) (entry : Entry R) :
    UsesBeforeStores (s₀.run calls).schedule.statements ∧
      (InlineReadsBeforeStores (s₀.run calls).schedule.statements →
        ∃ m, Computes I entry (s₀.events calls) (s₀.run calls) m ∧
          ∀ e ∈ s₀.events calls, ∀ id, e.call = .output id → (s₀.run calls).Unstored id →
            Returns I entry (s₀.events calls) (s₀.run calls) m id) := by
  have h := history_of_new h₀ calls
  have hread : ∀ e ∈ s₀.events calls, ∀ id ∈ e.sources, Read (s₀.events calls) id :=
    fun e he id hid => ⟨e, he, hid⟩
  have hwritten : ∀ e ∈ s₀.events calls, ∀ p ∈ e.stores, Written (s₀.events calls) p.1 :=
    fun e he p hp => ⟨e, he, p, hp, rfl⟩
  have haw := h.awaited h₀ hfields hadm hread hwritten
  refine ⟨haw.uses, fun hinline => ?_⟩
  obtain ⟨m, hcomputes, hreturns⟩ := h.computes h₀ I entry hadm hread hwritten
    (ReadsBeforeStores.of_bare hinline haw.uses)
  exact ⟨m, hcomputes, fun e he id hcall =>
    hreturns id (h.contains_output (wellFormed_of_new h₀) he hcall)⟩

theorem kernel_reads_prior_values_of_swap :
    let s₀ : Session := { settings := {} }
    let calls : List Call := [.scalar "x", .vector (.length 2) "v",
      .vector (.components [⟨3⟩, ⟨2⟩]) "w", .assign ⟨1⟩ ⟨4⟩, .apply "*" [⟨2⟩, ⟨0⟩], .output ⟨5⟩]
    let I : Interpretation ℤ := ⟨(· / ·), fun _ => List.sum, fun _ _ _ => true⟩
    let entry : Entry ℤ := ⟨fun _ => 3, fun _ i => 4 + i⟩
    ∃ m, execute I (Meaning.ofEvents I entry (s₀.events calls)).start
        (s₀.run calls).schedule.statements = some m ∧ m.slot? "v" 1 = some (.scalar 4) ∧
      ∃ text, (s₀.run calls).renderOutput ⟨⟨5⟩⟩ = .ok ("return " ++ text) ∧
        evaluate I m text = some (.scalar 12) := by
  intro s₀ calls I entry
  have h₀ : Session.new {} = .ok s₀ := rfl
  obtain ⟨-, hkernel⟩ := kernel_reads_prior_values h₀ rfl calls (by decide +kernel) I entry
  obtain ⟨m, hm, hreturns⟩ := hkernel (by decide +kernel)
  have hlast : lastSource? (s₀.events calls) ("v", 1) = some ⟨2⟩ := by decide +kernel
  have hkind : (s₀.run calls).arena.kind? ⟨2⟩ = some (.field ⟨1⟩ 0) := by decide +kernel
  have hstored : (Meaning.ofEvents I entry (s₀.events calls)).value ⟨2⟩ = 4 := by decide +kernel
  have hscalar : (s₀.run calls).arena.isScalar ⟨5⟩ = true := by decide +kernel
  have hvalue : (Meaning.ofEvents I entry (s₀.events calls)).value ⟨5⟩ = 12 := by decide +kernel
  have houtput : ∃ e ∈ s₀.events calls, e.call = .output ⟨5⟩ := by decide +kernel
  have hkeyword : (s₀.run calls).settings.style.returnKeyword ++ " " = "return " := by decide +kernel
  have hslots : ((s₀.run calls).arena.expr? ⟨5⟩).map Expr.slots = some [] := by decide +kernel
  clear_value s₀ calls I entry
  have hslot := hm.assigned "v" 1 ⟨2⟩ hlast (by simp [hkind])
  obtain ⟨e, he, hcall⟩ := houtput
  have hunstored : (s₀.run calls).Unstored ⟨5⟩ := by
    intro expr hexpr slot hslot
    rw [hexpr, Option.map_some, Option.some.injEq] at hslots
    rw [hslots] at hslot
    cases hslot
  obtain ⟨text, htext, heval⟩ := hreturns e he ⟨5⟩ hcall hunstored
  rw [hkeyword] at htext
  refine ⟨m, hm.run, ?_, text, htext, ?_⟩
  · rw [hslot, Meaning.returned, hkind, hstored]
  · rw [heval, Meaning.returned_of_isScalar _ hscalar, hvalue]

theorem prior_values_lost_by_late_reads :
    let s₀ : Session := { settings := {} }
    let calls : List Call := [.scalar "x", .vector (.length 1) "v", .vector (.length 1) "w",
      .apply "+" [⟨2⟩, ⟨0⟩], .assign ⟨1⟩ ⟨0⟩, .assign ⟨3⟩ ⟨5⟩, .assign ⟨1⟩ ⟨4⟩, .assign ⟨1⟩ ⟨1⟩,
      .output ⟨2⟩]
    let I : Interpretation ℤ := ⟨(· / ·), fun _ => List.sum, fun _ _ _ => true⟩
    let entry : Entry ℤ := ⟨fun _ => 3, fun vector _ => if vector = "v" then 4 else 5⟩
    let k := Meaning.ofEvents I entry (s₀.events calls)
    let ran := execute I k.start (s₀.run calls).schedule.statements
    (s₀.events calls).flatMap Event.stores =
        [(⟨2⟩, ⟨0⟩), (⟨4⟩, ⟨5⟩), (⟨2⟩, ⟨4⟩), (⟨2⟩, ⟨2⟩)] ∧
      k.value ⟨2⟩ = 4 ∧ ran.bind (fun m => (m.slot? "v" 0).bind Quantity.scalar?) = some 5 ∧
      k.value ⟨5⟩ = 7 ∧ ran.bind (fun m => (m.slot? "w" 0).bind Quantity.scalar?) = some 6 ∧
      (s₀.run calls).renderOutput ⟨⟨2⟩⟩ = .ok "return vx" ∧
      ran.bind (fun m => (evaluate I m "vx").bind Quantity.scalar?) = some 3 := by
  decide +kernel

end Session

end StraightLine
