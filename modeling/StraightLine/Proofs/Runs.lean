import StraightLine.Proofs.Columns

/-! # Runs of requests

A session answers one request after the other. A refused request leaves no trace, so what a run
amounts to is the list of the requests that went through, each with the sessions around it. -/
namespace StraightLine

structure Event where
  before : Session
  call : Call
  result : Option NodeId
  after : Session

namespace Session

/-- The session after a request; a refused one leaves the session it was refused in. -/
def after (s : Session) (call : Call) : Session :=
  match call.run s with
  | .ok _ t => t
  | .error _ t => t

def run (s : Session) (calls : List Call) : Session := calls.foldl after s

def events (s : Session) : List Call → List Event
  | [] => []
  | call :: calls =>
    match call.run s with
    | .ok result t => ⟨s, call, result, t⟩ :: t.events calls
    | .error _ t => t.events calls

/-- Requests that went through one after the other, the latest last. -/
inductive History (s₀ : Session) : List Event → Session → Prop
  | nil : History s₀ [] s₀
  | snoc {events : List Event} {s t : Session} {call : Call} {result : Option NodeId}
      (past : History s₀ events s) (last : Performed s call result t) :
      History s₀ (events ++ [⟨s, call, result, t⟩]) t

variable {s₀ s t : Session}

theorem History.wellFormed {events : List Event} (h : History s₀ events s) (h₀ : s₀.WellFormed) :
    s.WellFormed := by
  induction h with
  | nil => exact h₀
  | snoc past last ih => exact (last.wellFormed ih).1

theorem History.complete {events : List Event} (h : History s₀ events s) (h₀ : s₀.Complete) :
    s.Complete := by
  induction h with
  | nil => exact h₀
  | snoc past last ih => exact last.complete ih

/-- What a request does to a session. -/
theorem Complete.after_cases (hs : s.Complete) (call : Call) :
    (s.after call = s ∧ ∃ e, call.run s = .error e s) ∨
      ∃ result, call.run s = .ok result (s.after call) ∧ Performed s call result (s.after call) := by
  rcases Builder.answered hs call with ⟨e, he⟩ | ⟨result, t, ht, hperf⟩
  · exact .inl ⟨by simp [Session.after, he], e, he⟩
  · have hafter : s.after call = t := by simp [Session.after, ht]
    rw [hafter]
    exact .inr ⟨result, ht, hperf⟩

/-- A run is the history of the requests that went through. -/
theorem History.run {past : List Event} (h : History s₀ past s) (h₀ : s₀.Complete)
    (calls : List Call) : History s₀ (past ++ s.events calls) (s.run calls) := by
  induction calls generalizing s past with
  | nil => simpa [events, Session.run] using h
  | cons call calls ih =>
    show History s₀ (past ++ s.events (call :: calls)) ((s.after call).run calls)
    rcases (h.complete h₀).after_cases call with ⟨hsame, e, he⟩ | ⟨result, hrun, hperf⟩
    · rw [events, he, hsame]
      exact ih h
    · rw [events, hrun]
      have hnext := ih (h.snoc hperf)
      rwa [List.append_assoc] at hnext

theorem eq_of_new {settings : Settings} (h : Session.new settings = .ok s) : s = { settings } := by
  simp only [Session.new, bind_eq_ok] at h
  obtain ⟨u, -, hs⟩ := h
  cases hs
  rfl

theorem wellFormed_of_new {settings : Settings} (h : Session.new settings = .ok s) :
    s.WellFormed := by
  obtain rfl := eq_of_new h
  refine ⟨Arena.wellFormed_empty, by simp [Arena.get?], fun key id => ?_⟩
  simp [Identities.find?, Arena.get?]

theorem complete_of_new {settings : Settings} (h : Session.new settings = .ok s) : s.Complete where
  toWellFormed := wellFormed_of_new h
  columned := by
    obtain rfl := eq_of_new h
    intro id kind key operation cs hk
    simp [Arena.kind?, Arena.get?] at hk

theorem history_of_new {settings : Settings} (h : Session.new settings = .ok s)
    (calls : List Call) : History s (s.events calls) (s.run calls) :=
  History.run .nil (complete_of_new h) calls

/-- Every run keeps a session complete and its nodes in place. -/
theorem Complete.run (hs : s.Complete) (calls : List Call) :
    (s.run calls).Complete ∧ s.arena.Extends (s.run calls).arena := by
  induction calls generalizing s with
  | nil => exact ⟨hs, .refl _⟩
  | cons call calls ih =>
    show ((s.after call).run calls).Complete ∧
      s.arena.Extends ((s.after call).run calls).arena
    rcases hs.after_cases call with ⟨hsame, -⟩ | ⟨result, -, hperf⟩
    · rw [hsame]
      exact ih hs
    · obtain ⟨-, hext⟩ := hperf.wellFormed hs.toWellFormed
      obtain ⟨hrun, hext'⟩ := ih (hperf.complete hs)
      exact ⟨hrun, hext.trans hext'⟩

end Session

end StraightLine
