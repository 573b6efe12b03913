import StraightLine.Proofs.Runs

/-! # Sharing of equal requests

A request for an operation, a mapping or a reduction is answered by the one node of that kind,
operation and operands. Nodes stay in place, so the same request is answered by the same node ever
after, and no node is added for it. -/
namespace StraightLine

namespace Session

variable {s t u : Session} {key : Identity}

theorem Columnwise.get?_intern {columns : List (List NodeId)} (h : Columnwise key columns s t)
    (hs : s.WellFormed) (hk : s.Requestable key)
    (hc : ∀ column ∈ columns, column ≠ [] ∧ ∀ o ∈ column, s.arena.contains o = true) :
    ∃ node, t.arena.get? (s.intern key).1.1 = some node ∧ node.kind.identity? = some key := by
  obtain ⟨node, hn, hkey⟩ := hs.get?_intern hk
  have hext := extends_intern s key
  cases h with
  | known found used =>
    obtain ⟨-, hsame⟩ := used.wellFormed (hs.intern hk)
    obtain ⟨other, ho, hkind⟩ := hsame.kind_eq _ node hn
    exact ⟨other, ho, hkind ▸ hkey⟩
  | @fresh cs w new applied =>
    obtain ⟨-, hsw, -⟩ := applied.wellFormed (hs.intern hk) fun column hm =>
      ⟨(hc column hm).1, fun o ho => hext.contains ((hc column hm).2 o ho)⟩
    obtain ⟨other, ho, hkind⟩ := hsw.kind_eq _ node hn
    refine ⟨other.withComponents cs, ?_, ?_⟩
    · simp [setComponents, Arena.setComponents, Arena.get?_modify, ho]
    · rw [Node.identity?_withComponents, hkind, hkey]

/-- The node that a request is answered with has the identity that was asked for. -/
theorem Performed.answers {call : Call} {result : Option NodeId} (h : Performed s call result t)
    (hs : s.WellFormed) (hkey : call.key? = some key) :
    ∃ id node, result = some id ∧ t.arena.get? id = some node ∧ node.kind.identity? = some key := by
  cases h with
  | @apply operation operands t conditions used =>
    cases hkey
    obtain ⟨hne, hknown, -⟩ := checkApply_eq_ok.1 conditions
    have hreq : s.Requestable ⟨.apply, operation, operands⟩ := ⟨rfl, hknown, fun _ => hne⟩
    obtain ⟨node, hn, hk⟩ := hs.get?_intern hreq
    obtain ⟨-, hsame⟩ := used.wellFormed (hs.intern hreq)
    obtain ⟨other, ho, hkind⟩ := hsame.kind_eq _ node hn
    exact ⟨_, other, rfl, ho, hkind ▸ hk⟩
  | map conditions built =>
    cases hkey
    obtain ⟨hknown, -, hc⟩ := hs.mapColumns conditions
    obtain ⟨node, hn, hk⟩ := built.get?_intern hs ⟨rfl, hknown, by simp⟩ hc
    exact ⟨_, node, rfl, hn, hk⟩
  | reduce conditions built =>
    cases hkey
    obtain ⟨hknown, -, hc⟩ := hs.reduceColumns conditions
    obtain ⟨node, hn, hk⟩ := built.get?_intern hs ⟨rfl, hknown, by simp⟩ hc
    exact ⟨_, node, rfl, hn, hk⟩
  | _ => cases hkey

theorem UsedAll.size_of_known {ids : List NodeId} {id : NodeId} (hs : s.WellFormed)
    (hfound : s.identities.find? key = some id) (h : UsedAll ids (s.intern key).2 t) :
    t.arena.size = s.arena.size := by
  rw [intern_known hfound] at h
  obtain ⟨-, hsame⟩ := h.wellFormed ⟨hs.arena, hs.leaves, hs.identities⟩
  exact hsame.size_eq

theorem Columnwise.size_of_known {columns : List (List NodeId)} {id : NodeId} (hs : s.WellFormed)
    (hfound : s.identities.find? key = some id) (h : Columnwise key columns s t) :
    t.arena.size = s.arena.size := by
  cases h with
  | fresh new applied => simp [hfound] at new
  | known found used => exact used.size_of_known hs hfound

/-- A request whose identity is on record goes through again wherever its conditions held before. -/
theorem Performed.again {call : Call} {result : Option NodeId} {id : NodeId}
    (h : Performed s call result t) (hs : s.WellFormed) (hu : u.Complete)
    (hext : s.arena.Extends u.arena) (hkey : call.key? = some key)
    (hfound : u.identities.find? key = some id) :
    ∃ v, call.run u = .ok (some id) v ∧ v.arena.size = u.arena.size := by
  have hid : (u.intern key).1.1 = id := by rw [intern_known hfound]
  cases h with
  | apply conditions used =>
    cases hkey
    obtain ⟨v, hv, hused⟩ := Builder.apply_run hu.toWellFormed (checkApply_extends hext conditions)
    exact ⟨v, hid ▸ hv, hused.size_of_known hu.toWellFormed hfound⟩
  | map conditions built =>
    cases hkey
    obtain ⟨hknown, -⟩ := hs.mapColumns conditions
    rw [← mapColumns_extends hext hknown] at conditions
    obtain ⟨v, hv, hbuilt⟩ := Builder.map_run hu conditions
    exact ⟨v, hid ▸ hv, hbuilt.size_of_known hu.toWellFormed hfound⟩
  | reduce conditions built =>
    cases hkey
    obtain ⟨hknown, -⟩ := hs.reduceColumns conditions
    rw [← reduceColumns_extends hext hknown] at conditions
    obtain ⟨v, hv, hbuilt⟩ := Builder.reduce_run hu conditions
    exact ⟨v, hid ▸ hv, hbuilt.size_of_known hu.toWellFormed hfound⟩
  | _ => cases hkey

theorem run_append (s : Session) (calls more : List Call) :
    s.run (calls ++ more) = (s.run calls).run more := by
  simp [run]

theorem events_append (s : Session) (calls more : List Call) :
    s.events (calls ++ more) = s.events calls ++ (s.run calls).events more := by
  induction calls generalizing s with
  | nil => rfl
  | cons call calls ih =>
    rw [List.cons_append, events, events]
    have hrun : s.run (call :: calls) = (s.after call).run calls := rfl
    rw [hrun, Session.after]
    cases call.run s with
    | ok result t => simp [ih]
    | error e t => simp [ih]

/-- In every session that requests lead to, no two nodes answer the same request, and the record
holds exactly the requests that nodes answer. So a request that went through once goes through again
after any others, with the same node and without a new one. -/
theorem sharing_is_exact {settings : Settings} {s₀ : Session} (h₀ : Session.new settings = .ok s₀)
    (calls : List Call) :
    (∀ id other node node' key, (s₀.run calls).arena.get? id = some node →
      (s₀.run calls).arena.get? other = some node' → node.kind.identity? = some key →
      node'.kind.identity? = some key → id = other) ∧
    (∀ key id, (s₀.run calls).identities.find? key = some id ↔
      ∃ node, (s₀.run calls).arena.get? id = some node ∧ node.kind.identity? = some key) ∧
    ∀ earlier request later key result t, calls = earlier ++ request :: later →
      request.key? = some key → request.run (s₀.run earlier) = .ok result t →
      ∃ id u, result = some id ∧ request.run (s₀.run calls) = .ok (some id) u ∧
        u.arena.size = (s₀.run calls).arena.size := by
  have hwf := complete_of_new h₀
  obtain ⟨hs, -⟩ := hwf.run calls
  refine ⟨fun id other node node' key hn hn' hk hk' => ?_, hs.identities, ?_⟩
  · have hid := (hs.identities key id).2 ⟨node, hn, hk⟩
    have hother := (hs.identities key other).2 ⟨node', hn', hk'⟩
    rw [hid] at hother
    exact Option.some.inj hother
  · rintro earlier request later key result t rfl hkey hrun
    obtain ⟨hpre, -⟩ := hwf.run earlier
    rcases hpre.after_cases request with ⟨-, e, he⟩ | ⟨found, hfound, hperf⟩
    · rw [he] at hrun
      cases hrun
    · rw [hfound] at hrun
      cases hrun
      obtain ⟨-, hext⟩ := hperf.wellFormed hpre.toWellFormed
      obtain ⟨hend, hext'⟩ := (hperf.complete hpre).run later
      have hlast : s₀.run (earlier ++ request :: later) =
          ((s₀.run earlier).after request).run later := by
        rw [run_append]
        rfl
      obtain ⟨id, node, rfl, hn, hk⟩ := hperf.answers hpre.toWellFormed hkey
      obtain ⟨last, hl, hkind⟩ := hext'.kind_eq id node hn
      have hrecord := (hend.identities key id).2 ⟨last, hl, hkind ▸ hk⟩
      obtain ⟨u, hu, hsize⟩ := hperf.again hpre.toWellFormed hend (hext.trans hext') hkey hrecord
      rw [hlast]
      exact ⟨id, u, rfl, hu, hsize⟩

theorem sharing_is_exact_of_mapping :
    ∃ id u, (Call.map "+" [⟨1⟩, ⟨0⟩]).run (({ settings := {} } : Session).run
        [.scalar "a", .vector (.length 2) "v", .map "+" [⟨1⟩, ⟨0⟩], .apply "-" [⟨9⟩],
          .assign ⟨1⟩ ⟨4⟩]) = .ok (some id) u ∧ u.arena.size = 7 := by
  have h₀ : Session.new {} = .ok { settings := {} } := rfl
  obtain ⟨-, -, hrepeat⟩ := sharing_is_exact h₀
    [.scalar "a", .vector (.length 2) "v", .map "+" [⟨1⟩, ⟨0⟩], .apply "-" [⟨9⟩],
      .assign ⟨1⟩ ⟨4⟩]
  obtain ⟨hpre, -⟩ := (complete_of_new h₀).run [.scalar "a", .vector (.length 2) "v"]
  have hcolumns : (({ settings := {} } : Session).run
      [.scalar "a", .vector (.length 2) "v"]).mapColumns "+" [⟨1⟩, ⟨0⟩] =
      .ok [[⟨2⟩, ⟨0⟩], [⟨3⟩, ⟨0⟩]] := by decide +kernel
  obtain ⟨t, ht, -⟩ := Builder.map_run hpre hcolumns
  obtain ⟨id, u, -, hrun, hsize⟩ := hrepeat [.scalar "a", .vector (.length 2) "v"]
    (.map "+" [⟨1⟩, ⟨0⟩]) [.apply "-" [⟨9⟩], .assign ⟨1⟩ ⟨4⟩] _ _ t rfl rfl ht
  exact ⟨id, u, hrun, hsize.trans (by decide +kernel)⟩

end Session

end StraightLine
