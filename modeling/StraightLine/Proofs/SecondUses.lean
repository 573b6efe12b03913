import Mathlib.Data.List.Count
import StraightLine.Proofs.DeclaredNames

/-! # Second uses

With bindings on, a node that no assignment stores into is bound to a name at its second use, where
uses are counted over all requests, and over those that are answered from the record as well. Whatever
the settings, the declarations are those of the bound nodes and of the merged values, one for each. -/
namespace StraightLine

theorem Kind.isAliasable_of_parts? {kind : Kind} {parts : String × List NodeId}
    (h : kind.parts? = some parts) (settings : Settings) : kind.isAliasable settings = true := by
  cases kind <;> simp_all [Kind.parts?, Kind.isAliasable]

/-- How a node stands after a number of uses, if bindings are on and nothing was stored into it. -/
def Node.Tallied (node : Node) (uses : Nat) : Prop :=
  (∃ name, node.standing = .named name) ∧ node.aliasable = false ∧ 2 ≤ uses ∨
    node.standing = .inline ∧ node.aliasable = true ∧ node.uses = uses ∧ uses ≤ 1

namespace Node

variable {node : Node} {uses : Nat} {settings : Settings}

theorem Tallied.named_iff (h : node.Tallied uses) :
    (∃ name, node.standing = .named name) ↔ 2 ≤ uses := by
  rcases h with ⟨hnamed, -, huses⟩ | ⟨hinline, -, -, huses⟩
  · exact ⟨fun _ => huses, fun _ => hnamed⟩
  · constructor
    · rintro ⟨name, hname⟩
      rw [hinline] at hname
      cases hname
    · intro hle
      omega

theorem Fresh.tallied (h : node.Fresh settings) (hkind : node.kind.isAliasable settings = true) :
    node.Tallied 0 :=
  .inr ⟨h.inline (Kind.not_isLeaf_of_isAliasable hkind), h.aliasable.trans hkind, h.uses,
    Nat.zero_le 1⟩

/-- A use of a node that may not be bound any more. -/
theorem Tallied.fixed (h : node.Tallied uses) (hfixed : node.aliasable = false) :
    node.Tallied (uses + 1) := by
  rcases h with ⟨hnamed, -, huses⟩ | ⟨-, halias, -⟩
  · exact .inl ⟨hnamed, hfixed, Nat.le_succ_of_le huses⟩
  · rw [hfixed] at halias
    cases halias

theorem Tallied.counted (h : node.Tallied uses) (halias : node.aliasable = true)
    (hkept : node.uses ≠ 1) : Tallied { node with uses := node.uses + 1 } (uses + 1) := by
  rcases h with ⟨-, hfixed, -⟩ | ⟨hinline, -, huses, hle⟩
  · rw [hfixed] at halias
    cases halias
  · exact .inr ⟨hinline, halias, congrArg (· + 1) huses, by omega⟩

theorem Tallied.bound (h : node.Tallied uses) (halias : node.aliasable = true)
    (hsecond : node.uses = 1) (name : String) :
    Tallied (Node.bound name { node with uses := node.uses + 1 }) (uses + 1) := by
  rcases h with ⟨-, hfixed, -⟩ | ⟨-, -, huses, -⟩
  · rw [hfixed] at halias
    cases halias
  · exact .inl ⟨⟨name, rfl⟩, rfl, by omega⟩

end Node

namespace Session

variable {s t : Session} {id : NodeId} {effects more : List Effect}

/-- Every node that nothing was stored into stands as its uses so far demand. -/
structure Tallied (s : Session) (effects : List Effect) : Prop where
  known : ∀ id, .used id ∈ effects → s.arena.contains id = true
  tallied : ∀ id node, s.arena.get? id = some node → node.kind.isAliasable s.settings = true →
    .stored id ∉ effects → node.Tallied (effects.count (.used id))

theorem Tallied.count_eq_zero (h : s.Tallied effects) (hid : s.arena.size ≤ id.index) :
    effects.count (.used id) = 0 := by
  refine List.count_eq_zero.2 fun hmem => ?_
  have hlt : id.index < s.arena.size := by simpa [Arena.contains] using h.known id hmem
  omega

theorem Tallied.grown (h : s.Tallied effects) (hgrown : s.Grown t) : t.Tallied effects where
  known id hmem := by
    obtain ⟨node, hn⟩ := Arena.contains_iff.1 (h.known id hmem)
    exact Arena.contains_of_get? (hgrown.get?_of_get? hn)
  tallied id node hn hkind hstored := by
    rw [hgrown.settings] at hkind
    rcases hgrown.cases hn with hold | ⟨hsize, hfresh⟩
    · exact h.tallied id node hold hkind hstored
    · rw [h.count_eq_zero hsize]
      exact hfresh.tallied hkind

theorem Tallied.setComponents (h : s.Tallied effects) {node : Node} {operation : String}
    {old cs : List NodeId} (hn : s.arena.get? id = some node)
    (hparts : node.kind.parts? = some (operation, old)) :
    (s.setComponents id cs).Tallied effects where
  known other hmem := by
    have hsize : (s.setComponents id cs).arena.size = s.arena.size := Arena.size_modify ..
    simpa [Arena.contains, hsize] using h.known other hmem
  tallied other found hfound hkind hstored := by
    rcases get?_setComponents_cases hn hparts hfound with hold | ⟨rfl, kind, rfl, -⟩
    · exact h.tallied other found hold hkind hstored
    · exact h.tallied other node hn (Kind.isAliasable_of_parts? hparts _) hstored

/-- What a use does to a node is what one more use demands. -/
theorem Tallied.used (h : s.Tallied effects) (hs : s.WellFormed)
    (hon : s.settings.aliasExpressions = true) (hused : Used s id t) :
    t.Tallied (effects ++ [.used id]) where
  known other hmem := by
    obtain ⟨-, hsame⟩ := hused.wellFormed hs
    refine hsame.toExtends.contains ?_
    rcases List.mem_append.1 hmem with hmem | hmem
    · exact h.known other hmem
    · cases List.mem_singleton.1 hmem
      cases hused with
      | fixed get | counted get | bound get => exact Arena.contains_of_get? get
  tallied other node hn hkind hstored := by
    have hstored' : .stored other ∉ effects := fun h => hstored (List.mem_append_left _ h)
    rw [hused.settings_eq] at hkind
    rw [List.count_append]
    rcases hused.get?_cases hn with ⟨hold, hfixed⟩ | ⟨rfl, old, hold, halias, hcases⟩
    · have htallied := h.tallied other node hold hkind hstored'
      by_cases heq : other = id
      · subst heq
        rw [List.count_singleton_self]
        exact htallied.fixed (hfixed rfl)
      · simpa [List.count_singleton, Ne.symm heq] using htallied
    · rw [List.count_singleton_self]
      rcases hcases with ⟨hkept, rfl⟩ | ⟨hsecond, name, rfl⟩
      · have htallied := h.tallied other old hold hkind hstored'
        refine htallied.counted halias (hkept.resolve_right fun hmay => ?_)
        rw [(mayBind_eq_false hmay).2] at hon
        cases hon
      · exact (h.tallied other old hold hkind hstored').bound halias hsecond name

theorem Tallied.storing (h : s.Tallied effects) (output : NodeId) (place e : Expr) :
    (s.storing output place e).Tallied (effects ++ [.stored output]) where
  known id hmem := by
    have hsize : (s.storing output place e).arena.size = s.arena.size := Arena.size_modify ..
    have hmem : .used id ∈ effects := by simpa using hmem
    simpa [Arena.contains, hsize] using h.known id hmem
  tallied id node hn hkind hstored := by
    have hne : id ≠ output := by
      rintro rfl
      simp at hstored
    rw [Session.storing, modifyNode, Arena.get?_modify_of_ne hne] at hn
    have htallied := h.tallied id node hn hkind fun h => hstored (List.mem_append_left _ h)
    simpa [List.count_append, List.count_singleton] using htallied

theorem Tallied.merged (h : s.Tallied effects) (id : NodeId) (name : String) :
    s.Tallied (effects ++ [.merged id name]) where
  known other hmem := h.known other (by simpa using hmem)
  tallied other node hn hkind hstored := by
    have htallied := h.tallied other node hn hkind fun h => hstored (List.mem_append_left _ h)
    simpa [List.count_append, List.count_singleton] using htallied

theorem Step.tallied (h : Step s more t) (hs : s.WellFormed)
    (hon : s.settings.aliasExpressions = true) (htallied : s.Tallied effects) :
    t.Tallied (effects ++ more) := by
  cases h with
  | add added =>
    rw [List.append_nil]
    exact htallied.grown added.grown
  | parts get parts =>
    rw [List.append_nil]
    exact htallied.setComponents get parts
  | use used => exact htallied.used hs hon used
  | store => exact htallied.storing ..
  | @merge _ _ _ _ name names value length =>
    have hmerging : (s.merging names name value).Tallied effects :=
      ⟨htallied.known, htallied.tallied⟩
    exact (hmerging.grown (grown_addMerged _ name length)).merged ..

theorem tallied_of_new {settings : Settings} (h : Session.new settings = .ok s) :
    s.Tallied [] := by
  obtain rfl := eq_of_new h
  exact ⟨by simp, by simp [Arena.get?]⟩

theorem Steps.tallied {s₀ : Session} {settings : Settings} (h₀ : Session.new settings = .ok s₀)
    (hon : settings.aliasExpressions = true) (h : Steps s₀ effects s) :
    s.settings = settings ∧ s.Tallied effects := by
  refine (h.invariant (fun effects s => s.settings = settings ∧ s.Tallied effects)
    (wellFormed_of_new h₀) ⟨by rw [eq_of_new h₀], tallied_of_new h₀⟩ ?_).2
  intro past more s t hs ⟨hsettings, htallied⟩ hstep
  exact ⟨hstep.settings_eq.trans hsettings, hstep.tallied hs (hsettings ▸ hon) htallied⟩

end Session

namespace Event

/-- The nodes that a request uses, each as often as it is used. An assignment passes over a component
that is its own source. -/
def uses (e : Event) : List NodeId :=
  match e.call with
  | .assign .. => (e.stores.filter fun p => p.1 ≠ p.2).map Prod.snd
  | _ => e.sources

theorem count_storeEffects (pairs : List (NodeId × NodeId)) (id : NodeId) :
    (Session.storeEffects pairs).count (.used id) =
      ((pairs.filter fun p => p.1 ≠ p.2).map Prod.snd).count id := by
  rw [Session.storeEffects]
  induction pairs.filter fun p => p.1 ≠ p.2 with
  | nil => rfl
  | cons p pairs ih =>
    rw [List.flatMap_cons, List.count_append, ih, List.map_cons, List.count_cons, Nat.add_comm]
    simp [List.count_cons, beq_eq_decide]

theorem count_effects (e : Event) (id : NodeId) :
    e.effects.count (.used id) = e.uses.count id := by
  have hsources : (e.sources.map Effect.used ++
      e.merged?.toList.map fun m => Effect.merged m.1 m.2).count (.used id) = e.sources.count id := by
    have hinjective : Function.Injective Effect.used := fun _ _ h => Effect.used.inj h
    rw [List.count_append, List.count_map_of_injective _ _ hinjective]
    simp [List.count_eq_zero]
  obtain ⟨before, call, result, after⟩ := e
  cases call with
  | assign target source => exact count_storeEffects ..
  | _ => exact hsources

theorem count_flatMap_effects (events : List Event) (id : NodeId) :
    (events.flatMap effects).count (.used id) = (events.flatMap uses).count id := by
  induction events with
  | nil => rfl
  | cons e events ih =>
    rw [List.flatMap_cons, List.count_append, ih, count_effects, List.flatMap_cons,
      List.count_append]

theorem exists_store_of_stored {e : Event} {id : NodeId} (h : .stored id ∈ e.effects) :
    ∃ p ∈ e.stores, p.1 = id := by
  obtain ⟨before, call, result, after⟩ := e
  cases call with
  | assign target source =>
    obtain ⟨p, hp, hmem⟩ := List.mem_flatMap.1 h
    refine ⟨p, List.mem_of_mem_filter hp, ?_⟩
    simpa [eq_comm] using hmem
  | _ => simp [effects] at h

end Event

namespace Session

/-- With bindings on, a node that is not stored into has a name exactly if it was used twice. Whatever
the settings, the declarations are those of the bound nodes and of the merges, one for each and under
its name. -/
theorem nodes_are_bound_at_second_use {s₀ : Session} {settings : Settings}
    (h₀ : Session.new settings = .ok s₀) (calls : List Call) :
    (settings.aliasExpressions = true → ∀ id kind, (s₀.run calls).arena.kind? id = some kind →
      kind.isAliasable settings = true → (∀ e ∈ s₀.events calls, ∀ p ∈ e.stores, p.1 ≠ id) →
      ((∃ name, (s₀.run calls).arena.standing? id = some (.named name)) ↔
        2 ≤ ((s₀.events calls).flatMap Event.uses).count id)) ∧
    ∃ home : NodeId → StatementId, (s₀.run calls).schedule.declarations.Perm
      (((s₀.run calls).arena.bindings ++ (s₀.events calls).filterMap Event.merged?).map
        fun p => (home p.1, p.2)) := by
  have hsteps := (history_of_new h₀ calls).steps (wellFormed_of_new h₀)
  constructor
  · intro hon id kind hkind haliasable hstores
    obtain ⟨hsettings, htallied⟩ := hsteps.tallied h₀ hon
    obtain ⟨node, hn, rfl⟩ := Arena.exists_of_kind? hkind
    have hstored : .stored id ∉ (s₀.events calls).flatMap Event.effects := by
      intro hmem
      obtain ⟨e, he, hmem⟩ := List.mem_flatMap.1 hmem
      obtain ⟨p, hp, hid⟩ := Event.exists_store_of_stored hmem
      exact hstores e he p hp hid
    have hnode := htallied.tallied id node hn (hsettings ▸ haliasable) hstored
    rw [Event.count_flatMap_effects] at hnode
    rw [Arena.standing?_of_get? hn, ← hnode.named_iff]
    simp
  · obtain ⟨-, -, home, hdeclared⟩ := hsteps.declared h₀
    rw [Event.filterMap_flatMap_effects] at hdeclared
    exact ⟨home, hdeclared.perm⟩

theorem nodes_are_bound_at_second_use_of_known_mapping :
    let calls : List Call := [.scalar "a", .vector (.length 2) "v", .map "*" [⟨1⟩, ⟨0⟩],
      .map "*" [⟨1⟩, ⟨0⟩], .phi ⟨⟨0⟩, "<", ⟨0⟩⟩ ⟨5⟩ ⟨0⟩ none]
    let s := ({ settings := {} } : Session).run calls
    (∃ name, s.arena.standing? ⟨2⟩ = some (.named name)) ∧
      (¬∃ name, s.arena.standing? ⟨5⟩ = some (.named name)) ∧
      s.schedule.declarations.length = 3 := by
  intro calls s
  have h₀ : Session.new {} = .ok { settings := {} } := rfl
  obtain ⟨hbound, home, hperm⟩ := nodes_are_bound_at_second_use h₀ calls
  have hfield : s.arena.kind? ⟨2⟩ = some (.field ⟨1⟩ 0) := by decide +kernel
  have hproduct : s.arena.kind? ⟨5⟩ = some (.apply "*" [⟨2⟩, ⟨0⟩]) := by decide +kernel
  refine ⟨?_, ?_, ?_⟩
  · rw [hbound rfl ⟨2⟩ _ hfield rfl (by decide +kernel)]
    decide +kernel
  · rw [hbound rfl ⟨5⟩ _ hproduct rfl (by decide +kernel)]
    decide +kernel
  · rw [hperm.length_eq, List.length_map]
    decide +kernel

end Session

end StraightLine
