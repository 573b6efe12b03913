import StraightLine.Proofs.RequestConditions
import StraightLine.Session.Call

/-! # What requests add to a session

Leaves, vectors with their fields, nodes that answer requests, the parts of such nodes, and stores.
None of these additions changes the kind of an older node, apart from the parts of the node that is
being built, and each keeps a session well-formed. -/
namespace StraightLine

namespace Arena

variable {a : Arena}

theorem extends_register (a : Arena) (node : Node) : a.Extends (a.register node).2 := by
  refine ⟨fun id old hold => ⟨old, ?_, rfl⟩⟩
  have hlt := index_lt_of_get? hold
  rw [get?_register, if_neg (by omega), hold]

theorem WellFormed.register (ha : a.WellFormed) {node : Node}
    (hp : (a.register node).2.Placed ⟨a.size⟩ node) : (a.register node).2.WellFormed := by
  intro id found hf
  rw [get?_register] at hf
  split at hf
  next hi =>
    cases hf
    obtain rfl : id = ⟨a.size⟩ := by cases id; simp_all
    exact hp
  next => exact (ha id found hf).keeps (extends_register a node).keeps rfl (ha id found hf).named

section Fields

variable (a : Arena) (name : String) (square aliasable : Bool) (n : Nat)

/-- The nodes after a vector of fresh fields was added: the vector stands under the next number, and
its fields follow it in order. -/
theorem get?_registerFields (id : NodeId) : (a.registerFields name square aliasable n).2.get? id =
    if id.index < a.size then a.get? id
    else if id.index = a.size then
      some ⟨.vector ((List.range n).map fun i => ⟨a.size + 1 + i⟩) square, .named name, false, 0⟩
    else if id.index < a.size + 1 + n then
      some ⟨.field ⟨a.size⟩ (id.index - (a.size + 1)), .inline, aliasable, 0⟩
    else none := by
  have hsize : a.nodes.size = a.size := rfl
  simp only [registerFields, register, get?, Array.getElem?_append, Array.size_push,
    Array.getElem?_push, Array.getElem?_map, Array.getElem?_range, hsize]
  by_cases hlt : id.index < a.size
  · rw [if_pos (by omega), if_neg (by omega), if_pos hlt]
  · rw [if_neg hlt]
    by_cases heq : id.index = a.size
    · rw [if_pos (by omega), if_pos heq, if_pos heq]
    · rw [if_neg (by omega), if_neg heq]
      by_cases hin : id.index < a.size + 1 + n
      · rw [if_pos hin, if_pos (by omega)]
        rfl
      · rw [if_neg hin, if_neg (by omega)]
        rfl

theorem get?_registerFields_vector : (a.registerFields name square aliasable n).2.get? ⟨a.size⟩ =
    some ⟨.vector ((List.range n).map fun i => ⟨a.size + 1 + i⟩) square, .named name, false, 0⟩ := by
  rw [get?_registerFields, if_neg (by simp), if_pos rfl]

theorem get?_registerFields_field {i : Nat} (hi : i < n) :
    (a.registerFields name square aliasable n).2.get? ⟨a.size + 1 + i⟩ =
      some ⟨.field ⟨a.size⟩ i, .inline, aliasable, 0⟩ := by
  rw [get?_registerFields, if_neg (by simp; omega), if_neg (by simp; omega), if_pos (by simp; omega)]
  simp

theorem registerFields_cases {id : NodeId} {node : Node}
    (h : (a.registerFields name square aliasable n).2.get? id = some node) :
    a.get? id = some node ∨
      (id = ⟨a.size⟩ ∧ node =
        ⟨.vector ((List.range n).map fun i => ⟨a.size + 1 + i⟩) square, .named name, false, 0⟩) ∨
      ∃ i < n, id = ⟨a.size + 1 + i⟩ ∧ node = ⟨.field ⟨a.size⟩ i, .inline, aliasable, 0⟩ := by
  obtain ⟨index⟩ := id
  rw [get?_registerFields] at h
  by_cases hlt : index < a.size
  · rw [if_pos hlt] at h
    exact .inl h
  · rw [if_neg hlt] at h
    by_cases heq : index = a.size
    · rw [if_pos heq] at h
      cases h
      exact .inr (.inl ⟨by rw [heq], rfl⟩)
    · rw [if_neg heq] at h
      by_cases hin : index < a.size + 1 + n
      · rw [if_pos hin] at h
        cases h
        exact .inr (.inr ⟨index - (a.size + 1), by omega, by simp; omega, rfl⟩)
      · rw [if_neg hin] at h
        cases h

theorem extends_registerFields : a.Extends (a.registerFields name square aliasable n).2 := by
  refine ⟨fun id old hold => ⟨old, ?_, rfl⟩⟩
  rw [get?_registerFields, if_pos (index_lt_of_get? hold), hold]

theorem WellFormed.registerFields {a : Arena} (ha : a.WellFormed) :
    (a.registerFields name square aliasable n).2.WellFormed := by
  intro id node hn
  rcases registerFields_cases a name square aliasable n hn with hold | ⟨rfl, rfl⟩ | ⟨i, hi, rfl, rfl⟩
  · have hp := ha id node hold
    exact hp.keeps (extends_registerFields a name square aliasable n).keeps rfl hp.named
  · refine ⟨fun _ => ⟨name, rfl⟩, ?_, by simp, by simp [Kind.identity?], by simp,
      by simp [Kind.parts?]⟩
    intro cs sq hk c hc
    simp only [Kind.vector.injEq] at hk
    obtain ⟨i, hi, rfl⟩ := List.mem_map.1 (hk.1 ▸ hc)
    exact contains_of_get?
      (get?_registerFields_field a name square aliasable n (List.mem_range.1 hi))
  · refine ⟨by simp [Kind.isLeaf], by simp, ?_, by simp [Kind.identity?], by simp,
      by simp [Kind.parts?]⟩
    intro parent index hk
    simp only [Kind.field.injEq] at hk
    obtain ⟨rfl, rfl⟩ := hk
    refine ⟨by simp; omega, _, _, square, get?_registerFields_vector a name square aliasable n, rfl,
      ?_⟩
    simp [List.getElem?_range hi]

end Fields

end Arena

namespace Session

variable {s t : Session}

/-- New nodes that answer no request leave the record of requests exact. -/
theorem WellFormed.grow (hs : s.WellFormed) (hwf : t.arena.WellFormed)
    (hext : s.arena.Extends t.arena) (hi : t.identities = s.identities)
    (hnew : ∀ id node, t.arena.get? id = some node → s.arena.get? id = some node ∨
      node.kind.identity? = none ∧ (node.kind.isLeaf → node.aliasable = false)) :
    t.WellFormed where
  arena := hwf
  leaves id node hn hl := by
    rcases hnew id node hn with hold | ⟨-, hfix⟩
    · exact hs.leaves id node hold hl
    · exact hfix hl
  identities key id := by
    rw [hi, hs.identities]
    constructor
    · rintro ⟨node, hn, hk⟩
      obtain ⟨other, ho, hk'⟩ := hext.kind_eq id node hn
      exact ⟨other, ho, hk' ▸ hk⟩
    · rintro ⟨node, hn, hk⟩
      rcases hnew id node hn with hold | ⟨hnone, -⟩
      · exact ⟨node, hold, hk⟩
      · rw [hnone] at hk
        cases hk

theorem extends_addScalar (s : Session) (name : String) :
    s.arena.Extends (s.addScalar name).2.arena := Arena.extends_register ..

theorem WellFormed.addScalar (hs : s.WellFormed) (name : String) :
    (s.addScalar name).2.WellFormed := by
  refine hs.grow (hs.arena.register ?_) (extends_addScalar s name) rfl fun id node hn => ?_
  · exact ⟨fun _ => ⟨name, rfl⟩, by simp, by simp, by simp [Kind.identity?], by simp,
      by simp [Kind.parts?]⟩
  · simp only [Session.addScalar, Arena.get?_register] at hn
    split at hn
    next =>
      cases hn
      exact .inr ⟨rfl, fun _ => rfl⟩
    next => exact .inl hn

theorem extends_addVector (s : Session) (shape : Shape) (name : String) (square : Bool) :
    s.arena.Extends (s.addVector shape name square).2.arena := by
  cases shape with
  | length n => exact Arena.extends_registerFields ..
  | components cs => exact Arena.extends_register ..

theorem WellFormed.addVector (hs : s.WellFormed) (shape : Shape) (name : String) (square : Bool)
    (hc : ∀ cs, shape = .components cs → ∀ c ∈ cs, s.arena.contains c = true) :
    (s.addVector shape name square).2.WellFormed := by
  have hext := extends_addVector s shape name square
  cases shape with
  | length n =>
    refine hs.grow (Arena.WellFormed.registerFields _ _ _ _ hs.arena) hext rfl fun id node hn => ?_
    rcases Arena.registerFields_cases _ _ _ _ _ hn with hold | ⟨-, rfl⟩ | ⟨i, -, -, rfl⟩
    · exact .inl hold
    · exact .inr ⟨rfl, fun _ => rfl⟩
    · exact .inr ⟨rfl, by simp [Kind.isLeaf]⟩
  | components cs =>
    refine hs.grow (hs.arena.register ?_) hext rfl fun id node hn => ?_
    · refine ⟨fun _ => ⟨name, rfl⟩, ?_, by simp, by simp [Kind.identity?], by simp,
        by simp [Kind.parts?]⟩
      intro cs' sq hk c hmem
      simp only [Kind.vector.injEq] at hk
      exact (Arena.extends_register ..).contains (hc cs rfl c (hk.1 ▸ hmem))
    · simp only [Session.addVector, Arena.get?_register] at hn
      split at hn
      next =>
        cases hn
        exact .inr ⟨rfl, fun _ => rfl⟩
      next => exact .inl hn

/-- A request that a node can answer: its operands are known, and a flat operation has some. -/
structure Requestable (s : Session) (key : Identity) : Prop where
  answer : (key.kind []).identity? = some key
  known : ∀ o ∈ key.operands, s.arena.contains o = true
  nonempty : key.tag = .apply → key.operands ≠ []

theorem Requestable.not_leaf {key : Identity} (h : s.Requestable key) :
    (key.kind []).isLeaf = false := by
  cases hkind : key.kind [] with
  | scalar | vector cs square =>
    have ha := h.answer
    simp [hkind, Kind.identity?] at ha
  | _ => rfl

theorem Requestable.placed {key : Identity} (h : s.Requestable key) {a : Arena} :
    a.Placed ⟨s.arena.size⟩ ⟨key.kind [], .inline, true, 0⟩ where
  named hl := by
    rw [h.not_leaf] at hl
    cases hl
  components cs square hk := by
    dsimp only at hk
    have hl := h.not_leaf
    simp [hk, Kind.isLeaf] at hl
  parent p i hk := by
    dsimp only at hk
    have ha := h.answer
    simp [hk, Kind.identity?] at ha
  operands other ho o hm := by
    obtain rfl : key = other := Option.some.inj (h.answer.symm.trans ho)
    simpa [Arena.contains] using h.known o hm
  nonempty operation operands hk := by
    dsimp only at hk
    have ha := h.answer
    simp only [hk, Kind.identity?, Option.some.injEq] at ha
    subst ha
    exact h.nonempty rfl
  parts operation cs hk c hc := by
    obtain rfl : cs = [] := by
      obtain ⟨tag, operation', operands⟩ := key
      cases tag <;> simp_all [Identity.kind, Kind.parts?]
    cases hc

theorem intern_known {key : Identity} {id : NodeId} (h : s.identities.find? key = some id) :
    s.intern key = ((id, false), { s with identities.hits := s.identities.hits + 1 }) := by
  simp [intern, Identities.lookup, h]

theorem intern_fresh {key : Identity} (h : s.identities.find? key = none) :
    s.intern key = ((⟨s.arena.size⟩, true), { s with
      arena := (s.arena.register ⟨key.kind [], .inline, true, 0⟩).2
      identities := s.identities.insert key ⟨s.arena.size⟩ }) := by
  simp [intern, Identities.lookup, h, Arena.register]

/-- The node that answers a request is of the requested kind, also when it is new. -/
theorem WellFormed.get?_intern (hs : s.WellFormed) {key : Identity} (hk : s.Requestable key) :
    ∃ node, (s.intern key).2.arena.get? (s.intern key).1.1 = some node ∧
      node.kind.identity? = some key := by
  cases h : s.identities.find? key with
  | some id =>
    rw [intern_known h]
    exact (hs.identities key id).1 h
  | none =>
    rw [intern_fresh h]
    exact ⟨⟨key.kind [], .inline, true, 0⟩, by simp [Arena.get?_register], hk.answer⟩

theorem extends_intern (s : Session) (key : Identity) :
    s.arena.Extends (s.intern key).2.arena := by
  cases h : s.identities.find? key with
  | some id =>
    rw [intern_known h]
    exact .refl _
  | none =>
    rw [intern_fresh h]
    exact Arena.extends_register ..

theorem WellFormed.intern (hs : s.WellFormed) {key : Identity} (hk : s.Requestable key) :
    (s.intern key).2.WellFormed := by
  cases h : s.identities.find? key with
  | some id =>
    rw [intern_known h]
    exact ⟨hs.arena, hs.leaves, hs.identities⟩
  | none =>
    rw [intern_fresh h]
    refine ⟨hs.arena.register hk.placed, fun id node hn hl => ?_, fun other id => ?_⟩
    · rw [Arena.get?_register] at hn
      split at hn
      next =>
        cases hn
        rw [hk.not_leaf] at hl
        cases hl
      next => exact hs.leaves id node hn hl
    · rw [Identities.find?_insert, Arena.get?_register]
      by_cases hid : id.index = s.arena.size
      · obtain rfl : id = ⟨s.arena.size⟩ := by cases id; simp_all
        have hnone : s.identities.find? other ≠ some ⟨s.arena.size⟩ := by
          intro hf
          obtain ⟨node, hn, -⟩ := (hs.identities other _).1 hf
          exact absurd (Arena.index_lt_of_get? hn) (by simp)
        by_cases ho : other = key
        · simp [ho, h, hk.answer]
        · simp [ho, hnone, hk.answer, Ne.symm ho]
      · have hne : (⟨s.arena.size⟩ : NodeId) ≠ id := fun heq => hid (by rw [← heq])
        rw [if_neg hid]
        by_cases ho : other = key
        · subst ho
          have hiff := hs.identities other id
          simp [h, hne] at hiff ⊢
          exact hiff
        · simpa [ho] using hs.identities other id

/-- Parts may be given to a node that has parts, if they carry out its operation. -/
theorem WellFormed.setComponents (hs : s.WellFormed) {id : NodeId} {node : Node} {operation : String}
    {old cs : List NodeId} (hn : s.arena.get? id = some node)
    (hold : node.kind.parts? = some (operation, old))
    (hcs : ∀ c ∈ cs, ∃ part column, s.arena.get? c = some part ∧
      part.kind = .apply operation column ∧ ∀ o ∈ column, o.index < id.index) :
    (s.setComponents id cs).WellFormed := by
  have hget : ∀ other, (s.setComponents id cs).arena.get? other =
      if other = id then some (node.withComponents cs) else s.arena.get? other := by
    intro other
    rw [Session.setComponents, Arena.setComponents, Arena.get?_modify]
    by_cases ho : other = id
    · simp [ho, hn]
    · have hne : other.index ≠ id.index := fun h => ho (by cases other; cases id; simp_all)
      simp [ho, hne]
  have hident := node.identity?_withComponents cs
  obtain ⟨hleaf, hparts⟩ : (node.withComponents cs).kind.isLeaf = false ∧
      (node.withComponents cs).kind.parts? = some (operation, cs) := by
    cases hk : node.kind <;> simp_all [Node.withComponents, Kind.parts?, Kind.isLeaf]
  have hkeep : s.arena.Keeps (s.setComponents id cs).arena := by
    refine ⟨fun other ho => ?_, fun other n ho hnone => ?_⟩
    · simpa [Arena.contains, Session.setComponents, Arena.setComponents] using ho
    · rw [hget]
      split
      next h =>
        rw [h, hn] at ho
        cases ho
        rw [hnone] at hold
        cases hold
      next => exact ⟨n, ho, rfl⟩
  refine ⟨fun other n ho => ?_, fun other n ho hl => ?_, fun key other => ?_⟩
  · rw [hget] at ho
    split at ho
    next h =>
      cases ho
      subst h
      have hp := hs.arena other node hn
      refine ⟨by simp [hleaf], fun cs' sq hk => by simp [hk, Kind.parts?] at hparts,
        fun p i hk => by simp [hk, Kind.parts?] at hparts, fun key hkey => ?_,
        fun op os hk => by simp [hk, Kind.parts?] at hparts, fun op cs' hp' c hc => ?_⟩
      · exact hp.operands key (hident ▸ hkey)
      · rw [hparts] at hp'
        cases hp'
        obtain ⟨part, column, hg, hpk, hcol⟩ := hcs c hc
        obtain ⟨part', hg', hpk'⟩ := hkeep.kind_eq c part hg (by simp [hpk, Kind.parts?])
        exact ⟨part', column, hg', hpk'.trans hpk, hcol⟩
    next => exact (hs.arena other n ho).keeps hkeep rfl (hs.arena other n ho).named
  · rw [hget] at ho
    split at ho
    next =>
      cases ho
      rw [hleaf] at hl
      cases hl
    next => exact hs.leaves other n ho hl
  · show s.identities.find? key = some other ↔ _
    rw [hs.identities, hget]
    split
    next h => simp [h, hn, hident]
    next => rfl

def storing (s : Session) (output : NodeId) (place e : Expr) : Session :=
  (s.push (.store (.expr place .auto)) (.expr e .suppress)).2.modifyNode output
    (Node.overwritten ⟨s.schedule.nextId⟩)

theorem WellFormed.storing (hs : s.WellFormed) {output : NodeId}
    (ho : s.arena.contains output = true) (place e : Expr) :
    (s.storing output place e).WellFormed ∧ s.arena.SameKinds (s.storing output place e).arena := by
  obtain ⟨node, hn⟩ := Arena.contains_iff.1 ho
  refine hs.modify hn (fun hl => ?_) ?_ rfl rfl
  · simp [Node.overwritten, hs.leaves output node hn hl]
  · unfold Node.overwritten
    split <;> rfl

end Session

end StraightLine
