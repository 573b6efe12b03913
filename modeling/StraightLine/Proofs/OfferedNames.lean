import StraightLine.Proofs.DistinctNames
import StraightLine.Proofs.HashConsing
import StraightLine.Proofs.SecondUses

/-! # Names on offer

A name may be offered for reuse, and is then handed out to the next binding that no position names. The
offer is not looked up among the names in use: a name that was free when it was offered may have been
taken in the meantime, by a leaf, by a merge or by a binding after a position, and is then declared a
second time. Where requests leave the names on offer alone, bindings take free names only. -/
namespace StraightLine

namespace Names

variable {ns : Names}

/-- A free name is handed out; it was the next one on offer, or no offer was touched. -/
structure Serves (ns : Names) (name : String) (next : Names) : Prop where
  free : name ∉ ns.taken
  taken : next.taken = name :: ns.taken
  naming : next.naming = ns.naming
  pool : next.pool.Sublist ns.pool
  apart : name ∉ next.pool

/-- A binding takes a free name if the names on offer are free and do not fit its position. -/
theorem serves_allocate (hfree : ∀ name ∈ ns.pool, name ∉ ns.taken) (honce : ns.pool.Nodup)
    {hint : Hint} (hclear : ∀ name ∈ ns.pool, name ∉ ns.positions hint) :
    ns.Serves (ns.allocate hint).1 (ns.allocate hint).2 := by
  unfold allocate
  split
  next name hname =>
    have hfits := List.mem_of_find?_eq_some hname
    have hname' := List.find?_some hname
    exact ⟨by simpa [isTaken] using hname', rfl, rfl, .refl _, fun hmem => hclear name hmem hfits⟩
  next =>
    split
    next name pool hpool =>
      rw [hpool] at honce
      exact ⟨hfree name (by simp [hpool]), rfl, rfl, by simp [hpool, reserve],
        (List.nodup_cons.1 honce).1⟩
    next hpool =>
      exact ⟨nextFree_not_mem (append_toString_injective _) _, rfl, rfl, .refl _, by simp [hpool, reserve]⟩

theorem Takes.serves {name : String} {next : Names} (h : ns.Takes name next)
    (hpool : name ∉ ns.pool) : ns.Serves name next :=
  ⟨h.free, h.taken, h.naming, h.pool ▸ .refl _, h.pool ▸ hpool⟩

end Names

namespace Arena

variable {a b : Arena} {id : NodeId}

theorem hint_of_field {parent : NodeId} {index : Nat} {cs : List NodeId} {square : Bool}
    {name : String} (hk : a.kind? id = some (.field parent index))
    (hvector : a.kind? parent = some (.vector cs square))
    (hname : a.standing? parent = some (.named name)) :
    a.hint id = if square then .cell name index (Grid.side cs.length) else .field name index := by
  obtain ⟨⟨kind, standing, aliasable, uses⟩, hn, rfl⟩ := exists_of_kind? hk
  obtain ⟨⟨kind', standing', aliasable', uses'⟩, hv, rfl⟩ := exists_of_kind? hvector
  rw [standing?_of_get? hv, Option.some.injEq] at hname
  dsimp only at hname
  simp [hint, hn, hv, hname]

theorem hint_of_not_field (hk : ∀ parent index, a.kind? id ≠ some (.field parent index)) :
    a.hint id = .anonymous := by
  unfold hint
  split
  next parent index _ _ _ hn => exact absurd (kind?_of_get? hn) (hk parent index)
  next => rfl

/-- What a node may be called after stays the same, if it does not become a field. -/
theorem WellFormed.hint_eq (ha : a.WellFormed) (hsteady : a.Steady b)
    (hfield : ∀ parent index, b.kind? id = some (.field parent index) →
      a.kind? id = some (.field parent index)) : b.hint id = a.hint id := by
  by_cases hk : ∃ parent index, a.kind? id = some (.field parent index)
  · obtain ⟨parent, index, hk⟩ := hk
    obtain ⟨cs, square, hvector, -⟩ := ha.parent_of_kind? hk
    obtain ⟨vector, hv, hvk⟩ := exists_of_kind? hvector
    obtain ⟨name, hname⟩ := (ha parent vector hv).named (by simp [hvk, Kind.isLeaf])
    have hstanding := hname ▸ standing?_of_get? hv
    rw [hint_of_field hk hvector hstanding, hint_of_field (hsteady.kind id _ hk rfl)
      (hsteady.kind parent _ hvector rfl) (hsteady.leaf parent _ name hvector rfl hstanding)]
  · rw [hint_of_not_field fun parent index h => hk ⟨parent, index, h⟩,
      hint_of_not_field fun parent index h => hk ⟨parent, index, hfield parent index h⟩]

end Arena

/-- Offers stay free as long as no name on offer is taken. -/
theorem free_cons {pool taken : List String} {name : String}
    (hfree : ∀ other ∈ pool, other ∉ taken) (hname : name ∉ pool) :
    ∀ other ∈ pool, other ∉ name :: taken := by
  intro other hother
  refine List.not_mem_cons_of_ne_of_not_mem ?_ (hfree other hother)
  rintro rfl
  exact hname hother

namespace Session

variable {s t u : Session} {id : NodeId}

def withdrawn (s : Session) : Session := { s with names := { s.names with pool := [] } }

/-- Names on offer are free and differ, and so do declared names, which are taken. -/
structure Offering (s : Session) : Prop where
  unclashing : s.withdrawn.Unclashing
  free : ∀ name ∈ s.names.pool, name ∉ s.names.taken
  once : s.names.pool.Nodup

/-- No name on offer fits the position of a node. -/
def Clear (s : Session) (id : NodeId) : Prop :=
  ∀ name ∈ s.names.pool, name ∉ s.names.positions (s.arena.hint id)

/-- A later session in which offers were kept or handed out, and every name declared since was
free. -/
structure Serves (s t : Session) : Prop where
  draws : s.withdrawn.Draws t.withdrawn
  free : ∀ name ∈ t.names.pool, name ∉ t.names.taken
  pool : t.names.pool.Sublist s.names.pool
  clear : ∀ id, s.arena.contains id = true → s.Clear id → t.arena.contains id = true ∧ t.Clear id

theorem Serves.trans (h : s.Serves t) (h' : t.Serves u) : s.Serves u where
  draws := h.draws.trans h'.draws
  free := h'.free
  pool := h'.pool.trans h.pool
  clear id hid hclear := by
    obtain ⟨hid', hclear'⟩ := h.clear id hid hclear
    exact h'.clear id hid' hclear'

theorem Serves.offering (h : s.Serves t) (hs : s.Offering) : t.Offering :=
  ⟨h.draws.toUnclashing, h.free, hs.once.sublist h.pool⟩

/-- The names that fit the position of a node stay the same. -/
structure Places (s t : Session) : Prop where
  naming : t.names.naming = s.names.naming
  known : ∀ id, s.arena.contains id = true → t.arena.contains id = true
  hint : ∀ id, s.arena.contains id = true → t.arena.hint id = s.arena.hint id

theorem Places.clear (h : s.Places t) (hpool : t.names.pool.Sublist s.names.pool) (id : NodeId)
    (hid : s.arena.contains id = true) (hclear : s.Clear id) :
    t.arena.contains id = true ∧ t.Clear id := by
  refine ⟨h.known id hid, fun name hname => ?_⟩
  have hpositions : t.names.positions = s.names.positions := by
    funext hint
    simp only [Names.positions, h.naming]
  rw [hpositions, h.hint id hid]
  exact hclear name (hpool.subset hname)

theorem WellFormed.places (hs : s.WellFormed) (hext : s.arena.Extends t.arena)
    (hsteady : s.arena.Steady t.arena) (hnaming : t.names.naming = s.names.naming) :
    s.Places t where
  naming := hnaming
  known _ := hext.contains
  hint id hid := by
    refine hs.arena.hint_eq hsteady fun parent index hk => ?_
    obtain ⟨node, hn⟩ := Arena.contains_iff.1 hid
    rw [← hk, hext.kind? (Arena.kind?_of_get? hn), Arena.kind?_of_get? hn]

theorem WellFormed.places_setComponents (hs : s.WellFormed) {parts : String × List NodeId}
    {kind : Kind} (cs : List NodeId) (hk : s.arena.kind? id = some kind)
    (hp : kind.parts? = some parts) : s.Places (s.setComponents id cs) where
  naming := rfl
  known other hother := by
    simpa [Arena.contains, Session.setComponents, Arena.setComponents] using hother
  hint other _ := by
    refine hs.arena.hint_eq (steady_setComponents cs hk hp) fun parent index hfield => ?_
    obtain ⟨kind', hp', -, hkind⟩ := kind?_setComponents cs hk hp
    rw [hkind, Function.update_apply] at hfield
    split at hfield
    next =>
      cases hfield
      cases hp'
    next => exact hfield

/-- No name is taken. -/
theorem Offering.keep (h : s.Offering) (hplaces : s.Places t) (hschedule : t.schedule = s.schedule)
    (hnames : t.names = s.names) : s.Serves t where
  draws := h.unclashing.keep hschedule rfl (by simp [withdrawn, hnames])
  free := hnames ▸ h.free
  pool := hnames ▸ .refl _
  clear := hplaces.clear (hnames ▸ .refl _)

/-- Nodes are added, and a name that is not on offer is taken for a leaf. -/
theorem Offering.leaf (h : s.Offering) (hs : s.WellFormed) (hgrown : s.Grown t) {name : String}
    (hpool : name ∉ s.names.pool) (hnames : t.names = s.names.reserve name) : s.Serves t where
  draws := h.unclashing.keep hgrown.schedule rfl (by simp [withdrawn, hnames, Names.reserve])
  free := hnames ▸ free_cons h.free hpool
  pool := hnames ▸ .refl _
  clear := by
    have hext : s.arena.Extends t.arena := ⟨fun _ node hn => ⟨node, hgrown.get?_of_get? hn, rfl⟩⟩
    have hsteady := Arena.steady_of_get? fun _ _ => hgrown.get?_of_get?
    exact (hs.places hext hsteady (by rw [hnames]; rfl)).clear (hnames ▸ .refl _)

/-- A free name is declared. -/
theorem Offering.declare (h : s.Offering) (hplaces : s.Places t) {earlier later : List Statement}
    {new : Statement} {name : String}
    (hinserted : s.schedule.Inserted t.schedule earlier new later)
    (hname : new.declared? = some name) (hserves : s.names.Serves name t.names) : s.Serves t where
  draws := h.unclashing.declare hinserted hname ⟨hserves.free, hserves.taken, hserves.naming, rfl⟩
  free := hserves.taken ▸
    free_cons (fun other hother => h.free other (hserves.pool.subset hother)) hserves.apart
  pool := hserves.pool
  clear := hplaces.clear hserves.pool

theorem Bound.serves (h : Bound s id t) (hs : s.WellFormed) (hoffering : s.Offering)
    (hclear : s.Clear id) {node : Node} (hn : s.arena.get? id = some node)
    (hleaf : node.kind.isLeaf = false) : s.Serves t := by
  obtain ⟨-, hsame⟩ := h.wellFormed hs hn hleaf
  have hserves := Names.serves_allocate hoffering.free hoffering.once hclear
  cases h with
  | @capture _ _ _ name names _ get pending allocate capture =>
    rw [allocate] at hserves
    obtain ⟨earlier, overwritten, later, -, hinserted⟩ := Schedule.inserted_capture capture
    have hplaces := hs.places hsame.toExtends (steady_bound hn hleaf name) hserves.naming
    exact hoffering.declare hplaces hinserted rfl hserves
  | @declare _ name names _ get may missing allocate written =>
    rw [allocate] at hserves
    have hplaces := hs.places hsame.toExtends (steady_bound hn hleaf name) hserves.naming
    exact hoffering.declare hplaces (Schedule.inserted_push ..) rfl hserves

theorem Offering.refl (h : s.Offering) (hs : s.WellFormed) : s.Serves s :=
  h.keep (hs.places (.refl _) (.refl _) rfl) rfl rfl

theorem Used.serves (h : Used s id t) (hs : s.WellFormed) (hoffering : s.Offering)
    (hclear : s.Clear id) : s.Serves t := by
  have hcounted : ∀ {node : Node}, s.arena.get? id = some node → node.aliasable = true →
      s.Serves (s.counted id) := by
    intro node get aliasable
    obtain ⟨-, hsame⟩ := hs.counted get aliasable
    have hsteady := Arena.steady_of_same (kind?_counted s id) (standing?_counted s id)
    exact hoffering.keep (hs.places hsame.toExtends hsteady rfl) rfl rfl
  cases h with
  | fixed => exact hoffering.refl hs
  | counted get aliasable kept => exact hcounted get aliasable
  | bound get aliasable second bound =>
    have hserves := hcounted get aliasable
    have hleaf := hs.not_leaf get aliasable
    obtain ⟨hwf, -⟩ := hs.counted get aliasable
    obtain ⟨-, hclear'⟩ := hserves.clear id (Arena.contains_of_get? get) hclear
    exact hserves.trans (bound.serves hwf (hserves.offering hoffering) hclear'
      (get?_counted s get) hleaf)

/-- What is used one after the other must be clear at the start only. -/
theorem UsedAll.serves {ids : List NodeId} (h : UsedAll ids s t) (hs : s.WellFormed)
    (hoffering : s.Offering)
    (hids : ∀ id ∈ ids, s.arena.contains id = true ∧ s.Clear id) : s.Serves t := by
  induction h with
  | nil => exact hoffering.refl hs
  | @cons id ids s t u head tail ih =>
    have hserves := head.serves hs hoffering (hids id (by simp)).2
    obtain ⟨ht, -⟩ := head.wellFormed hs
    refine hserves.trans (ih ht (hserves.offering hoffering) fun other hother => ?_)
    obtain ⟨hknown, hclear⟩ := hids other (by simp [hother])
    exact hserves.clear other hknown hclear

theorem Offering.intern (h : s.Offering) (hs : s.WellFormed) (key : Identity) :
    s.Serves (s.intern key).2 := by
  obtain ⟨hschedule, hnames⟩ := schedule_intern s key
  have hplaces := hs.places (extends_intern s key) (steady_intern s key) (by rw [hnames])
  exact h.keep hplaces hschedule hnames

theorem AppliedAll.serves {operation : String} {columns : List (List NodeId)} {cs : List NodeId}
    (h : AppliedAll operation columns s cs t) (hs : s.WellFormed) (hoffering : s.Offering)
    (hne : ∀ column ∈ columns, column ≠ [])
    (hids : ∀ id ∈ columns.flatten, s.arena.contains id = true ∧ s.Clear id) : s.Serves t := by
  induction h with
  | nil => exact hoffering.refl hs
  | @cons column columns s t u cs head tail ih =>
    have hcolumn : ∀ id ∈ column, s.arena.contains id = true ∧ s.Clear id :=
      fun id hid => hids id (by simp [hid])
    have hint := hoffering.intern hs ⟨.apply, operation, column⟩
    have hkey : s.Requestable ⟨.apply, operation, column⟩ :=
      ⟨rfl, fun o ho => (hcolumn o ho).1, fun _ => hne column (by simp)⟩
    have hwf := hs.intern hkey
    have hhead := hint.trans (head.serves hwf (hint.offering hoffering) fun id hid =>
      hint.clear id (hcolumn id hid).1 (hcolumn id hid).2)
    refine hhead.trans (ih (head.wellFormed hwf).1 (hhead.offering hoffering)
      (fun other hm => hne other (by simp [hm])) fun id hid => ?_)
    obtain ⟨hknown, hclear⟩ := hids id (by simp only [List.flatten_cons, List.mem_append]; exact .inr hid)
    exact hhead.clear id hknown hclear

theorem Columnwise.serves {key : Identity} {columns : List (List NodeId)}
    (h : Columnwise key columns s t) (hs : s.WellFormed) (hkey : s.Requestable key)
    (hp : (key.kind []).parts? = some (key.operation, [])) (hoffering : s.Offering)
    (hne : ∀ column ∈ columns, column ≠ [])
    (hids : ∀ id ∈ columns.flatten, s.arena.contains id = true ∧ s.Clear id) : s.Serves t := by
  have hint := hoffering.intern hs key
  have hids' : ∀ id ∈ columns.flatten, (s.intern key).2.arena.contains id = true ∧
      (s.intern key).2.Clear id := fun id hid => hint.clear id (hids id hid).1 (hids id hid).2
  cases h with
  | known found used =>
    exact hint.trans (used.serves (hs.intern hkey) (hint.offering hoffering) hids')
  | @fresh cs u new applied =>
    have happlied := applied.serves (hs.intern hkey) (hint.offering hoffering) hne hids'
    have hc : ∀ column ∈ columns, column ≠ [] ∧ ∀ o ∈ column, s.arena.contains o = true :=
      fun column hm => ⟨hne column hm, fun o ho => (hids o (List.mem_flatten_of_mem hm ho)).1⟩
    have hbuilt := applied.kind?_built hs hkey new hc
    obtain ⟨hu, -⟩ := applied.wellFormed (hs.intern hkey) fun column hm =>
      ⟨hne column hm, fun o ho => (hids' o (List.mem_flatten_of_mem hm ho)).1⟩
    have hoffering' := happlied.offering (hint.offering hoffering)
    exact (hint.trans happlied).trans
      (hoffering'.keep (hu.places_setComponents cs hbuilt hp) rfl rfl)

theorem Offering.storing (h : s.Offering) (hs : s.WellFormed) {output : NodeId}
    (hout : s.arena.contains output = true) (place e : Expr) :
    s.Serves (s.storing output place e) where
  draws := h.unclashing.insert (Schedule.inserted_push ..) rfl (List.Subset.refl _)
    (by simp [Statement.declared?])
  free := h.free
  pool := .refl _
  clear := by
    obtain ⟨-, hsame⟩ := hs.storing hout place e
    exact (hs.places hsame.toExtends (steady_storing hs output place e) rfl).clear (.refl _)

theorem StoredAll.serves {pairs : List (NodeId × NodeId)} (h : StoredAll pairs s t)
    (hs : s.WellFormed) (hoffering : s.Offering)
    (hpairs : ∀ p ∈ pairs, s.arena.contains p.1 = true ∧
      (p.1 ≠ p.2 → s.arena.contains p.2 = true ∧ s.Clear p.2)) : s.Serves t := by
  induction h with
  | nil => exact hoffering.refl hs
  | same tail ih => exact ih hs hoffering fun p hp => hpairs p (by simp [hp])
  | @store output input pairs s t u place e ne used target written tail ih =>
    obtain ⟨hout, hin⟩ := hpairs (output, input) (by simp)
    have hused := used.serves hs hoffering (hin ne).2
    obtain ⟨ht, hsame⟩ := used.wellFormed hs
    have hknown := hsame.toExtends.contains hout
    have hstored := hused.trans ((hused.offering hoffering).storing ht hknown place e)
    obtain ⟨hwf, hsame'⟩ := ht.storing hknown place e
    refine hstored.trans (ih hwf (hstored.offering hoffering) fun p hp => ?_)
    obtain ⟨hfirst, hsecond⟩ := hpairs p (by simp [hp])
    exact ⟨hsame'.toExtends.contains (hsame.toExtends.contains hfirst), fun hne =>
      hstored.clear p.2 (hsecond hne).1 (hsecond hne).2⟩

end Session

namespace Event

def offered? (e : Event) : Option String :=
  match e.call with
  | .recycle name => some name
  | _ => none

/-- A request leaves the names on offer alone: it adds no leaf under such a name, and uses no node whose
position such a name fits. -/
def Spares (e : Event) : Prop :=
  ∀ name ∈ e.before.names.pool, e.leafName? ≠ some name ∧
    ∀ id ∈ e.uses, name ∉ e.before.names.positions (e.before.arena.hint id)

instance : DecidablePred Spares := fun e =>
  inferInstanceAs (Decidable (∀ name ∈ e.before.names.pool, e.leafName? ≠ some name ∧
    ∀ id ∈ e.uses, name ∉ e.before.names.positions (e.before.arena.hint id)))

theorem Spares.clear {e : Event} (h : e.Spares) {id : NodeId} (hid : id ∈ e.uses) :
    e.before.Clear id := fun name hname => (h name hname).2 id hid

end Event

namespace Session

variable {s t s₀ : Session} {events : List Event}

/-- Requests that leave the names on offer alone keep these free, and declare free names only. -/
theorem Performed.serves {call : Call} {result : Option NodeId} (h : Performed s call result t)
    (hs : s.WellFormed) (hoffering : s.Offering)
    (hcall : ∀ name, call ≠ .recycle name) (hspares : Event.Spares ⟨s, call, result, t⟩) :
    s.Serves t := by
  cases h with
  | scalar name =>
    exact hoffering.leaf hs (grown_addScalar s name) (fun hmem => (hspares name hmem).1 rfl) rfl
  | vector name known | matrix name known =>
    exact hoffering.leaf hs (grown_addVector s _ name _) (fun hmem => (hspares name hmem).1 rfl) rfl
  | @apply operation operands _ conditions used =>
    obtain ⟨hne, hknown, -⟩ := checkApply_eq_ok.1 conditions
    have hint := hoffering.intern hs ⟨.apply, operation, operands⟩
    refine hint.trans (used.serves (hs.intern ⟨rfl, hknown, fun _ => hne⟩)
      (hint.offering hoffering) fun id hid => ?_)
    exact hint.clear id (hknown id hid) (hspares.clear hid)
  | map conditions built =>
    obtain ⟨hknown, -, hc⟩ := hs.mapColumns conditions
    refine built.serves hs ⟨rfl, hknown, by simp⟩ rfl hoffering (fun column hm => (hc column hm).1)
      fun id hid => ⟨?_, hspares.clear ?_⟩
    · obtain ⟨column, hm, hmem⟩ := List.mem_flatten.1 hid
      exact (hc column hm).2 id hmem
    · rwa [Event.uses, Event.sources_map conditions]
  | reduce conditions built =>
    obtain ⟨hknown, -, hc⟩ := hs.reduceColumns conditions
    refine built.serves hs ⟨rfl, hknown, by simp⟩ rfl hoffering (fun column hm => (hc column hm).1)
      fun id hid => ⟨?_, hspares.clear ?_⟩
    · obtain ⟨column, hm, hmem⟩ := List.mem_flatten.1 hid
      exact (hc column hm).2 id hmem
    · rwa [Event.uses, Event.sources_reduce conditions]
  | @assign target source outputs inputs _ conditions sources stored =>
    obtain ⟨⟨node, square, hn, hk⟩, -, -⟩ := assignTargets_eq_ok conditions
    refine stored.serves hs hoffering fun p hp => ⟨?_, fun hne => ⟨?_, hspares.clear ?_⟩⟩
    · exact (hs.arena _ node hn).components _ square hk p.1 (List.of_mem_zip hp).1
    · obtain ⟨i, -, hi⟩ :=
        exists_of_mem_right (forall₂_of_mapM_eq_ok sources) (List.of_mem_zip hp).2
      exact hs.contains_of_broadcast hi
    · rw [Event.uses, Event.stores_assign conditions sources]
      exact List.mem_map_of_mem (List.mem_filter.2 ⟨hp, by simpa using hne⟩)
  | @phi test success failure wanted length u name names value conditions used allocate written =>
    obtain ⟨hknown, -⟩ := phiLength_eq_ok conditions
    have hused := used.serves hs hoffering fun id hid => ⟨hknown id hid, hspares.clear hid⟩
    obtain ⟨hu, -⟩ := used.wellFormed hs
    obtain ⟨hid, node, hn, hstanding⟩ := get?_addMerged (u.merging names name value) name length
    have hpool : name ∉ u.names.pool := fun hmem => (hspares name (hused.pool.subset hmem)).1
      (by simp [Event.leafName?, Event.merged?, hid, hn, Node.name?, hstanding])
    have htakes := u.names.takes_allocatePhi wanted
    rw [allocate] at htakes
    have hmerging : u.Serves (u.merging names name value) :=
      (hused.offering hoffering).declare (hu.places (.refl _) (.refl _) htakes.naming)
        (Schedule.inserted_push ..) rfl (htakes.serves hpool)
    have hboth := hused.trans hmerging
    refine hboth.trans ((hboth.offering hoffering).leaf (hu.merging ..) (grown_addMerged ..)
      (fun hmem => hpool (hmerging.pool.subset hmem)) ?_)
    cases length <;> rfl
  | output known used => exact used.serves hs hoffering (hspares.clear (List.mem_singleton_self _))
  | recycle name => exact absurd rfl (hcall name)

/-- A free name that is not on offer may be offered. -/
theorem Offering.recycle (h : s.Offering) {name : String} (hfree : name ∉ s.names.taken)
    (honce : (s.names.pool ++ [name]).Nodup) :
    Offering { s with names := s.names.recycle name } where
  unclashing := h.unclashing
  free other hother := by
    rcases List.mem_append.1 hother with hold | hnew
    · exact h.free other hold
    · exact List.mem_singleton.1 hnew ▸ hfree
  once := honce

/-- Names are offered once and while they are free, and left alone until they are handed out. -/
theorem History.serves (h : History s₀ events s) (h₀ : s₀.WellFormed) (hoffering : s₀.Offering)
    (honce : (s₀.names.pool ++ events.filterMap Event.offered?).Nodup)
    (hfree : ∀ e ∈ events, ∀ name ∈ e.offered?, name ∉ e.before.names.taken)
    (hspares : ∀ e ∈ events, e.Spares) :
    s.Offering ∧ s₀.withdrawn.Draws s.withdrawn ∧
      s.names.pool.Sublist (s₀.names.pool ++ events.filterMap Event.offered?) ∧
      ∀ e ∈ events, ∀ name, e.leafName? = some name → name ∈ s.names.taken := by
  induction h with
  | nil => exact ⟨hoffering, (hoffering.refl h₀).draws, by simp, by simp⟩
  | @snoc events s t call result past last ih =>
    rw [List.filterMap_append, ← List.append_assoc] at honce ⊢
    obtain ⟨hs, hdraws, hpool, hleaves⟩ := ih (honce.sublist (List.sublist_append_left ..))
      (fun e he => hfree e (by simp [he])) fun e he => hspares e (by simp [he])
    have hlast := hspares ⟨s, call, result, t⟩ (by simp)
    have hnew := hfree ⟨s, call, result, t⟩ (by simp)
    have hadded : s.names.taken ⊆ t.names.taken → ∀ e ∈ events ++ [⟨s, call, result, t⟩],
        ∀ name, e.leafName? = some name → name ∈ t.names.taken := by
      intro htaken e he name hname
      rcases List.mem_append.1 he with he | he
      · exact htaken (hleaves e he name hname)
      · rw [List.mem_singleton.1 he] at hname
        exact last.leafName?_taken hname
    by_cases hcall : ∃ name, call = .recycle name
    · obtain ⟨name, rfl⟩ := hcall
      cases last
      have hall := hpool.append (List.Sublist.refl [name])
      exact ⟨hs.recycle (hnew name rfl) (honce.sublist hall), hdraws, hall,
        hadded (List.Subset.refl _)⟩
    · have hserves := last.serves (past.wellFormed h₀) hs (fun name hname => hcall ⟨name, hname⟩)
        hlast
      exact ⟨hserves.offering hs, hdraws.trans hserves.draws,
        hserves.pool.trans (hpool.trans (List.sublist_append_left ..)), hadded hserves.draws.taken⟩

/-- Names that are offered once each, while they are free, and left alone until they are handed out are
declared at most once: declarations bind different names in every session, and each binds a name that
was not taken before, by a leaf or otherwise. -/
theorem offered_names_do_not_clash {settings : Settings} (h₀ : Session.new settings = .ok s₀)
    (calls more : List Call)
    (honce : ((s₀.events (calls ++ more)).filterMap Event.offered?).Nodup)
    (hfree : ∀ e ∈ s₀.events (calls ++ more), ∀ name ∈ e.offered?, name ∉ e.before.names.taken)
    (hspares : ∀ e ∈ s₀.events (calls ++ more), e.Spares) :
    ((s₀.run (calls ++ more)).schedule.statements.filterMap Statement.declared?).Nodup ∧
      ∀ st ∈ (s₀.run (calls ++ more)).schedule.statements,
        st ∉ (s₀.run calls).schedule.statements → ∀ name, st.declared? = some name →
          name ∉ (s₀.run calls).names.taken ∧
            ∀ e ∈ s₀.events calls, e.leafName? ≠ some name := by
  rw [events_append] at honce hfree hspares
  rw [run_append]
  rw [List.filterMap_append] at honce
  have hstart : s₀.Offering := by
    obtain rfl := eq_of_new h₀
    exact ⟨⟨rfl, by simp [withdrawn], by simp [withdrawn]⟩, by simp, by simp⟩
  have hpool₀ : s₀.names.pool = [] := by rw [eq_of_new h₀]
  obtain ⟨hs, -, hpool, hleaves⟩ := (history_of_new h₀ calls).serves (wellFormed_of_new h₀) hstart
    (by simpa [hpool₀] using honce.sublist (List.sublist_append_left ..))
    (fun e he => hfree e (by simp [he])) fun e he => hspares e (by simp [he])
  rw [hpool₀, List.nil_append] at hpool
  obtain ⟨hcomplete, -⟩ := (complete_of_new h₀).run calls
  obtain ⟨ht, hdraws, -⟩ := (History.nil.run hcomplete more).serves hcomplete.toWellFormed hs
    (honce.sublist (hpool.append_right _)) (fun e he => hfree e (List.mem_append_right _ he))
    fun e he => hspares e (List.mem_append_right _ he)
  refine ⟨ht.unclashing.distinct, fun st hst hnew name hname => ?_⟩
  have hfresh := hdraws.fresh st hst hnew name hname
  exact ⟨hfresh, fun e he hleaf => hfresh (hleaves e he name hleaf)⟩

theorem offered_names_do_not_clash_of_scratch :
    let calls : List Call := [.recycle "scratch", .vector (.length 1) "v", .scalar "a",
      .apply "+" [⟨1⟩, ⟨2⟩], .apply "*" [⟨1⟩, ⟨2⟩]]
    let more : List Call := [.apply "-" [⟨3⟩, ⟨3⟩]]
    let s₀ : Session := { settings := {} }
    (s₀.run (calls ++ more)).schedule.statements.filterMap Statement.declared? = ["vx", "scratch"] ∧
      "scratch" ∉ (s₀.run calls).names.taken := by
  intro calls more s₀
  have h₀ : Session.new {} = .ok s₀ := rfl
  obtain ⟨-, hfresh⟩ := offered_names_do_not_clash h₀ calls more (by decide +kernel)
    (by decide +kernel) (by decide +kernel)
  have hdeclared : (s₀.run (calls ++ more)).schedule.statements.filterMap Statement.declared? =
      ["vx", "scratch"] := by decide +kernel
  have hbefore : (s₀.run calls).schedule.statements.filterMap Statement.declared? = ["vx"] := by
    decide +kernel
  have hmem : "scratch" ∈ ["vx", "scratch"] := by decide
  obtain ⟨st, hst, hname⟩ := List.mem_filterMap.1 (hdeclared ▸ hmem)
  refine ⟨hdeclared, (hfresh st hst (fun hold => ?_) "scratch" hname).1⟩
  have hearly := List.mem_filterMap.2 ⟨st, hold, hname⟩
  rw [hbefore] at hearly
  revert hearly
  decide

/-- A name that was free when it was offered, and offered once, is declared twice: the binding of the
field takes it by position while it is on offer. -/
theorem offered_name_taken_by_position :
    let calls : List Call := [.recycle "vx", .vector (.length 1) "v", .scalar "a",
      .apply "+" [⟨1⟩, ⟨2⟩], .apply "*" [⟨1⟩, ⟨2⟩], .apply "-" [⟨3⟩, ⟨3⟩]]
    let s₀ : Session := { settings := {} }
    (s₀.events calls).filterMap Event.offered? = ["vx"] ∧
      (∀ e ∈ s₀.events calls, ∀ name ∈ e.offered?, name ∉ e.before.names.taken) ∧
      (s₀.run calls).schedule.statements.filterMap Statement.declared? = ["vx", "vx"] := by
  decide +kernel

end Session

end StraightLine
