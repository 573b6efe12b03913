import StraightLine.Proofs.GridSides
import StraightLine.Proofs.LaterSessions
import StraightLine.Proofs.OfferedNames

/-! # Names after positions

The first choices for the positions of one vector differ from each other and begin with the name of the
vector. So if nothing but these positions takes a name that begins with the name of the vector and goes
on, every position gets its first choice, in whatever order the positions are named. -/
namespace StraightLine

def Lengthens (stem name : String) : Prop := stem.toList <+: name.toList ∧ stem ≠ name

instance (stem name : String) : Decidable (Lengthens stem name) :=
  inferInstanceAs (Decidable (_ ∧ _))

theorem lengthens_append (stem : String) {rest : String} (h : rest.toList ≠ []) :
    Lengthens stem (stem ++ rest) := by
  refine ⟨by simp [String.toList_append], fun heq => h ?_⟩
  have hlist := congrArg String.toList heq
  rw [String.toList_append] at hlist
  exact List.append_right_eq_self.1 hlist.symm

theorem toList_toString_ne_nil (n : Nat) : (toString n).toList ≠ [] := by
  rw [show (toString n).toList = Nat.toDigits 10 n from Nat.toList_repr]
  exact Nat.toDigits_ne_nil

section Letters

/-- The first choice for a position of a vector: its axis letter behind the name of the vector, or its
number once the letters are used up. -/
def Naming.fieldName (n : Naming) (stem : String) (index : Nat) : String :=
  match n.axisLetters.toList[index]? with
  | some letter => stem ++ letter.toString
  | none => stem ++ toString index

/-- The only choice for a position of a square matrix: its row and its column. -/
def cellName (stem : String) (side index : Nat) : String :=
  stem ++ toString (index / side) ++ toString (index % side)

theorem nodup_of_firstRepeated {seen letters : List Char} (h : firstRepeated seen letters = none) :
    letters.Nodup ∧ ∀ c ∈ letters, c ∉ seen := by
  induction letters generalizing seen with
  | nil => exact ⟨List.nodup_nil, by simp⟩
  | cons c letters ih =>
    rw [firstRepeated] at h
    split at h
    next => cases h
    next hseen =>
      obtain ⟨hnodup, hnew⟩ := ih h
      refine ⟨List.nodup_cons.2 ⟨fun hmem => hnew c hmem (List.mem_cons_self ..), hnodup⟩, ?_⟩
      intro other hother
      rcases List.mem_cons.1 hother with rfl | hmem
      · exact hseen
      · exact fun hold => hnew other hmem (List.mem_cons_of_mem _ hold)

/-- Axis letters are different letters. -/
theorem Naming.letters_of_validate {n : Naming} (h : n.validate = .ok ()) :
    n.axisLetters.toList.all Char.isAlpha = true ∧ n.axisLetters.toList.Nodup := by
  simp only [Naming.validate, bind_eq_ok] at h
  obtain ⟨⟨⟩, haxes, -⟩ := h
  refine ⟨Naming.all_isAlpha_of_checkAxes haxes, ?_⟩
  unfold Naming.checkAxes at haxes
  split at haxes
  next => cases haxes
  next =>
    split at haxes
    next => cases haxes
    next =>
      split at haxes
      next => cases haxes
      next hnone => exact (nodup_of_firstRepeated hnone).1

theorem toString_ne_letter {letter : Char} (h : letter.isAlpha = true) (n : Nat) :
    letter.toString ≠ toString n := by
  intro heq
  have hdigits : [letter] = Nat.toDigits 10 n := by
    simpa [Nat.toList_repr] using congrArg String.toList heq
  have hdigit : letter.isDigit = true :=
    Nat.isDigit_of_mem_toDigits (by omega) (by omega) (hdigits ▸ List.mem_singleton_self letter)
  have hstart := not_isIdentifierStart_of_isDigit hdigit
  simp [isIdentifierStart, h] at hstart

/-- Letters differ from each other and from numbers. -/
theorem Naming.fieldName_injective {n : Naming} (h : n.validate = .ok ()) (stem : String) :
    Function.Injective (n.fieldName stem) := by
  obtain ⟨halpha, hnodup⟩ := Naming.letters_of_validate h
  have hletter : ∀ {i : Nat} {c : Char}, n.axisLetters.toList[i]? = some c → c.isAlpha = true :=
    fun hc => List.all_eq_true.1 halpha _ (List.mem_of_getElem? hc)
  intro i j heq
  unfold fieldName at heq
  cases hi : n.axisLetters.toList[i]? with
  | some c =>
    cases hj : n.axisLetters.toList[j]? with
    | some d =>
      simp only [hi, hj, String.append_right_inj] at heq
      obtain rfl : c = d := by simpa using congrArg String.toList heq
      exact (List.getElem?_inj (List.getElem?_eq_some_iff.1 hi).1 hnodup).1 (hi.trans hj.symm)
    | none =>
      simp only [hi, hj, String.append_right_inj] at heq
      exact absurd heq (toString_ne_letter (hletter hi) j)
  | none =>
    cases hj : n.axisLetters.toList[j]? with
    | some d =>
      simp only [hi, hj, String.append_right_inj] at heq
      exact absurd heq.symm (toString_ne_letter (hletter hj) i)
    | none =>
      simp only [hi, hj, String.append_right_inj] at heq
      exact toString_injective heq

theorem lengthens_fieldName (n : Naming) (stem : String) (index : Nat) :
    Lengthens stem (n.fieldName stem index) := by
  unfold Naming.fieldName
  split
  · exact lengthens_append stem (by simp)
  · exact lengthens_append stem (toList_toString_ne_nil index)

/-- With up to ten columns the last character is the column. -/
theorem cellName_injective (stem : String) {side : Nat} (hpos : 0 < side) (hside : side ≤ 10) :
    Function.Injective (cellName stem side) := by
  have hcolumn : ∀ index, (toString (index % side)).toList.length = 1 := by
    intro index
    have hlt : index % side < 10 := Nat.lt_of_lt_of_le (Nat.mod_lt index hpos) hside
    rw [show (toString (index % side)).toList = Nat.toDigits 10 (index % side) from Nat.toList_repr,
      Nat.toDigits_of_lt_base hlt]
    rfl
  intro i j heq
  have hlists := congrArg String.toList heq
  simp only [cellName, String.toList_append] at hlists
  obtain ⟨hstem, hmod⟩ := List.append_inj' hlists ((hcolumn i).trans (hcolumn j).symm)
  have hrow : i / side = j / side :=
    toString_injective (String.toList_inj.1 (List.append_cancel_left hstem))
  have hcol : i % side = j % side := toString_injective (String.toList_inj.1 hmod)
  rw [← Nat.div_add_mod i side, ← Nat.div_add_mod j side, hrow, hcol]

theorem lengthens_cellName (stem : String) (side index : Nat) :
    Lengthens stem (cellName stem side index) := by
  rw [cellName, String.append_assoc]
  exact lengthens_append stem (by simp)

end Letters

namespace Names

inductive Demand where
  | reserve (name : String)
  | recycle (name : String)
  | allocate (hint : Hint)
  | merge (wanted : Option String)
deriving Repr, DecidableEq

/-- Meets a demand; the first part of the result is the name that is taken, if one is. -/
def meet (ns : Names) : Demand → Option String × Names
  | .reserve name => (some name, ns.reserve name)
  | .recycle name => (none, ns.recycle name)
  | .allocate hint => (some (ns.allocate hint).1, (ns.allocate hint).2)
  | .merge wanted => (some (ns.allocatePhi wanted).1, (ns.allocatePhi wanted).2)

def answers (ns : Names) : List Demand → List (Demand × Option String)
  | [] => []
  | demand :: demands => (demand, (ns.meet demand).1) :: (ns.meet demand).2.answers demands

variable {ns : Names}

/-- A demand takes the name that it answers, and no other. -/
theorem taken_meet (ns : Names) (demand : Demand) :
    (ns.meet demand).2.taken = (ns.meet demand).1.toList ++ ns.taken := by
  cases demand with
  | reserve | recycle => rfl
  | allocate hint => exact ns.taken_allocate hint
  | merge wanted => exact (ns.takes_allocatePhi wanted).taken

theorem naming_meet (ns : Names) (demand : Demand) : (ns.meet demand).2.naming = ns.naming := by
  cases demand with
  | reserve | recycle => rfl
  | allocate hint => exact (ns.pool_allocate hint).2
  | merge wanted => exact (ns.takes_allocatePhi wanted).naming

/-- A binding gets the first choice for its position, if that is free. -/
theorem allocate_of_head? {hint : Hint} {name : String}
    (hfirst : (ns.positions hint).head? = some name) (hfree : name ∉ ns.taken) :
    (ns.allocate hint).1 = name := by
  obtain ⟨rest, hrest⟩ : ∃ rest, ns.positions hint = name :: rest := by
    cases hpositions : ns.positions hint with
    | nil => simp [hpositions] at hfirst
    | cons found rest => exact ⟨rest, by simpa [hpositions] using hfirst⟩
  have hname : ns.positional? hint = some name := by
    simp [positional?, hrest, isTaken, hfree]
  simp [allocate, hname]

/-- Hints for the positions of one vector, whose first choices begin with the name of the vector and
differ from each other. -/
structure Choices (naming : Naming) (stem : String) (hint : Nat → Hint) (name : Nat → String) :
    Prop where
  first : ∀ ns : Names, ns.naming = naming → ∀ i, (ns.positions (hint i)).head? = some (name i)
  lengthens : ∀ i, Lengthens stem (name i)
  injective : Function.Injective name

theorem choices_field {naming : Naming} (h : naming.validate = .ok ()) (stem : String) :
    Choices naming stem (.field stem) (naming.fieldName stem) where
  first ns hnaming i := by
    subst hnaming
    simp only [positions, Naming.fieldName]
    cases ns.naming.axisLetters.toList[i]? <;> rfl
  lengthens := lengthens_fieldName naming stem
  injective := Naming.fieldName_injective h stem

theorem choices_cell (naming : Naming) (stem : String) {side : Nat} (hpos : 0 < side)
    (hside : side ≤ 10) : Choices naming stem (.cell stem · side) (cellName stem side) where
  first ns hnaming i := by
    rw [positions, if_neg (by omega)]
    rfl
  lengthens := lengthens_cellName stem side
  injective := cellName_injective stem hpos hside

/-- Demands for positions of a vector, each made once at most, with no other demand that takes a name
which begins with the name of the vector and goes on. -/
structure Undisturbed (naming : Naming) (stem : String) (hint : Nat → Hint) (demands : List Demand) :
    Prop where
  once : ∀ i, demands.count (.allocate (hint i)) ≤ 1
  own : ∀ demand name, (demand, some name) ∈ answers { naming } demands → Lengthens stem name →
    ∃ i, demand = .allocate (hint i)

/-- Every position gets its first choice, if of the names that begin with the name of the vector only
first choices of positions no longer asked for are taken. -/
theorem Choices.answers {naming : Naming} {stem : String} {hint : Nat → Hint} {name : Nat → String}
    (h : Choices naming stem hint name) (hnaming : ns.naming = naming) {demands : List Demand}
    (hkept : ∀ text ∈ ns.taken, Lengthens stem text →
      ∃ j, text = name j ∧ .allocate (hint j) ∉ demands)
    (honce : ∀ i, demands.count (.allocate (hint i)) ≤ 1)
    (hown : ∀ demand text, (demand, some text) ∈ ns.answers demands → Lengthens stem text →
      ∃ i, demand = .allocate (hint i)) {i : Nat} {answer : Option String}
    (hmem : (.allocate (hint i), answer) ∈ ns.answers demands) : answer = some (name i) := by
  induction demands generalizing ns with
  | nil => cases hmem
  | cons demand demands ih =>
    have hfirst : ∀ j, demand = .allocate (hint j) → (ns.meet demand).1 = some (name j) := by
      intro j hdemand
      have hfree : name j ∉ ns.taken := by
        intro htaken
        obtain ⟨k, hname, hgone⟩ := hkept (name j) htaken (h.lengthens j)
        rw [hdemand, h.injective hname] at hgone
        exact hgone (List.mem_cons_self ..)
      rw [hdemand, meet, allocate_of_head? (h.first ns hnaming j) hfree]
    rcases List.mem_cons.1 hmem with heq | hmem
    · obtain ⟨hdemand, hanswer⟩ := Prod.mk.inj heq
      exact hanswer.trans (hfirst i hdemand.symm)
    · refine ih ((naming_meet ns demand).trans hnaming) (fun text htext hlong => ?_) (fun j => ?_)
        (fun other text hother => hown other text (List.mem_cons_of_mem _ hother)) hmem
      · rw [taken_meet, List.mem_append, Option.mem_toList] at htext
        rcases htext with hnew | hold
        · obtain ⟨j, hdemand⟩ := hown demand text (by simp [Names.answers, hnew]) hlong
          refine ⟨j, Option.some.inj (hnew.symm.trans (hfirst j hdemand)), fun hagain => ?_⟩
          have hcount := honce j
          rw [← hdemand, List.count_cons_self] at hcount
          rw [← hdemand] at hagain
          have hpos := List.count_pos_iff.2 hagain
          omega
        · obtain ⟨j, hname, hgone⟩ := hkept text hold hlong
          exact ⟨j, hname, fun hagain => hgone (List.mem_cons_of_mem _ hagain)⟩
      · exact Nat.le_trans (List.count_le_count_cons ..) (honce j)

end Names

/-- The first choice for a position of a vector or of a square matrix with a given number of
components. -/
def Naming.positionName (n : Naming) (stem : String) (square : Bool) (count : Nat) : Nat → String :=
  if square then cellName stem (Grid.side count) else n.fieldName stem

theorem Names.choices_position {naming : Naming} (h : naming.validate = .ok ()) (stem : String)
    {square : Bool} {count : Nat} (hcount : 0 < count)
    (hside : square = true → Grid.side count ≤ 10) :
    Choices naming stem
      (fun i => if square then .cell stem i (Grid.side count) else .field stem i)
      (naming.positionName stem square count) := by
  cases square with
  | false => exact choices_field h stem
  | true =>
    have hpos : 0 < Grid.side count := by
      rw [Grid.side_eq_sqrt]
      exact Nat.sqrt_pos.2 hcount
    exact choices_cell naming stem hpos (hside rfl)

namespace Session

variable {s t s₀ : Session} {effects : List Effect} {id : NodeId} {naming : Naming}

/-- A use takes no name and names no node, or it takes a name for the node that is used. -/
theorem Used.supplied (h : Used s id t) (hs : s.WellFormed) :
    (t.names = s.names ∧ t.arena.standing? = s.arena.standing?) ∨
      ∃ node text, s.arena.get? id = some node ∧ node.aliasable = true ∧
        s.names.allocate (s.arena.hint id) = (text, t.names) ∧
        t.arena.standing? = Function.update s.arena.standing? id (some (.named text)) := by
  cases h with
  | fixed => exact .inl ⟨rfl, rfl⟩
  | counted => exact .inl ⟨rfl, standing?_counted s id⟩
  | @bound node _ get aliasable second bound =>
    have hhint : (s.counted id).arena.hint id = s.arena.hint id := by
      refine hs.arena.hint_eq (Arena.steady_of_same (kind?_counted s id) (standing?_counted s id))
        fun parent index hk => ?_
      rwa [kind?_counted] at hk
    cases bound with
    | @capture _ _ _ name names _ _ _ allocate =>
      rw [hhint] at allocate
      refine .inr ⟨node, name, get, aliasable, allocate, ?_⟩
      rw [standing?_bound (get?_counted s get) name, standing?_counted]
    | @declare _ name names _ _ _ _ allocate =>
      rw [hhint] at allocate
      refine .inr ⟨node, name, get, aliasable, allocate, ?_⟩
      rw [standing?_bound (get?_counted s get) name, standing?_counted]

theorem Step.steady (h : Step s effects t) (hs : s.WellFormed) (hlife : s.LifeCycle) :
    s.arena.Steady t.arena where
  leaf id kind name hk hleaf hname := h.named hlife hname
  kind id kind hk hparts := by
    cases h with
    | add added =>
      have hkept := Arena.steady_of_get? fun _ _ => added.grown.get?_of_get?
      exact hkept.kind id kind hk hparts
    | parts get parts columns =>
      exact (steady_setComponents _ (Arena.kind?_of_get? get) parts).kind id kind hk hparts
    | use used => exact (used.wellFormed hs).2.toExtends.kind? hk
    | store => rwa [kind?_storing]
    | merge length =>
      exact (Arena.steady_of_get? fun _ _ => (grown_addMerged _ _ length).get?_of_get?).kind
        id kind hk hparts

/-- No node but the fields of a vector has a name that begins with a stem and goes on. -/
def Owns (s : Session) (vector : NodeId) (stem : String) : Prop :=
  ∀ id name, s.arena.standing? id = some (.named name) → Lengthens stem name →
    ∃ index, s.arena.kind? id = some (.field vector index)

instance (s : Session) (vector : NodeId) (stem : String) : Decidable (s.Owns vector stem) :=
  decidable_of_iff (∀ id node, s.arena.get? id = some node → ∀ name, node.standing = .named name →
      Lengthens stem name → ∃ index, node.kind = .field vector index)
    ⟨fun h id name hname hlong => by
      obtain ⟨node, hn, hstanding⟩ := Arena.exists_of_standing? hname
      obtain ⟨index, hk⟩ := h id node hn name hstanding hlong
      exact ⟨index, hk ▸ Arena.kind?_of_get? hn⟩,
    fun h id node hn name hstanding hlong => by
      obtain ⟨index, hk⟩ := h id name (hstanding ▸ Arena.standing?_of_get? hn) hlong
      rw [Arena.kind?_of_get? hn, Option.some.injEq] at hk
      exact ⟨index, hk⟩⟩

/-- Taken names are names of nodes, and the named fields of a vector that owns its names have their
first choices. -/
structure Charted (naming : Naming) (s : Session) : Prop where
  naming_eq : s.names.naming = naming
  taken : ∀ name ∈ s.names.taken, ∃ id, s.arena.standing? id = some (.named name)
  fields : ∀ vector cs square stem, s.arena.kind? vector = some (.vector cs square) →
    s.arena.standing? vector = some (.named stem) →
    (square = true → Grid.side cs.length ≤ 10) → s.Owns vector stem →
    ∀ id index name, s.arena.kind? id = some (.field vector index) →
      s.arena.standing? id = some (.named name) →
      name = naming.positionName stem square cs.length index

/-- A field that is bound to a name gets its first choice: another node that had this name would be a
field with the same first choice, hence the same field. -/
theorem Charted.allocate (h : s.Charted naming) (hnaming : naming.validate = .ok ())
    (hs : s.WellFormed) {vector : NodeId} {cs : List NodeId} {square : Bool} {stem : String}
    (hvector : s.arena.kind? vector = some (.vector cs square))
    (hstem : s.arena.standing? vector = some (.named stem))
    (hside : square = true → Grid.side cs.length ≤ 10) (howns : s.Owns vector stem) {index : Nat}
    (hk : s.arena.kind? id = some (.field vector index))
    (hunnamed : ∀ name, s.arena.standing? id ≠ some (.named name)) :
    (s.names.allocate (s.arena.hint id)).1 = naming.positionName stem square cs.length index := by
  have hplace : ∀ {other : NodeId} {i : Nat}, s.arena.kind? other = some (.field vector i) →
      cs[i]? = some other := by
    intro other i hother
    obtain ⟨cs', square', hvector', hc⟩ := hs.arena.parent_of_kind? hother
    rw [hvector] at hvector'
    cases hvector'
    exact hc
  have hcount : 0 < cs.length := Nat.zero_lt_of_lt (List.getElem?_eq_some_iff.1 (hplace hk)).1
  have hchoices := Names.choices_position hnaming stem hcount hside
  have hfirst := hchoices.first s.names h.naming_eq index
  rw [Arena.hint_of_field hk hvector hstem]
  refine Names.allocate_of_head? hfirst fun htaken => ?_
  obtain ⟨other, hother⟩ := h.taken _ htaken
  obtain ⟨j, hj⟩ := howns other _ hother (hchoices.lengthens index)
  have hsame := hchoices.injective
    (h.fields vector cs square stem hvector hstem hside howns other j _ hj hother)
  rw [← hsame] at hj
  obtain rfl : id = other := Option.some.inj ((hplace hk).symm.trans (hplace hj))
  exact hunnamed _ hother

/-- A step that takes names for nodes only, and names an old field only by taking a name for it. -/
theorem Charted.next (h : s.Charted naming) (hnaming : naming.validate = .ok ())
    (hs : s.WellFormed) (hlife : s.LifeCycle) (hstep : Step s effects t)
    (hnames : t.names.naming = s.names.naming)
    (htaken : ∀ name ∈ t.names.taken, name ∈ s.names.taken ∨
      ∃ id, t.arena.standing? id = some (.named name))
    (hfield : ∀ id vector index name, t.arena.kind? id = some (.field vector index) →
      t.arena.standing? id = some (.named name) → s.arena.kind? id = some (.field vector index) ∧
        (s.arena.standing? id = some (.named name) ∨
          (∀ other, s.arena.standing? id ≠ some (.named other)) ∧
            (s.names.allocate (s.arena.hint id)).1 = name)) : t.Charted naming where
  naming_eq := hnames.trans h.naming_eq
  taken name hname := by
    rcases htaken name hname with hold | hnew
    · obtain ⟨id, hid⟩ := h.taken name hold
      exact ⟨id, hstep.named hlife hid⟩
    · exact hnew
  fields vector cs square stem hvector hstem hside howns id index name hk hname := by
    obtain ⟨hk', hname'⟩ := hfield id vector index name hk hname
    obtain ⟨hvector', hstem'⟩ : s.arena.kind? vector = some (.vector cs square) ∧
        s.arena.standing? vector = some (.named stem) := by
      obtain ⟨cs', square', hold, -⟩ := hs.arena.parent_of_kind? hk'
      obtain ⟨node, hn, hkind⟩ := Arena.exists_of_kind? hold
      obtain ⟨stem', hstanding⟩ := (hs.arena vector node hn).named (by simp [hkind, Kind.isLeaf])
      have hnamed := hstanding ▸ Arena.standing?_of_get? hn
      have hsteady := hstep.steady hs hlife
      rw [hsteady.kind vector _ hold rfl] at hvector
      rw [hsteady.leaf vector _ stem' hold rfl hnamed] at hstem
      cases hvector
      cases hstem
      exact ⟨hold, hnamed⟩
    have howns' : s.Owns vector stem := by
      intro other found hother hlong
      have hlater := hstep.named hlife hother
      obtain ⟨j, hj⟩ := howns other found hlater hlong
      exact ⟨j, (hfield other vector j found hj hlater).1⟩
    rcases hname' with hold | ⟨hunnamed, hallocate⟩
    · exact h.fields vector cs square stem hvector' hstem' hside howns' id index name hk' hold
    · rw [← hallocate]
      exact h.allocate hnaming hs hvector' hstem' hside howns' hk' hunnamed

/-- No field is added under a name. -/
theorem Grown.named_field (h : s.Grown t) {vector : NodeId} {index : Nat} {name : String}
    (hk : t.arena.kind? id = some (.field vector index))
    (hname : t.arena.standing? id = some (.named name)) :
    s.arena.kind? id = some (.field vector index) ∧ s.arena.standing? id = some (.named name) := by
  obtain ⟨node, hn, hkind⟩ := Arena.exists_of_kind? hk
  rw [Arena.standing?_of_get? hn, Option.some.injEq] at hname
  rcases h.cases hn with hold | ⟨-, hfresh⟩
  · exact ⟨hkind ▸ Arena.kind?_of_get? hold, hname ▸ Arena.standing?_of_get? hold⟩
  · rw [hfresh.inline (by simp [hkind, Kind.isLeaf])] at hname
    cases hname

theorem standing?_addVector (s : Session) (shape : Shape) (name : String) (square : Bool) :
    (s.addVector shape name square).2.arena.standing? ⟨s.arena.size⟩ = some (.named name) := by
  cases shape with
  | length n => exact Arena.standing?_of_get? (Arena.get?_registerFields_vector ..)
  | components cs =>
    simp only [Session.addVector, Arena.standing?_register]
    exact Function.update_self ..

/-- Names are taken for leaves that are added under them. -/
theorem Addition.names (h : Addition s t) : t.names.naming = s.names.naming ∧
    ∀ name ∈ t.names.taken, name ∈ s.names.taken ∨
      ∃ id, t.arena.standing? id = some (.named name) := by
  cases h with
  | scalar name =>
    refine ⟨rfl, fun found hfound => (List.mem_cons.1 hfound).symm.imp_right ?_⟩
    rintro rfl
    refine ⟨⟨s.arena.size⟩, ?_⟩
    simp only [Session.addScalar, Arena.standing?_register]
    exact Function.update_self ..
  | vector name square known =>
    refine ⟨rfl, fun found hfound => (List.mem_cons.1 hfound).symm.imp_right ?_⟩
    rintro rfl
    exact ⟨⟨s.arena.size⟩, standing?_addVector s _ found square⟩
  | intern requestable =>
    rw [(schedule_intern s _).2]
    exact ⟨rfl, fun _ => .inl⟩
  | recycle name => exact ⟨rfl, fun _ => .inl⟩

/-- A use names no node but the one that is used, by taking a name for it. -/
theorem Used.names (h : Used s id t) (hs : s.WellFormed) (hlife : s.LifeCycle) :
    t.names.naming = s.names.naming ∧
    (∀ name ∈ t.names.taken, name ∈ s.names.taken ∨
      ∃ other, t.arena.standing? other = some (.named name)) ∧
    ∀ other name, t.arena.standing? other = some (.named name) →
      s.arena.standing? other = some (.named name) ∨
        (∀ found, s.arena.standing? other ≠ some (.named found)) ∧
          (s.names.allocate (s.arena.hint other)).1 = name := by
  rcases h.supplied hs with ⟨hnames, hstanding⟩ | ⟨node, text, hn, halias, hallocate, hstanding⟩
  · rw [hnames, hstanding]
    exact ⟨rfl, fun _ => .inl, fun _ _ => .inl⟩
  · have hkept := (s.names.pool_allocate (s.arena.hint id)).2
    have htaken := s.names.taken_allocate (s.arena.hint id)
    rw [hallocate] at hkept htaken
    refine ⟨hkept, fun name hname => ?_, fun other name hname => ?_⟩
    · rw [htaken] at hname
      refine (List.mem_cons.1 hname).symm.imp_right ?_
      rintro rfl
      exact ⟨id, by rw [hstanding, Function.update_self]⟩
    · rw [hstanding, Function.update_apply] at hname
      split at hname
      next heq =>
        subst heq
        cases hname
        refine .inr ⟨fun found hfound => ?_, by rw [hallocate]⟩
        rw [Arena.standing?_of_get? hn, Option.some.injEq] at hfound
        exact (hlife.nodes other node hn).not_named halias found hfound
      next => exact .inl hname

theorem Step.charted (h : Step s effects t) (hs : s.WellFormed) (hlife : s.LifeCycle)
    (hnaming : naming.validate = .ok ()) (hcharted : s.Charted naming) : t.Charted naming := by
  have hstep := h
  cases h with
  | add added =>
    obtain ⟨hnames, htaken⟩ := added.names
    refine hcharted.next hnaming hs hlife hstep hnames htaken fun id vector index name hk hname => ?_
    obtain ⟨hk', hname'⟩ := added.grown.named_field hk hname
    exact ⟨hk', .inl hname'⟩
  | @parts _ _ _ _ cs get parts columns =>
    obtain ⟨kind', hparts, -, hkind⟩ := kind?_setComponents cs (Arena.kind?_of_get? get) parts
    refine hcharted.next hnaming hs hlife hstep rfl (fun _ => .inl)
      fun id vector index name hk hname => ⟨?_, .inl (standing?_setComponents s _ _ ▸ hname)⟩
    rw [hkind, Function.update_apply] at hk
    split at hk
    next =>
      cases hk
      cases hparts
    next => exact hk
  | @use id _ used =>
    have hkinds := (used.wellFormed hs).2.kind?_eq
    obtain ⟨hnames, htaken, hstanding⟩ := used.names hs hlife
    exact hcharted.next hnaming hs hlife hstep hnames htaken
      fun other vector index name hk hname => ⟨hkinds ▸ hk, hstanding other name hname⟩
  | @store output input place e =>
    exact hcharted.next hnaming hs hlife hstep rfl (fun _ => .inl) fun id vector index name hk hname =>
      ⟨kind?_storing s output place e ▸ hk, .inl (named_of_storing hname)⟩
  | @merge _ _ _ wanted name names value length known allocate =>
    have htakes := s.names.takes_allocatePhi wanted
    rw [allocate] at htakes
    obtain ⟨-, node, hn, hstanding⟩ := get?_addMerged (s.merging names name value) name length
    refine hcharted.next hnaming hs hlife hstep ?_ (fun found hfound => ?_)
      fun id vector index found hk hname => ?_
    · cases length <;> exact htakes.naming
    · rw [taken_addMerged, List.mem_cons] at hfound
      have hnamed : found = name ∨ found ∈ s.names.taken := by
        rcases hfound with heq | hmem
        · exact .inl heq
        · exact List.mem_cons.1 (htakes.taken ▸ hmem)
      refine hnamed.symm.imp_right ?_
      rintro rfl
      exact ⟨_, hstanding ▸ Arena.standing?_of_get? hn⟩
    · obtain ⟨hk', hname'⟩ := (grown_addMerged (s.merging names name value) name length).named_field
        hk hname
      exact ⟨hk', .inl hname'⟩

theorem naming_validate_of_new {settings : Settings} (h : Session.new settings = .ok s) :
    settings.naming.validate = .ok () := by
  simp only [Session.new, bind_eq_ok] at h
  obtain ⟨u, hvalid, -⟩ := h
  cases hv : settings.validate with
  | ok v =>
    simp only [Settings.validate, bind_eq_ok] at hv
    obtain ⟨⟨⟩, hnaming, -⟩ := hv
    exact hnaming
  | error e =>
    rw [hv] at hvalid
    cases hvalid

theorem charted_run {settings : Settings} (h₀ : Session.new settings = .ok s₀) (calls : List Call) :
    (s₀.run calls).Charted settings.naming := by
  have hnaming := naming_validate_of_new h₀
  have hstart : s₀.Charted settings.naming := by
    obtain rfl := eq_of_new h₀
    refine ⟨rfl, by simp, ?_⟩
    simp [Arena.kind?, Arena.get?]
  obtain ⟨-, -, hcharted⟩ := ((history_of_new h₀ calls).steps (wellFormed_of_new h₀)).invariant
    (fun _ s => (s.LifeCycle ∧ s.schedule.Numbered) ∧ s.Charted settings.naming)
    (wellFormed_of_new h₀) ⟨lifeCycle_of_new h₀, hstart⟩
    fun hs hkept hstep =>
      ⟨⟨hstep.lifeCycle hkept.1.1 hkept.1.2, hstep.numbered hkept.1.2⟩,
        hstep.charted hs hkept.1.1 hnaming hkept.2⟩
  exact hcharted

/-- A vector of fresh fields stays the parent of its fields, under its name. -/
theorem fields_run {settings : Settings} (h₀ : Session.new settings = .ok s₀) (front rest : List Call)
    {call : Call} {result : Option NodeId} {vector : NodeId} {n : Nat} {stem : String} {square : Bool}
    (hcall : call.run (s₀.run front) = .ok result t)
    (hvector : (s₀.run front).addVector (.length n) stem square = (vector, t)) :
    ∃ cs, cs.length = (if square then n * n else n) ∧
      (t.run rest).arena.kind? vector = some (.vector cs square) ∧
      (t.run rest).arena.standing? vector = some (.named stem) ∧
      ∀ i id, cs[i]? = some id → (t.run rest).arena.kind? id = some (.field vector i) := by
  have hafter : s₀.run (front ++ [call]) = t := by
    rw [run_append]
    show (s₀.run front).after call = t
    rw [Session.after, hcall]
  obtain rfl : ((s₀.run front).addVector (.length n) stem square).2 = t := by rw [hvector]
  obtain rfl : ⟨(s₀.run front).arena.size⟩ = vector := (Prod.mk.inj hvector).1
  have hstem := standing?_addVector (s₀.run front) (.length n) stem square
  have hnamed := (advances_run h₀ (front ++ [call]) rest).standing
  obtain ⟨-, hext⟩ := ((complete_of_new h₀).run (front ++ [call])).1.run rest
  rw [hafter] at hnamed hext
  obtain ⟨now, hnow, hbecomes⟩ := hnamed _ _ hstem
  refine ⟨_, ?_, hext.kind? (Arena.kind?_of_get? (Arena.get?_registerFields_vector ..)), ?_, ?_⟩
  · simp
  · cases hbecomes with
    | same => exact hnow
    | named unnamed => exact absurd rfl (unnamed stem)
  · intro i id hid
    obtain ⟨hlt, rfl⟩ := List.getElem?_eq_some_iff.1 hid
    rw [List.getElem_map, List.getElem_range]
    rw [List.length_map, List.length_range] at hlt
    exact hext.kind? (Arena.kind?_of_get? (Arena.get?_registerFields_field _ _ _ _ _ hlt))

/-- Each component of a vector of fresh fields has the hint of its position, and the first choice for it
once it is named, if the vector owns its names. -/
theorem positions_run {settings : Settings} (h₀ : Session.new settings = .ok s₀)
    (front rest : List Call) {call : Call} {result : Option NodeId} {vector : NodeId} {n count : Nat}
    {stem : String} {square : Bool} (hcall : call.run (s₀.run front) = .ok result t)
    (hvector : (s₀.run front).addVector (.length n) stem square = (vector, t))
    (hcount : count = if square then n * n else n) {i : Nat} (hi : i < count) :
    ∃ id, (t.run rest).component vector i = .ok id ∧
      (t.run rest).arena.hint id =
        (if square then .cell stem i (Grid.side count) else .field stem i) ∧
      ((square = true → Grid.side count ≤ 10) → (t.run rest).Owns vector stem →
        ∀ name, (t.run rest).arena.standing? id = some (.named name) →
          name = settings.naming.positionName stem square count i) := by
  have hrun : t.run rest = s₀.run (front ++ call :: rest) := by
    rw [run_append]
    show t.run rest = ((s₀.run front).after call).run rest
    rw [Session.after, hcall]
  obtain ⟨cs, hlength, hk, hstem, hfields⟩ := fields_run h₀ front rest hcall hvector
  rw [← hcount] at hlength
  subst hlength
  have hid : cs[i]? = some (cs.get ⟨i, hi⟩) := List.getElem?_eq_getElem hi
  have hfield := hfields i _ hid
  have hcharted := charted_run h₀ (front ++ call :: rest)
  rw [← hrun] at hcharted
  refine ⟨cs.get ⟨i, hi⟩, ?_, Arena.hint_of_field hfield hk hstem, fun hside howns name hname => ?_⟩
  · obtain ⟨node, hn, hkind⟩ := Arena.exists_of_kind? hk
    have hcs : node.components? = some cs := by simp [Node.components?, hkind]
    simp only [Session.component, node_eq_ok hn, bind, Except.bind, hcs, hid]
    rfl
  · exact hcharted.fields vector cs square stem hk hstem hside howns _ i name hfield hname

/-- The component at a position has the hint of the position and, if the vector owns its names, the name
of the position once it has one. -/
def NamesPosition (s : Session) (vector : NodeId) (stem : String) (i : Nat) (hint : Hint)
    (name : String) : Prop :=
  ∃ id, s.component vector i = .ok id ∧ s.arena.hint id = hint ∧
    (s.Owns vector stem → ∀ found, s.arena.standing? id = some (.named found) → found = name)

/-- In whatever order positions of a vector or of a matrix with up to ten rows are named, and whatever
else is asked of the supply meanwhile, each gets its axis letter, its number, or its row and column, as
long as no other name that begins with the name of the vector and goes on is taken. The hints of fields
say as much: a matrix is recognized by the number of its components. -/
theorem positions_are_named_in_any_order :
    (∀ (naming : Naming) (stem : String) (demands : List Names.Demand), naming.validate = .ok () →
      (Names.Undisturbed naming stem (.field stem) demands → ∀ i answer,
        (.allocate (.field stem i), answer) ∈ Names.answers { naming } demands →
          answer = some (naming.fieldName stem i)) ∧
      ∀ d, 0 < d → d ≤ 10 → Names.Undisturbed naming stem (.cell stem · d) demands → ∀ i answer,
        (.allocate (.cell stem i d), answer) ∈ Names.answers { naming } demands →
          answer = some (cellName stem d i)) ∧
    ∀ (settings : Settings) (s₀ t : Session) (front rest : List Call) (vector : NodeId)
      (stem : String), Session.new settings = .ok s₀ →
      (∀ n, (Call.vector (.length n) stem).run (s₀.run front) = .ok (some vector) t → ∀ i < n,
        (t.run rest).NamesPosition vector stem i (.field stem i)
          (settings.naming.fieldName stem i)) ∧
      ∀ d, d ≤ 10 → (Call.matrix (.length d) stem).run (s₀.run front) = .ok (some vector) t →
        ∀ i < d * d, (t.run rest).NamesPosition vector stem i (.cell stem i d)
          (cellName stem d i) := by
  refine ⟨fun naming stem demands hnaming => ⟨fun h i answer => ?_, fun d hpos hd h i answer => ?_⟩,
    fun settings s₀ t front rest vector stem h₀ => ⟨fun n hcall i hi => ?_,
      fun d hd hcall i hi => ?_⟩⟩
  · exact (Names.choices_field hnaming stem).answers rfl (by simp) h.once h.own
  · exact (Names.choices_cell naming stem hpos hd).answers rfl (by simp) h.once h.own
  · have hvector : (s₀.run front).addVector (.length n) stem false = (vector, t) := by
      cases hcall
      rfl
    obtain ⟨id, hid, hhint, hname⟩ := positions_run h₀ front rest hcall hvector rfl hi
    exact ⟨id, hid, hhint, hname nofun⟩
  · have hvector : (s₀.run front).addVector (.length d) stem true = (vector, t) := by
      cases hcall
      rfl
    obtain ⟨id, hid, hhint, hname⟩ := positions_run h₀ front rest hcall hvector rfl hi
    simp only [if_true, Grid.side_mul_self, Naming.positionName] at hhint hname
    exact ⟨id, hid, hhint, hname fun _ => hd⟩

theorem positions_are_named_in_any_order_of_reverse :
    let demands : List Names.Demand := [.reserve "v", .allocate (.field "v" 4), .merge none,
      .allocate (.field "v" 1), .recycle "w", .allocate .anonymous, .allocate (.field "v" 0)]
    let s₀ : Session := { settings := {} }
    let t : Session := s₀.run [.matrix (.length 2) "m"]
    let rest : List Call := [.apply "+" [⟨4⟩, ⟨4⟩], .apply "*" [⟨3⟩, ⟨3⟩]]
    Names.Undisturbed {} "v" (.field "v") demands ∧
      (.allocate (.field "v" 1), some "vy") ∈ Names.answers { naming := {} } demands ∧
      some "vy" = some (({} : Naming).fieldName "v" 1) ∧
      (t.run rest).arena.standing? ⟨3⟩ = some (.named "m10") ∧ "m10" = cellName "m" 2 2 := by
  intro demands s₀ t rest
  have hdemands : Names.Undisturbed {} "v" (.field "v") demands := by
    have howned : ∀ p ∈ Names.answers { naming := {} } demands, ∀ name ∈ p.2, Lengthens "v" name →
        ∃ i < 5, p.1 = .allocate (.field "v" i) := by decide +kernel
    refine ⟨fun i => ?_, fun demand name hmem hlong => ?_⟩
    · simp only [demands, List.count_cons, List.count_nil]
      grind
    · obtain ⟨i, -, hi⟩ := howned (demand, some name) hmem name rfl hlong
      exact ⟨i, hi⟩
  obtain ⟨hnames, hsession⟩ := positions_are_named_in_any_order
  obtain ⟨id, hid, -, hcell⟩ :=
    (hsession {} s₀ t [] rest ⟨0⟩ "m" rfl).2 2 (by decide) rfl 2 (by decide)
  have hcomponent : (t.run rest).component ⟨0⟩ 2 = .ok ⟨3⟩ := by decide +kernel
  obtain rfl : id = ⟨3⟩ := Except.ok.inj (hid.symm.trans hcomponent)
  have hmem : (.allocate (.field "v" 1), some "vy") ∈ Names.answers { naming := {} } demands := by
    decide +kernel
  have howns : (t.run rest).Owns ⟨0⟩ "m" := by decide +kernel
  have hstanding : (t.run rest).arena.standing? ⟨3⟩ = some (.named "m10") := by decide +kernel
  exact ⟨hdemands, hmem, (hnames {} "v" demands rfl).1 hdemands 1 _ hmem, hstanding,
    hcell howns "m10" hstanding⟩

end Session

end StraightLine
