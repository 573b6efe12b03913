import Mathlib.Order.Bounds.Basic
import StraightLine.Proofs.RequestConditions
import StraightLine.Proofs.Tokens

/-! # Names handed out are new

As many numbers as there are taken names always reach a free one, so every name that is handed out
was free. Under admissible settings names made from identifiers are identifiers. -/
namespace StraightLine

/-- A free name is found if `left` holds every taken name of the numbers still to be tried. -/
theorem firstFree_not_mem_of_le {taken left : List String} {name : Nat → String} {fuel k : Nat}
    (hname : Function.Injective name) (hleft : ∀ j, k ≤ j → name j ∈ taken → name j ∈ left)
    (hfuel : left.length ≤ fuel) : name (firstFree taken name fuel k) ∉ taken := by
  induction fuel generalizing left k with
  | zero =>
    intro hmem
    have hk := hleft k (by omega) hmem
    rw [List.eq_nil_of_length_eq_zero (Nat.le_zero.1 hfuel)] at hk
    cases hk
  | succ fuel ih =>
    rw [firstFree]
    by_cases hk : name k ∈ taken
    · rw [if_pos hk]
      have hmem := hleft k (by omega) hk
      have herase : ∀ j, k + 1 ≤ j → name j ∈ taken → name j ∈ left.erase (name k) := by
        intro j hj htaken
        have hne : name j ≠ name k := fun heq => by
          have := hname heq
          omega
        rw [List.mem_erase_of_ne hne]
        exact hleft j (by omega) htaken
      have hlength : (left.erase (name k)).length ≤ fuel := by
        rw [List.length_erase_of_mem hmem]
        omega
      exact ih herase hlength
    · rw [if_neg hk]
      exact hk

theorem le_firstFree {taken : List String} {name : Nat → String} (fuel k : Nat) :
    k ≤ firstFree taken name fuel k := by
  induction fuel generalizing k with
  | zero => exact Nat.le_refl k
  | succ fuel ih =>
    rw [firstFree]
    split
    · exact (Nat.le_succ k).trans (ih (k + 1))
    · exact Nat.le_refl k

/-- The search passes over taken names only. -/
theorem mem_of_lt_firstFree {taken : List String} {name : Nat → String} {fuel k j : Nat}
    (hk : k ≤ j) (hj : j < firstFree taken name fuel k) : name j ∈ taken := by
  induction fuel generalizing k with
  | zero => exact absurd hj (Nat.not_lt.2 hk)
  | succ fuel ih =>
    rw [firstFree] at hj
    split at hj
    next htaken =>
      rcases Nat.eq_or_lt_of_le hk with rfl | hlt
      · exact htaken
      · exact ih hlt hj
    next => exact absurd hj (Nat.not_lt.2 hk)

theorem toString_injective : Function.Injective fun k : Nat => toString k := by
  intro i j h
  have htokens : lex (toString i) = lex (toString j) := congrArg lex h
  rw [lex_number, lex_number] at htokens
  simpa using htokens

theorem append_toString_injective (stem : String) :
    Function.Injective fun k : Nat => stem ++ toString k := by
  intro i j h
  exact toString_injective ((String.append_right_inj stem).1 h)

theorem isIdentifier_append {stem suffix : String} (hstem : isIdentifier stem = true)
    (hsuffix : suffix.toList.all isIdentifierPart = true) : isIdentifier (stem ++ suffix) = true := by
  obtain ⟨c, cs, hcs, hc, hall⟩ := isIdentifier_cases hstem
  simp [isIdentifier, String.toList_append, hcs, hc, hall, hsuffix]

theorem all_isIdentifierPart_toString (n : Nat) :
    (toString n).toList.all isIdentifierPart = true := by
  have hdigits : (toString n).toList = Nat.toDigits 10 n := Nat.toList_repr
  rw [hdigits, List.all_eq_true]
  intro c hc
  exact isIdentifierPart_of_isDigit (Nat.isDigit_of_mem_toDigits (by omega) (by omega) hc)

theorem isIdentifier_numbered {stem : String} (h : isIdentifier stem = true) (n : Nat) :
    isIdentifier (stem ++ toString n) = true :=
  isIdentifier_append h (all_isIdentifierPart_toString n)

/-- Stems are identifiers, and axis letters are letters. -/
structure Naming.Admissible (n : Naming) : Prop where
  axes : n.axisLetters.toList.all Char.isAlpha = true
  temp : isIdentifier n.tempStem = true
  phi : isIdentifier n.phiStem = true

theorem requireIdentifier_eq_ok {field value : String} :
    requireIdentifier field value = .ok () ↔ isIdentifier value = true := by
  unfold requireIdentifier
  split
  next hvalue => exact iff_of_true rfl hvalue
  next hvalue => exact iff_of_false nofun hvalue

theorem Naming.all_isAlpha_of_checkAxes {letters : List Char}
    (h : Naming.checkAxes letters = .ok ()) : letters.all Char.isAlpha = true := by
  unfold Naming.checkAxes at h
  split at h
  next => cases h
  next =>
    split at h
    next => cases h
    next hall => simpa using hall

theorem Settings.naming_admissible {settings : Settings} (h : settings.validate = .ok ()) :
    settings.naming.Admissible := by
  simp only [Settings.validate, Naming.validate, bind_eq_ok] at h
  obtain ⟨⟨⟩, ⟨⟨⟩, haxes, ⟨⟩, htemp, ⟨⟩, hphi, -⟩, -⟩ := h
  exact ⟨Naming.all_isAlpha_of_checkAxes haxes, requireIdentifier_eq_ok.1 htemp,
    requireIdentifier_eq_ok.1 hphi⟩

def Hint.parent? : Hint → Option String
  | .field parent _ | .cell parent _ _ => some parent
  | .anonymous => none

namespace Names

variable {ns : Names}

/-- The names before and after a name was taken. -/
structure Takes (ns : Names) (name : String) (next : Names) : Prop where
  free : name ∉ ns.taken
  taken : next.taken = name :: ns.taken
  naming : next.naming = ns.naming
  pool : next.pool = ns.pool

theorem nextFree_not_mem {name : Nat → String} (hname : Function.Injective name) (start : Nat) :
    name (ns.nextFree name start) ∉ ns.taken :=
  firstFree_not_mem_of_le hname (fun _ _ h => h) (Nat.le_refl _)

/-- The search for a free name ends at the first one. -/
theorem isLeast_nextFree {name : Nat → String} (hname : Function.Injective name) (start : Nat) :
    IsLeast {k | start ≤ k ∧ name k ∉ ns.taken} (ns.nextFree name start) := by
  refine ⟨⟨le_firstFree _ start, nextFree_not_mem hname start⟩, ?_⟩
  rintro k ⟨hk, hfree⟩
  by_contra hlt
  exact hfree (mem_of_lt_firstFree hk (Nat.lt_of_not_le hlt))

/-- A binding takes a free name, or the next recycled one if no name fits its position. -/
theorem allocate_cases (ns : Names) (hint : Hint) :
    ns.Takes (ns.allocate hint).1 (ns.allocate hint).2 ∨
      ns.positional? hint = none ∧ ns.pool = (ns.allocate hint).1 :: (ns.allocate hint).2.pool ∧
        (ns.allocate hint).2.taken = (ns.allocate hint).1 :: ns.taken := by
  unfold allocate
  split
  next name hname =>
    have hfree := List.find?_some hname
    exact .inl ⟨by simpa [isTaken] using hfree, rfl, rfl, rfl⟩
  next hnone =>
    cases hpool : ns.pool with
    | nil =>
      exact .inl ⟨nextFree_not_mem (append_toString_injective _) _, rfl, rfl, hpool.symm ▸ rfl⟩
    | cons name pool => exact .inr ⟨hnone, rfl, rfl⟩

/-- Without recycled names, a binding takes a free name. -/
theorem takes_allocate (hpool : ns.pool = []) (hint : Hint) :
    ns.Takes (ns.allocate hint).1 (ns.allocate hint).2 := by
  rcases ns.allocate_cases hint with htakes | ⟨-, hcons, -⟩
  · exact htakes
  · rw [hpool] at hcons
    cases hcons

theorem taken_allocate (ns : Names) (hint : Hint) :
    (ns.allocate hint).2.taken = (ns.allocate hint).1 :: ns.taken := by
  rcases ns.allocate_cases hint with htakes | ⟨-, -, htaken⟩
  · exact htakes.taken
  · exact htaken

theorem phiDefault_injective (ns : Names) : Function.Injective ns.phiDefault := by
  have hstem : ∀ k : Nat, ns.naming.phiStem ≠ ns.naming.phiStem ++ toString (k + 1) := by
    intro k h
    have hlength := congrArg (fun text : String => text.toList.length) h
    have hdigits : (toString (k + 1)).toList.length ≠ 0 := by
      rw [show (toString (k + 1)).toList = Nat.toDigits 10 (k + 1) from Nat.toList_repr]
      simp
    simp only [String.toList_append, List.length_append] at hlength
    omega
  intro i j h
  unfold phiDefault at h
  split at h <;> split at h
  · omega
  · exact absurd h (hstem j)
  · exact absurd h.symm (hstem i)
  · have := append_toString_injective ns.naming.phiStem h
    omega

theorem takes_allocatePhi (ns : Names) (wanted : Option String) :
    ns.Takes (ns.allocatePhi wanted).1 (ns.allocatePhi wanted).2 := by
  unfold allocatePhi
  dsimp only
  split
  next hfree => exact ⟨by simpa [isTaken] using hfree, rfl, rfl, rfl⟩
  next =>
    split
    next => exact ⟨nextFree_not_mem (append_toString_injective _) 0, rfl, rfl, rfl⟩
    next => exact ⟨nextFree_not_mem ns.phiDefault_injective _, rfl, rfl, rfl⟩

/-- Names on offer are left as they are, but for one that is handed out. -/
theorem pool_allocate (ns : Names) (hint : Hint) :
    (ns.allocate hint).2.pool ⊆ ns.pool ∧ (ns.allocate hint).2.naming = ns.naming := by
  unfold allocate
  split
  · exact ⟨List.Subset.refl _, rfl⟩
  · split
    next name pool hpool => exact ⟨by rw [hpool]; exact List.subset_cons_self .., rfl⟩
    next => exact ⟨List.Subset.refl _, rfl⟩

theorem isIdentifier_allocate (hn : ns.naming.Admissible)
    (hpool : ∀ name ∈ ns.pool, isIdentifier name = true) {hint : Hint}
    (hparent : ∀ parent, hint.parent? = some parent → isIdentifier parent = true) :
    isIdentifier (ns.allocate hint).1 = true := by
  unfold allocate
  split
  next name hname =>
    have hmem := List.mem_of_find?_eq_some hname
    cases hint with
    | anonymous => cases hmem
    | cell parent index side =>
      have hp := hparent parent rfl
      simp only [positions] at hmem
      split at hmem
      · cases hmem
      · rw [List.mem_singleton.1 hmem]
        exact isIdentifier_numbered (isIdentifier_numbered hp _) _
    | field parent index =>
      have hp := hparent parent rfl
      rcases List.mem_append.1 hmem with hletter | hnumber
      · obtain ⟨c, hc, hcname⟩ := Option.map_eq_some_iff.1 (Option.mem_toList.1 hletter)
        have halpha := List.all_eq_true.1 hn.axes c (List.mem_of_getElem? hc)
        rw [← hcname]
        refine isIdentifier_append hp ?_
        simp [isIdentifierPart, Char.isAlphanum, halpha]
      · rw [List.mem_singleton.1 hnumber]
        exact isIdentifier_numbered hp index
  next =>
    split
    next name pool hnext => exact hpool name (by simp [hnext])
    next => exact isIdentifier_numbered hn.temp _

theorem isIdentifier_allocatePhi (hn : ns.naming.Admissible) {wanted : Option String}
    (hwanted : ∀ name, wanted = some name → isIdentifier name = true) :
    isIdentifier (ns.allocatePhi wanted).1 = true := by
  have hdefault : ∀ k, isIdentifier (ns.phiDefault k) = true := by
    intro k
    unfold phiDefault
    split
    · exact hn.phi
    · exact isIdentifier_numbered hn.phi _
  have hcandidate : isIdentifier (wanted.getD (ns.phiDefault ns.phiCounter)) = true := by
    cases wanted with
    | none => exact hdefault _
    | some name => exact hwanted name rfl
  unfold allocatePhi
  dsimp only
  split
  · exact hcandidate
  · split
    · exact isIdentifier_numbered hcandidate _
    · exact hdefault _

end Names

end StraightLine
