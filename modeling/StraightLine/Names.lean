import StraightLine.Settings.Basic

/-! # Binding names

A supply of names for bindings. A field of a named vector is called after its position, any other
node takes a recycled name or a numbered temporary, and merged values have names of their own. Every
name that is handed out or declared is recorded as taken. -/
namespace StraightLine

/-- What a binding may be called after. -/
inductive Hint where
  /-- A field of a named vector. -/
  | field (parent : String) (index : Nat)
  /-- A field of a named square matrix with the given side. -/
  | cell (parent : String) (index side : Nat)
  | anonymous
deriving Repr, DecidableEq

structure Names where
  naming : Naming
  taken : List String := []
  /-- Recycled names, the next one first. -/
  pool : List String := []
  /-- Number of the next temporary to try. -/
  tempCounter : Nat := 0
  /-- Number of the next default merge name to try. -/
  phiCounter : Nat := 0
deriving Repr, DecidableEq, Inhabited

/-- The first number from `k` on whose name is not taken, within `fuel` steps. Distinct numbers have
distinct names, so as many steps as there are taken names always reach one. -/
def firstFree (taken : List String) (name : Nat → String) : Nat → Nat → Nat
  | 0, k => k
  | fuel + 1, k => if name k ∈ taken then firstFree taken name fuel (k + 1) else k

namespace Names

def isTaken (ns : Names) (name : String) : Bool := name ∈ ns.taken

def reserve (ns : Names) (name : String) : Names := { ns with taken := name :: ns.taken }

def recycle (ns : Names) (name : String) : Names := { ns with pool := ns.pool ++ [name] }

/-- The number of the first free name of a numbered family, from `start` on. -/
def nextFree (ns : Names) (name : Nat → String) (start : Nat) : Nat :=
  firstFree ns.taken name ns.taken.length start

/-- The names that fit a position, the preferred one first. -/
def positions (ns : Names) : Hint → List String
  | .field parent index =>
    ((ns.naming.axisLetters.toList[index]?).map fun c => parent ++ c.toString).toList ++
      [parent ++ toString index]
  | .cell parent index side =>
    if side = 0 then [] else [parent ++ toString (index / side) ++ toString (index % side)]
  | .anonymous => []

def positional? (ns : Names) (hint : Hint) : Option String :=
  (ns.positions hint).find? (!ns.isTaken ·)

def temporary (ns : Names) (k : Nat) : String := ns.naming.tempStem ++ toString k

/-- Takes a name for a binding: one that fits its position, else a recycled one, else the next free
temporary. -/
def allocate (ns : Names) (hint : Hint) : String × Names :=
  match ns.positional? hint with
  | some name => (name, ns.reserve name)
  | none =>
    match ns.pool with
    | name :: pool => (name, { ns with pool }.reserve name)
    | [] =>
      let k := ns.nextFree ns.temporary ns.tempCounter
      (ns.temporary k, { ns with tempCounter := k + 1 }.reserve (ns.temporary k))

/-- The default merge names: the stem alone, then the stem followed by 2, 3, and so on. -/
def phiDefault (ns : Names) (k : Nat) : String :=
  if k = 0 then ns.naming.phiStem else ns.naming.phiStem ++ toString (k + 1)

/-- Takes a name for a merged value: the wanted one (or the current default), else that name with
the first free suffix below the retry limit, else the next free default. -/
def allocatePhi (ns : Names) (wanted : Option String) : String × Names :=
  let candidate := wanted.getD (ns.phiDefault ns.phiCounter)
  let suffixed := fun i : Nat => candidate ++ toString i
  let retry := ns.nextFree suffixed 0
  if !ns.isTaken candidate then
    (candidate, { ns with phiCounter := ns.phiCounter + 1 }.reserve candidate)
  else if retry < ns.naming.phiRetries then
    (suffixed retry, { ns with phiCounter := ns.phiCounter + 1 }.reserve (suffixed retry))
  else
    let k := ns.nextFree ns.phiDefault ns.phiCounter
    (ns.phiDefault k, { ns with phiCounter := k + 1 }.reserve (ns.phiDefault k))

end Names

end StraightLine
