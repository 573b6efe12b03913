import StraightLine.Expr

/-! # Schedules

The ordered list of a kernel's statements. A statement keeps its number when others are inserted
before it, so a node can refer to the store that overwrites it. -/
namespace StraightLine

/-- What a statement does with the value on its right. -/
inductive Action where
  /-- Binds a new name. A capture holds the number of the store before which it stands. -/
  | declare (name : String) (captures : Option StatementId)
  /-- Overwrites a place. -/
  | store (target : Phrase)
deriving Repr

structure Statement where
  id : StatementId
  action : Action
  value : Phrase
deriving Repr

namespace Statement

def isDeclaration (s : Statement) : Bool :=
  match s.action with
  | .declare .. => true
  | .store _ => false

def target (s : Statement) : Phrase :=
  match s.action with
  | .declare name _ => .verbatim name
  | .store target => target

/-- The store before which a capture stands. -/
def captures? (s : Statement) : Option StatementId :=
  match s.action with
  | .declare _ captures => captures
  | .store _ => none

end Statement

/-- Statements in order, and the number of the next one. -/
structure Schedule where
  statements : List Statement := []
  nextId : Nat := 0
deriving Repr, Inhabited

namespace Schedule

def push (s : Schedule) (action : Action) (value : Phrase) : StatementId × Schedule :=
  (⟨s.nextId⟩, ⟨s.statements ++ [⟨⟨s.nextId⟩, action, value⟩], s.nextId + 1⟩)

@[simp] theorem statements_push (s : Schedule) (action : Action) (value : Phrase) :
    (s.push action value).2.statements = s.statements ++ [⟨⟨s.nextId⟩, action, value⟩] := rfl

def position? (s : Schedule) (id : StatementId) : Option Nat :=
  s.statements.findIdx? (·.id == id)

def get? (s : Schedule) (id : StatementId) : Option Statement :=
  s.statements.find? (·.id == id)

/-- Binds what a statement's left side held before it: the declaration is inserted right before the
statement. There is no result if the statement is not in the list. -/
def capture? (s : Schedule) (store : StatementId) (name : String) :
    Option (StatementId × Schedule) :=
  match s.statements.dropWhile (·.id != store) with
  | [] => none
  | overwritten :: later =>
    let binding := ⟨⟨s.nextId⟩, .declare name (some store), overwritten.target⟩
    let earlier := s.statements.takeWhile (·.id != store)
    some (⟨s.nextId⟩, ⟨earlier ++ binding :: overwritten :: later, s.nextId + 1⟩)

end Schedule

end StraightLine
