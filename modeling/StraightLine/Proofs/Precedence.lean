import StraightLine.Proofs.Lexemes

/-! # Precedence of operators

`||` binds weaker than `&&`, that weaker than `+` and `-`, and those weaker than `*` and `/`. A
minus sign or a keyword before an operand binds tighter, and an index, a member or a call behind
it tighter still. Operators of one strength are read from left to right. The reader takes one
lexeme after the other and keeps the operators that wait for an operand on a stack. -/
namespace StraightLine.Precedence

inductive UnaryOperator where
  | minus
  | keyword (word : String)
deriving Repr, DecidableEq

inductive BinaryOperator where
  | or
  | and
  | plus
  | minus
  | times
  | divide
deriving Repr, DecidableEq

def UnaryOperator.lexeme : UnaryOperator → Lexeme
  | .minus => .mark "-"
  | .keyword word => .keyword word

namespace BinaryOperator

def symbol : BinaryOperator → String
  | .or => "||"
  | .and => "&&"
  | .plus => "+"
  | .minus => "-"
  | .times => "*"
  | .divide => "/"

def lexeme (op : BinaryOperator) : Lexeme := .mark op.symbol

def level : BinaryOperator → Nat
  | .or => 1
  | .and => 2
  | .plus | .minus => 3
  | .times | .divide => 4

def ofSymbol? : String → Option BinaryOperator
  | "||" => some .or
  | "&&" => some .and
  | "+" => some .plus
  | "-" => some .minus
  | "*" => some .times
  | "/" => some .divide
  | _ => none

theorem ofSymbol?_symbol (op : BinaryOperator) : ofSymbol? op.symbol = some op := by
  cases op <;> rfl

theorem level_le (op : BinaryOperator) : op.level ≤ 4 := by
  cases op <;> decide

end BinaryOperator

inductive Tree where
  | name (text : String)
  | number (value : Nat)
  | slot (base index : Tree)
  | member (receiver : Tree) (suffix : String)
  | call (callee : Tree) (arguments : List Tree)
  | list (items : List Tree)
  | paren (inner : Tree)
  | unary (operator : UnaryOperator) (operand : Tree)
  | binary (left : Tree) (operator : BinaryOperator) (right : Tree)
deriving Repr, Inhabited

def Tree.level : Tree → Nat
  | .binary _ op _ => op.level
  | .unary .. => 5
  | _ => 6

mutual

def Tree.tokens : Tree → List Lexeme
  | .name text => [.name text]
  | .number value => [.number value]
  | .slot base index => base.tokens ++ .mark "[" :: (index.tokens ++ [.mark "]"])
  | .member receiver suffix => receiver.tokens ++ [.member suffix]
  | .call callee arguments =>
    callee.tokens ++ .mark "(" :: (Tree.itemTokens arguments ++ [.mark ")"])
  | .list items => .mark "[" :: (Tree.itemTokens items ++ [.mark "]"])
  | .paren inner => .mark "(" :: (inner.tokens ++ [.mark ")"])
  | .unary op operand => op.lexeme :: operand.tokens
  | .binary left op right => left.tokens ++ op.lexeme :: right.tokens

def Tree.itemTokens : List Tree → List Lexeme
  | [] => []
  | t :: ts => t.tokens ++ Tree.moreTokens ts

def Tree.moreTokens : List Tree → List Lexeme
  | [] => []
  | t :: ts => .mark "," :: (t.tokens ++ Tree.moreTokens ts)

end

mutual

/-- A tree whose operands hold together more tightly than the operators around them; on the left, as
tightly is enough. -/
def Tree.Fits : Tree → Prop
  | .name _ | .number _ => True
  | .slot base index => base.level = 6 ∧ base.Fits ∧ index.Fits
  | .member receiver _ => receiver.level = 6 ∧ receiver.Fits
  | .call callee arguments => callee.level = 6 ∧ callee.Fits ∧ Tree.FitAll arguments
  | .list items => Tree.FitAll items
  | .paren inner => inner.Fits
  | .unary _ operand => 5 ≤ operand.level ∧ operand.Fits
  | .binary left op right => op.level ≤ left.level ∧ op.level < right.level ∧ left.Fits ∧ right.Fits

def Tree.FitAll : List Tree → Prop
  | [] => True
  | t :: ts => t.Fits ∧ Tree.FitAll ts

end

section Reader

inductive Opening where
  | paren
  | call (callee : Tree)
  | index (base : Tree)
  | list

inductive Pending where
  | unary (operator : UnaryOperator)
  | binary (left : Tree) (operator : BinaryOperator)

/-- An open bracket, the trees before the last comma in it, and the operators that wait before
it. -/
structure Frame where
  opening : Opening
  items : List Tree
  before : List Pending

def Pending.level : Pending → Nat
  | .unary _ => 5
  | .binary _ op => op.level

def Pending.complete : Pending → Tree → Tree
  | .unary op, t => .unary op t
  | .binary left op, t => .binary left op t

/-- Completes the latest operators with a tree, as long as they bind at a given level or tighter. -/
def reduce (level : Nat) : List Pending → Tree → List Pending × Tree
  | [], t => ([], t)
  | p :: ps, t => if level ≤ p.level then reduce level ps (p.complete t) else (p :: ps, t)

/-- The state of the reader: what it expects next, and what it has read. -/
inductive Reader where
  | operand (outer : List Frame) (pending : List Pending)
  | operator (outer : List Frame) (pending : List Pending) (last : Tree)

namespace Reader

/-- Takes the end of an operand inside a bracket: a comma or the bracket that closes it. -/
def finish (frame : Frame) (outer : List Frame) (t : Tree) : String → Option Reader
  | "," =>
    match frame.opening with
    | .call _ | .list =>
      some (.operand ({ frame with items := frame.items ++ [t] } :: outer) [])
    | _ => none
  | ")" =>
    match frame.opening, frame.items with
    | .paren, [] => some (.operator outer frame.before (.paren t))
    | .call callee, items => some (.operator outer frame.before (.call callee (items ++ [t])))
    | _, _ => none
  | "]" =>
    match frame.opening, frame.items with
    | .index base, [] => some (.operator outer frame.before (.slot base t))
    | .list, items => some (.operator outer frame.before (.list (items ++ [t])))
    | _, _ => none
  | _ => none

def behind (outer : List Frame) (pending : List Pending) (last : Tree) (text : String) :
    Option Reader :=
  match BinaryOperator.ofSymbol? text with
  | some op =>
    let (waiting, left) := reduce op.level pending last
    some (.operand outer (.binary left op :: waiting))
  | none =>
    if text = "(" then some (.operand (⟨.call last, [], pending⟩ :: outer) [])
    else if text = "[" then some (.operand (⟨.index last, [], pending⟩ :: outer) [])
    else match outer with
      | [] => none
      | frame :: outer => finish frame outer (reduce 0 pending last).2 text

def before (outer : List Frame) (pending : List Pending) : String → Option Reader
  | "-" => some (.operand outer (.unary .minus :: pending))
  | "(" => some (.operand (⟨.paren, [], pending⟩ :: outer) [])
  | "[" => some (.operand (⟨.list, [], pending⟩ :: outer) [])
  | ")" =>
    match outer, pending with
    | ⟨.call callee, [], waiting⟩ :: outer, [] => some (.operator outer waiting (.call callee []))
    | _, _ => none
  | "]" =>
    match outer, pending with
    | ⟨.list, [], waiting⟩ :: outer, [] => some (.operator outer waiting (.list []))
    | _, _ => none
  | _ => none

def step : Reader → Lexeme → Option Reader
  | .operand outer pending, .name text => some (.operator outer pending (.name text))
  | .operand outer pending, .number value => some (.operator outer pending (.number value))
  | .operand outer pending, .keyword word =>
    some (.operand outer (.unary (.keyword word) :: pending))
  | .operand outer pending, .mark text => before outer pending text
  | .operator outer pending last, .member suffix =>
    some (.operator outer pending (.member last suffix))
  | .operator outer pending last, .mark text => behind outer pending last text
  | _, _ => none

def run (reader : Reader) (tokens : List Lexeme) : Option Reader := tokens.foldlM step reader

theorem run_append (reader : Reader) (xs ys : List Lexeme) :
    reader.run (xs ++ ys) = (reader.run xs).bind (·.run ys) := List.foldlM_append

theorem run_cons (reader : Reader) (token : Lexeme) (tokens : List Lexeme) :
    reader.run (token :: tokens) = (reader.step token).bind (·.run tokens) := rfl

theorem run_append_cons (reader : Reader) (xs ys : List Lexeme) (token : Lexeme) :
    reader.run (xs ++ token :: ys) =
      ((reader.run xs).bind (·.step token)).bind (·.run ys) := by
  rw [run_append, Option.bind_assoc]
  rfl

theorem run_snoc (reader : Reader) (tokens : List Lexeme) (token : Lexeme) :
    reader.run (tokens ++ [token]) = (reader.run tokens).bind (·.step token) := by
  rw [run_append_cons]
  exact Option.bind_fun_some _

end Reader

def Tree.read (tokens : List Lexeme) : Option Tree :=
  match (Reader.operand [] []).run tokens with
  | some (.operator [] pending last) => some (reduce 0 pending last).2
  | _ => none

end Reader

/-- Operators that wait leave a tree of a given level alone, as they do not bind it tighter. -/
def Admits (level : Nat) : List Pending → Prop
  | [] => True
  | .unary _ :: _ => 5 ≤ level
  | .binary _ op :: _ => op.level < level

theorem Admits.mono {m n : Nat} {pending : List Pending} (h : Admits m pending) (hmn : m ≤ n) :
    Admits n pending := by
  cases pending with
  | nil => trivial
  | cons p ps => cases p <;> simp only [Admits] at h ⊢ <;> omega

theorem reduce_of_admits {op : BinaryOperator} {pending : List Pending}
    (h : Admits op.level pending) (t : Tree) : reduce op.level pending t = (pending, t) := by
  have hlevel := op.level_le
  cases pending with
  | nil => rfl
  | cons p ps =>
    cases p <;> simp only [Admits] at h <;> rw [reduce, if_neg] <;>
      simp only [Pending.level] <;> omega

theorem Pending.level_lt (p : Pending) : p.level < 6 := by
  cases p with
  | unary op => exact (by decide : 5 < 6)
  | binary left op => exact Nat.lt_of_le_of_lt op.level_le (by decide)

/-- Nothing binds tighter than what stands directly behind an operand. -/
theorem reduce_six (pending : List Pending) (t : Tree) : reduce 6 pending t = (pending, t) := by
  cases pending with
  | nil => rfl
  | cons p ps =>
    have hlevel := p.level_lt
    rw [reduce, if_neg (by omega)]

namespace Reader

/-- The reader has taken a tree: completing waiting operators gives what it would give with the tree
itself. -/
def Took (outer : List Frame) (pending : List Pending) (t : Tree) (reader : Option Reader) : Prop :=
  ∃ waiting last, reader = some (.operator outer waiting last) ∧
    ∀ n ≤ t.level, reduce n waiting last = reduce n pending t

variable {outer : List Frame} {pending : List Pending}

theorem took_self {t : Tree} : Took outer pending t (some (.operator outer pending t)) :=
  ⟨pending, t, rfl, fun _ _ => rfl⟩

theorem Took.eq {t : Tree} {reader : Option Reader} (h : Took outer pending t reader)
    (ht : t.level = 6) : reader = some (.operator outer pending t) := by
  obtain ⟨waiting, last, rfl, hreduce⟩ := h
  have hsix := hreduce 6 (by omega)
  rw [reduce_six, reduce_six, Prod.mk.injEq] at hsix
  rw [hsix.1, hsix.2]

/-- The mark of an operator closes the operators that bind as tightly. -/
theorem step_operator (waiting : List Pending) (last : Tree) (op : BinaryOperator) :
    (Reader.operator outer waiting last).step op.lexeme =
      some (.operand outer (.binary (reduce op.level waiting last).2 op ::
        (reduce op.level waiting last).1)) := by
  simp [step, BinaryOperator.lexeme, behind, op.ofSymbol?_symbol]

theorem step_unary (op : UnaryOperator) :
    (Reader.operand outer pending).step op.lexeme =
      some (.operand outer (.unary op :: pending)) := by
  cases op <;> rfl

/-- A kind of brackets that holds trees with commas between them. -/
structure Bracket where
  opening : Opening
  closing : String
  build : List Tree → Tree
  isMark : BinaryOperator.ofSymbol? closing = none ∧ closing ≠ "(" ∧ closing ≠ "["
  comma : ∀ items waiting outer t, finish ⟨opening, items, waiting⟩ outer t "," =
    some (.operand (⟨opening, items ++ [t], waiting⟩ :: outer) [])
  close : ∀ items waiting outer t, finish ⟨opening, items, waiting⟩ outer t closing =
    some (.operator outer waiting (build (items ++ [t])))

def callBracket (callee : Tree) : Bracket where
  opening := .call callee
  closing := ")"
  build := .call callee
  isMark := by decide
  comma _ _ _ _ := rfl
  close _ _ _ _ := rfl

def listBracket : Bracket where
  opening := .list
  closing := "]"
  build := .list
  isMark := by decide
  comma _ _ _ _ := rfl
  close _ _ _ _ := rfl

/-- The end of an operand inside a bracket. -/
theorem step_finish {frame : Frame} {waiting : List Pending} {last : Tree} {text : String}
    (h : BinaryOperator.ofSymbol? text = none ∧ text ≠ "(" ∧ text ≠ "[") :
    (Reader.operator (frame :: outer) waiting last).step (.mark text) =
      finish frame outer (reduce 0 waiting last).2 text := by
  simp [step, behind, h.1, h.2.1, h.2.2]

theorem Took.finish {frame : Frame} {t : Tree} {reader : Option Reader} {text : String}
    (h : Took (frame :: outer) [] t reader)
    (hmark : BinaryOperator.ofSymbol? text = none ∧ text ≠ "(" ∧ text ≠ "[") :
    reader.bind (·.step (.mark text)) = finish frame outer t text := by
  obtain ⟨waiting, last, rfl, hreduce⟩ := h
  rw [Option.bind_some, step_finish hmark, hreduce 0 (by omega)]
  rfl

/-- What waits before a left operand binds weaker than the operator behind it, so the mark of that
operator completes the left operand only. -/
theorem Took.operator {left : Tree} {reader : Option Reader} {op : BinaryOperator}
    (h : Took outer pending left reader) (hleft : op.level ≤ left.level)
    (hp : Admits op.level pending) :
    reader.bind (·.step op.lexeme) = some (.operand outer (.binary left op :: pending)) := by
  obtain ⟨waiting, last, rfl, hreduce⟩ := h
  have hclosed : reduce op.level waiting last = (pending, left) :=
    (hreduce op.level hleft).trans (reduce_of_admits hp left)
  rw [Option.bind_some, step_operator, hclosed]

/-- An operator takes the operand behind it, if that holds together as tightly. -/
theorem Took.complete {p : Pending} {t : Tree} {reader : Option Reader}
    (h : Took outer (p :: pending) t reader) (ht : p.level ≤ t.level) :
    Took outer pending (p.complete t) reader := by
  have hlevel : (p.complete t).level = p.level := by cases p <;> rfl
  obtain ⟨waiting, last, hreader, hreduce⟩ := h
  refine ⟨waiting, last, hreader, fun n hn => ?_⟩
  rw [hlevel] at hn
  rw [hreduce n (by omega), reduce, if_pos hn]

-- The induction is on the tree. Its invariant compares all levels at which waiting operators may be
-- completed later, since the mark behind a tree is not known while the tree is read.
mutual

/-- The reader takes every tree that fits, unless an operator before it binds tighter. -/
theorem run_tree (outer : List Frame) (pending : List Pending) (t : Tree) (ht : t.Fits)
    (hp : Admits t.level pending) :
    Took outer pending t ((Reader.operand outer pending).run t.tokens) := by
  cases t with
  | name text => exact took_self
  | number value => exact took_self
  | slot base index =>
    obtain ⟨hbase, hfits, hindex⟩ := ht
    have hrun := (run_tree outer pending base hfits (hp.mono hbase.ge)).eq hbase
    have hin := run_tree (⟨.index base, [], pending⟩ :: outer) [] index hindex trivial
    rw [Tree.tokens, run_append, hrun, Option.bind_some, run_cons]
    show Took _ _ _ ((Reader.operand (⟨.index base, [], pending⟩ :: outer) []).run _)
    rw [run_snoc, hin.finish (by decide)]
    exact took_self
  | member receiver suffix =>
    obtain ⟨hreceiver, hfits⟩ := ht
    have hrun := (run_tree outer pending receiver hfits (hp.mono hreceiver.ge)).eq hreceiver
    rw [Tree.tokens, run_append, hrun]
    exact took_self
  | call callee arguments =>
    obtain ⟨hcallee, hfits, hall⟩ := ht
    have hrun := (run_tree outer pending callee hfits (hp.mono hcallee.ge)).eq hcallee
    rw [Tree.tokens, run_append, hrun, Option.bind_some, run_cons]
    show Took _ _ _ ((Reader.operand (⟨.call callee, [], pending⟩ :: outer) []).run _)
    cases arguments with
    | nil => exact took_self
    | cons t ts =>
      have hfirst := run_tree (⟨.call callee, [], pending⟩ :: outer) [] t hall.1 trivial
      have hmore := run_more outer (callBracket callee) pending [] ts hall.2 hfirst
      rw [Tree.itemTokens, List.append_assoc, run_append]
      exact ⟨pending, .call callee (t :: ts), hmore, fun _ _ => rfl⟩
  | list items =>
    rw [Tree.tokens, run_cons]
    show Took _ _ _ ((Reader.operand (⟨.list, [], pending⟩ :: outer) []).run _)
    cases items with
    | nil => exact took_self
    | cons t ts =>
      have hfirst := run_tree (⟨.list, [], pending⟩ :: outer) [] t ht.1 trivial
      have hmore := run_more outer listBracket pending [] ts ht.2 hfirst
      rw [Tree.itemTokens, List.append_assoc, run_append]
      exact ⟨pending, .list (t :: ts), hmore, fun _ _ => rfl⟩
  | paren inner =>
    have hin := run_tree (⟨.paren, [], pending⟩ :: outer) [] inner ht trivial
    rw [Tree.tokens, run_cons]
    show Took _ _ _ ((Reader.operand (⟨.paren, [], pending⟩ :: outer) []).run _)
    rw [run_snoc, hin.finish (by decide)]
    exact took_self
  | unary op operand =>
    obtain ⟨hlevel, hfits⟩ := ht
    have hrun := run_tree outer (.unary op :: pending) operand hfits hlevel
    rw [Tree.tokens, run_cons, step_unary]
    exact hrun.complete hlevel
  | binary left op right =>
    obtain ⟨hleft, hright, hfitsLeft, hfitsRight⟩ := ht
    have hrun := run_tree outer pending left hfitsLeft (Admits.mono hp hleft)
    have hrun' := run_tree outer (.binary left op :: pending) right hfitsRight hright
    rw [Tree.tokens, run_append_cons, hrun.operator hleft hp]
    exact hrun'.complete hright.le

/-- Behind a first tree, trees with commas before them are collected up to the closing bracket. -/
theorem run_more (outer : List Frame) (bracket : Bracket) (pending : List Pending)
    (items : List Tree) (ts : List Tree) (hts : Tree.FitAll ts) {t : Tree} {reader : Option Reader}
    (h : Took (⟨bracket.opening, items, pending⟩ :: outer) [] t reader) :
    reader.bind (·.run (Tree.moreTokens ts ++ [.mark bracket.closing])) =
      some (.operator outer pending (bracket.build (items ++ t :: ts))) := by
  obtain ⟨waiting, last, rfl, hreduce⟩ := h
  have hlast : (reduce 0 waiting last).2 = t := congrArg Prod.snd (hreduce 0 (by omega))
  cases ts with
  | nil =>
    rw [Tree.moreTokens, List.nil_append, Option.bind_some, run_cons, step_finish bracket.isMark,
      bracket.close, hlast]
    rfl
  | cons u us =>
    have hnext := run_tree (⟨bracket.opening, items ++ [t], pending⟩ :: outer) [] u hts.1 trivial
    have hmore := run_more outer bracket pending (items ++ [t]) us hts.2 hnext
    rw [Tree.moreTokens, List.cons_append, Option.bind_some, run_cons, step_finish (by decide),
      bracket.comma, hlast, Option.bind_some, List.append_assoc, run_append, hmore,
      List.append_assoc]
    rfl

end

end Reader

/-- The reader finds every tree that fits in its tokens, so no two of them have the same tokens. -/
theorem Tree.read_tokens {t : Tree} (ht : t.Fits) : Tree.read t.tokens = some t := by
  obtain ⟨waiting, last, hrun, hreduce⟩ := Reader.run_tree [] [] t ht trivial
  simp [Tree.read, hrun, hreduce 0 (by omega), reduce]

example : Tree.read (lexemes "-a.length + b * f(c) && d") =
    some (.binary (.binary (.unary .minus (.member (.name "a") ".length")) .plus
      (.binary (.name "b") .times (.call (.name "f") [.name "c"]))) .and (.name "d")) := rfl

namespace Tree

/-- Puts an operator and an operand that holds together more tightly behind a tree. -/
def insert (t : Tree) (op : BinaryOperator) (u : Tree) : Tree :=
  match t with
  | .binary left above right =>
    if op.level ≤ above.level then .binary (.binary left above right) op u
    else .binary left above (right.insert op u)
  | t => .binary t op u

/-- The tree of two texts with an operator between them. The weakest operators of both sides end up
next to each other. -/
def join (t : Tree) (op : BinaryOperator) : Tree → Tree
  | .binary left above right =>
    if above.level ≤ op.level then (t.join op left).insert above right
    else t.insert op (.binary left above right)
  | u => t.insert op u

def summands : Tree → List Tree
  | .binary left .plus right | .binary left .minus right => left.summands ++ [right]
  | t => [t]

section Joining

@[simp] theorem level_binary (left : Tree) (op : BinaryOperator) (right : Tree) :
    (binary left op right).level = op.level := rfl

/-- Only binary operators are weaker than the operators before an operand. -/
theorem five_le_level {t : Tree} (h : ∀ left op right, t ≠ .binary left op right) :
    5 ≤ t.level := by
  cases t with
  | binary left op right => exact absurd rfl (h left op right)
  | _ => simp [level]

theorem tokens_insert (t : Tree) (op : BinaryOperator) (u : Tree) :
    (t.insert op u).tokens = t.tokens ++ op.lexeme :: u.tokens := by
  fun_induction insert t op u with
  | case1 left above right => rfl
  | case2 left above right hlt ih => simp [tokens, ih]
  | case3 t hother => rfl

theorem level_insert (t : Tree) (op : BinaryOperator) (u : Tree) :
    (t.insert op u).level = min t.level op.level := by
  have hop := op.level_le
  fun_cases insert t op u with
  | case1 left above right hle => simp only [level_binary]; omega
  | case2 left above right hlt => simp only [level_binary]; omega
  | case3 t hother =>
    have hfive := five_le_level hother
    simp only [level_binary]
    omega

theorem fits_insert {t u : Tree} {op : BinaryOperator} (ht : t.Fits) (hu : u.Fits)
    (hlevel : op.level < u.level) : (t.insert op u).Fits := by
  have hop := op.level_le
  fun_induction insert t op u with
  | case1 left above right hle => exact ⟨hle, hlevel, ht, hu⟩
  | case2 left above right hlt ih =>
    obtain ⟨hleft, hright, hfitsLeft, hfitsRight⟩ := ht
    refine ⟨hleft, ?_, hfitsLeft, ih hfitsRight⟩
    rw [level_insert]
    omega
  | case3 t hother =>
    have hfive := five_le_level hother
    exact ⟨by omega, hlevel, ht, hu⟩

theorem tokens_join (t : Tree) (op : BinaryOperator) (u : Tree) :
    (t.join op u).tokens = t.tokens ++ op.lexeme :: u.tokens := by
  fun_induction join t op u with
  | case1 left above right hle ih => simp [tokens_insert, ih, tokens]
  | case2 left above right hlt => exact tokens_insert ..
  | case3 u hother => exact tokens_insert ..

/-- The tree of two texts holds together as the weakest of its parts. -/
theorem level_join (t : Tree) (op : BinaryOperator) {u : Tree} (hu : u.Fits) :
    (t.join op u).level = min (min t.level op.level) u.level := by
  have hop := op.level_le
  fun_induction join t op u with
  | case1 left above right hle ih =>
    obtain ⟨hleft, -, hfits, -⟩ := hu
    rw [level_insert, ih hfits, level_binary]
    omega
  | case2 left above right hlt =>
    rw [level_insert, level_binary]
    omega
  | case3 u hother =>
    have hfive := five_le_level hother
    rw [level_insert]
    omega

theorem fits_join {t u : Tree} (op : BinaryOperator) (ht : t.Fits) (hu : u.Fits) :
    (t.join op u).Fits := by
  have hop := op.level_le
  fun_induction join t op u with
  | case1 left above right hle ih =>
    obtain ⟨-, hright, hfitsLeft, hfitsRight⟩ := hu
    exact fits_insert (ih hfitsLeft) hfitsRight hright
  | case2 left above right hlt => exact fits_insert ht hu (by rw [level_binary]; omega)
  | case3 u hother =>
    have hfive := five_le_level hother
    exact fits_insert ht hu (by omega)

variable {t u : Tree} {op : BinaryOperator}

theorem insert_of_le (h : op.level ≤ t.level) : t.insert op u = .binary t op u := by
  fun_cases insert t op u with
  | case1 left above right hle => rfl
  | case2 left above right hlt => exact absurd h hlt
  | case3 t hother => rfl

/-- Behind a chain, one more term. -/
theorem summands_insert (ht : 3 ≤ t.level) (hop : op.level = 3) :
    (t.insert op u).summands = t.summands ++ [u] := by
  rw [insert_of_le (by omega)]
  cases op with
  | plus | minus => rfl
  | or | and | times | divide => cases hop

/-- Factors are one term. -/
theorem summands_of_four_le (h : 4 ≤ t.level) : t.summands = [t] := by
  fun_cases summands t with
  | case1 left right => exact absurd h (by simp [BinaryOperator.level])
  | case2 left right => exact absurd h (by simp [BinaryOperator.level])
  | case3 t => rfl

/-- If both sides are chains, so is the whole, and it has the terms of both. -/
theorem summands_join (ht : 3 ≤ t.level) (hu : 3 ≤ u.level) (hfits : u.Fits) (hop : op.level = 3) :
    (t.join op u).summands = t.summands ++ u.summands := by
  fun_induction join t op u with
  | case1 left above right hle ih =>
    obtain ⟨hleft, -, hfitsLeft, -⟩ := hfits
    rw [level_binary] at hu
    have hjoin := level_join t op hfitsLeft
    have habove : above.level = 3 := by omega
    rw [summands_insert (by omega) habove, ih (by omega) hfitsLeft]
    cases above with
    | plus | minus => simp [summands]
    | or | and | times | divide => cases habove
  | case2 left above right hlt =>
    have hfour : 4 ≤ (binary left above right).level := by rw [level_binary]; omega
    rw [summands_insert ht hop, summands_of_four_le hfour]
  | case3 u hother =>
    have hfive := five_le_level hother
    rw [summands_insert ht hop, summands_of_four_le (t := u) (by omega)]

/-- What holds together less tightly than a chain has no brackets for a term. -/
theorem three_le_level_of_paren_mem (h : .paren u ∈ t.summands) : 3 ≤ t.level := by
  cases t with
  | binary left above right =>
    cases above with
    | or | and => simp [summands] at h
    | plus | minus | times | divide => simp [BinaryOperator.level]
  | _ => simp [level]

end Joining

end Tree

end StraightLine.Precedence
