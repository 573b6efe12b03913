import Mathlib.Data.List.Count
import Mathlib.Data.List.Flatten
import StraightLine.Proofs.DeclaredNames
import StraightLine.Proofs.TotalRendering

/-! # Written out nodes

Which nodes are written out in an expression, and how often. A node is written out where an operation
above it is, once per operand, so in a graph of operations the number of its copies is at most the
number of operands that name it, counted over all copies of the operations above. -/
namespace StraightLine

mutual

/-- The nodes that are written out in an expression, each as often as it is. -/
def Expr.expansions : Expr → List NodeId
  | .name _ _ => []
  | .slot base _ => base.expansions
  | .list items => Expr.expansionsOf items
  | .apply node _ first rest => node :: (first.expansions ++ Expr.expansionsOf rest)

def Expr.expansionsOf : List Expr → List NodeId
  | [] => []
  | e :: es => e.expansions ++ Expr.expansionsOf es

end

theorem Expr.expansionsOf_eq (es : List Expr) :
    Expr.expansionsOf es = (es.map Expr.expansions).flatten := by
  induction es with
  | nil => rfl
  | cons e es ih => rw [Expr.expansionsOf, ih, List.map_cons, List.flatten_cons]

def Phrase.expansions : Phrase → List NodeId
  | .verbatim _ => []
  | .expr e _ => e.expansions
  | .choice left _ right success failure =>
    left.expansions ++ right.expansions ++ success.expansions ++ failure.expansions

def Statement.expansions (st : Statement) : List NodeId :=
  st.target.expansions ++ st.value.expansions

theorem forall₂_of_mapM_eq_some {α β : Type} {f : α → Option β} {xs : List α} {ys : List β}
    (h : xs.mapM f = some ys) : List.Forall₂ (fun x y => f x = some y) xs ys := by
  induction xs generalizing ys with
  | nil =>
    cases h
    exact .nil
  | cons x xs ih =>
    simp only [List.mapM_cons, Option.bind_eq_bind, Option.bind_eq_some_iff] at h
    obtain ⟨y, hy, zs, hzs, heq⟩ := h
    cases heq
    exact .cons hy (ih hzs)

section Counting

variable {α β : Type} [BEq β] [LawfulBEq β] {f : α → List β} {b : β}

theorem count_flatMap_filter (xs : List α) :
    ((xs.filter fun x => (f x).contains b).flatMap f).count b = (xs.flatMap f).count b := by
  induction xs with
  | nil => rfl
  | cons x xs ih =>
    rw [List.flatMap_cons, List.count_append, ← ih]
    by_cases hx : b ∈ f x
    · rw [List.filter_cons_of_pos (by simpa using hx), List.flatMap_cons, List.count_append]
    · rw [List.filter_cons_of_neg (by simpa using hx), List.count_eq_zero.2 hx, Nat.zero_add]

/-- Occurrences in what elements stand for, where no element with such an occurrence is more frequent in
the first list. -/
theorem count_flatMap_le [BEq α] [LawfulBEq α] {xs ys : List α}
    (h : ∀ x ∈ xs, b ∈ f x → xs.count x ≤ ys.count x) :
    (xs.flatMap f).count b ≤ (ys.flatMap f).count b := by
  rw [← count_flatMap_filter xs]
  have hsubperm : (xs.filter fun x => (f x).contains b).Subperm ys := by
    refine List.subperm_ext_iff.2 fun x hx => ?_
    obtain ⟨hmem, hcontains⟩ := List.mem_filter.1 hx
    rw [List.count_filter (p := fun x => (f x).contains b) hcontains]
    exact h x hmem (by simpa using hcontains)
  obtain ⟨zs, hperm, hsub⟩ := hsubperm
  calc ((xs.filter fun x => (f x).contains b).flatMap f).count b
      = (zs.flatMap f).count b := ((hperm.flatMap_right f).count_eq b).symm
    _ ≤ (ys.flatMap f).count b := (hsub.flatMap f).count_le b

end Counting

namespace Arena

variable {a b : Arena} {id n : NodeId} {nodes : List NodeId}

def operands (a : Arena) (id : NodeId) : List NodeId :=
  match a.kind? id with
  | some (.apply _ operands) => operands
  | _ => []

def Plain (a : Arena) : Prop :=
  ∀ id kind, a.kind? id = some kind → kind = .scalar ∨ ∃ operation operands,
    kind = .apply operation operands

/-- Operations, of which each occurs at most as often as a given node and the operands of the operations
demand. -/
structure Demanded (a : Arena) (id : NodeId) (nodes : List NodeId) : Prop where
  operations : ∀ m ∈ nodes, ∃ operation operands, a.kind? m = some (.apply operation operands)
  count_le : ∀ n, nodes.count n ≤ [id].count n + (nodes.flatMap a.operands).count n

structure WritesOut (a : Arena) (id : NodeId) (nodes : List NodeId) : Prop extends
    a.Demanded id nodes where
  unnamed : ∀ m ∈ nodes, ∀ name, a.standing? m ≠ some (.named name)
  head : (∀ name, a.standing? id ≠ some (.named name)) → nodes.head? = some id

theorem Demanded.extends (h : a.Demanded id nodes) (hext : a.Extends b) : b.Demanded id nodes where
  operations m hm := by
    obtain ⟨operation, operands, hk⟩ := h.operations m hm
    exact ⟨operation, operands, hext.kind? hk⟩
  count_le n := by
    have hsame : nodes.flatMap b.operands = nodes.flatMap a.operands := by
      refine List.flatMap_congr fun m hm => ?_
      obtain ⟨operation, operands, hk⟩ := h.operations m hm
      rw [Arena.operands, Arena.operands, hext.kind? hk, hk]
    rw [hsame]
    exact h.count_le n

/-- Several nodes are written out. -/
theorem count_flatten_le {roots : List NodeId} {lists : List (List NodeId)}
    (h : List.Forall₂ a.Demanded roots lists) (n : NodeId) :
    lists.flatten.count n ≤ roots.count n + (lists.flatten.flatMap a.operands).count n := by
  induction h with
  | nil => simp
  | @cons root nodes roots lists hfirst _ ih =>
    have hhead := hfirst.count_le n
    rw [List.flatten_cons, List.count_append, List.flatMap_append, List.count_append,
      List.count_cons]
    rw [List.count_singleton] at hhead
    omega

/-- Nodes are written out at most once each, if each is or has at most one place to be written out at.
Only operations behind a node have it as an operand. -/
theorem WellFormed.count_le_one (ha : a.WellFormed) {roots : List NodeId}
    {lists : List (List NodeId)} (hall : List.Forall₂ a.Demanded roots lists)
    (h : ∀ n ∈ lists.flatten, lists.flatten.count n ≤ 1 ∨
      roots.count n + (a.ids.flatMap a.operands).count n ≤ 1) (n : NodeId) :
    lists.flatten.count n ≤ 1 := by
  induction hi : a.size - n.index using Nat.strongRecOn generalizing n with
  | ind i ih =>
    by_cases hmem : n ∈ lists.flatten
    · rcases h n hmem with hone | hplaces
      · exact hone
      · have hbelow : (lists.flatten.flatMap a.operands).count n ≤
            (a.ids.flatMap a.operands).count n := by
          refine count_flatMap_le fun m hm hn => ?_
          obtain ⟨nodes, hnodes, hm⟩ := List.mem_flatten.1 hm
          obtain ⟨root, -, hroot⟩ := exists_of_mem_right hall hnodes
          obtain ⟨operation, operands, hk⟩ := hroot.operations m hm
          obtain ⟨node, hget, hkind⟩ := exists_of_kind? hk
          rw [Arena.operands, hk] at hn
          have hlt := (ha m node hget).operands ⟨.apply, operation, operands⟩
            (by rw [hkind]; rfl) n hn
          have hsize := index_lt_of_get? hget
          have hone := ih (a.size - m.index) (by omega) m rfl
          have hknown := List.one_le_count_iff.2 (mem_ids hget)
          omega
        have hcount := count_flatten_le hall n
        omega
    · rw [List.count_eq_zero.2 hmem]
      omega

/-- An operation is written out once, and its operands are written out below it. -/
theorem Demanded.apply {operation : String} {operands : List NodeId} {lists : List (List NodeId)}
    (hk : a.kind? id = some (.apply operation operands))
    (h : List.Forall₂ a.Demanded operands lists) : a.Demanded id (id :: lists.flatten) where
  operations m hm := by
    rcases List.mem_cons.1 hm with rfl | hm
    · exact ⟨operation, operands, hk⟩
    · obtain ⟨nodes, hnodes, hm⟩ := List.mem_flatten.1 hm
      obtain ⟨o, -, ho⟩ := exists_of_mem_right h hnodes
      exact ho.operations m hm
  count_le n := by
    have hbelow := count_flatten_le h n
    have hoperands : a.operands id = operands := by rw [Arena.operands, hk]
    rw [List.flatMap_cons, List.count_append, hoperands, List.count_cons, List.count_singleton]
    omega

theorem WritesOut.apply {operation : String} {operands : List NodeId} {lists : List (List NodeId)}
    (hk : a.kind? id = some (.apply operation operands))
    (hfree : ∀ name, a.standing? id ≠ some (.named name))
    (h : List.Forall₂ a.WritesOut operands lists) : a.WritesOut id (id :: lists.flatten) where
  toDemanded := .apply hk (h.imp fun _ _ ho => ho.toDemanded)
  unnamed m hm := by
    rcases List.mem_cons.1 hm with rfl | hm
    · exact hfree
    · obtain ⟨nodes, hnodes, hm⟩ := List.mem_flatten.1 hm
      obtain ⟨o, -, ho⟩ := exists_of_mem_right h hnodes
      exact ho.unnamed m hm
  head _ := rfl

/-- An expression of a graph of operations, at any nesting. -/
theorem writesOut_of_exprWithin (ha : a.Plain) {depth : Nat} {e : Expr}
    (h : a.exprWithin depth id = some e) : a.WritesOut id e.expansions := by
  -- the cases of `Carried` do not tell that what is written out has no name
  induction depth generalizing id e with
  | zero => cases h
  | succ depth ih =>
    rw [exprWithin_succ] at h
    unfold exprFrom at h
    cases hn : a.get? id with
    | none =>
      rw [hn] at h
      cases h
    | some node =>
      have hk := kind?_of_get? hn
      have hs := standing?_of_get? hn
      rw [hn] at h
      obtain ⟨kind, standing, aliasable, uses⟩ := node
      cases standing with
      | named text =>
        cases h
        exact ⟨⟨by simp [Expr.expansions], by simp [Expr.expansions]⟩, by simp [Expr.expansions],
          fun hfree => absurd hs (hfree text)⟩
      | inline | stored store =>
        rcases ha id kind hk with rfl | ⟨operation, operands, rfl⟩
        · cases h
        · cases operands with
          | nil => cases h
          | cons first rest =>
            simp only [Option.bind_eq_bind, Option.bind_some, Option.bind_eq_some_iff] at h
            obtain ⟨head, hhead, es, hes, he⟩ := h
            cases he
            have hall : List.Forall₂ (fun o e => a.WritesOut o e.expansions) (first :: rest)
                (head :: es) := .cons (ih hhead) ((forall₂_of_mapM_eq_some hes).imp fun _ _ => ih)
            have hfree : ∀ name, a.standing? id ≠ some (.named name) := by simp [hs]
            simpa [Expr.expansions, Expr.expansionsOf_eq] using
              WritesOut.apply hk hfree (List.forall₂_map_right_iff.2 hall)

end Arena

end StraightLine
