import Selectivity.Proofs.ArenaEdits

/-! Walks that only look. Each agrees with the same walk over the expression that a node
stands for, and its bound on steps is no restriction. -/

namespace Selectivity

namespace Expr

def size : Expr → Nat
  | .link _ left right => left.size + right.size + 1
  | .not operand => operand.size + 1
  | .atom _ => 1

theorem size_pos (e : Expr) : 0 < e.size := by cases e <;> simp [size]

def isLink (c : Connective) : Expr → Bool
  | .link d _ _ => d == c
  | _ => false

def isConstant (value : Bool) : Expr → Bool
  | .atom leaf => leaf.isConstant value
  | _ => false

/-- The left operands down a right-linked chain, as `Arena.members` finds them. -/
def members (c : Connective) : Expr → List Expr
  | .link d left right => if d = c then left :: right.members c else [.link d left right]
  | .not operand => [.not operand]
  | .atom leaf => if leaf.isConstant c.unit then [] else [.atom leaf]

end Expr

namespace Arena

variable {a b : Arena} {id : NodeId} {e : Expr}

theorem Stands.get?_isLink (stands : a.Stands id e) : ∃ n, a.get? id = some n ∧ ∀ c, n.isLink c = e.isLink c := by
  cases stands with
  | link found => exact ⟨_, found, fun _ => rfl⟩
  | not found => exact ⟨_, found, fun _ => rfl⟩
  | atom found => exact ⟨_, found, fun _ => rfl⟩

theorem Stands.isLink (stands : a.Stands id e) : ∃ n, a.node id = .ok n ∧ ∀ c, n.isLink c = e.isLink c := by
  obtain ⟨n, found, links⟩ := stands.get?_isLink
  exact ⟨n, node_of_get? found, links⟩

/-- A walk over a node of height `k + 1` takes a step and has `k` left. -/
theorem exists_step {k steps : Nat} (enough : k + 1 ≤ steps) : ∃ rest, steps = rest + 1 ∧ k ≤ rest :=
  ⟨steps - 1, by omega, by omega⟩

private theorem exprAt_eq (stands : a.Stands id e) {steps : Nat} (enough : e.height ≤ steps) :
    a.exprAt steps id = .ok e := by
  induction stands generalizing steps with
  | link found _ _ lefts rights =>
    obtain ⟨steps, rfl, low⟩ := exists_step enough
    obtain ⟨left, right⟩ := Nat.max_le.mp low
    simp only [exprAt, node_of_get? found, ok_bind, ok_pure, lefts left, rights right]
  | not found _ below =>
    obtain ⟨steps, rfl, low⟩ := exists_step enough
    simp only [exprAt, node_of_get? found, ok_bind, ok_pure, below low]
  | atom found =>
    obtain ⟨steps, rfl, _⟩ := exists_step enough
    simp only [exprAt, node_of_get? found, ok_bind, ok_pure]

theorem expr_eq (stands : a.Stands id e) : a.expr id = .ok e :=
  exprAt_eq stands (Nat.le_succ_of_le stands.height_le)

private theorem sizeAt_eq (stands : a.Stands id e) {steps : Nat} (enough : e.height ≤ steps) :
    a.sizeAt steps id = .ok e.size := by
  induction stands generalizing steps with
  | link found _ _ lefts rights =>
    obtain ⟨steps, rfl, low⟩ := exists_step enough
    obtain ⟨left, right⟩ := Nat.max_le.mp low
    simp only [sizeAt, node_of_get? found, ok_bind, ok_pure, lefts left, rights right, Expr.size]
  | not found _ below =>
    obtain ⟨steps, rfl, low⟩ := exists_step enough
    simp only [sizeAt, node_of_get? found, ok_bind, ok_pure, below low, Expr.size]
  | atom found =>
    obtain ⟨steps, rfl, _⟩ := exists_step enough
    simp only [sizeAt, node_of_get? found, ok_bind, ok_pure, Expr.size]

theorem subtreeSize_eq (stands : a.Stands id e) : a.subtreeSize id = .ok e.size :=
  sizeAt_eq stands (Nat.le_succ_of_le stands.height_le)

private theorem membersAt_forest (c : Connective) {s : Finset NodeId} (owns : a.Owns id e s) {steps : Nat}
    (enough : e.height ≤ steps) :
    ∃ ids t, a.membersAt c steps id = .ok ids ∧ a.Forest ids (e.members c) t ∧ t ⊆ s := by
  induction owns generalizing steps with
  | @link id d left right first second s t found lefts rights apart own _ ih =>
    obtain ⟨steps, rfl, low⟩ := exists_step enough
    simp only [membersAt, node_of_get? found, ok_bind, ok_pure, Expr.members]
    split
    next same =>
      obtain ⟨ids, u, walk, forest, within⟩ := ih (Nat.max_le.mp low).2
      simp only [walk, ok_bind]
      refine ⟨_, s ∪ u, rfl, .cons lefts forest (apart.mono_right within), ?_⟩
      exact (Finset.union_subset_union_right within).trans (Finset.subset_insert _ _)
    next => exact ⟨_, _, rfl, (Owns.link found lefts rights apart own).forest, Finset.Subset.refl _⟩
  | not found below own =>
    obtain ⟨steps, rfl, _⟩ := exists_step enough
    simp only [membersAt, node_of_get? found, ok_bind, ok_pure, Expr.members]
    exact ⟨_, _, rfl, (Owns.not found below own).forest, Finset.Subset.refl _⟩
  | @atom id leaf found =>
    obtain ⟨steps, rfl, _⟩ := exists_step enough
    have whole := (Owns.atom found).forest
    simp only [membersAt, node_of_get? found, ok_bind, ok_pure, Expr.members]
    cases leaf with
    | constant value =>
      simp only [Atom.isConstant, beq_iff_eq]
      split
      next => exact ⟨_, _, rfl, .nil, Finset.empty_subset _⟩
      next => exact ⟨_, _, rfl, whole, Finset.Subset.refl _⟩
    | compare op left right => exact ⟨_, _, rfl, whole, Finset.Subset.refl _⟩
    | inList columns rows negated => exact ⟨_, _, rfl, whole, Finset.Subset.refl _⟩

theorem members_forest (c : Connective) {s : Finset NodeId} (owns : a.Owns id e s) :
    ∃ ids t, a.members c id = .ok ids ∧ a.Forest ids (e.members c) t ∧ t ⊆ s :=
  membersAt_forest c owns (Nat.le_succ_of_le owns.stands.height_le)

private theorem membersAt_stands (c : Connective) (stands : a.Stands id e) {steps : Nat} (enough : e.height ≤ steps) :
    ∃ ids, a.membersAt c steps id = .ok ids ∧ List.Forall₂ a.Stands ids (e.members c) := by
  induction stands generalizing steps with
  | @link id d left right first second found lefts rights _ ih =>
    obtain ⟨steps, rfl, low⟩ := exists_step enough
    simp only [membersAt, node_of_get? found, ok_bind, ok_pure, Expr.members]
    split
    next same =>
      obtain ⟨ids, walk, stand⟩ := ih (Nat.max_le.mp low).2
      simp only [walk, ok_bind]
      exact ⟨_, rfl, .cons lefts stand⟩
    next => exact ⟨_, rfl, .cons (.link found lefts rights) .nil⟩
  | not found below =>
    obtain ⟨steps, rfl, _⟩ := exists_step enough
    simp only [membersAt, node_of_get? found, ok_bind, ok_pure, Expr.members]
    exact ⟨_, rfl, .cons (.not found below) .nil⟩
  | @atom id leaf found =>
    obtain ⟨steps, rfl, _⟩ := exists_step enough
    simp only [membersAt, node_of_get? found, ok_bind, ok_pure, Expr.members]
    cases leaf with
    | constant value =>
      simp only [Atom.isConstant, beq_iff_eq]
      split
      next => exact ⟨_, rfl, .nil⟩
      next => exact ⟨_, rfl, .cons (.atom found) .nil⟩
    | compare op left right => exact ⟨_, rfl, .cons (.atom found) .nil⟩
    | inList columns rows negated => exact ⟨_, rfl, .cons (.atom found) .nil⟩

theorem members_stands (c : Connective) (stands : a.Stands id e) :
    ∃ ids, a.members c id = .ok ids ∧ List.Forall₂ a.Stands ids (e.members c) :=
  membersAt_stands c stands (Nat.le_succ_of_le stands.height_le)

theorem mapM_members {ids : List NodeId} {es : List Expr} (c : Connective) (stand : List.Forall₂ a.Stands ids es) :
    ∃ chains, ids.mapM (a.members c) = .ok chains ∧
      List.Forall₂ (List.Forall₂ a.Stands) chains (es.map (Expr.members c)) := by
  induction stand with
  | nil => exact ⟨[], rfl, .nil⟩
  | cons head _ tail =>
    obtain ⟨chain, walk, members⟩ := members_stands c head
    obtain ⟨chains, walks, rest⟩ := tail
    simp only [List.mapM_cons, walk, walks, ok_bind, ok_pure, List.map_cons]
    exact ⟨_, rfl, .cons members rest⟩

/-! ### Copying -/

private theorem copyAt_eq {source : Arena} {look : Arena → NodeId → Except TreeError Node}
    (stands : source.Stands id e) {steps : Nat} (enough : e.height ≤ steps)
    (looks : ∀ c, Keeps a c ∅ → ∀ i n, source.get? i = some n → look c i = .ok n) :
    copyAt look steps id a = .ok (a.addExpr e) := by
  induction stands generalizing a steps with
  | @link _ _ _ _ first _ found _ _ lefts rights =>
    obtain ⟨steps, rfl, low⟩ := exists_step enough
    obtain ⟨left, right⟩ := Nat.max_le.mp low
    have later : ∀ c, Keeps (a.addExpr first).2 c ∅ → ∀ i n, source.get? i = some n → look c i = .ok n := by
      obtain ⟨t, step⟩ := addExpr_replaces a first
      exact fun c keeps => looks c (step.keeps.trans keeps (by simp))
    simp only [copyAt, looks a (.refl a ∅) _ _ found, ok_bind, ok_pure, addExpr, lefts left looks,
      rights right later]
  | not found _ below =>
    obtain ⟨steps, rfl, low⟩ := exists_step enough
    simp only [copyAt, looks a (.refl a ∅) _ _ found, ok_bind, ok_pure, addExpr, below low looks]
  | atom found =>
    obtain ⟨steps, rfl, _⟩ := exists_step enough
    simp only [copyAt, looks a (.refl a ∅) _ _ found, ok_bind, ok_pure, addExpr]

/-- A copy is made as soon as the limit leaves room for it. -/
theorem size_addExpr (a : Arena) (e : Expr) : (a.addExpr e).2.size = a.size + e.size := by
  induction e generalizing a with
  | link c left right lefts rights =>
    simp only [addExpr, size_push, lefts, rights, Expr.size]
    omega
  | not operand below =>
    simp only [addExpr, size_push, below, Expr.size]
    omega
  | atom leaf => exact size_push a _

theorem clone_eq (stands : a.Stands id e) :
    a.clone id = if a.limit < a.size + e.size then .error (.full a.limit) else .ok (a.addExpr e) := by
  have copied : copyAt node a.steps id a = .ok (a.addExpr e) :=
    copyAt_eq stands (Nat.le_succ_of_le stands.height_le)
      (fun c keeps i n found => node_of_get? (keeps.extend i n found))
  simp only [clone, subtreeSize_eq stands, ok_bind, copied]

private theorem addExpr_fields (a : Arena) (root : NodeId) (limit : Nat) (e : Expr) :
    ({ a with root, limit } : Arena).addExpr e =
      ((a.addExpr e).1, { (a.addExpr e).2 with root, limit }) := by
  induction e generalizing a with
  | link c left right lefts rights => simp only [addExpr, lefts, rights, push, Arena.size]
  | not operand below => simp only [addExpr, below, push, Arena.size]
  | atom leaf => rfl

/-- Compacting rebuilds the arena from the expression of its root. -/
theorem compact_eq (stands : a.Stands a.root e) : a.compact = .ok { ofExpr e with limit := a.limit } := by
  have copied : copyAt (fun _ => a.node) a.steps a.root { a with nodes := #[] } =
      .ok (({ a with nodes := #[] } : Arena).addExpr e) :=
    copyAt_eq stands (Nat.le_succ_of_le stands.height_le) (fun _ _ _ _ found => node_of_get? found)
  simp only [compact, copied, ok_bind, ok_pure, ofExpr]
  rw [addExpr_fields { nodes := #[], root := 0, limit := defaultLimit } a.root a.limit e]

end Arena
end Selectivity
