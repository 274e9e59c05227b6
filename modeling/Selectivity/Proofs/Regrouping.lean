import Selectivity.Proofs.StageFixpoints

/-! Building chains forgets how a group was put together. However its operands are bracketed, and
wherever neutral constants stand between them, the chains are the same. The leaves keep their
order, and chains built once more are the chains that were there. -/

namespace Selectivity

namespace Expr

/-- The same groups of operands, bracketed otherwise and with neutral constants added or left out
anywhere inside. A constant is added to groups that are there already: it makes no group
of an expression that is none. -/
inductive Regrouped : Expr → Expr → Prop
  | refl (e) : Regrouped e e
  | symm {e f} (same : Regrouped e f) : Regrouped f e
  | trans {e f g} (first : Regrouped e f) (second : Regrouped f g) : Regrouped e g
  | link {e e' f f'} (c) (lefts : Regrouped e e') (rights : Regrouped f f') : Regrouped (.link c e f) (.link c e' f')
  | not {e f} (below : Regrouped e f) : Regrouped (.not e) (.not f)
  | assoc (c e f g) : Regrouped (.link c (.link c e f) g) (.link c e (.link c f g))
  | unitFirst {c e} (group : e.isLink c = true) : Regrouped (.link c (constant c.unit) e) e
  | unitLast {c e} (group : e.isLink c = true) : Regrouped (.link c e (constant c.unit)) e
  | unitBetween (c e f) : Regrouped (.link c e (.link c (constant c.unit) f)) (.link c e f)

variable {c d : Connective} {e f : Expr} {es : List Expr}

/-- The predicates in an expression, from the left to the right. -/
def leaves : Expr → List Atom
  | .link _ left right => left.leaves ++ right.leaves
  | .not operand => operand.leaves
  | .atom (.constant _) => []
  | .atom leaf => [leaf]

/-- A group of nothing but neutral constants. -/
def Neutral (c : Connective) : Expr → Prop
  | .link d left right => d = c ∧ left.Neutral c ∧ right.Neutral c
  | .not _ => False
  | .atom leaf => leaf = .constant c.unit

/-! ### One group, one chain -/

theorem operands_unit (c : Connective) : (constant c.unit).operands c = [] := if_pos (beq_self_eq_true c.unit)

theorem operands_group (c : Connective) (e f : Expr) : (link c e f).operands c = e.operands c ++ f.operands c :=
  if_pos rfl

private theorem link_eq_of_group {e' f' : Expr}
    (same : e.operands c ++ f.operands c = e'.operands c ++ f'.operands c) :
    (∀ d, (link c e f).operands d = (link c e' f').operands d) ∧ (link c e f).chained = (link c e' f').chained := by
  have rebuilt : (link c e f).chained = (link c e' f').chained := congrArg (chain c) same
  refine ⟨fun d => ?_, rebuilt⟩
  rw [operands, operands]
  split
  next own => exact own ▸ same
  next => exact congrArg ([·]) rebuilt

theorem Regrouped.operands_and_chained_eq (same : e.Regrouped f) :
    (∀ c, e.operands c = f.operands c) ∧ e.chained = f.chained := by
  induction same with
  | refl e => exact ⟨fun _ => rfl, rfl⟩
  | symm _ ih => exact ⟨fun c => (ih.1 c).symm, ih.2.symm⟩
  | trans _ _ first second => exact ⟨fun c => (first.1 c).trans (second.1 c), first.2.trans second.2⟩
  | link c _ _ lefts rights =>
    apply link_eq_of_group
    rw [lefts.1, rights.1]
  | not _ ih => exact ⟨fun c => by rw [operands, operands, ih.2], by rw [chained, chained, ih.2]⟩
  | assoc c e f g =>
    apply link_eq_of_group
    rw [operands_group, operands_group, List.append_assoc]
  | unitFirst group =>
    obtain ⟨_, _, rfl⟩ := eq_link_of_isLink group
    apply link_eq_of_group
    rw [operands_unit, operands_group, List.nil_append]
  | unitLast group =>
    obtain ⟨_, _, rfl⟩ := eq_link_of_isLink group
    apply link_eq_of_group
    rw [operands_unit, operands_group, List.append_nil]
  | unitBetween c e f =>
    apply link_eq_of_group
    rw [operands_group, operands_unit, List.nil_append]

theorem Regrouped.rootChained_eq (same : e.Regrouped f) : e.rootChained = f.rootChained := by
  simp only [rootChained, same.operands_and_chained_eq.1]

/-! ### Leaves -/

theorem chain_leaves (c : Connective) (es : List Expr) : (chain c es).leaves = es.flatMap leaves := by
  induction es with
  | nil => rfl
  | cons e es ih => exact congrArg (e.leaves ++ ·) ih

private theorem leaf_leaves {leaf : Atom} {value : Bool} (neutral : leaf.isConstant value = true) :
    (atom leaf).leaves = [] := by
  cases leaf with
  | constant => rfl
  | compare => cases neutral
  | inList => cases neutral

theorem operands_and_chained_leaves (e : Expr) :
    (∀ c, (e.operands c).flatMap leaves = e.leaves) ∧ e.chained.leaves = e.leaves := by
  induction e with
  | link d left right lefts rights =>
    have group : (left.operands d ++ right.operands d).flatMap leaves = (link d left right).leaves := by
      rw [List.flatMap_append, lefts.1, rights.1, leaves]
    have chained : (chain d (left.operands d ++ right.operands d)).leaves = (link d left right).leaves :=
      (chain_leaves d _).trans group
    refine ⟨fun c => ?_, chained⟩
    rw [operands]
    split
    next same => exact same ▸ group
    next => rw [List.flatMap_singleton, chained]
  | not operand ih => exact ⟨fun c => (List.flatMap_singleton _ _).trans ih.2, ih.2⟩
  | atom leaf =>
    refine ⟨fun c => ?_, rfl⟩
    rw [operands]
    split
    next neutral => exact (leaf_leaves neutral).symm
    next => exact List.flatMap_singleton _ _

theorem rootChained_leaves (e : Expr) : e.rootChained.leaves = e.leaves := by
  have group := e.operands_and_chained_leaves.1 .and
  by_cases none : e.operands .and = []
  · rw [rootChained_of_nil none, ← group, none]
    rfl
  · rw [rootChained_eq_chain none, chain_leaves, group]

/-! ### Chains built once more -/

/-- What is an operand of a group stays one when the chains are built again. -/
def Settled (c : Connective) (e : Expr) : Prop := e.operands c = [e]

theorem operands_chain_settled (settled : ∀ e ∈ es, e.Settled c) : (chain c es).operands c = es :=
  (operands_chain c es).trans ((List.flatMap_congr settled).trans (List.flatMap_singleton' es))

theorem chain_chained (settled : ∀ e ∈ es, e.Settled c) : (chain c es).chained = chain c es := by
  cases es with
  | nil => rfl
  | cons e es =>
    have group := operands_chain_settled settled
    exact congrArg (chain c) ((operands_group c e (chain c es)).symm.trans group)

theorem chain_settled (different : c ≠ d) (settled : ∀ e ∈ es, e.Settled c) : (chain c es).Settled d := by
  cases es with
  | nil =>
    have other : (Atom.constant c.unit).isConstant d.unit = false := chain_isConstant_ne different []
    exact if_neg (Bool.eq_false_iff.mp other)
  | cons e es =>
    have again := chain_chained settled
    exact (if_neg different).trans (congrArg ([·]) again)

theorem operands_settled_and_chained_chained (e : Expr) :
    (∀ c, ∀ f ∈ e.operands c, f.Settled c) ∧ e.chained.chained = e.chained := by
  induction e with
  | link d left right lefts rights =>
    have group : ∀ f ∈ left.operands d ++ right.operands d, f.Settled d :=
      List.forall_mem_append.mpr ⟨lefts.1 d, rights.1 d⟩
    refine ⟨fun c => ?_, chain_chained group⟩
    rw [operands]
    split
    next same => exact same ▸ group
    next different => exact List.forall_mem_singleton.mpr (chain_settled different group)
  | not operand ih =>
    refine ⟨fun c => List.forall_mem_singleton.mpr ?_, congrArg Expr.not ih.2⟩
    exact congrArg (fun below => [Expr.not below]) ih.2
  | atom leaf =>
    refine ⟨fun c => ?_, rfl⟩
    rw [operands]
    split
    next => exact fun f none => (List.not_mem_nil none).elim
    next some => exact List.forall_mem_singleton.mpr (if_neg some)

theorem rootChained_idempotent (e : Expr) : e.rootChained.rootChained = e.rootChained := by
  by_cases none : e.operands .and = []
  · rw [rootChained_of_nil none]
    rfl
  · have group := operands_chain_settled (e.operands_settled_and_chained_chained.1 .and)
    rw [rootChained_eq_chain none, rootChained_eq_chain (by rwa [group]), group]

/-! ### Groups without operands -/

theorem operands_eq_nil_iff (c : Connective) (e : Expr) : e.operands c = [] ↔ e.Neutral c := by
  induction e with
  | link d left right lefts rights =>
    rw [operands, Neutral]
    split
    next same => subst same; rw [List.append_eq_nil_iff, lefts, rights, eq_self, true_and]
    next different => simp [different]
  | not operand => simp [operands, Neutral]
  | atom leaf =>
    rw [operands, Neutral]
    cases leaf <;> simp [Atom.isConstant]

end Expr

/-- Expressions that differ in how their groups are put together become one expression. It has
their leaves in their order, no neutral constant stands before an operand in it unless
nothing but neutral constants was there, and the stage has nothing left to do on it. -/
theorem Stage.apply_chain_regrouped {e f : Expr} (same : e.Regrouped f) (limit limit' : Nat) :
    ∃ a b c g, chain.apply { Arena.ofExpr e with limit } = .ok a ∧
      chain.apply { Arena.ofExpr f with limit := limit' } = .ok b ∧ chain.apply a = .ok c ∧
      a.rootExpr = .ok g ∧ b.rootExpr = .ok g ∧ c.rootExpr = .ok g ∧ g.leaves = e.leaves ∧
      (e.Neutral .and ∧ g = .link .and (.constant true) (.constant true) ∨ ¬ e.Neutral .and ∧ g.Clean) := by
  obtain ⟨a, run, chained, _⟩ := Arena.chained_holds ((Arena.ofExpr_holds e).limited limit)
  obtain ⟨b, run', chained', _⟩ := Arena.chained_holds ((Arena.ofExpr_holds f).limited limit')
  obtain ⟨c, again, twice, _⟩ := Arena.chained_holds chained
  rw [← same.rootChained_eq] at chained'
  rw [e.rootChained_idempotent] at twice
  refine ⟨a, b, c, e.rootChained, run, run', again, Arena.expr_eq chained.stands, Arena.expr_eq chained'.stands,
    Arena.expr_eq twice.stands, e.rootChained_leaves, ?_⟩
  rw [← Expr.operands_eq_nil_iff]
  by_cases none : e.operands .and = []
  · exact .inl ⟨none, Expr.rootChained_of_nil none⟩
  · rw [Expr.rootChained_eq_chain none]
    exact .inr ⟨none, Expr.chain_clean (e.operands_and_chained_clean.1 .and)⟩

/-- `(x AND TRUE) AND NOT ((FALSE OR y) OR z)` is `x AND NOT (y OR z)`. -/
theorem Stage.apply_chain_regrouped_nested :
    let leaf (i : Int64) : Expr := .atom (.compare .isNull (.literal (.int i)) none)
    let scattered : Expr := .link .and (.link .and (leaf 0) (.constant true))
      (.not (.link .or (.link .or (.constant false) (leaf 1)) (leaf 2)))
    let plain : Expr := .link .and (leaf 0) (.not (.link .or (leaf 1) (leaf 2)))
    scattered.Regrouped plain ∧ ∃ a b g, chain.apply { Arena.ofExpr scattered with limit := 9 } = .ok a ∧
      chain.apply { Arena.ofExpr plain with limit := 5 } = .ok b ∧ a.rootExpr = .ok g ∧ b.rootExpr = .ok g ∧
      g.leaves = plain.leaves ∧ g.Clean := by
  intro leaf scattered plain
  have disjunction : Expr.Regrouped (.link .or (.link .or (.constant false) (leaf 1)) (leaf 2))
      (.link .or (leaf 1) (leaf 2)) := .trans (.assoc .or _ _ _) (.unitFirst rfl)
  have same : scattered.Regrouped plain :=
    .trans (.assoc .and _ _ _) (.trans (.unitBetween .and _ _) (.link .and (.refl _) (.not disjunction)))
  obtain ⟨a, b, _, g, run, run', _, read, read', _, leaves, shape⟩ := apply_chain_regrouped same 9 5
  refine ⟨same, a, b, g, run, run', read, read', leaves, ?_⟩
  rcases shape with ⟨⟨_, _, negation⟩, _⟩ | ⟨_, clean⟩
  · exact negation.elim
  · exact clean

end Selectivity
