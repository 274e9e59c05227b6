import Selectivity.Normalize.Chain
import Selectivity.Proofs.ArenaReading

/-! What building chains does to the expression of a tree. -/

namespace Selectivity

namespace Expr

mutual
/-- The operands of a group, each in chain form, without neutral constants. -/
def operands (c : Connective) : Expr → List Expr
  | .link d left right =>
    if d = c then left.operands c ++ right.operands c else [chain d (left.operands d ++ right.operands d)]
  | .not operand => [.not operand.chained]
  | .atom leaf => if leaf.isConstant c.unit then [] else [.atom leaf]

def chained : Expr → Expr
  | .link c left right => chain c (left.operands c ++ right.operands c)
  | .not operand => .not operand.chained
  | .atom leaf => .atom leaf
end

def rootChained (e : Expr) : Expr :=
  match e.operands .and with
  | [] => .link .and (constant true) (constant true)
  | operands => chain .and operands

end Expr

namespace Arena

variable {a : Arena} {e : Expr}

private def Grouped (e : Expr) : Prop :=
  ∀ {a : Arena} {id : NodeId} {s : Finset NodeId}, a.Owns id e s → ∀ (c : Connective) (steps : Nat),
    3 * e.height ≤ steps → ∃ ids b t, groupOperands c steps id a = .ok (ids, b) ∧
      Replaces a s b ids (e.operands c) t

private def Chained (e : Expr) : Prop :=
  ∀ {a : Arena} {id : NodeId} {s : Finset NodeId}, a.Owns id e s → ∀ (steps : Nat),
    3 * e.height ≤ steps + 1 → ∃ root b t, toChain steps id a = .ok (root, b) ∧
      Replaces a s b [root] [e.chained] t

/-- From one node to the operands below it the two walks take up to three steps, the
first two of them at the node itself. -/
private theorem grouped_link {c : Connective} {first second : Expr} (lefts : Grouped first)
    (rights : Grouped second) {id : NodeId} {s : Finset NodeId} (owns : a.Owns id (.link c first second) s)
    (steps : Nat) (enough : 3 * (Expr.link c first second).height ≤ steps + 2) :
    ∃ ids b t, groupOperands c steps id a = .ok (ids, b) ∧
      Replaces a s b ids (first.operands c ++ second.operands c) t := by
  cases owns with
  | link found left right apart own =>
    simp only [Expr.height] at enough
    obtain ⟨steps, rfl⟩ := Nat.exists_eq_add_one.mpr (show 0 < steps by omega)
    obtain ⟨ids, b, u, runLeft, stepLeft⟩ := lefts left c steps (by omega)
    obtain ⟨more, d, v, runRight, stepRight⟩ :=
      rights (right.frame stepLeft.keeps apart.symm) c steps (by omega)
    simp only [groupOperands, Edit.bind_run, Edit.fetch_run found, ok_bind, if_true, runLeft, runRight,
      Edit.pure_run]
    exact ⟨_, _, _, rfl, (stepLeft.append stepRight apart right.lt_size).mono (Finset.subset_insert _ _)⟩

private theorem grouped_and_chained (e : Expr) : Grouped e ∧ Chained e := by
  induction e with
  | link c first second lefts rights =>
    have chained : Chained (.link c first second) := by
      intro a id s owns steps enough
      have low : 2 ≤ (Expr.link c first second).height :=
        Nat.succ_le_succ (Nat.le_trans first.height_pos (Nat.le_max_left _ _))
      obtain ⟨steps, rfl⟩ := Nat.exists_eq_add_one.mpr (show 0 < steps by omega)
      obtain ⟨ids, b, t, run, step⟩ := grouped_link lefts.1 rights.1 owns steps (by omega)
      obtain ⟨u, built⟩ := step.forest.chain c
      cases owns with
      | link found =>
        simp only [toChain, Edit.bind_run, Edit.fetch_run found, ok_bind, run, Edit.appendChain_run]
        exact ⟨_, _, _, rfl, step.trans built⟩
    refine ⟨?_, chained⟩
    intro a id s owns d steps enough
    by_cases same : c = d
    · subst same
      simp only [Expr.operands, if_true]
      exact grouped_link lefts.1 rights.1 owns _ (by omega)
    · have positive := (Expr.link c first second).height_pos
      obtain ⟨steps, rfl⟩ := Nat.exists_eq_add_one.mpr (show 0 < steps by omega)
      obtain ⟨root, b, t, run, step⟩ := chained owns steps (by omega)
      cases owns with
      | link found =>
        simp only [groupOperands, Edit.bind_run, Edit.fetch_run found, ok_bind, if_neg same, run, Edit.pure_run,
          Expr.operands]
        exact ⟨_, _, _, rfl, step⟩
  | not operand below =>
    have chained : Chained (.not operand) := by
      intro a id s owns steps enough
      cases owns with
      | not found inner own =>
        simp only [Expr.height] at enough
        obtain ⟨steps, rfl⟩ := Nat.exists_eq_add_one.mpr (show 0 < steps by omega)
        obtain ⟨root, b, t, run, step⟩ := below.2 inner steps (by omega)
        simp only [toChain, Edit.bind_run, Edit.fetch_run found, ok_bind, run, Edit.store_run, Edit.pure_run]
        exact ⟨_, _, _, rfl, step.setNot (lt_size_of_get? found) own⟩
    refine ⟨?_, chained⟩
    intro a id s owns c steps enough
    have positive := (Expr.not operand).height_pos
    obtain ⟨steps, rfl⟩ := Nat.exists_eq_add_one.mpr (show 0 < steps by omega)
    obtain ⟨root, b, t, run, step⟩ := chained owns steps (by omega)
    cases owns with
    | not found =>
      simp only [groupOperands, Edit.bind_run, Edit.fetch_run found, ok_bind, run, Edit.pure_run]
      exact ⟨_, _, _, rfl, step⟩
  | atom leaf =>
    constructor
    · intro a id s owns c steps enough
      have positive := (Expr.atom leaf).height_pos
      obtain ⟨steps, rfl⟩ := Nat.exists_eq_add_one.mpr (show 0 < steps by omega)
      cases owns with
      | atom found =>
        simp only [groupOperands, Edit.bind_run, Edit.fetch_run found, ok_bind, Edit.pure_run, Expr.operands]
        split
        next => exact ⟨_, _, _, rfl, .nil (.refl _ _)⟩
        next => exact ⟨_, _, _, rfl, .refl (Owns.atom found).forest⟩
    · intro a id s owns steps enough
      have positive := (Expr.atom leaf).height_pos
      obtain ⟨steps, rfl⟩ := Nat.exists_eq_add_one.mpr (show 0 < steps by omega)
      cases owns with
      | atom found =>
        simp only [toChain, Edit.bind_run, Edit.fetch_run found, ok_bind, Edit.pure_run]
        exact ⟨_, _, _, rfl, .refl (Owns.atom found).forest⟩

private theorem rootChain_replaces {id : NodeId} {s : Finset NodeId} (owns : a.Owns id e s) (steps : Nat)
    (enough : 3 * e.height ≤ steps) :
    ∃ root b t, rootChain steps id a = .ok (root, b) ∧ Replaces a s b [root] [e.rootChained] t := by
  obtain ⟨ids, b, t, run, step⟩ := (grouped_and_chained e).1 owns .and steps enough
  simp only [rootChain, Edit.bind_run, run, ok_bind, Expr.rootChained]
  cases operands : e.operands .and with
  | nil =>
    rw [operands] at step
    cases step.forest
    have first := Replaces.pushAtom (.constant true) step.keeps
    obtain ⟨u, built⟩ := first.forest.chain .and
    exact ⟨_, _, _, rfl, first.trans built⟩
  | cons first rest =>
    rw [operands] at step
    cases step.forest
    obtain ⟨u, built⟩ := step.forest.chain .and
    exact ⟨_, _, _, rfl, step.trans built⟩

theorem chained_holds (holds : a.Holds e) :
    ∃ b, a.chained = .ok b ∧ b.Holds e.rootChained ∧ b.limit = a.limit := by
  apply holds.onRoot
  intro s owns
  refine rootChain_replaces owns _ ?_
  have low := owns.stands.height_le
  have room : a.size < 2 ^ a.size := Nat.lt_two_pow_self
  simp only [chainSteps, Nat.pow_eq, Nat.pow_add]
  omega

end Arena
end Selectivity
