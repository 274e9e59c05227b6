import Selectivity.Normalize
import Selectivity.Proofs.InListTruth

/-! Normalization as a whole. Every stage succeeds on a tree that owns its nodes, and
what the arena stands for afterwards is true on the same rows as before. -/

namespace Selectivity

/-- What a stage makes of an expression. Which expandable conjuncts are expanded depends
on the room in the arena. -/
def Stage.Turns : Stage → Expr → Expr → Prop
  | negation, e, f => f = e.pushed false
  | chain, e, f => f = e.rootChained
  | inList, e, f => f = e.withInLists
  | expansion budget, e, f => e.RootExpands budget f

theorem Stage.apply_holds {a : Arena} {e : Expr} (stage : Stage) (holds : a.Holds e) :
    ∃ b f, stage.apply a = .ok b ∧ b.Holds f ∧ b.limit = a.limit ∧ stage.Turns e f := by
  cases stage with
  | negation =>
    obtain ⟨b, run, after, limit⟩ := Arena.withoutNegations_holds holds
    exact ⟨b, _, run, after, limit, rfl⟩
  | chain =>
    obtain ⟨b, run, after, limit⟩ := Arena.chained_holds holds
    exact ⟨b, _, run, after, limit, rfl⟩
  | inList =>
    obtain ⟨b, run, after, limit⟩ := Arena.withInLists_holds holds
    exact ⟨b, _, run, after, limit, rfl⟩
  | expansion budget => exact Arena.expanded_holds holds budget

theorem Stage.Turns.truth_eq {stage : Stage} {e f : Expr} (turns : stage.Turns e f) (row : Row) :
    f.truth row = e.truth row := by
  cases stage with
  | negation => exact turns ▸ Expr.pushed_truth row false e
  | chain => exact turns ▸ Expr.rootChained_truth row e
  | inList => exact turns ▸ withInLists_truth row e
  | expansion budget => exact Expr.RootExpands.truth_eq row turns

namespace Normalizer

variable {a : Arena} {e : Expr}

/-- The arena that results is the one built from the normalized expression. -/
theorem normalize_eq (n : Normalizer) (holds : a.Holds e) :
    ∃ f, n.normalize a = .ok { Arena.ofExpr f with limit := Nat.min a.limit n.nodeLimit } ∧
      (e.pushed false).rootChained.withInLists.RootExpands n.budget f := by
  obtain ⟨b, negations, pushed, limit⟩ := Arena.withoutNegations_holds (holds.limited (Nat.min a.limit n.nodeLimit))
  obtain ⟨c, chains, chained, same⟩ := Arena.chained_holds pushed
  rw [limit] at same
  obtain ⟨d, lists, listed, limit⟩ := Arena.withInLists_holds chained
  rw [same] at limit
  obtain ⟨b, f, expansion, after, same, expands⟩ := Arena.expanded_holds listed n.budget
  rw [limit] at same
  refine ⟨f, ?_, expands⟩
  simp only [normalize, stages, List.foldlM_cons, List.foldlM_nil, limited, Stage.apply, negations, chains, lists,
    expansion, ok_bind, ok_pure, Arena.compact_eq after.stands, same]

/-- Neither normalization nor any of its stages changes on which rows an expression is
true, false or unknown. -/
theorem normalize_preserves_truth (e : Expr) (limit : Nat) :
    (∀ n : Normalizer, ∃ a f, n.normalize { Arena.ofExpr e with limit } = .ok a ∧ a.rootExpr = .ok f ∧
      ∀ row, f.truth row = e.truth row) ∧
    ∀ stage : Stage, ∃ a f, stage.apply { Arena.ofExpr e with limit } = .ok a ∧ a.rootExpr = .ok f ∧
      ∀ row, f.truth row = e.truth row := by
  have holds := (Arena.ofExpr_holds e).limited limit
  constructor
  · intro n
    obtain ⟨f, run, expands⟩ := n.normalize_eq holds
    refine ⟨_, f, run, Arena.expr_eq ((Arena.ofExpr_holds f).limited _).stands, ?_⟩
    intro row
    rw [Expr.RootExpands.truth_eq row expands, withInLists_truth, Expr.rootChained_truth, Expr.pushed_truth]
    rfl
  · intro stage
    obtain ⟨a, f, run, after, _, turns⟩ := stage.apply_holds holds
    exact ⟨a, f, run, Arena.expr_eq after.stands, turns.truth_eq⟩

end Normalizer
end Selectivity
