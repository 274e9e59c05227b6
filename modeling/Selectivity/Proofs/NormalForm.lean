import Selectivity.Proofs.CrossProduct
import Selectivity.Proofs.SingleOwnership

/-! Normalization as a function of expressions. Which conjuncts are expanded depends on the
room in the arena only if there is too little of it. With room for all copies the arena that
results is built from the normalized expression, wherever the nodes stood before. -/

namespace Selectivity

namespace Expr

variable {budget : Nat} {e : Expr}

instance (budget : Nat) (e : Expr) : Decidable (e.Expandable budget) :=
  decidable_of_iff (e.isLink .or = true ∧ 1 < e.choices ∧ e.choices ≤ budget)
    ⟨fun ⟨disjunction, several, affordable⟩ => ⟨disjunction, several, affordable⟩,
      fun ⟨disjunction, several, affordable⟩ => ⟨disjunction, several, affordable⟩⟩

/-- What comes in the place of a conjunct. -/
def expansion (budget : Nat) (e : Expr) : List Expr :=
  if e.Expandable budget then e.derived else [e]

def expanded (budget : Nat) (e : Expr) : Expr :=
  if e.isLink .and = true ∧ ∃ f ∈ e.members .and, f.Expandable budget then
    chain .and ((e.members .and).flatMap (expansion budget))
  else e

def normalized (budget : Nat) (e : Expr) : Expr :=
  (e.pushed false).rootChained.withInLists.expanded budget

theorem expansion_eq_self (kept : ¬ e.Expandable budget) : e.expansion budget = [e] := if_neg kept

theorem expansion_eq_derived (expandable : e.Expandable budget) : e.expansion budget = e.derived :=
  if_pos expandable

end Expr

namespace Arena

variable {a b : Arena} {budget : Nat} {conjunct : NodeId} {conjuncts ids : List NodeId} {outcome : Outcome}
  {outcomes : List Outcome} {e : Expr} {es : List Expr}

theorem addChain_stands (c : Connective) (stand : List.Forall₂ a.Stands ids es) :
    (a.addChain c ids).2.Stands (a.addChain c ids).1 (.chain c es) := by
  induction stand with
  | nil => exact .atom ((get?_push a _ _).trans (if_pos rfl))
  | @cons id e ids es head tail ih =>
    have keeps : Keeps (a.addChain c ids).2 (a.addChain c (id :: ids)).2 ∅ := (Keeps.refl _ ∅).push _
    have below := (head.extend (Keeps.chain a c ids).extend).extend keeps.extend
    exact .link ((get?_push _ _ _).trans (if_pos rfl)) below (ih.extend keeps.extend)

/-- An attempt that does not hit the limit is made exactly for the conjuncts that are worth it. -/
private theorem Becomes.expansion (becomes : Becomes budget a b conjunct outcome) (room : outcome ≠ .failed)
    (stands : a.Stands conjunct e) :
    List.Forall₂ b.Stands (outcome.conjuncts conjunct) (e.expansion budget) ∧
      (outcome.isDerived = true ↔ e.Expandable budget) := by
  cases becomes with
  | kept before skipped after =>
    cases stands.unique before
    rw [Expr.expansion_eq_self skipped]
    exact ⟨.cons after .nil, by simp [Outcome.isDerived, skipped]⟩
  | failed => exact absurd rfl room
  | derived before expandable after =>
    cases stands.unique before
    rw [Expr.expansion_eq_derived expandable]
    exact ⟨after.stands, by simp [Outcome.isDerived, expandable]⟩

private theorem expansions_of_become (become : List.Forall₂ (Becomes budget a b) conjuncts outcomes)
    (room : .failed ∉ outcomes) (stand : List.Forall₂ a.Stands conjuncts es) :
    List.Forall₂ b.Stands (Outcome.joined conjuncts outcomes) (es.flatMap (Expr.expansion budget)) ∧
      (outcomes.any Outcome.isDerived = true ↔ ∃ e ∈ es, e.Expandable budget) := by
  induction become generalizing es with
  | nil =>
    cases stand
    exact ⟨.nil, by simp⟩
  | cons head _ ih =>
    cases stand with
    | cons first others =>
      rw [List.mem_cons, not_or] at room
      obtain ⟨stands, derived⟩ := head.expansion (Ne.symm room.1) first
      obtain ⟨rest, any⟩ := ih room.2 others
      refine ⟨List.rel_append stands rest, ?_⟩
      rw [List.any_cons, Bool.or_eq_true, derived, any]
      simp

/-- One pass is enough to tell, because a pass has only one course. -/
theorem Pass.roomy (pass : Pass budget a conjuncts outcomes b) (considered : a.considered = .ok conjuncts)
    (room : .failed ∉ outcomes) : a.Roomy budget := by
  intro others results c again pass'
  cases considered.symm.trans again
  obtain ⟨rfl, _⟩ := pass.unique pass'
  exact room

private theorem considered_and (stands : a.Stands a.root e) (conjunction : e.isLink .and = true) :
    ∃ conjuncts, a.considered = .ok conjuncts ∧ List.Forall₂ a.Stands conjuncts (e.members .and) := by
  have considered := exists_considered stands
  rwa [conjunction] at considered

private theorem considered_other (stands : a.Stands a.root e) (other : e.isLink .and = false) :
    a.considered = .ok [] := by
  obtain ⟨conjuncts, considered, none⟩ := exists_considered stands
  rw [other] at none
  cases none
  exact considered

private theorem not_failed_of_become (become : List.Forall₂ (Becomes budget a b) conjuncts outcomes)
    (stand : List.Forall₂ a.Stands conjuncts es) (kept : ∀ f ∈ es, ¬ f.Expandable budget) :
    .failed ∉ outcomes := by
  induction become generalizing es with
  | nil => simp
  | cons head _ ih =>
    cases stand with
    | cons first others =>
      obtain ⟨fits, rest⟩ := List.forall_mem_cons.mp kept
      rw [List.mem_cons, not_or]
      refine ⟨?_, ih others rest⟩
      rintro rfl
      cases head with
      | failed before expandable => exact fits (first.unique before ▸ expandable)

/-- Where nothing is worth expanding, nothing is copied. -/
theorem Holds.roomy (holds : a.Holds e) (kept : ∀ f ∈ e.members .and, ¬ f.Expandable budget) : a.Roomy budget := by
  cases conjunction : e.isLink .and with
  | true =>
    obtain ⟨conjuncts, considered, stand⟩ := considered_and holds.stands conjunction
    obtain ⟨outcomes, b, pass, _, become⟩ := exists_pass stand (.refl a ∅) budget
    exact pass.roomy considered (not_failed_of_become become stand kept)
  | false => exact Pass.done.roomy (considered_other holds.stands conjunction) (by simp)

theorem expanded_roomy (holds : a.Holds e) (room : a.Roomy budget) :
    ∃ b, a.expanded budget = .ok b ∧ b.Holds (e.expanded budget) ∧ b.limit = a.limit := by
  obtain ⟨c, f, run, after, limit, _⟩ := expanded_holds holds budget
  refine ⟨c, run, ?_, limit⟩
  suffices c.Stands c.root (e.expanded budget) by rwa [this.unique after.stands]
  cases conjunction : e.isLink .and with
  | true =>
    obtain ⟨conjuncts, considered, stand⟩ := considered_and holds.stands conjunction
    obtain ⟨outcomes, b, pass, _, become⟩ := exists_pass stand (.refl a ∅) budget
    obtain ⟨stands, any⟩ := expansions_of_become become (room _ _ _ considered pass) stand
    have result := run.symm.trans (pass.expanded_eq considered)
    by_cases some : ∃ f ∈ e.members .and, f.Expandable budget
    · rw [if_pos (any.mpr some)] at result
      cases result
      rw [Expr.expanded, if_pos ⟨conjunction, some⟩]
      exact (addChain_stands .and stands).extend fun _ _ found => found
    · rw [if_neg (mt any.mp some), pass.eq_of_none (Bool.eq_false_iff.mpr (mt any.mp some))] at result
      cases result
      rw [Expr.expanded, if_neg (fun both => some both.2)]
      exact holds.stands
  | false =>
    have unchanged : a.expanded budget = .ok a := Pass.done.expanded_eq (considered_other holds.stands conjunction)
    cases run.symm.trans unchanged
    rw [Expr.expanded, conjunction, if_neg (fun both => Bool.false_ne_true both.1)]
    exact holds.stands

end Arena

namespace Normalizer

variable {n : Normalizer} {a b : Arena} {e : Expr}

/-- No copy that expansion makes hits the limit. -/
def Roomy (n : Normalizer) (a : Arena) : Prop :=
  ∀ b, [Stage.negation, .chain, .inList].foldlM (fun a stage => stage.apply a) (n.limited a) = .ok b →
    b.Roomy n.budget

theorem roomy_of_pass
    (before : [Stage.negation, .chain, .inList].foldlM (fun a stage => stage.apply a) (n.limited a) = .ok b)
    (room : b.Roomy n.budget) : n.Roomy a := by
  intro c again
  cases before.symm.trans again
  exact room

/-- The stages before expansion, on a tree that owns its nodes. -/
private theorem exists_before (n : Normalizer) (holds : a.Holds e) :
    ∃ b, [Stage.negation, .chain, .inList].foldlM (fun a stage => stage.apply a) (n.limited a) = .ok b ∧
      b.Holds (e.pushed false).rootChained.withInLists ∧ b.limit = Nat.min a.limit n.nodeLimit := by
  obtain ⟨b, negations, pushed, limit⟩ := Arena.withoutNegations_holds (holds.limited (Nat.min a.limit n.nodeLimit))
  obtain ⟨c, chains, chained, same⟩ := Arena.chained_holds pushed
  rw [limit] at same
  obtain ⟨d, lists, listed, limit⟩ := Arena.withInLists_holds chained
  rw [same] at limit
  refine ⟨d, ?_, listed, limit⟩
  simp only [List.foldlM_cons, List.foldlM_nil, limited, Stage.apply, negations, chains, lists, ok_bind, ok_pure]

theorem roomy_of_unexpanded (holds : a.Holds e)
    (kept : ∀ f ∈ (e.pushed false).rootChained.withInLists.members .and, ¬ f.Expandable n.budget) : n.Roomy a := by
  obtain ⟨b, before, listed, _⟩ := n.exists_before holds
  exact roomy_of_pass before (listed.roomy kept)

/-- Where a normalized expression is stored. -/
def stored (n : Normalizer) (a : Arena) (e : Expr) : Arena :=
  { Arena.ofExpr (e.normalized n.budget) with limit := Nat.min a.limit n.nodeLimit }

theorem stored_holds (n : Normalizer) (a : Arena) (e : Expr) : (n.stored a e).Holds (e.normalized n.budget) :=
  (Arena.ofExpr_holds _).limited _

theorem stored_rootExpr (n : Normalizer) (a : Arena) (e : Expr) :
    (n.stored a e).rootExpr = .ok (e.normalized n.budget) :=
  Arena.expr_eq (n.stored_holds a e).stands

theorem normalize_eq_stored (holds : a.Holds e) (room : n.Roomy a) : n.normalize a = .ok (n.stored a e) := by
  obtain ⟨b, before, listed, limit⟩ := n.exists_before holds
  obtain ⟨c, expansion, after, same⟩ := Arena.expanded_roomy listed (room b before)
  rw [limit] at same
  have stages : n.stages.foldlM (fun a stage => stage.apply a) (n.limited a) = .ok c := by
    rw [show n.stages = [.negation, .chain, .inList] ++ [.expansion n.budget] from rfl, List.foldlM_append, before,
      ok_bind, List.foldlM_cons, Stage.apply, expansion]
    rfl
  rw [normalize, stages, ok_bind, Arena.compact_eq after.stands, same]
  rfl

/-- With room for all copies the outcome depends on the expression alone: two trees that
stand for one expression come out as one tree, built from the normalized expression. -/
theorem normalize_layout (n : Normalizer) (mine : a.SingleOwner) (yours : b.SingleOwner)
    (same : a.rootExpr = b.rootExpr) (room : n.Roomy a) (room' : n.Roomy b) :
    ∃ e c d, a.rootExpr = .ok e ∧ n.normalize a = .ok c ∧ n.normalize b = .ok d ∧
      c.rootExpr = .ok (e.normalized n.budget) ∧ d.rootExpr = .ok (e.normalized n.budget) ∧
      c.nodes = (Arena.ofExpr (e.normalized n.budget)).nodes ∧ c.root = (Arena.ofExpr (e.normalized n.budget)).root ∧
      d.nodes = c.nodes ∧ d.root = c.root := by
  obtain ⟨e, holds⟩ := Arena.singleOwner_iff.mp mine
  obtain ⟨f, holds'⟩ := Arena.singleOwner_iff.mp yours
  have read := Arena.expr_eq holds.stands
  have read' := Arena.expr_eq holds'.stands
  cases read.symm.trans (same.trans read')
  exact ⟨e, _, _, read, normalize_eq_stored holds room, normalize_eq_stored holds' room',
    n.stored_rootExpr a e, n.stored_rootExpr b e, rfl, rfl, rfl, rfl⟩

/-! ### One expression in two layouts -/

def leaf (i : Int64) : Atom := .compare .isNull (.literal (.int i)) none

/-- The expression `(x AND y) OR NOT (NOT z)`. -/
def nested : Expr :=
  .link .or (.link .and (.atom (leaf 0)) (.atom (leaf 1))) (.not (.not (.atom (leaf 2))))

/-- Children before their parents. -/
def tidy : Arena :=
  { nodes := #[.atom (leaf 0), .atom (leaf 1), .link .and 0 1, .atom (leaf 2), .not 3, .not 4, .link .or 2 5],
    root := 6, limit := 100 }

/-- From the root downwards, with a node that nothing leads to. -/
def untidy : Arena :=
  { nodes := #[.link .or 3 6, .atom (leaf 2), .link .or 0 0, .link .and 5 4, .atom (leaf 1), .atom (leaf 0), .not 7,
      .not 1],
    root := 0, limit := 90 }

private theorem tidy_holds : tidy.Holds nested :=
  ⟨_, .link rfl (.link rfl (.atom rfl) (.atom rfl) (by decide) (by decide))
    (.not rfl (.not rfl (.atom rfl) (by decide)) (by decide)) (by decide) (by decide)⟩

private theorem untidy_holds : untidy.Holds nested :=
  ⟨_, .link rfl (.link rfl (.atom rfl) (.atom rfl) (by decide) (by decide))
    (.not rfl (.not rfl (.atom rfl) (by decide)) (by decide)) (by decide) (by decide)⟩

/-- The arenas before expansion. -/
private def tidyChains : Arena :=
  { nodes := #[.atom (leaf 0), .atom (leaf 1), .link .and 0 1, .atom (leaf 2), .not 3, .not 4, .link .or 2 3,
      .constant true, .link .and 1 7, .link .and 0 8, .constant false, .link .or 3 10, .link .or 9 11, .constant true,
      .link .and 12 13],
    root := 14, limit := 80 }

private def untidyChains : Arena :=
  { nodes := #[.link .or 3 1, .atom (leaf 2), .link .or 0 0, .link .and 5 4, .atom (leaf 1), .atom (leaf 0), .not 7,
      .not 1, .constant true, .link .and 4 8, .link .and 5 9, .constant false, .link .or 1 11, .link .or 10 12,
      .constant true, .link .and 13 14],
    root := 15, limit := 80 }

theorem tidy_roomy : Roomy { budget := 2, nodeLimit := 80 } tidy := by
  have done : (Attempt.disjunctions [[0, 1], [3]] tidyChains).1 = .ok [19, 24] := by rfl
  have turn : Arena.Turn 2 12 tidyChains (.derived [19, 24]) _ := .derived (by rfl) (Prod.ext done rfl)
  exact roomy_of_pass (b := tidyChains) (by rfl) ((Arena.Pass.next turn .done).roomy (by rfl) (by simp))

theorem untidy_roomy : Roomy { budget := 2, nodeLimit := 80 } untidy := by
  have done : (Attempt.disjunctions [[5, 4], [1]] untidyChains).1 = .ok [20, 25] := by rfl
  have turn : Arena.Turn 2 13 untidyChains (.derived [20, 25]) _ := .derived (by rfl) (Prod.ext done rfl)
  exact roomy_of_pass (b := untidyChains) (by rfl) ((Arena.Pass.next turn .done).roomy (by rfl) (by simp))

theorem normalize_layout_untidy :
    tidy.SingleOwner ∧ untidy.SingleOwner ∧ tidy.rootExpr = untidy.rootExpr ∧
      Roomy { budget := 2, nodeLimit := 80 } tidy ∧ Roomy { budget := 2, nodeLimit := 80 } untidy ∧
      ∃ c d, normalize { budget := 2, nodeLimit := 80 } tidy = .ok c ∧
        normalize { budget := 2, nodeLimit := 80 } untidy = .ok d ∧ d.nodes = c.nodes ∧ d.root = c.root := by
  have mine : tidy.SingleOwner := tidy_holds.singleOwner
  have yours : untidy.SingleOwner := untidy_holds.singleOwner
  have same : tidy.rootExpr = untidy.rootExpr :=
    (Arena.expr_eq tidy_holds.stands).trans (Arena.expr_eq untidy_holds.stands).symm
  obtain ⟨_, c, d, _, first, second, _, _, _, _, nodes, root⟩ :=
    normalize_layout _ mine yours same tidy_roomy untidy_roomy
  exact ⟨mine, yours, same, tidy_roomy, untidy_roomy, c, d, first, second, nodes, root⟩

end Normalizer
end Selectivity
