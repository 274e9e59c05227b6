import Selectivity.Proofs.SingleOwnership
import Mathlib.Order.Interval.Finset.Nat

/-! Trees that can be read, told by the links alone: no way down comes back, and every
number on it is that of a node. Nodes may hang below several others and in any order.
Where numbers are missing, the walk that counts nodes stops at one of them. A tree that
was just built is made of all the nodes that building appended, each of them once. -/

namespace Selectivity.Arena

variable {a : Arena} {id : NodeId} {e : Expr} {s : Finset NodeId}

/-- Every number reached from a node is that of a node. -/
def InRange (a : Arena) (id : NodeId) : Prop := ∀ i, a.Reaches id i → i < a.size

theorem Stands.inRange (stands : a.Stands id e) : a.InRange id := fun _ reaches =>
  let ⟨_, here, _⟩ := stands.reached reaches
  here.lt_size

/-! ### Counting what may be missing -/

/-- The nodes below a node come to their number, or the walk stops at one that is missing. The
induction is on the steps of the walk, of which every link downwards leaves enough. -/
private theorem sizeAt_cases {steps : Nat} (acyclic : a.Acyclic id) (enough : a.span id < steps) :
    (∃ e, a.Stands id e ∧ a.sizeAt steps id = .ok e.size) ∨
      ∃ j, a.Reaches id j ∧ a.size ≤ j ∧ a.sizeAt steps id = .error (.dangling j) := by
  induction steps generalizing id with
  | zero => exact absurd enough (Nat.not_lt_zero _)
  | succ steps ih =>
    have below {k j} (child : a.Child id k j) := ih (acyclic.reached (Reaches.head child .refl))
      (Nat.lt_of_lt_of_le (acyclic.span_lt child) (Nat.le_of_lt_succ enough))
    cases found : a.get? id with
    | none =>
      refine .inr ⟨id, .refl, Array.getElem?_eq_none_iff.mp found, ?_⟩
      simp only [sizeAt, node, found]
      rfl
    | some n =>
      simp only [sizeAt, node_of_get? found, ok_bind, ok_pure]
      cases n with
      | link c left right =>
        have toLeft : a.Child id 0 left := (child_link found).mpr (.inl ⟨rfl, rfl⟩)
        have toRight : a.Child id 1 right := (child_link found).mpr (.inr ⟨rfl, rfl⟩)
        rcases below toRight with ⟨second, rights, counted⟩ | ⟨j, reaches, missing, stop⟩
        · rcases below toLeft with ⟨first, lefts, counted'⟩ | ⟨j, reaches, missing, stop⟩
          · exact .inl ⟨_, .link found lefts rights, by simp only [counted, counted', ok_bind, Expr.size]⟩
          · refine .inr ⟨j, .left found reaches, missing, ?_⟩
            simp only [counted, stop, ok_bind]
            rfl
        · refine .inr ⟨j, .right found reaches, missing, ?_⟩
          simp only [stop]
          rfl
      | not operand =>
        rcases below ((child_not found).mpr ⟨rfl, rfl⟩) with ⟨f, stands, counted⟩ | ⟨j, reaches, missing, stop⟩
        · exact .inl ⟨_, .not found stands, by simp only [counted, ok_bind, Expr.size]⟩
        · refine .inr ⟨j, .operand found reaches, missing, ?_⟩
          simp only [stop]
          rfl
      | atom leaf => exact .inl ⟨_, .atom found, rfl⟩

theorem Acyclic.subtreeSize_cases (acyclic : a.Acyclic id) :
    (∃ e, a.Stands id e) ∨ ∃ j, a.Reaches id j ∧ a.size ≤ j ∧ a.subtreeSize id = .error (.dangling j) :=
  (sizeAt_cases acyclic (Nat.lt_succ_of_le (a.span_le id))).imp_left fun ⟨e, stands, _⟩ => ⟨e, stands⟩

/-- Reading needs no more than the links promise. -/
theorem stands_iff : (∃ e, a.Stands id e) ↔ a.Acyclic id ∧ a.InRange id := by
  constructor
  · exact fun ⟨_, stands⟩ => ⟨stands.acyclic, stands.inRange⟩
  · intro ⟨acyclic, inside⟩
    rcases acyclic.subtreeSize_cases with stands | ⟨j, reaches, missing, _⟩
    · exact stands
    · exact absurd (inside j reaches) (Nat.not_lt.mpr missing)

private theorem stands_of_exprAt {steps : Nat} (read : a.exprAt steps id = .ok e) : a.Stands id e := by
  induction steps generalizing id e with
  | zero => cases read
  | succ steps ih =>
    obtain ⟨n, looked, read⟩ := ok_of_bind read
    have found : a.get? id = some n := by
      simp only [node] at looked
      split at looked
      next found => exact Except.ok.inj looked ▸ found
      next => cases looked
    cases n with
    | link c left right =>
      obtain ⟨first, lefts, read⟩ := ok_of_bind read
      obtain ⟨second, rights, read⟩ := ok_of_bind read
      cases read
      exact .link found (ih lefts) (ih rights)
    | not operand =>
      obtain ⟨f, below, read⟩ := ok_of_bind read
      cases read
      exact .not found (ih below)
    | atom leaf =>
      cases read
      exact .atom found

theorem expr_eq_ok_iff : a.expr id = .ok e ↔ a.Stands id e := ⟨stands_of_exprAt, expr_eq⟩

/-! ### The nodes that building appends -/

theorem Owns.card (owns : a.Owns id e s) : s.card = e.size := by
  induction owns with
  | link _ _ _ apart own lefts rights =>
    rw [Finset.card_insert_of_notMem own, Finset.card_union_of_disjoint apart, lefts, rights, Expr.size]
  | not _ _ own below => rw [Finset.card_insert_of_notMem own, below, Expr.size]
  | atom => exact Finset.card_singleton _

/-- Counting shows that none of the new nodes is left over. -/
theorem addExpr_owns (a : Arena) (e : Expr) :
    (a.addExpr e).2.Owns (a.addExpr e).1 e (Finset.Ico a.size (a.addExpr e).2.size) := by
  obtain ⟨t, step⟩ := addExpr_replaces a e
  have within : t ⊆ Finset.Ico a.size (a.addExpr e).2.size := by
    intro i member
    have new : a.size ≤ i := (step.fresh i member).resolve_left (Finset.notMem_empty i)
    exact Finset.mem_Ico.mpr ⟨new, step.forest.lt_size i member⟩
  have whole : t = Finset.Ico a.size (a.addExpr e).2.size := by
    refine Finset.eq_of_subset_of_card_le within ?_
    rw [step.owns.card, Nat.card_Ico, size_addExpr, Nat.add_sub_cancel_left]
  exact whole ▸ step.owns

end Selectivity.Arena
