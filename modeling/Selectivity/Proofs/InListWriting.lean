import Selectivity.Proofs.InListStage
import Selectivity.Proofs.StageFixpoints

/-! Writing out an IN list. The nodes appended stand for a chain of rows, each a comparison or
a chain of comparisons, and nothing that was there before is touched. -/

namespace Selectivity

namespace Expr

variable {c : Connective} {op : Comparator} {columns : List Column} {values : List Value}

def comparisons (op : Comparator) (columns : List Column) (values : List Value) : List Expr :=
  List.zipWith (fun column value => comparison column op value) columns values

/-- A row of one comparison needs no chain. -/
def ofRow (c : Connective) (op : Comparator) (columns : List Column) (values : List Value) : Expr :=
  match comparisons op columns values with
  | [only] => only
  | es => chain c es

def ofInList (columns : List Column) (rows : List (List Value)) (negated : Bool) : Expr :=
  let outer : Connective := if negated then .and else .or
  chain outer (rows.map (ofRow outer.dual (if negated then .ne else .eq) columns))

theorem mem_comparisons {e : Expr} (member : e ∈ comparisons op columns values) :
    ∃ column value, e = comparison column op value := by
  induction columns generalizing values with
  | nil => cases member
  | cons column columns ih =>
    cases values with
    | nil => cases member
    | cons value values =>
      rcases List.mem_cons.mp member with rfl | member
      · exact ⟨column, value, rfl⟩
      · exact ih member

/-- Written rows are operands of the outer chain, and there is nothing to drop from them. -/
theorem ofRow_operand (c : Connective) (op : Comparator) (columns : List Column) (values : List Value) :
    (ofRow c op columns values).Operand c.dual ∧ (ofRow c op columns values).Clean ∧
      (ofRow c op columns values).isConstant c.dual.unit = false := by
  have different : c ≠ c.dual := by cases c <;> decide
  have each : ∀ e ∈ comparisons op columns values,
      (∀ d, e.Operand d) ∧ e.Clean ∧ ∀ value, e.isConstant value = false := by
    intro e member
    obtain ⟨column, value, rfl⟩ := mem_comparisons member
    exact ⟨fun _ => ⟨trivial, rfl⟩, trivial, fun _ => rfl⟩
  rw [ofRow]
  split
  next only one =>
    rw [one] at each
    obtain ⟨operand, clean, some⟩ := each only List.mem_cons_self
    exact ⟨operand _, clean, some _⟩
  next =>
    refine ⟨⟨chain_chainForm fun e member => (each e member).1 c, chain_isLink_ne different _⟩, ?_,
      chain_isConstant_ne different _⟩
    exact chain_clean fun e member => ⟨(each e member).2.2 _, (each e member).2.1⟩

end Expr

namespace Arena

theorem addComparisons_replaces (a : Arena) (op : Comparator) (columns : List Column) (values : List Value) :
    ∃ t, Replaces a ∅ (a.addComparisons op columns values).2 (a.addComparisons op columns values).1
      (Expr.comparisons op columns values) t := by
  induction columns generalizing a values with
  | nil => exact ⟨∅, .nil (.refl a ∅)⟩
  | cons column columns ih =>
    cases values with
    | nil => exact ⟨∅, .nil (.refl a ∅)⟩
    | cons value values =>
      have first := Replaces.pushAtom (.compare op (.column column) (some (.literal value))) (Keeps.refl a ∅)
      obtain ⟨t, rest⟩ := ih (a.push (.atom (.compare op (.column column) (some (.literal value))))) values
      exact ⟨_, first.append rest (Finset.disjoint_empty_right _) (by simp)⟩

theorem addRow_replaces (a : Arena) (c : Connective) (op : Comparator) (columns : List Column) (values : List Value) :
    ∃ t, Replaces a ∅ (a.addRow c op columns values).2 [(a.addRow c op columns values).1]
      [Expr.ofRow c op columns values] t := by
  obtain ⟨t, step⟩ := a.addComparisons_replaces op columns values
  have lengths := step.forest.stands.length_eq
  rw [addRow, Expr.ofRow]
  generalize a.addComparisons op columns values = added at step lengths ⊢
  generalize Expr.comparisons op columns values = es at step lengths ⊢
  split
  next only b =>
    obtain ⟨e, rfl⟩ := List.length_eq_one_iff.mp lengths.symm
    exact ⟨t, step⟩
  next ids b several =>
    obtain ⟨u, chained⟩ := step.forest.chain c
    split
    next only =>
      -- As many nodes as comparisons: a single one would have been the row by itself.
      obtain ⟨id, rfl⟩ := List.length_eq_one_iff.mp lengths
      exact absurd rfl (several id)
    next => exact ⟨u, step.trans chained⟩

theorem addRows_replaces (a : Arena) (c : Connective) (op : Comparator) (columns : List Column)
    (rows : List (List Value)) :
    ∃ t, Replaces a ∅ (a.addRows c op columns rows).2 (a.addRows c op columns rows).1
      (rows.map (Expr.ofRow c op columns)) t := by
  induction rows generalizing a with
  | nil => exact ⟨∅, .nil (.refl a ∅)⟩
  | cons values rows ih =>
    obtain ⟨s, first⟩ := a.addRow_replaces c op columns values
    obtain ⟨t, rest⟩ := ih (a.addRow c op columns values).2
    exact ⟨_, first.append rest (Finset.disjoint_empty_right _) (by simp)⟩

/-- What is written out owns its nodes, all of them new. -/
theorem expandInList_replaces {a : Arena} {id : NodeId} {columns : List Column} {rows : List (List Value)}
    {negated : Bool} (found : a.get? id = some (.atom (.inList columns rows negated))) :
    ∃ head b t, a.expandInList id = .ok (some (head, b)) ∧
      Replaces a ∅ b [head] [Expr.ofInList columns rows negated] t := by
  obtain ⟨t, written⟩ := a.addRows_replaces (if negated then Connective.and else .or).dual
    (if negated then .ne else .eq) columns rows
  obtain ⟨u, chained⟩ := written.forest.chain (if negated then .and else .or)
  refine ⟨_, _, u, ?_, written.trans chained⟩
  simp only [expandInList, node_of_get? found, ok_bind, ok_pure]

end Arena
end Selectivity
