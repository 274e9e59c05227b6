import Selectivity.Proofs.InListWriting

/-! What is written out of an IN list means the same as the list. A row that is left out is one
in which some column differs, so a negated list is the dual of a plain one, column by column,
and the duality holds for unknown comparisons too. -/

namespace Selectivity

theorem Connective.dual_dual (c : Connective) : c.dual.dual = c := by cases c <;> rfl

/-- Denying a group is denying each member in a group of the other connective. -/
theorem Connective.not_over (c : Connective) (ts : List Truth) : (c.over ts).not = c.dual.over (ts.map Truth.not) := by
  induction ts with
  | nil => cases c <;> rfl
  | cons t ts ih => rw [over_cons, not_truth, ih, List.map_cons, over_cons]

theorem Comparator.ne_truth (left right : Value) : Comparator.ne.truth left right = (Comparator.eq.truth left right).not := by
  simp only [truth]
  cases left.compare? right with
  | none => rfl
  | some outcome => cases outcome <;> rfl

namespace Expr

/-- Neither a negation nor an IN list anywhere. -/
def Elementary : Expr → Prop
  | .link _ left right => left.Elementary ∧ right.Elementary
  | .not _ => False
  | .atom (.inList _ _ _) => False
  | .atom _ => True

variable {c : Connective} {op : Comparator} {columns : List Column} {es : List Expr}

theorem chain_elementary (elementary : ∀ e ∈ es, e.Elementary) : (chain c es).Elementary := by
  induction es with
  | nil => trivial
  | cons e es ih =>
    obtain ⟨first, rest⟩ := List.forall_mem_cons.mp elementary
    exact ⟨first, ih rest⟩

theorem ofRow_elementary (c : Connective) (op : Comparator) (columns : List Column) (values : List Value) :
    (ofRow c op columns values).Elementary := by
  have each : ∀ e ∈ comparisons op columns values, e.Elementary := by
    intro e member
    obtain ⟨column, value, rfl⟩ := mem_comparisons member
    trivial
  rw [ofRow]
  split
  next only one => exact each only (one ▸ List.mem_cons_self)
  next => exact chain_elementary each

theorem ofInList_elementary (columns : List Column) (rows : List (List Value)) (negated : Bool) :
    (ofInList columns rows negated).Elementary := by
  apply chain_elementary
  intro e member
  obtain ⟨values, _, rfl⟩ := List.mem_map.mp member
  exact ofRow_elementary _ _ _ _

theorem ofInList_chainForm (columns : List Column) (rows : List (List Value)) (negated : Bool) :
    (ofInList columns rows negated).ChainForm := by
  apply chain_chainForm
  intro e member
  obtain ⟨values, _, rfl⟩ := List.mem_map.mp member
  have operand := (ofRow_operand (if negated then Connective.and else .or).dual (if negated then .ne else .eq) columns
    values).1
  rwa [Connective.dual_dual] at operand

/-! ### Truth -/

variable (row : Row)

/-- A row by itself is the group of its comparisons, whether or not there is a chain for it. -/
theorem ofRow_truth (c : Connective) (comparison : op.isComparison = true) (columns : List Column)
    (values : List Value) :
    (ofRow c op columns values).truth row =
      c.over (List.zipWith (fun column value => op.truth (row column) value) columns values) := by
  have group : overTruth row c (comparisons op columns values) =
      c.over (List.zipWith (fun column value => op.truth (row column) value) columns values) := by
    rw [overTruth, comparisons, List.map_zipWith]
    cases op
    case isNull => cases comparison
    case isNotNull => cases comparison
    all_goals rfl
  rw [ofRow, ← group]
  split
  next only one => rw [one, overTruth_singleton]
  next => exact chain_truth row c _

theorem ofInList_truth (columns : List Column) (rows : List (List Value)) (negated : Bool) :
    (ofInList columns rows negated).truth row = (Atom.inList columns rows negated).truth row := by
  rw [ofInList, chain_truth, overTruth, List.map_map]
  cases negated with
  | false =>
    have each : truth row ∘ ofRow .and .eq columns = rowTruth row columns :=
      funext fun values => ofRow_truth row .and rfl columns values
    exact congrArg (fun part => Connective.or.over (rows.map part)) each
  | true =>
    have each : truth row ∘ ofRow .or .ne columns = Truth.not ∘ rowTruth row columns := by
      funext values
      rw [Function.comp_apply, ofRow_truth row .or rfl, Function.comp_apply, rowTruth, Connective.not_over,
        List.map_zipWith]
      simp only [Comparator.ne_truth, Connective.dual]
    calc Connective.and.over (rows.map (truth row ∘ ofRow .or .ne columns))
        = Connective.and.over ((rows.map (rowTruth row columns)).map Truth.not) := by rw [each, List.map_map]
      _ = (Connective.or.over (rows.map (rowTruth row columns))).not := (Connective.not_over .or _).symm

end Expr

namespace Arena

/-- An IN list is written out at the end of the arena as a chain without negations and lists,
which is true, false or unknown on the same rows. For any other node there is nothing to write. -/
theorem expandInList_meaning {a : Arena} {id : NodeId} {n : Node} (found : a.get? id = some n) :
    (∀ columns rows negated, n = .atom (.inList columns rows negated) →
      ∃ head b e s, a.expandInList id = .ok (some (head, b)) ∧ b.expr head = .ok e ∧
        (∀ row, e.truth row = (Atom.inList columns rows negated).truth row) ∧
        e.Elementary ∧ e.ChainForm ∧ e.Whole (if negated then .and else .or) ∧
        Keeps a b ∅ ∧ b.Owns head e s ∧ ∀ i ∈ s, a.size ≤ i) ∧
    ((∀ columns rows negated, n ≠ .atom (.inList columns rows negated)) → a.expandInList id = .ok none) := by
  constructor
  · rintro columns rows negated rfl
    obtain ⟨head, b, s, run, written⟩ := expandInList_replaces found
    have whole : (Expr.ofInList columns rows negated).Whole (if negated then .and else .or) := by
      cases rows with
      | nil => exact .inr rfl
      | cons => exact .inl (beq_self_eq_true _)
    refine ⟨head, b, _, s, run, expr_eq written.owns.stands, fun row => Expr.ofInList_truth row columns rows negated,
      Expr.ofInList_elementary columns rows negated, Expr.ofInList_chainForm columns rows negated, whole, written.keeps,
      written.owns, fun i member => ?_⟩
    exact (written.fresh i member).resolve_left (Finset.notMem_empty i)
  · intro other
    rw [expandInList, node_of_get? found, ok_bind]
    split
    next columns rows negated => exact absurd rfl (other columns rows negated)
    next => rfl

/-- A negated list of pairs, one of them with a null, and a node that is no list. -/
def pairsLeftOut : Arena :=
  { nodes := #[.atom (.inList [.ofTable "t" "a" 0, .ofTable "t" "b" 1] [[.int 1, .null], [.int 2, .text "x"]] true),
      .constant true, .link .and 0 1],
    root := 2, limit := 3 }

theorem expandInList_meaning_pairs :
    pairsLeftOut.expandInList 1 = .ok none ∧
      ∃ columns rows head b e, pairsLeftOut.get? 0 = some (.atom (.inList columns rows true)) ∧
        pairsLeftOut.expandInList 0 = .ok (some (head, b)) ∧ b.expr head = .ok e ∧
        (∀ row, e.truth row = (Atom.inList columns rows true).truth row) ∧ e.Elementary ∧ e.ChainForm ∧
        Keeps pairsLeftOut b ∅ := by
  have list : pairsLeftOut.get? 0 = some (.atom (.inList [.ofTable "t" "a" 0, .ofTable "t" "b" 1]
    [[.int 1, .null], [.int 2, .text "x"]] true)) := rfl
  have other : pairsLeftOut.get? 1 = some (.constant true) := rfl
  obtain ⟨head, b, e, _, run, read, truth, elementary, form, _, keeps, _⟩ :=
    (expandInList_meaning list).1 _ _ _ rfl
  exact ⟨(expandInList_meaning other).2 nofun, _, _, head, b, e, list, run, read, truth, elementary, form, keeps⟩

end Arena
end Selectivity
