import Selectivity.Proofs.InListWriting
import Selectivity.Proofs.NormalizeAgain

/-! IN lists written out and found again. Normalizing the chain of equalities that a list is
written as gives back the list, its columns in their order and each of its rows once. -/

namespace Selectivity

/-- IN lists that their chains of equalities say in full: a null is equal to nothing, a
column with two values has none, and one row alone is no disjunction. -/
structure Expr.Listable (columns : List Column) (rows : List (List Value)) : Prop where
  named : columns ≠ []
  distinct : columns.Nodup
  together : ∃ table, ∀ column ∈ columns, column.table = table
  several : 2 ≤ rows.length
  complete : ∀ row ∈ rows, row.length = columns.length
  known : ∀ row ∈ rows, ∀ value ∈ row, value.isNull = false

/-! ### Rows and their columns -/

private theorem keep_firsts [BEq β] (items kept : List β) :
    (items.foldl (fun kept item => if kept.contains item then kept else item :: kept) kept).reverse =
      List.eraseDupsBy.loop (· == ·) items kept := by
  induction items generalizing kept with
  | nil => rfl
  | cons item items ih =>
    rw [List.foldl_cons, ih, List.eraseDupsBy.loop, List.contains_eq_any_beq]
    cases kept.any (item == ·) <;> rfl

theorem firstOccurrences_eq_eraseDups [BEq β] (items : List β) : firstOccurrences items = items.eraseDups :=
  keep_firsts items []

private theorem mapM_some {α β : Type} {f : α → Option β} {g : α → β} {items : List α}
    (each : ∀ item ∈ items, f item = some (g item)) : items.mapM f = some (items.map g) :=
  mapM_of_forall₂ (List.forall₂_map_right_iff.mpr (List.forall₂_same.mpr each))

theorem lookup_of_mem {row : Fixed} (distinct : (row.map (·.1)).Nodup) :
    ∀ pair ∈ row, row.lookup pair.1 = some pair.2 := by
  induction row with
  | nil => simp
  | cons head row ih =>
    obtain ⟨fresh, distinct⟩ := List.nodup_cons.mp distinct
    refine List.forall_mem_cons.mpr ⟨by rw [List.lookup_cons, beq_self_eq_true], fun pair member => ?_⟩
    have other : pair.1 ≠ head.1 := fun same => fresh (List.mem_map.mpr ⟨pair, member, same⟩)
    rw [List.lookup_cons, beq_eq_false_iff_ne.mpr other]
    exact ih distinct pair member

/-- A row is aligned to its own columns already. -/
theorem align?_self (row : Fixed) (distinct : (row.map (·.1)).Nodup) :
    align? (row.map (·.1)) row = some (row.map (·.2)) := by
  rw [align?, if_pos (List.length_map _).symm, List.mapM_map]
  exact mapM_some (lookup_of_mem distinct)

theorem conjunctionRow?_some {row : Fixed} (filled : row ≠ []) (distinct : (row.map (·.1)).Nodup) :
    conjunctionRow? (row.map some) = some row := by
  have each : (row.map some).mapM id = some row := by
    rw [List.mapM_map]
    exact (mapM_some fun _ _ => rfl).trans (congrArg some (List.map_id row))
  simp [conjunctionRow?, each, filled, distinct]

variable {columns : List Column} {row : List Value} {rows : List (List Value)}

theorem Expr.Listable.filled (listable : Expr.Listable columns rows) : rows ≠ [] :=
  List.ne_nil_of_length_pos (Nat.lt_of_lt_of_le Nat.zero_lt_two listable.several)

theorem Expr.Listable.keys (listable : Expr.Listable columns rows) (member : row ∈ rows) :
    (columns.zip row).map (·.1) = columns :=
  List.map_fst_zip (listable.complete row member).ge

/-- Rows over the same columns are the rows of one list. -/
theorem inListOf?_zip (listable : Expr.Listable columns rows) :
    inListOf? (rows.map (columns.zip ·)) = some (.inList columns rows.eraseDups false) := by
  have aligned : (rows.map (columns.zip ·)).mapM (align? columns) = some rows := by
    rw [List.mapM_map]
    refine (mapM_some (g := id) fun row member => ?_).trans (congrArg some (List.map_id rows))
    have self := align?_self (columns.zip row) ((listable.keys member).symm ▸ listable.distinct)
    rw [listable.keys member, List.map_snd_zip (listable.complete row member).le] at self
    exact self
  obtain ⟨first, rest, rfl⟩ := List.exists_cons_of_ne_nil listable.filled
  obtain ⟨column, others, rfl⟩ := List.exists_cons_of_ne_nil listable.named
  obtain ⟨table, together⟩ := listable.together
  have one : (column :: others).all (·.table == column.table) = true :=
    List.all_eq_true.mpr fun other member =>
      beq_iff_eq.mpr ((together other member).trans (together column List.mem_cons_self).symm)
  rw [List.map_cons] at aligned ⊢
  simp only [inListOf?, listable.keys List.mem_cons_self, aligned, one, firstOccurrences_eq_eraseDups]
  rfl

namespace Expr

theorem comparisons_equality? (columns : List Column) (known : ∀ value ∈ row, value.isNull = false) :
    (comparisons .eq columns row).map equality? = (columns.zip row).map some := by
  induction columns generalizing row with
  | nil => rfl
  | cons column columns ih =>
    cases row with
    | nil => rfl
    | cons value row =>
      obtain ⟨first, rest⟩ := List.forall_mem_cons.mp known
      have read : (comparison column .eq value).equality? = some (column, value) := if_neg (Bool.eq_false_iff.mp first)
      exact congrArg₂ List.cons read (ih rest)

/-- A row of one value is read off a comparison, a longer one off a conjunction. -/
theorem ofRow_rows? (listable : Listable columns rows) (member : row ∈ rows) :
    (ofRow .and .eq columns row).rows? = some [columns.zip row] := by
  obtain ⟨column, others, rfl⟩ := List.exists_cons_of_ne_nil listable.named
  obtain ⟨value, values, rfl⟩ := List.exists_cons_of_length_eq_add_one (listable.complete row member)
  have read := comparisons_equality? (column :: others) (listable.known _ member)
  rw [ofRow]
  split
  next only one =>
    obtain ⟨rfl, _⟩ := List.cons.inj one
    rw [one] at read
    obtain ⟨pair, rest⟩ := List.cons.inj read
    have single : (column :: others).zip (value :: values) = [(column, value)] :=
      congrArg ((column, value) :: ·) (List.map_eq_nil_iff.mp rest.symm)
    rw [single]
    exact congrArg (Option.map fun pair => [[pair]]) pair
  next =>
    have conjunction : (chain .and (comparisons .eq (column :: others) (value :: values))).rows? =
        (conjunctionRow? (((chain .and (comparisons .eq (column :: others) (value :: values))).members .and).map
          equality?)).map ([·]) := rfl
    have row := conjunctionRow?_some (List.cons_ne_nil (column, value) (others.zip values))
      ((listable.keys member).symm ▸ listable.distinct)
    rw [conjunction, members_chain, read]
    exact congrArg (Option.map ([·])) row

theorem chain_endsInFalse (es : List Expr) : (chain .or es).endsInFalse = true := by
  induction es with
  | nil => rfl
  | cons e es ih => exact ih

theorem ofInList_inList? (listable : Listable columns rows) :
    (ofInList columns rows false).inList? = some (.inList columns rows.eraseDups false) := by
  have read : ((rows.map (ofRow .and .eq columns)).map rows?).mapM id =
      some (rows.map fun row => [columns.zip row]) := by
    rw [List.map_map, List.mapM_map]
    exact mapM_some fun row member => ofRow_rows? listable member
  have whole : (rows.map fun row => [columns.zip row]).flatten = rows.map (columns.zip ·) := by
    rw [← List.flatMap_def, List.map_eq_flatMap]
  have written : ofInList columns rows false = chain .or (rows.map (ofRow .and .eq columns)) := rfl
  rw [written, inList?, chain_endsInFalse, members_chain, List.length_map, read]
  simp only [Bool.not_true, Bool.false_eq_true, if_false, if_neg (Nat.not_lt.mpr listable.several), Option.bind_some,
    whole]
  exact inListOf?_zip listable

theorem withInLists_of_inList? {e : Expr} {list : Atom} (found : e.inList? = some list) :
    e.withInLists = .atom list := by
  cases disjunction : e.isLink .or with
  | true =>
    cases e with
    | link c left right =>
      cases beq_iff_eq.mp disjunction
      simp only [withInLists, found]
    | not operand => cases disjunction
    | atom leaf => cases disjunction
  | false => cases found.symm.trans (inList?_of_not_or disjunction)

/-- The chain is one conjunct, it stays as it is until lists are looked for, and it is found to be one. -/
theorem ofInList_withInLists (listable : Listable columns rows) :
    ((ofInList columns rows false).pushed false).rootChained.withInLists =
      chain .and [.atom (.inList columns rows.eraseDups false)] := by
  have operands : ∀ e ∈ rows.map (ofRow .and .eq columns),
      e.Operand .or ∧ e.Clean ∧ e.isConstant false = false := by
    intro e member
    obtain ⟨row, _, rfl⟩ := List.mem_map.mp member
    exact ofRow_operand .and .eq columns row
  have form : (ofInList columns rows false).ChainForm := chain_chainForm fun e member => (operands e member).1
  have clean : (ofInList columns rows false).Clean :=
    chain_clean fun e member => ⟨(operands e member).2.2, (operands e member).2.1⟩
  have conjunct : (ofInList columns rows false).operands .and = [ofInList columns rows false] :=
    ((operands_and_chained_eq form clean).1 .and).trans
      (members_eq_self (chain_isLink_ne (by decide) _) (chain_isConstant_ne (by decide) _))
  have root : (ofInList columns rows false).rootChained = chain .and [ofInList columns rows false] := by
    rw [rootChained, conjunct]
  rw [pushed_eq_self form.notFree, root, withInLists_chain, List.map_singleton,
    withInLists_of_inList? (ofInList_inList? listable)]

theorem ofInList_unexpanded (listable : Listable columns rows) (budget : Nat) :
    ∀ f ∈ ((ofInList columns rows false).pushed false).rootChained.withInLists.members .and,
      ¬ f.Expandable budget := by
  rw [ofInList_withInLists listable, members_chain]
  intro f member expandable
  cases List.mem_singleton.mp member
  cases expandable.disjunction

theorem ofInList_normalized (listable : Listable columns rows) (budget : Nat) :
    (ofInList columns rows false).normalized budget = chain .and [.atom (.inList columns rows.eraseDups false)] := by
  rw [normalized, expanded, if_neg, ofInList_withInLists listable]
  rintro ⟨_, f, member, expandable⟩
  exact ofInList_unexpanded listable budget f member expandable

end Expr

/-- Writing a list out and normalizing what was written comes to the list itself, without
repeated rows and as the only conjunct, whatever the budget and the limits are. -/
theorem Normalizer.normalize_expandInList (n : Normalizer) {a : Arena} {id : NodeId}
    (listable : Expr.Listable columns rows)
    (found : a.get? id = some (.atom (.inList columns rows false))) (limit : Nat) :
    ∃ head b e, a.expandInList id = .ok (some (head, b)) ∧ b.expr head = .ok e ∧
      n.normalize { Arena.ofExpr e with limit } =
        .ok { Arena.ofExpr (.link .and (.atom (.inList columns rows.eraseDups false)) (Expr.constant true)) with
          limit := Nat.min limit n.nodeLimit } := by
  obtain ⟨head, b, t, run, written⟩ := Arena.expandInList_replaces found
  have holds := (Arena.ofExpr_holds (Expr.ofInList columns rows false)).limited limit
  have room := roomy_of_unexpanded holds (Expr.ofInList_unexpanded listable n.budget)
  refine ⟨head, b, _, run, Arena.expr_eq written.owns.stands, ?_⟩
  rw [normalize_eq_stored holds room, stored, Expr.ofInList_normalized listable]
  rfl

/-! ### A list with a row twice -/

def pairColumns : List Column := [.ofTable "t" "a" 0, .ofTable "t" "b" 0]

def pairRows : List (List Value) := [[.int 1, .int 2], [.int 3, .int 4], [.int 1, .int 2]]

def pairList : Arena := { nodes := #[.atom (.inList pairColumns pairRows false)], root := 0, limit := 100 }

theorem pairRows_listable : Expr.Listable pairColumns pairRows where
  named := by decide
  distinct := by decide
  together := ⟨some "t", by decide⟩
  several := by decide
  complete := by decide
  known := by decide

theorem Normalizer.normalize_expandInList_pairs :
    Expr.Listable pairColumns pairRows ∧ pairList.get? 0 = some (.atom (.inList pairColumns pairRows false)) ∧
      ∃ head b e, pairList.expandInList 0 = .ok (some (head, b)) ∧ b.expr head = .ok e ∧
        normalize { budget := 10, nodeLimit := 100 } { Arena.ofExpr e with limit := 50 } =
          .ok { Arena.ofExpr (.link .and (.atom (.inList pairColumns [[.int 1, .int 2], [.int 3, .int 4]] false))
            (Expr.constant true)) with limit := 50 } := by
  have found : pairList.get? 0 = some (.atom (.inList pairColumns pairRows false)) := rfl
  have once : pairRows.eraseDups = [[.int 1, .int 2], [.int 3, .int 4]] := by rfl
  obtain ⟨head, b, e, run, read, normalized⟩ :=
    normalize_expandInList { budget := 10, nodeLimit := 100 } pairRows_listable found 50
  rw [once] at normalized
  exact ⟨pairRows_listable, found, head, b, e, run, read, normalized⟩

end Selectivity
