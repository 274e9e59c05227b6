import Selectivity.Proofs.InListRoundTrip
import Selectivity.Proofs.SharedTrees

/-! Which disjunctions become IN lists, and which lists. What a disjunct has to look like, and
what rows it contributes, is said here apart from the walks that find out; a pass over a tree in
chain form makes exactly the rewriting of it that follows these rules. -/

namespace Selectivity

namespace Expr

/-! ### What disjuncts fix -/

/-- A column is compared for equality with a constant, on either side. -/
inductive Equates : Expr → Column × Value → Prop
  | plain {column value} (known : value.isNull = false) :
      Equates (.atom (.compare .eq (.column column) (some (.literal value)))) (column, value)
  | swapped {column value} (known : value.isNull = false) :
      Equates (.atom (.compare .eq (.literal value) (some (.column column)))) (column, value)

/-- The rows that a disjunct stands for. -/
inductive Fixes : Expr → List Fixed → Prop
  | equality {e pair} (equates : Equates e pair) : Fixes e [[pair]]
  | list {column} {values : List Value} (known : ∀ value ∈ values, value.isNull = false) :
      Fixes (.atom (.inList [column] (values.map ([·])) false)) (values.map fun value => [(column, value)])
  | conjunction {es row} (filled : es ≠ []) (equate : List.Forall₂ Equates es row)
      (distinct : (row.map (·.1)).Nodup) : Fixes (chain .and es) [row]

/-- The disjuncts amount to rows over the same columns of one table. -/
structure Eligible (es : List Expr) (rows : List Fixed) : Prop where
  several : 2 ≤ es.length
  fixed : ∃ groups, List.Forall₂ Fixes es groups ∧ groups.flatten = rows
  filled : rows ≠ []
  sameColumns : ∀ row ∈ rows, ∀ other ∈ rows, ∀ column, column ∈ row.map (·.1) ↔ column ∈ other.map (·.1)
  sameTable : ∃ table, ∀ row ∈ rows, ∀ pair ∈ row, pair.1.table = table

/-- The values that a row has for some columns, in the order of these. -/
def Aligned (columns : List Column) (row : Fixed) (values : List Value) : Prop :=
  List.Forall₂ (fun column value => (column, value) ∈ row) columns values

/-- What becomes of an expression in chain form. -/
inductive Rewritten : Expr → Expr → Prop
  | atom {leaf} : Rewritten (.atom leaf) (.atom leaf)
  | conjunction {es fs} (filled : es ≠ []) (each : List.Forall₂ Rewritten es fs) :
      Rewritten (chain .and es) (chain .and fs)
  | converted {es first rest values} (eligible : Eligible es (first :: rest))
      (aligned : List.Forall₂ (Aligned (first.map (·.1))) (first :: rest) values) :
      Rewritten (chain .or es) (.atom (.inList (first.map (·.1)) values.eraseDups false))
  | kept {es fs} (filled : es ≠ []) (ineligible : ∀ rows, ¬ Eligible es rows)
      (each : List.Forall₂ Rewritten es fs) : Rewritten (chain .or es) (chain .or fs)

variable {e f : Expr} {es : List Expr} {row : Fixed} {rows : List Fixed} {columns : List Column}
  {values : List Value} {pair : Column × Value}

theorem equality?_eq_some : e.equality? = some pair ↔ Equates e pair := by
  constructor
  · intro found
    cases e with
    | atom leaf =>
      simp only [equality?, Atom.equality?] at found
      split at found
      next =>
        split at found
        next => cases found
        next known =>
          cases found
          exact .plain (Bool.eq_false_iff.mpr known)
      next =>
        split at found
        next => cases found
        next known =>
          cases found
          exact .swapped (Bool.eq_false_iff.mpr known)
      next => cases found
    | link => cases found
    | not => cases found
  · intro equates
    cases equates with
    | plain known => simp only [equality?, Atom.equality?, known, Bool.false_eq_true, if_false]
    | swapped known => simp only [equality?, Atom.equality?, known, Bool.false_eq_true, if_false]

private theorem singleColumnRows?_eq_some {column : Column} {lists : List (List Value)} :
    Atom.singleColumnRows? column lists = some rows ↔
      ∃ values : List Value, (∀ value ∈ values, value.isNull = false) ∧ lists = values.map ([·]) ∧
        rows = values.map fun value => [(column, value)] := by
  rw [Atom.singleColumnRows?, mapM_eq_some_iff]
  constructor
  · intro each
    induction each with
    | nil => exact ⟨[], by simp, rfl, rfl⟩
    | @cons list row lists rows first _ ih =>
      obtain ⟨values, known, rfl, rfl⟩ := ih
      split at first
      next value =>
        split at first
        next => cases first
        next some =>
          cases first
          exact ⟨value :: values, List.forall_mem_cons.mpr ⟨Bool.eq_false_iff.mpr some, known⟩, rfl, rfl⟩
      next => cases first
  · rintro ⟨values, known, rfl, rfl⟩
    rw [List.forall₂_map_left_iff, List.forall₂_map_right_iff, List.forall₂_same]
    intro value member
    simp only [known value member, Bool.false_eq_true, if_false]

private theorem conjunctionRow?_eq_some :
    conjunctionRow? (es.map equality?) = some row ↔
      es ≠ [] ∧ List.Forall₂ Equates es row ∧ (row.map (·.1)).Nodup := by
  have read (row : Fixed) : (es.map equality?).mapM id = some row ↔ List.Forall₂ Equates es row := by
    rw [List.mapM_map, mapM_eq_some_iff]
    simp only [Function.comp_apply, id_eq, equality?_eq_some]
  simp only [conjunctionRow?, Option.bind_eq_bind, Option.bind_eq_some_iff, read]
  constructor
  · rintro ⟨found, equate, proper⟩
    split at proper
    next => cases proper
    next proper =>
      cases proper
      simp only [List.isEmpty_iff, Bool.not_eq_true', decide_eq_false_iff_not, not_or, not_not] at proper
      refine ⟨?_, equate, proper.2⟩
      rintro rfl
      cases equate
      exact proper.1 rfl
  · rintro ⟨filled, equate, distinct⟩
    refine ⟨row, equate, ?_⟩
    have some : row ≠ [] := by
      rintro rfl
      cases equate
      exact filled rfl
    simp [distinct, some]

theorem rows?_eq_some (form : e.ChainForm) : e.rows? = some rows ↔ Fixes e rows := by
  constructor
  · intro found
    unfold rows? at found
    split at found
    next =>
      obtain ⟨values, known, rfl, rfl⟩ := singleColumnRows?_eq_some.mp found
      exact .list known
    next leaf _ =>
      obtain ⟨pair, equality, rfl⟩ := Option.map_eq_some_iff.mp found
      exact .equality (equality?_eq_some.mp equality)
    next left right =>
      obtain ⟨row, conjunction, rfl⟩ := Option.map_eq_some_iff.mp found
      obtain ⟨filled, equate, distinct⟩ := conjunctionRow?_eq_some.mp conjunction
      have fixes := Fixes.conjunction filled equate distinct
      rwa [chain_members form (.inl rfl)] at fixes
    next => cases found
  · intro fixes
    cases fixes with
    | equality equates =>
      have found := equality?_eq_some.mpr equates
      cases equates with
      | plain => exact congrArg (Option.map fun pair => [[pair]]) found
      | swapped => exact congrArg (Option.map fun pair => [[pair]]) found
    | list known => exact singleColumnRows?_eq_some.mpr ⟨_, known, rfl, rfl⟩
    | @conjunction es row filled equate distinct =>
      obtain ⟨first, rest, rfl⟩ := List.exists_cons_of_ne_nil filled
      have members : (link .and first (chain .and rest)).members .and = first :: rest := members_chain .and (first :: rest)
      have found := conjunctionRow?_eq_some.mpr ⟨filled, equate, distinct⟩
      show (conjunctionRow? (((link .and first (chain .and rest)).members .and).map equality?)).map ([·]) = some [row]
      rw [members, found]
      rfl

theorem Fixes.proper (fixes : Fixes e rows) : ∀ row ∈ rows, row ≠ [] ∧ (row.map (·.1)).Nodup := by
  cases fixes with
  | equality => simp
  | list known => simp
  | conjunction filled equate distinct =>
    intro row member
    cases List.mem_singleton.mp member
    refine ⟨?_, distinct⟩
    rintro rfl
    cases equate
    exact filled rfl

/-! ### Rows under the columns of the first one -/

theorem align?_eq_some (distinct : (row.map (·.1)).Nodup) :
    align? columns row = some values ↔ row.length = columns.length ∧ Aligned columns row values := by
  have lookups : columns.mapM (fun column => row.lookup column) = some values ↔ Aligned columns row values := by
    rw [mapM_eq_some_iff]
    constructor
    · exact List.Forall₂.imp fun column value found => mem_of_lookup found
    · exact List.Forall₂.imp fun column value member => lookup_of_mem distinct (column, value) member
  rw [align?]
  split
  next same => rw [lookups, and_iff_right same]
  next other => simp [other]

theorem Aligned.mem (aligned : Aligned columns row values) {column : Column} (member : column ∈ columns) :
    column ∈ row.map (·.1) := by
  induction aligned with
  | nil => cases member
  | cons first _ ih =>
    rcases List.mem_cons.mp member with rfl | member
    · exact List.mem_map.mpr ⟨_, first, rfl⟩
    · exact ih member

theorem exists_aligned (within : ∀ column ∈ columns, column ∈ row.map (·.1)) : ∃ values, Aligned columns row values := by
  induction columns with
  | nil => exact ⟨[], .nil⟩
  | cons column columns ih =>
    obtain ⟨first, rest⟩ := List.forall_mem_cons.mp within
    obtain ⟨⟨_, value⟩, member, rfl⟩ := List.mem_map.mp first
    obtain ⟨values, aligned⟩ := ih rest
    exact ⟨value :: values, .cons member aligned⟩

/-- As many columns as are asked for, all different, and all of those: there is no other. -/
theorem align?_eq_some_iff (distinct : (row.map (·.1)).Nodup) (different : columns.Nodup) :
    align? columns row = some values ↔
      (∀ column, column ∈ row.map (·.1) ↔ column ∈ columns) ∧ Aligned columns row values := by
  rw [align?_eq_some distinct]
  refine and_congr_left fun aligned => ⟨fun length column => ?_, fun same => ?_⟩
  · have within : columns ⊆ row.map (·.1) := fun column member => aligned.mem member
    have whole : columns.Perm (row.map (·.1)) :=
      (List.subperm_of_subset different within).perm_of_length_le (by rw [List.length_map, length])
    exact whole.mem_iff.symm
  · have whole := (List.perm_ext_iff_of_nodup distinct different).mpr same
    rw [← whole.length_eq, List.length_map]

private theorem mapM_align? (distinct : ∀ row ∈ rows, (row.map (·.1)).Nodup) (different : columns.Nodup)
    {lists : List (List Value)} :
    rows.mapM (align? columns) = some lists ↔
      (∀ row ∈ rows, ∀ column, column ∈ row.map (·.1) ↔ column ∈ columns) ∧
        List.Forall₂ (Aligned columns) rows lists := by
  rw [mapM_eq_some_iff, ← List.forall₂_and_left]
  constructor
  · intro each
    exact ((List.forall₂_and_left _ _).mpr ⟨distinct, each⟩).imp fun row values found =>
      (align?_eq_some_iff found.1 different).mp found.2
  · intro each
    exact ((List.forall₂_and_left _ _).mpr ⟨distinct, each⟩).imp fun row values found =>
      (align?_eq_some_iff found.1 different).mpr found.2

private theorem inListOf?_named {first : Fixed} {column : Column} {others : List Column}
    (named : first.map (·.1) = column :: others) (rest : List Fixed) :
    inListOf? (first :: rest) = ((first :: rest).mapM (align? (column :: others))).bind fun lists =>
      if (column :: others).all (·.table == column.table) then
        some (.inList (column :: others) (firstOccurrences lists) false)
      else none := by
  simp only [inListOf?, named]
  rfl

theorem inListOf?_eq_some {first : Fixed} {rest : List Fixed} {list : Atom}
    (proper : ∀ row ∈ first :: rest, row ≠ [] ∧ (row.map (·.1)).Nodup) :
    inListOf? (first :: rest) = some list ↔
      (∀ row ∈ first :: rest, ∀ column, column ∈ row.map (·.1) ↔ column ∈ first.map (·.1)) ∧
        (∃ table, ∀ column ∈ first.map (·.1), column.table = table) ∧
        ∃ values, List.Forall₂ (Aligned (first.map (·.1))) (first :: rest) values ∧
          list = .inList (first.map (·.1)) values.eraseDups false := by
  obtain ⟨filled, different⟩ := proper first List.mem_cons_self
  have read (lists : List (List Value)) : (first :: rest).mapM (align? (first.map (·.1))) = some lists ↔ _ :=
    mapM_align? (fun row member => (proper row member).2) different
  obtain ⟨column, others, named⟩ : ∃ column others, first.map (·.1) = column :: others :=
    List.exists_cons_of_ne_nil (mt List.map_eq_nil_iff.mp filled)
  have together : (column :: others).all (·.table == column.table) = true ↔
      ∃ table, ∀ other ∈ column :: others, other.table = table := by
    simp only [List.all_eq_true, beq_iff_eq]
    refine ⟨fun same => ⟨_, same⟩, fun ⟨table, same⟩ other member => ?_⟩
    exact (same other member).trans (same column List.mem_cons_self).symm
  rw [inListOf?_named named, Option.bind_eq_some_iff]
  rw [named] at read ⊢
  simp only [read, firstOccurrences_eq_eraseDups, Option.ite_none_right_eq_some, together, Option.some.injEq]
  constructor
  · rintro ⟨values, ⟨same, aligned⟩, table, rfl⟩
    exact ⟨same, table, values, aligned, rfl⟩
  · rintro ⟨same, table, values, aligned, rfl⟩
    exact ⟨values, ⟨same, aligned⟩, table, rfl⟩

/-! ### Chains of disjuncts -/

theorem Eligible.exists_aligned {first : Fixed} {rest : List Fixed} (eligible : Eligible es (first :: rest)) :
    ∃ values, List.Forall₂ (Aligned (first.map (·.1))) (first :: rest) values := by
  have each : ∀ row ∈ first :: rest, ∃ values, Aligned (first.map (·.1)) row values := by
    intro row member
    exact Expr.exists_aligned fun column => (eligible.sameColumns first List.mem_cons_self row member column).mp
  clear eligible
  generalize first.map (·.1) = columns at each ⊢
  generalize first :: rest = rows at each ⊢
  induction rows with
  | nil => exact ⟨[], .nil⟩
  | cons row rows ih =>
    obtain ⟨⟨values, aligned⟩, others⟩ := List.forall_mem_cons.mp each
    obtain ⟨lists, below⟩ := ih others
    exact ⟨values :: lists, .cons aligned below⟩

private theorem mapM_rows? (forms : ∀ e ∈ es, e.ChainForm) {groups : List (List Fixed)} :
    (es.map rows?).mapM id = some groups ↔ List.Forall₂ Fixes es groups := by
  rw [List.mapM_map, mapM_eq_some_iff]
  constructor
  · intro each
    exact ((List.forall₂_and_left _ _).mpr ⟨forms, each⟩).imp fun e rows found => (rows?_eq_some found.1).mp found.2
  · intro each
    exact ((List.forall₂_and_left _ _).mpr ⟨forms, each⟩).imp fun e rows found => (rows?_eq_some found.1).mpr found.2

theorem fixes_proper {groups : List (List Fixed)} (fixed : List.Forall₂ Fixes es groups) :
    ∀ row ∈ groups.flatten, row ≠ [] ∧ (row.map (·.1)).Nodup := by
  induction fixed with
  | nil => simp
  | cons first _ ih =>
    rw [List.flatten_cons]
    exact List.forall_mem_append.mpr ⟨first.proper, ih⟩

theorem chain_inList?_eq_some (forms : ∀ e ∈ es, e.ChainForm) {list : Atom} :
    (chain .or es).inList? = some list ↔
      ∃ first rest values, Eligible es (first :: rest) ∧
        List.Forall₂ (Aligned (first.map (·.1))) (first :: rest) values ∧
        list = .inList (first.map (·.1)) values.eraseDups false := by
  simp only [inList?, chain_endsInFalse, members_chain, Bool.not_true, Bool.false_eq_true, if_false,
    Option.ite_none_left_eq_some, Nat.not_lt, Option.bind_eq_some_iff, mapM_rows? forms]
  constructor
  · rintro ⟨several, groups, fixed, found⟩
    have proper := fixes_proper fixed
    generalize whole : groups.flatten = rows at found proper
    cases rows with
    | nil => cases found
    | cons first rest =>
      obtain ⟨same, ⟨table, together⟩, values, aligned, rfl⟩ := (inListOf?_eq_some proper).mp found
      refine ⟨first, rest, values, ⟨several, ⟨groups, fixed, whole⟩, List.cons_ne_nil _ _, ?_, table, ?_⟩, aligned, rfl⟩
      · intro row member other others column
        exact (same row member column).trans (same other others column).symm
      · intro row member pair within
        exact together pair.1 ((same row member pair.1).mp (List.mem_map.mpr ⟨pair, within, rfl⟩))
  · rintro ⟨first, rest, values, ⟨several, ⟨groups, fixed, whole⟩, _, same, table, together⟩, aligned, rfl⟩
    have proper := fixes_proper fixed
    rw [whole] at proper
    refine ⟨several, groups, fixed, ?_⟩
    rw [whole, inListOf?_eq_some proper]
    refine ⟨fun row member => same row member first List.mem_cons_self, ⟨table, ?_⟩, values, aligned, rfl⟩
    intro column member
    obtain ⟨pair, within, rfl⟩ := List.mem_map.mp member
    exact together first List.mem_cons_self pair within

theorem chain_inList?_eq_none (forms : ∀ e ∈ es, e.ChainForm) :
    (chain .or es).inList? = none ↔ ∀ rows, ¬ Eligible es rows := by
  constructor
  · intro none rows eligible
    obtain ⟨first, rest, rfl⟩ := List.exists_cons_of_ne_nil eligible.filled
    obtain ⟨values, aligned⟩ := eligible.exists_aligned
    have found := (chain_inList?_eq_some forms).mpr ⟨first, rest, values, eligible, aligned, rfl⟩
    rw [none] at found
    cases found
  · intro ineligible
    cases found : (chain .or es).inList? with
    | none => rfl
    | some list =>
      obtain ⟨first, rest, _, eligible, _⟩ := (chain_inList?_eq_some forms).mp found
      exact absurd eligible (ineligible _)

/-! ### The whole tree -/

theorem height_lt_chain {c : Connective} (member : e ∈ es) : e.height < (chain c es).height := by
  induction es with
  | nil => cases member
  | cons first es ih =>
    rcases List.mem_cons.mp member with rfl | member
    · exact Nat.lt_succ_of_le (Nat.le_max_left _ _)
    · exact Nat.lt_succ_of_le ((ih member).le.trans (Nat.le_max_right _ _))

theorem chain_or_withInLists (filled : es ≠ []) (unlisted : (chain .or es).inList? = none) :
    (chain .or es).withInLists = chain .or (es.map withInLists) := by
  obtain ⟨first, rest, rfl⟩ := List.exists_cons_of_ne_nil filled
  exact (withInLists_eq_disjunctsInLists rfl unlisted).trans (disjunctsInLists_chain _)

private theorem eq_chain {c : Connective} (form : e.ChainForm) (links : e.isLink c = true) :
    ∃ es, es ≠ [] ∧ e = chain c es := by
  refine ⟨e.members c, ?_, (chain_members form (.inl links)).symm⟩
  obtain ⟨left, right, rfl⟩ := eq_link_of_isLink links
  rw [members, if_pos rfl]
  exact List.cons_ne_nil _ _

private theorem each_rewritten_iff {fs : List Expr} (each : ∀ e ∈ es, ∀ f, Rewritten e f ↔ f = e.withInLists) :
    List.Forall₂ Rewritten es fs ↔ fs = es.map withInLists := by
  induction es generalizing fs with
  | nil => exact List.forall₂_nil_left_iff
  | cons e es ih =>
    obtain ⟨first, rest⟩ := List.forall_mem_cons.mp each
    constructor
    · rintro (_ | ⟨head, tail⟩)
      rw [(first _).mp head, (ih rest).mp tail, List.map_cons]
    · rintro rfl
      exact .cons ((first _).mpr rfl) ((ih rest).mpr rfl)

/-- The rules leave no choice, and the pass follows them. -/
theorem rewritten_iff (form : e.ChainForm) : Rewritten e f ↔ f = e.withInLists := by
  induction height : e.height using Nat.strong_induction_on generalizing e f with
  | _ height' ih =>
    subst height
    have below {c : Connective} {es : List Expr} (whole : e = chain c es) : ∀ d ∈ es, d.ChainForm := by
      intro d member
      rw [whole] at form
      exact (members_operand form d ((members_chain c es).symm ▸ member)).1
    have each {c : Connective} {es fs : List Expr} (whole : e = chain c es) :
        List.Forall₂ Rewritten es fs ↔ fs = es.map withInLists := by
      refine each_rewritten_iff fun d member g => ?_
      exact ih d.height (whole ▸ height_lt_chain member) (below whole d member) rfl
    constructor
    · intro rewritten
      cases rewritten with
      | atom => rfl
      | conjunction filled parts => rw [(each rfl).mp parts, withInLists_chain]
      | converted eligible aligned =>
        have found := (chain_inList?_eq_some (below rfl)).mpr ⟨_, _, _, eligible, aligned, rfl⟩
        exact (withInLists_of_inList? found).symm
      | kept filled ineligible parts =>
        rw [(each rfl).mp parts, chain_or_withInLists filled ((chain_inList?_eq_none (below rfl)).mpr ineligible)]
    · rintro rfl
      cases e with
      | link c left right =>
        obtain ⟨es, filled, whole⟩ := eq_chain form (beq_self_eq_true c)
        cases c with
        | and =>
          rw [whole, withInLists_chain]
          exact .conjunction filled ((each whole).mpr rfl)
        | or =>
          cases found : (chain .or es).inList? with
          | none =>
            rw [whole, chain_or_withInLists filled found]
            exact .kept filled ((chain_inList?_eq_none (below whole)).mp found) ((each whole).mpr rfl)
          | some list =>
            obtain ⟨first, rest, values, eligible, aligned, rfl⟩ := (chain_inList?_eq_some (below whole)).mp found
            rw [whole, withInLists_of_inList? found]
            exact .converted eligible aligned
      | not => exact form.elim
      | atom leaf => exact .atom

end Expr

/-- Whatever hangs below several nodes, the pass makes of a tree what the rules say. -/
theorem Arena.withInLists_rewritten {a : Arena} {e : Expr} (stands : a.Stands a.root e) (form : e.ChainForm) :
    ∃ b f, a.withInLists = .ok b ∧ b.rootExpr = .ok f ∧ ∀ g, e.Rewritten g ↔ g = f := by
  obtain ⟨b, run, after, _⟩ := withInLists_stands stands form
  exact ⟨b, _, run, expr_eq after, fun g => Expr.rewritten_iff form⟩

namespace Arena

private def rowId : Column := .ofTable "t" "id" 0

private def rowKind : Column := .ofTable "t" "kind" 1

private def secondRow : Expr := .chain .and [.comparison rowKind .eq (.int 4), .comparison rowId .eq (.int 2)]

/-- Two chains with the last disjunct in common. It has the columns of the other one only in the first. -/
def overlapping : Arena :=
  { nodes := #[.constant true, .constant false, .atom (.compare .eq (.column rowId) (some (.literal (.int 1)))),
      .atom (.compare .eq (.literal (.int 3)) (some (.column rowKind))), .link .and 3 0, .link .and 2 4,
      .atom (.compare .eq (.column rowKind) (some (.literal (.int 4)))),
      .atom (.compare .eq (.column rowId) (some (.literal (.int 2)))), .link .and 7 0, .link .and 6 8,
      .link .or 9 1, .link .or 5 10, .link .or 2 10, .link .and 12 0, .link .and 11 13],
    root := 14, limit := 100 }

def overlappingExpr : Expr :=
  let firstRow : Expr := .chain .and
    [.comparison rowId .eq (.int 1), .atom (.compare .eq (.literal (.int 3)) (some (.column rowKind)))]
  .chain .and [.chain .or [firstRow, secondRow], .chain .or [.comparison rowId .eq (.int 1), secondRow]]

private theorem overlapping_stands : overlapping.Stands overlapping.root overlappingExpr := by
  have yes : overlapping.Stands 0 (.constant true) := .atom rfl
  have no : overlapping.Stands 1 (.constant false) := .atom rfl
  have first : overlapping.Stands 2 (.comparison rowId .eq (.int 1)) := .atom rfl
  have second : overlapping.Stands 10 (.chain .or [secondRow]) :=
    .link rfl (.link rfl (.atom rfl) (.link rfl (.atom rfl) yes)) no
  exact .link rfl (.link rfl (.link rfl first (.link rfl (.atom rfl) yes)) second)
    (.link rfl (.link rfl first second) yes)

private theorem overlappingExpr_chainForm : overlappingExpr.ChainForm := by
  simp [overlappingExpr, secondRow, Expr.ChainForm, Expr.chain, Expr.isLink, Expr.comparison, Expr.constant,
    Connective.unit]

theorem withInLists_rewritten_overlapping :
    overlapping.Stands overlapping.root overlappingExpr ∧ overlappingExpr.ChainForm ∧
      ∃ b f, overlapping.withInLists = .ok b ∧ b.rootExpr = .ok f ∧ (∀ g, overlappingExpr.Rewritten g ↔ g = f) ∧
        f = .chain .and [.atom (.inList [rowId, rowKind] [[.int 1, .int 3], [.int 2, .int 4]] false),
          .chain .or [.comparison rowId .eq (.int 1), secondRow]] := by
  obtain ⟨b, f, run, read, only⟩ := withInLists_rewritten overlapping_stands overlappingExpr_chainForm
  have listed : f = overlappingExpr.withInLists :=
    (Expr.rewritten_iff overlappingExpr_chainForm).mp ((only f).mpr rfl)
  exact ⟨overlapping_stands, overlappingExpr_chainForm, b, f, run, read, only, listed.trans rfl⟩

end Arena
end Selectivity
