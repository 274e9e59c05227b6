import Selectivity.Proofs.InListStage
import Selectivity.Proofs.StageTruth
import Mathlib.Data.List.Nodup

/-! Turning disjunctions of equalities into IN lists keeps the truth of an expression on
every row. What a disjunct fixes is read in the order of another disjunct's columns,
which needs the columns of a row to be different; and rows are dropped that equal
another one as stored values, which compare alike with everything. -/

namespace Selectivity

open Truth

theorem forall₂_of_mapM {α β : Type} {f : α → Option β} {xs : List α} {ys : List β}
    (all : xs.mapM f = some ys) : List.Forall₂ (fun x y => f x = some y) xs ys := by
  induction xs generalizing ys with
  | nil =>
    cases all
    exact .nil
  | cons x xs ih =>
    simp only [List.mapM_cons, Option.bind_eq_bind, Option.bind_eq_some_iff, Option.pure_def, Option.some.injEq] at all
    obtain ⟨y, first, rest, others, rfl⟩ := all
    exact .cons first (ih others)

theorem mapM_of_forall₂ {α β : Type} {f : α → Option β} {xs : List α} {ys : List β}
    (all : List.Forall₂ (fun x y => f x = some y) xs ys) : xs.mapM f = some ys := by
  induction all with
  | nil => rfl
  | cons first _ rest =>
    rw [List.mapM_cons, first, rest]
    rfl

theorem mapM_eq_some_iff {α β : Type} {f : α → Option β} {xs : List α} {ys : List β} :
    xs.mapM f = some ys ↔ List.Forall₂ (fun x y => f x = some y) xs ys :=
  ⟨forall₂_of_mapM, mapM_of_forall₂⟩

section

variable (row : Row)

/-- A row of an IN list: its values against the columns, position by position. -/
def rowTruth (columns : List Column) (values : List Value) : Truth :=
  Connective.and.over (List.zipWith (fun column value => Comparator.eq.truth (row column) value) columns values)

/-- All that a disjunct fixes. -/
def Fixed.truth (fixed : Fixed) : Truth :=
  Connective.and.over (fixed.map fun pair => Comparator.eq.truth (row pair.1) pair.2)

/-! ### One disjunct -/

private theorem eq_truth_comm (a b : Value) : Comparator.eq.truth a b = Comparator.eq.truth b a := by
  simp only [Comparator.truth, Scalar.compare?_swap a b]
  cases a.compare? b with
  | none => rfl
  | some outcome => cases outcome <;> rfl

private theorem equality?_truth {leaf : Atom} {pair : Column × Value} (found : leaf.equality? = some pair) :
    leaf.truth row = Comparator.eq.truth (row pair.1) pair.2 := by
  unfold Atom.equality? at found
  split at found
  next =>
    split at found
    · cases found
    · cases found; rfl
  next =>
    split at found
    · cases found
    · cases found
      exact eq_truth_comm _ _
  next => cases found

private theorem singleColumnRows?_truth {column : Column} {rows : List (List Value)} {fixed : List Fixed}
    (found : Atom.singleColumnRows? column rows = some fixed) :
    fixed.map (Fixed.truth row) = rows.map (rowTruth row [column]) ∧ ∀ f ∈ fixed, (f.map (·.1)).Nodup := by
  have all := forall₂_of_mapM found
  clear found
  induction all with
  | nil => simp
  | @cons values f rest fixed first _ ih =>
    obtain ⟨same, distinct⟩ := ih
    split at first
    next value =>
      split at first
      · cases first
      · cases first
        refine ⟨?_, ?_⟩
        · rw [List.map_cons, List.map_cons, same]
          rfl
        · intro f member
          rcases List.mem_cons.mp member with rfl | member
          · simp
          · exact distinct f member
    next => cases first

private theorem conjunctionRow?_truth {es : List Expr} {fixed : Fixed}
    (found : conjunctionRow? (es.map Expr.equality?) = some fixed) :
    fixed.truth row = Expr.overTruth row .and es ∧ (fixed.map (·.1)).Nodup := by
  simp only [conjunctionRow?, Option.bind_eq_bind, Option.bind_eq_some_iff] at found
  obtain ⟨pairs, all, found⟩ := found
  split at found
  next => cases found
  next proper =>
    cases found
    simp only [Bool.not_eq_true', not_or, decide_eq_false_iff_not, Decidable.not_not] at proper
    refine ⟨?_, proper.2⟩
    have each := List.forall₂_map_left_iff.mp (forall₂_of_mapM all)
    clear all proper
    induction each with
    | nil => rfl
    | @cons e pair es pairs first _ ih =>
      have one : e.truth row = Comparator.eq.truth (row pair.1) pair.2 := by
        cases e with
        | atom leaf => exact equality?_truth row first
        | link => cases first
        | not => cases first
      simp only [Fixed.truth, Expr.overTruth, List.map_cons, Connective.over_cons, one] at ih ⊢
      rw [ih]

theorem Expr.rows?_truth {e : Expr} {rows : List Fixed} (found : e.rows? = some rows) :
    e.truth row = Connective.or.over (rows.map (Fixed.truth row)) ∧ ∀ f ∈ rows, (f.map (·.1)).Nodup := by
  unfold Expr.rows? at found
  split at found
  next column values =>
    obtain ⟨same, distinct⟩ := singleColumnRows?_truth row found
    exact ⟨congrArg Connective.or.over same.symm, distinct⟩
  next leaf _ =>
    obtain ⟨pair, equality, rfl⟩ := Option.map_eq_some_iff.mp found
    refine ⟨?_, by simp⟩
    simp only [Expr.truth, equality?_truth row equality, List.map_cons, List.map_nil, Connective.over_cons,
      Connective.over_nil, Connective.truth_unit, Fixed.truth]
  next left right =>
    obtain ⟨fixed, conjunction, rfl⟩ := Option.map_eq_some_iff.mp found
    obtain ⟨same, distinct⟩ := conjunctionRow?_truth row conjunction
    refine ⟨?_, by simpa using distinct⟩
    rw [List.map_singleton, same, members_truth]
    exact (Connective.or.truth_unit _).symm
  next => cases found

/-! ### Rows under the columns of the first one -/

private theorem exists_of_forall₂ {α β : Type} {f : α → Option β} {xs : List α} {ys : List β}
    (each : List.Forall₂ (fun x y => f x = some y) xs ys) : ∀ x ∈ xs, ∃ y, f x = some y := by
  induction each with
  | nil => simp
  | cons first _ ih => exact List.forall_mem_cons.mpr ⟨⟨_, first⟩, ih⟩

private theorem mem_zipWith_iff {α β γ : Type} {f : α → Option β} {g : α → β → γ} {xs : List α} {ys : List β}
    (each : List.Forall₂ (fun x y => f x = some y) xs ys) (t : γ) :
    t ∈ List.zipWith g xs ys ↔ ∃ x ∈ xs, ∃ y, f x = some y ∧ g x y = t := by
  induction each with
  | nil => simp
  | @cons x y xs ys first _ ih =>
    rw [List.zipWith_cons_cons, List.mem_cons, ih, List.exists_mem_cons_iff]
    apply or_congr_left
    constructor
    · rintro rfl
      exact ⟨y, first, rfl⟩
    · rintro ⟨_, again, rfl⟩
      cases first.symm.trans again
      rfl

theorem mem_of_lookup {fixed : Fixed} {column : Column} {value : Value}
    (found : fixed.lookup column = some value) : (column, value) ∈ fixed := by
  obtain ⟨before, after, split, _⟩ := List.lookup_eq_some_iff.mp found
  rw [split]
  exact List.mem_append_right before List.mem_cons_self

/-- A row that has as many columns as are asked for, and all of those, has no other. -/
private theorem align?_truth {columns : List Column} {fixed : Fixed} {values : List Value}
    (distinct : columns.Nodup) (different : (fixed.map (·.1)).Nodup) (found : align? columns fixed = some values) :
    rowTruth row columns values = fixed.truth row := by
  unfold align? at found
  split at found
  next length =>
    have each := forall₂_of_mapM found
    have present := exists_of_forall₂ each
    have within : columns ⊆ fixed.map (·.1) := by
      intro column member
      obtain ⟨value, found⟩ := present column member
      exact List.mem_map.mpr ⟨_, mem_of_lookup found, rfl⟩
    have all := (distinct.subperm within).perm_of_length_le (by simp only [List.length_map, length, Nat.le_refl])
    apply Connective.over_congr
    intro t
    rw [mem_zipWith_iff each, List.mem_map]
    constructor
    · rintro ⟨column, _, value, found, rfl⟩
      exact ⟨_, mem_of_lookup found, rfl⟩
    · rintro ⟨pair, member, rfl⟩
      have asked : pair.1 ∈ columns := all.mem_iff.mpr (List.mem_map.mpr ⟨pair, member, rfl⟩)
      obtain ⟨value, found⟩ := present pair.1 asked
      have same := List.inj_on_of_nodup_map different (mem_of_lookup found) member rfl
      exact ⟨pair.1, asked, value, found, congrArg (fun p : Column × Value => Comparator.eq.truth (row p.1) p.2) same⟩
  next => cases found

private theorem rowTruth_congr {values others : List Value} (same : (values == others) = true)
    (columns : List Column) : rowTruth row columns values = rowTruth row columns others := by
  induction values generalizing others columns with
  | nil =>
    cases others with
    | nil => rfl
    | cons => cases same
  | cons value values ih =>
    cases others with
    | nil => cases same
    | cons other others =>
      rw [List.cons_beq_cons, Bool.and_eq_true] at same
      cases columns with
      | nil => rfl
      | cons column columns =>
        have first : Comparator.eq.truth (row column) value = Comparator.eq.truth (row column) other := by
          simp only [Comparator.truth, Scalar.compare?_congr same.1]
        simp only [rowTruth, List.zipWith_cons_cons, Connective.over_cons, first] at ih ⊢
        rw [ih same.2]

private theorem mem_fold {β : Type} [BEq β] (items kept : List β) :
    let result := items.foldl (fun kept item => if kept.contains item then kept else item :: kept) kept
    (∀ x ∈ result, x ∈ kept ∨ x ∈ items) ∧ (∀ x ∈ kept, x ∈ result) ∧
      ∀ x ∈ items, ∃ y ∈ result, y = x ∨ (x == y) = true := by
  induction items generalizing kept with
  | nil => simp
  | cons item items ih =>
    simp only [List.foldl_cons]
    by_cases repeated : kept.contains item
    · simp only [repeated, if_true]
      obtain ⟨origin, old, covered⟩ := ih kept
      refine ⟨fun x member => (origin x member).imp_right (List.mem_cons_of_mem item), old, ?_⟩
      intro x member
      rcases List.mem_cons.mp member with rfl | member
      · obtain ⟨y, member, same⟩ := List.contains_iff_exists_mem_beq.mp repeated
        exact ⟨y, old y member, .inr same⟩
      · exact covered x member
    · simp only [repeated, if_false, Bool.false_eq_true]
      obtain ⟨origin, old, covered⟩ := ih (item :: kept)
      refine ⟨?_, fun x member => old x (List.mem_cons_of_mem item member), ?_⟩
      · intro x member
        rcases origin x member with member | member
        · rcases List.mem_cons.mp member with rfl | member
          · exact .inr List.mem_cons_self
          · exact .inl member
        · exact .inr (List.mem_cons_of_mem item member)
      · intro x member
        rcases List.mem_cons.mp member with rfl | member
        · exact ⟨x, old x List.mem_cons_self, .inl rfl⟩
        · exact covered x member

private theorem firstOccurrences_truth (columns : List Column) (rows : List (List Value)) :
    Connective.or.over ((firstOccurrences rows).map (rowTruth row columns)) =
      Connective.or.over (rows.map (rowTruth row columns)) := by
  obtain ⟨origin, _, covered⟩ := mem_fold rows []
  apply Connective.over_congr
  intro t
  simp only [firstOccurrences, List.mem_map, List.mem_reverse]
  constructor
  · rintro ⟨values, member, rfl⟩
    exact ⟨values, (origin values member).resolve_left List.not_mem_nil, rfl⟩
  · rintro ⟨values, member, rfl⟩
    obtain ⟨kept, first, rfl | same⟩ := covered values member
    · exact ⟨kept, first, rfl⟩
    · exact ⟨kept, first, (rowTruth_congr row same columns).symm⟩

private theorem aligned_truth {columns : List Column} (distinct : columns.Nodup) {rows : List Fixed}
    {values : List (List Value)} (each : List.Forall₂ (fun f vs => align? columns f = some vs) rows values)
    (different : ∀ f ∈ rows, (f.map (·.1)).Nodup) :
    values.map (rowTruth row columns) = rows.map (Fixed.truth row) := by
  induction each with
  | nil => rfl
  | cons first _ ih =>
    rw [List.forall_mem_cons] at different
    rw [List.map_cons, List.map_cons, ih different.2, align?_truth row distinct different.1 first]

theorem inListOf?_truth {rows : List Fixed} {leaf : Atom} (found : inListOf? rows = some leaf)
    (distinct : ∀ f ∈ rows, (f.map (·.1)).Nodup) :
    leaf.truth row = Connective.or.over (rows.map (Fixed.truth row)) := by
  unfold inListOf? at found
  split at found
  next => cases found
  next first rest =>
    have columns := distinct first List.mem_cons_self
    generalize first.map (·.1) = names at found columns
    cases names with
    | nil => cases found
    | cons name names =>
      simp only [Option.bind_eq_bind, Option.bind_eq_some_iff] at found
      obtain ⟨values, aligned, found⟩ := found
      split at found
      next =>
        cases found
        exact (firstOccurrences_truth row (name :: names) values).trans
          (congrArg Connective.or.over (aligned_truth row columns (forall₂_of_mapM aligned) distinct))
      next => cases found

/-! ### Whole expressions -/

private theorem flatten_truth {es : List Expr} {rows : List (List Fixed)}
    (each : List.Forall₂ (fun e fs => e.rows? = some fs) es rows) :
    Connective.or.over (rows.flatten.map (Fixed.truth row)) = Expr.overTruth row .or es ∧
      ∀ f ∈ rows.flatten, (f.map (·.1)).Nodup := by
  induction each with
  | nil => exact ⟨rfl, by simp⟩
  | @cons e fs es rows first _ ih =>
    obtain ⟨same, distinct⟩ := Expr.rows?_truth row first
    refine ⟨?_, ?_⟩
    · rw [List.flatten_cons, List.map_append, Connective.over_append, ← same, ih.1]
      rfl
    · intro f member
      rcases List.mem_append.mp member with member | member
      · exact distinct f member
      · exact ih.2 f member

private theorem inList?_truth {e : Expr} {leaf : Atom} (found : e.inList? = some leaf) :
    leaf.truth row = e.truth row := by
  simp only [Expr.inList?] at found
  split at found
  next => cases found
  next =>
    split at found
    next => cases found
    next =>
      obtain ⟨rows, all, found⟩ := Option.bind_eq_some_iff.mp found
      obtain ⟨same, distinct⟩ := flatten_truth row (List.forall₂_map_left_iff.mp (forall₂_of_mapM all))
      rw [inListOf?_truth row found distinct, same, Expr.members_truth]

private theorem listed_truth (e : Expr) :
    e.withInLists.truth row = e.truth row ∧ e.disjunctsInLists.truth row = e.truth row := by
  induction e with
  | link c left right lefts rights =>
    cases c with
    | and =>
      refine ⟨?_, rfl⟩
      simp only [Expr.withInLists, Expr.truth, lefts.1, rights.1]
    | or =>
      have disjuncts : (Expr.link .or left right).disjunctsInLists.truth row = (Expr.link .or left right).truth row := by
        simp only [Expr.disjunctsInLists, Expr.truth, lefts.1, rights.2]
      refine ⟨?_, disjuncts⟩
      rw [Expr.withInLists]
      split
      next leaf found => exact inList?_truth row found
      next => exact disjuncts
  | not operand ih =>
    refine ⟨?_, rfl⟩
    simp only [Expr.withInLists, Expr.truth, ih.1]
  | atom leaf => exact ⟨rfl, rfl⟩

theorem withInLists_truth (e : Expr) : e.withInLists.truth row = e.truth row := (listed_truth row e).1

end
end Selectivity
