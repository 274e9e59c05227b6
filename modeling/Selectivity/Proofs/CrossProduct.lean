import Selectivity.Proofs.ExpansionPass

/-! What expansion derives when the arena has room for it: for every conjunct that is worth
it one disjunction per way to pick, in the order of the ways. -/

namespace Selectivity

namespace Expr

/-- The number of ways to pick a conjunct from each disjunct. -/
def combinations (e : Expr) : Nat := (e.factors.map List.length).prod

private theorem distribute_eq (factors : List (List Expr)) (picked : List Expr) :
    distribute factors picked =
      (ways factors).map fun picks => chain .or ((picked.reverse ++ picks).flatMap disjuncts) := by
  induction factors generalizing picked with
  | nil => simp only [distribute, ways, List.map_cons, List.map_nil, List.append_nil]
  | cons factor factors ih =>
    simp only [distribute, ways, ih, List.map_flatMap, List.map_map, Function.comp_def, List.reverse_cons,
      List.append_assoc, List.singleton_append]

theorem derived_eq (e : Expr) :
    e.derived = (ways e.factors).map fun picks => chain .or (picks.flatMap disjuncts) :=
  distribute_eq e.factors []

theorem length_derived (e : Expr) : e.derived.length = e.combinations := by
  rw [derived_eq, List.length_map, length_ways, combinations]

/-- Counting stops at the largest count, unless a factor is empty after all. -/
private theorem foldl_capped (bound count : Nat) (lengths : List Nat) :
    lengths.foldl (fun count length => min (count * length) bound) (min count bound) =
      min (count * lengths.prod) bound := by
  induction lengths generalizing count with
  | nil => simp only [List.foldl_nil, List.prod_nil, Nat.mul_one]
  | cons length lengths ih =>
    have capped : min (min count bound * length) bound = min (count * length) bound := by
      rcases Nat.eq_zero_or_pos length with rfl | some
      · simp only [Nat.mul_zero]
      · rcases Nat.le_total count bound with within | beyond
        · rw [Nat.min_eq_left within]
        · rw [Nat.min_eq_right beyond, Nat.min_eq_right (Nat.le_mul_of_pos_right bound some),
            Nat.min_eq_right (Nat.le_trans beyond (Nat.le_mul_of_pos_right count some))]
    rw [List.foldl_cons, capped, ih, List.prod_cons, Nat.mul_assoc]

theorem choices_eq (e : Expr) : e.choices = min e.combinations maxCount := by
  have counted := foldl_capped maxCount 1 (e.factors.map List.length)
  rwa [Nat.one_mul] at counted

/-- A budget below the largest count is compared with the number of ways itself. -/
theorem expandable_iff {budget : Nat} (below : budget < maxCount) (e : Expr) :
    e.Expandable budget ↔ e.isLink .or = true ∧ 1 < e.combinations ∧ e.combinations ≤ budget := by
  have counted := choices_eq e
  have large : 1 < maxCount := by decide
  constructor
  · intro ⟨disjunction, several, affordable⟩
    exact ⟨disjunction, by omega, by omega⟩
  · intro ⟨disjunction, several, affordable⟩
    exact ⟨disjunction, by omega, by omega⟩

end Expr

namespace Arena

/-- No turn of a pass hits the limit. -/
def Roomy (a : Arena) (budget : Nat) : Prop :=
  ∀ conjuncts outcomes b, a.considered = .ok conjuncts → Pass budget a conjuncts outcomes b → .failed ∉ outcomes

/-- What comes in the place of a conjunct: itself, or a new disjunction for every way to pick. -/
inductive Distributed (budget : Nat) (a b : Arena) (conjunct : NodeId) : List NodeId → Prop
  | kept {e} (before : a.Stands conjunct e) (after : b.Stands conjunct e)
      (skipped : e.isLink .or = false ∨ e.combinations ≤ 1 ∨ budget < e.combinations) :
      Distributed budget a b conjunct [conjunct]
  | derived {e ids picks s} (before : a.Stands conjunct e) (disjunction : e.isLink .or = true)
      (several : 1 < e.combinations) (affordable : e.combinations ≤ budget) (length : ids.length = e.combinations)
      (picked : Enumerates e.factors picks)
      (after : b.Forest ids (picks.map fun picked => .chain .or (picked.flatMap Expr.disjuncts)) s)
      (fresh : ∀ i ∈ s, a.size ≤ i) : Distributed budget a b conjunct ids

variable {a b : Arena} {budget : Nat} {conjunct : NodeId} {conjuncts : List NodeId} {outcome : Outcome}
  {outcomes : List Outcome} {e : Expr}

private theorem Becomes.distributed (becomes : Becomes budget a b conjunct outcome)
    (below : budget < maxCount) (room : outcome ≠ .failed) :
    Distributed budget a b conjunct (outcome.conjuncts conjunct) := by
  cases becomes with
  | @kept e before skipped after =>
    refine .kept before after ?_
    rw [Expr.expandable_iff below] at skipped
    cases disjunction : e.isLink .or with
    | false => exact .inl rfl
    | true =>
      simp only [disjunction, true_and] at skipped
      omega
  | failed => exact absurd rfl room
  | derived before expandable after fresh =>
    obtain ⟨disjunction, several, affordable⟩ := (Expr.expandable_iff below _).mp expandable
    have length := after.stands.length_eq.trans (Expr.length_derived _)
    rw [Expr.derived_eq] at after
    exact .derived before disjunction several affordable length (ways_enumerates _) after fresh

private theorem distributed_of_become (become : List.Forall₂ (Becomes budget a b) conjuncts outcomes)
    (below : budget < maxCount) (room : .failed ∉ outcomes) :
    List.Forall₂ (Distributed budget a b) conjuncts (List.zipWith Outcome.conjuncts conjuncts outcomes) := by
  induction become with
  | nil => exact .nil
  | cons head _ ih =>
    rw [List.mem_cons, not_or] at room
    exact .cons (head.distributed below (Ne.symm room.1)) (ih room.2)

private theorem joined_of_none (become : List.Forall₂ (Becomes budget a b) conjuncts outcomes)
    (underived : outcomes.any Outcome.isDerived = false) : Outcome.joined conjuncts outcomes = conjuncts := by
  induction become with
  | nil => rfl
  | @cons conjunct outcome conjuncts outcomes _ _ ih =>
    rw [List.any_cons, Bool.or_eq_false_iff] at underived
    have rest := ih underived.2
    cases outcome with
    | kept => exact congrArg (conjunct :: ·) rest
    | failed => exact congrArg (conjunct :: ·) rest
    | derived ids => cases underived.1

/-- Expansion ends on every tree, and its loop on all factors: unless one of them is empty it
takes a turn for every way to pick, and would take no more if it was given more. With room for
all copies expansion derives the cross product of every conjunct that is worth it and leaves
the others, all in their places. -/
theorem expanded_crossProduct (stands : a.Stands a.root e) (conjunction : e.isLink .and = true) :
    (∀ budget, ∃ b, a.expanded budget = .ok b) ∧
    (∀ factors : List (List NodeId), [] ∈ factors → ∀ c, Odometer.expand factors disjunctionOf c = .ok ([], c)) ∧
    (∀ factors : List (List NodeId), [] ∉ factors → (∃ shown, Odometer.Exhausts factors shown) ∧
      ∀ turns c, (factors.map List.length).prod ≤ turns →
        Odometer.turnsFrom factors disjunctionOf turns (factors.map fun _ => 0) c =
          Odometer.expand factors disjunctionOf c) ∧
    (∀ factors c, Odometer.expand factors disjunctionOf c = expandFrom factors [] c) ∧
    ∀ budget, budget < maxCount → a.Roomy budget →
      ∃ conjuncts groups b, a.members .and a.root = .ok conjuncts ∧ a.expanded budget = .ok b ∧
        b.members .and b.root = .ok groups.flatten ∧ (∀ i < a.size, b.get? i = a.get? i) ∧
        List.Forall₂ (Distributed budget a b) conjuncts groups := by
  refine ⟨fun budget => ?_, fun factors empty c => ?_, fun factors filled => ⟨⟨_, Odometer.places_exhausts filled⟩, ?_⟩,
    expand_eq_expandFrom, ?_⟩
  · obtain ⟨_, _, _, b, _, _, run, _⟩ := exists_expanded stands budget
    exact ⟨b, run⟩
  · rw [Odometer.expand_eq, ways_eq_nil empty]
    rfl
  · intro turns c enough
    rw [Odometer.expand_eq, Odometer.turnsFrom_start filled disjunctionOf (Odometer.product_eq factors ▸ enough)]
  · intro budget below roomy
    obtain ⟨conjuncts, outcomes, c, b, considered, pass, run, _, kept, become, final⟩ := exists_expanded stands budget
    have groups := distributed_of_become become below (roomy conjuncts outcomes c considered pass)
    obtain ⟨n, read, links⟩ := stands.isLink
    simp only [Arena.considered, read, ok_bind, links .and, conjunction, if_true] at considered
    refine ⟨conjuncts, _, b, considered, run, ?_, kept, groups⟩
    cases any : outcomes.any Outcome.isDerived with
    | true =>
      rw [any, if_pos rfl] at final
      exact final
    | false =>
      rw [any, if_neg Bool.false_ne_true] at final
      rw [final, considered]
      exact congrArg Except.ok (joined_of_none become any).symm

theorem expanded_crossProduct_both :
    (∃ e, (twoDisjunctions 100).Stands (twoDisjunctions 100).root e ∧ e.isLink .and = true) ∧
    (twoDisjunctions 100).Roomy 4 ∧
    ∃ groups b, (twoDisjunctions 100).expanded 4 = .ok b ∧ b.members .and b.root = .ok groups.flatten ∧
      List.Forall₂ (Distributed 4 (twoDisjunctions 100) b) [12, 21] groups := by
  obtain ⟨e, stands, conjunction⟩ := twoDisjunctions_stands 100
  have roomy : (twoDisjunctions 100).Roomy 4 := by
    intro conjuncts outcomes b considered pass failed
    have four : (Attempt.disjunctions [[0, 1], [5, 6]] (twoDisjunctions 100)).1 = .ok [29, 34, 39, 44] := by rfl
    have first : Turn 4 12 (twoDisjunctions 100) (.derived [29, 34, 39, 44]) _ := .derived (by rfl) (Prod.ext four rfl)
    have two : (Attempt.disjunctions [[13, 14], [18]]
        (Attempt.disjunctions [[0, 1], [5, 6]] (twoDisjunctions 100)).2).1 = .ok [49, 54] := by rfl
    have second : Turn 4 21 (Attempt.disjunctions [[0, 1], [5, 6]] (twoDisjunctions 100)).2 (.derived [49, 54]) _ :=
      .derived (by rfl) (Prod.ext two rfl)
    cases considered.symm.trans (by rfl : (twoDisjunctions 100).considered = .ok [12, 21])
    obtain ⟨rfl, rfl⟩ := pass.unique (.next first (.next second .done))
    simp at failed
  obtain ⟨_, _, _, _, distributed⟩ := expanded_crossProduct stands conjunction
  obtain ⟨conjuncts, groups, b, members, run, joined, _, each⟩ := distributed 4 (by decide) roomy
  cases members.symm.trans (by rfl : (twoDisjunctions 100).members .and (twoDisjunctions 100).root = .ok [12, 21])
  exact ⟨⟨e, stands, conjunction⟩, roomy, groups, b, run, joined, each⟩

end Arena
end Selectivity
