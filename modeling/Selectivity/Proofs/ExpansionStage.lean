import Selectivity.Proofs.ArenaReading
import Selectivity.Proofs.Odometer

/-! What distributing disjunctions over conjunctions does to the expression of a tree.
Copies come from trees that stay where they are, so nothing that is owned is touched
until the new root is built. -/

namespace Selectivity

namespace Expr

def disjuncts (e : Expr) : List Expr := if e.isLink .or then e.members .or else [e]

/-- One disjunction for every way to pick, after picks that were made already. -/
def distribute : List (List Expr) → List Expr → List Expr
  | [], picked => [chain .or (picked.reverse.flatMap disjuncts)]
  | factor :: factors, picked => factor.flatMap fun e => distribute factors (e :: picked)

def factors (e : Expr) : List (List Expr) := (e.members .or).map (members .and)

def derived (e : Expr) : List Expr := distribute e.factors []

/-- The number of ways to pick, as far as it is counted. -/
def choices (e : Expr) : Nat :=
  (e.factors.map List.length).foldl (fun count picks => Nat.min (count * picks) maxCount) 1

structure Expandable (budget : Nat) (e : Expr) : Prop where
  disjunction : e.isLink .or = true
  several : 1 < e.choices
  affordable : e.choices ≤ budget

/-- Some expandable conjuncts are expanded; the flag tells whether there was one. -/
inductive Expands (budget : Nat) : List Expr → List Expr → Bool → Prop
  | nil : Expands budget [] [] false
  | keep {e es fs any} (rest : Expands budget es fs any) : Expands budget (e :: es) (e :: fs) any
  | derive {e es fs any} (expandable : e.Expandable budget) (rest : Expands budget es fs any) :
      Expands budget (e :: es) (e.derived ++ fs) true

end Expr

/-! ### One factor inside of the other -/

namespace Arena

/-- Appends something for each item in turn, and gives all results in order. -/
def collect (step : NodeId → Arena → Except TreeError (List NodeId × Arena)) :
    List NodeId → Arena → Except TreeError (List NodeId × Arena)
  | [], a => .ok ([], a)
  | item :: items, a => do
    let (first, a) ← step item a
    let (rest, a) ← collect step items a
    return (first ++ rest, a)

/-- One disjunction for every way to go on picking from the factors, the first
factor changing slowest, after the picks already made in reverse order. -/
def expandFrom : List (List NodeId) → (picked : List NodeId) → Arena →
    Except TreeError (List NodeId × Arena)
  | [], picked, a => do
    let (items, a) ← collect copyPick picked.reverse a
    let (id, a) := a.addChain .or items
    return ([id], a)
  | factor :: factors, picked, a =>
    collect (fun pick => expandFrom factors (pick :: picked)) factor a

private theorem collect_eq (step : NodeId → Edit (List NodeId)) (items : List NodeId) :
    (collect step items : Edit (List NodeId)) = List.flatten <$> items.mapM step := by
  induction items with
  | nil => rfl
  | cons item items ih =>
    have unfolded : (collect step (item :: items) : Edit (List NodeId)) =
        step item >>= fun first => collect step items >>= fun rest => pure (first ++ rest) := rfl
    rw [unfolded, ih]
    simp only [List.mapM_cons, map_eq_pure_bind, bind_assoc, pure_bind, List.flatten_cons]

private theorem mapM_flatMap {m : Type → Type} [Monad m] [LawfulMonad m] {α β γ : Type} (work : β → m γ)
    (parts : α → List β) (items : List α) :
    (items.flatMap parts).mapM work = List.flatten <$> items.mapM fun item => (parts item).mapM work := by
  induction items with
  | nil => simp
  | cons item items ih =>
    simp only [List.flatMap_cons, List.mapM_append, List.mapM_cons, ih, map_bind, bind_map_left, map_pure,
      List.flatten_cons]

private theorem expandFrom_eq (factors : List (List NodeId)) (picked : List NodeId) :
    (expandFrom factors picked : Edit (List NodeId)) =
      (ways factors).mapM fun way => disjunctionOf (picked.reverse ++ way) := by
  induction factors generalizing picked with
  | nil =>
    have unfolded : (expandFrom [] picked : Edit (List NodeId)) =
        collect copyPick picked.reverse >>= fun items => Edit.appendChain .or items >>= fun id => pure [id] := rfl
    rw [unfolded, collect_eq]
    simp only [ways, List.mapM_cons, List.mapM_nil, List.append_nil, disjunctionOf, map_eq_pure_bind, bind_assoc,
      pure_bind]
  | cons factor factors ih =>
    have unfolded : (expandFrom (factor :: factors) picked : Edit (List NodeId)) =
        collect (fun pick => expandFrom factors (pick :: picked)) factor := rfl
    rw [unfolded, collect_eq, ways, mapM_flatMap]
    simp only [ih, List.mapM_map, Function.comp_def, List.reverse_cons, List.append_assoc, List.singleton_append]

/-- Turning the wheels comes to the same as going through one factor inside of the other. -/
theorem expand_eq_expandFrom (factors : List (List NodeId)) (a : Arena) :
    Odometer.expand factors disjunctionOf a = expandFrom factors [] a := by
  rw [Odometer.expand_eq]
  exact (congrFun (expandFrom_eq factors []) a).symm

/-! ### Expressions -/

variable {a b c : Arena} {id : NodeId} {e : Expr} {s t : Finset NodeId}

theorem copyPick_eq {pick : NodeId} (stands : a.Stands pick e) :
    ∃ ids t, Replaces a ∅ (a.addExpr e).2 ids e.disjuncts t ∧
      a.copyPick pick = if a.limit < a.size + e.size then .error (.full a.limit) else .ok (ids, (a.addExpr e).2) := by
  obtain ⟨t, step⟩ := addExpr_replaces a e
  obtain ⟨n, read, links⟩ := step.owns.stands.isLink
  obtain ⟨ids, u, walk, forest, within⟩ := members_forest .or step.owns
  simp only [copyPick, clone_eq stands, Expr.disjuncts, ← links .or]
  by_cases disjunction : n.isLink .or
  · refine ⟨ids, u, ?_, ?_⟩
    · simpa only [disjunction, if_true] using step.select forest within
    · split
      next => rfl
      next => simp only [ok_bind, read, disjunction, walk, ok_pure, if_true]
  · refine ⟨[(a.addExpr e).1], t, ?_, ?_⟩
    · simpa only [disjunction, if_false, Bool.false_eq_true] using step
    · split
      next => rfl
      next => simp only [ok_bind, read, disjunction, ok_pure, if_false, Bool.false_eq_true]

/-- Steps that only append something for each of several nodes, one after the other. -/
private theorem collect_replaces {step : NodeId → Arena → Except TreeError (List NodeId × Arena)}
    {result : Expr → List Expr} {items : List NodeId} {es : List Expr} (stand : List.Forall₂ a.Stands items es)
    (steps : ∀ c, Keeps a c ∅ → ∀ item e ids d, c.Stands item e → step item c = .ok (ids, d) →
      ∃ t, Replaces c ∅ d ids (result e) t)
    {ids : List NodeId} (run : collect step items a = .ok (ids, b)) :
    ∃ t, Replaces a ∅ b ids (es.flatMap result) t := by
  induction items generalizing a es ids with
  | nil =>
    cases stand
    cases run
    exact ⟨_, .nil (.refl _ ∅)⟩
  | cons item items ih =>
    cases stand with
    | @cons _ e _ es head tail =>
      simp only [collect] at run
      obtain ⟨⟨first, d⟩, stepped, run⟩ := ok_of_bind run
      obtain ⟨⟨rest, f⟩, others, run⟩ := ok_of_bind run
      cases run
      obtain ⟨t, one⟩ := steps a (.refl a ∅) item e first d head stepped
      have later : ∀ c, Keeps d c ∅ → Keeps a c ∅ := fun c keeps => one.keeps.trans keeps (by simp)
      obtain ⟨u, more⟩ := ih (stands_extend tail one.keeps.extend) (fun c keeps => steps c (later c keeps)) others
      exact ⟨_, one.append more (Finset.disjoint_empty_left ∅) (by simp)⟩

theorem expandFrom_replaces {factors : List (List NodeId)} {fs : List (List Expr)}
    (stand : List.Forall₂ (List.Forall₂ a.Stands) factors fs) {picked : List NodeId} {ps : List Expr}
    (before : List.Forall₂ a.Stands picked ps) {ids : List NodeId}
    (run : expandFrom factors picked a = .ok (ids, b)) :
    ∃ t, Replaces a ∅ b ids (Expr.distribute fs ps) t := by
  induction factors generalizing a b fs picked ps ids with
  | nil =>
    cases stand
    simp only [expandFrom] at run
    obtain ⟨⟨items, d⟩, copied, run⟩ := ok_of_bind run
    cases run
    have picks : List.Forall₂ a.Stands picked.reverse ps.reverse := List.rel_reverse before
    obtain ⟨t, step⟩ := collect_replaces picks (fun c _ item e ids d stands run => by
      obtain ⟨ids', t, step, total⟩ := copyPick_eq stands
      rw [total] at run
      split at run
      next => cases run
      next => cases run; exact ⟨t, step⟩) copied
    obtain ⟨u, built⟩ := step.forest.chain .or
    exact ⟨u, step.trans built⟩
  | cons factor factors ih =>
    cases stand with
    | @cons _ f _ fs head tail =>
      simp only [expandFrom] at run
      refine collect_replaces head ?_ run
      intro c keeps item e ids d stands run
      exact ih (tail.imp fun _ _ stand => stands_extend stand keeps.extend)
        (.cons stands (stands_extend before keeps.extend)) run

theorem combinations_eq {factors : List (List NodeId)}
    (stand : List.Forall₂ (List.Forall₂ a.Stands) factors e.factors) : combinations factors = e.choices := by
  rw [Expr.choices, combinations]
  generalize e.factors = fs at stand ⊢
  have lengths : factors.map List.length = fs.map List.length := by
    induction stand with
    | nil => rfl
    | cons head _ tail => simp only [List.map_cons, head.length_eq, tail]
  rw [← lengths, List.foldl_map]

private theorem derived?_replaces (owns : a.Owns id e s) (budget : Nat) :
    a.derived? budget id = .ok none ∨ e.Expandable budget ∧
      ∃ ids b t, a.derived? budget id = .ok (some (ids, b)) ∧ Replaces a ∅ b ids e.derived t := by
  obtain ⟨n, read, links⟩ := owns.stands.isLink
  obtain ⟨ids, t, walk, forest, _⟩ := members_forest .or owns
  obtain ⟨factors, walks, stand⟩ := mapM_members .and forest.stands
  have counted : combinations factors = e.choices := combinations_eq stand
  simp only [derived?, read, ok_bind, walk, walks, counted, links .or, ok_pure]
  by_cases disjunction : e.isLink .or
  · by_cases outside : e.choices ≤ 1 ∨ budget < e.choices
    · left
      simp only [disjunction, outside]
      rfl
    · simp only [disjunction, if_neg outside]
      cases run : Odometer.expand factors disjunctionOf a with
      | error problem => exact .inl rfl
      | ok result =>
        rw [expand_eq_expandFrom] at run
        obtain ⟨t, step⟩ := expandFrom_replaces stand .nil run
        exact .inr ⟨⟨disjunction, by omega, by omega⟩, result.1, result.2, t, rfl, step⟩
  · left
    simp only [disjunction]
    rfl

/-- The disjunctions derived from a conjunct are new nodes, and so are no part of the
conjuncts that follow. -/
private theorem expandConjuncts_replaces {conjuncts : List NodeId} {es : List Expr}
    (forest : a.Forest conjuncts es s) (budget : Nat) :
    ∃ ids any b fs t, a.expandConjuncts budget conjuncts = .ok ((ids, any), b) ∧
      Expr.Expands budget es fs any ∧ Replaces a s b ids fs t ∧ (any = false → b = a ∧ fs = es) := by
  induction conjuncts generalizing a es s with
  | nil =>
    cases forest
    exact ⟨[], false, a, [], ∅, rfl, .nil, .nil (.refl a ∅), fun _ => ⟨rfl, rfl⟩⟩
  | cons conjunct conjuncts ih =>
    cases forest with
    | @cons _ e s _ es t head tail apart =>
      rcases derived?_replaces head budget with skipped | ⟨expandable, derived, c, u, done, step⟩
      · obtain ⟨more, any, b, fs, v, run, expands, rest, unchanged⟩ := ih tail
        simp only [expandConjuncts, skipped, run, ok_bind, ok_pure]
        refine ⟨_, any, b, _, _, rfl, .keep expands, (Replaces.refl head.forest).append rest apart tail.lt_size, ?_⟩
        intro none
        obtain ⟨same, same'⟩ := unchanged none
        exact ⟨same, congrArg (e :: ·) same'⟩
      · obtain ⟨more, any, b, fs, v, run, expands, rest, _⟩ :=
          ih (tail.frame step.keeps (Finset.disjoint_empty_right _))
        simp only [expandConjuncts, done, run, ok_bind, ok_pure]
        have both := step.append rest (Finset.disjoint_empty_left t) tail.lt_size
        refine ⟨_, true, b, _, _, rfl, .derive expandable expands, both.mono ?_, fun impossible => by cases impossible⟩
        exact Finset.union_subset (Finset.empty_subset _) Finset.subset_union_right

end Arena

/-- The root is rebuilt only if some conjunct was expanded. -/
inductive Expr.RootExpands (budget : Nat) (e : Expr) : Expr → Prop
  | unchanged : e.RootExpands budget e
  | rebuilt {fs} (conjunction : e.isLink .and = true) (expands : Expands budget (e.members .and) fs true) :
      e.RootExpands budget (chain .and fs)

namespace Arena

variable {a : Arena} {e : Expr}

theorem expanded_holds (holds : a.Holds e) (budget : Nat) :
    ∃ b f, a.expanded budget = .ok b ∧ b.Holds f ∧ b.limit = a.limit ∧ e.RootExpands budget f := by
  obtain ⟨s, owns⟩ := holds
  obtain ⟨n, read, links⟩ := owns.stands.isLink
  obtain ⟨conjuncts, t, walk, forest, within⟩ := members_forest .and owns
  obtain ⟨ids, any, b, fs, u, run, expands, step, unchanged⟩ := expandConjuncts_replaces forest budget
  simp only [expanded, read, ok_bind, walk, run, links .and, ok_pure]
  by_cases conjunction : e.isLink .and
  · simp only [conjunction]
    cases any with
    | true =>
      obtain ⟨v, built⟩ := step.forest.chain .and
      refine ⟨_, _, rfl, ⟨v, built.owns.congr rfl⟩, ?_, .rebuilt conjunction expands⟩
      exact built.keeps.limit.trans step.keeps.limit
    | false =>
      obtain ⟨rfl, _⟩ := unchanged rfl
      exact ⟨b, e, rfl, ⟨s, owns⟩, rfl, .unchanged⟩
  · simp only [conjunction]
    exact ⟨a, e, rfl, ⟨s, owns⟩, rfl, .unchanged⟩

end Arena
end Selectivity
