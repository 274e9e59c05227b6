import Selectivity.Proofs.ExpansionAttempt

/-! A pass over the conjuncts of the root, turn by turn. A turn whose attempt hits the limit
of the arena gives back the arena that it found, so that nothing of it is left for the
turns before and after it. -/

namespace Selectivity

inductive Outcome where
  | kept
  | failed
  | derived (ids : List NodeId)

namespace Outcome

/-- What stands in the place of a conjunct. -/
def conjuncts (conjunct : NodeId) : Outcome → List NodeId
  | .derived ids => ids
  | _ => [conjunct]

def isDerived : Outcome → Bool
  | .derived _ => true
  | _ => false

/-- What stands in the places of some conjuncts, in their order. -/
def joined (conjuncts : List NodeId) (outcomes : List Outcome) : List NodeId :=
  (List.zipWith Outcome.conjuncts conjuncts outcomes).flatten

end Outcome

namespace Arena

/-- The factors of a conjunct that expansion is tried for. -/
def factors? (a : Arena) (budget : Nat) (conjunct : NodeId) : Except TreeError (Option (List (List NodeId))) := do
  if !(← a.node conjunct).isLink .or then return none
  let factors ← (← a.members .or conjunct).mapM (a.members .and)
  if combinations factors ≤ 1 ∨ budget < combinations factors then return none
  return some factors

/-- A conjunct's turn. An attempt that hits the limit is cut off where it began. -/
inductive Turn (budget : Nat) (conjunct : NodeId) (a : Arena) : Outcome → Arena → Prop
  | kept (skipped : a.factors? budget conjunct = .ok none) : Turn budget conjunct a .kept a
  | failed {factors b} (tried : a.factors? budget conjunct = .ok (some factors))
      (stopped : Attempt.disjunctions factors a = (.error (.full a.limit), b)) :
      Turn budget conjunct a .failed (b.truncate a.size)
  | derived {factors ids b} (tried : a.factors? budget conjunct = .ok (some factors))
      (done : Attempt.disjunctions factors a = (.ok ids, b)) : Turn budget conjunct a (.derived ids) b

inductive Pass (budget : Nat) : Arena → List NodeId → List Outcome → Arena → Prop
  | done {a} : Pass budget a [] [] a
  | next {a b c conjunct conjuncts outcome outcomes} (turn : Turn budget conjunct a outcome b)
      (rest : Pass budget b conjuncts outcomes c) : Pass budget a (conjunct :: conjuncts) (outcome :: outcomes) c

/-- What is found after a pass that began with `a`. The disjunctions are new nodes. -/
inductive Becomes (budget : Nat) (a b : Arena) (conjunct : NodeId) : Outcome → Prop
  | kept {e} (before : a.Stands conjunct e) (skipped : ¬ e.Expandable budget) (after : b.Stands conjunct e) :
      Becomes budget a b conjunct .kept
  | failed {e} (before : a.Stands conjunct e) (expandable : e.Expandable budget) (after : b.Stands conjunct e) :
      Becomes budget a b conjunct .failed
  | derived {e ids s} (before : a.Stands conjunct e) (expandable : e.Expandable budget)
      (after : b.Forest ids e.derived s) (fresh : ∀ i ∈ s, a.size ≤ i) : Becomes budget a b conjunct (.derived ids)

variable {a b c : Arena} {budget : Nat} {id conjunct : NodeId} {conjuncts : List NodeId} {e : Expr}
  {outcome : Outcome} {outcomes : List Outcome}

theorem derived?_eq (a : Arena) (budget : Nat) (conjunct : NodeId) :
    a.derived? budget conjunct =
      (a.factors? budget conjunct).map fun found => found.bind fun factors =>
        (Odometer.expand factors disjunctionOf a).toOption := by
  simp only [derived?, factors?]
  cases a.node conjunct with
  | error problem => rfl
  | ok n =>
    simp only [ok_bind]
    split
    next => rfl
    next =>
      cases a.members .or conjunct with
      | error problem => rfl
      | ok disjuncts =>
        simp only [ok_bind]
        cases disjuncts.mapM (a.members .and) with
        | error problem => rfl
        | ok factors =>
          simp only [ok_bind]
          split <;> rfl

theorem factors?_eq (stands : a.Stands id e) (budget : Nat) :
    (¬ e.Expandable budget ∧ a.factors? budget id = .ok none) ∨
      e.Expandable budget ∧ ∃ factors, a.factors? budget id = .ok (some factors) ∧
        List.Forall₂ (List.Forall₂ a.Stands) factors e.factors := by
  obtain ⟨n, read, links⟩ := stands.isLink
  obtain ⟨ids, walk, disjuncts⟩ := members_stands .or stands
  obtain ⟨factors, walks, stand⟩ := mapM_members .and disjuncts
  have counted : combinations factors = e.choices := combinations_eq stand
  simp only [factors?, read, ok_bind, walk, walks, counted, links .or, ok_pure]
  by_cases disjunction : e.isLink .or
  · by_cases outside : e.choices ≤ 1 ∨ budget < e.choices
    · left
      refine ⟨fun expandable => ?_, by simp only [disjunction, outside]; rfl⟩
      exact outside.elim (Nat.not_le.mpr expandable.several) (Nat.not_lt.mpr expandable.affordable)
    · right
      rw [not_or, Nat.not_le, Nat.not_lt] at outside
      refine ⟨⟨disjunction, outside.1, outside.2⟩, factors, ?_, stand⟩
      simp only [disjunction, Nat.not_le.mpr outside.1, Nat.not_lt.mpr outside.2]
      rfl
  · left
    refine ⟨fun expandable => disjunction expandable.disjunction, ?_⟩
    simp only [disjunction]
    rfl

/-! ### Turns and passes -/

/-- Nothing is left of an attempt that failed. -/
theorem Turn.rollback (turn : Turn budget conjunct a .failed b) : b = a := by
  cases turn with
  | @failed factors d tried stopped =>
    have back := Attempt.disjunctions_rollback factors a
    rwa [stopped] at back

theorem Turn.keeps (turn : Turn budget conjunct a outcome b) : Keeps a b ∅ := by
  cases outcome with
  | kept =>
    cases turn
    exact .refl a ∅
  | failed => exact turn.rollback ▸ .refl a ∅
  | derived ids =>
    cases turn with
    | @derived factors _ _ tried done =>
      have appended := Attempt.disjunctions_keeps factors a
      rwa [done] at appended

theorem Turn.unique {other : Outcome} (turn : Turn budget conjunct a outcome b)
    (again : Turn budget conjunct a other c) : outcome = other ∧ b = c := by
  cases turn with
  | kept skipped =>
    cases again with
    | kept => exact ⟨rfl, rfl⟩
    | failed tried => cases skipped.symm.trans tried
    | derived tried => cases skipped.symm.trans tried
  | failed tried stopped =>
    cases again with
    | kept skipped => cases skipped.symm.trans tried
    | failed tried' stopped' =>
      cases tried.symm.trans tried'
      cases stopped.symm.trans stopped'
      exact ⟨rfl, rfl⟩
    | derived tried' done =>
      cases tried.symm.trans tried'
      cases stopped.symm.trans done
  | derived tried done =>
    cases again with
    | kept skipped => cases skipped.symm.trans tried
    | failed tried' stopped =>
      cases tried.symm.trans tried'
      cases stopped.symm.trans done
    | derived tried' done' =>
      cases tried.symm.trans tried'
      cases done.symm.trans done'
      exact ⟨rfl, rfl⟩

theorem Pass.unique {others : List Outcome} (pass : Pass budget a conjuncts outcomes b)
    (again : Pass budget a conjuncts others c) : outcomes = others ∧ b = c := by
  induction pass generalizing others with
  | done => cases again; exact ⟨rfl, rfl⟩
  | next turn _ ih =>
    cases again with
    | next turn' rest' =>
      obtain ⟨rfl, rfl⟩ := turn.unique turn'
      obtain ⟨rfl, rfl⟩ := ih rest'
      exact ⟨rfl, rfl⟩

private theorem Turn.derived?_eq (turn : Turn budget conjunct a outcome b) :
    a.derived? budget conjunct = .ok (match outcome with | .derived ids => some (ids, b) | _ => none) := by
  rw [Arena.derived?_eq]
  cases turn with
  | kept skipped => rw [skipped]; rfl
  | @failed factors d tried stopped =>
    have result := Attempt.disjunctions_result factors a
    rw [Attempt.result, stopped] at result
    rw [tried, Except.map, Option.bind_some, ← result]
    rfl
  | @derived factors ids d tried done =>
    have result := Attempt.disjunctions_result factors a
    rw [Attempt.result, done] at result
    rw [tried, Except.map, Option.bind_some, ← result]
    rfl

/-- Undoing failed attempts one by one comes to what expansion does. -/
theorem Pass.expandConjuncts_eq (pass : Pass budget a conjuncts outcomes b) :
    a.expandConjuncts budget conjuncts =
      .ok ((Outcome.joined conjuncts outcomes, outcomes.any Outcome.isDerived), b) := by
  induction pass with
  | done => rfl
  | @next a d b conjunct conjuncts outcome outcomes turn rest ih =>
    rw [expandConjuncts, turn.derived?_eq, ok_bind]
    cases outcome with
    | kept =>
      cases turn
      simp only [ih, ok_bind, ok_pure]
      rfl
    | failed =>
      cases turn.rollback
      simp only [ih, ok_bind, ok_pure]
      rfl
    | derived ids =>
      simp only [ih, ok_bind, ok_pure]
      rfl

/-! ### What a pass comes to -/

theorem Becomes.extend (becomes : Becomes budget a b conjunct outcome) (keeps : Keeps b c ∅) :
    Becomes budget a c conjunct outcome := by
  cases becomes with
  | kept before skipped after => exact .kept before skipped (after.extend keeps.extend)
  | failed before expandable after => exact .failed before expandable (after.extend keeps.extend)
  | derived before expandable after fresh =>
    exact .derived before expandable (after.frame keeps (Finset.disjoint_empty_right _)) fresh

theorem Becomes.rooted (becomes : Becomes budget a b conjunct outcome) (root : NodeId) :
    Becomes budget a { b with root } conjunct outcome := by
  cases becomes with
  | kept before skipped after => exact .kept before skipped (after.extend fun _ _ found => found)
  | failed before expandable after => exact .failed before expandable (after.extend fun _ _ found => found)
  | derived before expandable after fresh => exact .derived before expandable (after.congr rfl) fresh

private theorem exists_turn (stands : a.Stands conjunct e) (keeps : Keeps a b ∅) (budget : Nat) :
    ∃ outcome c, Turn budget conjunct b outcome c ∧ Keeps b c ∅ ∧ Becomes budget a c conjunct outcome := by
  have now := stands.extend keeps.extend
  rcases factors?_eq now budget with ⟨fits, skipped⟩ | ⟨expandable, factors, tried, stand⟩
  · exact ⟨.kept, b, .kept skipped, .refl b ∅, .kept stands fits now⟩
  · have appended := Attempt.disjunctions_keeps factors b
    have result := Attempt.disjunctions_result factors b
    rcases run : Attempt.disjunctions factors b with ⟨problem | ids, c⟩
    · rw [Attempt.disjunctions_error stand (congrArg Prod.fst run)] at run
      have turn := Turn.failed tried run
      rw [turn.rollback] at turn
      exact ⟨.failed, b, turn, .refl b ∅, .failed stands expandable now⟩
    · rw [Attempt.result, run, expand_eq_expandFrom] at result
      obtain ⟨t, step⟩ := expandFrom_replaces stand .nil result.symm
      rw [run] at appended
      refine ⟨.derived ids, c, .derived tried run, appended, .derived stands expandable step.forest fun i member => ?_⟩
      exact (step.fresh i member).elim (fun absent => by simp at absent) (Nat.le_trans keeps.size)

theorem exists_pass {es : List Expr} (stand : List.Forall₂ a.Stands conjuncts es) (keeps : Keeps a b ∅)
    (budget : Nat) :
    ∃ outcomes c, Pass budget b conjuncts outcomes c ∧ Keeps b c ∅ ∧
      List.Forall₂ (Becomes budget a c) conjuncts outcomes := by
  induction stand generalizing b with
  | nil => exact ⟨[], b, .done, .refl b ∅, .nil⟩
  | cons head _ ih =>
    obtain ⟨outcome, c, turn, first, becomes⟩ := exists_turn head keeps budget
    obtain ⟨outcomes, d, pass, second, rest⟩ := ih (keeps.append first)
    exact ⟨_, d, .next turn pass, first.append second, .cons (becomes.extend second) rest⟩

/-! ### The root -/

/-- The conjuncts that a pass goes over. There are none if the root is no conjunction. -/
def considered (a : Arena) : Except TreeError (List NodeId) := do
  if (← a.node a.root).isLink .and then a.members .and a.root else return []

theorem exists_considered (stands : a.Stands a.root e) :
    ∃ conjuncts, a.considered = .ok conjuncts ∧
      List.Forall₂ a.Stands conjuncts (if e.isLink .and then e.members .and else []) := by
  obtain ⟨n, read, links⟩ := stands.isLink
  obtain ⟨conjuncts, walk, stand⟩ := members_stands .and stands
  simp only [considered, read, ok_bind, links .and, walk, ok_pure]
  by_cases conjunction : e.isLink .and
  · exact ⟨conjuncts, if_pos conjunction, by rwa [if_pos conjunction]⟩
  · exact ⟨[], if_neg conjunction, by rw [if_neg conjunction]; exact .nil⟩

private theorem addChain_cons (a : Arena) (c : Connective) (item : NodeId) (items : List NodeId) :
    a.addChain c (item :: items) =
      ((a.addChain c items).2.size, (a.addChain c items).2.push (.link c item (a.addChain c items).1)) := rfl

theorem size_addChain (a : Arena) (c : Connective) (items : List NodeId) :
    (a.addChain c items).2.size = a.size + items.length + 1 := by
  induction items with
  | nil => exact size_push a _
  | cons item items ih =>
    rw [addChain_cons, size_push, ih, List.length_cons]
    omega

private theorem membersAt_addChain (a : Arena) (c : Connective) (items : List NodeId)
    (kept : ∀ i n, (a.addChain c items).2.get? i = some n → b.get? i = some n) {steps : Nat}
    (enough : items.length + 1 ≤ steps) : b.membersAt c steps (a.addChain c items).1 = .ok items := by
  induction items generalizing steps with
  | nil =>
    obtain ⟨steps, rfl, _⟩ := exists_step enough
    have found := kept a.size (.constant c.unit) ((get?_push a _ _).trans (if_pos rfl))
    have read : b.node (a.addChain c []).1 = .ok (.constant c.unit) := node_of_get? found
    simp only [membersAt, read, ok_bind, Node.constant, if_true, ok_pure]
  | cons item items ih =>
    obtain ⟨steps, rfl, low⟩ := exists_step enough
    have last : b.get? (a.addChain c items).2.size = some (.link c item (a.addChain c items).1) :=
      kept _ _ ((get?_push _ _ _).trans (if_pos rfl))
    have below := ih (fun i n found => kept i n (((Keeps.refl _ ∅).push _).extend i n found)) low
    simp only [addChain_cons, membersAt, node_of_get? last, ok_bind, below, if_true, ok_pure]

/-- A new chain at the root has the items as its members. -/
theorem members_rooted (a : Arena) (c : Connective) (items : List NodeId) :
    members { (a.addChain c items).2 with root := (a.addChain c items).1 } c (a.addChain c items).1 = .ok items := by
  have enough : items.length + 1 ≤ (a.addChain c items).2.size + 1 := by
    rw [size_addChain]
    omega
  exact membersAt_addChain (b := { (a.addChain c items).2 with root := (a.addChain c items).1 }) a c items
    (fun i n found => found) enough

theorem Pass.eq_of_none (pass : Pass budget a conjuncts outcomes b)
    (underived : outcomes.any Outcome.isDerived = false) : b = a := by
  induction pass with
  | done => rfl
  | @next a d b conjunct conjuncts outcome outcomes turn rest ih =>
    rw [List.any_cons, Bool.or_eq_false_iff] at underived
    cases ih underived.2
    cases outcome with
    | kept => cases turn; rfl
    | failed => exact turn.rollback
    | derived ids => cases underived.1

/-- The turns before and after one that fails come out as they would without it. -/
theorem Pass.without_failed {before after : List NodeId} {first rest : List Outcome}
    (pass : Pass budget a (before ++ conjunct :: after) (first ++ .failed :: rest) b)
    (aligned : before.length = first.length) : Pass budget a (before ++ after) (first ++ rest) b := by
  induction before generalizing a first with
  | nil =>
    cases List.length_eq_zero_iff.mp aligned.symm
    cases pass with
    | next turn others =>
      cases turn.rollback
      exact others
  | cons other before ih =>
    cases first with
    | nil => cases aligned
    | cons outcome first =>
      cases pass with
      | next turn others => exact .next turn (ih others (Nat.succ.inj aligned))

theorem Pass.expanded_eq (pass : Pass budget a conjuncts outcomes b) (considered : a.considered = .ok conjuncts) :
    a.expanded budget = .ok (if outcomes.any Outcome.isDerived then
      { (b.addChain .and (Outcome.joined conjuncts outcomes)).2 with
        root := (b.addChain .and (Outcome.joined conjuncts outcomes)).1 } else b) := by
  obtain ⟨n, read, found⟩ := ok_of_bind considered
  simp only [expanded, read, ok_bind]
  cases conjunction : n.isLink .and with
  | true =>
    simp only [conjunction, if_true] at found
    simp only [found, ok_bind, pass.expandConjuncts_eq]
    cases outcomes.any Outcome.isDerived <;> rfl
  | false =>
    simp only [conjunction] at found
    cases found
    cases pass
    rfl

/-- Expansion succeeds on every tree, and what it leaves is told by the outcomes of a pass. -/
theorem exists_expanded (stands : a.Stands a.root e) (budget : Nat) :
    ∃ conjuncts outcomes b c, a.considered = .ok conjuncts ∧ Pass budget a conjuncts outcomes b ∧
      a.expanded budget = .ok c ∧ c.limit = a.limit ∧ (∀ i < a.size, c.get? i = a.get? i) ∧
      List.Forall₂ (Becomes budget a c) conjuncts outcomes ∧
      if outcomes.any Outcome.isDerived then c.members .and c.root = .ok (Outcome.joined conjuncts outcomes)
      else c = a := by
  obtain ⟨conjuncts, considered, stand⟩ := exists_considered stands
  obtain ⟨outcomes, b, pass, keeps, become⟩ := exists_pass stand (.refl a ∅) budget
  refine ⟨conjuncts, outcomes, b, _, considered, pass, pass.expanded_eq considered, ?_⟩
  cases any : outcomes.any Outcome.isDerived with
  | true =>
    have chain := Keeps.chain b .and (Outcome.joined conjuncts outcomes)
    have whole := keeps.append chain
    have rooted := become.imp fun _ _ becomes => (becomes.extend chain).rooted
      (b.addChain .and (Outcome.joined conjuncts outcomes)).1
    exact ⟨whole.limit, fun i old => whole.same i old (by simp), rooted, members_rooted b .and _⟩
  | false =>
    exact ⟨keeps.limit, fun i old => keeps.same i old (by simp), become, pass.eq_of_none any⟩

/-- A failed attempt leaves no trace. Its conjunct stays with everything below it, the others
come out as without it, and if none comes to anything the whole arena is as before. -/
theorem expanded_rollback (stands : a.Stands a.root e) (budget : Nat) :
    (∀ before conjunct after, Turn budget conjunct before .failed after → after = before) ∧
    ∃ conjuncts outcomes b c, a.considered = .ok conjuncts ∧ Pass budget a conjuncts outcomes b ∧
      a.expanded budget = .ok c ∧ c.limit = a.limit ∧ (∀ i < a.size, c.get? i = a.get? i) ∧
      List.Forall₂ (Becomes budget a c) conjuncts outcomes ∧
      (∀ before conjunct after first rest, conjuncts = before ++ conjunct :: after →
        outcomes = first ++ .failed :: rest → before.length = first.length →
        Pass budget a (before ++ after) (first ++ rest) b) ∧
      if outcomes.any Outcome.isDerived then c.members .and c.root = .ok (Outcome.joined conjuncts outcomes)
      else c = a := by
  refine ⟨fun before conjunct after turn => turn.rollback, ?_⟩
  obtain ⟨conjuncts, outcomes, b, c, considered, pass, run, limit, kept, become, final⟩ := exists_expanded stands budget
  refine ⟨conjuncts, outcomes, b, c, considered, pass, run, limit, kept, become, ?_, final⟩
  rintro before conjunct after first rest rfl rfl aligned
  exact pass.without_failed aligned

/-- Two disjunctions. The copies for both of them do not fit into every limit. -/
def twoDisjunctions (limit : Nat) : Arena :=
  let leaf : Expr := .atom (.compare .isNull (.literal (.int 0)) none)
  let both := Expr.chain .and [leaf, leaf]
  { ofExpr (.chain .and [.chain .or [both, both], .chain .or [both, leaf]]) with limit }

theorem twoDisjunctions_stands (limit : Nat) :
    ∃ e, (twoDisjunctions limit).Stands (twoDisjunctions limit).root e ∧ e.isLink .and = true :=
  ⟨_, ((ofExpr_holds _).limited limit).stands, rfl⟩

/-- The first attempt fails, the second one does not. -/
theorem expanded_rollback_first :
    (∃ e, (twoDisjunctions 35).Stands (twoDisjunctions 35).root e) ∧
    ∃ b c, Pass 4 (twoDisjunctions 35) [12, 21] [.failed, .derived [29, 34]] b ∧
      (twoDisjunctions 35).expanded 4 = .ok c ∧
      (∀ i < (twoDisjunctions 35).size, c.get? i = (twoDisjunctions 35).get? i) ∧
      c.members .and c.root = .ok [12, 29, 34] := by
  obtain ⟨e, stands, _⟩ := twoDisjunctions_stands 35
  obtain ⟨rollback, conjuncts, outcomes, b, c, considered, pass, run, _, kept, _, _, final⟩ :=
    expanded_rollback stands 4
  have stopped : (Attempt.disjunctions [[0, 1], [5, 6]] (twoDisjunctions 35)).1 = .error (.full 35) := by rfl
  have done : (Attempt.disjunctions [[13, 14], [18]] (twoDisjunctions 35)).1 = .ok [29, 34] := by rfl
  have first : Turn 4 12 (twoDisjunctions 35) .failed _ := .failed (by rfl) (Prod.ext stopped rfl)
  have second : Turn 4 21 (twoDisjunctions 35) (.derived [29, 34]) _ := .derived (by rfl) (Prod.ext done rfl)
  rw [rollback _ _ _ first] at first
  cases considered.symm.trans (by rfl : (twoDisjunctions 35).considered = .ok [12, 21])
  obtain ⟨rfl, rfl⟩ := pass.unique (.next first (.next second .done))
  exact ⟨⟨e, stands⟩, _, c, pass, run, kept, final⟩

end Arena
end Selectivity
