import Selectivity.Normalize.InList
import Selectivity.Proofs.ArenaReading

/-! What turning disjunctions into IN lists does to the expression of a tree. -/

namespace Selectivity

namespace Expr

def equality? : Expr → Option (Column × Value)
  | .atom leaf => leaf.equality?
  | _ => none

def rows? : Expr → Option (List Fixed)
  | .atom (.inList [column] rows false) => Atom.singleColumnRows? column rows
  | .atom leaf => leaf.equality?.map fun pair => [[pair]]
  | .link .and left right =>
    (conjunctionRow? (((Expr.link .and left right).members .and).map equality?)).map ([·])
  | _ => none

def endsInFalse : Expr → Bool
  | .link .or _ right => right.endsInFalse
  | e => e.isConstant false

def inList? (e : Expr) : Option Atom :=
  if !e.endsInFalse then none
  else if (e.members .or).length < 2 then none
  else (((e.members .or).map rows?).mapM id).bind fun rows => inListOf? rows.flatten

mutual
def withInLists : Expr → Expr
  | .link .and left right => .link .and left.withInLists right.withInLists
  | .link .or left right =>
    match (Expr.link .or left right).inList? with
    | some list => .atom list
    | none => .link .or left.withInLists right.disjunctsInLists
  | .not operand => .not operand.withInLists
  | .atom leaf => .atom leaf

def disjunctsInLists : Expr → Expr
  | .link .or left right => .link .or left.withInLists right.disjunctsInLists
  | e => e
end

end Expr

namespace Arena

variable {a : Arena} {id : NodeId} {e : Expr} {s : Finset NodeId}

theorem mapM_stands {α : Type} {ids : List NodeId} {es : List Expr} (stand : List.Forall₂ a.Stands ids es)
    (question : NodeId → Except TreeError α) (answer : Expr → α)
    (answers : ∀ id e, a.Stands id e → question id = .ok (answer e)) :
    ids.mapM question = .ok (es.map answer) := by
  induction stand with
  | nil => rfl
  | cons head _ tail => simp only [List.mapM_cons, answers _ _ head, tail, ok_bind, ok_pure, List.map_cons]

private theorem equalityAt_eq (stands : a.Stands id e) : a.equalityAt id = .ok e.equality? := by
  cases stands with
  | link found => simp only [equalityAt, node_of_get? found, ok_bind, ok_pure, Expr.equality?]
  | not found => simp only [equalityAt, node_of_get? found, ok_bind, ok_pure, Expr.equality?]
  | atom found => simp only [equalityAt, node_of_get? found, ok_bind, ok_pure, Expr.equality?]

private theorem rowsAt_eq (stands : a.Stands id e) : a.rowsAt id = .ok e.rows? := by
  have whole := stands
  cases stands with
  | @link _ c left right first second found =>
    cases c with
    | and =>
      obtain ⟨ids, walk, stand⟩ := members_stands .and whole
      simp only [rowsAt, node_of_get? found, ok_bind, ok_pure, walk, Expr.rows?,
        mapM_stands stand a.equalityAt Expr.equality? (fun _ _ => equalityAt_eq)]
    | or => simp only [rowsAt, node_of_get? found, ok_bind, ok_pure, Expr.rows?]
  | not found => simp only [rowsAt, node_of_get? found, ok_bind, ok_pure, Expr.rows?]
  | @atom _ leaf found =>
    simp only [rowsAt, node_of_get? found, ok_bind]
    unfold Expr.rows?
    split <;> simp_all

private theorem endsInFalse_eq (stands : a.Stands id e) {steps : Nat} (enough : e.height ≤ steps) :
    a.endsInFalse steps id = .ok e.endsInFalse := by
  induction stands generalizing steps with
  | @link _ c _ _ _ _ found _ _ _ rights =>
    obtain ⟨steps, rfl, low⟩ := exists_step enough
    cases c with
    | and => simp only [endsInFalse, node_of_get? found, ok_bind, ok_pure, Expr.endsInFalse, Node.isConstant, Expr.isConstant]
    | or => simp only [endsInFalse, node_of_get? found, ok_bind, rights (Nat.max_le.mp low).2, Expr.endsInFalse]
  | not found =>
    obtain ⟨steps, rfl, _⟩ := exists_step enough
    simp only [endsInFalse, node_of_get? found, ok_bind, ok_pure, Expr.endsInFalse, Node.isConstant, Expr.isConstant]
  | atom found =>
    obtain ⟨steps, rfl, _⟩ := exists_step enough
    simp only [endsInFalse, node_of_get? found, ok_bind, ok_pure, Expr.endsInFalse, Node.isConstant, Expr.isConstant]

theorem inListAt?_eq (stands : a.Stands id e) : a.inListAt? id = .ok e.inList? := by
  obtain ⟨ids, walk, stand⟩ := members_stands .or stands
  have ends : a.endsInFalse a.steps id = .ok e.endsInFalse :=
    endsInFalse_eq stands (Nat.le_succ_of_le stands.height_le)
  simp only [inListAt?, ends, ok_bind, walk, stand.length_eq, Expr.inList?, ok_pure,
    mapM_stands stand a.rowsAt Expr.rows? (fun _ _ => rowsAt_eq)]
  split
  next => rfl
  next =>
    split
    next => rfl
    next => rfl

private def Listed (e : Expr) : Prop :=
  ∀ {a : Arena} {id : NodeId} {s : Finset NodeId}, a.Owns id e s → ∀ (steps : Nat), 2 * e.height ≤ steps →
    ∃ root b t, toInLists steps id a = .ok (root, b) ∧ Replaces a s b [root] [e.withInLists] t

private def DisjunctsListed (e : Expr) : Prop :=
  ∀ {a : Arena} {id : NodeId} {s : Finset NodeId}, a.Owns id e s → ∀ (steps : Nat), 2 * e.height ≤ steps + 1 →
    ∃ b t, disjunctsToInLists steps id a = .ok ((), b) ∧ Replaces a s b [id] [e.disjunctsInLists] t

/-- The node of a chain is written before the rest of the chain is gone through. -/
private theorem disjunctsListed_or {first second : Expr} (lefts : Listed first) (rights : DisjunctsListed second) :
    DisjunctsListed (.link .or first second) := by
  intro a id s owns steps enough
  cases owns with
  | @link _ _ left right _ _ s t found inner outer apart own =>
    simp only [Expr.height] at enough
    obtain ⟨steps, rfl⟩ := Nat.exists_eq_add_one.mpr (show 0 < steps by omega)
    obtain ⟨l, b, u, runLeft, stepLeft⟩ := lefts inner steps (by omega)
    have inside : id < b.size := Nat.lt_of_lt_of_le (lt_size_of_get? found) stepLeft.keeps.size
    have unchanged := Replaces.refl (outer.frame stepLeft.keeps apart.symm).forest
    have written := (stepLeft.append unchanged apart outer.lt_size).setLink .or (lt_size_of_get? found) own
    have found' := (get?_set b (.link .or l right) inside id).trans (if_pos rfl)
    obtain ⟨v, w, inner', outer', apart', own', same⟩ := written.owns.of_link found'
    obtain ⟨c, x, runRight, stepRight⟩ := rights outer' steps (by omega)
    have whole := ((Replaces.refl inner'.forest).append stepRight apart' outer'.lt_size).relink .or found' own'
    simp only [disjunctsToInLists, Edit.bind_run, Edit.fetch_run found, ok_bind, runLeft, Edit.store_run, runRight]
    exact ⟨_, _, rfl, written.trans (same ▸ whole)⟩

private theorem disjunctsListed_other {e : Expr} (other : e.isLink .or = false) (same : e.disjunctsInLists = e) :
    DisjunctsListed e := by
  intro a id s owns steps enough
  have positive := e.height_pos
  obtain ⟨steps, rfl⟩ := Nat.exists_eq_add_one.mpr (show 0 < steps by omega)
  rw [same]
  refine ⟨a, s, ?_, .refl owns.forest⟩
  cases owns with
  | @link _ c _ _ _ _ _ _ found =>
    cases c with
    | and => simp only [disjunctsToInLists, Edit.bind_run, Edit.fetch_run found, ok_bind, Edit.pure_run]
    | or => simp [Expr.isLink] at other
  | not found => simp only [disjunctsToInLists, Edit.bind_run, Edit.fetch_run found, ok_bind, Edit.pure_run]
  | atom found => simp only [disjunctsToInLists, Edit.bind_run, Edit.fetch_run found, ok_bind, Edit.pure_run]

private theorem listed (e : Expr) : Listed e ∧ DisjunctsListed e := by
  induction e with
  | link c first second lefts rights =>
    cases c with
    | and =>
      refine ⟨?_, disjunctsListed_other rfl rfl⟩
      intro a id s owns steps enough
      cases owns with
      | link found inner outer apart own =>
        simp only [Expr.height] at enough
        obtain ⟨steps, rfl⟩ := Nat.exists_eq_add_one.mpr (show 0 < steps by omega)
        obtain ⟨l, b, u, runLeft, stepLeft⟩ := lefts.1 inner steps (by omega)
        obtain ⟨r, c, v, runRight, stepRight⟩ :=
          rights.1 (outer.frame stepLeft.keeps apart.symm) steps (by omega)
        have both := stepLeft.append stepRight apart outer.lt_size
        simp only [toInLists, Edit.bind_run, Edit.fetch_run found, ok_bind, runLeft, runRight, Edit.store_run,
          Edit.pure_run]
        exact ⟨_, _, _, rfl, both.setLink .and (lt_size_of_get? found) own⟩
    | or =>
      have disjuncts : DisjunctsListed (.link .or first second) := disjunctsListed_or lefts.1 rights.2
      refine ⟨?_, disjuncts⟩
      intro a id s owns steps enough
      have positive := (Expr.link .or first second).height_pos
      obtain ⟨steps, rfl⟩ := Nat.exists_eq_add_one.mpr (show 0 < steps by omega)
      obtain ⟨b, t, run, step⟩ := disjuncts owns steps (by omega)
      have asked : Edit.ask (·.inListAt? id) a = .ok ((Expr.link .or first second).inList?, a) :=
        Edit.ask_run (inListAt?_eq owns.stands)
      cases owns with
      | link found =>
        simp only [toInLists, Edit.bind_run, Edit.fetch_run found, ok_bind, asked, Expr.withInLists]
        cases (Expr.link .or first second).inList? with
        | some list => exact ⟨_, _, _, rfl, .pushAtom list (.refl a _)⟩
        | none =>
          simp only [Edit.bind_run, run, ok_bind, Edit.pure_run]
          exact ⟨_, _, _, rfl, step⟩
  | not operand below =>
    refine ⟨?_, disjunctsListed_other rfl rfl⟩
    intro a id s owns steps enough
    cases owns with
    | not found inner own =>
      simp only [Expr.height] at enough
      obtain ⟨steps, rfl⟩ := Nat.exists_eq_add_one.mpr (show 0 < steps by omega)
      obtain ⟨root, b, t, run, step⟩ := below.1 inner steps (by omega)
      simp only [toInLists, Edit.bind_run, Edit.fetch_run found, ok_bind, run, Edit.store_run, Edit.pure_run]
      exact ⟨_, _, _, rfl, step.setNot (lt_size_of_get? found) own⟩
  | atom leaf =>
    refine ⟨?_, disjunctsListed_other rfl rfl⟩
    intro a id s owns steps enough
    have positive := (Expr.atom leaf).height_pos
    obtain ⟨steps, rfl⟩ := Nat.exists_eq_add_one.mpr (show 0 < steps by omega)
    refine ⟨id, a, s, ?_, .refl owns.forest⟩
    cases owns with
    | atom found => simp only [toInLists, Edit.bind_run, Edit.fetch_run found, ok_bind, Edit.pure_run]

theorem withInLists_holds (holds : a.Holds e) :
    ∃ b, a.withInLists = .ok b ∧ b.Holds e.withInLists ∧ b.limit = a.limit := by
  apply holds.onRoot
  intro s owns
  refine (listed e).1 owns _ ?_
  have low := owns.stands.height_le
  simp only [listSteps]
  omega

end Arena
end Selectivity
