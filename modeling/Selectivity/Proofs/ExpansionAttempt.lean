import Selectivity.Proofs.ExpansionStage
import Selectivity.Proofs.Picks

/-! Expansion as it goes on in place, one way to pick after the other. An attempt that
stops short has appended copies already, and the arena is given back by cutting it off
where the attempt began. -/

namespace Selectivity

/-- Work on an arena that is left as far as it got, also where the work fails. -/
abbrev Attempt := ExceptT TreeError (StateM Arena)

namespace Attempt

variable {α β : Type}

/-- An edit that touches nothing if it fails. -/
def step (edit : Arena → Except TreeError (α × Arena)) : Attempt α := fun a =>
  match edit a with
  | .ok (value, b) => (.ok value, b)
  | .error problem => (.error problem, a)

/-- What comes of it if a failure undoes everything. -/
def result (attempt : Attempt α) (a : Arena) : Except TreeError (α × Arena) :=
  match attempt a with
  | (.ok value, b) => .ok (value, b)
  | (.error problem, _) => .error problem

theorem pure_run (value : α) (a : Arena) : (pure value : Attempt α) a = (.ok value, a) := rfl

theorem bind_run (first : Attempt α) (next : α → Attempt β) (a : Arena) :
    (first >>= next) a = match first a with
      | (.ok value, b) => next value b
      | (.error problem, b) => (.error problem, b) := by
  show (match first a with | (r, b) => ExceptT.bindCont next r b) = _
  rcases first a with ⟨value | problem, b⟩ <;> rfl

theorem result_step (edit : Arena → Except TreeError (α × Arena)) (a : Arena) : (step edit).result a = edit a := by
  simp only [result, step]
  cases edit a <;> rfl

theorem result_bind (first : Attempt α) (next : α → Attempt β) (a : Arena) :
    (first >>= next).result a = first.result a >>= fun done => (next done.1).result done.2 := by
  simp only [result, bind_run]
  rcases first a with ⟨problem | value, b⟩ <;> rfl

/-- Begun where `inv` holds, an attempt ends there however it ends, and fails for a `reason` only. -/
structure Within (inv : Arena → Prop) (reason : TreeError → Prop) (attempt : Attempt α) : Prop where
  ends : ∀ a, inv a → inv (attempt a).2
  fails : ∀ a, inv a → ∀ problem, (attempt a).1 = .error problem → reason problem

namespace Within

variable {inv : Arena → Prop} {reason : TreeError → Prop}

theorem pure (value : α) : Within inv reason (Pure.pure value : Attempt α) :=
  ⟨fun _ holds => holds, fun _ _ _ impossible => by cases impossible⟩

theorem step {edit : Arena → Except TreeError (α × Arena)}
    (ends : ∀ a, inv a → ∀ value b, edit a = .ok (value, b) → inv b)
    (fails : ∀ a, inv a → ∀ problem, edit a = .error problem → reason problem) : Within inv reason (step edit) := by
  constructor
  · intro a holds
    simp only [Attempt.step]
    cases run : edit a with
    | error problem => exact holds
    | ok done => exact ends a holds done.1 done.2 run
  · intro a holds problem
    simp only [Attempt.step]
    cases run : edit a with
    | error other =>
      rintro ⟨⟩
      exact fails a holds problem run
    | ok done => rintro ⟨⟩

theorem bind {first : Attempt α} {next : α → Attempt β} (before : Within inv reason first)
    (after : ∀ value, Within inv reason (next value)) : Within inv reason (first >>= next) := by
  constructor
  · intro a holds
    have between := before.ends a holds
    rw [bind_run]
    rcases run : first a with ⟨problem | value, b⟩
    · simpa only [run] using between
    · exact (after value).ends b (by simpa only [run] using between)
  · intro a holds problem failed
    have between := before.ends a holds
    rw [bind_run] at failed
    rcases run : first a with ⟨other | value, b⟩
    · simp only [run, Except.error.injEq] at failed
      exact before.fails a holds problem (by simp only [run, failed])
    · simp only [run] at between failed
      exact (after value).fails b between problem failed

theorem mapM {attempt : β → Attempt α} {items : List β} (each : ∀ item ∈ items, Within inv reason (attempt item)) :
    Within inv reason (items.mapM attempt) := by
  induction items with
  | nil => exact pure []
  | cons item items ih =>
    rw [List.mapM_cons]
    rw [List.forall_mem_cons] at each
    exact each.1.bind fun _ => (ih each.2).bind fun _ => pure _

end Within
end Attempt

/-! ### Cutting off what was appended -/

namespace Arena

variable {a b c : Arena} {id : NodeId} {e : Expr}

theorem Keeps.truncate (keeps : Keeps a b ∅) : b.truncate a.size = a := by
  have larger : a.size ≤ b.nodes.size := keeps.size
  have nodes : b.nodes.take a.size = a.nodes := by
    apply Array.ext_getElem?
    intro i
    rw [Array.getElem?_extract, Nat.zero_add, Nat.sub_zero, Nat.min_eq_left larger]
    split
    next old => exact keeps.same i old (by simp)
    next new => exact (Array.getElem?_eq_none (Nat.le_of_not_lt new)).symm
  rw [Arena.truncate, nodes, keeps.limit, keeps.root]

theorem Keeps.append (first : Keeps a b ∅) (second : Keeps b c ∅) : Keeps a c ∅ := first.trans second (by simp)

theorem Keeps.chain (a : Arena) (c : Connective) (items : List NodeId) : Keeps a (a.addChain c items).2 ∅ := by
  induction items with
  | nil => exact (Keeps.refl a ∅).push _
  | cons item items ih => exact ih.push _

private theorem Keeps.copied {look : Arena → NodeId → Except TreeError Node} {steps : Nat} {copy : NodeId}
    (run : copyAt look steps id a = .ok (copy, b)) : Keeps a b ∅ := by
  induction steps generalizing a b id copy with
  | zero => cases run
  | succ steps ih =>
    obtain ⟨n, _, run⟩ := ok_of_bind run
    cases n with
    | link c left right =>
      obtain ⟨⟨first, b⟩, lefts, run⟩ := ok_of_bind run
      obtain ⟨⟨second, c⟩, rights, run⟩ := ok_of_bind run
      cases run
      exact ((ih lefts).append (ih rights)).push _
    | not operand =>
      obtain ⟨⟨first, b⟩, below, run⟩ := ok_of_bind run
      cases run
      exact (ih below).push _
    | atom leaf =>
      cases run
      exact (Keeps.refl a ∅).push _

theorem Keeps.copyPick {pick : NodeId} {ids : List NodeId} (run : a.copyPick pick = .ok (ids, b)) : Keeps a b ∅ := by
  obtain ⟨⟨copy, c⟩, cloned, run⟩ := ok_of_bind run
  obtain ⟨size, _, cloned⟩ := ok_of_bind cloned
  have keeps : Keeps a c ∅ := by
    split at cloned
    next => cases cloned
    next => exact .copied cloned
  obtain ⟨n, _, run⟩ := ok_of_bind run
  split at run
  next =>
    obtain ⟨found, _, run⟩ := ok_of_bind run
    cases run
    exact keeps
  next =>
    cases run
    exact keeps

end Arena

namespace Attempt

/-- The disjunction of the copies of some picks. -/
def disjunction (picks : List NodeId) : Attempt NodeId := do
  let items ← picks.mapM fun pick => step (Arena.copyPick pick)
  step fun a => .ok (a.addChain .or items.flatten)

/-- One disjunction after the other, for every way to pick. -/
def disjunctions (factors : List (List NodeId)) : Attempt (List NodeId) := Odometer.expand factors disjunction

theorem disjunctions_eq (factors : List (List NodeId)) : disjunctions factors = (ways factors).mapM disjunction :=
  Odometer.expand_eq factors disjunction

private theorem result_mapM {work : α → Attempt β} {edit : α → Edit β} (same : ∀ item a, (work item).result a = edit item a)
    (items : List α) (a : Arena) : (items.mapM work).result a = items.mapM edit a := by
  induction items generalizing a with
  | nil => rfl
  | cons item items ih =>
    have unfolded : (item :: items).mapM edit a =
        edit item a >>= fun first => items.mapM edit first.2 >>= fun rest => .ok (first.1 :: rest.1, rest.2) := by
      rw [List.mapM_cons]
      rfl
    simp only [unfolded, List.mapM_cons, result_bind, same, ih]
    rfl

/-- Making the disjunctions one after the other is what expansion does, as far as it succeeds. -/
theorem disjunctions_result (factors : List (List NodeId)) (a : Arena) :
    (disjunctions factors).result a = Odometer.expand factors Arena.disjunctionOf a := by
  rw [disjunctions_eq, Odometer.expand_eq]
  refine result_mapM (fun picks a => ?_) (ways factors) a
  rw [disjunction, result_bind, result_mapM (fun pick a => result_step (Arena.copyPick pick) a)]
  rfl

/-- Wherever the attempt stopped, all that it did was to append. -/
theorem disjunctions_keeps (factors : List (List NodeId)) (a : Arena) : a.Keeps (disjunctions factors a).2 ∅ := by
  have appends : Within (Arena.Keeps a · ∅) (fun _ => True) (disjunctions factors) := by
    rw [disjunctions_eq]
    refine .mapM fun way _ => .bind (.mapM fun pick _ => .step ?_ (by simp)) fun items => .step ?_ (by simp)
    · exact fun b keeps ids c copied => keeps.append (.copyPick copied)
    · intro b keeps id c linked
      cases congrArg Prod.snd (Except.ok.inj linked)
      exact keeps.append (.chain b .or items.flatten)
  exact appends.ends a (.refl a ∅)

theorem disjunctions_rollback (factors : List (List NodeId)) (a : Arena) :
    (disjunctions factors a).2.truncate a.size = a :=
  (disjunctions_keeps factors a).truncate

/-- There is no reason to stop but the limit of the arena. -/
theorem disjunctions_error {a : Arena} {factors : List (List NodeId)} {fs : List (List Expr)}
    (stand : List.Forall₂ (List.Forall₂ a.Stands) factors fs) {problem : TreeError}
    (failed : (disjunctions factors a).1 = .error problem) : problem = .full a.limit := by
  have limited : Within (Arena.Keeps a · ∅) (· = .full a.limit) (disjunctions factors) := by
    rw [disjunctions_eq]
    refine .mapM fun way picked => .bind (.mapM fun pick member => .step ?_ ?_) fun items => .step ?_ ?_
    · exact fun b keeps ids c copied => keeps.append (.copyPick copied)
    · intro b keeps problem failed
      obtain ⟨factor, here, inside⟩ := exists_of_mem_left (mem_ways.mp picked) pick member
      obtain ⟨es, _, all⟩ := exists_of_mem_left stand factor here
      obtain ⟨e, _, stands⟩ := exists_of_mem_left all pick inside
      obtain ⟨ids, t, _, total⟩ := Arena.copyPick_eq (stands.extend keeps.extend)
      rw [total, keeps.limit] at failed
      split at failed
      next => cases failed; rfl
      next => cases failed
    · intro b keeps id c linked
      cases congrArg Prod.snd (Except.ok.inj linked)
      exact keeps.append (.chain b .or items.flatten)
    · rintro b keeps problem ⟨⟩
  exact limited.fails a (.refl a ∅) problem failed

end Attempt
end Selectivity
