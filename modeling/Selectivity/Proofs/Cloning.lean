import Selectivity.Proofs.AcyclicTrees
import Selectivity.Proofs.ExpansionAttempt

/-! Copying a tree within its arena. The nodes are counted before the first one is appended,
and the count is exact however they are shared, so that a copy that has been begun is also
finished, and one that fails has appended nothing. Tree and copy have no node in common:
later changes to either cannot be read from the other. -/

namespace Selectivity

namespace Attempt

/-- Copies node after node, children first. -/
def copying : Nat → NodeId → Attempt NodeId
  | 0, _ => throw .endless
  | steps + 1, id => do
    match ← step (Edit.fetch id) with
    | .link c left right =>
      let left ← copying steps left
      let right ← copying steps right
      step (Edit.append (.link c left right))
    | .not operand =>
      let operand ← copying steps operand
      step (Edit.append (.not operand))
    | .atom leaf => step (Edit.append (.atom leaf))

/-- Copies the tree below a node if the arena has room for all of its nodes. -/
def cloning (id : NodeId) : Attempt NodeId := do
  let a ← get
  let size ← step (Edit.ask (·.subtreeSize id))
  if a.limit < a.size + size then throw (.full a.limit) else copying a.steps id

private theorem copying_result (steps : Nat) (id : NodeId) (a : Arena) :
    (copying steps id).result a = Arena.copyAt Arena.node steps id a := by
  induction steps generalizing id a with
  | zero => rfl
  | succ steps ih =>
    simp only [copying, result_bind, result_step, Edit.fetch, Arena.copyAt]
    cases a.node id with
    | error problem => rfl
    | ok n =>
      simp only [Except.map, ok_bind]
      cases n with
      | link c left right => simp only [result_bind, result_step, ih, Edit.append, ok_pure]
      | not operand => simp only [result_bind, result_step, ih, Edit.append, ok_pure]
      | atom leaf => simp only [result_step, Edit.append, ok_pure]

private theorem cloning_run (id : NodeId) (a : Arena) :
    cloning id a = match a.subtreeSize id with
      | .error problem => (.error problem, a)
      | .ok size => if a.limit < a.size + size then (.error (.full a.limit), a) else copying a.steps id a := by
  have asked : (get : Attempt Arena) a = (.ok a, a) := rfl
  simp only [cloning, bind_run, asked, step, Edit.ask]
  cases a.subtreeSize id with
  | error problem => rfl
  | ok size =>
    simp only [Except.map]
    split <;> rfl

/-- Copying node after node is what `Arena.clone` does, as far as it succeeds. -/
theorem cloning_result (id : NodeId) (a : Arena) : (cloning id).result a = a.clone id := by
  simp only [result, cloning_run, Arena.clone]
  cases a.subtreeSize id with
  | error problem => rfl
  | ok size =>
    by_cases crowded : a.limit < a.size + size
    · simp only [if_pos crowded, ok_bind]
    · simp only [if_neg crowded, ok_bind]
      exact copying_result a.steps id a

theorem run_of_result {α : Type} {attempt : Attempt α} {a b : Arena} {value : α}
    (result : attempt.result a = .ok (value, b)) : attempt a = (.ok value, b) := by
  simp only [Attempt.result] at result
  split at result
  next run =>
    cases result
    exact run
  next => cases result

/-- All that can happen. What is read before anything is appended decides which of them does. -/
theorem cloning_cases {a : Arena} {id : NodeId} (acyclic : a.Acyclic id) :
    (∃ j, a.Reaches id j ∧ a.size ≤ j ∧ cloning id a = (.error (.dangling j), a)) ∨
      ∃ e, a.Stands id e ∧
        (a.limit < a.size + e.size ∧ cloning id a = (.error (.full a.limit), a) ∨
          a.size + e.size ≤ a.limit ∧ cloning id a = (.ok (a.addExpr e).1, (a.addExpr e).2)) := by
  rcases acyclic.subtreeSize_cases with ⟨e, stands⟩ | ⟨j, reaches, missing, stop⟩
  · refine .inr ⟨e, stands, ?_⟩
    rcases Nat.lt_or_ge a.limit (a.size + e.size) with crowded | room
    · exact .inl ⟨crowded, by simp only [cloning_run, Arena.subtreeSize_eq stands, if_pos crowded]⟩
    · refine .inr ⟨room, run_of_result ?_⟩
      rw [cloning_result, Arena.clone_eq stands, if_neg (Nat.not_lt.mpr room)]
  · exact .inl ⟨j, reaches, missing, by simp only [cloning_run, stop]⟩

end Attempt

namespace Arena

variable {a b : Arena} {id i : NodeId} {e : Expr} {s : Finset NodeId}

/-! ### Later changes -/

/-- What callers do to the nodes of an arena. -/
inductive Change where
  | write (id : NodeId) (n : Node)
  | append (n : Node)

def change (a : Arena) : Change → Arena
  | .write id n => a.set id n
  | .append n => a.push n

/-- The arena after some changes, one after the other. -/
def changed (a : Arena) (changes : List Change) : Arena := changes.foldl change a

theorem Keeps.change (keeps : Keeps a b s) {c : Change} (within : ∀ i n, c = .write i n → i ∈ s ∨ a.size ≤ i) :
    Keeps a (b.change c) s := by
  cases c with
  | append n => exact keeps.push n
  | write i n =>
    refine keeps.trans (.set b i n) fun j member => ?_
    cases Finset.mem_singleton.mp member
    exact within i n rfl

/-- Changes to some nodes, and to nodes appended later, keep all others. -/
theorem Keeps.changed (keeps : Keeps a b s) {changes : List Change}
    (within : ∀ i n, .write i n ∈ changes → i ∈ s ∨ a.size ≤ i) : Keeps a (b.changed changes) s := by
  induction changes generalizing b with
  | nil => exact keeps
  | cons c changes ih =>
    exact ih (keeps.change fun i n same => within i n (same ▸ List.mem_cons_self))
      fun i n member => within i n (List.mem_cons_of_mem c member)

/-! ### Copies -/

/-- From `a` to `b`, the tree below `id` was copied to the end of the arena. -/
structure Copies (a : Arena) (id copy : NodeId) (b : Arena) : Prop where
  keeps : Keeps a b ∅
  appended : a.subtreeSize id = .ok (b.size - a.size)
  reads : ∃ e, a.expr id = .ok e ∧ b.expr id = .ok e ∧ b.expr copy = .ok e
  /-- The nodes of the copy are those appended. -/
  reached : ∀ i, b.Reaches copy i ↔ a.size ≤ i ∧ i < b.size
  /-- None of them hangs below two nodes, or below the tree that was copied. -/
  owned : SingleOwner { b with root := copy }
  apart : ∀ i, b.Reaches id i → i < a.size
  /-- Whatever is written to the nodes of before, the copy reads as it did. -/
  copyStays : ∀ changes, (∀ i n, .write i n ∈ changes → i < a.size) → (b.changed changes).expr copy = b.expr copy
  /-- Whatever is written to the copy, all that could be read before reads as it did. -/
  restStays : ∀ changes, (∀ i n, .write i n ∈ changes → a.size ≤ i) →
    ∀ i e, a.expr i = .ok e → (b.changed changes).expr i = .ok e

/-- What is appended cannot be reached from a tree without missing nodes. -/
theorem Stands.reaches_lt (stands : a.Stands id e) (keeps : Keeps a b ∅) (reaches : b.Reaches id i) : i < a.size := by
  have same {j : NodeId} {f : Expr} {n : Node} (here : a.Stands j f) (found : b.get? j = some n) : a.get? j = some n :=
    (keeps.same j here.lt_size (Finset.notMem_empty j)).symm.trans found
  induction reaches generalizing e with
  | refl => exact stands.lt_size
  | left found _ ih =>
    obtain ⟨_, _, rfl, below, _⟩ := stands.of_link (same stands found)
    exact ih below
  | right found _ ih =>
    obtain ⟨_, _, rfl, _, below⟩ := stands.of_link (same stands found)
    exact ih below
  | operand found _ ih =>
    obtain ⟨_, rfl, below⟩ := stands.of_not (same stands found)
    exact ih below

theorem Stands.copies (stands : a.Stands id e) : a.Copies id (a.addExpr e).1 (a.addExpr e).2 := by
  have keeps : Keeps a (a.addExpr e).2 ∅ := (addExpr_replaces a e).elim fun _ step => step.keeps
  have owns := addExpr_owns a e
  refine ⟨keeps, ?_, ⟨e, expr_eq stands, expr_eq (stands.extend keeps.extend), expr_eq owns.stands⟩,
    fun i => owns.reaches_iff.trans Finset.mem_Ico, ?_, fun i reaches => stands.reaches_lt keeps reaches, ?_, ?_⟩
  · rw [subtreeSize_eq stands, size_addExpr, Nat.add_sub_cancel_left]
  · have holds : Holds { (a.addExpr e).2 with root := (a.addExpr e).1 } e := ⟨_, owns.congr rfl⟩
    exact holds.singleOwner
  · intro changes within
    have kept := (Keeps.refl (a.addExpr e).2 (Finset.range a.size)).changed
      fun i n member => .inl (Finset.mem_range.mpr (within i n member))
    have apart : Disjoint (Finset.Ico a.size (a.addExpr e).2.size) (Finset.range a.size) :=
      Finset.disjoint_left.mpr fun i new old =>
        Nat.not_lt.mpr (Finset.mem_Ico.mp new).1 (Finset.mem_range.mp old)
    exact (expr_eq (owns.frame kept apart).stands).trans (expr_eq owns.stands).symm
  · intro changes within i f read
    have kept := keeps.changed fun i n member => .inr (within i n member)
    exact expr_eq ((expr_eq_ok_iff.mp read).extend kept.extend)

end Arena

namespace Attempt

/-- Without cycles a copy fails for two reasons only, in this order, and then there is no trace
of it; otherwise it is complete, and apart from what it was made of. -/
theorem cloning_exact {a : Arena} {id : NodeId} (acyclic : a.Acyclic id) :
    (cloning id).result a = a.clone id ∧
      ((∃ j, (cloning id a).1 = .error (.dangling j)) ↔ ∃ j, a.Reaches id j ∧ a.size ≤ j) ∧
      (∀ j, (cloning id a).1 = .error (.dangling j) → a.Reaches id j ∧ a.size ≤ j) ∧
      (a.InRange id → ∃ size, a.subtreeSize id = .ok size ∧
        ((cloning id a).1 = .error (.full a.limit) ↔ a.limit < a.size + size) ∧
        ((∃ copy, (cloning id a).1 = .ok copy) ↔ a.size + size ≤ a.limit)) ∧
      (∀ problem, (cloning id a).1 = .error problem → (cloning id a).2 = a) ∧
      ∀ copy, (cloning id a).1 = .ok copy → a.Copies id copy (cloning id a).2 := by
  refine ⟨cloning_result id a, ?_⟩
  rcases cloning_cases acyclic with ⟨j, reaches, missing, run⟩ | ⟨e, stands, cases⟩
  · have absent : ∃ j, a.Reaches id j ∧ a.size ≤ j := ⟨j, reaches, missing⟩
    have outside : ¬ a.InRange id := fun inside => Nat.not_lt.mpr missing (inside j reaches)
    rw [run]
    refine ⟨⟨fun _ => absent, fun _ => ⟨j, rfl⟩⟩, ?_, fun inside => absurd inside outside, fun _ _ => rfl, nofun⟩
    rintro _ ⟨⟩
    exact ⟨reaches, missing⟩
  · have present : ¬ ∃ j, a.Reaches id j ∧ a.size ≤ j :=
      fun ⟨j, reaches, missing⟩ => Nat.not_lt.mpr missing (stands.inRange j reaches)
    have counted := Arena.subtreeSize_eq stands
    rcases cases with ⟨crowded, run⟩ | ⟨room, run⟩
    · rw [run]
      refine ⟨⟨nofun, fun absent => absurd absent present⟩, nofun, fun _ => ⟨e.size, counted, ?_, ?_⟩,
        fun _ _ => rfl, nofun⟩
      · exact ⟨fun _ => crowded, fun _ => rfl⟩
      · exact ⟨nofun, fun room => absurd crowded (Nat.not_lt.mpr room)⟩
    · rw [run]
      refine ⟨⟨nofun, fun absent => absurd absent present⟩, nofun, fun _ => ⟨e.size, counted, ?_, ?_⟩, nofun, ?_⟩
      · exact ⟨nofun, fun crowded => absurd crowded (Nat.not_lt.mpr room)⟩
      · exact ⟨fun _ => room, fun _ => ⟨_, rfl⟩⟩
      · rintro _ ⟨⟩
        exact stands.copies

/-- The constant hangs below the conjunction twice, and the last node links to the number that
the first node of a copy gets. -/
def repeated : Arena :=
  { nodes := #[.constant true, .link .and 0 0, .not 3], root := 1, limit := 6 }

theorem cloning_exact_repeated :
    repeated.Acyclic 1 ∧ ∃ copy, (cloning 1 repeated).1 = .ok copy ∧ repeated.Copies 1 copy (cloning 1 repeated).2 := by
  have constant : repeated.Stands 0 (.constant true) := .atom rfl
  have stands : repeated.Stands 1 (.link .and (.constant true) (.constant true)) := .link rfl constant constant
  obtain ⟨_, _, _, whole, _, copies⟩ := cloning_exact stands.acyclic
  obtain ⟨size, counted, _, fits⟩ := whole stands.inRange
  cases (Arena.subtreeSize_eq stands).symm.trans counted
  obtain ⟨copy, made⟩ := fits.mpr (by decide)
  exact ⟨stands.acyclic, copy, made, copies copy made⟩

-- One node less, and nothing of the copy is made.
example :
    cloning 1 { repeated with limit := 5 } = (.error (.full 5), { repeated with limit := 5 }) ∧
      cloning 2 repeated = (.error (.dangling 3), repeated) := ⟨rfl, rfl⟩

end Attempt
end Selectivity
