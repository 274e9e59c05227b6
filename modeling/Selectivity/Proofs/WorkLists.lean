import Mathlib.Data.Finset.Card
import Mathlib.Data.Finset.Range
import Selectivity.Normalize.Chain
import Selectivity.Proofs.ArenaEdits

/-! Walks with a work list. The node on top of the list is looked at, and its children are put
on top of the rest. Such a walk meets what a recursion over the children meets, in the same
order, and it never comes to an end just when no depth is enough for the recursion. -/

namespace Selectivity

namespace WorkList

variable {ε : Type} {look : NodeId → Except ε (List NodeId)}

/-- Counts the nodes that are looked at, if `turns` are enough for that. A look may also stop
the walk. -/
def drain (look : NodeId → Except ε (List NodeId)) : (turns : Nat) → (stack : List NodeId) → (met : Nat) →
    Option (Except ε Nat)
  | 0, _, _ => none
  | _ + 1, [], met => some (.ok met)
  | turns + 1, next :: stack, met =>
    match look next with
    | .ok children => drain look turns (children.reverse ++ stack) (met + 1)
    | .error stop => some (.error stop)

/-- Goes on from a count, unless the walk has stopped before. -/
def proceed (next : Nat → Option (Except ε Nat)) : Option (Except ε Nat) → Option (Except ε Nat)
  | some (.ok count) => next count
  | stop => stop

def tallyAll (tally : NodeId → Option (Except ε Nat)) : List NodeId → Option (Except ε Nat)
  | [] => some (.ok 0)
  | id :: ids => proceed (fun count => (tallyAll tally ids).map (·.map (count + ·))) (tally id)

/-- Counts the same nodes from the last child to the first, if the depth is enough for that. -/
def tally (look : NodeId → Except ε (List NodeId)) : (depth : Nat) → NodeId → Option (Except ε Nat)
  | 0, _ => none
  | depth + 1, id =>
    match look id with
    | .ok children => (tallyAll (tally look depth) children.reverse).map (·.map (· + 1))
    | .error stop => some (.error stop)

@[simp] theorem proceed_none (next : Nat → Option (Except ε Nat)) : proceed next none = none := rfl

@[simp] theorem proceed_error (next : Nat → Option (Except ε Nat)) (stop : ε) :
    proceed next (some (.error stop)) = some (.error stop) := rfl

@[simp] theorem proceed_ok (next : Nat → Option (Except ε Nat)) (count : Nat) :
    proceed next (some (.ok count)) = next count := rfl

section Looks

variable {id : NodeId} {stop : ε} {children : List NodeId}

theorem drain_stop (looked : look id = .error stop) (turns : Nat) (stack : List NodeId) (met : Nat) :
    drain look (turns + 1) (id :: stack) met = some (.error stop) := by rw [drain, looked]

theorem drain_children (looked : look id = .ok children) (turns : Nat) (stack : List NodeId) (met : Nat) :
    drain look (turns + 1) (id :: stack) met = drain look turns (children.reverse ++ stack) (met + 1) := by
  rw [drain, looked]

theorem tally_stop (looked : look id = .error stop) (depth : Nat) :
    tally look (depth + 1) id = some (.error stop) := by rw [tally, looked]

theorem tally_children (looked : look id = .ok children) (depth : Nat) :
    tally look (depth + 1) id = (tallyAll (tally look depth) children.reverse).map (·.map (· + 1)) := by
  rw [tally, looked]

end Looks

variable {tally' tally'' : NodeId → Option (Except ε Nat)} {depth turns met : Nat} {id : NodeId} {ids : List NodeId}
  {r : Except ε Nat}

theorem tallyAll_append (ids more : List NodeId) : tallyAll tally' (ids ++ more) =
    proceed (fun count => (tallyAll tally' more).map (·.map (count + ·))) (tallyAll tally' ids) := by
  induction ids with
  | nil =>
    rw [List.nil_append, tallyAll, proceed_ok]
    rcases tallyAll tally' more with _ | stop | last <;> simp [Except.map]
  | cons id ids ih =>
    rw [List.cons_append, tallyAll, tallyAll, ih]
    rcases tally' id with _ | stop | count
    · rfl
    · rfl
    · rcases tallyAll tally' ids with _ | stop | rest
      · rfl
      · rfl
      · rcases tallyAll tally' more with _ | stop | last
        · rfl
        · rfl
        · simp [Except.map, Nat.add_assoc]

/-! ### More depth, more turns -/

theorem tallyAll_mono (more : ∀ id r, tally' id = some r → tally'' id = some r)
    (done : tallyAll tally' ids = some r) : tallyAll tally'' ids = some r := by
  induction ids generalizing r with
  | nil => exact done
  | cons id ids ih =>
    rw [tallyAll] at done ⊢
    rcases here : tally' id with _ | stop | count
    · rw [here] at done
      cases done
    · rw [here] at done
      rw [more id _ here]
      exact done
    · rw [here] at done
      obtain ⟨rest, later, rfl⟩ := Option.map_eq_some_iff.mp done
      rw [more id _ here, proceed_ok, ih later, Option.map_some]

theorem tally_succ (done : tally look depth id = some r) : tally look (depth + 1) id = some r := by
  induction depth generalizing id r with
  | zero => cases done
  | succ depth ih =>
    cases looked : look id with
    | error stop => rwa [tally_stop looked] at done ⊢
    | ok children =>
      rw [tally_children looked] at done ⊢
      obtain ⟨all, below, rfl⟩ := Option.map_eq_some_iff.mp done
      rw [tallyAll_mono (fun _ _ => ih) below, Option.map_some]

theorem tally_mono (done : tally look depth id = some r) {deeper : Nat} (within : depth ≤ deeper) :
    tally look deeper id = some r := by
  induction within with
  | refl => exact done
  | step _ ih => exact tally_succ ih

theorem drain_mono (done : drain look turns ids met = some r) (extra : Nat) :
    drain look (turns + extra) ids met = some r := by
  induction turns generalizing ids met with
  | zero => cases done
  | succ turns ih =>
    rw [Nat.succ_add]
    cases ids with
    | nil => exact done
    | cons id ids =>
      cases looked : look id with
      | error stop => rwa [drain_stop looked] at done ⊢
      | ok children =>
        rw [drain_children looked] at done ⊢
        exact ih done

/-! ### The list and the recursion -/

/-- What the recursion meets, the walk meets before it goes on with the rest of its list. -/
theorem drain_of_tally (done : tallyAll (tally look depth) ids = some r) :
    ∃ needed, ∀ turns stack met, drain look (turns + needed) (ids ++ stack) met =
      proceed (fun count => drain look turns stack (met + count)) (some r) := by
  induction depth generalizing ids r with
  | zero =>
    cases ids with
    | nil =>
      cases done
      exact ⟨0, fun _ _ _ => rfl⟩
    | cons id ids => cases done
  | succ depth below =>
    induction ids generalizing r with
    | nil =>
      cases done
      exact ⟨0, fun _ _ _ => rfl⟩
    | cons id ids ih =>
      rw [tallyAll] at done
      cases looked : look id with
      | error stop =>
        rw [tally_stop looked] at done
        cases done
        exact ⟨1, fun turns stack met => drain_stop looked turns (ids ++ stack) met⟩
      | ok children =>
        rw [tally_children looked] at done
        rcases inside : tallyAll (tally look depth) children.reverse with _ | stop | count
        · rw [inside] at done
          cases done
        · rw [inside] at done
          cases done
          obtain ⟨needed, run⟩ := below inside
          refine ⟨needed + 1, fun turns stack met => ?_⟩
          rw [← Nat.add_assoc, List.cons_append, drain_children looked]
          exact run turns (ids ++ stack) (met + 1)
        · rw [inside] at done
          obtain ⟨rest, later, rfl⟩ := Option.map_eq_some_iff.mp done
          obtain ⟨first, run⟩ := below inside
          obtain ⟨second, run'⟩ := ih later
          refine ⟨second + first + 1, fun turns stack met => ?_⟩
          rw [← Nat.add_assoc, ← Nat.add_assoc, List.cons_append, drain_children looked, run, proceed_ok, run']
          cases rest with
          | error stop => rfl
          | ok others =>
            simp only [Except.map, proceed_ok]
            congr 1
            omega

/-- A walk that comes to an end goes down no further than to some depth. -/
theorem exists_tallyAll (done : drain look turns ids met = some r) :
    ∃ depth s, tallyAll (tally look depth) ids = some s := by
  induction turns generalizing ids met with
  | zero => cases done
  | succ turns ih =>
    cases ids with
    | nil => exact ⟨0, _, rfl⟩
    | cons id ids =>
      cases looked : look id with
      | error stop => exact ⟨1, .error stop, by rw [tallyAll, tally_stop looked, proceed_error]⟩
      | ok children =>
        rw [drain_children looked] at done
        obtain ⟨depth, all, both⟩ := ih done
        rw [tallyAll_append] at both
        refine ⟨depth + 1, ?_⟩
        rw [tallyAll, tally_children looked]
        rcases inside : tallyAll (tally look depth) children.reverse with _ | stop | count
        · rw [inside] at both
          cases both
        · exact ⟨.error stop, rfl⟩
        · rw [inside] at both
          obtain ⟨rest, later, rfl⟩ := Option.map_eq_some_iff.mp both
          rw [tallyAll_mono (fun _ _ => tally_succ) later]
          exact ⟨_, rfl⟩

/-- Some child is to blame if one more step of depth makes a difference. -/
private theorem exists_child (before : tallyAll tally' ids = none) (after : tallyAll tally'' ids ≠ none)
    (more : ∀ id r, tally' id = some r → tally'' id = some r) :
    ∃ id ∈ ids, tally' id = none ∧ tally'' id ≠ none := by
  induction ids with
  | nil => cases before
  | cons id ids ih =>
    rw [tallyAll] at before after
    rcases here : tally' id with _ | stop | count
    · refine ⟨id, List.mem_cons_self, here, fun none => after ?_⟩
      rw [none, proceed_none]
    · rw [here] at before
      cases before
    · rw [here, proceed_ok, Option.map_eq_none_iff] at before
      rw [more id _ here, proceed_ok] at after
      obtain ⟨child, member, found⟩ := ih before (mt Option.map_eq_none_iff.mpr after)
      exact ⟨child, List.mem_cons_of_mem _ member, found⟩

/-- A recursion that needs some depth exactly goes through as many nodes on its way down. -/
private theorem exists_path {bound : Nat} (inside : ∀ i children, look i = .ok children → i < bound)
    (before : tally look depth id = none) (after : tally look (depth + 1) id ≠ none) :
    ∃ path ⊆ Finset.range bound, path.card = depth ∧ ∀ i ∈ path, tally look (depth + 1) i ≠ none := by
  induction depth generalizing id with
  | zero => exact ⟨∅, Finset.empty_subset _, rfl, by simp⟩
  | succ depth ih =>
    cases looked : look id with
    | error stop =>
      rw [tally_stop looked] at before
      cases before
    | ok children =>
      have onPath := after
      rw [tally_children looked] at before after
      obtain ⟨child, _, none, some⟩ := exists_child (Option.map_eq_none_iff.mp before)
        (mt Option.map_eq_none_iff.mpr after) fun _ _ => tally_succ
      obtain ⟨path, within, card, ends⟩ := ih none some
      have deeper (i : NodeId) (ends : tally look (depth + 1) i ≠ Option.none) :
          tally look (depth + 1 + 1) i ≠ Option.none := by
        obtain ⟨r, done⟩ := Option.ne_none_iff_exists'.mp ends
        rw [tally_succ done]
        exact Option.some_ne_none _
      have new : id ∉ path := fun member => ends id member (by rw [tally_children looked]; exact before)
      have here := Finset.mem_range.mpr (inside id children looked)
      refine ⟨insert id path, Finset.insert_subset here within, ?_, ?_⟩
      · rw [Finset.card_insert_of_notMem new, card]
      · intro i member
        rcases Finset.mem_insert.mp member with rfl | member
        · exact onPath
        · exact deeper i (ends i member)

/-- No path is longer than there are nodes, so a depth of one more is always enough. -/
theorem tally_bounded {bound : Nat} (inside : ∀ i children, look i = .ok children → i < bound)
    (done : tally look depth id = some r) : tally look (bound + 1) id = some r := by
  induction depth with
  | zero => cases done
  | succ depth ih =>
    cases before : tally look depth id with
    | some s =>
      rw [tally_succ before] at done
      exact ih (before.trans done)
    | none =>
      obtain ⟨path, within, card, _⟩ := exists_path inside before (done ▸ Option.some_ne_none r)
      have short := Finset.card_le_card within
      rw [card, Finset.card_range] at short
      exact tally_mono done (Nat.succ_le_succ short)

private theorem stop_of_tallyAll {stop : ε} (done : tallyAll tally' ids = some (.error stop)) :
    ∃ i, tally' i = some (.error stop) := by
  induction ids with
  | nil => cases done
  | cons i ids ih =>
    rw [tallyAll] at done
    rcases here : tally' i with _ | other | count
    · rw [here] at done
      cases done
    · rw [here] at done
      cases done
      exact ⟨i, here⟩
    · rw [here] at done
      obtain ⟨rest, later, same⟩ := Option.map_eq_some_iff.mp done
      cases rest with
      | error other =>
        cases same
        exact ih later
      | ok count => cases same

/-- A walk stops for no other reason than a look does. -/
theorem exists_stop {stop : ε} (done : tally look depth id = some (.error stop)) : ∃ i, look i = .error stop := by
  induction depth generalizing id with
  | zero => cases done
  | succ depth ih =>
    cases looked : look id with
    | error other =>
      rw [tally_stop looked] at done
      cases done
      exact ⟨id, looked⟩
    | ok children =>
      rw [tally_children looked] at done
      obtain ⟨all, below, same⟩ := Option.map_eq_some_iff.mp done
      cases all with
      | error other =>
        cases same
        obtain ⟨i, stopped⟩ := stop_of_tallyAll below
        exact ih stopped
      | ok count => cases same

/-- The walk from a node ends as the recursion from there does, and with the same count. -/
theorem drain_iff {bound : Nat} (inside : ∀ i children, look i = .ok children → i < bound) :
    (∃ turns, drain look turns [id] 0 = some r) ↔ tally look (bound + 1) id = some r := by
  have single (depth : Nat) : tallyAll (tally look depth) [id] = tally look depth id := by
    rw [tallyAll, tallyAll]
    rcases tally look depth id with _ | stop | count <;> simp [Except.map]
  have walk {depth : Nat} {s : Except ε Nat} (done : tally look depth id = some s) :
      ∃ turns, drain look turns [id] 0 = some s := by
    obtain ⟨needed, run⟩ := drain_of_tally ((single depth).trans done)
    refine ⟨1 + needed, (run 1 [] 0).trans ?_⟩
    cases s with
    | error stop => rfl
    | ok count => simp [drain]
  constructor
  · intro ⟨turns, run⟩
    obtain ⟨depth, s, done⟩ := exists_tallyAll run
    rw [single] at done
    obtain ⟨turns', run'⟩ := walk done
    -- Both runs go on as one, so they end in the same way.
    have same := (drain_mono run turns').symm.trans (Nat.add_comm turns' turns ▸ drain_mono run' turns)
    cases same
    exact tally_bounded inside done
  · exact walk

end WorkList

/-! ### Counting nodes, checking chains -/

def Node.children : Node → List NodeId
  | .link _ left right => [left, right]
  | .not operand => [operand]
  | .atom _ => []

namespace Arena

open WorkList

variable {a : Arena} {id : NodeId}

def sizeLook (a : Arena) (id : NodeId) : Except TreeError (List NodeId) := (a.node id).map Node.children

/-- The number of nodes below one, counted from a work list. -/
def countedFrom (a : Arena) (id : NodeId) (turns : Nat) : Option (Except TreeError Nat) :=
  drain a.sizeLook turns [id] 0

theorem sizeAt_eq_tally (a : Arena) (depth : Nat) (id : NodeId) :
    a.sizeAt depth id = (tally a.sizeLook depth id).getD (.error .endless) := by
  induction depth generalizing id with
  | zero => rfl
  | succ depth ih =>
    rw [sizeAt]
    cases read : a.node id with
    | error problem =>
      have looked : a.sizeLook id = .error problem := congrArg (Except.map Node.children) read
      rw [tally_stop looked]
      rfl
    | ok n =>
      have looked : a.sizeLook id = .ok n.children := congrArg (Except.map Node.children) read
      rw [tally_children looked, ok_bind]
      cases n with
      | link c left right =>
        show (a.sizeAt depth right >>= fun rights => a.sizeAt depth left >>= fun lefts => pure (lefts + rights + 1)) =
          ((tallyAll (tally a.sizeLook depth) [right, left]).map (·.map (· + 1))).getD (.error .endless)
        rw [ih, ih, tallyAll, tallyAll, tallyAll]
        rcases tally a.sizeLook depth right with _ | stop | rights
        · rfl
        · rfl
        · rcases tally a.sizeLook depth left with _ | stop | lefts
          · rfl
          · rfl
          · exact congrArg (fun count => Except.ok (count + 1)) (Nat.add_comm lefts rights)
      | not operand =>
        show (a.sizeAt depth operand >>= fun below => pure (below + 1)) =
          ((tallyAll (tally a.sizeLook depth) [operand]).map (·.map (· + 1))).getD (.error .endless)
        rw [ih, tallyAll, tallyAll]
        rcases tally a.sizeLook depth operand with _ | stop | below <;> rfl
      | atom leaf => rfl

private theorem node_inside {n : Node} (read : a.node id = .ok n) : id < a.size := by
  by_contra outside
  have missing : a.get? id = none := Array.getElem?_eq_none (Nat.le_of_not_lt outside)
  rw [node, missing] at read
  cases read

private theorem node_error {problem : TreeError} (read : a.node id = .error problem) : problem = .dangling id := by
  rw [node] at read
  split at read <;> cases read
  rfl

/-- Counted from a work list, a subtree has the size that it has, whatever the arena. The list
never runs empty just when the links lead in a circle. -/
theorem countedFrom_iff {r : Except TreeError Nat} :
    (∃ turns, a.countedFrom id turns = some r) ↔ a.subtreeSize id = r ∧ r ≠ .error .endless := by
  have inside (i : NodeId) (children : List NodeId) (looked : a.sizeLook i = .ok children) : i < a.size := by
    cases read : a.node i with
    | error problem => rw [sizeLook, read] at looked; cases looked
    | ok n => exact node_inside read
  have size := a.sizeAt_eq_tally a.steps id
  have walk : (∃ turns, a.countedFrom id turns = some r) ↔ _ := drain_iff inside
  rw [walk, subtreeSize, size, steps]
  cases done : tally a.sizeLook (a.size + 1) id with
  | none => simp [eq_comm]
  | some s =>
    rw [Option.getD_some, Option.some_inj]
    refine ⟨fun same => ⟨same, fun endless => ?_⟩, And.left⟩
    rw [same, endless] at done
    obtain ⟨i, looked⟩ := exists_stop done
    cases read : a.node i with
    | error problem =>
      rw [sizeLook, read] at looked
      cases looked
      cases node_error read
    | ok n => rw [sizeLook, read] at looked; cases looked

/-- A link of the same kind on the left ends the check, and so does a node that is missing. -/
def chainLook (a : Arena) (id : NodeId) : Except (Option TreeError) (List NodeId) :=
  match a.node id with
  | .error problem => .error (some problem)
  | .ok (.link c left right) =>
    match a.node left with
    | .error problem => .error (some problem)
    | .ok first => if first.isLink c then .error none else .ok [left, right]
  | .ok n => .ok n.children

def chainAnswer : Except (Option TreeError) Nat → Except TreeError Bool
  | .ok _ => .ok true
  | .error none => .ok false
  | .error (some problem) => .error problem

/-- Whether everything below a conjunction at the root is chained, checked from a work list. -/
def checkedFrom (a : Arena) (turns : Nat) : Option (Except TreeError Bool) :=
  match a.node a.root with
  | .error problem => some (.error problem)
  | .ok n => if n.isLink .and then (drain a.chainLook turns [a.root] 0).map chainAnswer else some (.ok false)

theorem isChainedAt_eq_tally (a : Arena) (depth : Nat) (id : NodeId) :
    a.isChainedAt depth id = ((tally a.chainLook depth id).map chainAnswer).getD (.error .endless) := by
  induction depth generalizing id with
  | zero => rfl
  | succ depth ih =>
    rw [isChainedAt]
    cases read : a.node id with
    | error problem =>
      have looked : a.chainLook id = .error (some problem) := by rw [chainLook, read]
      rw [tally_stop looked]
      rfl
    | ok n =>
      rw [ok_bind]
      cases n with
      | link c left right =>
        cases first : a.node left with
        | error problem =>
          have looked : a.chainLook id = .error (some problem) := by simp only [chainLook, read, first]
          rw [tally_stop looked]
          simp only [first]
          rfl
        | ok n =>
          by_cases same : n.isLink c
          · have looked : a.chainLook id = .error none := by simp only [chainLook, read, first, same, if_true]
            rw [tally_stop looked]
            simp only [first, ok_bind, same, if_true]
            rfl
          · have looked : a.chainLook id = .ok [left, right] := by
              simp only [chainLook, read, first, same, Bool.false_eq_true, if_false]
            rw [tally_children looked]
            simp only [first, ok_bind, same, Bool.false_eq_true, if_false, ih, List.reverse_cons, List.reverse_nil,
              List.nil_append, List.singleton_append, tallyAll]
            rcases tally a.chainLook depth right with _ | stop | rights
            · rfl
            · cases stop <;> rfl
            · rcases tally a.chainLook depth left with _ | (_ | problem) | lefts <;> rfl
      | not operand =>
        have looked : a.chainLook id = .ok [operand] := by simp only [chainLook, read, Node.children]
        rw [tally_children looked]
        simp only [ih, List.reverse_singleton, tallyAll]
        rcases tally a.chainLook depth operand with _ | (_ | problem) | below <;> rfl
      | atom leaf =>
        have looked : a.chainLook id = .ok [] := by simp only [chainLook, read, Node.children]
        rw [tally_children looked]
        rfl

private theorem chainLook_error {problem : TreeError} (looked : a.chainLook id = .error (some problem)) :
    problem ≠ .endless := by
  rw [chainLook] at looked
  split at looked
  next other read =>
    cases looked
    exact node_error read ▸ TreeError.noConfusion
  next c left right read =>
    split at looked
    next other read =>
      cases looked
      exact node_error read ▸ TreeError.noConfusion
    next first read =>
      split at looked <;> cases looked
  next => cases looked

/-- An answer that is there from the start takes no turns. -/
private theorem answered_iff {answer r : Except TreeError Bool} (ends : answer ≠ .error .endless) :
    (∃ _ : Nat, some answer = some r) ↔ answer = r ∧ r ≠ .error .endless := by
  simp only [exists_const, Option.some_inj]
  exact ⟨fun same => ⟨same, same ▸ ends⟩, And.left⟩

/-- Checked from a work list, a tree is chained just if it is. The list never runs empty just
when the links lead in a circle before anything ends the check. -/
theorem checkedFrom_iff {r : Except TreeError Bool} :
    (∃ turns, a.checkedFrom turns = some r) ↔ a.isChained = r ∧ r ≠ .error .endless := by
  have inside (i : NodeId) (children : List NodeId) (looked : a.chainLook i = .ok children) : i < a.size := by
    cases read : a.node i with
    | error problem =>
      rw [chainLook, read] at looked
      cases looked
    | ok n => exact node_inside read
  cases read : a.node a.root with
  | error problem =>
    have dangling := node_error read
    simp only [checkedFrom, isChained, read, dangling]
    exact answered_iff nofun
  | ok n =>
    simp only [checkedFrom, isChained, read, ok_bind]
    cases n.isLink .and with
    | false => exact answered_iff nofun
    | true =>
      have walk : (∃ turns, (drain a.chainLook turns [a.root] 0).map chainAnswer = some r) ↔
          (tally a.chainLook (a.size + 1) a.root).map chainAnswer = some r := by
        simp only [Option.map_eq_some_iff, ← drain_iff inside, ← exists_and_right]
        exact exists_comm
      simp only [if_true, walk, isChainedAt_eq_tally, steps]
      cases done : tally a.chainLook (a.size + 1) a.root with
      | none => simp [eq_comm]
      | some s =>
        rw [Option.map_some, Option.getD_some, Option.some_inj]
        refine ⟨fun same => ⟨same, fun endless => ?_⟩, And.left⟩
        rw [endless] at same
        rcases s with (_ | problem) | count
        · cases same
        · cases same
          obtain ⟨i, looked⟩ := exists_stop done
          exact chainLook_error looked rfl
        · cases same

end Arena
end Selectivity
