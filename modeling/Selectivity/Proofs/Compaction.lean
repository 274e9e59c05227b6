import Selectivity.Proofs.AcyclicTrees

/-! Building, reading and compacting agree. What is built reads as what it was built from,
and an arena that can be read at all, however its nodes are shared and scattered, compacts
to what would have been built from the reading. Nothing is left to compact in that. -/

namespace Selectivity.Arena

variable {a : Arena}

/-- Every node comes after the nodes that it links to. -/
def Ordered (a : Arena) : Prop := ∀ p position i, a.Child p position i → i < p

/-- The arena is one tree and nothing else, in the order in which trees are built. -/
structure Tidy (a : Arena) : Prop where
  last : a.root + 1 = a.size
  reached : ∀ i, i < a.size → a.Reaches a.root i
  owner : ∀ i, i < a.size → i ≠ a.root → ∃! place : NodeId × Nat, a.Child place.1 place.2 i
  ordered : a.Ordered

theorem Ordered.push (ordered : a.Ordered) {n : Node} (below : ∀ i ∈ n.links, i < a.size) : (a.push n).Ordered := by
  intro p position i ⟨m, found, linked⟩
  rw [get?_push] at found
  split at found
  next new =>
    cases found
    exact new ▸ below i (List.mem_of_getElem? linked)
  next => exact ordered p position i ⟨m, found, linked⟩

theorem addExpr_lt (a : Arena) (e : Expr) : (a.addExpr e).1 < (a.addExpr e).2.size :=
  (addExpr_owns a e).stands.lt_size

theorem Ordered.addExpr (ordered : a.Ordered) (e : Expr) : (a.addExpr e).2.Ordered := by
  induction e generalizing a with
  | link c left right lefts rights =>
    have larger : (a.addExpr left).2.size ≤ ((a.addExpr left).2.addExpr right).2.size := by
      rw [size_addExpr _ right]
      exact Nat.le_add_right _ _
    refine (rights (lefts ordered)).push fun i member => ?_
    rcases List.mem_pair.mp member with rfl | rfl
    · exact Nat.lt_of_lt_of_le (addExpr_lt a left) larger
    · exact addExpr_lt (a.addExpr left).2 right
  | not operand below =>
    refine (below ordered).push fun i member => ?_
    cases List.mem_singleton.mp member
    exact addExpr_lt a operand
  | atom leaf => exact ordered.push fun i member => absurd member List.not_mem_nil

theorem addExpr_last (a : Arena) (e : Expr) : (a.addExpr e).1 + 1 = (a.addExpr e).2.size := by
  cases e <;> simp only [addExpr, size_push]

/-- Whatever the limit, what is built is tidy. -/
theorem ofExpr_tidy (e : Expr) (limit : Nat) : Tidy { ofExpr e with limit } := by
  have empty : Ordered { nodes := #[], root := 0, limit := defaultLimit } := fun _ _ _ ⟨_, found, _⟩ => nomatch found
  have owns := (addExpr_owns { nodes := #[], root := 0, limit := defaultLimit } e).congr
    (b := { ofExpr e with limit }) rfl
  have reached (i : NodeId) (inside : i < Arena.size { ofExpr e with limit }) :
      Reaches { ofExpr e with limit } (ofExpr e).root i :=
    owns.reaches_iff.mpr (Finset.mem_Ico.mpr ⟨Nat.zero_le i, inside⟩)
  refine ⟨addExpr_last _ e, reached, fun i inside other => ?_, empty.addExpr e⟩
  -- Whatever links to a node is reached itself, so that no place is left out of account.
  have everywhere (place : NodeId × Nat) (child : Child { ofExpr e with limit } place.1 place.2 i) :
      Reaches { ofExpr e with limit } (ofExpr e).root place.1 :=
    child.elim fun _ ⟨found, _⟩ => reached place.1 (lt_size_of_get? found)
  obtain ⟨place, ⟨_, child⟩, only⟩ := ((ofExpr_holds e).limited limit).singleOwner.owner i (reached i inside) other
  exact ⟨place, child, fun other child => only other ⟨everywhere other child, child⟩⟩

/-- What is built reads as what it was built from, and a tree that can be read compacts to what
would be built from it, which compacting leaves alone. -/
theorem compact_rebuilt :
    (∀ e, (ofExpr e).rootExpr = .ok e) ∧
      ∀ a : Arena, a.Acyclic a.root → a.InRange a.root →
        ∃ e b, a.rootExpr = .ok e ∧ a.compact = .ok b ∧ b.rootExpr = .ok e ∧ b.nodes = (ofExpr e).nodes ∧
          b.root = (ofExpr e).root ∧ b.limit = a.limit ∧ a.subtreeSize a.root = .ok b.size ∧ b.Tidy ∧
            b.compact = .ok b := by
  refine ⟨fun e => expr_eq (ofExpr_holds e).stands, fun a acyclic inside => ?_⟩
  obtain ⟨e, stands⟩ := stands_iff.mpr ⟨acyclic, inside⟩
  have rebuilt : Stands { ofExpr e with limit := a.limit } (ofExpr e).root e :=
    ((ofExpr_holds e).limited a.limit).stands
  have size : a.subtreeSize a.root = .ok (Arena.size { ofExpr e with limit := a.limit }) := by
    rw [subtreeSize_eq stands]
    exact congrArg Except.ok ((size_addExpr _ e).trans (Nat.zero_add _)).symm
  exact ⟨e, { ofExpr e with limit := a.limit }, expr_eq stands, compact_eq stands, expr_eq rebuilt, rfl, rfl, rfl,
    size, ofExpr_tidy e a.limit, compact_eq rebuilt⟩

/-- A conjunction that hangs below the root twice, after it in the arena, with an operand on
either side of it. The other nodes link to themselves and to what is missing. -/
def scattered : Arena :=
  { nodes := #[.link .or 3 3, .not 1, .constant true, .link .and 2 4, .not 2, .link .and 0 9], root := 0, limit := 7 }

theorem compact_rebuilt_scattered :
    scattered.Acyclic scattered.root ∧ scattered.InRange scattered.root ∧
      ∃ e b, scattered.rootExpr = .ok e ∧ scattered.compact = .ok b ∧ b.rootExpr = .ok e ∧
        b.nodes = (ofExpr e).nodes ∧ b.root = (ofExpr e).root ∧ b.limit = scattered.limit ∧
          scattered.subtreeSize scattered.root = .ok b.size ∧ b.Tidy ∧ b.compact = .ok b := by
  have conjunction : scattered.Stands 3 (.link .and (.constant true) (.not (.constant true))) :=
    .link rfl (.atom rfl) (.not rfl (.atom rfl))
  have stands : scattered.Stands scattered.root _ := .link rfl conjunction conjunction
  exact ⟨stands.acyclic, stands.inRange, compact_rebuilt.2 scattered stands.acyclic stands.inRange⟩

-- The conjunction is there twice, with a copy of the constant for each time it is met.
example :
    scattered.compact = .ok
      { nodes := #[.constant true, .constant true, .not 1, .link .and 0 2, .constant true, .constant true, .not 5,
          .link .and 4 6, .link .or 3 7],
        root := 8, limit := 7 } := by rfl

end Selectivity.Arena
