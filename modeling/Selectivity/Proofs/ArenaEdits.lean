import Selectivity.Proofs.ArenaTrees

/-! Edits that put trees in the place of trees. `Replaces` is closed under sequencing on
separate trees, under linking in place or at the end of the arena, and under building
chains, so that an edit is proved along its recursion. -/

namespace Selectivity

namespace Expr

/-- The right-linked chain over some expressions, ending in the neutral constant. -/
def chain (c : Connective) (es : List Expr) : Expr := es.foldr (.link c) (constant c.unit)

end Expr

@[simp] theorem ok_bind {ε α β : Type} (value : α) (next : α → Except ε β) :
    ((Except.ok value : Except ε α) >>= next) = next value := rfl

@[simp] theorem ok_pure {ε α : Type} (value : α) : (pure value : Except ε α) = .ok value := rfl

theorem ok_of_bind {ε α β : Type} {first : Except ε α} {next : α → Except ε β} {result : β}
    (run : (first >>= next) = .ok result) : ∃ value, first = .ok value ∧ next value = .ok result := by
  cases first with
  | error problem => cases run
  | ok value => exact ⟨value, rfl, run⟩

namespace Edit

variable {α β : Type}

theorem bind_run (first : Edit α) (next : α → Edit β) (a : Arena) :
    (first >>= next) a = first a >>= fun result => next result.1 result.2 := rfl

theorem pure_run (value : α) (a : Arena) : (pure value : Edit α) a = .ok (value, a) := rfl

theorem store_run (id : NodeId) (n : Node) (a : Arena) : store id n a = .ok ((), a.set id n) := rfl

theorem appendChain_run (c : Connective) (items : List NodeId) (a : Arena) :
    appendChain c items a = .ok (a.addChain c items) := rfl

theorem fetch_run {id : NodeId} {n : Node} {a : Arena} (found : a.get? id = some n) :
    fetch id a = .ok (n, a) := by
  simp only [fetch, Arena.node_of_get? found]
  rfl

theorem ask_run {a : Arena} {question : Arena → Except TreeError β} {answer : β} (answers : question a = .ok answer) :
    ask question a = .ok (answer, a) := by
  simp only [ask, answers]
  rfl

end Edit

namespace Arena

variable {a b c : Arena} {s t u : Finset NodeId} {ids more : List NodeId} {es fs : List Expr}

/-- The trees of `b` at `ids` came into the place of the nodes `s` of `a`: they are made
of those and of new ones, and every other old node is as it was. -/
structure Replaces (a : Arena) (s : Finset NodeId) (b : Arena) (ids : List NodeId) (es : List Expr)
    (t : Finset NodeId) : Prop where
  keeps : Keeps a b s
  forest : b.Forest ids es t
  fresh : ∀ i ∈ t, i ∈ s ∨ a.size ≤ i

namespace Replaces

theorem refl (forest : a.Forest ids es s) : Replaces a s a ids es s :=
  ⟨.refl a s, forest, fun _ member => .inl member⟩

theorem nil (keeps : Keeps a b s) : Replaces a s b [] [] ∅ := ⟨keeps, .nil, by simp⟩

theorem owns {id : NodeId} {e : Expr} (step : Replaces a s b [id] [e] t) : b.Owns id e t := step.forest.owns

theorem mono (step : Replaces a s b ids es t) (within : s ⊆ u) : Replaces a u b ids es t :=
  ⟨step.keeps.mono within, step.forest, fun i member => (step.fresh i member).imp (fun old => within old) id⟩

theorem trans (first : Replaces a s b ids es t) (second : Replaces b t c more fs u) : Replaces a s c more fs u := by
  refine ⟨first.keeps.trans second.keeps first.fresh, second.forest, ?_⟩
  intro i member
  rcases second.fresh i member with old | new
  · exact first.fresh i old
  · exact .inr (Nat.le_trans first.keeps.size new)

theorem select (step : Replaces a s b ids es t) (forest : b.Forest more fs u) (within : u ⊆ t) :
    Replaces a s b more fs u :=
  ⟨step.keeps, forest, fun i member => step.fresh i (within member)⟩

/-- What an edit leaves behind has no node in common with an old tree that it did not touch. -/
theorem apart (step : Replaces a s b ids es t) (old : ∀ i ∈ u, i < a.size) (other : Disjoint s u) :
    Disjoint t u := by
  rw [Finset.disjoint_left]
  intro i mine theirs
  rcases step.fresh i mine with touched | new
  · exact Finset.disjoint_left.mp other touched theirs
  · exact Nat.not_lt.mpr new (old i theirs)

theorem append {v : Finset NodeId} (first : Replaces a s b ids es t) (second : Replaces b u c more fs v)
    (other : Disjoint s u) (old : ∀ i ∈ u, i < a.size) :
    Replaces a (s ∪ u) c (ids ++ more) (es ++ fs) (t ∪ v) := by
  have kept : Disjoint t u := first.apart old other
  have separate : Disjoint v t := second.apart first.forest.lt_size kept.symm
  have before : Keeps a c (s ∪ u) :=
    (first.keeps.mono Finset.subset_union_left).trans second.keeps
      (fun i member => .inl (Finset.mem_union_right s member))
  refine ⟨before, (first.forest.frame second.keeps kept).append second.forest separate.symm, ?_⟩
  intro i member
  rcases Finset.mem_union.mp member with member | member
  · exact (first.fresh i member).imp (Finset.mem_union_left u) id
  · rcases second.fresh i member with touched | new
    · exact .inl (Finset.mem_union_right s touched)
    · exact .inr (Nat.le_trans first.keeps.size new)

theorem not_mem (step : Replaces a s b ids es t) {id : NodeId} (old : id < a.size) (out : id ∉ s) : id ∉ t := by
  intro member
  rcases step.fresh id member with touched | new
  · exact out touched
  · exact Nat.not_lt.mpr new old

/-- A new root above trees, in the place of an old node or at the end of the arena. -/
private theorem above {v : Finset NodeId} {id : NodeId} {e : Expr} (step : Replaces a s b ids es t)
    (keeps : Keeps b c u) (only : u ⊆ {id}) (owns : c.Owns id e (insert id t)) (within : s ⊆ v)
    (place : id ∈ v ∨ a.size ≤ id) : Replaces a v c [id] [e] (insert id t) := by
  refine ⟨(step.keeps.mono within).trans keeps ?_, owns.forest, ?_⟩
  · intro i member
    cases Finset.mem_singleton.mp (only member)
    exact place
  · intro i member
    rcases Finset.mem_insert.mp member with rfl | member
    · exact place
    · exact (step.fresh i member).imp_left (fun old => within old)

/-! ### Nodes written in place -/

theorem setAtom (leaf : Atom) {id : NodeId} (old : id < a.size) :
    Replaces a {id} (a.set id (.atom leaf)) [id] [.atom leaf] {id} :=
  ⟨.set a id _, (Owns.atom ((get?_set a _ old id).trans (if_pos rfl))).forest, fun _ member => .inl member⟩

theorem setNot {id operand : NodeId} {e : Expr} (step : Replaces a s b [operand] [e] t) (old : id < a.size)
    (out : id ∉ s) : Replaces a (insert id s) (b.set id (.not operand)) [id] [.not e] (insert id t) := by
  have absent : id ∉ t := step.not_mem old out
  have written := (get?_set b (.not operand) (Nat.lt_of_lt_of_le old step.keeps.size) id).trans (if_pos rfl)
  have below := step.owns.frame (.set b id (.not operand)) (Finset.disjoint_singleton_right.mpr absent)
  exact step.above (.set b id _) (Finset.Subset.refl _) (.not written below absent) (Finset.subset_insert id s)
    (.inl (Finset.mem_insert_self id s))

theorem setLink (k : Connective) {id left right : NodeId} {e f : Expr}
    (step : Replaces a s b [left, right] [e, f] t) (old : id < a.size) (out : id ∉ s) :
    Replaces a (insert id s) (b.set id (.link k left right)) [id] [.link k e f] (insert id t) := by
  have absent : id ∉ t := step.not_mem old out
  have written := (get?_set b (.link k left right) (Nat.lt_of_lt_of_le old step.keeps.size) id).trans (if_pos rfl)
  have kept := step.forest.frame (.set b id (.link k left right)) (Finset.disjoint_singleton_right.mpr absent)
  exact step.above (.set b id _) (Finset.Subset.refl _) (kept.link written absent) (Finset.subset_insert id s)
    (.inl (Finset.mem_insert_self id s))

theorem relink (k : Connective) {id left right : NodeId} {e f : Expr}
    (step : Replaces a s b [left, right] [e, f] t) (found : a.get? id = some (.link k left right)) (out : id ∉ s) :
    Replaces a (insert id s) b [id] [.link k e f] (insert id t) := by
  have old := lt_size_of_get? found
  have kept := (step.keeps.same id old out).trans found
  exact step.above (.refl b ∅) (Finset.empty_subset _) (step.forest.link kept (step.not_mem old out))
    (Finset.subset_insert id s) (.inl (Finset.mem_insert_self id s))

/-! ### Nodes appended -/

theorem pushAtom (leaf : Atom) (keeps : Keeps a b s) :
    Replaces a s (b.push (.atom leaf)) [b.size] [.atom leaf] {b.size} :=
  ⟨keeps.push _, (Owns.atom ((get?_push b _ _).trans (if_pos rfl))).forest,
    fun _ member => .inr (Finset.mem_singleton.mp member ▸ keeps.size)⟩

private theorem size_not_mem (step : Replaces a s b ids es t) : b.size ∉ t :=
  fun member => Nat.lt_irrefl _ (step.forest.lt_size _ member)

theorem pushNot {operand : NodeId} {e : Expr} (step : Replaces a s b [operand] [e] t) :
    Replaces a s (b.push (.not operand)) [b.size] [.not e] (insert b.size t) := by
  have keeps : Keeps b (b.push (.not operand)) ∅ := (Keeps.refl b ∅).push _
  have below := step.owns.frame keeps (Finset.disjoint_empty_right t)
  exact step.above keeps (Finset.empty_subset _)
    (.not ((get?_push b _ _).trans (if_pos rfl)) below step.size_not_mem) (Finset.Subset.refl s) (.inr step.keeps.size)

theorem pushLink (k : Connective) {left right : NodeId} {e f : Expr}
    (step : Replaces a s b [left, right] [e, f] t) :
    Replaces a s (b.push (.link k left right)) [b.size] [.link k e f] (insert b.size t) := by
  have keeps : Keeps b (b.push (.link k left right)) ∅ := (Keeps.refl b ∅).push _
  have kept := step.forest.frame keeps (Finset.disjoint_empty_right t)
  exact step.above keeps (Finset.empty_subset _)
    (kept.link ((get?_push b _ _).trans (if_pos rfl)) step.size_not_mem) (Finset.Subset.refl s) (.inr step.keeps.size)

end Replaces

theorem Forest.chain (k : Connective) (forest : a.Forest ids es s) :
    ∃ t, Replaces a s (a.addChain k ids).2 [(a.addChain k ids).1] [Expr.chain k es] t := by
  induction forest with
  | nil => exact ⟨_, .pushAtom (.constant k.unit) (.refl a ∅)⟩
  | cons head tail apart ih =>
    obtain ⟨t, step⟩ := ih
    exact ⟨_, ((Replaces.refl head.forest).append step apart tail.lt_size).pushLink k⟩

/-! ### Trees built from expressions -/

theorem addExpr_replaces (a : Arena) (e : Expr) :
    ∃ t, Replaces a ∅ (a.addExpr e).2 [(a.addExpr e).1] [e] t := by
  induction e generalizing a with
  | link c left right lefts rights =>
    obtain ⟨s, first⟩ := lefts a
    obtain ⟨t, second⟩ := rights (a.addExpr left).2
    have both := first.append second (Finset.disjoint_empty_left ∅) (by simp)
    exact ⟨_, both.pushLink c⟩
  | not operand below =>
    obtain ⟨s, step⟩ := below a
    exact ⟨_, step.pushNot⟩
  | atom leaf => exact ⟨_, .pushAtom leaf (.refl a ∅)⟩

/-- The tree below the root, which owns all its nodes, stands for an expression. -/
def Holds (a : Arena) (e : Expr) : Prop := ∃ s, a.Owns a.root e s

theorem Holds.stands {e : Expr} (holds : a.Holds e) : a.Stands a.root e := holds.elim fun _ owns => owns.stands

theorem Owns.congr {id : NodeId} {e : Expr} (owns : a.Owns id e s) (nodes : b.nodes = a.nodes) : b.Owns id e s := by
  have same (i : NodeId) : b.get? i = a.get? i := by simp only [get?, nodes]
  induction owns with
  | link found _ _ apart own lefts rights => exact .link ((same _).trans found) lefts rights apart own
  | not found _ own below => exact .not ((same _).trans found) below own
  | atom found => exact .atom ((same _).trans found)

theorem Forest.congr (forest : a.Forest ids es s) (nodes : b.nodes = a.nodes) : b.Forest ids es s := by
  induction forest with
  | nil => exact .nil
  | cons head _ apart tail => exact .cons (head.congr nodes) tail apart

theorem ofExpr_holds (e : Expr) : (ofExpr e).Holds e := by
  obtain ⟨s, step⟩ := addExpr_replaces { nodes := #[], root := 0, limit := defaultLimit } e
  exact ⟨s, step.owns.congr rfl⟩

theorem Holds.limited {e : Expr} (holds : a.Holds e) (limit : Nat) : Holds { a with limit } e :=
  holds.imp fun _ owns => owns.congr rfl

theorem Holds.onRoot {e f : Expr} {edit : NodeId → Edit NodeId} (holds : a.Holds e)
    (edits : ∀ s, a.Owns a.root e s → ∃ id b t, edit a.root a = .ok (id, b) ∧ Replaces a s b [id] [f] t) :
    ∃ b, Edit.onRoot a edit = .ok b ∧ b.Holds f ∧ b.limit = a.limit := by
  obtain ⟨s, owns⟩ := holds
  obtain ⟨id, b, t, run, step⟩ := edits s owns
  refine ⟨{ b with root := id }, ?_, ⟨t, step.owns.congr rfl⟩, step.keeps.limit⟩
  simp only [Edit.onRoot, run]
  rfl

end Arena
end Selectivity
