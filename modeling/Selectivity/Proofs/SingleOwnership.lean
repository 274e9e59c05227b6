import Selectivity.Proofs.NormalizeShape
import Mathlib.Logic.Relation

/-! Ownership as the links alone tell it: what is reached from the root has no cycle, no
missing node, and for every node but the root one place that links to it. Such an arena
is one whose root owns the nodes of an expression, and so every stage keeps it that way. -/

namespace Selectivity

/-- The nodes that a node links to, by position. -/
def Node.links : Node → List NodeId
  | .link _ left right => [left, right]
  | .not operand => [operand]
  | .atom _ => []

namespace Arena

/-- A place where one node links to another. -/
def Child (a : Arena) (parent : NodeId) (position : Nat) (child : NodeId) : Prop :=
  ∃ n, a.get? parent = some n ∧ n.links[position]? = some child

/-- What is reached from the root is a proper tree. -/
structure SingleOwner (a : Arena) : Prop where
  present : ∀ i, a.Reaches a.root i → ∃ n, a.get? i = some n
  acyclic : ∀ i position j, a.Reaches a.root i → a.Child i position j → ¬ a.Reaches j i
  owner : ∀ i, a.Reaches a.root i → i ≠ a.root →
    ∃! place : NodeId × Nat, a.Reaches a.root place.1 ∧ a.Child place.1 place.2 i

variable {a : Arena} {id i j p : NodeId} {k l : Nat} {e : Expr} {s : Finset NodeId}

theorem child_link {c : Connective} {left right : NodeId} (found : a.get? id = some (.link c left right)) :
    a.Child id k j ↔ k = 0 ∧ j = left ∨ k = 1 ∧ j = right := by
  rcases k with _ | _ | k <;> simp [Child, found, Node.links, eq_comm]

theorem child_not {operand : NodeId} (found : a.get? id = some (.not operand)) :
    a.Child id k j ↔ k = 0 ∧ j = operand := by
  rcases k with _ | k <;> simp [Child, found, Node.links, eq_comm]

theorem child_atom {leaf : Atom} (found : a.get? id = some (.atom leaf)) : ¬ a.Child id k j := by
  simp [Child, found, Node.links]

theorem Reaches.head (child : a.Child id k j) (below : a.Reaches j i) : a.Reaches id i := by
  have ⟨n, found, _⟩ := child
  cases n with
  | link c left right =>
    rcases (child_link found).mp child with ⟨_, rfl⟩ | ⟨_, rfl⟩
    · exact .left found below
    · exact .right found below
  | not operand =>
    obtain ⟨_, rfl⟩ := (child_not found).mp child
    exact .operand found below
  | atom leaf => exact (child_atom found child).elim

theorem reaches_iff : a.Reaches id i ↔ Relation.ReflTransGen (fun p j => ∃ k, a.Child p k j) id i := by
  constructor
  · intro reaches
    induction reaches with
    | refl => exact .refl
    | left found _ ih => exact .head ⟨0, (child_link found).mpr (.inl ⟨rfl, rfl⟩)⟩ ih
    | right found _ ih => exact .head ⟨1, (child_link found).mpr (.inr ⟨rfl, rfl⟩)⟩ ih
    | operand found _ ih => exact .head ⟨0, (child_not found).mpr ⟨rfl, rfl⟩⟩ ih
  · intro path
    induction path using Relation.ReflTransGen.head_induction_on with
    | refl => exact .refl
    | head step _ ih => exact step.elim fun _ child => ih.head child

theorem Reaches.tail (above : a.Reaches id j) (child : a.Child j k i) : a.Reaches id i :=
  reaches_iff.mpr ((reaches_iff.mp above).tail ⟨k, child⟩)

theorem Reaches.trans (first : a.Reaches id j) (second : a.Reaches j i) : a.Reaches id i :=
  reaches_iff.mpr ((reaches_iff.mp first).trans (reaches_iff.mp second))

theorem Reaches.last (reaches : a.Reaches id i) : i = id ∨ ∃ p k, a.Reaches id p ∧ a.Child p k i := by
  rcases Relation.ReflTransGen.cases_tail (reaches_iff.mp reaches) with same | ⟨p, above, k, child⟩
  · exact .inl same
  · exact .inr ⟨p, k, reaches_iff.mpr above, child⟩

/-! ### Without cycles -/

/-- No way down from the node comes back to where it has been. -/
def Acyclic (a : Arena) (id : NodeId) : Prop :=
  ∀ i position j, a.Reaches id i → a.Child i position j → ¬ a.Reaches j i

theorem Acyclic.reached (acyclic : a.Acyclic id) (reaches : a.Reaches id i) : a.Acyclic i :=
  fun p position j below => acyclic p position j (reaches.trans below)

open Classical in
/-- How many nodes of the arena are reached from a node, itself among them. -/
noncomputable def span (a : Arena) (id : NodeId) : Nat := ((Finset.range a.size).filter (a.Reaches id)).card

theorem span_le (a : Arena) (id : NodeId) : a.span id ≤ a.size := by
  classical
  calc a.span id ≤ (Finset.range a.size).card := Finset.card_filter_le _ _
    _ = a.size := Finset.card_range a.size

/-- A node is not reached from the nodes that it links to, and reaches all that they reach. -/
theorem Acyclic.span_lt (acyclic : a.Acyclic id) (child : a.Child id k j) : a.span j < a.span id := by
  classical
  have ⟨_, found, _⟩ := child
  have below := acyclic id k j .refl child
  refine Finset.card_lt_card (Finset.ssubset_iff_subset_ne.mpr ⟨fun i member => ?_, fun same => ?_⟩)
  · obtain ⟨inside, reaches⟩ := Finset.mem_filter.mp member
    exact Finset.mem_filter.mpr ⟨inside, reaches.head child⟩
  · have here : id ∈ (Finset.range a.size).filter (a.Reaches id) :=
      Finset.mem_filter.mpr ⟨Finset.mem_range.mpr (lt_size_of_get? found), .refl⟩
    rw [← same] at here
    exact below (Finset.mem_filter.mp here).2

/-! ### From owned nodes to links -/

theorem Owns.mem (owns : a.Owns id e s) : id ∈ s := by
  cases owns with
  | link => exact Finset.mem_insert_self _ _
  | not => exact Finset.mem_insert_self _ _
  | atom => exact Finset.mem_singleton_self _

/-- Links lead from owned nodes to owned nodes, and never back up to the first one. -/
private theorem Owns.child (owns : a.Owns id e s) (member : p ∈ s) (child : a.Child p k i) : i ∈ s ∧ i ≠ id := by
  induction owns with
  | @link id c left right first second s t found lefts rights apart own ihLeft ihRight =>
    have inside : i ∈ s ∪ t := by
      rcases Finset.mem_insert.mp member with rfl | member
      · rcases (child_link found).mp child with ⟨_, rfl⟩ | ⟨_, rfl⟩
        · exact Finset.mem_union_left t lefts.mem
        · exact Finset.mem_union_right s rights.mem
      · rcases Finset.mem_union.mp member with member | member
        · exact Finset.mem_union_left t (ihLeft member).1
        · exact Finset.mem_union_right s (ihRight member).1
    exact ⟨Finset.mem_insert_of_mem inside, fun same => own (same ▸ inside)⟩
  | @not id operand e s found below own ih =>
    have inside : i ∈ s := by
      rcases Finset.mem_insert.mp member with rfl | member
      · exact ((child_not found).mp child).2 ▸ below.mem
      · exact (ih member).1
    exact ⟨Finset.mem_insert_of_mem inside, fun same => own (same ▸ inside)⟩
  | atom found =>
    cases Finset.mem_singleton.mp member
    exact (child_atom found child).elim

theorem Owns.reaches_iff (owns : a.Owns id e s) : a.Reaches id i ↔ i ∈ s := by
  constructor
  · intro reaches
    induction Arena.reaches_iff.mp reaches with
    | refl => exact owns.mem
    | tail above step ih => exact step.elim fun _ child => (owns.child (ih (Arena.reaches_iff.mpr above)) child).1
  · intro member
    induction owns with
    | link found lefts rights apart own ihLeft ihRight =>
      rcases Finset.mem_insert.mp member with rfl | member
      · exact .refl
      · rcases Finset.mem_union.mp member with member | member
        · exact .left found (ihLeft member)
        · exact .right found (ihRight member)
    | not found below own ih =>
      rcases Finset.mem_insert.mp member with rfl | member
      · exact .refl
      · exact .operand found (ih member)
    | atom found =>
      cases Finset.mem_singleton.mp member
      exact .refl

/-- A node of a tree is linked to from one place only: the first node links to the first
nodes of its parts, and other links stay within a part. -/
private theorem Owns.parent_unique (owns : a.Owns id e s) {q : NodeId} (mine : p ∈ s) (first : a.Child p k i)
    (yours : q ∈ s) (second : a.Child q l i) : p = q ∧ k = l := by
  induction owns generalizing p k q l i with
  | @link id c left right _ _ s t found lefts rights apart own ihLeft ihRight =>
    have place {p k} (member : p ∈ insert id (s ∪ t)) (child : a.Child p k i) :
        p = id ∧ k = 0 ∧ i = left ∨ p = id ∧ k = 1 ∧ i = right ∨
          p ∈ s ∧ i ∈ s ∧ i ≠ left ∨ p ∈ t ∧ i ∈ t ∧ i ≠ right := by
      rcases Finset.mem_insert.mp member with rfl | member
      · exact ((child_link found).mp child).imp (⟨rfl, ·⟩) fun here => .inl ⟨rfl, here⟩
      · rcases Finset.mem_union.mp member with member | member
        · exact .inr (.inr (.inl ⟨member, lefts.child member child⟩))
        · exact .inr (.inr (.inr ⟨member, rights.child member child⟩))
    have onLeft := lefts.mem
    have onRight := rights.mem
    have separate := Finset.disjoint_left.mp apart
    have here := place mine first
    have there := place yours second
    -- The four places exclude each other, and a part is the business of the induction hypotheses.
    grind
  | @not id operand _ s found below own ih =>
    have place {p k} (member : p ∈ insert id s) (child : a.Child p k i) :
        p = id ∧ k = 0 ∧ i = operand ∨ p ∈ s ∧ i ≠ operand := by
      rcases Finset.mem_insert.mp member with rfl | member
      · exact .inl ⟨rfl, (child_not found).mp child⟩
      · exact .inr ⟨member, (below.child member child).2⟩
    rcases place mine first with ⟨rfl, rfl, here⟩ | ⟨inside, other⟩ <;>
      rcases place yours second with ⟨rfl, rfl, here'⟩ | ⟨inside', other'⟩
    · exact ⟨rfl, rfl⟩
    · exact absurd here other'
    · exact absurd here' other
    · exact ih inside first inside' second
  | atom found =>
    cases Finset.mem_singleton.mp mine
    exact (child_atom found first).elim

private theorem Stands.child (stands : a.Stands id e) (child : a.Child id k j) :
    ∃ f, a.Stands j f ∧ f.height < e.height := by
  cases stands with
  | link found lefts rights =>
    rcases (child_link found).mp child with ⟨_, rfl⟩ | ⟨_, rfl⟩
    · exact ⟨_, lefts, Nat.lt_succ_of_le (Nat.le_max_left _ _)⟩
    · exact ⟨_, rights, Nat.lt_succ_of_le (Nat.le_max_right _ _)⟩
  | not found below =>
    obtain ⟨_, rfl⟩ := (child_not found).mp child
    exact ⟨_, below, Nat.lt_succ_self _⟩
  | atom found => exact (child_atom found child).elim

theorem Stands.reached (stands : a.Stands id e) (reaches : a.Reaches id i) :
    ∃ f, a.Stands i f ∧ f.height ≤ e.height := by
  induction reaches_iff.mp reaches with
  | refl => exact ⟨e, stands, Nat.le_refl _⟩
  | tail above step ih =>
    obtain ⟨f, below, low⟩ := ih (reaches_iff.mpr above)
    obtain ⟨g, last, lower⟩ := step.elim fun _ child => below.child child
    exact ⟨g, last, Nat.le_trans (Nat.le_of_lt lower) low⟩

/-- A cycle would lead to a lower expression at the node it started from. -/
theorem Stands.acyclic (stands : a.Stands id e) : a.Acyclic id := by
  intro i position j reaches child back
  obtain ⟨f, here, _⟩ := stands.reached reaches
  obtain ⟨g, below, lower⟩ := here.child child
  obtain ⟨h, again, low⟩ := below.reached back
  rw [again.unique here] at low
  omega

theorem Holds.singleOwner (holds : a.Holds e) : a.SingleOwner where
  present i reaches := by
    obtain ⟨s, owns⟩ := holds
    have inside := owns.lt_size i (owns.reaches_iff.mp reaches)
    exact ⟨_, Array.getElem?_eq_getElem inside⟩
  acyclic := holds.stands.acyclic
  owner i reaches other := by
    obtain ⟨s, owns⟩ := holds
    rcases reaches.last with same | ⟨p, k, above, child⟩
    · exact absurd same other
    · refine ⟨(p, k), ⟨above, child⟩, fun ⟨q, l⟩ ⟨above', child'⟩ => ?_⟩
      obtain ⟨same, same'⟩ :=
        owns.parent_unique (owns.reaches_iff.mp above') child' (owns.reaches_iff.mp above) child
      exact Prod.ext same same'

/-! ### From links to owned nodes -/

namespace SingleOwner

variable {q : NodeId}

/-- The root is linked to from nowhere, so that every link is the only one to its node. -/
private theorem parent_eq (owned : a.SingleOwner) (above : a.Reaches a.root p) (child : a.Child p k i)
    (above' : a.Reaches a.root q) (child' : a.Child q l i) : p = q ∧ k = l := by
  have other : i ≠ a.root := fun same => owned.acyclic p k i above child (same ▸ above)
  obtain ⟨place, _, only⟩ := owned.owner i (above.tail child) other
  exact Prod.mk.injEq .. ▸ (only (p, k) ⟨above, child⟩).trans (only (q, l) ⟨above', child'⟩).symm

/-- What is reached from one child of a node is not reached from another. A node that is
would have a first parent on either way down, and these are the same. -/
private theorem apart (owned : a.SingleOwner) (above : a.Reaches a.root id) (first : a.Child id k j)
    (second : a.Child id l p) (different : k ≠ l) (reaches : a.Reaches j i) : ¬ a.Reaches p i := by
  have down := above.tail first
  have down' := above.tail second
  induction reaches_iff.mp reaches with
  | refl =>
    intro crosses
    rcases crosses.last with same | ⟨q, m, way, child⟩
    · exact different (owned.parent_eq above first above (same ▸ second)).2
    · obtain ⟨rfl, _⟩ := owned.parent_eq (down'.trans way) child above first
      exact owned.acyclic q l p above second way
  | @tail q i path step ih =>
    obtain ⟨m, child⟩ := step
    have way := reaches_iff.mpr path
    intro crosses
    rcases crosses.last with rfl | ⟨r, n, way', child'⟩
    · obtain ⟨rfl, _⟩ := owned.parent_eq (down.trans way) child above second
      exact owned.acyclic q k j above first way
    · obtain ⟨rfl, _⟩ := owned.parent_eq (down'.trans way') child' (down.trans way) child
      exact ih way way'

/-- The induction is on the number of nodes that are reached, which a link downwards lowers. -/
private theorem owns (owned : a.SingleOwner) (above : a.Reaches a.root id) :
    ∃ e s, a.Owns id e s ∧ ∀ i ∈ s, a.Reaches id i := by
  have acyclic : a.Acyclic a.root := owned.acyclic
  induction count : a.span id using Nat.strong_induction_on generalizing id with
  | _ count ih =>
    obtain ⟨n, found⟩ := owned.present id above
    have below {j k} (child : a.Child id k j) : ∃ e s, a.Owns j e s ∧ ∀ i ∈ s, a.Reaches j i :=
      ih _ (count ▸ (acyclic.reached above).span_lt child) (above.tail child) rfl
    cases n with
    | link c left right =>
      have toLeft : a.Child id 0 left := (child_link found).mpr (.inl ⟨rfl, rfl⟩)
      have toRight : a.Child id 1 right := (child_link found).mpr (.inr ⟨rfl, rfl⟩)
      obtain ⟨e, s, lefts, within⟩ := below toLeft
      obtain ⟨f, t, rights, within'⟩ := below toRight
      have separate : Disjoint s t := by
        rw [Finset.disjoint_left]
        exact fun i mine yours => owned.apart above toLeft toRight (by decide) (within i mine) (within' i yours)
      have own : id ∉ s ∪ t := by
        intro member
        rcases Finset.mem_union.mp member with member | member
        · exact owned.acyclic id 0 left above toLeft (within id member)
        · exact owned.acyclic id 1 right above toRight (within' id member)
      refine ⟨_, _, .link found lefts rights separate own, fun i member => ?_⟩
      rcases Finset.mem_insert.mp member with rfl | member
      · exact .refl
      · rcases Finset.mem_union.mp member with member | member
        · exact .left found (within i member)
        · exact .right found (within' i member)
    | not operand =>
      have down : a.Child id 0 operand := (child_not found).mpr ⟨rfl, rfl⟩
      obtain ⟨e, s, owns, within⟩ := below down
      have own : id ∉ s := fun member => owned.acyclic id 0 operand above down (within id member)
      refine ⟨_, _, .not found owns own, fun i member => ?_⟩
      rcases Finset.mem_insert.mp member with rfl | member
      · exact .refl
      · exact .operand found (within i member)
    | atom leaf =>
      refine ⟨_, _, .atom found, fun i member => ?_⟩
      cases Finset.mem_singleton.mp member
      exact .refl

end SingleOwner

/-- Ownership read off the links is ownership of the nodes of an expression. -/
theorem singleOwner_iff : a.SingleOwner ↔ ∃ e, a.Holds e := by
  constructor
  · intro owned
    obtain ⟨e, s, owns, _⟩ := owned.owns .refl
    exact ⟨e, s, owns⟩
  · exact fun ⟨_, holds⟩ => holds.singleOwner

end Arena

/-- No stage fails on a proper tree, and none makes two places link to one node. -/
theorem Stage.apply_singleOwner {a : Arena} (stage : Stage) (owned : a.SingleOwner) :
    ∃ b, stage.apply a = .ok b ∧ b.SingleOwner := by
  obtain ⟨e, holds⟩ := Arena.singleOwner_iff.mp owned
  obtain ⟨b, f, run, after, _⟩ := stage.apply_holds holds
  exact ⟨b, run, after.singleOwner⟩

/-- A negated conjunction. The last node links to its operands too, but is not reached. -/
theorem Stage.apply_singleOwner_negation :
    let a : Arena :=
      { nodes := #[.constant true, .constant false, .link .and 0 1, .not 2, .link .or 0 1], root := 3, limit := 5 }
    a.SingleOwner ∧ ∃ b, Stage.negation.apply a = .ok b ∧ b.SingleOwner := by
  intro a
  have owned : a.SingleOwner :=
    Arena.singleOwner_iff.mpr ⟨.not (.link .and (.constant true) (.constant false)), _,
      .not rfl (.link rfl (.atom rfl) (.atom rfl) (by decide) (by decide)) (by decide)⟩
  exact ⟨owned, Stage.apply_singleOwner .negation owned⟩

end Selectivity
