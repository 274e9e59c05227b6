import Selectivity.Normalize.Edit
import Mathlib.Data.Finset.Card
import Mathlib.Data.Finset.Range
import Mathlib.Data.Finset.Union

/-! What an arena holds below a node. `Stands` reads a node as an expression, whatever
else refers to its parts. `Owns` also names the nodes of that reading, and no two of
them are the same. An edit that stays within the nodes of one tree, or appends, leaves
the trees that own other nodes as they were. -/

namespace Selectivity

/-- The nodes on a longest path downwards. -/
def Expr.height : Expr → Nat
  | .link _ left right => max left.height right.height + 1
  | .not operand => operand.height + 1
  | .atom _ => 1

theorem Expr.height_pos (e : Expr) : 0 < e.height := by cases e <;> simp [height]

namespace Arena

variable {a b c : Arena}

@[simp] theorem get?_push (a : Arena) (n : Node) (i : NodeId) :
    (a.push n).get? i = if i = a.size then some n else a.get? i :=
  Array.getElem?_push

@[simp] theorem size_push (a : Arena) (n : Node) : (a.push n).size = a.size + 1 := by
  simp [size, push]

@[simp] theorem limit_push (a : Arena) (n : Node) : (a.push n).limit = a.limit := rfl

@[simp] theorem size_set (a : Arena) (i : NodeId) (n : Node) : (a.set i n).size = a.size := by
  simp [size, set]

@[simp] theorem limit_set (a : Arena) (i : NodeId) (n : Node) : (a.set i n).limit = a.limit := rfl

theorem get?_set (a : Arena) (n : Node) {i : NodeId} (inside : i < a.size) (j : NodeId) :
    (a.set i n).get? j = if i = j then some n else a.get? j := by
  simp only [get?, set, Array.getElem?_setIfInBounds]
  split
  next same => subst same; exact if_pos inside
  next => rfl

theorem lt_size_of_get? {id : NodeId} {n : Node} (found : a.get? id = some n) : id < a.size :=
  (Array.getElem?_eq_some_iff.mp found).1

theorem node_of_get? {id : NodeId} {n : Node} (found : a.get? id = some n) : a.node id = .ok n := by
  simp only [node, found]

/-! ### Reading a node -/

inductive Stands (a : Arena) : NodeId → Expr → Prop
  | link {id c left right first second} (found : a.get? id = some (.link c left right))
      (lefts : Stands a left first) (rights : Stands a right second) : Stands a id (.link c first second)
  | not {id operand e} (found : a.get? id = some (.not operand)) (below : Stands a operand e) :
      Stands a id (.not e)
  | atom {id leaf} (found : a.get? id = some (.atom leaf)) : Stands a id (.atom leaf)

theorem Stands.lt_size {id : NodeId} {e : Expr} (stands : a.Stands id e) : id < a.size := by
  cases stands with
  | link found => exact lt_size_of_get? found
  | not found => exact lt_size_of_get? found
  | atom found => exact lt_size_of_get? found

theorem Stands.of_link {id left right : NodeId} {c : Connective} {e : Expr} (stands : a.Stands id e)
    (found : a.get? id = some (.link c left right)) :
    ∃ first second, e = .link c first second ∧ a.Stands left first ∧ a.Stands right second := by
  cases stands with
  | link found' lefts rights =>
    cases found.symm.trans found'
    exact ⟨_, _, rfl, lefts, rights⟩
  | not found' => cases found.symm.trans found'
  | atom found' => cases found.symm.trans found'

theorem Stands.of_not {id operand : NodeId} {e : Expr} (stands : a.Stands id e)
    (found : a.get? id = some (.not operand)) : ∃ f, e = .not f ∧ a.Stands operand f := by
  cases stands with
  | link found' => cases found.symm.trans found'
  | not found' below =>
    cases found.symm.trans found'
    exact ⟨_, rfl, below⟩
  | atom found' => cases found.symm.trans found'

theorem Stands.of_atom {id : NodeId} {leaf : Atom} {e : Expr} (stands : a.Stands id e)
    (found : a.get? id = some (.atom leaf)) : e = .atom leaf := by
  cases stands with
  | link found' => cases found.symm.trans found'
  | not found' => cases found.symm.trans found'
  | atom found' =>
    cases found.symm.trans found'
    rfl

theorem Stands.unique {id : NodeId} {e f : Expr} (first : a.Stands id e) (second : a.Stands id f) : e = f := by
  induction first generalizing f with
  | link found _ _ lefts rights =>
    obtain ⟨_, _, rfl, left, right⟩ := second.of_link found
    rw [lefts left, rights right]
  | not found _ below =>
    obtain ⟨_, rfl, operand⟩ := second.of_not found
    rw [below operand]
  | atom found => exact (second.of_atom found).symm

theorem Stands.extend {id : NodeId} {e : Expr} (stands : a.Stands id e)
    (kept : ∀ i n, a.get? i = some n → b.get? i = some n) : b.Stands id e := by
  induction stands with
  | link found _ _ lefts rights => exact .link (kept _ _ found) lefts rights
  | not found _ below => exact .not (kept _ _ found) below
  | atom found => exact .atom (kept _ _ found)

theorem stands_extend {ids : List NodeId} {es : List Expr} (stand : List.Forall₂ a.Stands ids es)
    (kept : ∀ i n, a.get? i = some n → b.get? i = some n) : List.Forall₂ b.Stands ids es :=
  stand.imp fun _ _ stands => stands.extend kept

/-- The nodes of a longest path are different, because what they stand for gets lower. -/
private theorem Stands.path {id : NodeId} {e : Expr} (stands : a.Stands id e) :
    ∃ path : List NodeId, path.Nodup ∧ path.length = e.height ∧
      ∀ i ∈ path, i < a.size ∧ ∃ f, a.Stands i f ∧ f.height ≤ e.height := by
  have extended {id : NodeId} {e below : Expr} (stands : a.Stands id e) (lower : e.height = below.height + 1)
      (path : List NodeId) (distinct : path.Nodup) (length : path.length = below.height)
      (bounded : ∀ i ∈ path, i < a.size ∧ ∃ f, a.Stands i f ∧ f.height ≤ below.height) :
      (id :: path).Nodup ∧ (id :: path).length = e.height ∧
        ∀ i ∈ id :: path, i < a.size ∧ ∃ f, a.Stands i f ∧ f.height ≤ e.height := by
    refine ⟨List.nodup_cons.mpr ⟨fun member => ?_, distinct⟩, by simp [length, lower], ?_⟩
    · obtain ⟨_, f, again, low⟩ := bounded id member
      rw [again.unique stands] at low
      omega
    · intro i member
      rcases List.mem_cons.mp member with rfl | member
      · exact ⟨stands.lt_size, e, stands, Nat.le_refl _⟩
      · obtain ⟨inside, f, again, low⟩ := bounded i member
        exact ⟨inside, f, again, by omega⟩
  induction stands with
  | @link id c left right first second found lefts rights ihLeft ihRight =>
    rcases Nat.le_total second.height first.height with lower | lower
    · obtain ⟨path, distinct, length, bounded⟩ := ihLeft
      exact ⟨_, extended (.link found lefts rights) (by simp only [Expr.height]; omega) path distinct length bounded⟩
    · obtain ⟨path, distinct, length, bounded⟩ := ihRight
      exact ⟨_, extended (.link found lefts rights) (by simp only [Expr.height]; omega) path distinct length bounded⟩
  | not found below ih =>
    obtain ⟨path, distinct, length, bounded⟩ := ih
    exact ⟨_, extended (.not found below) rfl path distinct length bounded⟩
  | @atom id leaf found =>
    refine ⟨[id], by simp, rfl, ?_⟩
    intro i member
    cases List.mem_singleton.mp member
    exact ⟨lt_size_of_get? found, _, .atom found, Nat.le_refl _⟩

/-- Without cycles no path is longer than the arena. -/
theorem Stands.height_le {id : NodeId} {e : Expr} (stands : a.Stands id e) : e.height ≤ a.size := by
  obtain ⟨path, distinct, length, bounded⟩ := stands.path
  have short : path.length ≤ (List.range a.size).length :=
    distinct.length_le_of_subset (fun i member => List.mem_range.mpr (bounded i member).1)
  simpa only [← length, List.length_range] using short

/-! ### Owning nodes -/

inductive Owns (a : Arena) : NodeId → Expr → Finset NodeId → Prop
  | link {id c left right first second s t} (found : a.get? id = some (.link c left right))
      (lefts : Owns a left first s) (rights : Owns a right second t) (apart : Disjoint s t)
      (own : id ∉ s ∪ t) : Owns a id (.link c first second) (insert id (s ∪ t))
  | not {id operand e s} (found : a.get? id = some (.not operand)) (below : Owns a operand e s)
      (own : id ∉ s) : Owns a id (.not e) (insert id s)
  | atom {id leaf} (found : a.get? id = some (.atom leaf)) : Owns a id (.atom leaf) {id}

theorem Owns.stands {id : NodeId} {e : Expr} {s : Finset NodeId} (owns : a.Owns id e s) : a.Stands id e := by
  induction owns with
  | link found _ _ _ _ lefts rights => exact .link found lefts rights
  | not found _ _ below => exact .not found below
  | atom found => exact .atom found

theorem Owns.lt_size {id : NodeId} {e : Expr} {s : Finset NodeId} (owns : a.Owns id e s) :
    ∀ i ∈ s, i < a.size := by
  induction owns with
  | link found _ _ _ _ lefts rights =>
    intro i member
    rcases Finset.mem_insert.mp member with rfl | member
    · exact lt_size_of_get? found
    · rcases Finset.mem_union.mp member with member | member
      · exact lefts i member
      · exact rights i member
  | not found _ _ below =>
    intro i member
    rcases Finset.mem_insert.mp member with rfl | member
    · exact lt_size_of_get? found
    · exact below i member
  | atom found =>
    intro i member
    cases Finset.mem_singleton.mp member
    exact lt_size_of_get? found

theorem Owns.of_link {id left right : NodeId} {c : Connective} {e f : Expr} {s : Finset NodeId}
    (owns : a.Owns id (.link c e f) s) (found : a.get? id = some (.link c left right)) :
    ∃ t u, a.Owns left e t ∧ a.Owns right f u ∧ Disjoint t u ∧ id ∉ t ∪ u ∧ s = insert id (t ∪ u) := by
  cases owns with
  | link found' lefts rights apart own =>
    cases found.symm.trans found'
    exact ⟨_, _, lefts, rights, apart, own, rfl⟩

/-- Trees side by side, none of them sharing a node with another. -/
inductive Forest (a : Arena) : List NodeId → List Expr → Finset NodeId → Prop
  | nil : Forest a [] [] ∅
  | cons {id e s ids es t} (head : a.Owns id e s) (tail : Forest a ids es t) (apart : Disjoint s t) :
      Forest a (id :: ids) (e :: es) (s ∪ t)

theorem Owns.forest {id : NodeId} {e : Expr} {s : Finset NodeId} (owns : a.Owns id e s) :
    a.Forest [id] [e] s := by
  simpa only [Finset.union_empty] using Forest.cons owns .nil (Finset.disjoint_empty_right s)

namespace Forest

variable {ids more : List NodeId} {es fs : List Expr} {s t : Finset NodeId}

theorem owns {id : NodeId} {e : Expr} (forest : a.Forest [id] [e] s) : a.Owns id e s := by
  cases forest with
  | cons head tail apart =>
    cases tail with
    | nil => simpa only [Finset.union_empty] using head

theorem link {id left right : NodeId} {c : Connective} {e f : Expr} (forest : a.Forest [left, right] [e, f] s)
    (found : a.get? id = some (.link c left right)) (own : id ∉ s) : a.Owns id (.link c e f) (insert id s) := by
  cases forest with
  | cons head tail apart =>
    have second := tail.owns
    exact .link found head second apart own

theorem lt_size (forest : a.Forest ids es s) : ∀ i ∈ s, i < a.size := by
  induction forest with
  | nil => simp
  | cons head _ _ tail =>
    intro i member
    rcases Finset.mem_union.mp member with member | member
    · exact head.lt_size i member
    · exact tail i member

theorem append (first : a.Forest ids es s) (second : a.Forest more fs t) (apart : Disjoint s t) :
    a.Forest (ids ++ more) (es ++ fs) (s ∪ t) := by
  induction first with
  | nil => simpa only [List.nil_append, Finset.empty_union] using second
  | cons head _ own tail =>
    rw [Finset.disjoint_union_left] at apart
    rw [Finset.union_assoc]
    exact .cons head (tail apart.2) (Finset.disjoint_union_right.mpr ⟨own, apart.1⟩)

theorem stands (forest : a.Forest ids es s) : List.Forall₂ a.Stands ids es := by
  induction forest with
  | nil => exact .nil
  | cons head _ _ tail => exact .cons head.stands tail

end Forest

/-! ### Edits within some nodes -/

/-- From `a` to `b`, old nodes outside `s` are as they were. -/
structure Keeps (a b : Arena) (s : Finset NodeId) : Prop where
  limit : b.limit = a.limit
  root : b.root = a.root
  size : a.size ≤ b.size
  same : ∀ i, i < a.size → i ∉ s → b.get? i = a.get? i

namespace Keeps

variable {s t : Finset NodeId}

theorem refl (a : Arena) (s : Finset NodeId) : Keeps a a s := ⟨rfl, rfl, Nat.le_refl _, fun _ _ _ => rfl⟩

theorem mono (keeps : Keeps a b s) (within : s ⊆ t) : Keeps a b t :=
  ⟨keeps.limit, keeps.root, keeps.size, fun i old out => keeps.same i old (fun member => out (within member))⟩

theorem trans (first : Keeps a b s) (second : Keeps b c t) (fresh : ∀ i ∈ t, i ∈ s ∨ a.size ≤ i) :
    Keeps a c s := by
  refine ⟨second.limit.trans first.limit, second.root.trans first.root, first.size.trans second.size, ?_⟩
  intro i old out
  have other : i ∉ t := by
    intro member
    rcases fresh i member with inside | new
    · exact out inside
    · omega
  exact (second.same i (Nat.lt_of_lt_of_le old first.size) other).trans (first.same i old out)

theorem push (keeps : Keeps a b s) (n : Node) : Keeps a (b.push n) s := by
  have larger := keeps.size
  refine ⟨keeps.limit, keeps.root, by simp only [size_push]; omega, ?_⟩
  intro i old out
  have other : i ≠ b.size := by omega
  rw [get?_push, if_neg other, keeps.same i old out]

theorem set (a : Arena) (i : NodeId) (n : Node) : Keeps a (a.set i n) {i} := by
  refine ⟨rfl, rfl, by simp, ?_⟩
  intro j old out
  by_cases inside : i < a.size
  · rw [get?_set a n inside, if_neg (fun same => out (by simp [same]))]
  · simp only [get?, Arena.set, Array.getElem?_setIfInBounds]
    split
    next same => subst same; exact absurd old inside
    next => rfl

theorem extend (keeps : Keeps a b ∅) : ∀ i n, a.get? i = some n → b.get? i = some n :=
  fun i _ found => (keeps.same i (lt_size_of_get? found) (by simp)).trans found

end Keeps

theorem Owns.frame {id : NodeId} {e : Expr} {s t : Finset NodeId} (owns : a.Owns id e t) (keeps : Keeps a b s)
    (apart : Disjoint t s) : b.Owns id e t := by
  induction owns with
  | link found lefts rights between own left right =>
    simp only [Finset.disjoint_insert_left, Finset.disjoint_union_left] at apart
    refine .link ?_ (left apart.2.1) (right apart.2.2) between own
    rw [keeps.same _ (lt_size_of_get? found) apart.1, found]
  | not found _ own below =>
    simp only [Finset.disjoint_insert_left] at apart
    refine .not ?_ (below apart.2) own
    rw [keeps.same _ (lt_size_of_get? found) apart.1, found]
  | atom found =>
    refine .atom ?_
    rw [keeps.same _ (lt_size_of_get? found) (Finset.disjoint_singleton_left.mp apart), found]

theorem Forest.frame {ids : List NodeId} {es : List Expr} {s t : Finset NodeId} (forest : a.Forest ids es t)
    (keeps : Keeps a b s) (apart : Disjoint t s) : b.Forest ids es t := by
  induction forest with
  | nil => exact .nil
  | cons head _ own tail =>
    rw [Finset.disjoint_union_left] at apart
    exact .cons (head.frame keeps apart.1) (tail apart.2) own

end Arena
end Selectivity
