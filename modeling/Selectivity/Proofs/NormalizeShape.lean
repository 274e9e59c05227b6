import Selectivity.Proofs.NormalizeTruth

/-! The shape of a normalized tree. Chains are right-linked and end in their neutral
constant, nothing on the left of a link is a link of the same kind, and no negation is
left. Building chains brings the shape about and the later stages keep it, whichever
conjuncts they expand. -/

namespace Selectivity

namespace Expr

/-- Every link is part of a chain that ends in its neutral constant. -/
def ChainForm : Expr → Prop
  | .link c left right =>
    left.isLink c = false ∧ (right.isLink c = true ∨ right = constant c.unit) ∧ left.ChainForm ∧ right.ChainForm
  | .not _ => False
  | .atom _ => True

def Operand (c : Connective) (e : Expr) : Prop := e.ChainForm ∧ e.isLink c = false

theorem eq_link_of_isLink {c : Connective} {e : Expr} (links : e.isLink c = true) :
    ∃ left right, e = .link c left right := by
  cases e with
  | link d left right =>
    cases beq_iff_eq.mp links
    exact ⟨left, right, rfl⟩
  | not _ => cases links
  | atom _ => cases links

theorem chain_chainForm {c : Connective} {es : List Expr} (operands : ∀ e ∈ es, e.Operand c) :
    (chain c es).ChainForm := by
  induction es with
  | nil => trivial
  | cons e es ih =>
    obtain ⟨⟨form, other⟩, rest⟩ := List.forall_mem_cons.mp operands
    refine ⟨other, ?_, form, ih rest⟩
    cases es with
    | nil => exact .inr rfl
    | cons => exact .inl (beq_self_eq_true c)

theorem chain_isLink_ne {c d : Connective} (different : c ≠ d) (es : List Expr) : (chain c es).isLink d = false := by
  cases es with
  | nil => rfl
  | cons => exact beq_eq_false_iff_ne.mpr different

theorem members_operand {c : Connective} {e : Expr} (form : e.ChainForm) : ∀ f ∈ e.members c, f.Operand c := by
  induction e with
  | link d left right _ ih =>
    have ⟨other, _, lefts, rights⟩ := form
    rw [members]
    split
    next same =>
      subst same
      exact List.forall_mem_cons.mpr ⟨⟨lefts, other⟩, ih rights⟩
    next different =>
      intro f member
      cases List.mem_singleton.mp member
      exact ⟨form, beq_eq_false_iff_ne.mpr different⟩
  | not _ _ => exact form.elim
  | atom leaf =>
    rw [members]
    split
    next => simp
    next =>
      intro f member
      cases List.mem_singleton.mp member
      exact ⟨trivial, rfl⟩

/-! ### Negations and chains -/

def NotFree : Expr → Prop
  | .link _ left right => left.NotFree ∧ right.NotFree
  | .not _ => False
  | .atom _ => True

theorem pushed_notFree (negated : Bool) (e : Expr) : (e.pushed negated).NotFree := by
  induction e generalizing negated with
  | link c left right lefts rights => exact ⟨lefts negated, rights negated⟩
  | not operand ih => exact ih _
  | atom leaf => trivial

theorem operands_operand {e : Expr} (free : e.NotFree) : ∀ c, ∀ f ∈ e.operands c, f.Operand c := by
  induction e with
  | link d left right lefts rights =>
    have group : ∀ f ∈ left.operands d ++ right.operands d, f.Operand d := by
      intro f member
      rcases List.mem_append.mp member with member | member
      · exact lefts free.1 d f member
      · exact rights free.2 d f member
    intro c
    rw [operands]
    split
    next same => exact same ▸ group
    next different =>
      intro f member
      cases List.mem_singleton.mp member
      exact ⟨chain_chainForm group, chain_isLink_ne different _⟩
  | not _ _ => exact free.elim
  | atom leaf =>
    intro c
    rw [operands]
    split
    next => simp
    next =>
      intro f member
      cases List.mem_singleton.mp member
      exact ⟨trivial, rfl⟩

theorem rootChained_chainForm {e : Expr} (free : e.NotFree) :
    e.rootChained.ChainForm ∧ e.rootChained.isLink .and = true := by
  have group := operands_operand free .and
  rw [rootChained]
  split
  next => exact ⟨⟨rfl, .inr rfl, trivial, trivial⟩, rfl⟩
  next filled =>
    refine ⟨chain_chainForm group, ?_⟩
    cases operands : e.operands .and with
    | nil => exact absurd operands filled
    | cons => rfl

/-! ### IN lists -/

theorem withInLists_isLink {e : Expr} {c : Connective} (other : e.isLink c = false) :
    e.withInLists.isLink c = false := by
  cases e with
  | link d left right =>
    cases d with
    | and => exact other
    | or =>
      rw [withInLists]
      split
      next => rfl
      next => exact other
  | not operand => rfl
  | atom leaf => rfl

theorem listed_chainForm {e : Expr} (form : e.ChainForm) :
    e.withInLists.ChainForm ∧ e.disjunctsInLists.ChainForm := by
  induction e with
  | link c left right lefts rights =>
    have ⟨other, ends, first, second⟩ := form
    have before := withInLists_isLink other
    cases c with
    | and =>
      refine ⟨⟨before, ?_, (lefts first).1, (rights second).1⟩, form⟩
      rcases ends with more | last
      · obtain ⟨_, _, rfl⟩ := eq_link_of_isLink more
        exact .inl rfl
      · exact .inr (by rw [last]; rfl)
    | or =>
      have kept : (link .or left.withInLists right.disjunctsInLists).ChainForm := by
        refine ⟨before, ?_, (lefts first).1, (rights second).2⟩
        rcases ends with more | last
        · obtain ⟨_, _, rfl⟩ := eq_link_of_isLink more
          exact .inl rfl
        · exact .inr (by rw [last]; rfl)
      refine ⟨?_, kept⟩
      rw [withInLists]
      split
      next => trivial
      next => exact kept
  | not _ _ => exact form.elim
  | atom leaf => exact ⟨trivial, trivial⟩

theorem withInLists_chainForm {e : Expr} (form : e.ChainForm) (conjunction : e.isLink .and = true) :
    e.withInLists.ChainForm ∧ e.withInLists.isLink .and = true := by
  refine ⟨(listed_chainForm form).1, ?_⟩
  obtain ⟨_, _, rfl⟩ := eq_link_of_isLink conjunction
  rfl

/-! ### Expansion -/

private theorem disjuncts_operand {e : Expr} (form : e.ChainForm) : ∀ f ∈ e.disjuncts, f.Operand .or := by
  rw [disjuncts]
  split
  next => exact members_operand form
  next other =>
    intro f member
    cases List.mem_singleton.mp member
    exact ⟨form, Bool.eq_false_iff.mpr other⟩

private theorem distribute_operand {fs : List (List Expr)} (forms : ∀ factor ∈ fs, ∀ e ∈ factor, e.ChainForm)
    {picked : List Expr} (before : ∀ e ∈ picked, e.ChainForm) : ∀ f ∈ distribute fs picked, f.Operand .and := by
  induction fs generalizing picked with
  | nil =>
    intro f member
    cases List.mem_singleton.mp member
    refine ⟨chain_chainForm fun f member => ?_, chain_isLink_ne (by decide) _⟩
    obtain ⟨e, pick, within⟩ := List.mem_flatMap.mp member
    exact disjuncts_operand (before e (List.mem_reverse.mp pick)) f within
  | cons factor fs ih =>
    obtain ⟨first, others⟩ := List.forall_mem_cons.mp forms
    intro f member
    obtain ⟨e, pick, within⟩ := List.mem_flatMap.mp member
    exact ih others (List.forall_mem_cons.mpr ⟨first e pick, before⟩) f within

theorem derived_operand {e : Expr} (form : e.ChainForm) : ∀ f ∈ e.derived, f.Operand .and := by
  refine distribute_operand (fun factor member f pick => ?_) (fun _ none => by cases none)
  obtain ⟨disjunct, within, rfl⟩ := List.mem_map.mp member
  exact (members_operand (members_operand form disjunct within).1 f pick).1

private theorem distribute_ne_nil {fs : List (List Expr)} (filled : [] ∉ fs) (picked : List Expr) :
    distribute fs picked ≠ [] := by
  induction fs generalizing picked with
  | nil => exact List.cons_ne_nil _ _
  | cons factor fs ih =>
    obtain ⟨first, others⟩ := not_or.mp (mt List.mem_cons.mpr filled)
    cases factor with
    | nil => exact absurd rfl first
    | cons e factor => exact fun none => ih others (e :: picked) (List.append_eq_nil_iff.mp none).1

private theorem foldl_zero (counts : List Nat) :
    counts.foldl (fun count picks => Nat.min (count * picks) maxCount) 0 = 0 := by
  induction counts with
  | nil => rfl
  | cons picks counts ih => simpa only [List.foldl_cons, Nat.zero_mul, Nat.zero_min] using ih

private theorem foldl_of_zero_mem {counts : List Nat} (zero : 0 ∈ counts) (count : Nat) :
    counts.foldl (fun count picks => Nat.min (count * picks) maxCount) count = 0 := by
  induction counts generalizing count with
  | nil => cases zero
  | cons picks counts ih =>
    rcases List.mem_cons.mp zero with rfl | zero
    · simpa only [List.foldl_cons, Nat.mul_zero, Nat.zero_min] using foldl_zero counts
    · exact ih zero _

theorem Expandable.derived_ne_nil {budget : Nat} {e : Expr} (expandable : e.Expandable budget) :
    e.derived ≠ [] := by
  refine distribute_ne_nil (fun empty => ?_) []
  have none : e.choices = 0 := foldl_of_zero_mem (List.mem_map.mpr ⟨[], empty, rfl⟩) 1
  have several := expandable.several
  omega

theorem Expands.operand {budget : Nat} {es fs : List Expr} {any : Bool} (expands : Expands budget es fs any)
    (operands : ∀ e ∈ es, e.Operand .and) : ∀ f ∈ fs, f.Operand .and := by
  induction expands with
  | nil => exact operands
  | keep rest ih =>
    obtain ⟨first, others⟩ := List.forall_mem_cons.mp operands
    exact List.forall_mem_cons.mpr ⟨first, ih others⟩
  | derive expandable rest ih =>
    obtain ⟨first, others⟩ := List.forall_mem_cons.mp operands
    exact List.forall_mem_append.mpr ⟨derived_operand first.1, ih others⟩

theorem Expands.ne_nil {budget : Nat} {es fs : List Expr} (expands : Expands budget es fs true) : fs ≠ [] := by
  cases expands with
  | keep rest => exact List.cons_ne_nil _ _
  | derive expandable rest => exact fun none => expandable.derived_ne_nil (List.append_eq_nil_iff.mp none).1

theorem RootExpands.chainForm {budget : Nat} {e f : Expr} (expands : e.RootExpands budget f)
    (form : e.ChainForm) (conjunction : e.isLink .and = true) : f.ChainForm ∧ f.isLink .and = true := by
  cases expands with
  | unchanged => exact ⟨form, conjunction⟩
  | @rebuilt fs _ expands =>
    refine ⟨chain_chainForm (expands.operand (members_operand form)), ?_⟩
    cases fs with
    | nil => exact absurd rfl expands.ne_nil
    | cons => rfl

end Expr

namespace Arena

/-- The links of a node lead down to another one. -/
inductive Reaches (a : Arena) : NodeId → NodeId → Prop
  | refl {id} : Reaches a id id
  | left {id c left right i} (found : a.get? id = some (.link c left right)) (below : Reaches a left i) :
      Reaches a id i
  | right {id c left right i} (found : a.get? id = some (.link c left right)) (below : Reaches a right i) :
      Reaches a id i
  | operand {id operand i} (found : a.get? id = some (.not operand)) (below : Reaches a operand i) :
      Reaches a id i

/-- The full chain form, node by node. -/
structure ChainForm (a : Arena) : Prop where
  conjunction : ∃ n, a.get? a.root = some n ∧ n.isLink .and = true
  notFree : ∀ id, a.Reaches a.root id → ∃ n, a.get? id = some n ∧ ∀ operand, n ≠ .not operand
  lefts : ∀ id c left right, a.Reaches a.root id → a.get? id = some (.link c left right) →
    ∃ n, a.get? left = some n ∧ n.isLink c = false
  rights : ∀ id c left right, a.Reaches a.root id → a.get? id = some (.link c left right) →
    ∃ n, a.get? right = some n ∧ (n.isLink c = true ∨ n = .constant c.unit)

variable {a : Arena} {id : NodeId} {e : Expr}

/-- Whatever is reached stands for a part of the whole, and chain form is passed on to parts. -/
theorem Reaches.stands {i : NodeId} (reaches : a.Reaches id i) (stands : a.Stands id e) (form : e.ChainForm) :
    ∃ f, a.Stands i f ∧ f.ChainForm := by
  induction reaches generalizing e with
  | refl => exact ⟨e, stands, form⟩
  | left found _ ih =>
    obtain ⟨_, _, rfl, below, _⟩ := stands.of_link found
    exact ih below form.2.2.1
  | right found _ ih =>
    obtain ⟨_, _, rfl, _, below⟩ := stands.of_link found
    exact ih below form.2.2.2
  | operand found _ _ =>
    obtain ⟨_, rfl, _⟩ := stands.of_not found
    exact form.elim

theorem Stands.chainForm (stands : a.Stands a.root e) (form : e.ChainForm) (conjunction : e.isLink .and = true) :
    a.ChainForm where
  conjunction := by
    obtain ⟨n, found, links⟩ := stands.get?_isLink
    exact ⟨n, found, (links .and).trans conjunction⟩
  notFree id reaches := by
    obtain ⟨f, below, form⟩ := reaches.stands stands form
    cases below with
    | link found => exact ⟨_, found, nofun⟩
    | not _ _ => exact form.elim
    | atom found => exact ⟨_, found, nofun⟩
  lefts id c left right reaches found := by
    obtain ⟨f, below, form⟩ := reaches.stands stands form
    obtain ⟨_, _, rfl, lefts, _⟩ := below.of_link found
    obtain ⟨n, found, links⟩ := lefts.get?_isLink
    exact ⟨n, found, (links c).trans form.1⟩
  rights id c left right reaches found := by
    obtain ⟨f, below, form⟩ := reaches.stands stands form
    obtain ⟨_, second, rfl, _, rights⟩ := below.of_link found
    rcases form.2.1 with more | last
    · obtain ⟨n, found, links⟩ := rights.get?_isLink
      exact ⟨n, found, .inl ((links c).trans more)⟩
    · rw [last] at rights
      cases rights with
      | atom found => exact ⟨_, found, .inr rfl⟩

private theorem isChainedAt_eq (stands : a.Stands id e) (form : e.ChainForm) {steps : Nat}
    (enough : e.height ≤ steps) : a.isChainedAt steps id = .ok true := by
  induction stands generalizing steps with
  | link found lefts rights left right =>
    obtain ⟨steps, rfl, low⟩ := exists_step enough
    obtain ⟨first, second⟩ := Nat.max_le.mp low
    obtain ⟨other, _, leftForm, rightForm⟩ := form
    obtain ⟨n, read, links⟩ := lefts.isLink
    simp only [isChainedAt, node_of_get? found, ok_bind, read, links, other, right rightForm second,
      left leftForm first]
    rfl
  | not => exact form.elim
  | atom found =>
    obtain ⟨steps, rfl, _⟩ := exists_step enough
    simp only [isChainedAt, node_of_get? found, ok_bind, ok_pure]

theorem isChained_eq (stands : a.Stands a.root e) (form : e.ChainForm) (conjunction : e.isLink .and = true) :
    a.isChained = .ok true := by
  obtain ⟨n, read, links⟩ := stands.isLink
  simp only [isChained, read, ok_bind, links, conjunction, if_true]
  exact isChainedAt_eq stands form (Nat.le_succ_of_le stands.height_le)

end Arena

/-- A normalized tree is in full chain form, whichever expansions fit the budget and the
limit. -/
theorem Normalizer.normalize_chainForm (n : Normalizer) (e : Expr) (limit : Nat) :
    ∃ a, n.normalize { Arena.ofExpr e with limit } = .ok a ∧ a.ChainForm ∧ a.isChained = .ok true := by
  obtain ⟨f, run, expands⟩ := n.normalize_eq ((Arena.ofExpr_holds e).limited limit)
  obtain ⟨form, conjunction⟩ := Expr.rootChained_chainForm (Expr.pushed_notFree false e)
  obtain ⟨form, conjunction⟩ := Expr.withInLists_chainForm form conjunction
  obtain ⟨form, conjunction⟩ := expands.chainForm form conjunction
  have stands := ((Arena.ofExpr_holds f).limited (Nat.min limit n.nodeLimit)).stands
  exact ⟨_, run, stands.chainForm form conjunction, Arena.isChained_eq stands form conjunction⟩

end Selectivity
