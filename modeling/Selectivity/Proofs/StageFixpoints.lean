import Selectivity.Proofs.NormalizeShape

/-! What the stages leave as it is. Building chains changes no chain without neutral constants
among its operands, and one pass over the disjunctions leaves none that amounts to an IN list. -/

namespace Selectivity

namespace Expr

variable {c : Connective} {e f : Expr} {es : List Expr}

/-! ### Chains and their members -/

theorem members_chain (c : Connective) (es : List Expr) : (chain c es).members c = es := by
  induction es with
  | nil => exact if_pos (beq_self_eq_true c.unit)
  | cons e es ih => exact (if_pos rfl).trans (congrArg (e :: ·) ih)

/-- A chain of its own kind, of no operands at least. -/
def Whole (c : Connective) (e : Expr) : Prop := e.isLink c = true ∨ e = constant c.unit

theorem chain_members (form : e.ChainForm) (whole : e.Whole c) : chain c (e.members c) = e := by
  induction e with
  | link d left right _ ih =>
    rcases whole with same | last
    · cases beq_iff_eq.mp same
      have rest : chain c (right.members c) = right := ih form.2.2.2 form.2.1
      rw [members, if_pos rfl]
      exact congrArg (link c left) rest
    · cases last
  | not operand => exact form.elim
  | atom leaf =>
    rcases whole with other | last
    · cases other
    · rw [last]
      exact congrArg (chain c) (members_chain c [])

theorem members_eq_self (other : e.isLink c = false) (some : e.isConstant c.unit = false) : e.members c = [e] := by
  cases e with
  | link d left right => exact if_neg (beq_eq_false_iff_ne.mp other)
  | not operand => rfl
  | atom leaf => exact if_neg (Bool.eq_false_iff.mp some)

theorem ChainForm.notFree (form : e.ChainForm) : e.NotFree := by
  induction e with
  | link d left right lefts rights => exact ⟨lefts form.2.2.1, rights form.2.2.2⟩
  | not operand => exact form.elim
  | atom leaf => trivial

theorem pushed_eq_self (free : e.NotFree) : e.pushed false = e := by
  induction e with
  | link d left right lefts rights =>
    simp only [pushed, lefts free.1, rights free.2, Bool.false_eq_true, if_false]
  | not operand => exact free.elim
  | atom leaf => rfl

/-! ### Neutral constants -/

/-- No link has its neutral constant on the left. -/
def Clean : Expr → Prop
  | .link c left right => left.isConstant c.unit = false ∧ left.Clean ∧ right.Clean
  | .not operand => operand.Clean
  | .atom _ => True

theorem chain_clean (operands : ∀ e ∈ es, e.isConstant c.unit = false ∧ e.Clean) : (chain c es).Clean := by
  induction es with
  | nil => trivial
  | cons e es ih =>
    obtain ⟨⟨some, clean⟩, rest⟩ := List.forall_mem_cons.mp operands
    exact ⟨some, clean, ih rest⟩

theorem chain_isConstant_ne {d : Connective} (different : c ≠ d) (es : List Expr) :
    (chain c es).isConstant d.unit = false := by
  cases es with
  | nil => cases c <;> cases d <;> first | rfl | exact absurd rfl different
  | cons => rfl

theorem Clean.members (clean : e.Clean) (c : Connective) :
    ∀ f ∈ e.members c, f.isConstant c.unit = false ∧ f.Clean := by
  induction e with
  | link d left right _ ih =>
    rw [Expr.members]
    split
    next same =>
      subst same
      exact List.forall_mem_cons.mpr ⟨⟨clean.1, clean.2.1⟩, ih clean.2.2⟩
    next =>
      intro f member
      cases List.mem_singleton.mp member
      exact ⟨rfl, clean⟩
  | not operand =>
    intro f member
    cases List.mem_singleton.mp member
    exact ⟨rfl, clean⟩
  | atom leaf =>
    rw [Expr.members]
    split
    next => simp
    next some =>
      intro f member
      cases List.mem_singleton.mp member
      exact ⟨Bool.eq_false_iff.mpr some, trivial⟩

/-- Groups are made of operands without neutral constants. -/
theorem operands_and_chained_clean (e : Expr) :
    (∀ c, ∀ f ∈ e.operands c, f.isConstant c.unit = false ∧ f.Clean) ∧ e.chained.Clean := by
  induction e with
  | link d left right lefts rights =>
    have group : ∀ f ∈ left.operands d ++ right.operands d, f.isConstant d.unit = false ∧ f.Clean :=
      List.forall_mem_append.mpr ⟨lefts.1 d, rights.1 d⟩
    refine ⟨fun c => ?_, chain_clean group⟩
    rw [operands]
    split
    next same => exact same ▸ group
    next different => exact List.forall_mem_singleton.mpr ⟨chain_isConstant_ne different _, chain_clean group⟩
  | not operand ih => exact ⟨fun c => List.forall_mem_singleton.mpr ⟨rfl, ih.2⟩, ih.2⟩
  | atom leaf =>
    refine ⟨fun c => ?_, trivial⟩
    rw [operands]
    split
    next => exact fun f none => (List.not_mem_nil none).elim
    next some => exact List.forall_mem_singleton.mpr ⟨Bool.eq_false_iff.mpr some, trivial⟩

theorem chained_chainForm (free : e.NotFree) : e.chained.ChainForm := by
  cases e with
  | link d left right =>
    rw [chained]
    apply chain_chainForm
    intro f member
    rcases List.mem_append.mp member with member | member
    · exact operands_operand free.1 d f member
    · exact operands_operand free.2 d f member
  | not operand => exact free.elim
  | atom leaf => trivial

theorem rootChained_eq_chain (some : e.operands .and ≠ []) : e.rootChained = chain .and (e.operands .and) := by
  rw [rootChained]
  split
  next none => exact absurd none some
  next => rfl

theorem rootChained_of_nil (none : e.operands .and = []) : e.rootChained = chain .and [constant true] := by
  rw [rootChained, none]
  rfl

/-- Only a tree that is `TRUE` throughout keeps a neutral constant. -/
theorem rootChained_clean (e : Expr) : e.rootChained.Clean ∨ e.rootChained = chain .and [constant true] := by
  by_cases none : e.operands .and = []
  · exact .inr (rootChained_of_nil none)
  · rw [rootChained_eq_chain none]
    exact .inl (chain_clean (e.operands_and_chained_clean.1 .and))

theorem operands_chain (c : Connective) (es : List Expr) : (chain c es).operands c = es.flatMap (operands c) := by
  induction es with
  | nil => exact if_pos (beq_self_eq_true c.unit)
  | cons e es ih => exact (if_pos rfl).trans (congrArg (e.operands c ++ ·) ih)

/-- Building chains finds the members of a chain, and builds the chain again. -/
theorem operands_and_chained_eq (form : e.ChainForm) (clean : e.Clean) :
    (∀ c, e.operands c = e.members c) ∧ e.chained = e := by
  induction e with
  | link d left right lefts rights =>
    have group : left.operands d ++ right.operands d = (link d left right).members d := by
      rw [(lefts form.2.2.1 clean.2.1).1 d, (rights form.2.2.2 clean.2.2).1 d, members_eq_self form.1 clean.1]
      exact (if_pos rfl).symm
    have again : chain d (left.operands d ++ right.operands d) = link d left right := by
      rw [group]
      exact chain_members form (.inl (beq_self_eq_true d))
    refine ⟨fun c => ?_, again⟩
    by_cases same : d = c
    · subst same
      exact (if_pos rfl).trans group
    · rw [operands, members, if_neg same, if_neg same, again]
  | not operand => exact form.elim
  | atom leaf => exact ⟨fun _ => rfl, rfl⟩

theorem rootChained_eq_self (form : e.ChainForm) (clean : e.Clean) (conjunction : e.isLink .and = true) :
    e.rootChained = e := by
  have group := (operands_and_chained_eq form clean).1 .and
  have again := chain_members form (c := .and) (.inl conjunction)
  rw [rootChained, group]
  split
  next none =>
    rw [none] at again
    cases again
    cases conjunction
  next => exact again

/-! ### IN lists -/

private theorem inListOf?_shape {rows : List Fixed} {list : Atom} (found : inListOf? rows = some list) :
    ∃ columns values, list = .inList columns values false := by
  unfold inListOf? at found
  split at found
  next => cases found
  next =>
    dsimp only at found
    split at found
    next => cases found
    next =>
      obtain ⟨values, _, found⟩ := Option.bind_eq_some_iff.mp found
      split at found
      next => exact ⟨_, _, (Option.some.inj found).symm⟩
      next => cases found

theorem inList?_shape {list : Atom} (found : e.inList? = some list) :
    ∃ columns values, list = .inList columns values false := by
  unfold inList? at found
  split at found
  next => cases found
  next =>
    split at found
    next => cases found
    next =>
      obtain ⟨rows, _, found⟩ := Option.bind_eq_some_iff.mp found
      exact inListOf?_shape found

theorem withInLists_isConstant (value : Bool) (e : Expr) : e.withInLists.isConstant value = e.isConstant value := by
  cases e with
  | link d left right =>
    cases d with
    | and => rfl
    | or =>
      rw [withInLists]
      split
      next list found =>
        obtain ⟨_, _, rfl⟩ := inList?_shape found
        rfl
      next => rfl
  | not operand => rfl
  | atom leaf => rfl

theorem withInLists_equality? (e : Expr) : e.withInLists.equality? = e.equality? := by
  cases e with
  | link d left right =>
    cases d with
    | and => rfl
    | or =>
      rw [withInLists]
      split
      next list found =>
        obtain ⟨_, _, rfl⟩ := inList?_shape found
        rfl
      next => rfl
  | not operand => rfl
  | atom leaf => rfl

theorem withInLists_clean (clean : e.Clean) : e.withInLists.Clean ∧ e.disjunctsInLists.Clean := by
  induction e with
  | link d left right lefts rights =>
    have some := (withInLists_isConstant d.unit left).trans clean.1
    cases d with
    | and => exact ⟨⟨some, (lefts clean.2.1).1, (rights clean.2.2).1⟩, clean⟩
    | or =>
      have kept : (link .or left.withInLists right.disjunctsInLists).Clean :=
        ⟨some, (lefts clean.2.1).1, (rights clean.2.2).2⟩
      refine ⟨?_, kept⟩
      rw [withInLists]
      split
      next => trivial
      next => exact kept
  | not operand ih => exact ⟨(ih clean).1, clean⟩
  | atom leaf => exact ⟨trivial, trivial⟩

theorem withInLists_members (form : e.ChainForm) (whole : e.Whole .and) :
    e.withInLists.members .and = (e.members .and).map withInLists := by
  induction e with
  | link d left right _ ih =>
    rcases whole with same | last
    · cases beq_iff_eq.mp same
      exact congrArg (left.withInLists :: ·) (ih form.2.2.2 form.2.1)
    · cases last
  | not operand => exact form.elim
  | atom leaf =>
    rcases whole with other | last
    · cases other
    · rw [last]
      rfl

theorem disjunctsInLists_members (form : e.ChainForm) (whole : e.Whole .or) :
    e.disjunctsInLists.members .or = (e.members .or).map withInLists := by
  induction e with
  | link d left right _ ih =>
    rcases whole with same | last
    · cases beq_iff_eq.mp same
      exact congrArg (left.withInLists :: ·) (ih form.2.2.2 form.2.1)
    · cases last
  | not operand => exact form.elim
  | atom leaf =>
    rcases whole with other | last
    · cases other
    · rw [last]
      rfl

/-- Converting what is inside a disjunct does not change which columns it fixes. -/
theorem withInLists_rows? (form : e.ChainForm) (other : e.isLink .or = false) : e.withInLists.rows? = e.rows? := by
  cases e with
  | link d left right =>
    cases d with
    | and =>
      have members := withInLists_members form (.inl rfl)
      rw [withInLists] at members ⊢
      rw [rows?, rows?, members, List.map_map, Function.comp_def]
      simp only [withInLists_equality?]
    | or => cases other
  | not operand => exact form.elim
  | atom leaf => rfl

private theorem disjunctsInLists_endsInFalse (e : Expr) : e.disjunctsInLists.endsInFalse = e.endsInFalse := by
  induction e with
  | link d left right _ ih =>
    cases d with
    | and => rfl
    | or => exact ih
  | not operand => rfl
  | atom leaf => rfl

theorem disjunctsInLists_inList? (form : e.ChainForm) (whole : e.Whole .or) :
    e.disjunctsInLists.inList? = e.inList? := by
  have same : (e.members .or).map (fun f => f.withInLists.rows?) = (e.members .or).map rows? :=
    List.map_congr_left fun f member =>
      have ⟨below, other⟩ := members_operand form f member
      withInLists_rows? below other
  rw [inList?, inList?, disjunctsInLists_endsInFalse, disjunctsInLists_members form whole, List.length_map,
    List.map_map, Function.comp_def, same]

/-- One pass is enough: a disjunction that stays is no IN list afterwards either. -/
theorem withInLists_idempotent (form : e.ChainForm) :
    e.withInLists.withInLists = e.withInLists ∧ e.disjunctsInLists.disjunctsInLists = e.disjunctsInLists := by
  induction e with
  | link d left right lefts rights =>
    have first := (lefts form.2.2.1).1
    cases d with
    | and =>
      refine ⟨?_, rfl⟩
      simp only [withInLists, first, (rights form.2.2.2).1]
    | or =>
      have second := (rights form.2.2.2).2
      have kept : (link .or left right).disjunctsInLists.disjunctsInLists = (link .or left right).disjunctsInLists := by
        simp only [disjunctsInLists, first, second]
      refine ⟨?_, kept⟩
      cases found : (link .or left right).inList? with
      | some list => simp only [withInLists, found]
      | none =>
        have again := (disjunctsInLists_inList? form (.inl rfl)).trans found
        simp only [disjunctsInLists] at again
        simp only [withInLists, found, again, first, second]
  | not operand => exact form.elim
  | atom leaf => exact ⟨rfl, rfl⟩

/-! ### Fixed points of both stages -/

structure Steady (e : Expr) : Prop where
  form : e.ChainForm
  clean : e.Clean
  listed : e.withInLists = e

theorem withInLists_steady (form : e.ChainForm) (clean : e.Clean) (conjunction : e.isLink .and = true) :
    e.withInLists.Steady :=
  ⟨(withInLists_chainForm form conjunction).1, (withInLists_clean clean).1, (withInLists_idempotent form).1⟩

theorem withInLists_eq_disjunctsInLists (disjunction : e.isLink .or = true) (none : e.inList? = none) :
    e.withInLists = e.disjunctsInLists := by
  cases e with
  | link d left right =>
    cases beq_iff_eq.mp disjunction
    simp only [withInLists, none, disjunctsInLists]
  | not operand => cases disjunction
  | atom leaf => cases disjunction

/-- A disjunction that stays in its place has been looked into. -/
theorem inList?_eq_none (listed : e.withInLists = e) (disjunction : e.isLink .or = true) : e.inList? = none := by
  cases e with
  | link d left right =>
    cases beq_iff_eq.mp disjunction
    cases found : (link .or left right).inList? with
    | some list =>
      simp only [withInLists, found] at listed
      cases listed
    | none => rfl
  | not operand => cases disjunction
  | atom leaf => cases disjunction

private theorem eq_of_map_eq {g : Expr → Expr} (same : es.map g = es) : ∀ f ∈ es, g f = f :=
  List.map_inj_left.mp (same.trans (List.map_id es).symm)

/-- What is steady consists of steady parts. -/
theorem Steady.members (steady : e.Steady) (c : Connective) : ∀ f ∈ e.members c, f.Steady := by
  intro f member
  have form := (members_operand steady.form f member).1
  have clean := (steady.clean.members c f member).2
  refine ⟨form, clean, ?_⟩
  cases whole : e.isLink c with
  | false =>
    cases constant : e.isConstant c.unit with
    | false =>
      rw [members_eq_self whole constant] at member
      cases List.mem_singleton.mp member
      exact steady.listed
    | true =>
      cases e with
      | link => cases constant
      | not => cases constant
      | atom leaf =>
        rw [Expr.members, if_pos (show leaf.isConstant c.unit = true from constant)] at member
        cases member
  | true =>
    cases c with
    | and =>
      have mapped := withInLists_members steady.form (.inl whole)
      rw [steady.listed] at mapped
      exact eq_of_map_eq mapped.symm f member
    | or =>
      have mapped := disjunctsInLists_members steady.form (.inl whole)
      rw [← withInLists_eq_disjunctsInLists whole (inList?_eq_none steady.listed whole), steady.listed] at mapped
      exact eq_of_map_eq mapped.symm f member

end Expr
end Selectivity
