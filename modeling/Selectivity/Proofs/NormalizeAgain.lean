import Selectivity.Proofs.NormalForm
import Selectivity.Proofs.StageFixpoints

/-! Normalizing once more. Expansion comes last, so that no earlier stage has seen what it
derives: a disjunction may amount to an IN list, may have `FALSE` among its picks, or may be
worth expanding itself. Every other conjunct stays what it is. -/

namespace Selectivity

namespace Expr

variable {budget : Nat} {d e : Expr} {ds xs : List Expr}

/-- What a conjunct must be like for another normalization to leave it alone. -/
structure Lasting (budget : Nat) (d : Expr) : Prop where
  unneutral : constant false ∉ d.members .or
  unlisted : d.inList? = none
  unexpanded : ¬ d.Expandable budget

/-- What another normalization puts in the place of a conjunct. -/
def again (budget : Nat) (d : Expr) : List Expr := d.chained.withInLists.expansion budget

theorem expansion_ne_nil (budget : Nat) (e : Expr) : e.expansion budget ≠ [] := by
  rw [expansion]
  split
  next expandable => exact expandable.derived_ne_nil
  next => exact List.cons_ne_nil _ _

theorem again_ne_nil (budget : Nat) (d : Expr) : d.again budget ≠ [] := expansion_ne_nil budget _

theorem Expandable.several_derived (expandable : e.Expandable budget) : 1 < e.derived.length := by
  have several := expandable.several
  rw [choices_eq] at several
  rw [length_derived]
  omega

theorem expanded_eq_chain (form : e.ChainForm) (conjunction : e.isLink .and = true) :
    e.expanded budget = chain .and ((e.members .and).flatMap (expansion budget)) := by
  rw [expanded]
  split
  next => rfl
  next none =>
    have kept : ∀ f ∈ e.members .and, f.expansion budget = [f] := fun f member =>
      expansion_eq_self fun expandable => none ⟨conjunction, f, member, expandable⟩
    rw [List.flatMap_congr kept, List.flatMap_singleton', chain_members form (.inl conjunction)]

/-! ### One conjunct -/

theorem eq_constant_of_isConstant {value : Bool} (same : e.isConstant value = true) : e = constant value := by
  cases e with
  | link => cases same
  | not => cases same
  | atom leaf =>
    cases leaf with
    | constant other => rw [beq_iff_eq.mp same, constant]
    | compare => cases same
    | inList => cases same

theorem lasting_iff : d.Lasting budget ↔
    (∀ f ∈ d.members .or, f.isConstant false = false) ∧ d.inList?.isNone = true ∧ ¬ d.Expandable budget := by
  constructor
  · intro ⟨unneutral, unlisted, unexpanded⟩
    refine ⟨fun f member => ?_, Option.isNone_iff_eq_none.mpr unlisted, unexpanded⟩
    apply Bool.eq_false_iff.mpr
    intro neutral
    exact unneutral (eq_constant_of_isConstant neutral ▸ member)
  · intro ⟨unneutral, unlisted, unexpanded⟩
    exact ⟨fun member => (nomatch unneutral _ member), Option.isNone_iff_eq_none.mp unlisted, unexpanded⟩

instance (budget : Nat) (d : Expr) : Decidable (d.Lasting budget) := decidable_of_iff _ lasting_iff.symm

theorem inList?_of_not_or (other : d.isLink .or = false) : d.inList? = none := by
  have short : (d.members .or).length < 2 := by
    cases constant : d.isConstant Connective.or.unit with
    | false => simp [members_eq_self other constant]
    | true =>
      cases d with
      | link => cases constant
      | not => cases constant
      | atom leaf => rw [members, if_pos (show leaf.isConstant Connective.or.unit = true from constant)]; simp
  rw [inList?, if_pos short, ite_self]

theorem Steady.again_eq (steady : d.Steady) (kept : ¬ d.Expandable budget) : d.again budget = [d] := by
  rw [again, (operands_and_chained_eq steady.form steady.clean).2, steady.listed, expansion_eq_self kept]

private theorem Clean.unneutral (clean : d.Clean) : constant false ∉ d.members .or := by
  intro member
  cases (clean.members .or _ member).1

theorem Steady.lasting (steady : d.Steady) (kept : ¬ d.Expandable budget) : d.Lasting budget := by
  refine ⟨steady.clean.unneutral, ?_, kept⟩
  cases disjunction : d.isLink .or with
  | false => exact inList?_of_not_or disjunction
  | true => exact inList?_eq_none steady.listed disjunction

private theorem disjuncts_ne_nil (e : Expr) : e.disjuncts ≠ [] := by
  cases e with
  | link c left right =>
    cases c with
    | and => exact List.cons_ne_nil _ _
    | or => exact List.cons_ne_nil left (right.members .or)
  | not operand => exact List.cons_ne_nil _ _
  | atom leaf => exact List.cons_ne_nil _ _

/-- Disjuncts of picks, in a chain that no stage has gone through. -/
structure Derived (d : Expr) (xs : List Expr) : Prop where
  chain : d = chain .or xs
  some : xs ≠ []
  steady : ∀ x ∈ xs, x.Steady
  operand : ∀ x ∈ xs, x.isLink .or = false

theorem Steady.derived (steady : e.Steady) (several : 1 < e.choices) (member : d ∈ e.derived) :
    ∃ xs, d.Derived xs := by
  rw [derived_eq] at member
  obtain ⟨picks, way, rfl⟩ := List.mem_map.mp member
  have picked := mem_ways.mp way
  have parts : ∀ pick ∈ picks, pick.Steady := by
    intro pick member
    obtain ⟨factor, within, there⟩ := exists_of_mem_left picked pick member
    obtain ⟨disjunct, below, rfl⟩ := List.mem_map.mp within
    exact (steady.members .or disjunct below).members .and pick there
  have each : ∀ x ∈ picks.flatMap disjuncts, x.Steady ∧ x.isLink .or = false := by
    intro x member
    obtain ⟨pick, here, within⟩ := List.mem_flatMap.mp member
    have part := parts pick here
    rw [disjuncts] at within
    split at within
    next => exact ⟨part.members .or x within, (members_operand part.form x within).2⟩
    next other =>
      cases List.mem_singleton.mp within
      exact ⟨part, Bool.eq_false_iff.mpr other⟩
  refine ⟨_, rfl, ?_, fun x member => (each x member).1, fun x member => (each x member).2⟩
  cases picks with
  | nil =>
    have none : e.factors = [] := List.forall₂_nil_left_iff.mp picked
    rw [choices, none] at several
    cases several with
    | step impossible => cases impossible
  | cons pick picks =>
    intro none
    exact disjuncts_ne_nil pick (List.flatMap_eq_nil_iff.mp none pick List.mem_cons_self)

theorem Derived.or (derived : d.Derived xs) : d.isLink .or = true := by
  obtain ⟨rfl, some, _, _⟩ := derived
  cases xs with
  | nil => exact absurd rfl some
  | cons => rfl

theorem Derived.chainForm (derived : d.Derived xs) : d.ChainForm := by
  obtain ⟨rfl, _, steady, operand⟩ := derived
  exact chain_chainForm fun x member => ⟨(steady x member).form, operand x member⟩

theorem disjunctsInLists_chain (xs : List Expr) :
    (Expr.chain .or xs).disjunctsInLists = Expr.chain .or (xs.map withInLists) := by
  induction xs with
  | nil => rfl
  | cons x xs ih => exact congrArg (link .or x.withInLists) ih

theorem withInLists_again (free : d.NotFree) : d.chained.withInLists.withInLists = d.chained.withInLists :=
  (withInLists_idempotent (chained_chainForm free)).1

/-- The three ways in which a derived disjunction changes: it loses picks, turns into an IN
list, or is expanded. -/
theorem Derived.again_eq_iff (derived : d.Derived xs) : d.again budget = [d] ↔ d.Lasting budget := by
  have free := derived.chainForm.notFree
  constructor
  · intro same
    -- What is expanded comes to several disjunctions, and never to one.
    have unexpanded : ¬ d.chained.withInLists.Expandable budget := by
      intro expandable
      have several := expandable.several_derived
      rw [again, expansion_eq_derived expandable] at same
      rw [same] at several
      exact absurd several (Nat.lt_irrefl 1)
    rw [again, expansion_eq_self unexpanded] at same
    have fixed : d.chained.withInLists = d := List.singleton_inj.mp same
    rw [fixed] at unexpanded
    have clean : d.Clean := fixed ▸ (withInLists_clean d.operands_and_chained_clean.2).1
    have listed : d.withInLists = d := by
      have twice := withInLists_again free
      rwa [fixed] at twice
    exact ⟨clean.unneutral, inList?_eq_none listed derived.or, unexpanded⟩
  · intro lasting
    have clean : d.Clean := by
      have members := (lasting_iff.mp lasting).1
      rw [derived.chain, members_chain] at members
      rw [derived.chain]
      apply chain_clean
      intro x member
      exact ⟨members x member, (derived.steady x member).clean⟩
    have listed : d.withInLists = d := by
      rw [withInLists_eq_disjunctsInLists derived.or lasting.unlisted, derived.chain, disjunctsInLists_chain]
      exact congrArg (Expr.chain .or) ((List.map_congr_left fun x member => (derived.steady x member).listed).trans
        (List.map_id xs))
    exact Steady.again_eq ⟨derived.chainForm, clean, listed⟩ lasting.unexpanded

/-! ### All conjuncts -/

theorem operands_of_conjunct (conjunct : d.Operand .and) (some : d.isConstant true = false) :
    d.operands .and = [d.chained] := by
  obtain ⟨form, other⟩ := conjunct
  cases d with
  | link c left right =>
    cases c with
    | and => cases other
    | or => rfl
  | not => exact form.elim
  | atom leaf => exact if_neg (Bool.eq_false_iff.mp some)

theorem withInLists_chain (ds : List Expr) :
    (Expr.chain .and ds).withInLists = Expr.chain .and (ds.map withInLists) := by
  induction ds with
  | nil => rfl
  | cons d ds ih => exact congrArg (link .and d.withInLists) ih

theorem chain_notFree {c : Connective} (free : ∀ d ∈ ds, d.NotFree) : (Expr.chain c ds).NotFree := by
  induction ds with
  | nil => trivial
  | cons d ds ih =>
    obtain ⟨first, rest⟩ := List.forall_mem_cons.mp free
    exact ⟨first, ih rest⟩

/-- A chain of conjuncts is normalized conjunct by conjunct. -/
theorem normalized_chain (some : ds ≠ []) (conjuncts : ∀ d ∈ ds, d.Operand .and ∧ d.isConstant true = false) :
    (Expr.chain .and ds).normalized budget = Expr.chain .and (ds.flatMap (again budget)) := by
  have free : (Expr.chain .and ds).NotFree := chain_notFree fun d member => (conjuncts d member).1.1.notFree
  have group : (Expr.chain .and ds).operands .and = ds.map chained := by
    rw [operands_chain, List.flatMap_congr fun d member =>
      operands_of_conjunct (conjuncts d member).1 (conjuncts d member).2]
    exact List.map_eq_flatMap.symm
  have root : (Expr.chain .and ds).rootChained = Expr.chain .and (ds.map chained) := by
    rw [rootChained, group]
    split
    next none => exact absurd (List.map_eq_nil_iff.mp none) some
    next => rfl
  obtain ⟨form, conjunction⟩ := rootChained_chainForm free
  obtain ⟨form, conjunction⟩ := withInLists_chainForm form conjunction
  rw [normalized, pushed_eq_self free, expanded_eq_chain form conjunction, root, withInLists_chain, members_chain,
    List.map_map, List.flatMap_map]
  rfl

private theorem flatMap_eq_self_iff {g : Expr → List Expr} (filled : ∀ d, g d ≠ []) :
    ds.flatMap g = ds ↔ ∀ d ∈ ds, g d = [d] := by
  have longer (ds : List Expr) : ds.length ≤ (ds.flatMap g).length := by
    induction ds with
    | nil => exact Nat.le_refl 0
    | cons d ds ih =>
      have first : 0 < (g d).length := List.length_pos_iff.mpr (filled d)
      rw [List.flatMap_cons, List.length_append, List.length_cons]
      omega
  constructor
  · intro same
    induction ds with
    | nil => simp
    | cons d ds ih =>
      have lengths := congrArg List.length same
      have rest := longer ds
      rw [List.flatMap_cons] at same
      rw [List.flatMap_cons, List.length_append, List.length_cons] at lengths
      cases first : g d with
      | nil => exact absurd first (filled d)
      | cons f fs =>
        rw [first, List.length_cons] at lengths
        have last : fs = [] := List.length_eq_zero_iff.mp (by omega)
        rw [first, last] at same
        obtain ⟨here, others⟩ := List.cons.inj same
        exact List.forall_mem_cons.mpr ⟨by rw [first, last, here], ih others⟩
  · intro each
    rw [List.flatMap_congr each, List.flatMap_singleton']

/-- A conjunct of a normalized expression was kept or derived. -/
inductive Conjunct (budget : Nat) (d : Expr) : Prop
  | kept (steady : d.Steady) (other : d.isLink .and = false) (some : d.isConstant true = false)
      (skipped : ¬ d.Expandable budget)
  | derived {xs : List Expr} (picks : d.Derived xs)

theorem Conjunct.operand (conjunct : d.Conjunct budget) : d.Operand .and ∧ d.isConstant true = false := by
  cases conjunct with
  | kept steady other some skipped => exact ⟨⟨steady.form, other⟩, some⟩
  | derived picks =>
    have form := picks.chainForm
    obtain ⟨rfl, _, _, _⟩ := picks
    exact ⟨⟨form, chain_isLink_ne (by decide) _⟩, chain_isConstant_ne (d := .and) (by decide) _⟩

theorem Conjunct.again_eq_iff (conjunct : d.Conjunct budget) : d.again budget = [d] ↔ d.Lasting budget := by
  cases conjunct with
  | kept steady _ _ skipped => exact ⟨fun _ => steady.lasting skipped, fun _ => steady.again_eq skipped⟩
  | derived picks => exact picks.again_eq_iff

private theorem conjunct_of_member (budget : Nat) (steady : e.Steady) :
    ∀ d ∈ (e.members .and).flatMap (expansion budget), d.Conjunct budget := by
  intro d member
  obtain ⟨f, within, member⟩ := List.mem_flatMap.mp member
  have part := steady.members .and f within
  rw [expansion] at member
  split at member
  next expandable =>
    obtain ⟨xs, picks⟩ := part.derived expandable.several member
    exact .derived picks
  next skipped =>
    cases List.mem_singleton.mp member
    exact .kept part (members_operand steady.form d within).2 (steady.clean.members .and d within).1 skipped

private theorem members_ne_nil {c : Connective} (whole : e.isLink c = true) : e.members c ≠ [] := by
  cases e with
  | link d left right =>
    rw [members, if_pos (beq_iff_eq.mp whole)]
    exact List.cons_ne_nil _ _
  | not => cases whole
  | atom => cases whole

/-- Normalizing again changes nothing exactly if it changes no conjunct. -/
theorem normalized_normalized_iff (budget : Nat) (e : Expr) :
    (e.normalized budget).normalized budget = e.normalized budget ↔
      ∀ d ∈ (e.normalized budget).members .and, d.Lasting budget := by
  obtain ⟨form, conjunction⟩ := rootChained_chainForm (pushed_notFree false e)
  rcases rootChained_clean (e.pushed false) with clean | only
  · have steady := withInLists_steady form clean conjunction
    obtain ⟨form, conjunction⟩ := withInLists_chainForm form conjunction
    have conjuncts := conjunct_of_member budget steady
    have some : ((e.pushed false).rootChained.withInLists.members .and).flatMap (expansion budget) ≠ [] := by
      obtain ⟨first, member⟩ := List.exists_mem_of_ne_nil _ (members_ne_nil conjunction)
      intro none
      exact expansion_ne_nil budget first (List.flatMap_eq_nil_iff.mp none first member)
    have once : e.normalized budget = chain .and _ := expanded_eq_chain form conjunction
    rw [once, normalized_chain some fun d member => (conjuncts d member).operand, members_chain]
    have same : ∀ ds es : List Expr, chain .and ds = chain .and es ↔ ds = es := fun ds es =>
      ⟨fun same => by simpa only [members_chain] using congrArg (members .and) same, congrArg (chain .and)⟩
    rw [same, flatMap_eq_self_iff (again_ne_nil budget)]
    exact forall₂_congr fun d member => (conjuncts d member).again_eq_iff
  · -- A tree that is `TRUE` throughout comes to one conjunct, which is no disjunction.
    have kept : ¬ (constant true).Expandable budget := fun expandable => nomatch expandable.disjunction
    have whole : (chain .and [constant true]).expanded budget = chain .and [constant true] := by
      apply if_neg
      rintro ⟨_, d, member, expandable⟩
      cases List.mem_singleton.mp member
      exact kept expandable
    have once : e.normalized budget = chain .and [constant true] := by
      rw [normalized, only]
      exact whole
    have twice : (chain .and [constant true]).normalized budget = chain .and [constant true] := whole
    rw [once, twice, members_chain]
    have lasting : (constant true).Lasting budget :=
      Steady.lasting ⟨trivial, trivial, rfl⟩ kept
    simpa using lasting

end Expr

namespace Normalizer

/-- Normalizing twice. The second time changes nothing exactly if every conjunct of the first
result is lasting. -/
theorem normalize_again (n : Normalizer) (e : Expr) (limit : Nat) (room : n.Roomy { Arena.ofExpr e with limit }) :
    ∃ t f, n.normalize { Arena.ofExpr e with limit } = .ok t ∧ t.rootExpr = .ok f ∧
      (n.Roomy t → ∃ u g, n.normalize t = .ok u ∧ u.rootExpr = .ok g ∧
        (g = f ↔ ∀ d ∈ f.members .and, d.Lasting n.budget)) := by
  have once := normalize_eq_stored ((Arena.ofExpr_holds e).limited limit) room
  refine ⟨_, _, once, n.stored_rootExpr _ e, ?_⟩
  intro again
  have twice := normalize_eq_stored (n.stored_holds _ e) again
  exact ⟨_, _, twice, n.stored_rootExpr _ _, Expr.normalized_normalized_iff n.budget e⟩

/-- The disjunctions `x OR z` and `y OR z` have nothing left to normalize. -/
theorem normalize_again_nested :
    Roomy { budget := 2, nodeLimit := 80 } { Arena.ofExpr nested with limit := 100 } ∧
      ∃ t f u, normalize { budget := 2, nodeLimit := 80 } { Arena.ofExpr nested with limit := 100 } = .ok t ∧
        t.rootExpr = .ok f ∧ Roomy { budget := 2, nodeLimit := 80 } t ∧
        normalize { budget := 2, nodeLimit := 80 } t = .ok u ∧ u.rootExpr = .ok f := by
  refine ⟨tidy_roomy, ?_⟩
  obtain ⟨t, f, once, read, twice⟩ := normalize_again _ nested 100 tidy_roomy
  cases once.symm.trans (normalize_eq_stored ((Arena.ofExpr_holds nested).limited 100) tidy_roomy)
  cases read.symm.trans (stored_rootExpr _ _ nested)
  have room : Roomy { budget := 2, nodeLimit := 80 }
      (stored { budget := 2, nodeLimit := 80 } { Arena.ofExpr nested with limit := 100 } nested) :=
    roomy_of_unexpanded (stored_holds _ _ nested) (by decide)
  obtain ⟨u, g, run, read', same⟩ := twice room
  cases same.mpr (by decide)
  exact ⟨_, _, u, once, read, room, run, read'⟩

/-! ### Disjunctions that are IN lists -/

/-- The expression `(a = 1 AND b < 2) OR (a = 3 AND b < 4)`. -/
def alternatives : Expr :=
  let a := Column.ofTable "t" "a" 0
  let b := Column.ofTable "t" "b" 0
  .link .or (.link .and (.comparison a .eq (.int 1)) (.comparison b .lt (.int 2)))
    (.link .and (.comparison a .eq (.int 3)) (.comparison b .lt (.int 4)))

private def alternativesChains : Arena :=
  let a := Column.ofTable "t" "a" 0
  let b := Column.ofTable "t" "b" 0
  let comparison (c : Column) (op : Comparator) (i : Int64) : Node :=
    .atom (.compare op (.column c) (some (.literal (.int i))))
  { nodes := #[comparison a .eq 1, comparison b .lt 2, .link .and 0 1, comparison a .eq 3, comparison b .lt 4,
      .link .and 3 4, .link .or 2 5, .constant true, .link .and 1 7, .link .and 0 8, .constant true, .link .and 4 10,
      .link .and 3 11, .constant false, .link .or 12 13, .link .or 9 14, .constant true, .link .and 15 16],
    root := 17, limit := 100 }

theorem alternatives_roomy : Roomy (ofBudget 10) { Arena.ofExpr alternatives with limit := 100 } := by
  have done : (Attempt.disjunctions [[0, 1], [3, 4]] alternativesChains).1 = .ok [22, 27, 32, 37] := by rfl
  have turn : Arena.Turn 10 15 alternativesChains (.derived [22, 27, 32, 37]) _ := .derived (by rfl) (Prod.ext done rfl)
  exact roomy_of_pass (b := alternativesChains) (by rfl) ((Arena.Pass.next turn .done).roomy (by rfl) (by simp))

/-- The derived disjunction `a = 1 OR a = 3` becomes an IN list the second time. -/
theorem normalize_again_ne :
    Roomy (ofBudget 10) { Arena.ofExpr alternatives with limit := 100 } ∧
      ∃ t f u g, (ofBudget 10).normalize { Arena.ofExpr alternatives with limit := 100 } = .ok t ∧
        t.rootExpr = .ok f ∧ (ofBudget 10).Roomy t ∧ (ofBudget 10).normalize t = .ok u ∧ u.rootExpr = .ok g ∧ g ≠ f := by
  have once := normalize_eq_stored ((Arena.ofExpr_holds alternatives).limited 100) alternatives_roomy
  have room : (ofBudget 10).Roomy
      ((ofBudget 10).stored { Arena.ofExpr alternatives with limit := 100 } alternatives) :=
    roomy_of_unexpanded (stored_holds _ _ alternatives) (by decide)
  have twice := normalize_eq_stored (stored_holds _ _ alternatives) room
  refine ⟨alternatives_roomy, _, _, _, _, once, stored_rootExpr _ _ _, room, twice, stored_rootExpr _ _ _, ?_⟩
  intro same
  have sizes : ((alternatives.normalized 10).normalized 10).size ≠ (alternatives.normalized 10).size := by decide
  exact sizes (congrArg Expr.size same)

end Normalizer
end Selectivity
