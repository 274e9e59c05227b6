import Selectivity.Proofs.NormalForm
import Selectivity.Proofs.StageFixpoints

/-! Stages on trees whose parts may hang below several nodes. Building chains only appends.
Turning disjunctions into IN lists edits in place, so that a node may have been edited from
elsewhere before the pass comes to it. What it stands for then is on the way to what the pass
makes of it, and a node that the pass is done with stays as it is. -/

namespace Selectivity

namespace Expr

variable {c : Connective} {e f g left right : Expr}

/-- What a pass leaves at the node of `e` itself; only the link to a disjunction that is an
IN list is led elsewhere. -/
def visited (e : Expr) : Expr := if e.isLink .or then e.disjunctsInLists else e.withInLists

theorem visited_or (left right : Expr) :
    (link .or left right).visited = link .or left.withInLists right.disjunctsInLists := if_pos rfl

theorem visited_and (left right : Expr) :
    (link .and left right).visited = link .and left.withInLists right.withInLists := if_neg Bool.false_ne_true

theorem visited_eq_withInLists (other : e.isLink .or = false) : e.visited = e.withInLists :=
  if_neg (Bool.eq_false_iff.mp other)

theorem visited_eq_disjunctsInLists (whole : e.Whole .or) : e.visited = e.disjunctsInLists := by
  rcases whole with same | last
  · exact if_pos same
  · rw [last]
    rfl

/-- Whether a disjunction is an IN list does not depend on whether it has been looked into. -/
theorem withInLists_eq_of_visited (form : e.ChainForm) (again : f.ChainForm)
    (links : f.isLink .or = e.isLink .or) (same : f.visited = e.visited) : f.withInLists = e.withInLists := by
  cases disjunction : e.isLink .or with
  | false =>
    rw [← visited_eq_withInLists disjunction, ← visited_eq_withInLists (links.trans disjunction), same]
  | true =>
    obtain ⟨left, right, rfl⟩ := eq_link_of_isLink disjunction
    obtain ⟨first, second, rfl⟩ := eq_link_of_isLink (links.trans disjunction)
    have chains : (link .or first second).disjunctsInLists = (link .or left right).disjunctsInLists := same
    have lists : (link .or first second).inList? = (link .or left right).inList? := by
      rw [← disjunctsInLists_inList? again (.inl rfl), chains, disjunctsInLists_inList? form (.inl rfl)]
    cases found : (link .or left right).inList? with
    | some list => simp only [withInLists, found, lists.trans found]
    | none =>
      rw [withInLists_eq_disjunctsInLists rfl found, withInLists_eq_disjunctsInLists rfl (lists.trans found), chains]

theorem visited_of_withInLists (listed : e.withInLists = e) : e.visited = e := by
  cases disjunction : e.isLink .or with
  | false => exact (visited_eq_withInLists disjunction).trans listed
  | true =>
    rw [visited_eq_disjunctsInLists (.inl disjunction),
      ← withInLists_eq_disjunctsInLists disjunction (inList?_eq_none listed disjunction), listed]

theorem listed_height_le (e : Expr) : e.withInLists.height ≤ e.height ∧ e.disjunctsInLists.height ≤ e.height := by
  induction e with
  | link c left right lefts rights =>
    have positive := (link c left right).height_pos
    cases c with
    | and => exact ⟨Nat.succ_le_succ (max_le_max lefts.1 rights.1), Nat.le_refl _⟩
    | or =>
      have kept : (link .or left right).disjunctsInLists.height ≤ (link .or left right).height :=
        Nat.succ_le_succ (max_le_max lefts.1 rights.2)
      refine ⟨?_, kept⟩
      rw [withInLists]
      split
      next => exact positive
      next => exact kept
  | not operand below => exact ⟨Nat.succ_le_succ below.1, Nat.le_refl _⟩
  | atom leaf => exact ⟨Nat.le_refl _, Nat.le_refl _⟩

theorem operand_of_visited (settled : (link c left right).visited = link c left right) : left.withInLists = left := by
  cases c with
  | and =>
    rw [visited_and] at settled
    injection settled
  | or =>
    rw [visited_or] at settled
    injection settled

theorem rest_of_visited (form : (link c left right).ChainForm)
    (settled : (link c left right).visited = link c left right) : right.visited = right := by
  cases c with
  | and =>
    rw [visited_and] at settled
    injection settled with _ _ listed
    exact visited_of_withInLists listed
  | or =>
    rw [visited_or] at settled
    injection settled with _ _ chained
    exact (visited_eq_disjunctsInLists form.2.1).trans chained

/-! ### On the way through a pass -/

/-- A pass that has come across some parts of `e` has made `f` of it. -/
structure Advances (e f : Expr) : Prop where
  form : f.ChainForm
  links : ∀ c, f.isLink c = e.isLink c
  height : f.height ≤ e.height
  visited : f.visited = e.visited
  settled : e.visited = e → f = e
  /-- The operand of a link stays once it has been converted. -/
  operand : ∀ c left right, e = link c left right → left.withInLists = left → ∃ rest, f = link c left rest

namespace Advances

theorem refl (form : e.ChainForm) : e.Advances e where
  form := form
  links _ := rfl
  height := Nat.le_refl _
  visited := rfl
  settled _ := rfl
  operand _ _ right same _ := ⟨right, same⟩

theorem trans (first : e.Advances f) (second : f.Advances g) : e.Advances g where
  form := second.form
  links c := (second.links c).trans (first.links c)
  height := second.height.trans first.height
  visited := second.visited.trans first.visited
  settled done := by
    cases first.settled done
    exact second.settled done
  operand c left right same listed := by
    obtain ⟨rest, rfl⟩ := first.operand c left right same listed
    exact second.operand c left rest rfl listed

theorem listed (advances : e.Advances f) (form : e.ChainForm) : f.withInLists = e.withInLists :=
  withInLists_eq_of_visited form advances.form (advances.links .or) advances.visited

theorem whole (advances : e.Advances f) (whole : e.Whole c) : f.Whole c := by
  rcases whole with same | last
  · exact .inl ((advances.links c).trans same)
  · exact .inr ((advances.settled (by rw [last]; rfl)).trans last)

theorem chained (advances : e.Advances f) (whole : e.Whole .or) : f.disjunctsInLists = e.disjunctsInLists := by
  rw [← visited_eq_disjunctsInLists whole, ← visited_eq_disjunctsInLists (advances.whole whole), advances.visited]

/-- What a pass has made of an expression as a whole is not touched again. -/
theorem eq_of_listed (advances : e.withInLists.Advances f) (form : e.ChainForm) : f = e.withInLists :=
  advances.settled (visited_of_withInLists (withInLists_idempotent form).1)

theorem link {first second : Expr} (form : (link c left right).ChainForm) (lefts : left.Advances first)
    (rights : right.Advances second) : (link c left right).Advances (link c first second) where
  form := ⟨(lefts.links c).trans form.1, rights.whole form.2.1, lefts.form, rights.form⟩
  links _ := rfl
  height := Nat.succ_le_succ (max_le_max lefts.height rights.height)
  visited := by
    cases c with
    | and => rw [visited_and, visited_and, lefts.listed form.2.2.1, rights.listed form.2.2.2]
    | or => rw [visited_or, visited_or, lefts.listed form.2.2.1, rights.chained form.2.1]
  settled done := by
    rw [lefts.settled (visited_of_withInLists (operand_of_visited done)), rights.settled (rest_of_visited form done)]
  operand d kept rest same listed := by
    cases same
    exact ⟨second, by rw [lefts.settled (visited_of_withInLists listed)]⟩

/-- The step that a pass takes at a link. -/
theorem convert (form : (Expr.link c left right).ChainForm) :
    (Expr.link c left right).Advances (.link c left.withInLists right) where
  form := ⟨withInLists_isLink form.1, form.2.1, (listed_chainForm form.2.2.1).1, form.2.2.2⟩
  links _ := rfl
  height := Nat.succ_le_succ (max_le_max (listed_height_le left).1 (Nat.le_refl _))
  visited := by
    have again := (withInLists_idempotent form.2.2.1).1
    cases c with
    | and => rw [visited_and, visited_and, again]
    | or => rw [visited_or, visited_or, again]
  settled done := by rw [operand_of_visited done]
  operand d kept rest same listed := by
    cases same
    exact ⟨right, by rw [listed]⟩

/-- A link that has advanced is a link still, of operands that come to the same. -/
theorem of_link (advances : (Expr.link c left right).Advances f) (form : (Expr.link c left right).ChainForm) :
    ∃ first second, f = .link c first second ∧ first.withInLists = left.withInLists := by
  obtain ⟨first, second, rfl⟩ := eq_link_of_isLink ((advances.links c).trans (beq_self_eq_true c))
  refine ⟨first, second, rfl, ?_⟩
  have same := advances.visited
  cases c with
  | and =>
    rw [visited_and, visited_and] at same
    injection same
  | or =>
    rw [visited_or, visited_or] at same
    injection same

end Advances
end Expr

namespace Arena

variable {a b c : Arena} {id : NodeId} {e : Expr}

/-! ### Building chains -/

private def Groups (e : Expr) : Prop :=
  ∀ {a : Arena} {id : NodeId}, a.Stands id e → ∀ (c : Connective) (steps : Nat), 3 * e.height ≤ steps →
    ∃ ids b, groupOperands c steps id a = .ok (ids, b) ∧ Keeps a b ∅ ∧ List.Forall₂ b.Stands ids (e.operands c)

private def Chains (e : Expr) : Prop :=
  ∀ {a : Arena} {id : NodeId}, a.Stands id e → ∀ (steps : Nat), 3 * e.height ≤ steps + 1 →
    ∃ root b, toChain steps id a = .ok (root, b) ∧ Keeps a b ∅ ∧ b.Stands root e.chained

private theorem groups_link {k : Connective} {first second : Expr} (lefts : Groups first) (rights : Groups second)
    (stands : a.Stands id (.link k first second)) (steps : Nat)
    (enough : 3 * (Expr.link k first second).height ≤ steps + 2) :
    ∃ ids b, groupOperands k steps id a = .ok (ids, b) ∧ Keeps a b ∅ ∧
      List.Forall₂ b.Stands ids (first.operands k ++ second.operands k) := by
  cases stands with
  | link found left right =>
    simp only [Expr.height] at enough
    obtain ⟨steps, rfl⟩ := Nat.exists_eq_add_one.mpr (show 0 < steps by omega)
    obtain ⟨ids, b, runLeft, keepsLeft, standLeft⟩ := lefts left k steps (by omega)
    obtain ⟨more, d, runRight, keepsRight, standRight⟩ := rights (right.extend keepsLeft.extend) k steps (by omega)
    simp only [groupOperands, Edit.bind_run, Edit.fetch_run found, ok_bind, if_true, runLeft, runRight, Edit.pure_run]
    exact ⟨_, _, rfl, keepsLeft.trans keepsRight (by simp),
      List.rel_append (stands_extend standLeft keepsRight.extend) standRight⟩

private theorem groups_and_chains (free : e.NotFree) : Groups e ∧ Chains e := by
  induction e with
  | link k first second lefts rights =>
    have chains : Chains (.link k first second) := by
      intro a id stands steps enough
      have low : 2 ≤ (Expr.link k first second).height :=
        Nat.succ_le_succ (Nat.le_trans first.height_pos (Nat.le_max_left _ _))
      obtain ⟨steps, rfl⟩ := Nat.exists_eq_add_one.mpr (show 0 < steps by omega)
      obtain ⟨ids, b, run, keeps, stand⟩ := groups_link (lefts free.1).1 (rights free.2).1 stands steps (by omega)
      cases stands with
      | link found =>
        simp only [toChain, Edit.bind_run, Edit.fetch_run found, ok_bind, run, Edit.appendChain_run]
        exact ⟨_, _, rfl, keeps.trans (.chain b k ids) (by simp), addChain_stands k stand⟩
    refine ⟨?_, chains⟩
    intro a id stands d steps enough
    by_cases same : k = d
    · subst same
      simp only [Expr.operands, if_true]
      exact groups_link (lefts free.1).1 (rights free.2).1 stands _ (by omega)
    · have positive := (Expr.link k first second).height_pos
      obtain ⟨steps, rfl⟩ := Nat.exists_eq_add_one.mpr (show 0 < steps by omega)
      obtain ⟨root, b, run, keeps, stand⟩ := chains stands steps (by omega)
      cases stands with
      | link found =>
        simp only [groupOperands, Edit.bind_run, Edit.fetch_run found, ok_bind, if_neg same, run, Edit.pure_run,
          Expr.operands]
        exact ⟨_, _, rfl, keeps, .cons stand .nil⟩
  | not => exact free.elim
  | atom leaf =>
    have positive := (Expr.atom leaf).height_pos
    constructor
    · intro a id stands c steps enough
      obtain ⟨steps, rfl⟩ := Nat.exists_eq_add_one.mpr (show 0 < steps by omega)
      cases stands with
      | atom found =>
        simp only [groupOperands, Edit.bind_run, Edit.fetch_run found, ok_bind, Edit.pure_run, Expr.operands]
        split
        next => exact ⟨_, _, rfl, .refl a ∅, .nil⟩
        next => exact ⟨_, _, rfl, .refl a ∅, .cons (.atom found) .nil⟩
    · intro a id stands steps enough
      obtain ⟨steps, rfl⟩ := Nat.exists_eq_add_one.mpr (show 0 < steps by omega)
      cases stands with
      | atom found =>
        simp only [toChain, Edit.bind_run, Edit.fetch_run found, ok_bind, Edit.pure_run]
        exact ⟨_, _, rfl, .refl a ∅, .atom found⟩

private theorem rootChain_stands (stands : a.Stands id e) (free : e.NotFree) (steps : Nat)
    (enough : 3 * e.height ≤ steps) :
    ∃ root b, rootChain steps id a = .ok (root, b) ∧ Keeps a b ∅ ∧ b.Stands root e.rootChained := by
  obtain ⟨ids, b, run, keeps, stand⟩ := (groups_and_chains free).1 stands .and steps enough
  simp only [rootChain, Edit.bind_run, run, ok_bind, Expr.rootChained]
  cases operands : e.operands .and with
  | nil =>
    rw [operands] at stand
    cases stand
    have first : (b.push (.constant true)).Stands b.size (.constant true) := .atom ((get?_push b _ _).trans (if_pos rfl))
    exact ⟨_, _, rfl, (keeps.push _).trans (.chain _ .and [b.size]) (by simp),
      addChain_stands .and (.cons first .nil)⟩
  | cons first rest =>
    rw [operands] at stand
    cases stand with
    | @cons id _ ids _ head tail =>
      exact ⟨_, _, rfl, keeps.trans (.chain b .and (id :: ids)) (by simp), addChain_stands .and (.cons head tail)⟩

/-! ### Converting in place -/

/-- All that a pass does to an arena: every tree in chain form advances, and no link changes
its kind or what comes after its operand. -/
structure Progress (a b : Arena) : Prop where
  limit : b.limit = a.limit
  stands : ∀ id e, a.Stands id e → e.ChainForm → ∃ f, b.Stands id f ∧ e.Advances f
  rests : ∀ id k left right, a.get? id = some (.link k left right) → ∃ first, b.get? id = some (.link k first right)

namespace Progress

theorem refl (a : Arena) : Progress a a :=
  ⟨rfl, fun _ e stands form => ⟨e, stands, .refl form⟩, fun _ _ left _ found => ⟨left, found⟩⟩

theorem trans (first : Progress a b) (second : Progress b c) : Progress a c where
  limit := second.limit.trans first.limit
  stands id e stands form := by
    obtain ⟨f, between, advances⟩ := first.stands id e stands form
    obtain ⟨g, after, more⟩ := second.stands id f between advances.form
    exact ⟨g, after, advances.trans more⟩
  rests id k left right found := by
    obtain ⟨next, between⟩ := first.rests id k left right found
    exact second.rests id k next right between

theorem append (keeps : Keeps a b ∅) : Progress a b :=
  ⟨keeps.limit, fun _ e stands form => ⟨e, stands.extend keeps.extend, .refl form⟩,
    fun _ _ left _ found => ⟨left, keeps.extend _ _ found⟩⟩

/-- What stands for something lower than a node does not have the node below it. -/
private theorem frame (stands : a.Stands id e) {low : NodeId} {f : Expr} (below : a.Stands low f)
    (lower : f.height < e.height) (n : Node) : (a.set id n).Stands low f := by
  have other {i : NodeId} {g : Expr} (stand : a.Stands i g) (under : g.height < e.height) : i ≠ id := by
    intro same
    subst same
    rw [stand.unique stands] at under
    exact Nat.lt_irrefl _ under
  have same {i : NodeId} (different : i ≠ id) : (a.set id n).get? i = a.get? i :=
    (get?_set a n stands.lt_size i).trans (if_neg (Ne.symm different))
  induction below with
  | link found left right lefts rights =>
    have apart := other (.link found left right) lower
    simp only [Expr.height] at lower
    exact .link ((same apart).trans found) (lefts (by omega)) (rights (by omega))
  | not found under ih =>
    have apart := other (.not found under) lower
    simp only [Expr.height] at lower
    exact .not ((same apart).trans found) (ih (by omega))
  | atom found => exact .atom ((same (other (.atom found) lower)).trans found)

/-- What has the node below it advances as the node does. -/
private theorem above {f : Expr} {n : Node} (stands : a.Stands id e) (here : (a.set id n).Stands id f)
    (advances : e.Advances f) {high : NodeId} {g : Expr} (stand : a.Stands high g) (form : g.ChainForm) :
    ∃ h, (a.set id n).Stands high h ∧ g.Advances h := by
  have same {i : NodeId} (different : i ≠ id) : (a.set id n).get? i = a.get? i :=
    (get?_set a n stands.lt_size i).trans (if_neg (Ne.symm different))
  induction stand with
  | @link i _ _ _ _ _ found left right lefts rights =>
    by_cases place : i = id
    · subst place
      cases stands.unique (.link found left right)
      exact ⟨f, here, advances⟩
    · obtain ⟨_, before, first⟩ := lefts form.2.2.1
      obtain ⟨_, after, second⟩ := rights form.2.2.2
      exact ⟨_, .link ((same place).trans found) before after, .link form first second⟩
  | not => exact form.elim
  | @atom i _ found =>
    by_cases place : i = id
    · subst place
      cases stands.of_atom found
      exact ⟨f, here, advances⟩
    · exact ⟨_, .atom ((same place).trans found), .refl trivial⟩

/-- The operand of a link is led to what the pass has made of it. -/
private theorem relink {k : Connective} {old left right : NodeId} {first second : Expr}
    (found : a.get? id = some (.link k old right)) (stands : a.Stands id (.link k first second))
    (form : (Expr.link k first second).ChainForm) (converted : a.Stands left first.withInLists) :
    Progress a (a.set id (.link k left right)) ∧
      (a.set id (.link k left right)).Stands id (.link k first.withInLists second) := by
  have written := (get?_set a (.link k left right) stands.lt_size id).trans (if_pos rfl)
  obtain ⟨_, _, same, _, rights⟩ := stands.of_link found
  cases same
  have low := (Expr.listed_height_le first).1
  have lower : first.withInLists.height < (Expr.link k first second).height := by
    simp only [Expr.height]
    omega
  have lowerRest : second.height < (Expr.link k first second).height := by
    simp only [Expr.height]
    omega
  have here : (a.set id (.link k left right)).Stands id (.link k first.withInLists second) :=
    .link written (frame stands converted lower _) (frame stands rights lowerRest _)
  refine ⟨⟨rfl, fun i e stand form' => above stands here (.convert form) stand form', ?_⟩, here⟩
  intro i d before after found'
  by_cases place : i = id
  · subst place
    cases found.symm.trans found'
    exact ⟨left, written⟩
  · exact ⟨before, ((get?_set a _ stands.lt_size i).trans (if_neg (Ne.symm place))).trans found'⟩

/-- Where a link has advanced, its operand can be led to what the pass has made of it. -/
theorem convert {k : Connective} {left right fresh : NodeId} {first second rest : Expr} (step : Progress a b)
    (found : a.get? id = some (.link k left right)) (stands : a.Stands id (.link k first second))
    (form : (Expr.link k first second).ChainForm) (converted : b.Stands fresh first.withInLists)
    (after : b.Stands right rest) :
    Progress a (b.set id (.link k fresh right)) ∧
      (b.set id (.link k fresh right)).Stands id (.link k first.withInLists rest) := by
  obtain ⟨f, here, advances⟩ := step.stands id _ stands form
  obtain ⟨first', rest', rfl, same⟩ := advances.of_link form
  obtain ⟨old, found'⟩ := step.rests id k left right found
  obtain ⟨_, _, parts, _, unchanged⟩ := here.of_link found'
  cases parts
  cases unchanged.unique after
  obtain ⟨more, now⟩ := relink found' here advances.form (same ▸ converted)
  exact ⟨step.trans more, same ▸ now⟩

end Progress

private def Converts (steps : Nat) : Prop :=
  ∀ {a : Arena} {id : NodeId} {e : Expr}, a.Stands id e → e.ChainForm → 2 * e.height ≤ steps →
    ∃ root b, toInLists steps id a = .ok (root, b) ∧ Progress a b ∧ b.Stands root e.withInLists ∧
      (e.isLink .or = false → root = id)

private def ConvertsChain (steps : Nat) : Prop :=
  ∀ {a : Arena} {id : NodeId} {e : Expr}, a.Stands id e → e.ChainForm → e.Whole .or → 2 * e.height ≤ steps + 1 →
    ∃ b, disjunctsToInLists steps id a = .ok ((), b) ∧ Progress a b ∧ b.Stands id e.disjunctsInLists

private theorem converts_and {steps : Nat} (expressions : Converts steps) {left right : NodeId} {first second : Expr}
    (found : a.get? id = some (.link .and left right)) (lefts : a.Stands left first) (rights : a.Stands right second)
    (form : (Expr.link .and first second).ChainForm) (enough : 2 * (Expr.link .and first second).height ≤ steps + 1) :
    ∃ b, toInLists (steps + 1) id a = .ok (id, b) ∧ Progress a b ∧
      b.Stands id (.link .and first.withInLists second.withInLists) := by
  have ⟨_, ends, formLeft, formRight⟩ := form
  simp only [Expr.height] at enough
  obtain ⟨l, b, runLeft, stepLeft, doneLeft, _⟩ := expressions lefts formLeft (by omega)
  obtain ⟨second', before, advances⟩ := stepLeft.stands right second rights formRight
  have low := advances.height
  obtain ⟨r, c, runRight, stepRight, doneRight, same⟩ := expressions before advances.form (by omega)
  -- The right side is part of the conjunction, or its end, and stays in its place.
  have other : second'.isLink .or = false := by
    rw [advances.links .or]
    rcases ends with more | last
    · obtain ⟨_, _, rfl⟩ := Expr.eq_link_of_isLink more
      rfl
    · rw [last]
      rfl
  cases same other
  obtain ⟨kept, keptLeft, onwards⟩ := stepRight.stands l _ doneLeft (Expr.listed_chainForm formLeft).1
  cases onwards.eq_of_listed formLeft
  rw [advances.listed formRight] at doneRight
  obtain ⟨step, now⟩ := (stepLeft.trans stepRight).convert found (.link found lefts rights) form keptLeft doneRight
  simp only [toInLists, Edit.bind_run, Edit.fetch_run found, ok_bind, runLeft, runRight, Edit.store_run,
    Edit.pure_run]
  exact ⟨_, rfl, step, now⟩

private theorem converts_step {steps : Nat} (expressions : Converts steps) (chains : ConvertsChain steps) :
    Converts (steps + 1) := by
  intro a id e stands form enough
  have whole := stands
  cases stands with
  | @link _ k _ _ first second found lefts rights =>
    cases k with
    | and =>
      obtain ⟨b, run, step, done⟩ := converts_and expressions found lefts rights form enough
      exact ⟨id, b, run, step, done, fun _ => rfl⟩
    | or =>
      have asked : Edit.ask (·.inListAt? id) a = .ok ((Expr.link .or first second).inList?, a) :=
        Edit.ask_run (inListAt?_eq whole)
      simp only [toInLists, Edit.bind_run, Edit.fetch_run found, ok_bind, asked]
      cases list : (Expr.link .or first second).inList? with
      | some leaf =>
        refine ⟨_, _, rfl, .append ((Keeps.refl a ∅).push (.atom leaf)), ?_, fun other => by cases other⟩
        simp only [Expr.withInLists, list]
        exact .atom ((get?_push a _ _).trans (if_pos rfl))
      | none =>
        obtain ⟨b, run, step, done⟩ := chains whole form (.inl rfl) (by omega)
        simp only [Edit.bind_run, run, ok_bind, Edit.pure_run]
        rw [Expr.withInLists_eq_disjunctsInLists rfl list]
        exact ⟨_, _, rfl, step, done, fun _ => rfl⟩
  | not => exact form.elim
  | atom found =>
    simp only [toInLists, Edit.bind_run, Edit.fetch_run found, ok_bind, Edit.pure_run]
    exact ⟨_, _, rfl, .refl a, whole, fun _ => rfl⟩

/-- The rest of a chain may be edited before its turn, but not its node, whose operand is done with. -/
private theorem convertsChain_step {steps : Nat} (expressions : Converts steps) (chains : ConvertsChain steps) :
    ConvertsChain (steps + 1) := by
  intro a id e stands form shape enough
  have whole := stands
  cases stands with
  | @link _ k left right first second found lefts rights =>
    have ⟨other, ends, formLeft, formRight⟩ := form
    have disjunction : k = .or := by
      rcases shape with same | last
      · exact beq_iff_eq.mp same
      · cases last
    subst disjunction
    simp only [Expr.height] at enough
    obtain ⟨l, b, runLeft, stepLeft, doneLeft, _⟩ := expressions lefts formLeft (by omega)
    obtain ⟨second', before, advances⟩ := stepLeft.stands right second rights formRight
    have low := advances.height
    obtain ⟨step, now⟩ := stepLeft.convert found whole form doneLeft before
    obtain ⟨_, found'⟩ := stepLeft.rests id .or left right found
    have written : (b.set id (.link .or l right)).get? id = some (.link .or l right) :=
      (get?_set b _ (lt_size_of_get? found') id).trans (if_pos rfl)
    obtain ⟨_, _, parts, _, after⟩ := now.of_link written
    cases parts
    obtain ⟨d, runRight, stepRight, doneRight⟩ := chains after advances.form (advances.whole ends) (by omega)
    rw [advances.chained ends] at doneRight
    have advanced : (Expr.link .or first.withInLists second').ChainForm :=
      ⟨Expr.withInLists_isLink other, advances.whole ends, (Expr.listed_chainForm formLeft).1, advances.form⟩
    obtain ⟨f, here, further⟩ := stepRight.stands id _ now advanced
    obtain ⟨rest, rfl⟩ := further.operand _ _ _ rfl (Expr.withInLists_idempotent formLeft).1
    obtain ⟨_, found''⟩ := stepRight.rests id _ _ _ written
    obtain ⟨_, _, parts, _, last⟩ := here.of_link found''
    cases parts
    cases last.unique doneRight
    simp only [disjunctsToInLists, Edit.bind_run, Edit.fetch_run found, ok_bind, runLeft, Edit.store_run, runRight]
    exact ⟨_, rfl, step.trans stepRight, here⟩
  | not => exact form.elim
  | atom found =>
    simp only [disjunctsToInLists, Edit.bind_run, Edit.fetch_run found, ok_bind, Edit.pure_run]
    exact ⟨_, rfl, .refl a, whole⟩

private theorem converts (steps : Nat) : Converts steps ∧ ConvertsChain steps := by
  induction steps with
  | zero =>
    constructor
    · intro a id e stands form enough
      have positive := e.height_pos
      omega
    · intro a id e stands form shape enough
      have positive := e.height_pos
      omega
  | succ steps ih => exact ⟨converts_step ih.1 ih.2, convertsChain_step ih.1 ih.2⟩

theorem Stands.congr (stands : a.Stands id e) (nodes : b.nodes = a.nodes) : b.Stands id e :=
  stands.extend fun i n found => by
    simp only [get?, nodes]
    exact found

theorem chained_stands (stands : a.Stands a.root e) (free : e.NotFree) :
    ∃ b, a.chained = .ok b ∧ b.Stands b.root e.rootChained ∧ b.limit = a.limit := by
  have enough : 3 * e.height ≤ a.chainSteps := by
    have low := stands.height_le
    have room : a.size < 2 ^ a.size := Nat.lt_two_pow_self
    simp only [chainSteps, Nat.pow_eq, Nat.pow_add]
    omega
  obtain ⟨root, b, run, keeps, done⟩ := rootChain_stands stands free a.chainSteps enough
  refine ⟨{ b with root }, ?_, done.congr rfl, keeps.limit⟩
  simp only [chained, Edit.onRoot, run]
  rfl

theorem withInLists_stands (stands : a.Stands a.root e) (form : e.ChainForm) :
    ∃ b, a.withInLists = .ok b ∧ b.Stands b.root e.withInLists ∧ b.limit = a.limit := by
  have enough : 2 * e.height ≤ a.listSteps := by
    have low := stands.height_le
    simp only [listSteps]
    omega
  obtain ⟨root, b, run, step, done, _⟩ := (converts a.listSteps).1 stands form enough
  refine ⟨{ b with root }, ?_, done.congr rfl, step.limit⟩
  simp only [withInLists, Edit.onRoot, run]
  rfl

end Arena
end Selectivity
