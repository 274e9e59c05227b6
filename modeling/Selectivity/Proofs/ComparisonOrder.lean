import Selectivity.Binary64
import Selectivity.Proofs.CompositionOrder
import Selectivity.Proofs.EstimatorSteps
import Selectivity.Proofs.MergeOrder
import Selectivity.Statistics.Table

/-! Comparisons of one operand under one qualifier, in any order. What a comparison is
merged with may depend on the order. The recorded estimates do not depend on it exactly
if those of any three of the comparisons do not. -/

namespace Selectivity.PathEstimator

variable {α : Type} [Quantity α]

namespace Restriction

/-- What becomes of a recorded estimate that a comparison is merged with. -/
def joined? (path : AccessPath α) (provider : Provider α) (operand : Operand) (d : Restriction α) :
    EstimateKind α → Option (EstimateKind α)
  | .range r => (d.narrowed? provider operand r).map .range
  | .notEquals value => (d.taking? path provider operand value).map .range
  | _ => none

variable {path : AccessPath α} {provider : Provider α} {operand : Operand}

/-- Nothing is merged with a range that is bounded on both sides. -/
theorem joined?_closed (d : Restriction α) {r : Range α} (closed : r.isOpenEnded = false) :
    d.joined? path provider operand (.range r) = none := by
  obtain ⟨start, stop⟩ := Bool.or_eq_false_iff.mp closed
  cases d with
  | equal _ => rfl
  | unequal value => simp only [joined?, narrowed?, Range.absorb?, closed, Bool.not_false, if_true, Option.map_none]
  | bounded side bound => cases side <;> simp [joined?, narrowed?, Side.openIn, start, stop]

theorem equal_joined? (value : Scalar α) (k : EstimateKind α) :
    (equal value).joined? path provider operand k = none := by
  cases k <;> rfl

theorem joined?_equal (d : Restriction α) (value : Scalar α) :
    d.joined? path provider operand ((equal value).fresh path operand) = none :=
  joined?_closed d rfl

theorem unequal_joined?_unequal (value other : Scalar α) :
    (unequal value).joined? path provider operand ((unequal other).fresh path operand) = none := rfl

theorem joined?_symm (d e : Restriction α) : d.joined? path provider operand (e.fresh path operand) =
    e.joined? path provider operand (d.fresh path operand) := by
  cases d with
  | equal value => rw [equal_joined?, joined?_equal]
  | unequal value =>
    cases e with
    | equal other => rw [equal_joined?, joined?_equal]
    | unequal other => rfl
    | bounded side bound => rfl
  | bounded side bound =>
    cases e with
    | equal other => rw [equal_joined?, joined?_equal]
    | unequal other => rfl
    | bounded side' bound' => cases side <;> cases side' <;> rfl

/-- Two comparisons that do not merge, or not to anything that can be merged with. -/
def Settles (path : AccessPath α) (provider : Provider α) (operand : Operand) (d e : Restriction α) : Prop :=
  ∀ f : Restriction α, ∀ j, d.joined? path provider operand (e.fresh path operand) = some j →
    f.joined? path provider operand j = none

theorem equal_settles (value : Scalar α) (e : Restriction α) : Settles path provider operand (equal value) e := by
  intro f j joins
  cases (equal_joined? value _).symm.trans joins

theorem settles_equal (d : Restriction α) (value : Scalar α) : Settles path provider operand d (equal value) := by
  intro f j joins
  cases (joined?_equal d value).symm.trans joins

theorem unequal_settles (value other : Scalar α) :
    Settles path provider operand (unequal value) (unequal other) := by
  intro f j joins
  cases (unequal_joined?_unequal value other).symm.trans joins

/-- A lower and an upper bound make a closed range. -/
theorem bounded_settles (side side' : Side) (bound bound' : Bound α) :
    Settles path provider operand (bounded side bound) (bounded side' bound') := by
  intro f j joins
  cases side with
  | lower =>
    cases side' with
    | lower => cases joins
    | upper =>
      cases joins
      exact joined?_closed f rfl
  | upper =>
    cases side' with
    | lower =>
      cases joins
      exact joined?_closed f rfl
    | upper => cases joins

/-- Of three comparisons one is an equality, or two are of one kind. -/
theorem settles_two (d e f : Restriction α) : Settles path provider operand d e ∨
    Settles path provider operand d f ∨ Settles path provider operand e f := by
  cases d with
  | equal value => exact .inl (equal_settles value e)
  | unequal value =>
    cases e with
    | equal other => exact .inl (settles_equal _ other)
    | unequal other => exact .inl (unequal_settles value other)
    | bounded side bound =>
      cases f with
      | equal other => exact .inr (.inl (settles_equal _ other))
      | unequal other => exact .inr (.inl (unequal_settles value other))
      | bounded side' bound' => exact .inr (.inr (bounded_settles side side' bound bound'))
  | bounded side bound =>
    cases e with
    | equal other => exact .inl (settles_equal _ other)
    | bounded side' bound' => exact .inl (bounded_settles side side' bound bound')
    | unequal value =>
      cases f with
      | equal other => exact .inr (.inl (settles_equal _ other))
      | unequal other => exact .inr (.inr (unequal_settles value other))
      | bounded side' bound' => exact .inr (.inl (bounded_settles side side' bound bound'))

end Restriction

section Comparisons

variable (start : PathEstimator α) (operand : Operand)

omit [Quantity α] in
/-- What a comparison asks for, if its constant is not null. -/
def asked (c : Comparator × Scalar α) : Option (Restriction α) :=
  if c.2.isNull then none else restriction? c.1 c.2

/-- What a comparison is recorded as if it is merged with nothing. -/
def plainly (c : Comparator × Scalar α) : EstimateKind α :=
  match asked c with
  | some d => d.fresh start.path operand
  | none => start.plainKind (Predicate.comparison operand c.1 c.2)

def joined? (c : Comparator × Scalar α) (k : EstimateKind α) : Option (EstimateKind α) :=
  (asked c).bind fun d => d.joined? start.path start.provider operand k

variable {start operand} {c : Comparator × Scalar α}

theorem joined?_of_asked {d : Restriction α} (asks : asked c = some d) (k : EstimateKind α) :
    joined? start operand c k = d.joined? start.path start.provider operand k := by
  rw [joined?, asks, Option.bind_some]

theorem joined?_of_none (idle : asked c = none) (k : EstimateKind α) : joined? start operand c k = none := by
  rw [joined?, idle, Option.bind_none]

omit [Quantity α] in
theorem plainly_of_asked {d : Restriction α} (asks : asked c = some d) :
    plainly start operand c = d.fresh start.path operand := by
  simp only [plainly, asks]

/-- Nothing is merged with a null test, or with a comparison with null. -/
theorem Restriction.joined?_plainly (idle : asked c = none) (d : Restriction α) :
    d.joined? start.path start.provider operand (plainly start operand c) = none := by
  obtain ⟨op, value⟩ := c
  simp only [plainly, idle]
  cases op with
  | eq | ne | gt | ge | lt | le => rfl
  | isNull | isNotNull => rfl

theorem joined?_symm (x y : Comparator × Scalar α) :
    joined? start operand x (plainly start operand y) = joined? start operand y (plainly start operand x) := by
  cases asksX : asked x with
  | none =>
    rw [joined?_of_none asksX]
    cases asksY : asked y with
    | none => rw [joined?_of_none asksY]
    | some e => rw [joined?_of_asked asksY, Restriction.joined?_plainly asksX]
  | some d =>
    rw [joined?_of_asked asksX, plainly_of_asked asksX]
    cases asksY : asked y with
    | none => rw [joined?_of_none asksY, Restriction.joined?_plainly asksY]
    | some e => rw [joined?_of_asked asksY, plainly_of_asked asksY, Restriction.joined?_symm]

theorem joined?_settled {x y : Comparator × Scalar α} {d e : Restriction α} {j : EstimateKind α}
    (asksX : asked x = some d) (asksY : asked y = some e) (settles : d.Settles start.path start.provider operand e)
    (joins : joined? start operand x (plainly start operand y) = some j) (z : Comparator × Scalar α) :
    joined? start operand z j = none := by
  rw [joined?_of_asked asksX, plainly_of_asked asksY] at joins
  cases asksZ : asked z with
  | none => exact joined?_of_none asksZ j
  | some f => exact (joined?_of_asked asksZ j).trans (settles f j joins)

/-- Some two of three comparisons do not merge, or not to anything that the third merges with. -/
theorem joined?_loose (x y z : Comparator × Scalar α) : ∃ a b c : Comparator × Scalar α, [a, b, c].Perm [x, y, z] ∧
    ∀ j, joined? start operand a (plainly start operand b) = some j → joined? start operand c j = none := by
  have swapped : [x, z, y].Perm [x, y, z] := (List.Perm.swap y z []).cons x
  have rotated : [y, z, x].Perm [x, y, z] := @List.perm_append_comm _ [y, z] [x]
  cases asksX : asked x with
  | none => exact ⟨x, y, z, .refl _, fun j joins => by cases (joined?_of_none asksX _).symm.trans joins⟩
  | some d =>
    cases asksY : asked y with
    | none => exact ⟨y, z, x, rotated, fun j joins => by cases (joined?_of_none asksY _).symm.trans joins⟩
    | some e =>
      cases asksZ : asked z with
      | none =>
        refine ⟨z, y, x, List.reverse_perm [x, y, z], fun j joins => ?_⟩
        cases (joined?_of_none asksZ _).symm.trans joins
      | some f =>
        rcases Restriction.settles_two d e f with settles | settles | settles
        · exact ⟨x, y, z, .refl _, fun j joins => joined?_settled asksX asksY settles joins z⟩
        · exact ⟨x, z, y, swapped, fun j joins => joined?_settled asksX asksZ settles joins y⟩
        · exact ⟨y, z, x, rotated, fun j joins => joined?_settled asksY asksZ settles joins x⟩

variable (start operand) in
/-- Comparisons are recorded as new estimates, or merged. -/
def merging : Merging (Comparator × Scalar α) (EstimateKind α) where
  plain := plainly start operand
  join? := joined? start operand
  symm := joined?_symm
  loose := joined?_loose

/-! ### Calls as steps -/

/-- The estimate that a comparison without flags is recorded as. -/
def unflagged (operand : Operand) (q : Qualifier) (kind : EstimateKind α) : Estimate α :=
  { operand := some operand, qualifier := q, kind }

variable {q : Qualifier}

omit [Quantity α] in
theorem unflagged_injective : Function.Injective (unflagged (α := α) operand q) :=
  fun _ _ same => congrArg Estimate.kind same

omit [Quantity α] in
theorem unflagged_concerns (kind : EstimateKind α) : (unflagged operand q kind).concerns operand q = true := by
  simp [unflagged, Estimate.concerns]

private theorem joined?_eq_none {d : Restriction α} {k : EstimateKind α}
    (kept : narrows? start.provider operand q d (unflagged operand q k) = none)
    (left : takes? start.path start.provider operand q d (unflagged operand q k) = none) :
    d.joined? start.path start.provider operand k = none := by
  apply Option.eq_none_iff_forall_ne_some.mpr
  intro j joins
  cases k with
  | range r =>
    obtain ⟨s, narrows, rfl⟩ := Option.map_eq_some_iff.mp joins
    cases kept.symm.trans (narrows?_eq_some.mpr ⟨unflagged_concerns _, r, s, rfl, narrows, rfl⟩)
  | notEquals value =>
    obtain ⟨s, takes, rfl⟩ := Option.map_eq_some_iff.mp joins
    cases left.symm.trans (takes?_eq_some.mpr ⟨unflagged_concerns _, value, rfl, takes⟩)
  | null | notNull | default _ => cases joins

omit [Quantity α] in
private theorem coe_middle (first rest : List (EstimateKind α)) (k : EstimateKind α) :
    ((first ++ k :: rest : List (EstimateKind α)) : Multiset (EstimateKind α)) =
      k ::ₘ ((first ++ rest : List (EstimateKind α)) : Multiset (EstimateKind α)) :=
  Multiset.coe_eq_coe.mpr List.perm_middle

private theorem Restricts.step {d : Restriction α} {ks : List (EstimateKind α)} {fs : List (Estimate α)}
    (asks : asked c = some d) (restricts : Restricts start.path start.provider operand q d
      (Predicate.comparison operand c.1 c.2) (ks.map (unflagged operand q)) fs) :
    ∃ ls : List (EstimateKind α), fs = ls.map (unflagged operand q) ∧ (merging start operand).Step c ks ls := by
  have joins {k j : EstimateKind α} (joins : d.joined? start.path start.provider operand k = some j) :
      (merging start operand).join? c k = some j := (joined?_of_asked asks k).trans joins
  cases restricts with
  | @narrowed before e after r s found =>
    obtain ⟨first, rest, rfl, rfl, split⟩ := List.map_eq_append_iff.mp found.split
    obtain ⟨k, rest, rfl, rfl, rfl⟩ := List.map_eq_cons_iff.mp split
    cases found.kind
    refine ⟨first ++ .range s :: rest, by simp [unflagged], ?_⟩
    rw [coe_middle, coe_middle]
    exact .joined rfl (joins (congrArg (Option.map EstimateKind.range) found.narrows))
  | @taken before e after value s kept found =>
    obtain ⟨first, rest, rfl, rfl, split⟩ := List.map_eq_append_iff.mp found.split
    obtain ⟨k, rest, rfl, rfl, rfl⟩ := List.map_eq_cons_iff.mp split
    cases found.kind
    refine ⟨first ++ rest ++ [.range s], by simp [entry, unflagged, Predicate.comparison], ?_⟩
    rw [coe_middle, coe_middle, List.append_nil]
    exact .joined rfl (joins (congrArg (Option.map EstimateKind.range) found.takes))
  | recorded kept left =>
    refine ⟨ks ++ [d.fresh start.path operand], by simp [entry, unflagged, Predicate.comparison], ?_⟩
    rw [coe_middle, List.append_nil, ← plainly_of_asked asks]
    refine .plain fun k member => ?_
    have here := List.mem_map_of_mem (f := unflagged operand q) (Multiset.mem_coe.mp member)
    exact (joined?_of_asked asks k).trans (joined?_eq_none (kept _ here) (left _ here))

/-- One call is one step. -/
theorem added_step (start : PathEstimator α) (operand : Operand) (q : Qualifier) (c : Comparator × Scalar α)
    {ks : List (EstimateKind α)} (before : start.recorded = ks.map (unflagged operand q)) :
    ∃ (ls : List (EstimateKind α)) (missing : List Operand),
      start.added (Predicate.comparison operand c.1 c.2) q =
        { start with recorded := ls.map (unflagged operand q), missing } ∧
      (merging start operand).Step c ks ls := by
  obtain ⟨es, missing, result, recorded⟩ := start.added_cases (Predicate.comparison operand c.1 c.2) q
  have restriction : (Predicate.comparison operand c.1 c.2).restriction? = (asked c).map (operand, ·) := by
    rw [asked]
    simp only [Predicate.restriction?, Predicate.comparison]
    split <;> rfl
  rw [restriction, before] at recorded
  cases asks : asked c with
  | some d =>
    rw [asks] at recorded
    obtain ⟨ls, rfl, step⟩ := Restricts.step asks recorded
    exact ⟨ls, missing, result, step⟩
  | none =>
    rw [asks] at recorded
    refine ⟨ks ++ [plainly start operand c], missing, ?_, ?_⟩
    · rw [result, recorded]
      simp [entry, unflagged, plainly, asks, Predicate.comparison]
    · rw [coe_middle, List.append_nil]
      exact .plain fun k _ => joined?_of_none asks k

def comparisons (operand : Operand) (q : Qualifier) (cs : List (Comparator × Scalar α)) :
    List (Predicate α × Qualifier) :=
  cs.map fun c => (Predicate.comparison operand c.1 c.2, q)

theorem addedAll_run (start : PathEstimator α) (operand : Operand) (q : Qualifier) (cs : List (Comparator × Scalar α))
    {ks : List (EstimateKind α)} (before : start.recorded = ks.map (unflagged operand q)) :
    ∃ ls : List (EstimateKind α),
      (start.addedAll (comparisons operand q cs)).recorded = ls.map (unflagged operand q) ∧
      (merging start operand).Run cs ks ls := by
  induction cs generalizing start ks with
  | nil => exact ⟨ks, before, .done⟩
  | cons c cs ih =>
    obtain ⟨ls, missing, result, step⟩ := start.added_step operand q c before
    obtain ⟨ms, recorded, run⟩ := ih (start.added (Predicate.comparison operand c.1 c.2) q) (by rw [result])
    refine ⟨ms, recorded, .next step ?_⟩
    rw [result] at run
    exact run

/-! ### When the order does not matter -/

/-- Two comparisons are not bounds on one side, and none of them excludes what the other takes in. -/
structure Compatible (start : PathEstimator α) (operand : Operand) (x y : Comparator × Scalar α) : Prop where
  sides : ∀ {side b b'}, asked x = some (.bounded side b) → asked y ≠ some (.bounded side b')
  apart : ∀ {value}, asked x = some (.unequal value) ∨ asked y = some (.unequal value) →
    joined? start operand x (plainly start operand y) = none

theorem Compatible.symm {x y : Comparator × Scalar α} (compatible : Compatible start operand x y) :
    Compatible start operand y x where
  sides asksY asksX := compatible.sides asksX asksY
  apart unequal := (joined?_symm y x).trans (compatible.apart unequal.symm)

/-- What merges then is a lower with an upper bound. -/
theorem Compatible.opposite {x y : Comparator × Scalar α} {j : EstimateKind α}
    (compatible : Compatible start operand x y) (joins : joined? start operand x (plainly start operand y) = some j) :
    ∃ side side' b b', side ≠ side' ∧ asked x = some (.bounded side b) ∧ asked y = some (.bounded side' b') := by
  have joins' := (joined?_symm y x).trans joins
  cases asksX : asked x with
  | none => cases (joined?_of_none asksX _).symm.trans joins
  | some d =>
    cases asksY : asked y with
    | none => cases (joined?_of_none asksY _).symm.trans joins'
    | some e =>
      rw [joined?_of_asked asksX] at joins
      rw [joined?_of_asked asksY] at joins'
      cases d with
      | equal value => cases (Restriction.equal_joined? value _).symm.trans joins
      | unequal value =>
        cases ((joined?_of_asked asksX _).symm.trans (compatible.apart (.inl asksX))).symm.trans joins
      | bounded side b =>
        cases e with
        | equal value => cases (Restriction.equal_joined? value _).symm.trans joins'
        | unequal value =>
          cases ((joined?_of_asked asksX _).symm.trans (compatible.apart (.inr asksY))).symm.trans joins
        | bounded side' b' =>
          refine ⟨side, side', b, b', ?_, rfl, rfl⟩
          rintro rfl
          exact compatible.sides asksX asksY

private theorem Compatible.of_le {cs : List (Comparator × Scalar α)} (pairs : cs.Pairwise (Compatible start operand))
    {x y : Comparator × Scalar α} (within : ([x, y] : Multiset (Comparator × Scalar α)) ≤ cs) :
    Compatible start operand x y := by
  obtain ⟨few, perm, sub⟩ := Multiset.coe_le.mp within
  have pair : [x, y].Pairwise (Compatible start operand) := (pairs.sublist sub).perm perm Compatible.symm
  exact List.rel_of_pairwise_cons pair (List.mem_singleton_self y)

/-- With one lower and one upper bound at most, and nothing excluded at their edges, any order will do. -/
theorem Compatible.settled {cs : List (Comparator × Scalar α)} (pairs : cs.Pairwise (Compatible start operand)) :
    (merging start operand).Settled cs where
  inert {x y z j} within joins := by
    have pair : ([x, y] : Multiset (Comparator × Scalar α)) ≤ cs :=
      le_trans (Multiset.cons_le_cons x (Multiset.cons_le_cons y (Multiset.zero_le {z}))) within
    obtain ⟨side, side', b, b', _, asksX, asksY⟩ := (of_le pairs pair).opposite joins
    exact joined?_settled asksX asksY (Restriction.bounded_settles side side' b b') joins z
  exchange {x y z j k} within joins joins' := by
    have first : ([x, y] : Multiset (Comparator × Scalar α)) ≤ cs :=
      le_trans (Multiset.cons_le_cons x (Multiset.cons_le_cons y (Multiset.zero_le {z}))) within
    have second : ([x, z] : Multiset (Comparator × Scalar α)) ≤ cs :=
      le_trans (Multiset.cons_le_cons x (Multiset.le_cons_self {z} y)) within
    have third : ([y, z] : Multiset (Comparator × Scalar α)) ≤ cs := le_trans (Multiset.le_cons_self _ x) within
    obtain ⟨side, side', b, b', differ, asksX, asksY⟩ := (of_le pairs first).opposite joins
    obtain ⟨side, side'', b, b'', differ', asksX', asksZ⟩ := (of_le pairs second).opposite joins'
    cases asksX.symm.trans asksX'
    -- There are but two sides, so `y` and `z` are bounds on the same one.
    have same : side' = side'' := by cases side <;> cases side' <;> cases side'' <;> simp_all
    subst same
    exact absurd asksZ ((of_le pairs third).sides asksY)

end Comparisons

/-! ### What all orders record -/

section Recorded

variable {est other : PathEstimator Float}

theorem totalSelectivity_perm (path : est.path = other.path) (provider : est.provider = other.provider)
    (settings : est.settings = other.settings) (perm : est.recorded.Perm other.recorded) :
    est.totalSelectivity = other.totalSelectivity := by
  rw [totalSelectivity, totalSelectivity, composed, composed, path, provider, settings]
  exact compose_perm ((perm.filter _).map _)

/-- Comparisons of one operand may come in any order exactly if any three of them may, and
then they have the same selectivity in every order. -/
theorem recorded_perm_iff (path : AccessPath Float) (provider : Provider Float) (settings : Settings Float)
    (operand : Operand) (q : Qualifier) (cs : List (Comparator × Scalar Float)) :
    let start : PathEstimator Float := { path, provider, settings }
    (merging start operand).Settled cs ↔ ∀ xs ys : List (Comparator × Scalar Float), xs.Subperm cs → xs.Perm ys →
      ∃ est other, start.addAll (comparisons operand q xs) = .ok est ∧
        start.addAll (comparisons operand q ys) = .ok other ∧ est.recorded.Perm other.recorded ∧
        est.totalSelectivity = other.totalSelectivity := by
  intro start
  have run (xs : List (Comparator × Scalar Float)) : ∃ ks : List (EstimateKind Float),
      (start.addedAll (comparisons operand q xs)).recorded = ks.map (unflagged operand q) ∧
      (merging start operand).Run xs 0 ks := start.addedAll_run operand q xs rfl
  choose kinds recorded runs using run
  have settled : (merging start operand).Settled cs ↔ ∀ xs ys : List (Comparator × Scalar Float),
      (xs : Multiset (Comparator × Scalar Float)) ≤ cs → xs.Perm ys →
      (kinds xs : Multiset (EstimateKind Float)) = kinds ys := Merging.settled_iff fun xs _ => runs xs
  rw [settled]
  refine forall_congr' fun xs => forall_congr' fun ys => forall_congr' fun _ => forall_congr' fun _ => ?_
  rw [Multiset.coe_eq_coe]
  obtain ⟨samePath, sameProvider, sameSettings⟩ := start.addedAll_fields (comparisons operand q xs)
  obtain ⟨samePath', sameProvider', sameSettings'⟩ := start.addedAll_fields (comparisons operand q ys)
  constructor
  · intro perm
    have recorded' : (start.addedAll (comparisons operand q xs)).recorded.Perm
        (start.addedAll (comparisons operand q ys)).recorded := by
      rw [recorded, recorded]
      exact perm.map _
    exact ⟨_, _, start.addAll_eq _, start.addAll_eq _, recorded', totalSelectivity_perm (samePath.trans samePath'.symm)
      (sameProvider.trans sameProvider'.symm) (sameSettings.trans sameSettings'.symm) recorded'⟩
  · intro ⟨est, other, added, added', perm, _⟩
    cases (start.addAll_eq _).symm.trans added
    cases (start.addAll_eq _).symm.trans added'
    rw [recorded, recorded] at perm
    exact (List.map_perm_map_iff unflagged_injective).mp perm

/-- `> 5`, `< 10` and `<> 7` may come in any order. -/
theorem totalSelectivity_interval :
    let start : PathEstimator Float :=
      { path := AccessPath.ofName "t_idx", provider := (TableStats.ofRows 0.0).provider, settings := Settings.default }
    let above := (Comparator.gt, Scalar.int 5)
    let below := (Comparator.lt, Scalar.int 10)
    let apart := (Comparator.ne, Scalar.int 7)
    ∃ est other, start.addAll (comparisons (.column 1) .base [above, below, apart]) = .ok est ∧
      start.addAll (comparisons (.column 1) .base [apart, below, above]) = .ok other ∧
      est.recorded.Perm other.recorded ∧ est.totalSelectivity = other.totalSelectivity := by
  intro start above below apart
  have pairs : [above, below, apart].Pairwise (Compatible start (.column 1)) := by
    have bounds : Compatible start (.column 1) above below := by
      refine ⟨fun asksX asksY => ?_, fun asks => ?_⟩
      · cases asksX
        cases asksY
      · rcases asks with asks | asks <;> cases asks
    have outside : Compatible start (.column 1) above apart := ⟨fun _ asks => (by cases asks), fun _ => rfl⟩
    have outside' : Compatible start (.column 1) below apart := ⟨fun _ asks => (by cases asks), fun _ => rfl⟩
    simp [bounds, outside, outside']
  exact (recorded_perm_iff start.path start.provider start.settings (.column 1) .base [above, below, apart]).mp
    (Compatible.settled pairs) _ _ (List.Subperm.refl _) (List.reverse_perm [apart, below, above])

/-- What is excluded at the edge of a range counts a second time if the range is closed before. -/
theorem recorded_orders_ne :
    let start : PathEstimator Float :=
      { path := AccessPath.ofName "t_idx", provider := (TableStats.ofRows 0.0).provider, settings := Settings.default }
    let below := (Comparator.lt, Scalar.int 10)
    let above := (Comparator.ge, Scalar.int 5)
    let other := (Comparator.ne, Scalar.int 5)
    ∃ est est', start.addAll (comparisons (.column 1) .base [above, below, other]) = .ok est ∧
      start.addAll (comparisons (.column 1) .base [above, other, below]) = .ok est' ∧
      ¬ est.recorded.Perm est'.recorded := by
  refine ⟨_, _, rfl, rfl, fun perm => ?_⟩
  cases perm.length_eq

end Recorded

end Selectivity.PathEstimator
