import Selectivity.Proofs.ExactRanges

/-! One predicate more. A predicate that is recorded on its own never raises the total, and
neither does one that narrows a range, as long as the range is estimated in the same way before
and after. -/

namespace Selectivity

open Quantity

/-- Equal values are on the axis together. -/
theorem Scalar.position?_isSome {a b : Scalar ℝ} (equal : a.equates b = true) (on : a.position?.isSome = true) :
    b.position?.isSome = true := by
  cases a <;> cases b <;> first | rfl | cases equal | cases on

namespace Range

variable {r s : Range ℝ} {value : Scalar ℝ} {least greatest : Option (Scalar ℝ)}

theorem half_of_absorb? (absorbs : r.absorb? value least greatest = some s) : r.start = none ∨ r.stop = none := by
  have opened : r.isOpenEnded = true := by
    by_contra closed
    rw [absorb?, if_pos (by simpa using closed)] at absorbs
    cases absorbs
  rw [isOpenEnded, Bool.or_eq_true] at opened
  exact opened.imp Option.isNone_iff_eq_none.mp Option.isNone_iff_eq_none.mp

theorem extrapolate_of_absorb? (absorbs : r.absorb? value least greatest = some s) :
    s.extrapolate = r.extrapolate := by
  rcases absorb?_cases absorbs with ⟨_, _, _, rfl⟩ | ⟨_, _, _, rfl⟩ | ⟨_, _, _, _, rfl⟩ | ⟨_, _, _, _, rfl⟩ <;> rfl

end Range

namespace TableStats

variable {t : TableStats ℝ} {operand : Operand} {r s : Range ℝ} {m value : Scalar ℝ}

theorem Numeric.least (numeric : t.Numeric operand) (known : t.provider.least operand = some m) :
    m.position?.isSome = true := by
  obtain ⟨c, found, ⟨least, observed, on⟩, _⟩ := numeric
  have same : (t.column? operand).bind ColumnStats.least = some m := known
  rw [found, Option.bind_some, observed] at same
  exact Option.some.inj same ▸ on

theorem Numeric.greatest (numeric : t.Numeric operand) (known : t.provider.greatest operand = some m) :
    m.position?.isSome = true := by
  obtain ⟨c, found, _, greatest, observed, on⟩ := numeric
  have same : (t.column? operand).bind ColumnStats.greatest = some m := known
  rw [found, Option.bind_some, observed] at same
  exact Option.some.inj same ▸ on

private theorem place?_isSome {b : Bound ℝ} (on : b.value.position?.isSome = true) :
    (ColumnStats.place? (some b)).isSome = true := by
  rw [ColumnStats.place?, Option.isSome_map]
  exact on

/-- A range with an excluded value at its edge holds no more rows than before. -/
theorem absorbed_le (sound : t.Sound)
    (absorbs : r.absorb? value (t.provider.least operand) (t.provider.greatest operand) = some s) :
    t.range operand s.start s.stop false ≤ t.range operand r.start r.stop false := by
  have half := Range.half_of_absorb? absorbs
  rcases Range.absorb?_cases absorbs with ⟨b, bounded, _, rfl⟩ | ⟨b, bounded, _, rfl⟩ |
    ⟨m, missing, known, equal, rfl⟩ | ⟨m, missing, known, equal, rfl⟩
  · apply range_mono sound operand half (bounded ▸ .exclude b) (.refl _)
    · rintro value ⟨same, _⟩
      cases same
    · intro _ first last
      rw [bounded] at first
      exact ⟨first, last⟩
  · apply range_mono sound operand half (.refl _) (bounded ▸ .exclude b)
    · rintro value ⟨_, other, same, _⟩
      cases same
    · intro _ first last
      rw [bounded] at last
      exact ⟨first, last⟩
  · apply range_mono sound operand half (missing ▸ .none _) (.refl _)
    · rintro value ⟨same, _⟩
      cases same
    · intro numeric _ last
      exact ⟨place?_isSome (Scalar.position?_isSome equal (numeric.least known)), last⟩
  · apply range_mono sound operand half (.refl _) (missing ▸ .none _)
    · rintro value ⟨_, other, same, _⟩
      cases same
    · intro numeric first _
      exact ⟨first, place?_isSome (Scalar.position?_isSome equal (numeric.greatest known))⟩

/-- A half-open range on the axis gets a bound that is off it. -/
structure Mixed (t : TableStats ℝ) (operand : Operand) (r : Range ℝ) (bound : Bound ℝ) : Prop where
  numeric : t.Numeric operand
  start : (ColumnStats.place? r.start).isSome = true
  stop : (ColumnStats.place? r.stop).isSome = true
  off : bound.value.position? = none

theorem bounded_le (sound : t.Sound) (side : PathEstimator.Side) {bound : Bound ℝ} (half : side.openIn r = true)
    (apart : ∀ value, ¬ Meet (side.set r bound).start (side.set r bound).stop value)
    (axis : ¬ t.Mixed operand r bound) :
    t.range operand (side.set r bound).start (side.set r bound).stop false ≤
      t.range operand r.start r.stop false := by
  have on (numeric : t.Numeric operand) (first : (ColumnStats.place? r.start).isSome = true)
      (last : (ColumnStats.place? r.stop).isSome = true) : (ColumnStats.place? (some bound)).isSome = true := by
    apply place?_isSome
    by_contra off
    exact axis ⟨numeric, first, last, Option.not_isSome_iff_eq_none.mp off⟩
  cases side with
  | lower =>
    have missing : r.start = none := Option.isNone_iff_eq_none.mp half
    exact range_mono sound operand (.inl missing) (missing ▸ .none _) (.refl _) apart
      fun numeric first last => ⟨on numeric first last, last⟩
  | upper =>
    have missing : r.stop = none := Option.isNone_iff_eq_none.mp half
    exact range_mono sound operand (.inr missing) (.refl _) (missing ▸ .none _) apart
      fun numeric first last => ⟨first, on numeric first last⟩

end TableStats

/-! ### Steps -/

/-- Counted towards the total in any case, and not beyond the observed values. -/
structure Estimate.Plain (e : Estimate ℝ) : Prop where
  join : e.join = false
  range : ∀ r, e.kind = .range r → r.extrapolate = false

namespace PathEstimator

variable {t : TableStats ℝ} {path : AccessPath ℝ} {provider : Provider ℝ} {operand : Operand} {q : Qualifier}
  {d : Restriction ℝ} {p : Predicate ℝ} {es fs : List (Estimate ℝ)} {r s : Range ℝ}

/-- How one predicate more can come to more: a new bound meets an equal one, and the range is
estimated as a point from then on; a bound off the axis comes to one that is on it, and the
range is no longer interpolated; or a new range takes in an excluded value, and is estimated
to hold more rows than the others of that value were. -/
inductive Widens (t : TableStats ℝ) (path : AccessPath ℝ) (p : Predicate ℝ) (q : Qualifier)
    (es : List (Estimate ℝ)) : Prop
  | meets {operand side bound before e after r s value}
      (restricts : p.restriction? = some (operand, .bounded side bound))
      (found : Narrows t.provider operand q (.bounded side bound) es before e after r s)
      (meet : TableStats.Meet s.start s.stop value)
      (more : t.range operand r.start r.stop false < t.point operand value)
  | mixes {operand side bound before e after r s}
      (restricts : p.restriction? = some (operand, .bounded side bound))
      (found : Narrows t.provider operand q (.bounded side bound) es before e after r s)
      (mixed : t.Mixed operand r bound)
      (more : t.range operand r.start r.stop false < t.range operand s.start s.stop false)
  | takes {operand side bound before e after value s}
      (restricts : p.restriction? = some (operand, .bounded side bound))
      (kept : ∀ e ∈ es, narrows? t.provider operand q (.bounded side bound) e = none)
      (found : Takes path t.provider operand q (.bounded side bound) es before e after value s)
      (more : 1 - t.point operand value < t.range operand s.start s.stop false)

theorem narrowed_extrapolate (narrows : d.narrowed? provider operand r = some s) : s.extrapolate = r.extrapolate := by
  cases d with
  | equal value => cases narrows
  | unequal value => exact Range.extrapolate_of_absorb? narrows
  | bounded side bound =>
    rw [Restriction.narrowed?] at narrows
    split at narrows
    next =>
      cases narrows
      cases side <;> rfl
    next => cases narrows

private theorem fresh_plain (inside : path.extrapolates operand = false) :
    ∀ r, d.fresh path operand = .range r → r.extrapolate = false := by
  intro r same
  cases d with
  | equal value => cases same; exact inside
  | unequal value => cases same
  | bounded side bound =>
    cases same
    cases side <;> exact inside

private theorem taking_plain (inside : path.extrapolates operand = false) {value : Scalar ℝ}
    (takes : d.taking? path provider operand value = some s) : s.extrapolate = false := by
  cases d with
  | equal value => cases takes
  | unequal value => cases takes
  | bounded side bound =>
    rw [Range.extrapolate_of_absorb? takes]
    cases side <;> exact inside

theorem extrapolates_eq_false (inside : path.extrapolated = []) (operand : Operand) :
    path.extrapolates operand = false := by
  rw [AccessPath.extrapolates, inside]
  rfl

private theorem plainKind_plain (est : PathEstimator ℝ) (inside : est.path.extrapolated = []) (p : Predicate ℝ) :
    ∀ r, est.plainKind p = .range r → r.extrapolate = false := by
  intro r same
  rw [plainKind] at same
  split at same
  next => cases same
  next => cases same
  next =>
    split at same
    next => cases same
    next => cases same; exact extrapolates_eq_false inside _
  next => cases same

theorem preserves_plain (est : PathEstimator ℝ) (inside : est.path.extrapolated = []) {p : Predicate ℝ × Qualifier}
    (join : p.1.join = false) : est.Preserves p Estimate.Plain where
  plain _ := ⟨join, est.plainKind_plain inside p.1⟩
  fresh operand d _ := ⟨join, fresh_plain (extrapolates_eq_false inside operand)⟩
  narrowed operand d e r s _ plain kind narrows := by
    refine ⟨plain.join, fun r' same => ?_⟩
    cases same
    exact (narrowed_extrapolate narrows).trans (plain.range r kind)
  taken operand d e value s _ _ _ takes := by
    refine ⟨join, fun r same => ?_⟩
    cases same
    exact taking_plain (extrapolates_eq_false inside operand) takes

theorem added_plain (est : PathEstimator ℝ) (inside : est.path.extrapolated = []) (plain : ∀ e ∈ est.recorded, e.Plain)
    (join : p.join = false) : ∀ e ∈ (est.added p q).recorded, e.Plain := by
  rw [est.added_recorded (p, q)]
  exact step_forall (est.preserves_plain inside join) plain

theorem addedAll_plain (est : PathEstimator ℝ) (inside : est.path.extrapolated = [])
    (plain : ∀ e ∈ est.recorded, e.Plain) {ps : List (Predicate ℝ × Qualifier)} (joins : ∀ p ∈ ps, p.1.join = false) :
    ∀ e ∈ (est.addedAll ps).recorded, e.Plain :=
  addedAll_forall (fun p member => est.preserves_plain inside (joins p member)) plain

/-! ### The estimate that is merged with -/

variable {before before' after after' : List (Estimate ℝ)} {e e' : Estimate ℝ} {r' s' : Range ℝ}
  {value value' : Scalar ℝ}

private theorem find?_of_first {β : Type} {result : Estimate ℝ → Option β} {x : β} (split : es = before ++ e :: after)
    (first : ∀ b ∈ before, result b = none) (here : result e = some x) :
    es.find? (fun e => (result e).isSome) = some e := by
  refine List.find?_eq_some_iff_append.mpr ⟨by rw [here]; rfl, before, after, split, fun b member => ?_⟩
  rw [first b member]
  rfl

theorem Narrows.mem (found : Narrows provider operand q d es before e after r s) : e ∈ es := by
  rw [found.split]
  simp

theorem Narrows.changed (found : Narrows provider operand q d es before e after r s) :
    narrows? provider operand q d e = some { e with kind := .range s } :=
  narrows?_eq_some.mpr ⟨found.concerns, r, s, found.kind, found.narrows, rfl⟩

theorem Narrows.not_kept (found : Narrows provider operand q d es before e after r s) :
    ¬ ∀ e ∈ es, narrows? provider operand q d e = none :=
  fun kept => nomatch found.changed.symm.trans (kept e found.mem)

theorem Narrows.unique (found : Narrows provider operand q d es before e after r s)
    (other : Narrows provider operand q d es before' e' after' r' s') : r = r' ∧ s = s' := by
  have first := find?_of_first found.split found.first found.changed
  cases Option.some.inj (first.symm.trans (find?_of_first other.split other.first other.changed))
  cases found.kind.symm.trans other.kind
  exact ⟨rfl, Option.some.inj (found.narrows.symm.trans other.narrows)⟩

theorem Takes.mem (found : Takes path provider operand q d es before e after value s) : e ∈ es := by
  rw [found.split]
  simp

theorem Takes.taken (found : Takes path provider operand q d es before e after value s) :
    takes? path provider operand q d e = some s :=
  takes?_eq_some.mpr ⟨found.concerns, value, found.kind, found.takes⟩

theorem Takes.not_left (found : Takes path provider operand q d es before e after value s) :
    ¬ ∀ e ∈ es, takes? path provider operand q d e = none :=
  fun left => nomatch found.taken.symm.trans (left e found.mem)

theorem Takes.unique (found : Takes path provider operand q d es before e after value s)
    (other : Takes path provider operand q d es before' e' after' value' s') : value = value' ∧ s = s' := by
  have first := find?_of_first found.split found.first found.taken
  cases Option.some.inj (first.symm.trans (find?_of_first other.split other.first other.taken))
  cases found.kind.symm.trans other.kind
  exact ⟨rfl, Option.some.inj (found.takes.symm.trans other.takes)⟩

/-! ### Totals -/

private theorem totalSelectivity_eq (est : PathEstimator ℝ) (plain : ∀ e ∈ est.recorded, e.Plain) :
    est.totalSelectivity =
      compose (est.recorded.map (·.selectivity est.provider est.settings.nullFraction)) := by
  have all : est.recorded.filter (·.participates est.path.joinMethod) = est.recorded := by
    apply List.filter_eq_self.mpr
    intro e member
    rw [Estimate.participates, (plain e member).join]
    rfl
  rw [totalSelectivity, composed, all]

private theorem compose_middle (xs ys : List ℝ) (x : ℝ) : compose (xs ++ x :: ys) = compose (x :: (xs ++ ys)) :=
  compose_eq_of_perm real_exact List.perm_middle

private theorem compose_last (xs : List ℝ) (x : ℝ) : compose (xs ++ [x]) = compose (x :: xs) :=
  compose_eq_of_perm real_exact (List.perm_append_singleton x xs)

/-- What becomes of the total when one selectivity takes the place of another. -/
private theorem compose_replaced_iff {x y : ℝ} (xs : List ℝ) :
    compose (y :: xs) ≤ compose (x :: xs) ↔ compose (y :: xs) = 0 ∨ ¬ clamp x < clamp y := by
  constructor
  · intro less
    by_contra contrary
    rw [not_or, not_not] at contrary
    exact absurd (compose_cons_strict contrary.2 contrary.1) (not_lt.mpr less)
  · rintro (none | less)
    · rw [none]
      exact compose_nonneg _
    · exact compose_cons_mono (not_lt.mp less) xs

/-! ### When the total may rise -/

theorem widens_of_narrows (sound : t.Sound) (restricts : p.restriction? = some (operand, d))
    (found : Narrows t.provider operand q d es before e after r s) :
    Widens t path p q es ↔ t.range operand r.start r.stop false < t.range operand s.start s.stop false := by
  constructor
  · intro widens
    cases widens with
    | meets restricts' found' meet more =>
      cases restricts.symm.trans restricts'
      obtain ⟨rfl, rfl⟩ := found.unique found'
      rwa [TableStats.range_of_meet meet]
    | mixes restricts' found' _ more =>
      cases restricts.symm.trans restricts'
      obtain ⟨rfl, rfl⟩ := found.unique found'
      exact more
    | takes restricts' kept =>
      cases restricts.symm.trans restricts'
      exact absurd kept found.not_kept
  · intro more
    have narrows := found.narrows
    cases d with
    | equal value => cases narrows
    | unequal value => exact absurd (TableStats.absorbed_le sound narrows) (not_le.mpr more)
    | bounded side bound =>
      rw [Restriction.narrowed?] at narrows
      split at narrows
      next half =>
        by_cases meet : ∃ value, TableStats.Meet s.start s.stop value
        · obtain ⟨value, meet⟩ := meet
          rw [TableStats.range_of_meet meet] at more
          exact .meets restricts found meet more
        · by_cases mixed : t.Mixed operand r bound
          · exact .mixes restricts found mixed more
          · cases narrows
            exact absurd (TableStats.bounded_le sound side half (not_exists.mp meet) mixed) (not_le.mpr more)
      next => cases narrows

theorem widens_of_takes (restricts : p.restriction? = some (operand, d))
    (kept : ∀ e ∈ es, narrows? t.provider operand q d e = none)
    (found : Takes path t.provider operand q d es before e after value s) :
    Widens t path p q es ↔ 1 - t.point operand value < t.range operand s.start s.stop false := by
  constructor
  · intro widens
    cases widens with
    | meets restricts' found' =>
      cases restricts.symm.trans restricts'
      exact absurd kept found'.not_kept
    | mixes restricts' found' =>
      cases restricts.symm.trans restricts'
      exact absurd kept found'.not_kept
    | takes restricts' _ found' more =>
      cases restricts.symm.trans restricts'
      obtain ⟨rfl, rfl⟩ := found.unique found'
      exact more
  · intro more
    have takes := found.takes
    cases d with
    | equal value => cases takes
    | unequal value => cases takes
    | bounded side bound => exact .takes restricts kept found more

theorem not_widens_of_recorded (restricts : p.restriction? = some (operand, d))
    (kept : ∀ e ∈ es, narrows? t.provider operand q d e = none)
    (left : ∀ e ∈ es, takes? path t.provider operand q d e = none) : ¬ Widens t path p q es := by
  intro widens
  cases widens with
  | meets restricts' found =>
    cases restricts.symm.trans restricts'
    exact found.not_kept kept
  | mixes restricts' found =>
    cases restricts.symm.trans restricts'
    exact found.not_kept kept
  | takes restricts' _ found =>
    cases restricts.symm.trans restricts'
    exact found.not_left left

theorem not_widens_of_plain (plain : p.restriction? = none) : ¬ Widens t path p q es := by
  intro widens
  cases widens with
  | meets restricts => cases plain.symm.trans restricts
  | mixes restricts => cases plain.symm.trans restricts
  | takes restricts => cases plain.symm.trans restricts

private theorem clamp_selectivity (e : Estimate ℝ) (provider : Provider ℝ) (nulls : ℝ) :
    clamp (e.selectivity provider nulls) = e.selectivity provider nulls :=
  clamp_of_unit (clamp_unit _).1 (clamp_unit _).2

private theorem selectivity_range (sound : t.Sound) (nulls : ℝ) (onOperand : e.operand = some operand)
    (kind : e.kind = .range r) (inside : r.extrapolate = false) :
    e.selectivity t.provider nulls = t.range operand r.start r.stop false := by
  obtain ⟨nonneg, small⟩ := TableStats.range_unit sound operand r.start r.stop
  simp only [Estimate.selectivity, kind, onOperand, TableStats.provider, inside]
  exact clamp_of_unit nonneg small

private theorem selectivity_notEquals (sound : t.Sound) (nulls : ℝ) (onOperand : e.operand = some operand)
    (kind : e.kind = .notEquals value) : e.selectivity t.provider nulls = 1 - t.point operand value := by
  obtain ⟨nonneg, small⟩ := TableStats.point_unit sound operand value
  simp only [Estimate.selectivity, kind, onOperand, TableStats.provider, one_real]
  exact clamp_of_unit (by linarith) (by linarith)

private theorem operand_of_concerns (concerns : e.concerns operand q = true) : e.operand = some operand :=
  beq_iff_eq.mp (Bool.and_eq_true_iff.mp concerns).1

/-- One call. -/
theorem added_le_iff (sound : t.Sound) (est : PathEstimator ℝ) (known : est.provider = t.provider)
    (inside : est.path.extrapolated = []) (plain : ∀ e ∈ est.recorded, e.Plain) (join : p.join = false) :
    (est.added p q).totalSelectivity ≤ est.totalSelectivity ↔
      (est.added p q).totalSelectivity = 0 ∨ ¬ Widens t est.path p q est.recorded := by
  have plain' := est.added_plain (q := q) inside plain join
  obtain ⟨fs, missing, result, outcome⟩ := est.added_cases p q
  rw [totalSelectivity_eq est plain, totalSelectivity_eq _ plain']
  rw [result] at plain' ⊢
  rw [known] at outcome ⊢
  -- An estimate of its own lowers the total, so that only the merged ones are left to compare.
  have appended {kind : EstimateKind ℝ} (recorded : fs = est.recorded ++ [entry p q kind])
      (never : ¬ Widens t est.path p q est.recorded) :
      compose (fs.map (·.selectivity t.provider est.settings.nullFraction)) ≤
        compose (est.recorded.map (·.selectivity t.provider est.settings.nullFraction)) ↔
      compose (fs.map (·.selectivity t.provider est.settings.nullFraction)) = 0 ∨
        ¬ Widens t est.path p q est.recorded := by
    refine iff_of_true ?_ (.inr never)
    rw [recorded, List.map_append, List.map_cons, List.map_nil, compose_last]
    exact compose_cons_le _ _
  cases restriction : p.restriction? with
  | none =>
    rw [restriction] at outcome
    exact appended outcome (not_widens_of_plain restriction)
  | some found =>
    obtain ⟨operand, d⟩ := found
    have onOperand := (Predicate.restriction?_eq_some.mp restriction).1
    rw [restriction] at outcome
    dsimp only at outcome
    cases outcome with
    | recorded kept left => exact appended rfl (not_widens_of_recorded restriction kept left)
    | @narrowed before e after r s found =>
      have owner := operand_of_concerns found.concerns
      have old := (plain e found.mem).range r found.kind
      have new : s.extrapolate = false := (narrowed_extrapolate found.narrows).trans old
      rw [widens_of_narrows sound restriction found, found.split]
      simp only [List.map_append, List.map_cons, compose_middle]
      rw [compose_replaced_iff, clamp_selectivity, clamp_selectivity, selectivity_range sound _ owner found.kind old,
        selectivity_range (e := { e with kind := .range s }) sound _ owner rfl new]
    | @taken before e after value s kept found =>
      have owner := operand_of_concerns found.concerns
      have new : s.extrapolate = false := taking_plain (extrapolates_eq_false inside _) found.takes
      rw [widens_of_takes restriction kept found, found.split]
      simp only [List.map_append, List.map_cons, List.map_nil, List.append_nil, compose_middle]
      rw [compose_replaced_iff, clamp_selectivity, clamp_selectivity, selectivity_notEquals sound _ owner found.kind,
        selectivity_range (e := entry p q (.range s)) sound _ onOperand rfl new]

/-- One predicate more raises the total exactly if it widens what is recorded, and the total is
not zero all the same. -/
theorem addAll_le_iff (sound : t.Sound) (inside : path.extrapolated = []) (settings : Settings ℝ)
    (ps : List (Predicate ℝ × Qualifier)) (joins : ∀ p ∈ ps, p.1.join = false) (join : p.join = false) :
    let start : PathEstimator ℝ := { path, provider := t.provider, settings }
    ∃ before after, start.addAll ps = .ok before ∧ before.add p q = .ok after ∧
      (after.totalSelectivity ≤ before.totalSelectivity ↔
        after.totalSelectivity = 0 ∨ ¬ Widens t path p q before.recorded) := by
  intro start
  have plain : ∀ e ∈ (start.addedAll ps).recorded, e.Plain := start.addedAll_plain inside (by simp [start]) joins
  obtain ⟨samePath, sameProvider, _⟩ := start.addedAll_fields ps
  refine ⟨_, _, start.addAll_eq ps, add_eq _ p q, ?_⟩
  have step := added_le_iff (q := q) sound (start.addedAll ps) sameProvider (samePath ▸ inside) plain join
  rwa [samePath] at step

end PathEstimator

/-! ### A column from 0 to 100 -/

/-- A hundred values, spread evenly. -/
noncomputable def ColumnStats.hundred : ColumnStats ℝ where
  distinct := 100
  nullFraction := 0
  least := some (.int 0)
  greatest := some (.int 100)

theorem ColumnStats.hundred_sound : hundred.Sound where
  distinct := by norm_num [hundred]
  nulls := by norm_num [hundred]
  ordered least greatest low high := by
    cases low
    cases high
    decide
  unbinned := rfl

namespace TableStats

noncomputable def hundred : TableStats ℝ := (TableStats.exact 1000).withColumn (.column 1) .hundred

theorem hundred_sound : hundred.Sound := (exact_sound 1000).withColumn (.column 1) ColumnStats.hundred_sound

private theorem hundred_column? : hundred.column? (.column 1) = some .hundred := column?_withColumn _ _ _

/-- Interpolation leaves nothing of the range from the greatest value on. -/
theorem hundred_above : hundred.range (.column 1) (some ⟨.int 100, true⟩) none false = 0 := by
  have low : Scalar.ofInt64 0 = (0 : ℝ) := by
    have exact : (0 : Int64).toInt = 0 := by decide
    simp [Scalar.ofInt64, Quantity.ofInt, exact]
  have high : Scalar.ofInt64 100 = (100 : ℝ) := by
    have exact : (100 : Int64).toInt = 100 := by decide
    simp [Scalar.ofInt64, Quantity.ofInt, exact]
  simp [range, openRange, hundred_column?, ColumnStats.hundred, ColumnStats.range, Scalar.position?, ColumnStats.place?,
    ColumnStats.numericRange, low, high, ColumnStats.coverage, ColumnStats.exclude]
  norm_num [clamp_real]

theorem hundred_point : hundred.point (.column 1) (.int 100) = 1 / 100 := by
  have observed : ColumnStats.hundred.misses (.int 100) = false := by decide
  have share : hundred.point (.column 1) (.int 100) = clamp (1 / max 100 1 * clamp (1 - 0)) := by
    simp only [point, hundred_column?, ColumnStats.point, observed, Scalar.isNull, ColumnStats.valueShare,
      ColumnStats.nonNull, Scalar.position?]
    simp [ColumnStats.hundred]
  rw [share, clamp_real, clamp_real]
  norm_num

end TableStats

theorem compose_singleton (x : ℝ) : compose [x] = clamp x := by
  rw [compose, List.map_singleton, List.mergeSort_singleton, composeFrom, composeFrom, dampen]
  exact one_mul _

namespace PathEstimator

/-- A lower bound and an upper bound apart from it. -/
theorem addAll_le_between :
    let start : PathEstimator ℝ :=
      { path := .exact "t_idx", provider := TableStats.hundred.provider, settings := .exact }
    let above := (Predicate.comparison (.column 1) .ge (.int 10), Qualifier.base)
    let below := Predicate.comparison (.column 1) .lt (.int 20)
    TableStats.hundred.Sound ∧ start.path.extrapolated = [] ∧ (∀ p ∈ [above], p.1.join = false) ∧ below.join = false ∧
      ∃ before after, start.addAll [above] = .ok before ∧ before.add below .base = .ok after ∧
        after.totalSelectivity ≤ before.totalSelectivity := by
  intro start above below
  have joins : ∀ p ∈ [above], p.1.join = false := by simp [above, Predicate.comparison]
  obtain ⟨before, after, run, step, total⟩ :=
    addAll_le_iff (q := .base) (p := below) TableStats.hundred_sound (rfl : start.path.extrapolated = []) .exact [above]
      joins rfl
  refine ⟨TableStats.hundred_sound, rfl, joins, rfl, before, after, run, step, total.mpr (.inr fun widens => ?_)⟩
  cases (start.addAll_eq [above]).symm.trans run
  have found : Narrows TableStats.hundred.provider (.column 1) .base (.bounded .upper ⟨.int 20, false⟩)
      (start.addedAll [above]).recorded [] (entry above.1 .base (.range (Range.above ⟨.int 10, true⟩ false))) []
      (Range.above ⟨.int 10, true⟩ false) ((Range.above ⟨.int 10, true⟩ false).setStop ⟨.int 20, false⟩) :=
    ⟨rfl, by simp, rfl, rfl, rfl⟩
  have more := (widens_of_narrows TableStats.hundred_sound rfl found).mp widens
  refine absurd (TableStats.bounded_le TableStats.hundred_sound .upper rfl ?_ ?_) (not_le.mpr more)
  · rintro value ⟨_, other, same, _⟩
    cases same
  · intro mixed
    cases mixed.off

/-- The upper bound of the column, and then it alone: from nothing to one value in a hundred. -/
theorem addAll_rises :
    let start : PathEstimator ℝ :=
      { path := .exact "t_idx", provider := TableStats.hundred.provider, settings := .exact }
    let above := (Predicate.comparison (.column 1) .ge (.int 100), Qualifier.base)
    let below := Predicate.comparison (.column 1) .le (.int 100)
    TableStats.hundred.Sound ∧ start.path.extrapolated = [] ∧ above.1.join = false ∧ below.join = false ∧
      ∃ before after, start.addAll [above] = .ok before ∧ before.add below .base = .ok after ∧
        before.totalSelectivity = 0 ∧ after.totalSelectivity = 1 / 100 ∧
        ¬ after.totalSelectivity ≤ before.totalSelectivity := by
  intro start above below
  have before : (start.addedAll [above]).totalSelectivity = 0 := by
    have once : (start.addedAll [above]).totalSelectivity =
        compose [(entry above.1 .base (.range (Range.above ⟨.int 100, true⟩ false))).selectivity
          TableStats.hundred.provider Settings.exact.nullFraction] := rfl
    rw [once, compose_singleton, clamp_selectivity, selectivity_range TableStats.hundred_sound _ rfl rfl rfl]
    exact TableStats.hundred_above
  have after : ((start.addedAll [above]).added below .base).totalSelectivity = 1 / 100 := by
    have once : ((start.addedAll [above]).added below .base).totalSelectivity =
        compose [(entry above.1 .base (.range (Range.closed (.int 100) (.int 100) false))).selectivity
          TableStats.hundred.provider Settings.exact.nullFraction] := rfl
    have meet : TableStats.Meet (some ⟨Scalar.int 100, true⟩) (some ⟨Scalar.int 100, true⟩) (Scalar.int (α := ℝ) 100) :=
      ⟨rfl, _, rfl, by decide⟩
    rw [once, compose_singleton, clamp_selectivity, selectivity_range TableStats.hundred_sound _ rfl rfl rfl]
    exact (TableStats.range_of_meet meet _ _).trans TableStats.hundred_point
  refine ⟨TableStats.hundred_sound, rfl, rfl, rfl, _, _, start.addAll_eq [above], add_eq _ below .base, before, after, ?_⟩
  rw [before, after]
  norm_num

end PathEstimator
end Selectivity
