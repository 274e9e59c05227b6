import Selectivity.Proofs.ArenaEdits
import Selectivity.Proofs.CompositionOrder
import Selectivity.Proofs.SlotLists
import Selectivity.Wire.Estimate

/-! Filing by phase and slot comes to the same as recording in one list. Each list that is
filed holds what one list holds for its phase and slot, in the same order, and no range that
is filed has a flag without its bound. -/

namespace Selectivity

variable {α : Type}

/-! ### Estimates as they are filed -/

def Range.filed (r : Range α) : Filing.Range α :=
  { start := r.start.map (·.value), stop := r.stop.map (·.value), includeStart := r.includesStart,
    includeStop := r.includesStop, extrapolate := r.extrapolate }

def EstimateKind.filed : EstimateKind α → Filing.Kind α
  | .range r => .range r.filed
  | .notEquals value => .notEquals value
  | .null => .null
  | .notNull => .notNull
  | .default factor => .default factor

def Estimate.filed (e : Estimate α) : Filing.Estimate α :=
  { operand := e.operand, slot := slotOf e.operand, qualifier := e.qualifier, join := e.join,
    transformed := e.transformed, kind := e.kind.filed }

/-- Exchanged, they look the same. -/
theorem Estimate.encode_filed (e : Estimate Float) : e.filed.encode = e.encode := by
  obtain ⟨operand, qualifier, join, transformed, kind⟩ := e
  cases kind <;> rfl

section Merging

open PathEstimator

variable {operand : Operand} {q : Qualifier}

theorem Range.lacks_filed (r : Range α) (side : Side) : r.filed.lacks side = side.openIn r := by
  cases side <;> exact Option.isNone_map

theorem Range.set_filed (r : Range α) (side : Side) (value : Scalar α) (inclusive : Bool) :
    r.filed.set side value inclusive = (side.set r ⟨value, inclusive⟩).filed := by
  cases side <;> rfl

/-- The error of a range without bounds is not met. -/
theorem Filing.Range.only_eq (side : Side) (value : Scalar α) (inclusive extrapolate : Bool) :
    Filing.Range.only side value inclusive extrapolate = .ok (side.only ⟨value, inclusive⟩ extrapolate).filed := by
  cases side <;> cases inclusive <;> rfl

private theorem Estimate.changeRange?_filed {change : Range α → Option (Range α)}
    {change' : Filing.Range α → Option (Filing.Range α)}
    (same : ∀ r : Range α, change' r.filed = (change r).map Range.filed) (e : Estimate α) :
    Filing.Estimate.changeRange? operand q change' e.filed = (changeRange? operand q change e).map Estimate.filed := by
  have concerns : e.filed.concerns operand q = e.concerns operand q := rfl
  rw [Filing.Estimate.changeRange?, changeRange?, concerns, range?]
  split
  next =>
    simp only [filed]
    cases e.kind with
    | range r =>
      simp only [EstimateKind.filed, same, Option.bind_some, Option.map_map]
      rfl
    | notEquals _ | null | notNull | default _ => rfl
  next => rfl

theorem replaceFirst?_filed (operand : Operand) (q : Qualifier) (change : Range α → Option (Range α))
    (change' : Filing.Range α → Option (Filing.Range α))
    (same : ∀ r : Range α, change' r.filed = (change r).map Range.filed) (es : List (Estimate α)) :
    replaceFirst? (Filing.Estimate.changeRange? operand q change') (es.map Estimate.filed) =
      (replaceFirst? (changeRange? operand q change) es).map (List.map Estimate.filed) :=
  replaceFirst?_map (Estimate.changeRange?_filed same) es

variable [Quantity α]

theorem Range.absorb?_filed (r : Range α) (value : Scalar α) (least greatest : Option (Scalar α)) :
    r.filed.absorb? value least greatest = (r.absorb? value least greatest).map Range.filed := by
  have noStart : r.filed.start.isNone = r.start.isNone := Option.isNone_map
  have noStop : r.filed.stop.isNone = r.stop.isNone := Option.isNone_map
  have start : r.filed.start.any (·.equates value) = r.start.any (·.value.equates value) := Option.any_map ..
  have stop : r.filed.stop.any (·.equates value) = r.stop.any (·.value.equates value) := Option.any_map ..
  rw [Filing.Range.absorb?, absorb?, Filing.Range.isOpenEnded, isOpenEnded, noStart, noStop, start, stop]
  simp only [apply_ite (Option.map Range.filed), Option.map_none, Option.map_some]
  refine if_congr Iff.rfl rfl (if_congr Iff.rfl ?_ (if_congr Iff.rfl ?_ rfl))
  · cases low : r.start <;> simp [filed, includesStart, includesStop, low]
  · cases high : r.stop <;> simp [filed, includesStart, includesStop, high]

theorem Estimate.selectivity_filed (e : Estimate α) (p : Provider α) (defaultNullFraction : α) :
    e.filed.selectivity p defaultNullFraction = e.selectivity p defaultNullFraction := by
  rw [Filing.Estimate.selectivity, selectivity, filed]
  obtain ⟨operand, qualifier, join, transformed, kind⟩ := e
  have bound (b : Option (Bound α)) : (b.map (·.value)).map (⟨·, b.any (·.inclusive)⟩) = b := by cases b <;> rfl
  cases kind with
  | range r =>
    cases operand with
    | none => rfl
    | some operand => simp only [EstimateKind.filed, Range.filed, Range.includesStart, Range.includesStop, bound]
  | notEquals _ | null | notNull | default _ => cases operand <;> rfl

end Merging

/-! ### One list at a time -/

namespace Filing.Estimator

open PathEstimator (Side Restriction restricted takes? entry)

variable {est next last : Estimator α} {phase : Phase} {slot : Nat} {list list' : List (Estimate α)}

theorem columnEstimates_changeList (est : Estimator α) (phase : Phase) (slot : Nat)
    (change : List (Estimate α) → List (Estimate α)) (phase' : Phase) (slot' : Nat) :
    (est.changeList phase slot change).columnEstimates phase' slot' =
      if phase' = phase ∧ slot' = slot then change (est.columnEstimates phase slot)
      else est.columnEstimates phase' slot' := by
  have looked (slots : Slots (Estimate α)) : (slots.change slot change).get? slot' = _ :=
    lookup_changeAt slots.ascending slot'
  cases phase <;> cases phase' <;>
    simp only [changeList, columnEstimates, lists, looked, true_and, reduceCtorEq, false_and, if_false] <;>
    split <;> rfl

/-- All that a call did was to rewrite one list. -/
structure Rewrites (est next : Estimator α) (phase : Phase) (slot : Nat) (list : List (Estimate α)) : Prop where
  path : next.path = est.path
  provider : next.provider = est.provider
  settings : next.settings = est.settings
  missing : next.missing = est.missing
  lists : ∀ phase' slot', next.columnEstimates phase' slot' =
    if phase' = phase ∧ slot' = slot then list else est.columnEstimates phase' slot'

theorem Rewrites.here (rewrites : Rewrites est next phase slot list) : next.columnEstimates phase slot = list :=
  (rewrites.lists phase slot).trans (if_pos ⟨rfl, rfl⟩)

theorem changeList_rewrites (est : Estimator α) (phase : Phase) (slot : Nat)
    (change : List (Estimate α) → List (Estimate α)) :
    Rewrites est (est.changeList phase slot change) phase slot (change (est.columnEstimates phase slot)) := by
  have lists := est.columnEstimates_changeList phase slot change
  cases phase <;> exact ⟨rfl, rfl, rfl, rfl, lists⟩

theorem Rewrites.trans (first : Rewrites est next phase slot list) (second : Rewrites next last phase slot list') :
    Rewrites est last phase slot list' where
  path := second.path.trans first.path
  provider := second.provider.trans first.provider
  settings := second.settings.trans first.settings
  missing := second.missing.trans first.missing
  lists phase' slot' := by
    rw [second.lists, first.lists]
    split <;> rfl

/-- What is filed goes to the end of the list. -/
theorem Rewrites.file (rewrites : Rewrites est next phase slot list) {q : Qualifier} {e : Estimate α}
    (ofPhase : q.phase = phase) (ofSlot : e.slot = slot) :
    Rewrites est (file q (some e, next)) phase slot (list ++ [e]) := by
  subst ofPhase ofSlot
  have appended := changeList_rewrites next q.phase e.slot (· ++ [e])
  rw [rewrites.here] at appended
  exact rewrites.trans appended

variable [Quantity α] {operand : Operand} {q : Qualifier} {p : Predicate α} {es : List (Selectivity.Estimate α)}

omit [Quantity α] in
theorem entry_filed (p : Predicate α) (q : Qualifier) (kind : EstimateKind α) :
    (entry p q kind).filed = .of p.operand q p kind.filed := by
  rw [Selectivity.Estimate.filed, Estimate.of, entry]
  cases p.operand <;> rfl

theorem isTakenBy_filed (path : AccessPath α) (provider : Provider α) (side : Side) (bound : Bound α)
    (e : Selectivity.Estimate α) :
    e.filed.isTakenBy operand q (side.only bound (path.extrapolates operand)).filed (provider.least operand)
        (provider.greatest operand) = (takes? path provider operand q (.bounded side bound) e).isSome := by
  have concerns : e.filed.concerns operand q = e.concerns operand q := rfl
  rw [Estimate.isTakenBy, takes?, Selectivity.Estimate.excluded?, concerns]
  cases kind : e.kind with
  | notEquals value =>
    simp only [Selectivity.Estimate.filed, kind, EstimateKind.filed, Range.absorb?_filed, Option.isSome_map,
      Option.bind_some, Restriction.taking?]
    cases e.concerns operand q <;> rfl
  | range _ | null | notNull | default _ =>
    simp only [Selectivity.Estimate.filed, kind, EstimateKind.filed, Option.bind_none, ite_self, Option.isSome_none]

theorem addBound_eq (onOperand : p.operand = some operand)
    (filed : est.columnEstimates q.phase operand.slot = es.map Selectivity.Estimate.filed) (side : Side)
    (value : Scalar α) (inclusive : Bool) : ∃ done, est.addBound operand side value inclusive q p = .ok done ∧
      Rewrites est (file q done) q.phase operand.slot ((restricted est.path est.provider operand q
        (.bounded side ⟨value, inclusive⟩) p es).map Selectivity.Estimate.filed) := by
  have entered (r : Selectivity.Range α) :
      (entry p q (.range r)).filed = .of (some operand) q p (.range r.filed) :=
    onOperand ▸ entry_filed p q (.range r)
  have same : Rewrites est est q.phase operand.slot (es.map Selectivity.Estimate.filed) :=
    ⟨rfl, rfl, rfl, rfl, fun phase slot => by grind⟩
  have merging := replaceFirst?_filed operand q
    ((Restriction.bounded side ⟨value, inclusive⟩).narrowed? est.provider operand)
    (fun r => if r.lacks side then some (r.set side value inclusive) else none) (fun r => by
      rw [Range.lacks_filed, Range.set_filed, Restriction.narrowed?, apply_ite (Option.map Range.filed)]
      rfl) es
  rw [addBound, filed, restricted, merging]
  unfold PathEstimator.narrows?
  cases replaceFirst? _ es with
  | some merged => exact ⟨_, rfl, changeList_rewrites est q.phase operand.slot _⟩
  | none =>
    simp only [Option.map_none, Range.only_eq, ok_bind, List.findIdx?_map, Function.comp_def, isTakenBy_filed,
      takeFirst?_eq]
    cases found : es.findIdx? fun e =>
        (takes? est.path est.provider operand q (.bounded side ⟨value, inclusive⟩) e).isSome with
    | none =>
      refine ⟨_, rfl, ?_⟩
      rw [Option.bind_none, List.map_append, List.map_singleton, Restriction.fresh, entered]
      exact same.file rfl rfl
    | some index =>
      obtain ⟨inside, takes, _⟩ := List.findIdx?_eq_some_iff_getElem.mp found
      obtain ⟨s, takes⟩ := Option.isSome_iff_exists.mp takes
      obtain ⟨_, excluded, kind, absorbs⟩ := PathEstimator.takes?_eq_some.mp takes
      have looked : (es.map Selectivity.Estimate.filed)[index]?.bind Estimate.excluded? = some excluded := by
        simp only [List.getElem?_map, List.getElem?_eq_getElem inside, Option.map_some, Option.bind_some,
          Estimate.excluded?, Selectivity.Estimate.filed, kind, EstimateKind.filed]
      have again : ((side.only ⟨value, inclusive⟩ (est.path.extrapolates operand)).filed.absorb? excluded
          (est.provider.least operand) (est.provider.greatest operand)) = some s.filed := by
        rw [Range.absorb?_filed]
        exact congrArg (Option.map Range.filed) absorbs
      have erased := changeList_rewrites est q.phase operand.slot (·.eraseIdx index)
      rw [filed, List.eraseIdx_map] at erased
      refine ⟨_, rfl, ?_⟩
      simp only [looked, again, Option.getD_some, Option.bind_some, List.getElem?_eq_getElem inside, takes,
        Option.map_some, List.map_append, List.map_singleton, entered]
      exact erased.file rfl rfl

theorem addComparison_eq (onOperand : p.operand = some operand)
    (filed : est.columnEstimates q.phase operand.slot = es.map Selectivity.Estimate.filed) {op : Comparator}
    {value : Scalar α} {d : Restriction α} (restricts : PathEstimator.restriction? op value = some d) :
    ∃ done, est.addComparison operand op value q p = .ok done ∧
      Rewrites est (file q done) q.phase operand.slot
        ((restricted est.path est.provider operand q d p es).map Selectivity.Estimate.filed) := by
  have opened := changeList_rewrites est q.phase operand.slot id
  have list : (est.changeList q.phase operand.slot id).columnEstimates q.phase operand.slot =
      es.map Selectivity.Estimate.filed := opened.here.trans filed
  have bounds (side : Side) (inclusive : Bool) := addBound_eq onOperand list side value inclusive
  have entered (kind : EstimateKind α) : (entry p q kind).filed = .of (some operand) q p kind.filed :=
    onOperand ▸ entry_filed p q kind
  -- In the single list the same comparison would be merged, or recorded, at the same place.
  have recorded : restricted est.path est.provider operand q d p es =
      (PathEstimator.restrict ⟨est.path, est.provider, est.settings, es, []⟩ p q operand d).recorded := by
    rw [PathEstimator.restrict_eq]
  unfold addComparison
  dsimp only
  generalize est.changeList q.phase operand.slot id = begun at opened list bounds ⊢
  rw [opened.path, opened.provider] at bounds
  rw [filed] at opened
  cases op with
  | eq =>
    cases restricts
    have fresh : restricted est.path est.provider operand q (.equal value) p es =
        es ++ [entry p q (.range (Selectivity.Range.point value (est.path.extrapolates operand)))] := recorded
    refine ⟨_, rfl, ?_⟩
    rw [fresh, List.map_append, List.map_singleton, entered, opened.path]
    exact opened.file rfl rfl
  | ne =>
    cases restricts
    have merging := replaceFirst?_filed operand q
      (·.absorb? value (est.provider.least operand) (est.provider.greatest operand))
      (·.absorb? value (est.provider.least operand) (est.provider.greatest operand))
      (fun r => Range.absorb?_filed r value _ _) es
    rw [PathEstimator.restrict, PathEstimator.absorbed?] at recorded
    simp only [list, opened.provider, merging]
    cases changed : replaceFirst? (PathEstimator.changeRange? operand q
      (·.absorb? value (est.provider.least operand) (est.provider.greatest operand))) es with
    | some merged =>
      rw [changed] at recorded
      refine ⟨_, rfl, ?_⟩
      rw [recorded]
      exact opened.trans (changeList_rewrites begun q.phase operand.slot _)
    | none =>
      rw [changed] at recorded
      have fresh : restricted est.path est.provider operand q (.unequal value) p es =
          es ++ [entry p q (.notEquals value)] := recorded
      refine ⟨_, rfl, ?_⟩
      rw [fresh, List.map_append, List.map_singleton, entered]
      exact opened.file rfl rfl
  | gt | ge | lt | le =>
    cases restricts
    obtain ⟨done, run, rest⟩ := bounds _ _
    exact ⟨done, run, opened.trans rest⟩
  | isNull | isNotNull => cases restricts

/-! ### Calls and runs -/

/-- Whatever is merged with nothing leads to one estimate, and to no error. -/
private theorem classify_plain {flat : PathEstimator α} (path : est.path = flat.path)
    (settings : est.settings = flat.settings) (plain : p.restriction? = none) :
    est.classify p q = .ok (some (.of p.operand q p (flat.plainKind p).filed), est) := by
  rw [PathEstimator.plainKind, ← path, ← settings]
  obtain ⟨operand, kind, join, transformed⟩ := p
  cases operand with
  | none => rfl
  | some operand =>
    cases kind with
    | other => rfl
    | between low high =>
      cases low with
      | none => rfl
      | some low =>
        cases high with
        | none => rfl
        | some high =>
          simp only [classify]
          split <;> rfl
    | compare op value =>
      cases value with
      | none => cases op <;> rfl
      | some value =>
        rw [Predicate.restriction?] at plain
        cases op with
        | isNull | isNotNull => rfl
        | eq | ne | gt | ge | lt | le =>
          have null : value.isNull = true := by
            by_contra given
            simp [given, PathEstimator.restriction?] at plain
          simp only [classify, null]
          rfl

theorem classify_eq {flat : PathEstimator α} (path : est.path = flat.path) (provider : est.provider = flat.provider)
    (settings : est.settings = flat.settings)
    (filed : est.columnEstimates q.phase (slotOf p.operand) = es.map Selectivity.Estimate.filed) :
    ∃ done, est.classify p q = .ok done ∧
      Rewrites est (file q done) q.phase (slotOf p.operand) ((flat.step es (p, q)).map Selectivity.Estimate.filed) := by
  rw [PathEstimator.step]
  cases restricts : p.restriction? with
  | none =>
    have same : Rewrites est est q.phase (slotOf p.operand) (es.map Selectivity.Estimate.filed) :=
      ⟨rfl, rfl, rfl, rfl, fun phase slot => by grind⟩
    refine ⟨_, classify_plain path settings restricts, ?_⟩
    rw [List.map_append, List.map_singleton, entry_filed]
    exact same.file rfl (by cases p.operand <;> rfl)
  | some restriction =>
    obtain ⟨operand, d⟩ := restriction
    obtain ⟨onOperand, op, value, kind, given, restriction⟩ := Predicate.restriction?_eq_some.mp restricts
    rw [onOperand] at filed ⊢
    obtain ⟨done, run, rewrites⟩ := addComparison_eq onOperand filed restriction
    rw [path, provider] at rewrites
    refine ⟨done, ?_, rewrites⟩
    rw [← run, classify, onOperand, kind]
    cases op with
    | isNull | isNotNull => cases restriction
    | eq | ne | gt | ge | lt | le => exact if_neg (Bool.eq_false_iff.mp given)

/-- The lists by phase and slot hold what the single list holds for each of them. -/
structure Files (est : Estimator α) (flat : PathEstimator α) : Prop where
  path : est.path = flat.path
  provider : est.provider = flat.provider
  settings : est.settings = flat.settings
  missing : est.missing = flat.missing
  lists : ∀ phase slot, est.columnEstimates phase slot =
    (flat.columnEstimates phase slot).map Selectivity.Estimate.filed

variable {flat : PathEstimator α}

omit [Quantity α] in
private theorem Files.note (files : Files est flat) (operand : Option Operand) :
    Files (est.note operand) (flat.note operand) := by
  cases operand with
  | none => exact files
  | some o =>
    rw [Estimator.note, PathEstimator.note, files.provider, files.missing]
    split
    next => exact files
    next => exact ⟨files.path, rfl, files.settings, rfl, files.lists⟩

/-- No call fails, and what it files is what it records. -/
theorem Files.add (files : Files est flat) (p : Predicate α) (q : Qualifier) :
    ∃ next, est.add p q = .ok next ∧ Files next (flat.added p q) := by
  obtain ⟨recorded, missing, result, _⟩ := flat.added_cases p q
  have noted : (flat.added p q).missing = (flat.note p.operand).missing := flat.added_missing (p, q)
  have columns (phase : Phase) (slot : Nat) : (flat.added p q).columnEstimates phase slot =
      if phase = q.phase ∧ slot = slotOf p.operand then
        flat.step (flat.columnEstimates q.phase (slotOf p.operand)) (p, q)
      else flat.columnEstimates phase slot := by
    rw [PathEstimator.columnEstimates_eq, flat.added_recorded (p, q)]
    split
    next own =>
      obtain ⟨rfl, rfl⟩ := own
      exact flat.step_filter (PathEstimator.files _ _) (by simp [PathEstimator.files, subject]) flat.recorded
    next other =>
      refine flat.step_filter_other (PathEstimator.files phase slot) ?_ flat.recorded
      simp only [PathEstimator.files, subject, Bool.and_eq_false_iff, beq_eq_false_iff_ne]
      grind
  obtain ⟨missing', begun⟩ := flat.note_eq p.operand
  have start := files.note p.operand
  rw [begun] at start noted
  obtain ⟨done, run, rewrites⟩ :=
    classify_eq start.path start.provider start.settings (start.lists q.phase (slotOf p.operand))
  refine ⟨file q done, ?_, ?_⟩
  · rw [Estimator.add, run]
    rfl
  · rw [result] at noted columns ⊢
    refine ⟨rewrites.path.trans start.path, rewrites.provider.trans start.provider,
      rewrites.settings.trans start.settings, (rewrites.missing.trans start.missing).trans noted.symm,
      fun phase slot => ?_⟩
    rw [rewrites.lists, columns]
    split
    next => rfl
    next => exact start.lists phase slot

omit [Quantity α] in
theorem Files.placed (files : Files est flat) {phase : Phase} {entry : Nat × List (Estimate α)}
    (member : entry ∈ (est.lists phase).entries) :
    ∀ e ∈ entry.2, e ∈ est.columnEstimates phase entry.1 ∧ e.slot = entry.1 := by
  intro e inside
  have list : est.columnEstimates phase entry.1 = entry.2 :=
    congrArg (Option.getD · []) (lookup_of_mem (est.lists phase).ascending member)
  refine ⟨list ▸ inside, ?_⟩
  rw [← list, files.lists] at inside
  obtain ⟨f, recorded, rfl⟩ := List.mem_map.mp inside
  exact (flat.mem_columnEstimates.mp recorded).2.2

omit [Quantity α] in
/-- Also the list of a phase shows what the single list shows of it. -/
theorem Files.estimates (files : Files est flat) (phase : Phase) :
    est.estimates phase = (flat.estimates phase).map Selectivity.Estimate.filed := by
  have placed : ∀ entry ∈ (est.lists phase).entries, ∀ e ∈ entry.2, e.slot = entry.1 :=
    fun entry member e inside => (files.placed member e inside).2
  apply eq_of_filter_eq (flatMap_sorted (est.lists phase).ascending placed)
  · exact List.pairwise_map.mpr (flat.estimates_sorted phase)
  · intro slot
    have column := flat.estimates_filter phase slot
    rw [List.filter_map]
    refine (flatMap_filter (est.lists phase).ascending placed slot).trans ?_
    exact (files.lists phase slot).trans (congrArg (List.map _) column.symm)

theorem Files.encoded {est : Estimator Float} {flat : PathEstimator Float} (files : Files est flat) (phase : Phase) :
    (est.estimates phase).map Estimate.encode = (flat.estimates phase).map Selectivity.Estimate.encode := by
  rw [files.estimates, List.map_map]
  exact List.map_congr_left fun e _ => e.encode_filed

omit [Quantity α] in
private theorem estimates_perm (flat : PathEstimator α) :
    (flat.estimates .scan ++ flat.estimates .top).Perm flat.recorded := by
  refine ((List.mergeSort_perm _ _).append (List.mergeSort_perm _ _)).trans ?_
  have other : (fun e : Selectivity.Estimate α => e.qualifier.phase == .top) =
      fun e => !(e.qualifier.phase == .scan) := by
    funext e
    cases e.qualifier <;> rfl
  rw [other]
  exact List.filter_append_perm _ _

private theorem composed_filed (files : Files est flat) (es : List (Selectivity.Estimate α)) :
    est.composed (es.map Selectivity.Estimate.filed) = flat.composed es := by
  rw [composed, PathEstimator.composed, List.filter_map, List.map_map, files.path, files.provider, files.settings]
  refine congrArg compose (List.map_congr_left fun e _ => ?_)
  exact e.selectivity_filed flat.provider flat.settings.nullFraction

/-- Where the order of selectivities is no matter, it is none in which list they are filed. -/
theorem Files.selectivity (files : Files est flat)
    (unordered : ∀ {xs ys : List α}, xs.Perm ys → compose xs = compose ys) :
    est.totalSelectivity = flat.totalSelectivity ∧ ∀ qs, est.selectivityOf qs = flat.selectivityOf qs := by
  have all : est.estimates .scan ++ est.estimates .top =
      (flat.estimates .scan ++ flat.estimates .top).map Selectivity.Estimate.filed := by
    rw [files.estimates, files.estimates, List.map_append]
  have composed {es fs : List (Selectivity.Estimate α)} (perm : es.Perm fs) : flat.composed es = flat.composed fs :=
    unordered ((perm.filter _).map _)
  constructor
  · rw [totalSelectivity, all, composed_filed files]
    exact composed (estimates_perm flat)
  · intro qs
    rw [selectivityOf, all, List.filter_map, composed_filed files]
    exact composed ((estimates_perm flat).filter _)

/-- Doubles come to the same number, whatever it is rounded to on the way. -/
theorem Files.selectivity_float {est : Estimator Float} {flat : PathEstimator Float} (files : Files est flat) :
    est.totalSelectivity = flat.totalSelectivity ∧ ∀ qs, est.selectivityOf qs = flat.selectivityOf qs :=
  files.selectivity compose_perm

theorem Files.addAll (files : Files est flat) (ps : List (Predicate α × Qualifier)) :
    ∃ next, est.addAll ps = .ok next ∧ Files next (flat.addedAll ps) := by
  induction ps generalizing est flat with
  | nil => exact ⟨est, rfl, files⟩
  | cons p ps ih =>
    obtain ⟨between, call, first⟩ := files.add p.1 p.2
    obtain ⟨next, run, rest⟩ := ih first
    refine ⟨next, ?_, rest⟩
    exact (congrArg (· >>= _) call).trans run

end Filing.Estimator
end Selectivity
