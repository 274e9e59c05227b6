import Selectivity.AccessPath.Estimator

/-! What one call does to the recorded estimates. A comparison with a constant changes
one recorded range, or is recorded itself, and a new range may take one recorded
excluded value in; everything else is recorded as it comes. -/

namespace Selectivity

section Lists

variable {β γ : Type}

theorem replaceFirst?_eq_none {change : β → Option β} {xs : List β} :
    replaceFirst? change xs = none ↔ ∀ x ∈ xs, change x = none := by
  induction xs with
  | nil => simp [replaceFirst?]
  | cons x xs ih =>
    rw [replaceFirst?, List.forall_mem_cons]
    cases change x with
    | some y => simp
    | none => simp [ih]

theorem replaceFirst?_eq_some {change : β → Option β} {xs ys : List β} :
    replaceFirst? change xs = some ys ↔ ∃ before x after y, xs = before ++ x :: after ∧ change x = some y ∧
      (∀ b ∈ before, change b = none) ∧ ys = before ++ y :: after := by
  constructor
  · intro done
    induction xs generalizing ys with
    | nil => cases done
    | cons x xs ih =>
      rw [replaceFirst?] at done
      split at done
      next y changed =>
        cases done
        exact ⟨[], x, xs, y, rfl, changed, nofun, rfl⟩
      next unchanged =>
        obtain ⟨rest, later, rfl⟩ := Option.map_eq_some_iff.mp done
        obtain ⟨before, z, after, y, rfl, changed, first, rfl⟩ := ih later
        exact ⟨x :: before, z, after, y, rfl, changed, List.forall_mem_cons.mpr ⟨unchanged, first⟩, rfl⟩
  · rintro ⟨before, x, after, y, rfl, changed, first, rfl⟩
    induction before with
    | nil => simp only [List.nil_append, replaceFirst?, changed]
    | cons b before ih =>
      obtain ⟨unchanged, first⟩ := List.forall_mem_cons.mp first
      simp only [List.cons_append, replaceFirst?, unchanged, ih first, Option.map_some]

theorem takeFirst?_eq_none {result : β → Option γ} {xs : List β} :
    takeFirst? result xs = none ↔ ∀ x ∈ xs, result x = none := by
  induction xs with
  | nil => simp [takeFirst?]
  | cons x xs ih =>
    rw [takeFirst?, List.forall_mem_cons]
    cases result x with
    | some y => simp
    | none => simp [ih]

theorem takeFirst?_eq_some {result : β → Option γ} {xs : List β} {taken : γ × List β} :
    takeFirst? result xs = some taken ↔ ∃ before x after y, xs = before ++ x :: after ∧ result x = some y ∧
      (∀ b ∈ before, result b = none) ∧ taken = (y, before ++ after) := by
  constructor
  · intro done
    induction xs generalizing taken with
    | nil => cases done
    | cons x xs ih =>
      rw [takeFirst?] at done
      split at done
      next y found =>
        cases done
        exact ⟨[], x, xs, y, rfl, found, nofun, rfl⟩
      next passed =>
        obtain ⟨⟨y, rest⟩, later, rfl⟩ := Option.map_eq_some_iff.mp done
        obtain ⟨before, z, after, y, rfl, found, first, same⟩ := ih later
        cases same
        exact ⟨x :: before, z, after, y, rfl, found, List.forall_mem_cons.mpr ⟨passed, first⟩, rfl⟩
  · rintro ⟨before, x, after, y, rfl, found, first, rfl⟩
    induction before with
    | nil => simp only [List.nil_append, takeFirst?, found]
    | cons b before ih =>
      obtain ⟨passed, first⟩ := List.forall_mem_cons.mp first
      simp only [List.cons_append, takeFirst?, passed, ih first, Option.map_some]

end Lists

variable {α : Type}

/-- The comparison with a constant that a predicate is, if it is one that may be merged. -/
def Predicate.restriction? (p : Predicate α) : Option (Operand × PathEstimator.Restriction α) :=
  match p.operand, p.kind with
  | some operand, .compare op (some value) =>
    if value.isNull then none else (PathEstimator.restriction? op value).map (operand, ·)
  | _, _ => none

theorem Predicate.restriction?_eq_some {p : Predicate α} {operand : Operand} {d : PathEstimator.Restriction α} :
    p.restriction? = some (operand, d) ↔ p.operand = some operand ∧ ∃ op value, p.kind = .compare op (some value) ∧
      value.isNull = false ∧ PathEstimator.restriction? op value = some d := by
  constructor
  · intro restricts
    rw [restriction?] at restricts
    split at restricts
    next o op value onOperand kind =>
      split at restricts
      next => cases restricts
      next given =>
        obtain ⟨_, restriction, same⟩ := Option.map_eq_some_iff.mp restricts
        cases same
        exact ⟨onOperand, op, value, kind, Bool.eq_false_iff.mpr given, restriction⟩
    next => cases restricts
  · intro ⟨onOperand, op, value, kind, given, restriction⟩
    simp only [restriction?, onOperand, kind, given, restriction, Bool.false_eq_true, if_false, Option.map_some]

namespace PathEstimator

variable [Quantity α]

def plainKind (est : PathEstimator α) (p : Predicate α) : EstimateKind α :=
  match p.operand, p.kind with
  | some _, .compare .isNull _ => .null
  | some _, .compare .isNotNull _ => .notNull
  | some operand, .between (some low) (some high) =>
    if low.isNull || high.isNull then .default est.settings.predicateFactor
    else .range (Range.closed low high (est.path.extrapolates operand))
  | _, _ => .default est.settings.predicateFactor

def added (est : PathEstimator α) (p : Predicate α) (q : Qualifier) : PathEstimator α :=
  match p.restriction? with
  | some (operand, d) => (est.note p.operand).restrict p q operand d
  | none => (est.note p.operand).record p q (est.plainKind p)

omit [Quantity α] in
theorem note_eq (est : PathEstimator α) (operand : Option Operand) :
    ∃ missing, est.note operand = { est with missing } := by
  cases operand with
  | none => exact ⟨est.missing, rfl⟩
  | some o =>
    rw [note]
    split
    next => exact ⟨est.missing, rfl⟩
    next => exact ⟨_, rfl⟩

/-- No predicate is refused. -/
theorem add_eq (est : PathEstimator α) (p : Predicate α) (q : Qualifier) : est.add p q = .ok (est.added p q) := by
  obtain ⟨missing, noted⟩ := est.note_eq p.operand
  simp only [add, added, noted, classify, Predicate.restriction?, plainKind, byDefault]
  cases p.operand with
  | none => rfl
  | some operand =>
    cases p.kind with
    | other => rfl
    | between low high =>
      cases low with
      | none => rfl
      | some low =>
        cases high with
        | none => rfl
        | some high =>
          dsimp only
          split <;> rfl
    | compare op value =>
      cases value with
      | none => cases op <;> rfl
      | some value => cases op <;> cases value <;> rfl

def addedAll (est : PathEstimator α) (ps : List (Predicate α × Qualifier)) : PathEstimator α :=
  ps.foldl (fun est p => est.added p.1 p.2) est

theorem addAll_eq (est : PathEstimator α) (ps : List (Predicate α × Qualifier)) :
    est.addAll ps = .ok (est.addedAll ps) := by
  induction ps generalizing est with
  | nil => rfl
  | cons p ps ih => exact (congrArg (· >>= _) (est.add_eq p.1 p.2)).trans (ih _)

/-! ### Merging -/

def entry (p : Predicate α) (q : Qualifier) (kind : EstimateKind α) : Estimate α :=
  { operand := p.operand, qualifier := q, join := p.join, transformed := p.transformed, kind }

namespace Restriction

/-- What a comparison makes of a recorded range, if it is merged with it. -/
def narrowed? (provider : Provider α) (operand : Operand) : Restriction α → Range α → Option (Range α)
  | .equal _, _ => none
  | .unequal value, r => r.absorb? value (provider.least operand) (provider.greatest operand)
  | .bounded side bound, r => if side.openIn r then some (side.set r bound) else none

def fresh (path : AccessPath α) (operand : Operand) : Restriction α → EstimateKind α
  | .equal value => .range (Range.point value (path.extrapolates operand))
  | .unequal value => .notEquals value
  | .bounded side bound => .range (side.only bound (path.extrapolates operand))

def taking? (path : AccessPath α) (provider : Provider α) (operand : Operand) (d : Restriction α)
    (value : Scalar α) : Option (Range α) :=
  match d with
  | .bounded side bound => (side.only bound (path.extrapolates operand)).absorb? value
      (provider.least operand) (provider.greatest operand)
  | _ => none

end Restriction

section Merging

variable (path : AccessPath α) (provider : Provider α) (operand : Operand) (q : Qualifier) (d : Restriction α)

def narrows? (e : Estimate α) : Option (Estimate α) := changeRange? operand q (d.narrowed? provider operand) e

def takes? (e : Estimate α) : Option (Range α) :=
  if e.concerns operand q then e.excluded?.bind (d.taking? path provider operand) else none

/-- The first range that a comparison is merged with, and what becomes of it. -/
structure Narrows (es before : List (Estimate α)) (e : Estimate α) (after : List (Estimate α)) (r s : Range α) :
    Prop where
  split : es = before ++ e :: after
  first : ∀ b ∈ before, narrows? provider operand q d b = none
  concerns : e.concerns operand q = true
  kind : e.kind = .range r
  narrows : d.narrowed? provider operand r = some s

/-- The first excluded value that a new range takes in, and the range with it. -/
structure Takes (es before : List (Estimate α)) (e : Estimate α) (after : List (Estimate α)) (value : Scalar α)
    (s : Range α) : Prop where
  split : es = before ++ e :: after
  first : ∀ b ∈ before, takes? path provider operand q d b = none
  concerns : e.concerns operand q = true
  kind : e.kind = .notEquals value
  takes : d.taking? path provider operand value = some s

inductive Restricts (p : Predicate α) (es : List (Estimate α)) : List (Estimate α) → Prop
  | narrowed {before e after r s} (found : Narrows provider operand q d es before e after r s) :
      Restricts p es (before ++ { e with kind := .range s } :: after)
  | taken {before e after value s} (kept : ∀ e ∈ es, narrows? provider operand q d e = none)
      (found : Takes path provider operand q d es before e after value s) :
      Restricts p es (before ++ after ++ [entry p q (.range s)])
  | recorded (kept : ∀ e ∈ es, narrows? provider operand q d e = none)
      (left : ∀ e ∈ es, takes? path provider operand q d e = none) :
      Restricts p es (es ++ [entry p q (d.fresh path operand)])

def restricted (p : Predicate α) (es : List (Estimate α)) : List (Estimate α) :=
  match replaceFirst? (narrows? provider operand q d) es with
  | some merged => merged
  | none =>
    match takeFirst? (takes? path provider operand q d) es with
    | some (s, rest) => rest ++ [entry p q (.range s)]
    | none => es ++ [entry p q (d.fresh path operand)]

end Merging

variable {path : AccessPath α} {provider : Provider α} {operand : Operand} {q : Qualifier} {d : Restriction α}
  {p : Predicate α}

theorem narrows?_eq_some {e f : Estimate α} : narrows? provider operand q d e = some f ↔
    e.concerns operand q = true ∧ ∃ r s, e.kind = .range r ∧ d.narrowed? provider operand r = some s ∧
      f = { e with kind := .range s } := by
  rw [narrows?, changeRange?, Estimate.range?]
  split
  next concerns =>
    simp only [concerns, true_and]
    cases e.kind with
    | range r =>
      simp only [Option.bind_some, Option.map_eq_some_iff, EstimateKind.range.injEq]
      constructor
      · rintro ⟨s, changed, rfl⟩
        exact ⟨r, s, rfl, changed, rfl⟩
      · rintro ⟨_, s, rfl, changed, rfl⟩
        exact ⟨s, changed, rfl⟩
    | notEquals _ | null | notNull | default _ => simp
  next other => simp [other]

theorem takes?_eq_some {e : Estimate α} {s : Range α} : takes? path provider operand q d e = some s ↔
    e.concerns operand q = true ∧ ∃ value, e.kind = .notEquals value ∧
      d.taking? path provider operand value = some s := by
  rw [takes?, Estimate.excluded?]
  split
  next concerns =>
    simp only [concerns, true_and]
    cases e.kind with
    | notEquals value => simp only [Option.bind_some, EstimateKind.notEquals.injEq, exists_eq_left']
    | range _ | null | notNull | default _ => simp
  next other => simp [other]

/-- Comparisons of all kinds are merged by one rule. -/
theorem restrict_eq (est : PathEstimator α) (p : Predicate α) (q : Qualifier) (operand : Operand)
    (d : Restriction α) :
    est.restrict p q operand d =
      { est with recorded := restricted est.path est.provider operand q d p est.recorded } := by
  have passed (d : Restriction α) (never : ∀ v, d.taking? est.path est.provider operand v = none) :
      takeFirst? (takes? est.path est.provider operand q d) est.recorded = none := by
    apply takeFirst?_eq_none.mpr
    intro e _
    apply Option.eq_none_iff_forall_ne_some.mpr
    intro s takes
    obtain ⟨_, v, _, taken⟩ := takes?_eq_some.mp takes
    cases (never v).symm.trans taken
  cases d with
  | equal value =>
    have kept : replaceFirst? (narrows? est.provider operand q (.equal value)) est.recorded = none := by
      apply replaceFirst?_eq_none.mpr
      intro e _
      apply Option.eq_none_iff_forall_ne_some.mpr
      intro f changes
      obtain ⟨_, _, _, _, narrows, _⟩ := narrows?_eq_some.mp changes
      cases narrows
    rw [restricted, kept, passed _ fun _ => rfl]
    rfl
  | unequal value =>
    rw [restricted, passed _ fun _ => rfl, restrict, absorbed?]
    unfold narrows? Restriction.narrowed?
    split
    next merged changed => rw [changed]
    next kept => rw [kept]; rfl
  | bounded side bound =>
    rw [restricted, restrict, bounded?, freshRange]
    unfold narrows? Restriction.narrowed? takes? Restriction.taking?
    split
    next merged changed => rw [changed]
    next kept =>
      rw [kept]
      cases takeFirst? _ est.recorded with
      | none => rfl
      | some taken => rfl

theorem restricts_iff {es fs : List (Estimate α)} :
    Restricts path provider operand q d p es fs ↔ fs = restricted path provider operand q d p es := by
  constructor
  · intro restricts
    rw [restricted]
    cases restricts with
    | narrowed found =>
      have narrows := narrows?_eq_some.mpr ⟨found.concerns, _, _, found.kind, found.narrows, rfl⟩
      rw [replaceFirst?_eq_some.mpr ⟨_, _, _, _, found.split, narrows, found.first, rfl⟩]
    | taken kept found =>
      have takes := takes?_eq_some.mpr ⟨found.concerns, _, found.kind, found.takes⟩
      rw [replaceFirst?_eq_none.mpr kept, takeFirst?_eq_some.mpr ⟨_, _, _, _, found.split, takes, found.first, rfl⟩]
    | recorded kept left => rw [replaceFirst?_eq_none.mpr kept, takeFirst?_eq_none.mpr left]
  · rintro rfl
    rw [restricted]
    split
    next merged changed =>
      obtain ⟨before, e, after, f, split, here, first, rfl⟩ := replaceFirst?_eq_some.mp changed
      obtain ⟨concerns, r, s, kind, narrows, rfl⟩ := narrows?_eq_some.mp here
      exact .narrowed ⟨split, first, concerns, kind, narrows⟩
    next kept =>
      have kept := replaceFirst?_eq_none.mp kept
      split
      next s rest took =>
        obtain ⟨before, e, after, t, split, here, first, same⟩ := takeFirst?_eq_some.mp took
        cases same
        obtain ⟨concerns, value, kind, takes⟩ := takes?_eq_some.mp here
        exact .taken kept ⟨split, first, concerns, kind, takes⟩
      next left => exact .recorded kept (takeFirst?_eq_none.mp left)

theorem Restricts.unique {es fs gs : List (Estimate α)} (first : Restricts path provider operand q d p es fs)
    (second : Restricts path provider operand q d p es gs) : fs = gs :=
  (restricts_iff.mp first).trans (restricts_iff.mp second).symm

theorem Restricts.forall {holds : Estimate α → Prop} {es fs : List (Estimate α)}
    (restricts : Restricts path provider operand q d p es fs) (fresh : holds (entry p q (d.fresh path operand)))
    (narrowed : ∀ e r s, holds e → e.kind = .range r → d.narrowed? provider operand r = some s →
      holds { e with kind := .range s })
    (taken : ∀ e value s, holds e → e.kind = .notEquals value → d.taking? path provider operand value = some s →
      holds (entry p q (.range s)))
    (before : ∀ e ∈ es, holds e) : ∀ e ∈ fs, holds e := by
  cases restricts with
  | narrowed found =>
    obtain ⟨rfl, _, _, kind, narrows⟩ := found
    rw [List.forall_mem_append, List.forall_mem_cons] at before ⊢
    obtain ⟨earlier, here, later⟩ := before
    exact ⟨earlier, narrowed _ _ _ here kind narrows, later⟩
  | taken _ found =>
    obtain ⟨rfl, _, _, kind, takes⟩ := found
    rw [List.forall_mem_append, List.forall_mem_cons] at before
    obtain ⟨earlier, here, later⟩ := before
    rw [List.forall_mem_append, List.forall_mem_append, List.forall_mem_singleton]
    exact ⟨⟨earlier, later⟩, taken _ _ _ here kind takes⟩
  | recorded => exact List.forall_mem_append.mpr ⟨before, List.forall_mem_singleton.mpr fresh⟩

/-- Whatever is added, only the notes and the recorded estimates change. -/
theorem added_cases (est : PathEstimator α) (p : Predicate α) (q : Qualifier) :
    ∃ es missing, est.added p q = { est with recorded := es, missing } ∧
      match p.restriction? with
      | some (operand, d) => Restricts est.path est.provider operand q d p est.recorded es
      | none => es = est.recorded ++ [entry p q (est.plainKind p)] := by
  obtain ⟨missing, noted⟩ := est.note_eq p.operand
  rw [added, noted]
  split
  next operand d _ => exact ⟨_, missing, restrict_eq _ p q operand d, restricts_iff.mpr rfl⟩
  next => exact ⟨_, missing, rfl, rfl⟩

theorem addedAll_fields (est : PathEstimator α) (ps : List (Predicate α × Qualifier)) :
    (est.addedAll ps).path = est.path ∧ (est.addedAll ps).provider = est.provider ∧
      (est.addedAll ps).settings = est.settings := by
  induction ps generalizing est with
  | nil => exact ⟨rfl, rfl, rfl⟩
  | cons p ps ih =>
    obtain ⟨es, missing, result, _⟩ := est.added_cases p.1 p.2
    have rest := ih (est.added p.1 p.2)
    rw [result] at rest
    rw [addedAll, List.foldl_cons, result]
    exact rest

/-! ### Runs -/

/-- What a call makes of the recorded estimates. -/
def step (est : PathEstimator α) (es : List (Estimate α)) (p : Predicate α × Qualifier) : List (Estimate α) :=
  match p.1.restriction? with
  | some (operand, d) => restricted est.path est.provider operand p.2 d p.1 es
  | none => es ++ [entry p.1 p.2 (est.plainKind p.1)]

theorem step_added (est : PathEstimator α) (p : Predicate α) (q : Qualifier) : (est.added p q).step = est.step := by
  obtain ⟨es, missing, result, _⟩ := est.added_cases p q
  rw [result]
  rfl

theorem added_recorded (est : PathEstimator α) (p : Predicate α × Qualifier) :
    (est.added p.1 p.2).recorded = est.step est.recorded p := by
  obtain ⟨es, missing, result, outcome⟩ := est.added_cases p.1 p.2
  rw [result, step]
  cases found : p.1.restriction? with
  | none =>
    rw [found] at outcome
    exact outcome
  | some restriction =>
    rw [found] at outcome
    exact restricts_iff.mp outcome

theorem addedAll_recorded (est : PathEstimator α) (ps : List (Predicate α × Qualifier)) :
    (est.addedAll ps).recorded = ps.foldl est.step est.recorded := by
  induction ps generalizing est with
  | nil => rfl
  | cons p ps ih =>
    have rest := ih (est.added p.1 p.2)
    rwa [est.step_added, est.added_recorded] at rest

/-- All that a call can do to an estimate, or to the list of them, keeps what holds of them. -/
structure Preserves (est : PathEstimator α) (p : Predicate α × Qualifier) (holds : Estimate α → Prop) : Prop where
  plain : p.1.restriction? = none → holds (entry p.1 p.2 (est.plainKind p.1))
  fresh : ∀ operand d, p.1.restriction? = some (operand, d) → holds (entry p.1 p.2 (d.fresh est.path operand))
  narrowed : ∀ operand d e r s, p.1.restriction? = some (operand, d) → holds e → e.kind = .range r →
    d.narrowed? est.provider operand r = some s → holds { e with kind := .range s }
  taken : ∀ operand d e value s, p.1.restriction? = some (operand, d) → holds e → e.kind = .notEquals value →
    d.taking? est.path est.provider operand value = some s → holds (entry p.1 p.2 (.range s))

variable {est : PathEstimator α} {holds : Estimate α → Prop}

theorem step_forall {p : Predicate α × Qualifier} (preserves : est.Preserves p holds) {es : List (Estimate α)}
    (before : ∀ e ∈ es, holds e) : ∀ e ∈ est.step es p, holds e := by
  rw [step]
  split
  next operand d restricts =>
    exact (restricts_iff.mpr rfl).forall (preserves.fresh operand d restricts)
      (fun e r s => preserves.narrowed operand d e r s restricts)
      (fun e value s => preserves.taken operand d e value s restricts) before
  next none => exact List.forall_mem_append.mpr ⟨before, List.forall_mem_singleton.mpr (preserves.plain none)⟩

theorem addedAll_forall {ps : List (Predicate α × Qualifier)} (preserves : ∀ p ∈ ps, est.Preserves p holds)
    (before : ∀ e ∈ est.recorded, holds e) : ∀ e ∈ (est.addedAll ps).recorded, holds e := by
  rw [addedAll_recorded]
  generalize est.recorded = es at before ⊢
  induction ps generalizing es with
  | nil => exact before
  | cons p ps ih =>
    obtain ⟨first, rest⟩ := List.forall_mem_cons.mp preserves
    exact ih rest _ (step_forall first before)

end PathEstimator
end Selectivity
