import Selectivity.Proofs.EstimatorSteps
import Selectivity.Statistics.Table

/-! Predicates of the join beside ordinary ones. They count in a nested-loop join only,
but merging does not look at where a range or an excluded value came from. The ordinary
estimates are those of the ordinary predicates alone as long as no call merges across
that line to an effect. -/

namespace Selectivity

variable {α : Type} [Quantity α]

namespace PathEstimator

def counted (est : PathEstimator α) : List (Estimate α) :=
  est.recorded.filter (·.participates est.path.joinMethod)

def ordinary (es : List (Estimate α)) : List (Estimate α) := es.filter (!·.join)

omit [Quantity α] in
theorem counted_eq {est : PathEstimator α} (other : est.path.joinMethod ≠ some .nestedLoop) :
    est.counted = ordinary est.recorded := by
  apply List.filter_congr
  intro e _
  rw [Estimate.participates, beq_eq_false_iff_ne.mpr other, Bool.or_false]

section Lists

variable {e : Estimate α} {before after : List (Estimate α)}

omit [Quantity α] in
@[simp] theorem ordinary_append (es fs : List (Estimate α)) : ordinary (es ++ fs) = ordinary es ++ ordinary fs :=
  List.filter_append ..

omit [Quantity α] in
theorem ordinary_join (join : e.join = true) (es : List (Estimate α)) : ordinary (e :: es) = ordinary es :=
  List.filter_cons_of_neg (by simp [join])

omit [Quantity α] in
theorem ordinary_cons (plain : e.join = false) (es : List (Estimate α)) : ordinary (e :: es) = e :: ordinary es :=
  List.filter_cons_of_pos (by simp [plain])

omit [Quantity α] in
theorem ordinary_changed (join : e.join = true) (kind : EstimateKind α) :
    ordinary (before ++ { e with kind } :: after) = ordinary (before ++ e :: after) := by
  have changed : ({ e with kind } : Estimate α).join = true := join
  rw [ordinary_append, ordinary_append, ordinary_join join, ordinary_join changed]

omit [Quantity α] in
theorem ordinary_entry_join {p : Predicate α} (join : p.join = true) (q : Qualifier) (kind : EstimateKind α) :
    ordinary [entry p q kind] = [] := ordinary_join join []

omit [Quantity α] in
theorem ordinary_entry {p : Predicate α} (plain : p.join = false) (q : Qualifier) (kind : EstimateKind α) :
    ordinary [entry p q kind] = [entry p q kind] := ordinary_cons plain []

omit [Quantity α] in
theorem withKind_eq {kind : EstimateKind α} (same : e.kind = kind) : { e with kind } = e := by
  cases same
  rfl

omit [Quantity α] in
theorem mem_of_mem_ordinary {es : List (Estimate α)} (member : e ∈ ordinary es) : e ∈ es :=
  (List.mem_filter.mp member).1

end Lists

/-- A comparison is merged across the line between join and ordinary predicates, and the
ordinary estimates are not what they would be without the predicates of the join. -/
inductive Mixes (path : AccessPath α) (provider : Provider α) (operand : Operand) (q : Qualifier) (d : Restriction α)
    (p : Predicate α) (es : List (Estimate α)) : Prop
  /-- A predicate of the join narrows an ordinary range. -/
  | narrows {before e after r s} (join : p.join = true) (found : Narrows provider operand q d es before e after r s)
      (plain : e.join = false) (changed : s ≠ r)
  /-- A range of the join takes an ordinary excluded value in. -/
  | takes {before e after value s} (join : p.join = true) (kept : ∀ e ∈ es, narrows? provider operand q d e = none)
      (found : Takes path provider operand q d es before e after value s) (plain : e.join = false)
  /-- An ordinary predicate narrows a range of the join, and no ordinary range is as narrow already. -/
  | hides {before e after r s} (plain : p.join = false) (found : Narrows provider operand q d es before e after r s)
      (join : e.join = true)
      (needed : ∀ before e after r, ¬ Narrows provider operand q d (ordinary es) before e after r r)
  /-- An ordinary range takes an excluded value of the join in, and is narrower for it or
  would have taken an ordinary one. -/
  | steals {before e after value s} (plain : p.join = false) (kept : ∀ e ∈ es, narrows? provider operand q d e = none)
      (found : Takes path provider operand q d es before e after value s) (join : e.join = true)
      (differs : ¬ (d.fresh path operand = .range s ∧ ∀ e ∈ ordinary es, takes? path provider operand q d e = none))

variable {path : AccessPath α} {provider : Provider α} {operand : Operand} {q : Qualifier} {d : Restriction α}
  {p : Predicate α} {es fs : List (Estimate α)}

/-! ### One comparison -/

/-- A predicate of the join that mixes nothing leaves the ordinary estimates alone. -/
private theorem ordinary_of_join (join : p.join = true) (restricts : Restricts path provider operand q d p es fs)
    (apart : ¬ Mixes path provider operand q d p es) : ordinary fs = ordinary es := by
  cases restricts with
  | @narrowed before e after r s found =>
    by_cases joined : e.join = true
    · rw [found.split, ordinary_changed joined]
    · have plain := Bool.eq_false_iff.mpr joined
      have same : s = r := Classical.byContradiction fun changed => apart (.narrows join found plain changed)
      rw [found.split, same, withKind_eq found.kind]
  | @taken before e after value s kept found =>
    have joined : e.join = true := by
      apply Classical.byContradiction
      intro plain
      exact apart (.takes join kept found (Bool.eq_false_iff.mpr plain))
    rw [ordinary_append, ordinary_entry_join join, List.append_nil, found.split, ordinary_append, ordinary_append,
      ordinary_join joined]
  | recorded => rw [ordinary_append, ordinary_entry_join join, List.append_nil]

private theorem ordinary_of_mixes (join : p.join = true) (restricts : Restricts path provider operand q d p es fs)
    (mixes : Mixes path provider operand q d p es) : ordinary fs ≠ ordinary es := by
  intro same
  cases mixes with
  | @narrows before e after r s _ found plain changed =>
    have result : fs = before ++ { e with kind := .range s } :: after := restricts.unique (.narrowed found)
    have narrowed : ({ e with kind := .range s } : Estimate α).join = false := plain
    rw [result, found.split, ordinary_append, ordinary_append, ordinary_cons narrowed, ordinary_cons plain] at same
    have here := (List.cons_eq_cons.mp (List.append_cancel_left same)).1
    have kinds := congrArg Estimate.kind here
    rw [found.kind] at kinds
    cases kinds
    exact changed rfl
  | @takes before e after value s _ kept found plain =>
    have result : fs = before ++ after ++ [entry p q (.range s)] := restricts.unique (.taken kept found)
    have lengths := congrArg List.length same
    rw [result, found.split] at lengths
    simp [ordinary_entry_join join, ordinary_cons plain] at lengths
  | hides plain => cases join.symm.trans plain
  | steals plain => cases join.symm.trans plain

/-- An ordinary predicate that mixes nothing does to the ordinary estimates what it does to
all of them. -/
private theorem restricts_ordinary (plain : p.join = false) (restricts : Restricts path provider operand q d p es fs)
    (apart : ¬ Mixes path provider operand q d p es) :
    Restricts path provider operand q d p (ordinary es) (ordinary fs) := by
  cases restricts with
  | @narrowed before e after r s found =>
    have ⟨split, first, concerns, kind, narrows⟩ := found
    by_cases joined : e.join = true
    · obtain ⟨before', f, after', t, found'⟩ : ∃ before e after r,
          Narrows provider operand q d (ordinary es) before e after r r := by
        apply Classical.byContradiction
        intro needed
        exact apart (.hides plain found joined (fun before e after r found => needed ⟨before, e, after, r, found⟩))
      have unchanged : Restricts path provider operand q d p (ordinary es) _ := .narrowed found'
      rw [withKind_eq found'.kind, ← found'.split] at unchanged
      rw [ordinary_changed joined, ← split]
      exact unchanged
    · have plain := Bool.eq_false_iff.mpr joined
      have narrowed : ({ e with kind := .range s } : Estimate α).join = false := plain
      rw [ordinary_append, ordinary_cons narrowed]
      refine .narrowed ⟨?_, fun b member => first b (mem_of_mem_ordinary member), concerns, kind, narrows⟩
      rw [split, ordinary_append, ordinary_cons plain]
  | @taken before e after value s kept found =>
    have ⟨split, first, concerns, kind, takes⟩ := found
    have kept' : ∀ e ∈ ordinary es, narrows? provider operand q d e = none :=
      fun e member => kept e (mem_of_mem_ordinary member)
    rw [ordinary_append, ordinary_append, ordinary_entry plain]
    by_cases joined : e.join = true
    · have idle : d.fresh path operand = .range s ∧ ∀ e ∈ ordinary es, takes? path provider operand q d e = none :=
        Classical.byContradiction fun differs => apart (.steals plain kept found joined differs)
      have result : ordinary before ++ ordinary after = ordinary es := by
        rw [split, ordinary_append, ordinary_join joined]
      rw [result, ← idle.1]
      exact .recorded kept' idle.2
    · have plain := Bool.eq_false_iff.mpr joined
      refine .taken kept' ⟨?_, fun b member => first b (mem_of_mem_ordinary member), concerns, kind, takes⟩
      rw [split, ordinary_append, ordinary_cons plain]
  | recorded kept left =>
    rw [ordinary_append, ordinary_entry plain]
    exact .recorded (fun e member => kept e (mem_of_mem_ordinary member))
      (fun e member => left e (mem_of_mem_ordinary member))

private theorem restricts_ne {es fs : List (Estimate α)} (restricts : Restricts path provider operand q d p es fs)
    (needed : ∀ before e after r, ¬ Narrows provider operand q d es before e after r r) : fs ≠ es := by
  intro same
  cases restricts with
  | @narrowed before e after r s found =>
    rw [found.split] at same
    have here := (List.cons_eq_cons.mp (List.append_cancel_left same)).1
    have kinds := congrArg Estimate.kind here
    rw [found.kind] at kinds
    cases kinds
    exact needed before e after r found
  | @taken before e after value s _ found =>
    -- The length is the same, but one excluded value less is left.
    have counts := congrArg (List.countP fun e => e.excluded?.isSome) same
    rw [found.split] at counts
    simp [Estimate.excluded?, found.kind, entry] at counts
  | recorded => simpa using congrArg List.length same

private theorem fresh_of_restricts {kind : EstimateKind α} (restricts : Restricts path provider operand q d p es fs)
    (longer : fs = es ++ [entry p q kind]) :
    d.fresh path operand = kind ∧ ∀ e ∈ es, takes? path provider operand q d e = none := by
  have lengths := congrArg List.length longer
  cases restricts with
  | narrowed found => simp [found.split] at lengths
  | taken _ found => simp [found.split] at lengths
  | recorded _ left =>
    have last := List.append_cancel_left longer
    exact ⟨congrArg Estimate.kind (List.cons_eq_cons.mp last).1, left⟩

private theorem not_restricts_ordinary (plain : p.join = false)
    (restricts : Restricts path provider operand q d p es fs) (mixes : Mixes path provider operand q d p es) :
    ¬ Restricts path provider operand q d p (ordinary es) (ordinary fs) := by
  intro alone
  cases mixes with
  | narrows join => cases join.symm.trans plain
  | takes join => cases join.symm.trans plain
  | @hides before e after r s _ found joined needed =>
    have result : fs = before ++ { e with kind := .range s } :: after := restricts.unique (.narrowed found)
    have same : ordinary fs = ordinary es := by rw [result, found.split, ordinary_changed joined]
    exact restricts_ne alone needed same
  | @steals before e after value s _ kept found joined differs =>
    have result : fs = before ++ after ++ [entry p q (.range s)] := restricts.unique (.taken kept found)
    have longer : ordinary fs = ordinary es ++ [entry p q (.range s)] := by
      rw [result, found.split, ordinary_append, ordinary_append, ordinary_append, ordinary_entry plain,
        ordinary_join joined]
    exact differs (fresh_of_restricts alone longer)

/-! ### One predicate -/

variable {est alone : PathEstimator α}

/-- What an estimator holds without the predicates of the join. -/
structure Alone (est alone : PathEstimator α) : Prop where
  path : alone.path = est.path
  provider : alone.provider = est.provider
  settings : alone.settings = est.settings
  recorded : alone.recorded = ordinary est.recorded

def MixesWith (est : PathEstimator α) (p : Predicate α) (q : Qualifier) : Prop :=
  ∃ operand d, p.restriction? = some (operand, d) ∧ Mixes est.path est.provider operand q d p est.recorded

def addedAlone (est : PathEstimator α) (p : Predicate α) (q : Qualifier) : PathEstimator α :=
  if p.join then est else est.added p q

theorem Alone.step (held : Alone est alone) (p : Predicate α) (q : Qualifier) :
    Alone (est.added p q) (alone.addedAlone p q) ↔ ¬ est.MixesWith p q := by
  obtain ⟨es, missing, result, recorded⟩ := est.added_cases p q
  obtain ⟨fs, missing', result', recorded'⟩ := alone.added_cases p q
  rw [held.path, held.provider, held.recorded] at recorded'
  have same : Alone (est.added p q) (alone.addedAlone p q) ↔
      (if p.join then ordinary est.recorded else fs) = ordinary es := by
    rw [addedAlone, result, result']
    split
    next =>
      rw [← held.recorded]
      exact ⟨Alone.recorded, fun same => ⟨held.path, held.provider, held.settings, same⟩⟩
    next => exact ⟨Alone.recorded, fun same => ⟨held.path, held.provider, held.settings, same⟩⟩
  rw [same]
  cases restriction : p.restriction? with
  | none =>
    rw [restriction] at recorded recorded'
    have apart : ¬ est.MixesWith p q := by
      intro ⟨_, _, given, _⟩
      cases restriction.symm.trans given
    refine iff_of_true ?_ apart
    rw [recorded, ordinary_append]
    split
    next join => rw [ordinary_entry_join join, List.append_nil]
    next join =>
      have kinds : alone.plainKind p = est.plainKind p := by rw [plainKind, plainKind, held.path, held.settings]
      rw [ordinary_entry (Bool.eq_false_iff.mpr join), recorded', kinds]
  | some restricted =>
    obtain ⟨operand, d⟩ := restricted
    rw [restriction] at recorded recorded'
    have mixes : est.MixesWith p q ↔ Mixes est.path est.provider operand q d p est.recorded := by
      constructor
      · intro ⟨_, _, given, mixes⟩
        cases restriction.symm.trans given
        exact mixes
      · exact fun mixes => ⟨operand, d, restriction, mixes⟩
    rw [mixes]
    split
    next join =>
      constructor
      · exact fun unchanged mixes => ordinary_of_mixes join recorded mixes unchanged.symm
      · exact fun apart => (ordinary_of_join join recorded apart).symm
    next join =>
      have plain := Bool.eq_false_iff.mpr join
      constructor
      · exact fun same mixes => not_restricts_ordinary plain recorded mixes (same ▸ recorded')
      · exact fun apart => recorded'.unique (restricts_ordinary plain recorded apart)

/-! ### Any number of predicates -/

def Unmixed (est : PathEstimator α) : List (Predicate α × Qualifier) → Prop
  | [] => True
  | p :: ps => ¬ est.MixesWith p.1 p.2 ∧ (est.added p.1 p.2).Unmixed ps

def withoutJoins (ps : List (Predicate α × Qualifier)) : List (Predicate α × Qualifier) := ps.filter (!·.1.join)

theorem addedAll_withoutJoins (alone : PathEstimator α) (p : Predicate α × Qualifier)
    (ps : List (Predicate α × Qualifier)) :
    alone.addedAll (withoutJoins (p :: ps)) = (alone.addedAlone p.1 p.2).addedAll (withoutJoins ps) := by
  rw [addedAlone, withoutJoins]
  split
  next join => rw [List.filter_cons_of_neg (by simp [join])]; rfl
  next join => rw [List.filter_cons_of_pos (by simp [join])]; rfl

theorem Alone.run_iff (held : Alone est alone) (ps : List (Predicate α × Qualifier)) :
    (∀ done, done <+: ps → Alone (est.addedAll done) (alone.addedAll (withoutJoins done))) ↔ est.Unmixed ps := by
  induction ps generalizing est alone with
  | nil =>
    refine iff_of_true (fun done start => ?_) trivial
    cases List.prefix_nil.mp start
    exact held
  | cons p ps ih =>
    have later (done : List (Predicate α × Qualifier)) :
        Alone (est.addedAll (p :: done)) (alone.addedAll (withoutJoins (p :: done))) ↔
          Alone ((est.added p.1 p.2).addedAll done) ((alone.addedAlone p.1 p.2).addedAll (withoutJoins done)) := by
      rw [addedAll_withoutJoins]
      rfl
    rw [Unmixed, ← held.step p.1 p.2]
    constructor
    · intro all
      have first := (later []).mp (all [p] (List.prefix_append [p] ps))
      refine ⟨first, (ih first).mp fun done start => (later done).mp (all _ ?_)⟩
      exact List.cons_prefix_cons.mpr ⟨rfl, start⟩
    · intro ⟨first, unmixed⟩ done start
      cases done with
      | nil => exact held
      | cons other done =>
        obtain ⟨rfl, rest⟩ := List.cons_prefix_cons.mp start
        exact (later done).mpr ((ih first).mpr unmixed done rest)

/-- Every estimate was recorded for a predicate, and merging changes none of this. -/
theorem added_origin (est : PathEstimator α) (p : Predicate α) (q : Qualifier) {e : Estimate α}
    (member : e ∈ (est.added p q).recorded) :
    (e.operand = p.operand ∧ e.qualifier = q ∧ e.join = p.join) ∨
      ∃ f ∈ est.recorded, f.operand = e.operand ∧ f.qualifier = e.qualifier ∧ f.join = e.join := by
  have old : ∀ f ∈ est.recorded, (f.operand = p.operand ∧ f.qualifier = q ∧ f.join = p.join) ∨
      ∃ g ∈ est.recorded, g.operand = f.operand ∧ g.qualifier = f.qualifier ∧ g.join = f.join :=
    fun f recorded => .inr ⟨f, recorded, rfl, rfl, rfl⟩
  rw [est.added_recorded (p, q)] at member
  refine step_forall ⟨fun _ => .inl ⟨rfl, rfl, rfl⟩, fun _ _ _ => .inl ⟨rfl, rfl, rfl⟩, ?_, ?_⟩ old e member
  · exact fun _ _ _ _ _ _ origin _ _ => origin
  · exact fun _ _ _ _ _ _ _ _ _ => .inl ⟨rfl, rfl, rfl⟩

private theorem ordinary_addedAll {ps : List (Predicate α × Qualifier)} (plains : ∀ p ∈ ps, p.1.join = false)
    (before : ∀ e ∈ est.recorded, e.join = false) : ∀ e ∈ (est.addedAll ps).recorded, e.join = false := by
  induction ps generalizing est with
  | nil => exact before
  | cons p ps ih =>
    obtain ⟨plain, plains⟩ := List.forall_mem_cons.mp plains
    apply ih plains
    intro e member
    rcases est.added_origin p.1 p.2 member with ⟨_, _, join⟩ | ⟨f, old, _, _, join⟩
    · exact join.trans plain
    · exact join.symm.trans (before f old)

private theorem MixesWith.partner (mixes : est.MixesWith p q) :
    ∃ operand, p.operand = some operand ∧ ∃ e ∈ est.recorded, e.operand = some operand ∧ e.qualifier = q ∧
      e.join ≠ p.join := by
  obtain ⟨operand, d, restriction, mixes⟩ := mixes
  refine ⟨operand, (Predicate.restriction?_eq_some.mp restriction).1, ?_⟩
  have found {e : Estimate α} {before after : List (Estimate α)} (split : est.recorded = before ++ e :: after)
      (concerns : e.concerns operand q = true) (differs : e.join ≠ p.join) :
      ∃ e ∈ est.recorded, e.operand = some operand ∧ e.qualifier = q ∧ e.join ≠ p.join := by
    obtain ⟨same, same'⟩ := Bool.and_eq_true_iff.mp concerns
    exact ⟨e, by simp [split], beq_iff_eq.mp same, beq_iff_eq.mp same', differs⟩
  cases mixes with
  | narrows join h plain => exact found h.split h.concerns (by simp [join, plain])
  | takes join _ h plain => exact found h.split h.concerns (by simp [join, plain])
  | hides plain h join => exact found h.split h.concerns (by simp [join, plain])
  | steals plain _ h join => exact found h.split h.concerns (by simp [join, plain])

/-- Nothing is mixed where no operand is restricted by both kinds of predicates under one
qualifier. -/
theorem unmixed_of_apart {ps : List (Predicate α × Qualifier)}
    (apart : ∀ a ∈ ps, ∀ b ∈ ps, a.1.operand = b.1.operand → a.2 = b.2 → a.1.operand = none ∨ a.1.join = b.1.join)
    (before : ∀ e ∈ est.recorded, ∀ p ∈ ps, e.operand = p.1.operand → e.qualifier = p.2 →
      e.operand = none ∨ e.join = p.1.join) : est.Unmixed ps := by
  induction ps generalizing est with
  | nil => trivial
  | cons p ps ih =>
    constructor
    · intro mixes
      obtain ⟨operand, same, e, member, onOperand, underQualifier, differs⟩ := mixes.partner
      rcases before e member p List.mem_cons_self (onOperand.trans same.symm) underQualifier with none | join
      · cases none.symm.trans onOperand
      · exact differs join
    · apply ih
      · exact fun a first b second => apart a (List.mem_cons_of_mem p first) b (List.mem_cons_of_mem p second)
      · intro e member a inside onOperand underQualifier
        rcases est.added_origin p.1 p.2 member with ⟨operand, qualifier, join⟩ | ⟨f, old, operand, qualifier, join⟩
        · rw [operand, join]
          exact apart p List.mem_cons_self a (List.mem_cons_of_mem p inside) (operand.symm.trans onOperand)
            (qualifier.symm.trans underQualifier)
        · rw [← operand, ← join]
          exact before f old a (List.mem_cons_of_mem p inside) (operand.trans onOperand) (qualifier.trans underQualifier)

/-- Without predicates of the join among them, all recorded estimates count. -/
private theorem alone_iff_counted {start : PathEstimator α} (other : start.path.joinMethod ≠ some .nestedLoop)
    (empty : start.recorded = []) (ps : List (Predicate α × Qualifier)) :
    Alone (start.addedAll ps) (start.addedAll (withoutJoins ps)) ↔
      (start.addedAll ps).counted = (start.addedAll (withoutJoins ps)).counted := by
  obtain ⟨samePath, sameProvider, sameSettings⟩ := start.addedAll_fields ps
  obtain ⟨samePath', sameProvider', sameSettings'⟩ := start.addedAll_fields (withoutJoins ps)
  have plain : ordinary (start.addedAll (withoutJoins ps)).recorded = (start.addedAll (withoutJoins ps)).recorded := by
    apply List.filter_eq_self.mpr
    intro e member
    have plains : ∀ p ∈ withoutJoins ps, p.1.join = false := by
      intro p member
      simpa using (List.mem_filter.mp member).2
    have before : ∀ e ∈ start.recorded, e.join = false := by
      rw [empty]
      exact fun e member => (List.not_mem_nil member).elim
    simpa using ordinary_addedAll plains before e member
  rw [counted_eq (samePath ▸ other), counted_eq (samePath' ▸ other), plain]
  constructor
  · exact fun held => held.recorded.symm
  · exact fun same => ⟨samePath'.trans samePath.symm, sameProvider'.trans sameProvider.symm,
      sameSettings'.trans sameSettings.symm, same.symm⟩

theorem Alone.totalSelectivity (held : Alone est alone) (same : est.counted = alone.counted) :
    est.totalSelectivity = alone.totalSelectivity := by
  rw [counted, counted] at same
  rw [PathEstimator.totalSelectivity, PathEstimator.totalSelectivity, composed, composed, same, held.provider,
    held.settings]

theorem Alone.selectivityOf (held : Alone est alone) (same : est.counted = alone.counted) (qs : List Qualifier) :
    est.selectivityOf qs = alone.selectivityOf qs := by
  rw [counted, counted] at same
  have chosen (es : List (Estimate α)) (test : Estimate α → Bool) :
      (es.filter fun e => qs.contains e.qualifier).filter test =
        (es.filter test).filter fun e => qs.contains e.qualifier := by
    rw [List.filter_filter, List.filter_filter]
    exact List.filter_congr fun e _ => Bool.and_comm ..
  rw [PathEstimator.selectivityOf, PathEstimator.selectivityOf, composed, composed, chosen, chosen, same,
    held.provider, held.settings]

/-- The predicates of the join are without effect throughout exactly if none is mixed
with ordinary ones, and then neither the total nor any part of it depends on them. -/
theorem counted_withoutJoins_iff (path : AccessPath α) (other : path.joinMethod ≠ some .nestedLoop)
    (provider : Provider α) (settings : Settings α) (ps : List (Predicate α × Qualifier)) :
    let start : PathEstimator α := { path, provider, settings }
    ((∀ done, done <+: ps → ∃ est alone, start.addAll done = .ok est ∧
        start.addAll (withoutJoins done) = .ok alone ∧ est.counted = alone.counted) ↔ start.Unmixed ps) ∧
      (start.Unmixed ps → ∃ est alone, start.addAll ps = .ok est ∧ start.addAll (withoutJoins ps) = .ok alone ∧
        est.totalSelectivity = alone.totalSelectivity ∧ ∀ qs, est.selectivityOf qs = alone.selectivityOf qs) := by
  intro start
  have held : Alone start start := ⟨rfl, rfl, rfl, rfl⟩
  have counts (done : List (Predicate α × Qualifier)) : Alone (start.addedAll done) (start.addedAll (withoutJoins done)) ↔
      (start.addedAll done).counted = (start.addedAll (withoutJoins done)).counted :=
    alone_iff_counted other rfl done
  constructor
  · rw [← held.run_iff ps]
    refine forall_congr' fun done => forall_congr' fun _ => ?_
    rw [counts done]
    constructor
    · intro ⟨est, alone, run, run', same⟩
      cases (start.addAll_eq done).symm.trans run
      cases (start.addAll_eq (withoutJoins done)).symm.trans run'
      exact same
    · exact fun same => ⟨_, _, start.addAll_eq done, start.addAll_eq (withoutJoins done), same⟩
  · intro unmixed
    have alone := (held.run_iff ps).mpr unmixed ps List.prefix_rfl
    have same := (counts ps).mp alone
    exact ⟨_, _, start.addAll_eq ps, start.addAll_eq (withoutJoins ps), alone.totalSelectivity same,
      alone.selectivityOf same⟩

/-- Under a hash join, `> 5` of the join on one column leaves the total of `< 10` on another alone. -/
theorem totalSelectivity_withoutJoins_hash :
    let start : PathEstimator Float :=
      { path := { AccessPath.ofName "t_idx" with joinMethod := some .hash },
        provider := (TableStats.ofRows 0.0).provider, settings := Settings.default }
    let above := { Predicate.comparison (.column 1) .gt (.int 5) with join := true }
    let below := Predicate.comparison (.column 2) .lt (.int 10)
    ∃ est alone, start.addAll [(above, .base), (below, .base)] = .ok est ∧
      start.addAll [(below, .base)] = .ok alone ∧ est.totalSelectivity = alone.totalSelectivity := by
  intro start above below
  have unmixed : start.Unmixed [(above, .base), (below, .base)] := by
    apply unmixed_of_apart
    · simp [above, below, Predicate.comparison]
    · exact fun e member => (List.not_mem_nil member).elim
  obtain ⟨est, alone, run, run', total, _⟩ :=
    (counted_withoutJoins_iff start.path (by simp [start]) start.provider start.settings
      [(above, .base), (below, .base)]).2 unmixed
  exact ⟨est, alone, run, run', total⟩

/-- Under a hash join, `> 5` of the join makes `< 10` on the same column count no more. -/
theorem counted_withoutJoins_ne :
    let start : PathEstimator Float :=
      { path := { AccessPath.ofName "t_idx" with joinMethod := some .hash },
        provider := (TableStats.ofRows 0.0).provider, settings := Settings.default }
    let above := { Predicate.comparison (.column 1) .gt (.int 5) with join := true }
    let below := Predicate.comparison (.column 1) .lt (.int 10)
    ∃ est alone, start.addAll [(above, .base), (below, .base)] = .ok est ∧
      start.addAll [(below, .base)] = .ok alone ∧ est.counted = [] ∧ alone.counted ≠ [] := by
  exact ⟨_, _, rfl, rfl, rfl, List.cons_ne_nil _ _⟩

end PathEstimator
end Selectivity
