import Selectivity.Statistics.Table
import Selectivity.Proofs.EstimatorSteps
import Selectivity.Proofs.ExactQuantity

/-! What is recorded for one operand under one qualifier is a matter of the predicates on that
operand under that qualifier. All estimates stand in one list, but a step looks at those it may
merge with, and changes no other. -/

namespace Selectivity

section Lists

variable {β γ κ : Type}

private theorem replaceFirst?_filter (change : β → Option β) (keep : β → Bool)
    (kept : ∀ x y, change x = some y → keep x = true ∧ keep y = true) (xs : List β) :
    replaceFirst? change (xs.filter keep) = (replaceFirst? change xs).map (List.filter keep) := by
  induction xs with
  | nil => rfl
  | cons x xs ih =>
    cases changed : change x with
    | some y =>
      obtain ⟨before, after⟩ := kept x y changed
      simp only [List.filter_cons, before, after, if_true, replaceFirst?, changed, Option.map_some]
    | none =>
      simp only [List.filter_cons, replaceFirst?, changed, Option.map_map]
      split
      next inside =>
        rw [replaceFirst?, changed, ih]
        simp [Function.comp_def, inside]
      next outside =>
        rw [ih]
        simp [Function.comp_def, outside]

private theorem replaceFirst?_filter_other {change : β → Option β} {keep : β → Bool}
    (apart : ∀ x y, change x = some y → keep x = false ∧ keep y = false) {xs ys : List β}
    (done : replaceFirst? change xs = some ys) : ys.filter keep = xs.filter keep := by
  obtain ⟨before, x, after, y, rfl, changed, _, rfl⟩ := replaceFirst?_eq_some.mp done
  obtain ⟨old, new⟩ := apart x y changed
  simp only [List.filter_append, List.filter_cons, old, new, Bool.false_eq_true, if_false]

private theorem takeFirst?_filter (result : β → Option γ) (keep : β → Bool)
    (kept : ∀ x y, result x = some y → keep x = true) (xs : List β) :
    takeFirst? result (xs.filter keep) =
      (takeFirst? result xs).map fun taken => (taken.1, taken.2.filter keep) := by
  induction xs with
  | nil => rfl
  | cons x xs ih =>
    cases found : result x with
    | some y => simp only [List.filter_cons, kept x y found, if_true, takeFirst?, found, Option.map_some]
    | none =>
      simp only [List.filter_cons, takeFirst?, found, Option.map_map]
      split
      next inside =>
        rw [takeFirst?, found, ih]
        simp [Function.comp_def, inside]
      next outside =>
        rw [ih]
        simp [Function.comp_def, outside]

private theorem takeFirst?_filter_other {result : β → Option γ} (keep : β → Bool)
    (apart : ∀ x y, result x = some y → keep x = false) {xs : List β} {taken : γ × List β}
    (done : takeFirst? result xs = some taken) : taken.2.filter keep = xs.filter keep := by
  obtain ⟨before, x, after, y, rfl, found, _, rfl⟩ := takeFirst?_eq_some.mp done
  simp only [List.filter_append, List.filter_cons, apart x y found, Bool.false_eq_true, if_false]

/-- Lists that agree group by group agree up to order. -/
private theorem perm_of_filter_eq [BEq κ] [LawfulBEq κ] (key : β → κ) {xs ys : List β}
    (same : ∀ k, xs.filter (key · == k) = ys.filter (key · == k)) : xs.Perm ys := by
  induction xs generalizing ys with
  | nil =>
    cases ys with
    | nil => exact .nil
    | cons y ys =>
      have impossible := same (key y)
      simp only [List.filter_nil, List.filter_cons, beq_self_eq_true, if_true] at impossible
      cases impossible
  | cons x xs ih =>
    have here := same (key x)
    simp only [List.filter_cons, beq_self_eq_true, if_true] at here
    -- The first element leads its group in both lists, and can be taken out of both.
    obtain ⟨before, after, rfl, none, _, rest⟩ := List.filter_eq_cons_iff.mp here.symm
    refine .trans (.cons x (ih fun k => ?_)) List.perm_middle.symm
    by_cases own : key x = k
    · subst own
      rw [List.filter_append, List.filter_eq_nil_iff.mpr none, List.nil_append, rest]
    · have others := same k
      simpa only [List.filter_append, List.filter_cons, beq_eq_false_iff_ne.mpr own, Bool.false_eq_true, if_false]
        using others

end Lists

variable {α : Type}

/-- What a predicate is about, and the estimate of it: an operand, if there is one, and a
qualifier. -/
abbrev Subject := Option Operand × Qualifier

def Estimate.subject (e : Estimate α) : Subject := (e.operand, e.qualifier)

def subject (p : Predicate α × Qualifier) : Subject := (p.1.operand, p.2)

/-- The estimates about a subject, in order. -/
def Estimate.about (s : Subject) (es : List (Estimate α)) : List (Estimate α) := es.filter (·.subject == s)

def about (s : Subject) (ps : List (Predicate α × Qualifier)) : List (Predicate α × Qualifier) :=
  ps.filter (subject · == s)

theorem Estimate.concerns_eq (e : Estimate α) (operand : Operand) (q : Qualifier) :
    e.concerns operand q = (e.subject == (some operand, q)) := rfl

namespace PathEstimator

variable [Quantity α]

section Merging

variable {path : AccessPath α} {provider : Provider α} {operand : Operand} {q : Qualifier} {d : Restriction α}
  {p : Predicate α}

private theorem narrows?_subject {e f : Estimate α} (narrows : narrows? provider operand q d e = some f) :
    e.subject = (some operand, q) ∧ f.subject = (some operand, q) := by
  obtain ⟨concerns, _, _, _, _, rfl⟩ := narrows?_eq_some.mp narrows
  rw [Estimate.concerns_eq] at concerns
  exact ⟨beq_iff_eq.mp concerns, beq_iff_eq.mp concerns⟩

private theorem takes?_subject {e : Estimate α} {r : Range α} (takes : takes? path provider operand q d e = some r) :
    e.subject = (some operand, q) :=
  beq_iff_eq.mp (takes?_eq_some.mp takes).1

/-- Merging looks only at what is about the same subject, -/
theorem restricted_filter (onOperand : p.operand = some operand) (keep : Subject → Bool)
    (own : keep (some operand, q) = true) (es : List (Estimate α)) :
    (restricted path provider operand q d p es).filter (keep ·.subject) =
      restricted path provider operand q d p (es.filter (keep ·.subject)) := by
  have kept {e : Estimate α} (same : e.subject = (some operand, q)) : keep e.subject = true := same ▸ own
  have entered (kind : EstimateKind α) : keep (entry p q kind).subject = true := kept (congrArg (·, q) onOperand)
  have merging := replaceFirst?_filter (narrows? provider operand q d) (keep ·.subject)
    (fun e f narrows => ⟨kept (narrows?_subject narrows).1, kept (narrows?_subject narrows).2⟩) es
  have taking := takeFirst?_filter (takes? path provider operand q d) (keep ·.subject)
    (fun e r takes => kept (takes?_subject takes)) es
  rw [restricted, restricted, merging]
  cases replaceFirst? (narrows? provider operand q d) es with
  | some merged => rfl
  | none =>
    rw [taking]
    cases takeFirst? (takes? path provider operand q d) es with
    | some taken => simp [entered]
    | none => simp [entered]

/-- and leaves everything about other subjects as it was. -/
theorem restricted_filter_other (onOperand : p.operand = some operand) (keep : Subject → Bool)
    (other : keep (some operand, q) = false) (es : List (Estimate α)) :
    (restricted path provider operand q d p es).filter (keep ·.subject) = es.filter (keep ·.subject) := by
  have apart {e : Estimate α} (same : e.subject = (some operand, q)) : keep e.subject = false := same ▸ other
  have entered (kind : EstimateKind α) : keep (entry p q kind).subject = false := apart (congrArg (·, q) onOperand)
  rw [restricted]
  split
  next merged changed =>
    exact replaceFirst?_filter_other
      (fun e f narrows => ⟨apart (narrows?_subject narrows).1, apart (narrows?_subject narrows).2⟩) changed
  next =>
    split
    next r rest took =>
      have kept := takeFirst?_filter_other (keep ·.subject) (fun e r takes => apart (takes?_subject takes)) took
      simpa [entered] using kept
    next => simp [entered]

end Merging

variable (est : PathEstimator α) {p : Predicate α × Qualifier}

theorem step_filter (keep : Subject → Bool) (own : keep (subject p) = true) (es : List (Estimate α)) :
    (est.step es p).filter (keep ·.subject) = est.step (es.filter (keep ·.subject)) p := by
  rw [step, step]
  split
  next operand d restricts =>
    have onOperand := (Predicate.restriction?_eq_some.mp restricts).1
    rw [subject, onOperand] at own
    exact restricted_filter onOperand keep own es
  next =>
    have entered : keep (entry p.1 p.2 (est.plainKind p.1)).subject = true := own
    simp [entered]

theorem step_filter_other (keep : Subject → Bool) (other : keep (subject p) = false) (es : List (Estimate α)) :
    (est.step es p).filter (keep ·.subject) = es.filter (keep ·.subject) := by
  rw [step]
  split
  next operand d restricts =>
    have onOperand := (Predicate.restriction?_eq_some.mp restricts).1
    rw [subject, onOperand] at other
    exact restricted_filter_other onOperand keep other es
  next =>
    have entered : keep (entry p.1 p.2 (est.plainKind p.1)).subject = false := other
    simp [entered]

/-- A choice of subjects can be made before the run or after it. -/
theorem run_filter (keep : Subject → Bool) (ps : List (Predicate α × Qualifier)) (es : List (Estimate α)) :
    (ps.foldl est.step es).filter (keep ·.subject) =
      (ps.filter (keep <| subject ·)).foldl est.step (es.filter (keep ·.subject)) := by
  induction ps generalizing es with
  | nil => rfl
  | cons p ps ih =>
    rw [List.foldl_cons, ih, List.filter_cons]
    split
    next own => rw [est.step_filter keep own, List.foldl_cons]
    next other => rw [est.step_filter_other keep (Bool.eq_false_iff.mpr other)]

theorem run_about (s : Subject) (ps : List (Predicate α × Qualifier)) (es : List (Estimate α)) :
    Estimate.about s (ps.foldl est.step es) = (about s ps).foldl est.step (Estimate.about s es) :=
  est.run_filter (· == s) ps es

/-! ### Operands without statistics -/

end PathEstimator

/-- Operands in their order, as numbers. -/
def Operand.rank : Operand → Nat
  | .column position => position.toNat
  | .expression position => UInt32.size + position.toNat

theorem Operand.rank_injective {a b : Operand} (same : a.rank = b.rank) : a = b := by
  cases a with
  | column p =>
    have bound := p.toNat_lt
    cases b with
    | column q => exact congrArg column (UInt32.toNat_inj.mp same)
    | expression q =>
      simp only [rank, UInt32.size] at same
      omega
  | expression p =>
    cases b with
    | column q =>
      have bound := q.toNat_lt
      simp only [rank, UInt32.size] at same
      omega
    | expression q =>
      simp only [rank] at same
      exact congrArg expression (UInt32.toNat_inj.mp (by omega))

theorem Operand.order_eq (a b : Operand) : a.order b = compare a.rank b.rank := by
  have numbers (p q : UInt32) : compare p q = compare p.toNat q.toNat := by
    simp only [compare, compareOfLessAndEq, UInt32.lt_iff_toNat_lt, UInt32.toNat_inj]
  cases a with
  | column p =>
    have bound := p.toNat_lt
    cases b with
    | column q => exact numbers p q
    | expression q =>
      refine (Nat.compare_eq_lt.mpr ?_).symm
      simp only [rank, UInt32.size]
      omega
  | expression p =>
    cases b with
    | column q =>
      have bound := q.toNat_lt
      refine (Nat.compare_eq_gt.mpr ?_).symm
      simp only [rank, UInt32.size]
      omega
    | expression q =>
      rw [order, numbers, rank, rank]
      simp only [compare, compareOfLessAndEq]
      split <;> split <;> grind

def Ascending (operands : List Operand) : Prop := operands.Pairwise fun a b => a.rank < b.rank

theorem insertOperand_spec {a : Operand} {operands : List Operand} (ascending : Ascending operands) :
    (∀ b, b ∈ insertOperand a operands ↔ b = a ∨ b ∈ operands) ∧ Ascending (insertOperand a operands) := by
  induction operands with
  | nil => exact ⟨by simp [insertOperand], List.pairwise_singleton _ a⟩
  | cons x rest ih =>
    obtain ⟨above, ascending'⟩ := List.pairwise_cons.mp ascending
    rw [insertOperand, Operand.order_eq]
    split
    next less =>
      have less := Nat.compare_eq_lt.mp less
      refine ⟨by simp, List.pairwise_cons.mpr ⟨?_, ascending⟩⟩
      exact List.forall_mem_cons.mpr ⟨less, fun b member => less.trans (above b member)⟩
    next equal =>
      cases Operand.rank_injective (Nat.compare_eq_eq.mp equal)
      exact ⟨by simp, ascending⟩
    next more =>
      have more := Nat.compare_eq_gt.mp more
      obtain ⟨members, sorted⟩ := ih ascending'
      refine ⟨fun b => ?_, List.pairwise_cons.mpr ⟨fun b member => ?_, sorted⟩⟩
      · rw [List.mem_cons, members, List.mem_cons, or_left_comm]
      · rcases (members b).mp member with rfl | member
        · exact more
        · exact above b member

/-- Only the members count, because their order is fixed. -/
theorem Ascending.eq_of_mem_iff {xs ys : List Operand} (first : Ascending xs) (second : Ascending ys)
    (same : ∀ o, o ∈ xs ↔ o ∈ ys) : xs = ys := by
  have : Std.Irrefl fun a b : Operand => a.rank < b.rank := ⟨fun a => Nat.lt_irrefl a.rank⟩
  have : Std.Antisymm fun a b : Operand => a.rank < b.rank :=
    ⟨fun a b less more => absurd more (Nat.lt_asymm less)⟩
  exact List.Pairwise.eq_of_mem_iff first second same

namespace PathEstimator

variable [Quantity α] (est : PathEstimator α)

theorem added_missing (p : Predicate α × Qualifier) :
    (est.added p.1 p.2).missing = (est.note p.1.operand).missing := by
  rw [added]
  split
  next => rw [restrict_eq]
  next => rfl

omit [Quantity α] in
theorem note_missing (operand : Option Operand) (ascending : Ascending est.missing) :
    (∀ o, o ∈ (est.note operand).missing ↔
      o ∈ est.missing ∨ est.provider.knows o = false ∧ operand = some o) ∧ Ascending (est.note operand).missing := by
  cases operand with
  | none => exact ⟨by simp [note], ascending⟩
  | some operand =>
    rw [note]
    split
    next known => exact ⟨by grind, ascending⟩
    next unknown =>
      obtain ⟨members, sorted⟩ := insertOperand_spec (a := operand) ascending
      refine ⟨fun o => ?_, sorted⟩
      rw [members]
      grind

/-- An operand is noted as soon as one predicate restricts it. -/
theorem addedAll_missing (ascending : Ascending est.missing) (ps : List (Predicate α × Qualifier)) :
    (∀ o, o ∈ (est.addedAll ps).missing ↔
      o ∈ est.missing ∨ est.provider.knows o = false ∧ ∃ p ∈ ps, p.1.operand = some o) ∧
      Ascending (est.addedAll ps).missing := by
  induction ps generalizing est with
  | nil => exact ⟨by simp [addedAll], ascending⟩
  | cons p ps ih =>
    have noted := est.note_missing p.1.operand ascending
    rw [← est.added_missing p] at noted
    obtain ⟨members, sorted⟩ := ih (est.added p.1 p.2) noted.2
    obtain ⟨_, provider, _⟩ := est.addedAll_fields [p]
    have provider : (est.added p.1 p.2).provider = est.provider := provider
    refine ⟨fun o => ?_, sorted⟩
    have here := members o
    rw [provider, noted.1 o] at here
    refine here.trans ?_
    simp only [List.exists_mem_cons_iff]
    grind

theorem composed_eq_of_perm {est other : PathEstimator α} (exact : Quantity.Exact α) (path : est.path = other.path)
    (provider : est.provider = other.provider) (settings : est.settings = other.settings)
    {es fs : List (Estimate α)} (perm : es.Perm fs) : est.composed es = other.composed fs := by
  rw [composed, composed, path, provider, settings]
  exact compose_eq_of_perm exact ((perm.filter _).map _)

omit [Quantity α] in
theorem about_perm {ps qs : List (Predicate α × Qualifier)} (same : ∀ s, about s ps = about s qs) : ps.Perm qs :=
  perm_of_filter_eq subject same

/-- Predicates about different subjects do not interfere. The estimates about a subject are those
that its own predicates give alone, so that predicates may be interleaved in any way that
keeps the order among those about one subject. -/
theorem addAll_independent (path : AccessPath α) (provider : Provider α) (settings : Settings α)
    (ps qs : List (Predicate α × Qualifier)) (same : ∀ s, about s ps = about s qs) :
    let start : PathEstimator α := { path, provider, settings }
    ∃ mine yours, start.addAll ps = .ok mine ∧ start.addAll qs = .ok yours ∧
      (∀ s, ∃ alone, start.addAll (about s ps) = .ok alone ∧ Estimate.about s mine.recorded = alone.recorded ∧
        Estimate.about s yours.recorded = alone.recorded) ∧
      mine.missing = yours.missing ∧
      (Quantity.Exact α → mine.totalSelectivity = yours.totalSelectivity ∧
        ∀ qualifiers, mine.selectivityOf qualifiers = yours.selectivityOf qualifiers) := by
  intro start
  have alone (ps : List (Predicate α × Qualifier)) (s : Subject) :
      Estimate.about s (start.addedAll ps).recorded = (start.addedAll (about s ps)).recorded := by
    rw [addedAll_recorded, addedAll_recorded, run_about]
    rfl
  have both (s : Subject) :
      Estimate.about s (start.addedAll ps).recorded = Estimate.about s (start.addedAll qs).recorded := by
    rw [alone, alone, same]
  have missing : (start.addedAll ps).missing = (start.addedAll qs).missing := by
    obtain ⟨members, ascending⟩ := start.addedAll_missing .nil ps
    obtain ⟨members', ascending'⟩ := start.addedAll_missing .nil qs
    refine ascending.eq_of_mem_iff ascending' fun o => ?_
    rw [members, members']
    simp only [(about_perm same).mem_iff]
  refine ⟨_, _, start.addAll_eq ps, start.addAll_eq qs, fun s => ?_, missing, fun exact => ?_⟩
  · exact ⟨_, start.addAll_eq _, alone ps s, (both s).symm.trans (alone ps s)⟩
  · obtain ⟨path, provider, settings⟩ := start.addedAll_fields ps
    obtain ⟨path', provider', settings'⟩ := start.addedAll_fields qs
    have perm : (start.addedAll ps).recorded.Perm (start.addedAll qs).recorded :=
      perm_of_filter_eq Estimate.subject both
    exact ⟨composed_eq_of_perm exact (path.trans path'.symm) (provider.trans provider'.symm)
        (settings.trans settings'.symm) perm,
      fun qualifiers => composed_eq_of_perm exact (path.trans path'.symm) (provider.trans provider'.symm)
        (settings.trans settings'.symm) (perm.filter _)⟩

omit [Quantity α] in
/-- Neighbours about different subjects may change places. -/
theorem about_swap {p q : Predicate α × Qualifier} (apart : subject p ≠ subject q)
    (before after : List (Predicate α × Qualifier)) (s : Subject) :
    about s (before ++ p :: q :: after) = about s (before ++ q :: p :: after) := by
  simp only [about, List.filter_append, List.filter_cons]
  by_cases own : subject p = s
  · have other : subject q ≠ s := fun same => apart (own.trans same.symm)
    simp only [beq_iff_eq, if_pos own, if_neg other]
  · simp only [beq_iff_eq, if_neg own]

end PathEstimator

namespace PathEstimator

/-- A column and an expression that share a slot, and two qualifiers of one phase. -/
theorem addAll_independent_slot :
    let start : PathEstimator ℝ :=
      { path := .exact "t_idx"
        provider := (TableStats.exact 1000).provider
        settings := .exact }
    let above := (Predicate.comparison (.column 1) .gt (.int 5), Qualifier.base)
    let below := (Predicate.comparison (.column 1) .lt (.int 10), Qualifier.base)
    let other := (Predicate.comparison (.expression 0) .lt (.int 10), Qualifier.base)
    let later := (Predicate.comparison (.column 1) .lt (.int 10), Qualifier.filterBase)
    (∀ s, about s [above, other, below, later] = about s [other, above, later, below]) ∧ Quantity.Exact ℝ ∧
      ∃ mine yours, start.addAll [above, other, below, later] = .ok mine ∧
        start.addAll [other, above, later, below] = .ok yours ∧ mine.totalSelectivity = yours.totalSelectivity := by
  intro start above below other later
  have same (s : Subject) : about s [above, other, below, later] = about s [other, above, later, below] := by
    have apart : subject above ≠ subject other := by decide
    have apart' : subject below ≠ subject later := by decide
    exact (about_swap apart [] [below, later] s).trans (about_swap apart' [other, above] [] s)
  obtain ⟨mine, yours, run, run', _, _, totals⟩ :=
    addAll_independent start.path start.provider start.settings _ _ same
  exact ⟨same, Quantity.real_exact, mine, yours, run, run', (totals Quantity.real_exact).1⟩

end PathEstimator
end Selectivity
