import Selectivity.AccessPath.Filing
import Selectivity.Proofs.OperandIndependence

/-! Lists by slot. A map of lists is known by the list of every slot, and its values by what
they are slot by slot. The single list of all estimates has a part for each phase and slot. -/

namespace Selectivity

variable {α β γ : Type}

/-! ### Lists -/

theorem replaceFirst?_map {f : β → γ} {change : β → Option β} {change' : γ → Option γ}
    (same : ∀ x, change' (f x) = (change x).map f) (xs : List β) :
    replaceFirst? change' (xs.map f) = (replaceFirst? change xs).map (List.map f) := by
  induction xs with
  | nil => rfl
  | cons x xs ih =>
    simp only [List.map_cons, replaceFirst?, same]
    cases change x with
    | some y => rfl
    | none =>
      simp only [Option.map_none, ih, Option.map_map]
      rfl

/-- The first element with a result can be looked for by its index. -/
theorem takeFirst?_eq (result : β → Option γ) (xs : List β) :
    takeFirst? result xs = (xs.findIdx? fun x => (result x).isSome).bind fun index =>
      (xs[index]?.bind result).map (·, xs.eraseIdx index) := by
  induction xs with
  | nil => rfl
  | cons x xs ih =>
    rw [takeFirst?, List.findIdx?_cons]
    cases found : result x with
    | some y => simp [found]
    | none =>
      rw [ih]
      simp [Option.map_bind, Option.bind_map, Function.comp_def]

/-- Sorted lists that agree group by group are the same. -/
theorem eq_of_filter_eq {key : β → Nat} {xs ys : List β} (sorted : xs.Pairwise fun x y => key x ≤ key y)
    (sorted' : ys.Pairwise fun x y => key x ≤ key y)
    (same : ∀ k, xs.filter (key · == k) = ys.filter (key · == k)) : xs = ys := by
  induction xs generalizing ys with
  | nil =>
    cases ys with
    | nil => rfl
    | cons y ys =>
      have impossible := same (key y)
      simp at impossible
  | cons x xs ih =>
    cases ys with
    | nil =>
      have impossible := same (key x)
      simp at impossible
    | cons y ys =>
      obtain ⟨least, later⟩ := List.pairwise_cons.mp sorted
      obtain ⟨least', later'⟩ := List.pairwise_cons.mp sorted'
      have within : x ∈ (y :: ys).filter (key · == key x) := same (key x) ▸ by simp
      have within' : y ∈ (x :: xs).filter (key · == key y) := same (key y) ▸ by simp
      have keys : key x = key y := by
        have here := (List.mem_filter.mp within).1
        have here' := (List.mem_filter.mp within').1
        grind
      have heads := same (key x)
      simp only [List.filter_cons, keys, beq_self_eq_true, if_true, List.cons.injEq] at heads
      obtain ⟨rfl, _⟩ := heads
      refine congrArg (x :: ·) (ih later later' fun k => ?_)
      have rest := same k
      simp only [List.filter_cons] at rest
      split at rest
      next => exact (List.cons.inj rest).2
      next => exact rest

namespace Filing

/-- Slots before the first one have no list. -/
private theorem lookup_below {slot : Nat} {entries : List (Nat × List β)}
    (above : ∀ entry ∈ entries, slot < entry.1) : entries.lookup slot = none :=
  List.lookup_eq_none_iff.mpr fun entry member => by simpa using (above entry member).ne

theorem lookup_changeAt {slot : Nat} {change : List β → List β} {entries : List (Nat × List β)}
    (ascending : entries.Pairwise (·.1 < ·.1)) (other : Nat) :
    (changeAt slot change entries).lookup other =
      if other = slot then some (change ((entries.lookup slot).getD [])) else entries.lookup other := by
  induction entries with
  | nil => grind [changeAt]
  | cons first rest ih =>
    obtain ⟨above, later⟩ := List.pairwise_cons.mp ascending
    have absent (less : slot < first.1) : rest.lookup slot = none :=
      lookup_below fun entry member => less.trans (above entry member)
    rw [changeAt]
    grind

section Values

variable {key : β → Nat} {entries : List (Nat × List β)}

theorem flatMap_filter (ascending : entries.Pairwise (·.1 < ·.1))
    (placed : ∀ entry ∈ entries, ∀ x ∈ entry.2, key x = entry.1) (slot : Nat) :
    (entries.flatMap (·.2)).filter (key · == slot) = (entries.lookup slot).getD [] := by
  induction entries with
  | nil => rfl
  | cons first rest ih =>
    obtain ⟨other, items⟩ := first
    obtain ⟨above, later⟩ := List.pairwise_cons.mp ascending
    obtain ⟨here, there⟩ := List.forall_mem_cons.mp placed
    rw [List.flatMap_cons, List.filter_append, ih later there, List.lookup_cons]
    by_cases own : slot = other
    · subst own
      have all : items.filter (key · == slot) = items :=
        List.filter_eq_self.mpr fun x member => beq_iff_eq.mpr (here x member)
      simp only [all, lookup_below above, beq_self_eq_true, Option.getD_none, List.append_nil, Option.getD_some]
    · have none : items.filter (key · == slot) = [] :=
        List.filter_eq_nil_iff.mpr fun x member => by simpa [here x member] using Ne.symm own
      simp only [none, List.nil_append, beq_eq_false_iff_ne.mpr own]

theorem flatMap_sorted (ascending : entries.Pairwise (·.1 < ·.1))
    (placed : ∀ entry ∈ entries, ∀ x ∈ entry.2, key x = entry.1) :
    (entries.flatMap (·.2)).Pairwise fun x y => key x ≤ key y := by
  refine List.pairwise_flatMap.mpr ⟨fun entry member => ?_, ?_⟩
  · refine List.pairwise_of_forall_mem_list fun x inside y inside' => ?_
    rw [placed entry member x inside, placed entry member y inside']
  · refine ascending.imp_of_mem fun {first second} member member' less x inside y inside' => ?_
    rw [placed first member x inside, placed second member' y inside']
    exact less.le

end Values

theorem lookup_of_mem {slot : Nat} {items : List β} {entries : List (Nat × List β)}
    (ascending : entries.Pairwise (·.1 < ·.1)) (member : (slot, items) ∈ entries) :
    entries.lookup slot = some items := by
  induction entries with
  | nil => cases member
  | cons first rest ih =>
    obtain ⟨above, later⟩ := List.pairwise_cons.mp ascending
    grind

end Filing

/-! ### Parts of the single list -/

namespace PathEstimator

variable (est : PathEstimator α)

/-- Whether the estimates about a subject stand in a list. -/
def files (phase : Phase) (slot : Nat) (s : Subject) : Bool := s.2.phase == phase && slotOf s.1 == slot

theorem columnEstimates_eq (phase : Phase) (slot : Nat) :
    est.columnEstimates phase slot = est.recorded.filter (files phase slot ·.subject) := rfl

theorem mem_columnEstimates {phase : Phase} {slot : Nat} {e : Estimate α} :
    e ∈ est.columnEstimates phase slot ↔ e ∈ est.recorded ∧ e.qualifier.phase = phase ∧ slotOf e.operand = slot := by
  rw [columnEstimates_eq, List.mem_filter, files, Bool.and_eq_true, beq_iff_eq, beq_iff_eq]
  rfl

private theorem slot_trans (e f g : Estimate α) (first : decide (e.slot ≤ f.slot) = true)
    (second : decide (f.slot ≤ g.slot) = true) : decide (e.slot ≤ g.slot) = true :=
  decide_eq_true ((of_decide_eq_true first).trans (of_decide_eq_true second))

private theorem slot_total (e f : Estimate α) : (decide (e.slot ≤ f.slot) || decide (f.slot ≤ e.slot)) = true := by
  simpa only [Bool.or_eq_true, decide_eq_true_iff] using Nat.le_total e.slot f.slot

theorem estimates_sorted (phase : Phase) : (est.estimates phase).Pairwise (·.slot ≤ ·.slot) :=
  (List.pairwise_mergeSort slot_trans slot_total _).imp of_decide_eq_true

/-- Sorting the list of a phase by slots keeps the order within a slot. -/
theorem estimates_filter (phase : Phase) (slot : Nat) :
    (est.estimates phase).filter (·.slot == slot) = est.columnEstimates phase slot := by
  have column : est.columnEstimates phase slot =
      (est.recorded.filter (·.qualifier.phase == phase)).filter (·.slot == slot) := by
    rw [List.filter_filter, columnEstimates_eq]
    exact List.filter_congr fun e _ => Bool.and_comm _ _
  have atSlot : ∀ e ∈ est.columnEstimates phase slot, e.slot = slot :=
    fun e member => (est.mem_columnEstimates.mp member).2.2
  have inOrder : (est.columnEstimates phase slot).Pairwise fun e f => decide (e.slot ≤ f.slot) = true :=
    List.pairwise_of_forall_mem_list fun e member f member' =>
      decide_eq_true ((atSlot e member).trans (atSlot f member').symm).le
  have placed : (est.columnEstimates phase slot).Sublist (est.estimates phase) :=
    List.sublist_mergeSort slot_trans slot_total inOrder (column ▸ List.filter_sublist)
  have kept := placed.filter (·.slot == slot)
  rw [List.filter_eq_self.mpr fun e member => beq_iff_eq.mpr (atSlot e member)] at kept
  refine (kept.eq_of_length ?_).symm
  rw [column]
  exact (((List.mergeSort_perm _ _).filter _).length_eq).symm

end PathEstimator

end Selectivity
