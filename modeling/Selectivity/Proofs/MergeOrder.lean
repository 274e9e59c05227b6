import Mathlib.Data.Multiset.AddSub
import Mathlib.Data.Multiset.MapFold

/-! Recording one thing after the other, where some are joined with what is recorded. Which
of several possible joins is made depends on the order, and so does whether a third thing
can be joined with the outcome. If for no three things it matters, it never does. -/

namespace Selectivity

/-- A thing is recorded plainly, or joined with a thing recorded before. -/
structure Merging (ι κ : Type) where
  plain : ι → κ
  join? : ι → κ → Option κ
  symm : ∀ x y, join? x (plain y) = join? y (plain x)
  /-- Three things are not joined to one in whichever order they come. -/
  loose : ∀ x y z, ∃ a b c, [a, b, c].Perm [x, y, z] ∧ ∀ j, join? a (plain b) = some j → join? c j = none

namespace Merging

variable {ι κ : Type} (m : Merging ι κ)

inductive Step (x : ι) (s : Multiset κ) : Multiset κ → Prop
  | joined {k j rest} (found : s = k ::ₘ rest) (joins : m.join? x k = some j) : Step x s (j ::ₘ rest)
  | plain (alone : ∀ k ∈ s, m.join? x k = none) : Step x s (m.plain x ::ₘ s)

inductive Run : List ι → Multiset κ → Multiset κ → Prop
  | done {s} : Run [] s s
  | next {x xs s t u} (step : m.Step x s t) (rest : Run xs t u) : Run (x :: xs) s u

/-- Of any three things, what two are joined to does not join with the third, and where one
joins with either of the others, it does not matter with which. -/
structure Settled (cs : Multiset ι) : Prop where
  inert : ∀ {x y z j}, x ::ₘ y ::ₘ {z} ≤ cs → m.join? x (m.plain y) = some j → m.join? z j = none
  exchange : ∀ {x y z j k}, x ::ₘ y ::ₘ {z} ≤ cs → m.join? x (m.plain y) = some j →
    m.join? x (m.plain z) = some k → j ::ₘ {m.plain z} = k ::ₘ {m.plain y}

/-- Whatever is recorded is plain, or nothing that is still to come joins with it. -/
def Pending (cs rest : Multiset ι) (s : Multiset κ) : Prop :=
  ∃ singles merged, s = singles.map m.plain + merged ∧ singles + rest ≤ cs ∧
    ∀ k ∈ merged, ∀ z ∈ rest, m.join? z k = none

variable {m} {cs rest : Multiset ι} {s t u : Multiset κ} {x y : ι}

private theorem exists_join (possible : ¬ ∀ k ∈ s, m.join? x k = none) :
    ∃ k c j, s = k ::ₘ c ∧ m.join? x k = some j := by
  simp only [not_forall] at possible
  obtain ⟨k, member, joins⟩ := possible
  obtain ⟨j, joins⟩ := Option.ne_none_iff_exists'.mp joins
  obtain ⟨c, found⟩ := Multiset.exists_cons_of_mem member
  exact ⟨k, c, j, found, joins⟩

theorem exists_step (x : ι) (s : Multiset κ) : ∃ t, m.Step x s t := by
  by_cases alone : ∀ k ∈ s, m.join? x k = none
  · exact ⟨_, .plain alone⟩
  · obtain ⟨k, c, j, found, joins⟩ := exists_join alone
    exact ⟨_, .joined found joins⟩

theorem exists_run (xs : List ι) (s : Multiset κ) : ∃ t, m.Run xs s t := by
  induction xs generalizing s with
  | nil => exact ⟨s, .done⟩
  | cons x xs ih =>
    obtain ⟨t, step⟩ := exists_step (m := m) x s
    obtain ⟨u, run⟩ := ih t
    exact ⟨u, .next step run⟩

namespace Pending

private theorem source {k : κ} {c merged : Multiset κ} {singles : Multiset ι}
    (found : k ::ₘ c = singles.map m.plain + merged) (other : k ∉ merged) :
    ∃ y fewer, singles = y ::ₘ fewer ∧ k = m.plain y ∧ c = fewer.map m.plain + merged := by
  have member : k ∈ singles.map m.plain + merged := found ▸ Multiset.mem_cons_self k c
  obtain ⟨y, here, rfl⟩ := Multiset.mem_map.mp ((Multiset.mem_add.mp member).resolve_right other)
  obtain ⟨fewer, rfl⟩ := Multiset.exists_cons_of_mem here
  rw [Multiset.map_cons, Multiset.cons_add, Multiset.cons_inj_right] at found
  exact ⟨y, fewer, rfl, rfl, found⟩

theorem swap (pending : m.Pending cs (x ::ₘ y ::ₘ rest) s) : m.Pending cs (y ::ₘ x ::ₘ rest) s := by
  rwa [Multiset.cons_swap]

private theorem not_merged {k j : κ} {merged : Multiset κ}
    (inert : ∀ k ∈ merged, ∀ z ∈ x ::ₘ rest, m.join? z k = none) (joins : m.join? x k = some j) : k ∉ merged := by
  intro member
  cases (inert k member x (Multiset.mem_cons_self x rest)).symm.trans joins

/-- What joins with something to come was recorded plainly. -/
theorem joins {k j : κ} {c : Multiset κ} (pending : m.Pending cs (x ::ₘ rest) (k ::ₘ c))
    (joins : m.join? x k = some j) : ∃ y, k = m.plain y ∧ x ::ₘ y ::ₘ rest ≤ cs := by
  obtain ⟨singles, merged, found, within, inert⟩ := pending
  obtain ⟨y, fewer, rfl, rfl, _⟩ := source found (not_merged inert joins)
  rw [Multiset.cons_add, Multiset.add_cons, Multiset.cons_swap] at within
  exact ⟨y, rfl, le_trans (Multiset.cons_le_cons x (Multiset.cons_le_cons y (Multiset.le_add_left _ _))) within⟩

theorem joins_both {k k' j j' : κ} {c : Multiset κ} (pending : m.Pending cs (x ::ₘ rest) (k ::ₘ k' ::ₘ c))
    (first : m.join? x k = some j) (second : m.join? x k' = some j') :
    ∃ y z, k = m.plain y ∧ k' = m.plain z ∧ x ::ₘ y ::ₘ {z} ≤ cs := by
  obtain ⟨singles, merged, found, within, inert⟩ := pending
  obtain ⟨y, _, rfl, rfl, others⟩ := source found (not_merged inert first)
  obtain ⟨z, fewer, rfl, rfl, _⟩ := source others (not_merged inert second)
  refine ⟨y, z, rfl, rfl, le_trans ?_ within⟩
  rw [Multiset.add_cons, Multiset.cons_add]
  exact Multiset.cons_le_cons x (Multiset.cons_le_cons y (Multiset.singleton_le.mpr (by simp)))

theorem step (settled : m.Settled cs) (pending : m.Pending cs (x ::ₘ rest) s) (step : m.Step x s t) :
    m.Pending cs rest t := by
  obtain ⟨singles, merged, found, within, inert⟩ := pending
  have later {k} (member : k ∈ merged) : ∀ z ∈ rest, m.join? z k = none :=
    fun z among => inert k member z (Multiset.mem_cons_of_mem among)
  cases step with
  | plain alone =>
    refine ⟨x ::ₘ singles, merged, ?_, ?_, fun k => later⟩
    · rw [found, Multiset.map_cons, Multiset.cons_add]
    · rwa [Multiset.cons_add, ← Multiset.add_cons]
  | @joined k j c here joins =>
    obtain ⟨y, fewer, rfl, rfl, same⟩ := source (here ▸ found) (not_merged inert joins)
    rw [Multiset.cons_add, Multiset.add_cons, Multiset.cons_swap] at within
    have fewer_le : fewer + rest ≤ cs :=
      ((Multiset.le_cons_self _ y).trans (Multiset.le_cons_self _ x)).trans within
    refine ⟨fewer, j ::ₘ merged, by rw [same, Multiset.add_cons], fewer_le, fun k member => ?_⟩
    rcases Multiset.mem_cons.mp member with rfl | member
    · intro z among
      have three : x ::ₘ y ::ₘ {z} ≤ x ::ₘ y ::ₘ (fewer + rest) :=
        Multiset.cons_le_cons x (Multiset.cons_le_cons y (Multiset.singleton_le.mpr (by simp [among])))
      exact settled.inert (three.trans within) joins
    · exact later member

end Pending

/-- Which of several possible joins is made does not matter. -/
theorem Step.unique (settled : m.Settled cs) (pending : m.Pending cs (x ::ₘ rest) s) (first : m.Step x s t)
    (second : m.Step x s u) : t = u := by
  cases first with
  | plain alone =>
    cases second with
    | plain => rfl
    | joined found joins => cases (alone _ (found ▸ Multiset.mem_cons_self _ _)).symm.trans joins
  | @joined k j c found joins =>
    cases second with
    | plain alone => cases (alone _ (found ▸ Multiset.mem_cons_self _ _)).symm.trans joins
    | @joined k' j' c' found' joins' =>
      subst found
      rcases Multiset.cons_eq_cons.mp found' with ⟨rfl, rfl⟩ | ⟨_, d, rfl, rfl⟩
      · cases joins.symm.trans joins'
        rfl
      · obtain ⟨y, z, rfl, rfl, three⟩ := pending.joins_both joins joins'
        simpa only [Multiset.cons_add, Multiset.singleton_add] using
          congrArg (· + d) (settled.exchange three joins joins')

/-! ### Two steps in either order -/

private theorem commute_apart {k k' j j' : κ} {c : Multiset κ} (joins : m.join? x k = some j)
    (joins' : m.join? y k' = some j') :
    ∃ t u v, m.Step x (k ::ₘ k' ::ₘ c) t ∧ m.Step y t u ∧ m.Step y (k ::ₘ k' ::ₘ c) v ∧ m.Step x v u := by
  refine ⟨j ::ₘ k' ::ₘ c, j' ::ₘ j ::ₘ c, j' ::ₘ k ::ₘ c, .joined rfl joins, ?_, ?_, ?_⟩
  · exact .joined (Multiset.cons_swap j k' c) joins'
  · exact .joined (Multiset.cons_swap k k' c) joins'
  · rw [Multiset.cons_swap j' j c]
    exact .joined (Multiset.cons_swap j' k c) joins

private theorem commute_alone {k j : κ} {c : Multiset κ} (settled : m.Settled cs)
    (pending : m.Pending cs (x ::ₘ y ::ₘ rest) (k ::ₘ c)) (joins : m.join? x k = some j)
    (alone : ∀ k' ∈ k ::ₘ c, m.join? y k' = none) :
    ∃ t u v, m.Step x (k ::ₘ c) t ∧ m.Step y t u ∧ m.Step y (k ::ₘ c) v ∧ m.Step x v u := by
  obtain ⟨w, rfl, within⟩ := pending.joins joins
  have three : x ::ₘ w ::ₘ {y} ≤ cs :=
    le_trans (Multiset.cons_le_cons x (Multiset.cons_le_cons w (Multiset.singleton_le.mpr (by simp)))) within
  refine ⟨j ::ₘ c, m.plain y ::ₘ j ::ₘ c, m.plain y ::ₘ m.plain w ::ₘ c, .joined rfl joins, ?_, .plain alone, ?_⟩
  · refine .plain fun k' member => ?_
    rcases Multiset.mem_cons.mp member with rfl | member
    · exact settled.inert three joins
    · exact alone k' (Multiset.mem_cons_of_mem member)
  · rw [Multiset.cons_swap (m.plain y) j]
    exact .joined (Multiset.cons_swap (m.plain y) (m.plain w) c) joins

/-- Two things that compete for one are told apart by what the one joins with. -/
private theorem commute_rivals {k j j' : κ} {c : Multiset κ} (settled : m.Settled cs)
    (pending : m.Pending cs (x ::ₘ y ::ₘ rest) (k ::ₘ c)) (joins : m.join? x k = some j)
    (joins' : m.join? y k = some j') (alone : ∀ k' ∈ c, m.join? x k' = none) (alone' : ∀ k' ∈ c, m.join? y k' = none) :
    ∃ t u v, m.Step x (k ::ₘ c) t ∧ m.Step y t u ∧ m.Step y (k ::ₘ c) v ∧ m.Step x v u := by
  obtain ⟨w, rfl, within⟩ := pending.joins joins
  have three : x ::ₘ w ::ₘ {y} ≤ cs :=
    le_trans (Multiset.cons_le_cons x (Multiset.cons_le_cons w (Multiset.singleton_le.mpr (by simp)))) within
  have reversed : y ::ₘ w ::ₘ {x} = x ::ₘ w ::ₘ {y} := Multiset.coe_eq_coe.mpr (List.reverse_perm [x, w, y])
  have swapped : y ::ₘ w ::ₘ {x} ≤ cs := reversed ▸ three
  have shifted : w ::ₘ x ::ₘ {y} ≤ cs := by rwa [Multiset.cons_swap]
  have same := settled.exchange shifted ((m.symm w x).trans joins) ((m.symm w y).trans joins')
  have both : m.plain y ::ₘ j ::ₘ c = m.plain x ::ₘ j' ::ₘ c := by
    rw [Multiset.cons_swap, Multiset.cons_swap (m.plain x)]
    simpa only [Multiset.cons_add, Multiset.singleton_add] using congrArg (· + c) same
  refine ⟨j ::ₘ c, m.plain y ::ₘ j ::ₘ c, j' ::ₘ c, .joined rfl joins, .plain fun k' member => ?_,
    .joined rfl joins', both ▸ .plain fun k' member => ?_⟩
  · rcases Multiset.mem_cons.mp member with rfl | member
    · exact settled.inert three joins
    · exact alone' k' member
  · rcases Multiset.mem_cons.mp member with rfl | member
    · exact settled.inert swapped joins'
    · exact alone k' member

/-- Two steps come to the same in either order. -/
theorem exists_commute (settled : m.Settled cs) (pending : m.Pending cs (x ::ₘ y ::ₘ rest) s) :
    ∃ t u v, m.Step x s t ∧ m.Step y t u ∧ m.Step y s v ∧ m.Step x v u := by
  by_cases first : ∀ k ∈ s, m.join? x k = none
  · by_cases second : ∀ k ∈ s, m.join? y k = none
    · cases joins : m.join? y (m.plain x) with
      | none =>
        have joins' := (m.symm x y).trans joins
        refine ⟨_, m.plain y ::ₘ m.plain x ::ₘ s, _, .plain first, .plain ?_, .plain second, ?_⟩
        · exact Multiset.forall_mem_cons.mpr ⟨joins, second⟩
        · rw [Multiset.cons_swap]
          exact .plain (Multiset.forall_mem_cons.mpr ⟨joins', first⟩)
      | some j =>
        have joins' := (m.symm x y).trans joins
        exact ⟨_, _, _, .plain first, .joined rfl joins, .plain second, .joined rfl joins'⟩
    · obtain ⟨k, c, j, rfl, joins⟩ := exists_join second
      obtain ⟨t, u, v, one, two, three, four⟩ := commute_alone settled pending.swap joins first
      exact ⟨v, u, t, three, four, one, two⟩
  · obtain ⟨k, c, j, rfl, joins⟩ := exists_join first
    by_cases second : ∀ k' ∈ k ::ₘ c, m.join? y k' = none
    · exact commute_alone settled pending joins second
    · by_cases alone' : ∀ k' ∈ c, m.join? y k' = none
      · have joins' : ∃ j', m.join? y k = some j' := by
          refine Option.ne_none_iff_exists'.mp fun apart => second ?_
          exact Multiset.forall_mem_cons.mpr ⟨apart, alone'⟩
        obtain ⟨j', joins'⟩ := joins'
        by_cases alone : ∀ k' ∈ c, m.join? x k' = none
        · exact commute_rivals settled pending joins joins' alone alone'
        · obtain ⟨k', d, j, rfl, joins⟩ := exists_join alone
          rw [Multiset.cons_swap]
          exact commute_apart joins joins'
      · obtain ⟨k', d, j', rfl, joins'⟩ := exists_join alone'
        exact commute_apart joins joins'

theorem Run.unique (settled : m.Settled cs) {xs : List ι} (pending : m.Pending cs xs s) (first : m.Run xs s t)
    (second : m.Run xs s u) : t = u := by
  induction first with
  | done => cases second; rfl
  | next step _ ih =>
    cases second with
    | next step' rest' =>
      rw [← Multiset.cons_coe] at pending
      cases step.unique settled pending step'
      exact ih (pending.step settled step) rest'

theorem Run.perm (settled : m.Settled cs) {xs ys : List ι} (perm : xs.Perm ys) (pending : m.Pending cs xs s)
    (first : m.Run xs s t) (second : m.Run ys s u) : t = u := by
  induction perm generalizing s t u with
  | nil => exact first.unique settled pending second
  | cons x _ ih =>
    rw [← Multiset.cons_coe] at pending
    cases first with
    | next step rest =>
      cases second with
      | next step' rest' =>
        cases step.unique settled pending step'
        exact ih (pending.step settled step) rest rest'
  | swap x y xs =>
    rw [← Multiset.cons_coe, ← Multiset.cons_coe] at pending
    obtain ⟨t', u', v', one, two, three, four⟩ := exists_commute settled pending
    obtain ⟨w, run⟩ := exists_run (m := m) xs u'
    have pending' : m.Pending cs (y :: x :: xs : List ι) s := pending
    have pending'' : m.Pending cs (x :: y :: xs : List ι) s := pending.swap
    have toFirst := first.unique settled pending' (.next one (.next two run))
    exact toFirst.trans (second.unique settled pending'' (.next three (.next four run))).symm
  | trans one _ ih ih' =>
    rename_i middle _ _
    obtain ⟨v, run⟩ := exists_run (m := m) middle s
    have pending' : m.Pending cs middle s := by rwa [← Multiset.coe_eq_coe.mpr one]
    exact (ih pending first run).trans (ih' pending' run second)

/-! ### What every order of three things tells -/

private theorem Step.of_joins {k j : κ} (joins : m.join? x k = some j) (step : m.Step x {k} t) : t = {j} := by
  cases step with
  | plain alone => cases (alone k (Multiset.mem_singleton_self k)).symm.trans joins
  | joined found joins' =>
    obtain ⟨rfl, rfl⟩ := (Multiset.singleton_eq_cons_iff _).mp found
    cases joins.symm.trans joins'
    rfl

private theorem Step.of_none {k : κ} (apart : m.join? x k = none) (step : m.Step x {k} t) : t = m.plain x ::ₘ {k} := by
  cases step with
  | plain => rfl
  | joined found joins =>
    obtain ⟨rfl, _⟩ := (Multiset.singleton_eq_cons_iff _).mp found
    cases apart.symm.trans joins

private theorem Step.card_le (step : m.Step x s t) : s.card ≤ t.card := by
  cases step with
  | plain => exact Multiset.card_le_card (Multiset.le_cons_self s _)
  | joined found => rw [found, Multiset.card_cons, Multiset.card_cons]

private theorem Run.three {z : ι} (run : m.Run [x, y, z] 0 s) : ∃ t, m.Step y {m.plain x} t ∧ m.Step z t s := by
  cases run with
  | next first run =>
    cases run with
    | next second run =>
      cases run with
      | next third run =>
        cases run
        cases first with
        | plain => exact ⟨_, second, third⟩
        | joined found => exact absurd found Multiset.zero_ne_cons

private theorem inert_of_anyOrder {outcome : List ι → Multiset κ} {z : ι} {j : κ}
    (runs : ∀ xs : List ι, ↑xs ≤ cs → m.Run xs 0 (outcome xs))
    (same : ∀ xs ys : List ι, ↑xs ≤ cs → xs.Perm ys → outcome xs = outcome ys)
    (within : x ::ₘ y ::ₘ {z} ≤ cs) (joins : m.join? x (m.plain y) = some j) : m.join? z j = none := by
  by_contra joined
  obtain ⟨k, joins'⟩ := Option.ne_none_iff_exists'.mp joined
  obtain ⟨a, b, c, order, stays⟩ := m.loose x y z
  have one : (outcome [y, x, z]).card = 1 := by
    obtain ⟨t, second, third⟩ := (runs [y, x, z] ((Multiset.cons_swap y x {z}).trans_le within)).three
    cases second.of_joins joins
    rw [third.of_joins joins', Multiset.card_singleton]
  have within' : ((([b, a, c] : List ι) : Multiset ι)) ≤ cs := by
    rw [Multiset.coe_eq_coe.mpr ((List.Perm.swap a b [c]).trans order)]
    exact within
  have two : 2 ≤ (outcome [b, a, c]).card := by
    obtain ⟨t, second, third⟩ := (runs [b, a, c] within').three
    cases joins : m.join? a (m.plain b) with
    | none =>
      cases second.of_none joins
      exact third.card_le
    | some i =>
      cases second.of_joins joins
      exact le_of_eq (congrArg Multiset.card (third.of_none (stays i joins))).symm
  have reordered : [b, a, c].Perm [y, x, z] :=
    ((List.Perm.swap a b [c]).trans order).trans (List.Perm.swap y x [z])
  rw [same [b, a, c] [y, x, z] within' reordered, one] at two
  omega

/-- It takes no more than three things to tell whether the order matters. -/
theorem settled_iff {outcome : List ι → Multiset κ} (runs : ∀ xs : List ι, ↑xs ≤ cs → m.Run xs 0 (outcome xs)) :
    m.Settled cs ↔ ∀ xs ys : List ι, ↑xs ≤ cs → xs.Perm ys → outcome xs = outcome ys := by
  constructor
  · intro settled xs ys within perm
    have runs' := runs ys (Multiset.coe_eq_coe.mpr perm ▸ within)
    have pending : m.Pending cs xs 0 := ⟨0, 0, rfl, by rwa [Multiset.zero_add], by simp⟩
    exact (runs xs within).perm settled perm pending runs'
  · intro same
    have inert {x y z j} (within : x ::ₘ y ::ₘ {z} ≤ cs) (joins : m.join? x (m.plain y) = some j) :
        m.join? z j = none := inert_of_anyOrder runs same within joins
    refine ⟨inert, fun {x y z j k} within joins joins' => ?_⟩
    have outcome_eq {y z j} (within : x ::ₘ y ::ₘ {z} ≤ cs) (joins : m.join? x (m.plain y) = some j) :
        outcome [y, x, z] = m.plain z ::ₘ {j} := by
      obtain ⟨t, second, third⟩ := (runs [y, x, z] ((Multiset.cons_swap y x {z}).trans_le within)).three
      cases second.of_joins joins
      exact third.of_none (inert within joins)
    have within' : x ::ₘ z ::ₘ {y} ≤ cs := by
      have swapped : x ::ₘ z ::ₘ {y} = x ::ₘ y ::ₘ {z} := congrArg (x ::ₘ ·) (Multiset.cons_swap z y 0)
      exact swapped ▸ within
    have agree := same [y, x, z] [z, x, y] ((Multiset.cons_swap y x {z}).trans_le within) (List.reverse_perm [z, x, y])
    rw [outcome_eq within joins, outcome_eq within' joins'] at agree
    exact (Multiset.pair_comm j _).trans (agree.trans (Multiset.pair_comm _ k))

end Merging
end Selectivity
