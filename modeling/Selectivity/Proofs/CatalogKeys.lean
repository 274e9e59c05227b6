import Mathlib.Data.List.Induction
import Mathlib.Data.Set.Basic
import Selectivity.Catalog

/-! What the written name as a key makes of a catalog. Points are not quoted in it, so two
tables can share one entry, and only without such tables is a catalog a map keyed by the table. -/

namespace Selectivity

namespace TableName

/-- The schema of one table goes on where its name ends in the other one's schema, as in
`b.c` of schema `a` and `c` of schema `a.b`. -/
def Homonyms (t u : TableName) : Prop :=
  ∃ between, u.schema = t.schema ++ "." ++ between ∧ t.name = between ++ "." ++ u.name

variable {t u : TableName}

theorem Homonyms.render_eq (homonyms : Homonyms t u) : t.render = u.render := by
  obtain ⟨between, schema, name⟩ := homonyms
  rw [render, render, schema, name]
  simp only [String.append_assoc]

theorem Homonyms.ne (homonyms : Homonyms t u) : t ≠ u := by
  rintro rfl
  obtain ⟨between, schema, _⟩ := homonyms
  have longer := congrArg String.length schema
  simp only [String.length_append] at longer
  have point : ".".length = 1 := rfl
  omega

theorem Homonyms.point_mem (homonyms : Homonyms t u) : '.' ∈ u.schema.toList ∧ '.' ∈ t.name.toList := by
  obtain ⟨between, schema, name⟩ := homonyms
  rw [schema, name]
  simp

private theorem homonyms_of_split {between : List Char} (schema : u.schema.toList = t.schema.toList ++ between)
    (rest : '.' :: t.name.toList = between ++ '.' :: u.name.toList) : t = u ∨ Homonyms t u := by
  cases between with
  | nil =>
    have schemas : t.schema = u.schema := String.toList_inj.mp ((List.append_nil _).symm.trans schema.symm)
    have names : t.name = u.name := String.toList_inj.mp (List.cons.inj rest).2
    cases t
    cases u
    cases schemas
    cases names
    exact .inl rfl
  | cons point between =>
    obtain ⟨rfl, name⟩ := List.cons.inj rest
    refine .inr ⟨String.ofList between, String.toList_inj.mp ?_, String.toList_inj.mp ?_⟩
    · simp [schema]
    · simp [name]

theorem render_eq_iff : t.render = u.render ↔ t = u ∨ Homonyms t u ∨ Homonyms u t := by
  constructor
  · intro same
    have split : t.schema.toList ++ '.' :: t.name.toList = u.schema.toList ++ '.' :: u.name.toList := by
      simpa [render] using congrArg String.toList same
    rcases List.append_eq_append_iff.mp split with ⟨between, schema, rest⟩ | ⟨between, schema, rest⟩
    · rcases homonyms_of_split schema rest with equal | homonyms
      · exact .inl equal
      · exact .inr (.inl homonyms)
    · rcases homonyms_of_split schema rest with equal | homonyms
      · exact .inl equal.symm
      · exact .inr (.inr homonyms)
  · rintro (rfl | homonyms | homonyms)
    · rfl
    · exact homonyms.render_eq
    · exact homonyms.render_eq.symm

end TableName

namespace Catalog

variable {α : Type} {t u : TableName} {tables : Set TableName}

instance [Quantity α] : Inhabited (TableStats α) :=
  ⟨{ rows := Quantity.zero, equalityFallback := Quantity.zero, rangeFallback := Quantity.zero }⟩

theorem find?_publish (c : Catalog α) (stats : TableStats α) :
    (c.publish t stats).find? u = if t.render = u.render then some stats else c.find? u := by
  rw [find?, publish, List.lookup_cons, find?]
  by_cases same : t.render = u.render
  · rw [if_pos same, same, beq_self_eq_true]
  · rw [if_neg same, beq_eq_false_iff_ne.mpr (Ne.symm same)]

inductive Call (α : Type) where
  | publish (table : TableName) (stats : TableStats α)
  | take (table : TableName)

def Call.table : Call α → TableName
  | .publish table _ => table
  | .take table => table

/-- A catalog and all that was handed out from it, in order. -/
structure Session (α : Type) where
  catalog : Catalog α := {}
  taken : List (Option (TableStats α)) := []

def Session.call (s : Session α) : Call α → Session α
  | .publish table stats => { s with catalog := s.catalog.publish table stats }
  | .take table => { s with taken := s.taken ++ [s.catalog.find? table] }

def Session.run (calls : List (Call α)) : Session α := calls.foldl Session.call {}

/-- The last statistics that were published for one of the tables. -/
def latest? (names : TableName → Bool) (calls : List (Call α)) : Option (TableStats α) :=
  calls.reverse.findSome? fun
    | .publish table stats => if names table then some stats else none
    | .take _ => none

theorem latest?_publish (names : TableName → Bool) (calls : List (Call α)) (stats : TableStats α) :
    latest? names (calls ++ [.publish t stats]) = if names t then some stats else latest? names calls := by
  rw [latest?, List.reverse_concat, List.findSome?_cons]
  dsimp only
  cases names t <;> rfl

theorem latest?_take (names : TableName → Bool) (calls : List (Call α)) :
    latest? names (calls ++ [.take t]) = latest? names calls := by
  rw [latest?, List.reverse_concat, List.findSome?_cons]
  rfl

theorem latest?_congr {names others : TableName → Bool} {calls : List (Call α)}
    (same : ∀ call ∈ calls, names call.table = others call.table) : latest? names calls = latest? others calls := by
  induction calls using List.reverseRecOn with
  | nil => rfl
  | append_singleton calls call ih =>
    obtain ⟨before, last⟩ := List.forall_mem_append.mp same
    cases call with
    | publish table stats =>
      rw [latest?_publish, latest?_publish, ih before, show names table = others table from last _ List.mem_cons_self]
    | take table => rw [latest?_take, latest?_take, ih before]

theorem Session.run_append (calls more : List (Call α)) : run (calls ++ more) = more.foldl call (run calls) :=
  List.foldl_append

/-- A catalog is a map keyed by the written name. -/
theorem Session.find?_run (calls : List (Call α)) (t : TableName) :
    (run calls).catalog.find? t = latest? (·.render == t.render) calls := by
  induction calls using List.reverseRecOn with
  | nil => rfl
  | append_singleton calls call ih =>
    rw [run_append]
    cases call with
    | publish table stats =>
      rw [latest?_publish, ← ih]
      simp only [beq_iff_eq]
      exact find?_publish _ stats
    | take table => rw [latest?_take, ← ih]; rfl

theorem Session.taken_prefix (s : Session α) (calls : List (Call α)) : s.taken <+: (calls.foldl call s).taken := by
  induction calls generalizing s with
  | nil => exact List.prefix_refl _
  | cons first calls ih =>
    have step : s.taken <+: (s.call first).taken := by
      cases first with
      | publish table stats => exact List.prefix_refl _
      | take table => exact List.prefix_append _ _
    exact step.trans (ih _)

/-- Whatever is called afterwards, what was handed out is what the catalog held. -/
theorem Session.taken_run (before after : List (Call α)) (t : TableName) :
    (run (before ++ .take t :: after)).taken[(run before).taken.length]? = some ((run before).catalog.find? t) := by
  have kept := taken_prefix ((run before).call (.take t)) after
  rw [run_append]
  exact List.prefix_iff_getElem?.mp kept _ (by simp [call]) |>.trans (by simp [call])

def About (tables : Set TableName) (calls : List (Call α)) : Prop := ∀ call ∈ calls, call.table ∈ tables

/-- A map keyed by the table, as far as calls are about some tables only: answers are those
of the last publication for the very table, and what was handed out stays what it was. -/
structure Keyed (α : Type) (tables : Set TableName) : Prop where
  found : ∀ calls : List (Call α), About tables calls → ∀ t ∈ tables,
    (Session.run calls).catalog.find? t = latest? (· == t) calls
  rows : ∀ calls : List (Call α), About tables calls → ∀ t ∈ tables,
    (Session.run calls).catalog.rows? t = (latest? (· == t) calls).map (·.rows)
  apart : ∀ calls : List (Call α), About tables calls → ∀ t ∈ tables, ∀ u ∈ tables, u ≠ t → ∀ stats,
    (Session.run (calls ++ [.publish u stats])).catalog.find? t = (Session.run calls).catalog.find? t
  taken : ∀ before after : List (Call α), About tables before → ∀ t ∈ tables,
    (Session.run (before ++ .take t :: after)).taken[(Session.run before).taken.length]? =
      some (latest? (· == t) before)

theorem keyed_of_distinct (distinct : ∀ t ∈ tables, ∀ u ∈ tables, ¬ t.Homonyms u) : Keyed α tables := by
  have injective : ∀ t ∈ tables, ∀ u ∈ tables, (u.render == t.render) = (u == t) := by
    intro t here u there
    rw [Bool.eq_iff_iff, beq_iff_eq, beq_iff_eq, TableName.render_eq_iff]
    simp [distinct t here u there, distinct u there t here]
  have found : ∀ calls : List (Call α), About tables calls → ∀ t ∈ tables,
      (Session.run calls).catalog.find? t = latest? (· == t) calls := by
    intro calls about t here
    rw [Session.find?_run]
    exact latest?_congr fun call member => injective t here _ (about call member)
  refine ⟨found, ?_, ?_, ?_⟩
  · intro calls about t here
    rw [rows?, found calls about t here]
  · intro calls about t here u there other stats
    have different : (u.render == t.render) = false :=
      (injective t here u there).trans (beq_eq_false_iff_ne.mpr other)
    rw [Session.find?_run, latest?_publish, different, Session.find?_run]
    rfl
  · intro before after about t here
    rw [Session.taken_run, found before about t here]

/-- Only tables of one written name get in each other's way, and a catalog is a map keyed by
the table exactly as far as no two tables have one written name. -/
theorem keyed_iff [Quantity α] :
    (∀ (calls : List (Call α)) (t : TableName),
      (Session.run calls).catalog.find? t = latest? (·.render == t.render) calls) ∧
    (∀ (before after : List (Call α)) (t : TableName),
      (Session.run (before ++ .take t :: after)).taken[(Session.run before).taken.length]? =
        some ((Session.run before).catalog.find? t)) ∧
    ∀ tables : Set TableName, Keyed α tables ↔ ∀ t ∈ tables, ∀ u ∈ tables, ¬ t.Homonyms u := by
  refine ⟨Session.find?_run, Session.taken_run, fun tables => ⟨?_, ?_⟩⟩
  · -- The statistics of one homonym are found under the other one.
    intro keyed t here u there homonyms
    have found := keyed.found [.publish t default] (by simpa [About, Call.table] using here) u there
    have shared : (Session.run [.publish t (default : TableStats α)]).catalog.find? u = some default :=
      (find?_publish {} default).trans (if_pos homonyms.render_eq)
    have own : latest? (· == u) [.publish t (default : TableStats α)] = none := by
      simp [latest?, homonyms.ne]
    cases shared.symm.trans (found.trans own)
  · exact keyed_of_distinct

theorem keyed_unpointed : Keyed Float {table | '.' ∉ table.schema.toList} :=
  (keyed_iff.2.2 _).mpr fun _ _ _ unpointed homonyms => unpointed homonyms.point_mem.1

/-- Table `b.c` of schema `a` is published, and table `c` of schema `a.b` is asked for. -/
def mistaken : List (Call Float) :=
  [.publish { schema := "a", name := "b.c" } (TableStats.ofRows 100), .take { schema := "a.b", name := "c" }]

theorem mistaken_not_keyed :
    (Session.run mistaken).taken = [some (TableStats.ofRows 100)] ∧
      (Session.run mistaken).catalog.rows? { schema := "a.b", name := "c" } = some 100 ∧
      latest? (· == { schema := "a.b", name := "c" }) mistaken = none ∧ ¬ Keyed Float Set.univ := by
  refine ⟨rfl, rfl, rfl, fun keyed => ?_⟩
  have found := keyed.rows mistaken (fun _ _ => trivial) { schema := "a.b", name := "c" } trivial
  have shared : (Session.run mistaken).catalog.rows? { schema := "a.b", name := "c" } = some 100 := rfl
  cases shared.symm.trans found

end Catalog
end Selectivity
