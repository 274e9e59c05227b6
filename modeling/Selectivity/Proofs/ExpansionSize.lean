import Selectivity.Proofs.NormalForm
import Selectivity.Proofs.NormalizeShape

/-! How large expansion leaves an arena. A copy is made only where there is room for it, but the
chains that link the copies, and the new chain at the root, are appended without a look at the
limit. So the arena may end above it, by what was appended after the last copy. -/

namespace Selectivity

/-! ### Loads -/

/-- The nodes that some work appends, and those among them up to its last copy. -/
structure Load where
  checked : Nat
  grown : Nat
  within : checked ≤ grown

namespace Load

variable {first next : Load} {size limit : Nat}

def none : Load := ⟨0, 0, Nat.le_refl 0⟩

def copy (e : Expr) : Load := ⟨e.size, e.size, Nat.le_refl _⟩

/-- A cell for every item, and the neutral constant. -/
def chain (items : Nat) : Load := ⟨0, items + 1, Nat.zero_le _⟩

def andThen (first next : Load) : Load where
  checked := if next.checked = 0 then first.checked else first.grown + next.checked
  grown := first.grown + next.grown
  within := by
    have fits := first.within
    have fits' := next.within
    split <;> omega

def all (loads : List Load) : Load := loads.foldr andThen none

/-- An arena of some size can take every copy. -/
def Fits (size limit : Nat) (load : Load) : Prop := load.checked = 0 ∨ size + load.checked ≤ limit

instance (size limit : Nat) (load : Load) : Decidable (load.Fits size limit) :=
  inferInstanceAs (Decidable (_ ∨ _))

@[simp] theorem andThen_none (load : Load) : load.andThen none = load := rfl

/-- Only the last copy of all matters, but then there was room for the ones before. -/
theorem fits_andThen :
    (first.andThen next).Fits size limit ↔ first.Fits size limit ∧ next.Fits (size + first.grown) limit := by
  have fits := first.within
  simp only [Fits, andThen]
  split <;> omega

end Load

/-! ### Attempts with a load -/

namespace Attempt

variable {α β γ : Type} {a : Arena} {load first next : Load} {post : α → Prop}

/-- On whatever extends an arena, an attempt appends its load, or stops short if that does not fit. -/
structure Takes (a : Arena) (load : Load) (post : α → Prop) (attempt : Attempt α) : Prop where
  runs : ∀ b, a.Keeps b ∅ → load.Fits b.size b.limit →
    ∃ value c, attempt b = (.ok value, c) ∧ b.Keeps c ∅ ∧ c.size = b.size + load.grown ∧ post value
  stops : ∀ b, a.Keeps b ∅ → ¬ load.Fits b.size b.limit → ∃ problem c, attempt b = (.error problem, c)

namespace Takes

theorem pure {value : α} (holds : post value) : Takes a .none post (Pure.pure value) where
  runs b _ _ := ⟨value, b, rfl, .refl b ∅, rfl, holds⟩
  stops _ _ crowded := absurd (Or.inl rfl) crowded

theorem bind {attempt : Attempt α} {more : α → Attempt β} {post' : β → Prop} (before : Takes a first post attempt)
    (after : ∀ value, post value → Takes a next post' (more value)) :
    Takes a (first.andThen next) post' (attempt >>= more) where
  runs b keeps fits := by
    obtain ⟨fits, fits'⟩ := Load.fits_andThen.mp fits
    obtain ⟨value, c, run, appended, size, holds⟩ := before.runs b keeps fits
    rw [← size, ← appended.limit] at fits'
    obtain ⟨result, d, run', appended', size', holds'⟩ := (after value holds).runs c (keeps.append appended) fits'
    refine ⟨result, d, ?_, appended.append appended', ?_, holds'⟩
    · simp only [bind_run, run, run']
    · rw [size', size, Nat.add_assoc]
      rfl
  stops b keeps crowded := by
    by_cases fits : first.Fits b.size b.limit
    · obtain ⟨value, c, run, appended, size, holds⟩ := before.runs b keeps fits
      have crowded' : ¬ next.Fits c.size c.limit := by
        rw [size, appended.limit]
        exact fun fits' => crowded (Load.fits_andThen.mpr ⟨fits, fits'⟩)
      obtain ⟨problem, d, stop⟩ := (after value holds).stops c (keeps.append appended) crowded'
      exact ⟨problem, d, by simp only [bind_run, run, stop]⟩
    · obtain ⟨problem, c, stop⟩ := before.stops b keeps fits
      exact ⟨problem, c, by simp only [bind_run, stop]⟩

theorem andPure {attempt : Attempt α} {f : α → β} {post' : β → Prop} (before : Takes a load post attempt)
    (after : ∀ value, post value → post' (f value)) :
    Takes a load post' (attempt >>= fun value => Pure.pure (f value)) := by
  have both : Takes a (load.andThen .none) post' (attempt >>= fun value => Pure.pure (f value)) :=
    before.bind fun value holds => pure (after value holds)
  rwa [Load.andThen_none] at both

theorem mapM {attempt : β → Attempt α} {loads : γ → Load} {post : γ → α → Prop} {items : List β} {parts : List γ}
    (each : List.Forall₂ (fun item part => Takes a (loads part) (post part) (attempt item)) items parts) :
    Takes a (.all (parts.map loads)) (List.Forall₂ post parts) (items.mapM attempt) := by
  induction each with
  | nil => exact pure .nil
  | cons head _ ih =>
    rw [List.mapM_cons]
    exact head.bind fun value holds => ih.andPure fun values rest => .cons holds rest

theorem copyPick {pick : NodeId} {e : Expr} (stands : a.Stands pick e) :
    Takes a (.copy e) (·.length = e.disjuncts.length) (step (Arena.copyPick pick)) where
  runs b keeps fits := by
    obtain ⟨ids, t, copied, total⟩ := Arena.copyPick_eq (stands.extend keeps.extend)
    have room : ¬ b.limit < b.size + e.size := by
      rcases fits with none | room
      · exact absurd none e.size_pos.ne'
      · exact Nat.not_lt.mpr room
    rw [if_neg room] at total
    refine ⟨ids, (b.addExpr e).2, ?_, copied.keeps, b.size_addExpr e, copied.forest.stands.length_eq⟩
    simp only [step, total]
  stops b keeps crowded := by
    obtain ⟨ids, t, copied, total⟩ := Arena.copyPick_eq (stands.extend keeps.extend)
    have full : b.limit < b.size + e.size := Nat.not_le.mp fun room => crowded (.inr room)
    rw [if_pos full] at total
    refine ⟨.full b.limit, b, ?_⟩
    simp only [step, total]

theorem addChain (a : Arena) (c : Connective) (items : List NodeId) :
    Takes a (.chain items.length) (fun _ => True) (step fun b => .ok (b.addChain c items)) where
  runs b _ _ := ⟨_, _, rfl, .chain b c items, Arena.size_addChain b c items, trivial⟩
  stops _ _ crowded := absurd (Or.inl rfl) crowded

end Takes
end Attempt

namespace Expr

/-- Copies of some picks and the chain over them. -/
def wayLoad (way : List Expr) : Load :=
  (Load.all (way.map .copy)).andThen (.chain (way.flatMap disjuncts).length)

/-- What the disjunctions that are derived from a conjunct take. -/
def load (e : Expr) : Load := .all ((ways e.factors).map wayLoad)

end Expr

namespace Attempt

variable {a : Arena}

theorem length_flatten {es : List Expr} {items : List (List NodeId)}
    (each : List.Forall₂ (fun e ids => ids.length = e.disjuncts.length) es items) :
    items.flatten.length = (es.flatMap Expr.disjuncts).length := by
  induction each with
  | nil => rfl
  | cons head _ ih => rw [List.flatten_cons, List.flatMap_cons, List.length_append, List.length_append, head, ih]

theorem Takes.disjunction {picks : List NodeId} {way : List Expr} (stand : List.Forall₂ a.Stands picks way) :
    Takes a (Expr.wayLoad way) (fun _ => True) (disjunction picks) := by
  refine (Takes.mapM (stand.imp fun pick e stands => .copyPick stands)).bind fun items each => ?_
  rw [← length_flatten each]
  exact .addChain a .or items.flatten

theorem Takes.disjunctions {factors : List (List NodeId)} {e : Expr}
    (stand : List.Forall₂ (List.Forall₂ a.Stands) factors e.factors) :
    Takes a e.load (fun ids => List.Forall₂ (fun _ _ => True) (ways e.factors) ids) (disjunctions factors) := by
  rw [disjunctions_eq]
  exact .mapM ((ways_related stand).imp fun _ _ stands => .disjunction stands)

end Attempt

/-! ### Turns -/

/-- How far a pass over conjuncts has come: what it appended, how many conjuncts the new chain
at the root is to have, and whether any is new. -/
structure Tally where
  load : Load
  conjuncts : Nat
  expanded : Bool

namespace Tally

def start : Tally := ⟨.none, 0, false⟩

/-- A conjunct that is worth it is expanded if the copies fit behind what was appended before. -/
def turn (budget size limit : Nat) (t : Tally) (e : Expr) : Tally :=
  if e.Expandable budget ∧ e.load.Fits (size + t.load.grown) limit then
    ⟨t.load.andThen e.load, t.conjuncts + e.combinations, true⟩
  else { t with conjuncts := t.conjuncts + 1 }

/-- All that is appended, with the new chain at the root. -/
def total (t : Tally) : Load := if t.expanded then t.load.andThen (.chain t.conjuncts) else t.load

/-- Nothing is checked when the root is built. -/
theorem fits_total {size limit : Nat} (t : Tally) : t.total.Fits size limit ↔ t.load.Fits size limit := by
  have free : Load.Fits (size + t.load.grown) limit (.chain t.conjuncts) := .inl rfl
  rw [total]
  split
  next => rw [Load.fits_andThen, and_iff_left free]
  next => rfl

/-- What a tally tells of an arena that a pass came to. -/
structure Tells (t : Tally) (a b : Arena) (conjuncts : List NodeId) (expanded : Bool) : Prop where
  size : b.size = a.size + t.load.grown
  fits : t.load.Fits a.size a.limit
  conjuncts : conjuncts.length = t.conjuncts
  expanded : expanded = t.expanded

end Tally

namespace Arena

variable {a b c : Arena} {budget : Nat} {conjunct : NodeId} {conjuncts ids : List NodeId} {outcome : Outcome}
  {outcomes : List Outcome} {e : Expr} {es : List Expr} {t : Tally} {any : Bool}

/-- A conjunct is expanded exactly if it is worth it and its copies fit. -/
theorem Turn.result (turn : Turn budget conjunct a outcome b) (stands : a.Stands conjunct e) :
    if e.Expandable budget ∧ e.load.Fits a.size a.limit then
      ∃ ids, outcome = .derived ids ∧ ids.length = e.combinations ∧ b.size = a.size + e.load.grown
    else outcome.isDerived = false ∧ b = a := by
  rcases factors?_eq stands budget with ⟨kept, skipped⟩ | ⟨expandable, factors, tried, stand⟩
  · rw [if_neg fun both => kept both.1]
    cases turn with
    | kept => exact ⟨rfl, rfl⟩
    | failed tried => cases skipped.symm.trans tried
    | derived tried => cases skipped.symm.trans tried
  · have takes := Attempt.Takes.disjunctions stand
    split
    next fits =>
      obtain ⟨ids, c, run, _, size, each⟩ := takes.runs a (.refl a ∅) fits.2
      obtain ⟨rfl, rfl⟩ := (Turn.derived tried run).unique turn
      refine ⟨ids, rfl, ?_, size⟩
      rw [← each.length_eq, length_ways, Expr.combinations]
    next crowded =>
      obtain ⟨problem, c, stop⟩ := takes.stops a (.refl a ∅) fun fits => crowded ⟨expandable, fits⟩
      rw [Attempt.disjunctions_error stand (congrArg Prod.fst stop)] at stop
      obtain ⟨rfl, rfl⟩ := (Turn.failed tried stop).unique turn
      exact ⟨rfl, turn.rollback⟩

theorem Turn.tells (turn : Turn budget conjunct b outcome c) (stands : b.Stands conjunct e) (keeps : Keeps a b ∅)
    (tells : t.Tells a b ids any) :
    (t.turn budget a.size a.limit e).Tells a c (ids ++ outcome.conjuncts conjunct) (any || outcome.isDerived) := by
  have result := turn.result stands
  rw [tells.size, keeps.limit] at result
  simp only [Tally.turn]
  split at result
  next fits =>
    obtain ⟨derived, rfl, length, size⟩ := result
    rw [if_pos fits]
    constructor
    · exact size.trans (Nat.add_assoc _ _ _)
    · exact Load.fits_andThen.mpr ⟨tells.fits, fits.2⟩
    · rw [List.length_append, tells.conjuncts, Outcome.conjuncts, length]
    · simp [Outcome.isDerived]
  next kept =>
    obtain ⟨underived, rfl⟩ := result
    rw [if_neg kept, underived, Bool.or_false]
    refine ⟨tells.size, tells.fits, ?_, tells.expanded⟩
    rw [List.length_append, tells.conjuncts]
    cases outcome with
    | derived ids => cases underived
    | kept | failed => rfl

theorem Pass.tells (pass : Pass budget b conjuncts outcomes c) (stand : List.Forall₂ b.Stands conjuncts es)
    (keeps : Keeps a b ∅) (tells : t.Tells a b ids any) :
    (es.foldl (Tally.turn budget a.size a.limit) t).Tells a c (ids ++ Outcome.joined conjuncts outcomes)
      (any || outcomes.any Outcome.isDerived) := by
  induction pass generalizing es ids any t with
  | done =>
    cases stand
    simpa [Outcome.joined] using tells
  | next turn _ ih =>
    cases stand with
    | cons head tail =>
      have rest := ih (stands_extend tail turn.keeps.extend) (keeps.append turn.keeps) (turn.tells head keeps tells)
      simpa [Outcome.joined, Bool.or_assoc] using rest

end Arena

/-- The turns of all conjuncts of the root, if it is a conjunction, in an arena of some size. -/
def Expr.tally (budget size limit : Nat) (e : Expr) : Tally :=
  (if e.isLink .and then e.members .and else []).foldl (Tally.turn budget size limit) .start

namespace Arena

variable {a : Arena} {e : Expr}

theorem start_tells (a : Arena) : Tally.start.Tells a a [] false := ⟨rfl, .inl rfl, rfl, rfl⟩

theorem exists_tally (stands : a.Stands a.root e) (budget : Nat) :
    ∃ conjuncts outcomes b, a.considered = .ok conjuncts ∧ Pass budget a conjuncts outcomes b ∧ Keeps a b ∅ ∧
      (e.tally budget a.size a.limit).Tells a b (Outcome.joined conjuncts outcomes)
        (outcomes.any Outcome.isDerived) := by
  obtain ⟨conjuncts, considered, stand⟩ := exists_considered stands
  obtain ⟨outcomes, b, pass, keeps, _⟩ := exists_pass stand (.refl a ∅) budget
  have tells := pass.tells stand (.refl a ∅) (start_tells a)
  exact ⟨conjuncts, outcomes, b, considered, pass, keeps, tells⟩

/-- The size that expansion ends with. Up to the last copy it is within the limit, and in the end
it is if the chains after that copy still fit, or if nothing was copied at all. -/
theorem expanded_size (stands : a.Stands a.root e) (room : a.size ≤ a.limit) (budget : Nat) :
    ∃ b, a.expanded budget = .ok b ∧ b.limit = a.limit ∧
      b.size = a.size + (e.tally budget a.size a.limit).total.grown ∧
      a.size + (e.tally budget a.size a.limit).total.checked ≤ a.limit ∧
      (b.size ≤ a.limit ↔ (e.tally budget a.size a.limit).expanded = false ∨
        a.size + (e.tally budget a.size a.limit).load.grown + (e.tally budget a.size a.limit).conjuncts + 1 ≤
          a.limit) := by
  obtain ⟨conjuncts, outcomes, b, considered, pass, keeps, tells⟩ := exists_tally stands budget
  generalize e.tally budget a.size a.limit = t at tells ⊢
  have checked : a.size + t.total.checked ≤ a.limit := by
    rcases t.fits_total.mpr tells.fits with none | fits
    · rwa [none]
    · exact fits
  refine ⟨_, pass.expanded_eq considered, ?_⟩
  rw [tells.expanded]
  cases expanded : t.expanded with
  | true =>
    have total : t.total = t.load.andThen (.chain t.conjuncts) := by rw [Tally.total, expanded, if_pos rfl]
    have size : (b.addChain .and (Outcome.joined conjuncts outcomes)).2.size =
        a.size + t.load.grown + t.conjuncts + 1 := by
      rw [size_addChain, tells.size, tells.conjuncts]
    refine ⟨(keeps.append (.chain b .and _)).limit, ?_, checked, ?_⟩
    · have grown : t.total.grown = t.load.grown + (t.conjuncts + 1) := congrArg Load.grown total
      rw [grown, ← Nat.add_assoc, ← Nat.add_assoc]
      exact size
    · simp only [Bool.true_eq_false, false_or]
      exact size ▸ Iff.rfl
  | false =>
    have total : t.total = t.load := by rw [Tally.total, expanded, if_neg Bool.false_ne_true]
    have same : b = a := pass.eq_of_none (tells.expanded.trans expanded)
    refine ⟨keeps.limit, ?_, checked, ?_⟩
    · rw [total]
      exact tells.size
    · simpa [same] using room

/-- One disjunction, of a conjunction and a leaf. -/
def oneExpr : Expr :=
  let leaf : Expr := .atom (.compare .isNull (.literal (.int 0)) none)
  .chain .and [.chain .or [.chain .and [leaf, leaf], leaf]]

def oneDisjunction (limit : Nat) : Arena := { ofExpr oneExpr with limit }

theorem oneDisjunction_stands (limit : Nat) : (oneDisjunction limit).Stands (oneDisjunction limit).root oneExpr :=
  ((ofExpr_holds oneExpr).limited limit).stands

theorem expanded_size_roomy :
    (oneDisjunction 24).Stands (oneDisjunction 24).root oneExpr ∧ (oneDisjunction 24).size ≤ 24 ∧
      ∃ b, (oneDisjunction 24).expanded 4 = .ok b ∧ b.size = 24 ∧ b.size ≤ b.limit := by
  have stands := oneDisjunction_stands 24
  have room : (oneDisjunction 24).size ≤ (oneDisjunction 24).limit := by decide
  obtain ⟨b, run, limit, size, _, within⟩ := expanded_size stands room 4
  have tally : oneExpr.tally 4 (oneDisjunction 24).size (oneDisjunction 24).limit = ⟨⟨7, 10, by decide⟩, 2, true⟩ := by
    rfl
  rw [tally] at size within
  exact ⟨stands, room, b, run, size, limit ▸ within.mpr (.inr (by decide))⟩

/-- The last copy just fits. The chain over it and the new chain at the root do not. -/
theorem expanded_size_gt :
    (oneDisjunction 18).ChainForm ∧ (oneDisjunction 18).size ≤ (oneDisjunction 18).limit ∧
      ∃ b, (oneDisjunction 18).expanded 4 = .ok b ∧ b.size = 24 ∧ (oneDisjunction 18).limit < b.size := by
  have form : oneExpr.ChainForm := by
    simp [oneExpr, Expr.ChainForm, Expr.chain, Expr.isLink, Expr.constant]
  refine ⟨(oneDisjunction_stands 18).chainForm form rfl, by decide, _, by rfl, by rfl, by decide⟩

end Arena
end Selectivity
