import Mathlib.Data.List.Induction
import Selectivity.Normalize.Expansion
import Selectivity.Proofs.Picks

/-! The odometer of expansion goes through all ways to pick, from the first positions to the
last, and stops there. Without an empty factor every pick stays inside of its factor, and
there are as many turns as the lengths of the factors multiply to. -/

namespace Selectivity

/-- From each of these one comes to the next, and from the last one nowhere. -/
inductive Visits {β : Type} (next : β → Option β) : List β → Prop
  | last {x} (ends : next x = none) : Visits next [x]
  | step {x y ys} (moves : next x = some y) (rest : Visits next (y :: ys)) : Visits next (x :: y :: ys)

theorem ways_concat {β : Type} (factors : List (List β)) (factor : List β) :
    ways (factors ++ [factor]) = (ways factors).flatMap fun way => factor.map (way ++ [·]) := by
  induction factors with
  | nil => simp [ways, List.map_eq_flatMap]
  | cons first factors ih =>
    simp only [List.cons_append, ways, ih, List.flatMap_assoc, List.map_flatMap, List.flatMap_map, List.map_map,
      Function.comp_def]

theorem ways_eq_nil {β : Type} {factors : List (List β)} (empty : [] ∈ factors) : ways factors = [] := by
  induction factors with
  | nil => cases empty
  | cons factor factors ih =>
    rcases List.mem_cons.mp empty with rfl | later
    · rfl
    · rw [ways, ih later]
      simp

namespace Odometer

variable {factors : List (List NodeId)} {factor : List NodeId} {picks : List Nat} {pick : Nat}

/-- All positions to pick at, in lexicographic order. -/
def places (factors : List (List NodeId)) : List (List Nat) := ways (factors.map (List.range ·.length))

theorem mem_places : picks ∈ places factors ↔ List.Forall₂ (fun k factor => k < factor.length) picks factors := by
  rw [places, mem_ways, List.forall₂_map_right_iff]
  simp only [List.mem_range]

theorem length_places (factors : List (List NodeId)) : (places factors).length = (factors.map List.length).prod := by
  rw [places, length_ways, List.map_map]
  simp only [Function.comp_def, List.length_range]

theorem places_concat (factors : List (List NodeId)) (factor : List NodeId) :
    places (factors ++ [factor]) =
      (places factors).flatMap fun place => (List.range factor.length).map (place ++ [·]) := by
  rw [places, List.map_append, List.map_singleton, ways_concat]
  rfl

/-- What lies to the right of a position is no matter for going on from there. -/
private theorem advance_append (more : List (List NodeId)) (rest : List Nat) (aligned : picks.length = factors.length)
    {position : Nat} (inside : position ≤ factors.length) :
    advance (factors ++ more) position (picks ++ rest) = (advance factors position picks).map (· ++ rest) := by
  induction position generalizing picks with
  | zero => rfl
  | succ position ih =>
    have before : position < factors.length := inside
    have here : position < picks.length := aligned ▸ before
    have room : (factors ++ more)[position]! = factors[position]! := by
      simp only [List.getElem!_eq_getElem?_getD, List.getElem?_append_left before]
    have pick : (picks ++ rest)[position]! = picks[position]! := by
      simp only [List.getElem!_eq_getElem?_getD, List.getElem?_append_left here]
    simp only [advance, room, pick, List.set_append_left _ _ here]
    split
    next => rfl
    next => exact ih (by rw [List.length_set, aligned]) (Nat.le_of_lt before)

/-- The last wheel goes on, or starts over while the others go on. -/
theorem advance_concat (aligned : picks.length = factors.length) :
    advance (factors ++ [factor]) (factors ++ [factor]).length (picks ++ [pick]) =
      if pick + 1 < factor.length then some (picks ++ [pick + 1])
      else (advance factors factors.length picks).map (· ++ [0]) := by
  have last : (picks ++ [pick])[factors.length]! = pick := by simp [← aligned]
  have turned (k : Nat) : (picks ++ [pick]).set factors.length k = picks ++ [k] := by simp [← aligned]
  rw [List.length_append, List.length_singleton, advance, last, turned, turned]
  simp only [List.getElem!_eq_getElem?_getD, List.getElem?_concat_length, Option.getD_some]
  rw [advance_append _ _ aligned (Nat.le_refl _)]

example : advance [[7, 8], [9, 10, 11]] 2 [0, 2] = some [1, 0] := rfl

/-! ### Turns -/

/-- From a position of the last wheel on it goes to its end, and then wherever the others take it. -/
private theorem visits_wheel {place : List Nat} (aligned : place.length = factors.length) {tail : List (List Nat)}
    (after : ∀ k, factor.length = k + 1 →
      Visits (advance (factors ++ [factor]) (factors ++ [factor]).length) ((place ++ [k]) :: tail))
    (left : Nat) {low : Nat} (rest : low + left + 1 = factor.length) :
    Visits (advance (factors ++ [factor]) (factors ++ [factor]).length)
      ((List.range' low (left + 1)).map (place ++ [·]) ++ tail) := by
  induction left generalizing low with
  | zero => exact after low rest.symm
  | succ left ih =>
    refine .step ?_ (ih (by omega))
    rw [advance_concat aligned, if_pos (by omega)]

theorem visits_places (filled : [] ∉ factors) : Visits (advance factors factors.length) (places factors) := by
  induction factors using List.reverseRecOn with
  | nil => exact .last rfl
  | append_singleton factors factor ih =>
    rw [List.mem_append, List.mem_singleton, not_or] at filled
    obtain ⟨left, some⟩ := Nat.exists_eq_add_one_of_ne_zero (mt List.eq_nil_of_length_eq_zero (Ne.symm filled.2))
    have aligned : ∀ place ∈ places factors, place.length = factors.length :=
      fun place member => (mem_places.mp member).length_eq
    rw [places_concat, some]
    simp only [List.range_eq_range']
    -- One block of turns for each way to pick from the other factors.
    have run := ih filled.1
    generalize places factors = blocks at run aligned
    induction run with
    | @last place ends =>
      have inside := aligned place List.mem_cons_self
      rw [List.flatMap_singleton, ← List.append_nil (List.map _ _)]
      refine visits_wheel inside (fun k whole => .last ?_) left (by omega)
      rw [advance_concat inside, if_neg (by omega), ends]
      rfl
    | @step place place' rest moves _ more =>
      have inside := aligned place List.mem_cons_self
      have later := more fun p member => aligned p (List.mem_cons_of_mem _ member)
      rw [List.flatMap_cons]
      refine visits_wheel inside (fun k whole => ?_) left (by omega)
      refine .step ?_ later
      rw [advance_concat inside, if_neg (by omega), moves]
      rfl

theorem picked_places (factors : List (List NodeId)) : (places factors).map (picked factors) = ways factors := by
  induction factors with
  | nil => rfl
  | cons factor factors ih =>
    have elements : (List.range factor.length).map (factor[·]!) = factor := by
      apply List.ext_getElem (by simp)
      intro k _ inside
      simp [inside]
    calc (places (factor :: factors)).map (picked (factor :: factors))
      _ = (List.range factor.length).flatMap fun k => (ways factors).map (factor[k]! :: ·) := by
        rw [← ih]
        simp only [places, List.map_cons, ways, List.map_flatMap, List.map_map]
        rfl
      _ = ((List.range factor.length).map (factor[·]!)).flatMap fun pick => (ways factors).map (pick :: ·) :=
        by rw [List.flatMap_map]
      _ = ways (factor :: factors) := by rw [elements, ways]

theorem head?_places (filled : [] ∉ factors) : (places factors).head? = some (factors.map fun _ => 0) := by
  induction factors with
  | nil => rfl
  | cons factor factors ih =>
    rw [List.mem_cons, not_or] at filled
    obtain ⟨count, some⟩ := Nat.exists_eq_add_one_of_ne_zero (mt List.eq_nil_of_length_eq_zero (Ne.symm filled.1))
    have rest := ih filled.2
    rw [places] at rest
    simp only [places, List.map_cons, ways, some, List.range_succ_eq_map, List.flatMap_cons, List.head?_append,
      List.head?_map, rest, Option.map_some, Option.some_or]

theorem product_eq (factors : List (List NodeId)) : product factors = (factors.map List.length).prod := by
  rw [product, List.prod_eq_foldl, List.foldl_map]

/-- From the first positions on, the odometer shows all positions there are, one after the
other in lexicographic order, and shows nothing more. What is picked there are the ways to pick. -/
structure Exhausts (factors : List (List NodeId)) (shown : List (List Nat)) : Prop where
  starts : shown.head? = some (factors.map fun _ => 0)
  visits : Visits (advance factors factors.length) shown
  ascending : shown.Pairwise (List.Lex (· < ·))
  inside : ∀ place, place ∈ shown ↔ List.Forall₂ (fun k factor => k < factor.length) place factors
  length : shown.length = (factors.map List.length).prod
  picked : shown.map (picked factors) = ways factors

theorem places_exhausts (filled : [] ∉ factors) : Exhausts factors (places factors) where
  starts := head?_places filled
  visits := visits_places filled
  ascending := by
    have ordered := ways_range_pairwise (factors.map List.length)
    rwa [List.map_map] at ordered
  inside _ := mem_places
  length := length_places factors
  picked := picked_places factors

variable {m : Type → Type} [Monad m] [LawfulMonad m] [MonadExcept TreeError m]

/-- Turns are taken in the order of the visits, and one for each is enough. -/
theorem turnsFrom_eq (turn : List NodeId → m NodeId) {rest : List (List Nat)}
    (visits : Visits (advance factors factors.length) (picks :: rest)) {turns : Nat} (enough : rest.length < turns) :
    turnsFrom factors turn turns picks = (picks :: rest).mapM fun picks => turn (picked factors picks) := by
  induction rest generalizing picks turns with
  | nil =>
    obtain ⟨turns, rfl⟩ := Nat.exists_eq_add_of_lt enough
    cases visits with
    | last ends => simp [turnsFrom, ends]
  | cons next rest ih =>
    cases turns with
    | zero => cases enough
    | succ turns =>
      cases visits with
      | step moves visits =>
        rw [List.mapM_cons, ← ih visits (Nat.lt_of_succ_lt_succ enough)]
        simp only [turnsFrom, moves]

/-- With as many turns as there are ways to pick, or more of them, the odometer comes to its end. -/
theorem turnsFrom_start (filled : [] ∉ factors) (turn : List NodeId → m NodeId) {turns : Nat}
    (enough : product factors ≤ turns) :
    turnsFrom factors turn turns (factors.map fun _ => 0) = (ways factors).mapM turn := by
  have visits := visits_places filled
  have length := length_places factors
  rw [← picked_places factors, List.mapM_map]
  rw [product_eq, ← length] at enough
  cases all : places factors with
  | nil =>
    rw [all] at visits
    cases visits
  | cons start rest =>
    have first := head?_places filled
    rw [all] at visits enough first
    cases first
    exact turnsFrom_eq turn visits enough

theorem expand_eq (factors : List (List NodeId)) (turn : List NodeId → m NodeId) :
    expand factors turn = (ways factors).mapM turn := by
  rw [expand]
  split
  next empty =>
    obtain ⟨factor, member, none⟩ := List.any_eq_true.mp empty
    rw [List.isEmpty_iff.mp none] at member
    rw [ways_eq_nil member, List.mapM_nil]
  next filled =>
    refine turnsFrom_start (fun member => filled (List.any_eq_true.mpr ⟨[], member, rfl⟩)) turn (Nat.le_refl _)

end Odometer
end Selectivity
