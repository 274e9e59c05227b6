import Mathlib.Algebra.BigOperators.Group.List.Basic
import Mathlib.Data.List.Forall2

/-! Picking one element from each of several lists. The ways to pick come in the
lexicographic order of the positions picked at. -/

namespace Selectivity

variable {β γ : Type}

/-- All ways to pick one element from each list, the last pick changing fastest. -/
def ways : List (List β) → List (List β)
  | [] => [[]]
  | factor :: factors => factor.flatMap fun pick => (ways factors).map (pick :: ·)

theorem length_ways (factors : List (List β)) : (ways factors).length = (factors.map List.length).prod := by
  induction factors with
  | nil => rfl
  | cons factor factors ih => simp [ways, List.length_flatMap, ih]

theorem mem_ways {factors : List (List β)} {way : List β} :
    way ∈ ways factors ↔ List.Forall₂ (· ∈ ·) way factors := by
  induction factors generalizing way with
  | nil => simp [ways]
  | cons factor factors ih => cases way <;> simp [ways, ih]

theorem ways_related {related : β → γ → Prop} {xs : List (List β)} {ys : List (List γ)}
    (each : List.Forall₂ (List.Forall₂ related) xs ys) :
    List.Forall₂ (List.Forall₂ related) (ways xs) (ways ys) := by
  induction each with
  | nil => exact .cons .nil .nil
  | cons head _ ih =>
    exact List.rel_flatMap head fun x y first => List.rel_map (fun way way' rest => .cons first rest) ih

theorem exists_of_mem_left {related : β → γ → Prop} {xs : List β} {ys : List γ}
    (each : List.Forall₂ related xs ys) : ∀ x ∈ xs, ∃ y ∈ ys, related x y := by
  induction each with
  | nil => simp
  | cons first _ ih =>
    refine List.forall_mem_cons.mpr ⟨⟨_, List.mem_cons_self, first⟩, fun x member => ?_⟩
    obtain ⟨y, other, relates⟩ := ih x member
    exact ⟨y, List.mem_cons_of_mem _ other, relates⟩

/-- Every way to pick is there once, by ascending positions. -/
def Enumerates (factors picks : List (List β)) : Prop :=
  ∃ places : List (List Nat),
    places.Pairwise (List.Lex (· < ·)) ∧
    (∀ place, place ∈ places ↔ List.Forall₂ (fun k factor => k < factor.length) place factors) ∧
    List.Forall₂ (fun place picked => List.zipWith (fun k factor => factor[k]?) place factors = picked.map some)
      places picks

theorem ways_range_pairwise (counts : List Nat) :
    (ways (counts.map List.range)).Pairwise (List.Lex (· < ·)) := by
  induction counts with
  | nil => simp [ways]
  | cons count counts ih =>
    rw [List.map_cons, ways, List.pairwise_flatMap]
    constructor
    · intro k _
      exact List.pairwise_map.mpr (ih.imp List.Lex.cons)
    · apply List.pairwise_lt_range.imp
      intro k l less first one second two
      obtain ⟨_, _, rfl⟩ := List.mem_map.mp one
      obtain ⟨_, _, rfl⟩ := List.mem_map.mp two
      exact .rel less

private theorem range_elements (factor : List β) :
    List.Forall₂ (fun k x => factor[k]? = some x) (List.range factor.length) factor := by
  apply List.forall₂_iff_get.mpr
  simp

theorem ways_enumerates (factors : List (List β)) : Enumerates factors (ways factors) := by
  refine ⟨ways (factors.map (List.range ·.length)), ?_, ?_, ?_⟩
  · simpa only [List.map_map, Function.comp_def] using ways_range_pairwise (factors.map List.length)
  · intro place
    rw [mem_ways, List.forall₂_map_right_iff]
    simp
  · induction factors with
    | nil => simp [ways]
    | cons factor factors ih =>
      simp only [List.map_cons, ways]
      refine List.rel_flatMap (range_elements factor) fun k x here => ?_
      refine List.rel_map (fun place picked there => ?_) ih
      simp [here, there]

end Selectivity
