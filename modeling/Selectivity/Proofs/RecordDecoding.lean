import Selectivity.Json.Decode
import Selectivity.Proofs.ArenaEdits

/-! Decoding what was written out member by member. A record is put together from its fields
with the members of each, and a record with all its members gives the value back whatever the
decoders of the members are. -/

namespace Selectivity

namespace Json

variable {α : Type} {decode : Json → Decoded α} {encode : α → Json}

theorem usableItems_iff {items : List Json} : usableItems items = true ↔ ∀ item ∈ items, item.usable = true := by
  induction items with
  | nil => simp [usableItems]
  | cons item items ih => simp [usableItems, ih]

theorem asOption_encode (value : Option α) (filled : ∀ a, encode a ≠ .null)
    (decoded : ∀ a, value = some a → decode (encode a) = .ok a) :
    asOption decode (value.elim .null encode) = .ok value := by
  cases value with
  | none => rfl
  | some a =>
    have loaded : asOption decode (encode a) = (decode (encode a)).map some := by
      unfold asOption
      split
      next null => exact absurd null (filled a)
      next => rfl
    exact loaded.trans (congrArg (Except.map some) (decoded a rfl))

theorem asList_encode {items : List α} (decoded : ∀ item ∈ items, decode (encode item) = .ok item) :
    asList decode (.array (items.map encode)) = .ok items := by
  show (items.map encode).mapM decode = .ok items
  induction items with
  | nil => rfl
  | cons item items ih =>
    obtain ⟨first, rest⟩ := List.forall_mem_cons.mp decoded
    rw [List.map_cons, List.mapM_cons, first, ih rest]
    rfl

/-- An index is written as a number that is read as the same index. -/
theorem asIndex_ofNat (i : UInt32) : asIndex (.ofNat i.toNat) = .ok i := by
  have inside : (0 : Int) ≤ i.toNat ∧ (i.toNat : Int) ≤ UInt32.size - 1 := by
    have below := i.toNat_lt_size
    omega
  simp only [asIndex, ofNat, asInt, inside, and_self, if_true, Except.map, Int.toNat_natCast, UInt32.ofNat_toNat]

end Json

namespace Fields

variable {α β : Type} {key : String} {ms ns : List (String × Json)}

/-- Members that make a record with the given keys. Each field has its own, or goes without. -/
inductive Record : {α : Type} → Fields α → List String → List (String × Json) → α → Prop
  | pure {α : Type} (value : α) : Record (Fields.pure value) [] [] value
  | field {α : Type} {key : String} {decode : Json → Decoded α} {absent : Decoded α} {j : Json} {value : α}
      (decoded : decode j = .ok value) : Record (field key decode absent) [key] [(key, j)] value
  | absent {α : Type} {key : String} {decode : Json → Decoded α} {value : α} :
      Record (field key decode (.ok value)) [key] [] value
  | seq {α β : Type} {f : Fields (α → β)} {x : Fields α} {keys others : List String}
      {ms ns : List (String × Json)} {g : α → β} {value : α} (first : Record f keys ms g)
      (second : Record x others ns value) (apart : ∀ key ∈ keys, key ∉ others) :
      Record (f.seq x) (keys ++ others) (ms ++ ns) (g value)

variable {keys : List String}

theorem Record.ignores {f : Fields α} {value : α} (record : f.Record keys ms value) (other : key ∉ keys)
    (found : f.Found) (j : Json) : f.take found key j = none := by
  induction record with
  | pure => rfl
  | field => exact if_neg (List.ne_of_not_mem_cons other)
  | absent => exact if_neg (List.ne_of_not_mem_cons other)
  | seq _ _ _ ihFirst ihSecond =>
    rw [List.mem_append, not_or] at other
    simp only [Fields.seq, ihFirst other.1, ihSecond other.2, Option.map_none]

theorem Record.mem {f : Fields α} {value : α} (record : f.Record keys ms value) : ∀ m ∈ ms, m.1 ∈ keys := by
  induction record with
  | pure => simp
  | field => simp
  | absent => simp
  | seq _ _ _ ihFirst ihSecond =>
    intro m member
    rcases List.mem_append.mp member with member | member
    · exact List.mem_append_left _ (ihFirst m member)
    · exact List.mem_append_right _ (ihSecond m member)

/-- What both sets of fields have found, each by itself. -/
private def both {f : Fields (α → β)} {x : Fields α} (first : f.Found) (second : x.Found) : (f.seq x).Found :=
  (first, second)

private theorem foldlM_left {f : Fields (α → β)} {x : Fields α} {first last : f.Found}
    (passed : ∀ m ∈ ms, ∀ found j, x.take found m.1 j = none) (walk : ms.foldlM f.member first = .ok last)
    (second : x.Found) : ms.foldlM (f.seq x).member (both first second) = .ok (both last second) := by
  induction ms generalizing first with
  | nil =>
    cases walk
    rfl
  | cons m ms ih =>
    obtain ⟨here, rest⟩ := List.forall_mem_cons.mp passed
    have step : (f.seq x).member (both first second) m = (f.member first m).map (both · second) := by
      simp only [member, Fields.seq, both, here]
      cases f.take first m.1 m.2 with
      | some taken => rfl
      | none => cases m.2.skip <;> rfl
    rw [List.foldlM_cons] at walk ⊢
    obtain ⟨next, taken, onwards⟩ := ok_of_bind walk
    rw [step, taken]
    exact ih rest onwards

private theorem foldlM_right {f : Fields (α → β)} {x : Fields α} {second last : x.Found}
    (passed : ∀ m ∈ ms, ∀ found j, f.take found m.1 j = none) (walk : ms.foldlM x.member second = .ok last)
    (first : f.Found) : ms.foldlM (f.seq x).member (both first second) = .ok (both first last) := by
  induction ms generalizing second with
  | nil =>
    cases walk
    rfl
  | cons m ms ih =>
    obtain ⟨here, rest⟩ := List.forall_mem_cons.mp passed
    have step : (f.seq x).member (both first second) m = (x.member second m).map (both first) := by
      simp only [member, Fields.seq, both, here]
      cases x.take second m.1 m.2 with
      | some taken => rfl
      | none => cases m.2.skip <;> rfl
    rw [List.foldlM_cons] at walk ⊢
    obtain ⟨next, taken, onwards⟩ := ok_of_bind walk
    rw [step, taken]
    exact ih rest onwards

private theorem Record.found {f : Fields α} {value : α} (record : f.Record keys ms value) :
    ∃ found, ms.foldlM f.member f.start = .ok found ∧ f.finish found = .ok value := by
  induction record with
  | pure => exact ⟨(), rfl, rfl⟩
  | @field _ key decode absent j value decoded =>
    refine ⟨some value, ?_, rfl⟩
    have taken : (Fields.field key decode absent).member none (key, j) = .ok (some value) := by
      simp only [member, Fields.field, if_true, Option.isSome_none, Bool.false_eq_true, if_false, decoded]
      rfl
    exact congrArg (· >>= Pure.pure) taken
  | absent => exact ⟨none, rfl, rfl⟩
  | @seq _ _ f x keys others ms ns g value first second apart ihFirst ihSecond =>
    obtain ⟨left, walkLeft, endLeft⟩ := ihFirst
    obtain ⟨right, walkRight, endRight⟩ := ihSecond
    have lefts := foldlM_left (fun m member => second.ignores (apart m.1 (first.mem m member))) walkLeft x.start
    have rights := foldlM_right (fun m member => first.ignores (fun mine => apart m.1 mine (second.mem m member)))
      walkRight left
    refine ⟨both left right, ?_, ?_⟩
    · rw [List.foldlM_append]
      exact (congrArg (· >>= _) lefts).trans rights
    · show (f.finish left >>= fun g => x.finish right >>= fun value => Pure.pure (g value)) = .ok (g value)
      rw [endLeft, endRight]
      rfl

theorem Record.members {f : Fields α} {value : α} (record : f.Record keys ms value) : f.members ms = .ok value := by
  obtain ⟨found, walk, finish⟩ := record.found
  rw [Fields.members, walk]
  exact finish

end Fields
end Selectivity
