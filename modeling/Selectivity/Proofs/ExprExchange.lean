import Selectivity.Proofs.ArenaReading
import Selectivity.Proofs.PublishedStatistics
import Selectivity.Proofs.RecordDecoding

/-! Expressions in their exchanged form and back. Each type reads back what it writes, so that
an expression that went out can come in again as it was, to the last bit of its numbers. Only
numbers that JSON has no word for are lost. -/

namespace Selectivity

open Fields

namespace Scalar

/-- A value that JSON can say. -/
def Finite : Value → Prop
  | .float value => value.isFinite = true
  | _ => True

theorem decodeInt64_encode (i : Int64) : decodeInt64 (.int i.toInt) = .ok i := by
  have inside : Int64.minValue.toInt ≤ i.toInt ∧ i.toInt ≤ Int64.maxValue.toInt :=
    ⟨i.minValue_le_toInt, i.toInt_le⟩
  simp only [decodeInt64, Json.asInt, inside, and_self, if_true, Except.map, Int64.ofInt_toInt]

theorem decodeInt32_encode (i : Int32) : decodeInt32 (.int i.toInt) = .ok i := by
  have inside : Int32.minValue.toInt ≤ i.toInt ∧ i.toInt ≤ Int32.maxValue.toInt :=
    ⟨i.minValue_le_toInt, i.toInt_le⟩
  simp only [decodeInt32, Json.asInt, inside, and_self, if_true, Except.map, Int32.ofInt_toInt]

theorem decode_encode {value : Value} (finite : value.Finite) : decode value.encode = .ok value := by
  cases value with
  | null => rfl
  | bool value => rfl
  | int value => exact congrArg (Except.map Scalar.int) (decodeInt64_encode value)
  | float value =>
    have number : Json.ofFloat value = .float value := if_pos finite
    rw [encode, number]
    rfl
  | text value => rfl
  | date days => exact congrArg (Except.map Scalar.date) (decodeInt32_encode days)

theorem encode_usable (value : Value) : value.encode.usable = true := by
  cases value with
  | float value =>
    simp only [encode, Json.ofFloat]
    split <;> rfl
  | null => rfl
  | bool value => rfl
  | int value => rfl
  | text value => rfl
  | date days => rfl

end Scalar

theorem Comparator.decode_encode (op : Comparator) : decode op.encode = .ok op := by cases op <;> rfl

namespace Column

theorem decode_encode (c : Column) : decode c.encode = .ok c := by
  have table : Record (optional "table" Json.asString) _ [("table", c.table.elim .null .string)] c.table :=
    .field (Json.asOption_encode c.table (fun _ null => by cases null) (fun _ _ => rfl))
  have name : Record (required "name" Json.asString) _ [("name", .string c.name)] c.name := .field rfl
  have index : Record (required "index" Json.asIndex) _ [("index", .ofNat c.index.toNat)] c.index :=
    .field (Json.asIndex_ofNat c.index)
  have whole := (((Record.pure Column.mk).seq table (by simp)).seq name (by simp)).seq index (by simp)
  exact whole.members

theorem encode_usable (c : Column) : c.encode.usable = true := by
  obtain ⟨table, name, index⟩ := c
  cases table <;> rfl

end Column

namespace Term

def Finite : Term → Prop
  | .column _ => True
  | .literal value => value.Finite

theorem decode_encode {t : Term} (finite : t.Finite) : decode t.encode = .ok t := by
  cases t with
  | column c => exact congrArg (Except.map Term.column) c.decode_encode
  | literal value => exact congrArg (Except.map Term.literal) (Scalar.decode_encode finite)

theorem encode_usable (t : Term) : t.encode.usable = true := by
  cases t with
  | column c => simp only [encode, Json.usable, Json.usableMembers, c.encode_usable, Bool.and_true]
  | literal value => simp only [encode, Json.usable, Json.usableMembers, value.encode_usable, Bool.and_true]

end Term

namespace Atom

def Finite : Atom → Prop
  | .compare _ left right => left.Finite ∧ ∀ t, right = some t → t.Finite
  | .inList _ rows _ => ∀ row ∈ rows, ∀ value ∈ row, value.Finite
  | .constant _ => True

theorem compare_record {op : Comparator} {left : Term} {right : Option Term}
    (finite : (Atom.compare op left right).Finite) :
    Record compareFields ["op", "left", "right"]
      [("op", op.encode), ("left", left.encode), ("right", right.elim .null Term.encode)]
      (.compare op left right) := by
  have first : Record (required "op" Comparator.decode) _ [("op", op.encode)] op := .field op.decode_encode
  have second : Record (required "left" Term.decode) _ [("left", left.encode)] left :=
    .field (Term.decode_encode finite.1)
  have third : Record (optional "right" Term.decode) _ [("right", right.elim .null Term.encode)] right :=
    .field (Json.asOption_encode right (fun t null => by cases t <;> cases null)
      (fun t same => Term.decode_encode (finite.2 t same)))
  exact (((Record.pure Atom.compare).seq first (by simp)).seq second (by simp)).seq third (by simp)

theorem inList_record {columns : List Column} {rows : List (List Value)} {negated : Bool}
    (finite : (Atom.inList columns rows negated).Finite) :
    Record inListFields ["columns", "values", "negated"]
      [("columns", .array (columns.map Column.encode)),
       ("values", .array (rows.map fun row => .array (row.map Scalar.encode))),
       ("negated", .bool negated)]
      (.inList columns rows negated) := by
  have first : Record (required "columns" (Json.asList Column.decode)) _
      [("columns", .array (columns.map Column.encode))] columns :=
    .field (Json.asList_encode fun c _ => c.decode_encode)
  have second : Record (required "values" (Json.asList (Json.asList Scalar.decode))) _
      [("values", .array (rows.map fun row => .array (row.map Scalar.encode)))] rows :=
    .field (Json.asList_encode fun row member =>
      Json.asList_encode fun value within => Scalar.decode_encode (finite row member value within))
  have third : Record (withDefault "negated" Json.asBool false) _ [("negated", .bool negated)] negated := .field rfl
  exact (((Record.pure Atom.inList).seq first (by simp)).seq second (by simp)).seq third (by simp)

theorem constant_record (value : Bool) : Record constantFields ["value"] [("value", .bool value)] (.constant value) := by
  have only : Record (required "value" Json.asBool) _ [("value", .bool value)] value := .field rfl
  exact (Record.pure Atom.constant).seq only (by simp)

theorem encode_usable (leaf : Atom) : leaf.encode.usable = true := by
  cases leaf with
  | compare op left right =>
    have last : (right.elim Json.null Term.encode).usable = true := by
      cases right with
      | none => rfl
      | some t => exact t.encode_usable
    simp [encode, Comparator.encode, Json.usable, Json.usableMembers, left.encode_usable, last]
  | inList columns rows negated =>
    simp [encode, Json.usable, Json.usableMembers, Json.usableItems_iff, Column.encode_usable, Scalar.encode_usable]
  | constant value => rfl

end Atom

namespace Expr

variable {e : Expr}

def Finite : Expr → Prop
  | .link _ left right => left.Finite ∧ right.Finite
  | .not operand => operand.Finite
  | .atom leaf => leaf.Finite

theorem encode_usable (e : Expr) : e.encode.usable = true := by
  induction e with
  | link c left right lefts rights =>
    cases c <;> simp [encode, Json.usable, Json.usableMembers, lefts, rights]
  | not operand below => simp [encode, Json.usable, Json.usableMembers, below]
  | atom leaf => exact leaf.encode_usable

/-- A decoder that goes as deep as the value is large meets every node. -/
theorem height_le_size (e : Expr) : e.height ≤ e.encode.size := by
  induction e with
  | link c left right lefts rights =>
    cases c <;> simp only [encode, height, Json.size, Json.sizeMembers] <;> omega
  | not operand below =>
    simp only [encode, height, Json.size, Json.sizeMembers]
    omega
  | atom leaf => cases leaf <;> simp only [encode, Atom.encode, height, Json.size] <;> omega

/-! ### Nodes -/

/-- The type is known, and other members are kept, the last one first. -/
private def noted (reading : Reading) (tag : Tag) (kept : List (String × Json)) : (tagged reading).Found :=
  (some tag, kept)

private theorem foldlM_noted (reading : Reading) (tag : Tag) {ms : List (String × Json)}
    (others : ∀ m ∈ ms, m.1 ≠ "type") (usable : Json.usableMembers ms = true) (kept : List (String × Json)) :
    ms.foldlM (tagged reading).member (noted reading tag kept) = .ok (noted reading tag (ms.reverse ++ kept)) := by
  induction ms generalizing kept with
  | nil => rfl
  | cons m ms ih =>
    obtain ⟨here, rest⟩ := List.forall_mem_cons.mp others
    obtain ⟨first, second⟩ := Bool.and_eq_true_iff.mp usable
    have step : (tagged reading).member (noted reading tag kept) m = .ok (noted reading tag (m :: kept)) := by
      simp only [member, tagged, noted, if_neg here, Json.buffer, first, if_true]
      rfl
    rw [List.foldlM_cons, step, ok_bind, ih rest second, List.reverse_cons, List.append_assoc]
    rfl

theorem tagged_decode (reading : Reading) {name : String} {tag : Tag} {ms : List (String × Json)}
    (known : Tag.all.lookup name = some tag) (others : ∀ m ∈ ms, m.1 ≠ "type")
    (usable : Json.usableMembers ms = true) :
    (tagged reading).decode (.object (("type", .string name) :: ms)) = .ok (tag, ms) := by
  have first : (tagged reading).member (tagged reading).start ("type", .string name) = .ok (noted reading tag []) := by
    simp only [member, tagged, if_true, Option.isSome_none, Bool.false_eq_true, if_false, Tag.decode, known]
    rfl
  have walk : (("type", .string name) :: ms).foldlM (tagged reading).member (tagged reading).start =
      .ok (noted reading tag ms.reverse) := by
    rw [List.foldlM_cons, first, ok_bind, foldlM_noted reading tag others usable, List.append_nil]
  rw [Fields.decode, Fields.members, walk]
  show Except.ok (tag, ms.reverse.reverse) = _
  rw [List.reverse_reverse]

theorem decodeAt_node (depth : Nat) (reading : Reading) {name : String} {tag : Tag} {keys : List String}
    {ms : List (String × Json)} (known : Tag.all.lookup name = some tag) (other : "type" ∉ keys)
    (usable : Json.usableMembers ms = true) (record : Record (fieldsOf (decodeAt depth .buffered) tag) keys ms e) :
    decodeAt (depth + 1) reading (.object (("type", .string name) :: ms)) = .ok e := by
  have others : ∀ m ∈ ms, m.1 ≠ "type" := fun m member same => other (same ▸ record.mem m member)
  rw [decodeAt, tagged_decode reading known others usable]
  exact record.members

theorem decodeAt_encode (finite : e.Finite) {depth : Nat} (enough : e.height ≤ depth) (reading : Reading) :
    decodeAt depth reading e.encode = .ok e := by
  induction e generalizing depth reading with
  | link c left right lefts rights =>
    obtain ⟨depth, rfl, low⟩ := Arena.exists_step enough
    obtain ⟨lowLeft, lowRight⟩ := Nat.max_le.mp low
    have first : Record (required "left" (decodeAt depth .buffered)) _ [("left", left.encode)] left :=
      .field (lefts finite.1 lowLeft .buffered)
    have second : Record (required "right" (decodeAt depth .buffered)) _ [("right", right.encode)] right :=
      .field (rights finite.2 lowRight .buffered)
    have whole := ((Record.pure (link c)).seq first (by simp)).seq second (by simp)
    have usable := (link c left right).encode_usable
    cases c with
    | and => exact decodeAt_node depth reading rfl (by simp) usable whole
    | or => exact decodeAt_node depth reading rfl (by simp) usable whole
  | not operand below =>
    obtain ⟨depth, rfl, low⟩ := Arena.exists_step enough
    have only : Record (required "operand" (decodeAt depth .buffered)) _ [("operand", operand.encode)] operand :=
      .field (below finite low .buffered)
    have whole := (Record.pure Expr.not).seq only (by simp)
    exact decodeAt_node depth reading rfl (by simp) (Expr.not operand).encode_usable whole
  | atom leaf =>
    obtain ⟨depth, rfl, _⟩ := Arena.exists_step enough
    have usable := leaf.encode_usable
    cases leaf with
    | compare op left right =>
      have whole := (Record.pure Expr.atom).seq (Atom.compare_record finite) (by simp)
      exact decodeAt_node depth reading rfl (by simp) usable whole
    | inList columns rows negated =>
      have whole := (Record.pure Expr.atom).seq (Atom.inList_record finite) (by simp)
      exact decodeAt_node depth reading rfl (by simp) usable whole
    | constant value =>
      have whole := (Record.pure Expr.atom).seq (Atom.constant_record value) (by simp)
      exact decodeAt_node depth reading rfl (by simp) usable whole

theorem decode_encode (finite : e.Finite) : decode e.encode = .ok e :=
  decodeAt_encode finite e.height_le_size .streamed

end Expr
namespace Service

variable {s t u : State} {e : Expr}

theorem NormalizeRequest.decode_expr {j : Json} (decoded : Expr.decode j = .ok e) :
    NormalizeRequest.fields.decode (.object [("expr", j)]) = .ok { expr := e, budget := none } := by
  have given : Record (required "expr" Expr.decode) _ [("expr", j)] e := .field decoded
  have left : Record (optional "maxDerivedCnfPredicates" Json.asCount) _ [] none := .absent
  have whole := ((Record.pure NormalizeRequest.mk).seq given (by simp)).seq left (by simp)
  exact whole.members

theorem State.reply_expr (finite : e.Finite) :
    u.reply .normalize (.object [("expr", e.encode)]) = (u, u.replyNormalize { expr := e, budget := none }) :=
  serve_ok (NormalizeRequest.decode_expr (Expr.decode_encode finite))

theorem State.reply_normalize_served {body answer : Json} (served : s.reply .normalize body = (t, .served 200 answer)) :
    ∃ r n, NormalizeRequest.fields.decode body = .ok r ∧ s.normalize r = .ok n ∧ answer = n.encode := by
  rw [reply] at served
  cases decoded : NormalizeRequest.fields.decode body with
  | ok r =>
    rw [serve_ok decoded, replyNormalize] at served
    cases normalized : s.normalize r with
    | ok n =>
      rw [normalized] at served
      cases served
      exact ⟨r, n, rfl, normalized, rfl⟩
    | error problem =>
      rw [normalized] at served
      cases served
  | error problem =>
    rw [serve, decoded] at served
    cases served

/-- Whatever expression goes out comes in again, and so the answer of a normalization can be
asked about in its turn, of any service. -/
theorem exprs_exchanged :
    (∀ e : Expr, e.Finite → Expr.decode e.encode = .ok e) ∧
      ∀ (s t u : State) (body answer : Json), s.reply .normalize body = (t, .served 200 answer) →
        ∃ r n, NormalizeRequest.fields.decode body = .ok r ∧ s.normalize r = .ok n ∧
          answer.get? "expr" = some n.expr.encode ∧
          (n.expr.Finite → u.reply .normalize (.object [("expr", n.expr.encode)]) =
            (u, u.replyNormalize { expr := n.expr, budget := none })) := by
  refine ⟨fun e finite => Expr.decode_encode finite, fun s t u body answer served => ?_⟩
  obtain ⟨r, n, decoded, normalized, rfl⟩ := State.reply_normalize_served served
  exact ⟨r, n, decoded, normalized, rfl, fun finite => State.reply_expr finite⟩

namespace Priced

def price : Column := .ofTable "items" "price" 2

def grade : Column := { table := none, name := "grade", index := 0 }

/-- Negations, lists, missing right sides, and a number next to an integer. -/
def expr : Expr :=
  .link .and (.comparison price .gt (.float 0.5))
    (.link .or (.not (.atom (.inList [grade, price] [[.null, .int (-3)], [.text "b", .float 1]] false)))
      (.atom (.compare .isNull (.column grade) none)))

def normalExpr : Expr :=
  .chain .and [.comparison price .gt (.float 0.5),
    .chain .or [.atom (.inList [grade, price] [[.null, .int (-3)], [.text "b", .float 1]] true),
      .atom (.compare .isNull (.column grade) none)]]

def service : State := { settings := Settings.default }

private theorem list_finite (negated : Bool) :
    (Atom.inList [grade, price] [[.null, .int (-3)], [.text "b", .float 1]] negated).Finite := by
  have one : (1 : Float).isFinite = true := by rfl
  simp [Atom.Finite, Scalar.Finite, one]

private theorem comparisons_finite :
    (Expr.comparison price .gt (.float 0.5)).Finite ∧ (Atom.compare .isNull (.column grade) none).Finite := by
  have half : (0.5 : Float).isFinite = true := by rfl
  simp [Expr.comparison, Expr.Finite, Atom.Finite, Term.Finite, Scalar.Finite, half]

theorem exprs_exchanged_priced :
    expr.Finite ∧ Expr.decode expr.encode = .ok expr ∧
      ∃ answer, service.reply .normalize (.object [("expr", expr.encode)]) = (service, .served 200 answer) ∧
        ∃ r n, NormalizeRequest.fields.decode (.object [("expr", expr.encode)]) = .ok r ∧
          service.normalize r = .ok n ∧ answer.get? "expr" = some n.expr.encode ∧ n.expr = normalExpr ∧
          n.expr.Finite ∧ service.reply .normalize (.object [("expr", n.expr.encode)]) =
            (service, service.replyNormalize { expr := n.expr, budget := none }) := by
  have finite : expr.Finite := ⟨comparisons_finite.1, list_finite false, comparisons_finite.2⟩
  have finiteAfter : normalExpr.Finite :=
    ⟨comparisons_finite.1, ⟨list_finite true, comparisons_finite.2, trivial⟩, trivial⟩
  have normal : service.normalize { expr, budget := none } =
      .ok { expr := normalExpr, chained := true, nodes := 9 } := by rfl
  have served : service.reply .normalize (.object [("expr", expr.encode)]) =
      (service, .served 200 (Normalized.encode { expr := normalExpr, chained := true, nodes := 9 })) := by
    rw [State.reply_expr finite, State.replyNormalize, normal]
  obtain ⟨r, n, decoded, normalized, given, again⟩ := exprs_exchanged.2 service service service _ _ served
  cases decoded.symm.trans (NormalizeRequest.decode_expr (Expr.decode_encode finite))
  cases normalized.symm.trans normal
  exact ⟨finite, exprs_exchanged.1 expr finite, _, served, _, _, decoded, normal, given, rfl, finiteAfter,
    again finiteAfter⟩

end Priced
end Service
end Selectivity
