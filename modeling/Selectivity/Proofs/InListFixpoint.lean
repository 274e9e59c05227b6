import Selectivity.Proofs.SharedTrees

/-! One pass over the disjunctions is enough. A chain is decided before its disjuncts are looked
into, and converting what is inside a disjunct neither makes it fix columns nor changes the shape
of the chain; so no head that stays could be converted, and building chains finds them built. -/

namespace Selectivity

namespace Arena

variable {a : Arena} {id i : NodeId} {e f : Expr}

/-- A disjunction that is reached otherwise than as the rest of another one. -/
structure Head (a : Arena) (id : NodeId) : Prop where
  disjunction : ∃ left right, a.get? id = some (.link .or left right)
  place : id = a.root ∨ ∃ parent position, a.Reaches a.root parent ∧ a.Child parent position id ∧
    ∀ left, position = 1 → a.get? parent ≠ some (.link .or left id)

/-- Below a node that a pass leaves as it is there are only such nodes. -/
theorem Reaches.visited (reaches : a.Reaches id i) (stands : a.Stands id e) (form : e.ChainForm)
    (settled : e.visited = e) : ∃ f, a.Stands i f ∧ f.ChainForm ∧ f.visited = f := by
  induction reaches generalizing e with
  | refl => exact ⟨e, stands, form, settled⟩
  | left found _ ih =>
    obtain ⟨_, _, rfl, below, _⟩ := stands.of_link found
    exact ih below form.2.2.1 (Expr.visited_of_withInLists (Expr.operand_of_visited settled))
  | right found _ ih =>
    obtain ⟨_, _, rfl, _, below⟩ := stands.of_link found
    exact ih below form.2.2.2 (Expr.rest_of_visited form settled)
  | operand found _ _ =>
    obtain ⟨_, rfl, _⟩ := stands.of_not found
    exact form.elim

theorem Head.unconvertible (head : a.Head id) (stands : a.Stands a.root e) (form : e.ChainForm)
    (listed : e.withInLists = e) : a.inListAt? id = .ok none := by
  obtain ⟨⟨left, right, found⟩, place⟩ := head
  have settled := Expr.visited_of_withInLists listed
  -- Wherever a head is linked from, it is a part that the pass as a whole leaves as it is.
  obtain ⟨f, here, kept⟩ : ∃ f, a.Stands id f ∧ f.withInLists = f := by
    rcases place with rfl | ⟨parent, position, above, child, other⟩
    · exact ⟨e, stands, listed⟩
    · obtain ⟨f, there, formThere, settledThere⟩ := above.visited stands form settled
      cases there with
      | @link _ c _ _ _ _ found' lefts rights =>
        rcases (child_link found').mp child with ⟨_, rfl⟩ | ⟨second, rfl⟩
        · exact ⟨_, lefts, Expr.operand_of_visited settledThere⟩
        · cases c with
          | and =>
            rw [Expr.visited_and] at settledThere
            injection settledThere with _ _ kept
            exact ⟨_, rights, kept⟩
          | or => exact absurd found' (other _ second)
      | not => exact formThere.elim
      | atom found' => exact (child_atom found' child).elim
  have disjunction : f.isLink .or = true := by
    obtain ⟨_, _, rfl, _⟩ := here.of_link found
    rfl
  rw [inListAt?_eq here, Expr.inList?_eq_none kept disjunction]

end Arena

/-- Chains built once more are the chains that were there. -/
theorem Expr.rootChained_withInLists {e : Expr} (free : e.NotFree) :
    e.rootChained.withInLists.rootChained = e.rootChained.withInLists := by
  obtain ⟨form, conjunction⟩ := rootChained_chainForm free
  rcases e.rootChained_clean with clean | only
  · obtain ⟨listedForm, listedConjunction⟩ := withInLists_chainForm form conjunction
    exact rootChained_eq_self listedForm (withInLists_clean clean).1 listedConjunction
  · rw [only]
    rfl

/-- After chains were built, one pass converts whatever is convertible, and neither stage has
anything left to do. -/
theorem Arena.withInLists_once {a : Arena} {e : Expr} (stands : a.Stands a.root e) (free : e.NotFree) :
    ∃ b c, a.chained = .ok b ∧ b.withInLists = .ok c ∧ (∀ id, c.Head id → c.inListAt? id = .ok none) ∧
      ∃ d f g, c.chained = .ok d ∧ d.withInLists = .ok f ∧ c.rootExpr = .ok g ∧ f.rootExpr = .ok g := by
  have ⟨form, conjunction⟩ := Expr.rootChained_chainForm free
  have ⟨formAfter, _⟩ := Expr.withInLists_chainForm form conjunction
  have again := (Expr.withInLists_idempotent form).1
  obtain ⟨b, chain, chains, _⟩ := chained_stands stands free
  obtain ⟨c, list, lists, _⟩ := withInLists_stands chains form
  obtain ⟨d, rechain, rechains, _⟩ := chained_stands lists formAfter.notFree
  rw [Expr.rootChained_withInLists free] at rechains
  obtain ⟨f, relist, relists, _⟩ := withInLists_stands rechains formAfter
  rw [again] at relists
  exact ⟨b, c, chain, list, fun _ head => head.unconvertible lists formAfter again, d, f, _, rechain, relist,
    expr_eq lists, expr_eq relists⟩

namespace Arena

private def orderId : Column := .ofTable "t" "id" 0

private def orderKind : Column := .ofTable "t" "kind" 1

/-- A disjunction that hangs below a conjunct as well as inside another disjunction. -/
def recurring : Arena :=
  { nodes := #[.atom (.compare .eq (.column orderId) (some (.literal (.int 1)))),
      .atom (.compare .gt (.column orderKind) (some (.literal (.int 2)))),
      .atom (.compare .eq (.column orderKind) (some (.literal (.int 3)))),
      .atom (.compare .eq (.column orderKind) (some (.literal (.int 4)))),
      .link .or 2 3, .link .and 1 4, .link .or 0 5, .link .and 6 4],
    root := 7, limit := 100 }

private def twoKinds : Expr := .link .or (.comparison orderKind .eq (.int 3)) (.comparison orderKind .eq (.int 4))

def recurringExpr : Expr :=
  .link .and (.link .or (.comparison orderId .eq (.int 1))
    (.link .and (.comparison orderKind .gt (.int 2)) twoKinds)) twoKinds

private theorem recurring_stands : recurring.Stands recurring.root recurringExpr := by
  have kinds : recurring.Stands 4 twoKinds := .link rfl (.atom rfl) (.atom rfl)
  exact .link rfl (.link rfl (.atom rfl) (.link rfl (.atom rfl) kinds)) kinds

theorem withInLists_once_recurring :
    recurring.Stands recurring.root recurringExpr ∧ recurringExpr.NotFree ∧
      ∃ b c, recurring.chained = .ok b ∧ b.withInLists = .ok c ∧ (∀ id, c.Head id → c.inListAt? id = .ok none) ∧
        ∃ d f g, c.chained = .ok d ∧ d.withInLists = .ok f ∧ c.rootExpr = .ok g ∧ f.rootExpr = .ok g :=
  have free : recurringExpr.NotFree :=
    ⟨⟨trivial, trivial, trivial, trivial⟩, trivial, trivial⟩
  ⟨recurring_stands, free, withInLists_once recurring_stands free⟩

-- The outer chain stays because of the disjunct that fixes no columns; the inner one is a list wherever it hangs.
example :
    let list : Expr := .atom (.inList [orderKind] [[.int 3], [.int 4]] false)
    (recurring.chained.bind withInLists).bind rootExpr =
      .ok (.chain .and [.chain .or [.comparison orderId .eq (.int 1),
        .chain .and [.comparison orderKind .gt (.int 2), list]], list]) := by rfl

end Arena
end Selectivity
