import Selectivity.Normalize.Chain
import Selectivity.Normalize.Expansion
import Selectivity.Normalize.InList
import Selectivity.Normalize.Negation
import Selectivity.Settings

/-! Normal form of predicate trees: a chain of conjuncts, each of them an atom or a
chain of disjuncts, without negations, as far as the expansion budget goes. -/

namespace Selectivity

inductive Stage where
  | negation
  | chain
  | inList
  | expansion (budget : Nat)
  deriving DecidableEq, Repr

def Stage.name : Stage → String
  | negation => "NotElimination"
  | chain => "ConjunctiveNormalForm"
  | inList => "OrToInList"
  | expansion _ => "DnfToCnfExpansion"

def Stage.apply (stage : Stage) (a : Arena) : Except TreeError Arena :=
  match stage with
  | negation => a.withoutNegations
  | chain => a.chained
  | inList => a.withInLists
  | expansion budget => a.expanded budget

structure Normalizer where
  budget : Nat
  nodeLimit : Nat

namespace Normalizer

def ofSettings (s : Settings α) : Normalizer :=
  { budget := s.expansionBudget, nodeLimit := s.nodeLimit }

def ofBudget (budget : Nat) : Normalizer :=
  { budget, nodeLimit := Settings.default.nodeLimit }

def default : Normalizer := ofSettings Settings.default

def stages (n : Normalizer) : List Stage := [.negation, .chain, .inList, .expansion n.budget]

/-- The arena under the tighter of its own node limit and the normalizer's. -/
def limited (n : Normalizer) (a : Arena) : Arena := { a with limit := Nat.min a.limit n.nodeLimit }

/-- All stages in order, and then nothing but the nodes that are still in use. -/
def normalize (n : Normalizer) (a : Arena) : Except TreeError Arena := do
  let a ← n.stages.foldlM (fun a stage => stage.apply a) (n.limited a)
  a.compact

end Normalizer
end Selectivity
