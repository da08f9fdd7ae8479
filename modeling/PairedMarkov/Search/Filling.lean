import PairedMarkov.Knapsack.Solver

/-!
# Filling the components

Once the cut has its values, what is left of the threshold is a budget for the components. Each
component is a bin of a knapsack, whose items are the joint values of the component with their
aggregated costs and profits. The chosen items are written into the assignment, also when nothing
fits the budget: then they are the ones of least cost.
-/

namespace PairedMarkov.Search

/-- A choice for all components and what it leads to. -/
structure Filling (W σ : Type) where
  /-- The number of components. -/
  bins : Nat
  /-- The number of components that left no choice. -/
  fixed : Nat
  /-- What the cut left of the threshold. -/
  budget : W
  /-- The choice. -/
  solution : Solution W
  /-- The objective score, if the choice fits the budget. -/
  objective : W
  /-- The aggregates under the current cut. -/
  aggregates : List (Aggregate W)
  /-- The assignment with the chosen values. -/
  assignment : Assignment
  /-- The source after all draws. -/
  source : σ

/-- Gives the variables of components the joint values at the addresses chosen for them. -/
def writeChoices (domains : Domains) :
    List Scope → List Nat → Assignment → Except Fault Assignment
  | scope :: scopes, choice :: choices, x => do
    writeChoices domains scopes choices (← scope.assign domains choice x)
  | _, _, x => .ok x

/-- Fills the components of a decomposition. The given aggregates may be those of an earlier cut. -/
def fill {W σ : Type} [Weight W] [Random.Source σ] (p : Problem W) (threshold : W)
    (effort : Effort) (d : Decomposition) (b : Buckets) (aggregates : List (Aggregate W))
    (x : Assignment) (source : σ) : Except Fault (Filling W σ) := do
  let cost ← b.overflowScore p .constraint x
  let profit ← b.overflowScore p .objective x
  let budget := threshold - cost
  let aggregates ← Aggregate.refresh p d b x aggregates
  let knapsack ← Knapsack.ofAggregates aggregates
  let (solution, source) ← knapsack.solve budget effort source
  let assignment ← writeChoices p.domains d.components solution.choices x
  return {
    bins := knapsack.bins.size
    fixed := knapsack.fixedCount
    budget, solution
    objective := solution.profit + profit
    aggregates, assignment, source }

end PairedMarkov.Search
