import PairedMarkov.Buckets
import PairedMarkov.Knapsack.Item
import PairedMarkov.Random.Source

/-!
# The multiple-choice knapsack

From each of several bins one item has to be chosen, such that the total profit is large and the
total cost stays within a budget. The heuristic works on pruned bins:

1. the *baseline* chooses the cheapest item everywhere; if it costs more than the budget, nothing
   fits;
2. one pass over the bins improves the baseline, bin by bin, as far as the budget allows;
3. several restarts from the baseline make random moves, each of which is kept if it fits and
   brings more profit.

The best selection met on the way is the solution. Costs and profits of selections are kept up to
date by subtracting what a bin held and adding what it holds now, in this order.
-/

namespace PairedMarkov

/-! ## Section 1: Bins -/

/-- Bins without dominated items. -/
structure Knapsack (W : Type) where
  /-- The items of each bin, by increasing cost. -/
  bins : Array (Array (Item W))

/-- The effort put into random moves. -/
structure Effort where
  /-- How often the baseline is started from. -/
  restarts : Nat := 100
  /-- How many moves are tried each time. -/
  moves : Nat := 1000
  deriving DecidableEq, Repr

namespace Knapsack

variable {W : Type} [Weight W]

/-- Prunes the bins, which are numbered from `first` on; each needs an item. -/
def pruneFrom : (first : Nat) → List (List (Item W)) → Except Fault (List (Array (Item W)))
  | _, [] => .ok []
  | first, items :: rest =>
    if items.isEmpty then .error (.emptyBin first)
    else do return (Item.prune items).toArray :: (← pruneFrom (first + 1) rest)

/-- The knapsack with the given bins. -/
def ofBins (bins : List (List (Item W))) : Except Fault (Knapsack W) := do
  return ⟨(← pruneFrom 0 bins).toArray⟩

/-- The items of bins with the given costs and profits, which must have the same shape. -/
def offersFrom :
    (first : Nat) → List (List W) → List (List W) → Except Fault (List (List (Item W)))
  | first, costs :: restCosts, profits :: restProfits =>
    if costs.length = profits.length then do
      return Item.offer costs profits :: (← offersFrom (first + 1) restCosts restProfits)
    else .error (.itemCount first costs.length profits.length)
  | _, _, _ => .ok []

/-- The knapsack in which bin `i` offers the costs and profits at position `i`. -/
def ofLists (costs profits : List (List W)) : Except Fault (Knapsack W) := do
  if costs.length = profits.length then ofBins (← offersFrom 0 costs profits)
  else .error (.binCount costs.length profits.length)

omit [Weight W] in
/-- The items of a component, one for each of its joint values. Costs and profits must be over one
scope, so that they are of the same joint values, and the items need a place in memory. -/
def itemsOf (a : Aggregate W) : Except Fault (List (Item W)) :=
  if a.cost.scope = a.profit.scope then do
    allocate Item.bytes (min a.cost.table.size a.profit.table.size)
    return Item.offer a.cost.table.toList a.profit.table.toList
  else .error (.scopesDiffer a.cost.scope a.profit.scope)

/-- The knapsack in which each component is a bin and each of its joint values an item. -/
def ofAggregates (aggregates : List (Aggregate W)) : Except Fault (Knapsack W) := do
  ofBins (← aggregates.mapM itemsOf)

omit [Weight W] in
/-- The bins that leave a choice. -/
def openBins (k : Knapsack W) : List Nat :=
  (k.bins.toList.zipIdx.filter fun bin => 1 < bin.1.size).map Prod.snd

omit [Weight W] in
/-- The number of bins that leave no choice. -/
def fixedCount (k : Knapsack W) : Nat := k.bins.size - k.openBins.length

end Knapsack

/-! ## Section 2: Selections -/

/-- One chosen item per bin, with the totals of the choice. -/
structure Selection (W : Type) where
  /-- For each bin, the place of the chosen item in the pruned bin. -/
  chosen : Array Nat
  /-- The total cost. -/
  cost : W
  /-- The total profit. -/
  profit : W

/-- What the heuristic found. -/
structure Solution (W : Type) where
  /-- The total profit; the lowest weight if nothing fits the budget. -/
  profit : W
  /-- The total cost. -/
  cost : W
  /-- For each bin, the position of the chosen item as it was first offered. -/
  choices : List Nat

/-- Whether a solution fits its budget, as its profit tells. -/
def Solution.isFeasible {W : Type} [Weight W] (s : Solution W) : Bool := s.profit != Weight.lowest

namespace Knapsack

variable {W : Type} [Weight W]

/-- The total of one quantity over the cheapest items of all bins. -/
def baselineTotal (k : Knapsack W) (quantity : Item W → W) : Except Fault W :=
  k.bins.toList.foldlM (fun total bin => return total + quantity (← fetch bin 0)) Weight.emptySum

/-- The choice of the cheapest item in each bin. -/
def baseline (k : Knapsack W) : Except Fault (Selection W) := do
  let cost ← k.baselineTotal Item.cost
  let profit ← k.baselineTotal Item.profit
  return ⟨Array.replicate k.bins.size 0, cost, profit⟩

omit [Weight W] in
/-- The positions at which the chosen items of the bins were first offered. -/
def positions (k : Knapsack W) (chosen : Array Nat) : Except Fault (List Nat) :=
  (List.range chosen.size).mapM fun bin => do
    let item ← fetch (← fetch k.bins bin) (← fetch chosen bin)
    return item.position

/-- The solution that a selection amounts to. -/
def solutionOf (k : Knapsack W) (s : Selection W) : Except Fault (Solution W) := do
  return ⟨s.profit, s.cost, ← k.positions s.chosen⟩

/-- The total after a bin that held one item holds another one. -/
def exchange (quantity : Item W → W) (total : W) (held item : Item W) : W :=
  total - quantity held + quantity item

/-! ## Section 3: One pass over the bins -/

/-- The best item of a bin to exchange for the held one: its place in the bin and the profit that
results. Items are tried in order, from the given place on, and one is preferred to the best so far
if it fits the budget and brings more profit. -/
def bestExchange (budget : W) (s : Selection W) (held : Item W) :
    (place : Nat) → List (Item W) → (best : Nat) → (profit : W) → Nat × W
  | _, [], best, profit => (best, profit)
  | place, item :: rest, best, profit =>
    if exchange Item.cost s.cost held item ≤ budget ∧
        profit < exchange Item.profit s.profit held item then
      bestExchange budget s held (place + 1) rest place (exchange Item.profit s.profit held item)
    else bestExchange budget s held (place + 1) rest best profit

/-- Improves a selection in one bin as far as the budget allows. -/
def improveBin (k : Knapsack W) (budget : W) (s : Selection W) (bin : Nat) :
    Except Fault (Selection W) := do
  let items ← fetch k.bins bin
  let chosen ← fetch s.chosen bin
  let held ← fetch items chosen
  let (best, profit) := bestExchange budget s held 0 items.toList chosen s.profit
  if best = chosen then return s
  else
    let item ← fetch items best
    return ⟨s.chosen.setIfInBounds bin best, exchange Item.cost s.cost held item, profit⟩

/-- Improves a selection in all bins, one after the other. -/
def improve (k : Knapsack W) (budget : W) (s : Selection W) : Except Fault (Selection W) :=
  (List.range k.bins.size).foldlM (k.improveBin budget) s

/-! ## Section 4: Random moves -/

variable {σ : Type} [Random.Source σ]

/-- The state of the random moves: the current selection and the best one so far. -/
structure Trial (W : Type) where
  /-- The selection that moves start from. -/
  current : Selection W
  /-- The most profitable selection so far. -/
  best : Selection W

/-- Tries to exchange, in a random bin that leaves a choice, the chosen item for a random other
one. The exchange is made if it fits the budget and brings more profit. -/
def move (k : Knapsack W) (choices : Array Nat) (budget : W) (t : Trial W) (source : σ) :
    Except Fault (Trial W × σ) := do
  let (drawn, source) ← Random.draw choices.size source
  let bin ← fetch choices drawn
  let items ← fetch k.bins bin
  let chosen ← fetch t.current.chosen bin
  let (drawn, source) ← Random.draw (← subWords items.size 1) source
  let other := if chosen ≤ drawn then drawn + 1 else drawn
  let held ← fetch items chosen
  let item ← fetch items other
  let cost := exchange Item.cost t.current.cost held item
  let profit := exchange Item.profit t.current.profit held item
  if cost ≤ budget ∧ t.current.profit < profit then
    let current : Selection W := ⟨t.current.chosen.setIfInBounds bin other, cost, profit⟩
    return (⟨current, if t.best.profit < profit then current else t.best⟩, source)
  else return (t, source)

/-- Tries some moves, one after the other. -/
def moves (k : Knapsack W) (choices : Array Nat) (budget : W) :
    (count : Nat) → Trial W → σ → Except Fault (Trial W × σ)
  | 0, t, source => .ok (t, source)
  | count + 1, t, source => do
    let (t, source) ← k.move choices budget t source
    moves k choices budget count t source

/-- Tries some moves from the baseline, several times over; gives the best selection met. -/
def restarts (k : Knapsack W) (choices : Array Nat) (budget : W) (start : Selection W)
    (perRestart : Nat) : (count : Nat) → Selection W → σ → Except Fault (Selection W × σ)
  | 0, best, source => .ok (best, source)
  | count + 1, best, source => do
    let (t, source) ← k.moves choices budget perRestart ⟨start, best⟩ source
    restarts k choices budget start perRestart count t.best source

/-! ## Section 5: The solution -/

/-- A selection within the budget and with a large profit, and the source after the draws; the
cheapest selection, with the lowest profit, if even that costs too much. -/
def solve (k : Knapsack W) (budget : W) (effort : Effort) (source : σ) :
    Except Fault (Solution W × σ) := do
  let start ← k.baseline
  if budget < start.cost then
    return (← k.solutionOf { start with profit := Weight.lowest }, source)
  else
    let improved ← k.improve budget start
    let choices := k.openBins.toArray
    if choices.isEmpty then return (← k.solutionOf improved, source)
    else
      let (best, source) ←
        k.restarts choices budget start effort.moves effort.restarts improved source
      return (← k.solutionOf best, source)

end Knapsack

end PairedMarkov
