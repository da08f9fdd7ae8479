import PairedMarkov.Decomposition

/-!
# Buckets and aggregates

A decomposition shares the factors of both networks out to its components: a factor belongs to the
component that its variables outside the cut lie in, and to the overflow if it has none. A factor
with variables in two components shows that the decomposition does not separate the problem, which
is a fault.

The factors of a component are merged, for each network, to one table over the component, its
*aggregate*. A component is *conditioned* if one of its factors also depends on the cut; only the
aggregates of such components change with the values of the cut.
-/

namespace PairedMarkov

/-! ## Section 1: The place of a factor -/

/-- Where a factor belongs. -/
structure Placement where
  /-- The component of its variables, nothing if all of them are in the cut. -/
  component : Option Nat
  /-- Whether one of its variables is in the cut. -/
  touchesCut : Bool
  deriving DecidableEq, Repr

namespace Placement

/-- The place of a factor, from what its first variables have shown and from its other ones. -/
def extend (d : Decomposition) (factor : Nat) : Placement → Scope → Except Fault Placement
  | place, [] => .ok place
  | place, id :: rest => do
    match ← d.componentOf id, place.component with
    | none, _ => extend d factor { place with touchesCut := true } rest
    | some c, none => extend d factor { place with component := some c } rest
    | some c, some previous =>
      if previous = c then extend d factor place rest
      else .error (.spansComponents factor previous c)

/-- The place of a factor with a given number and scope. -/
def ofScope (d : Decomposition) (factor : Nat) (scope : Scope) : Except Fault Placement :=
  extend d factor ⟨none, false⟩ scope

/-- The places of the factors with the given scopes, which are numbered from `first` on. -/
def ofScopesFrom (d : Decomposition) : (first : Nat) → List Scope → Except Fault (List Placement)
  | _, [] => .ok []
  | first, scope :: rest => do
    let place ← ofScope d first scope
    return place :: (← ofScopesFrom d (first + 1) rest)

/-- The places of all factors of a network. -/
def ofNetwork {W : Type} (d : Decomposition) (n : Network W) : Except Fault (List Placement) :=
  ofScopesFrom d 0 (n.factors.toList.map Factor.scope)

/-- The numbers of the factors that belong to a component, or to the overflow. -/
def factorsAt (places : List Placement) (component : Option Nat) : List Nat :=
  (places.zipIdx.filter fun place => place.1.component == component).map Prod.snd

end Placement

/-! ## Section 2: Buckets -/

/-- The factors of one network, shared out. -/
structure Share where
  /-- For each component, its factors. -/
  buckets : Array (List Nat)
  /-- The factors that depend on the cut only. -/
  overflow : List Nat

/-- The share of a network whose factors have the given places among `count` components. -/
def Share.ofPlaces (count : Nat) (places : List Placement) : Share where
  buckets := (Array.range count).map fun c => Placement.factorsAt places (some c)
  overflow := Placement.factorsAt places none

/-- The factors of both networks, shared out. -/
structure Buckets where
  /-- The factors of the constraint network. -/
  constraint : Share
  /-- The factors of the objective network. -/
  objective : Share
  /-- For each component, whether one of its factors depends on the cut. -/
  conditioned : Array Bool

namespace Buckets

/-- Shares out the factors of a problem. -/
def ofProblem {W : Type} (p : Problem W) (d : Decomposition) : Except Fault Buckets := do
  let constraint ← Placement.ofNetwork d p.constraint
  let objective ← Placement.ofNetwork d p.objective
  let count := d.components.length
  return {
    constraint := Share.ofPlaces count constraint
    objective := Share.ofPlaces count objective
    conditioned := (Array.range count).map fun c =>
      (constraint ++ objective).any fun place => place.component == some c && place.touchesCut }

/-- The share of the network in a role. -/
def share (b : Buckets) : Role → Share
  | .constraint => b.constraint
  | .objective => b.objective

/-- The factors of one network that belong to a component. -/
def bucket (b : Buckets) (role : Role) (component : Nat) : Except Fault (List Nat) :=
  fetch (b.share role).buckets component

/-- The number of conditioned components. -/
def conditionedCount (b : Buckets) : Nat := b.conditioned.toList.count true

/-- What the overflow contributes to the score of the network in a role. -/
def overflowScore {W : Type} [Weight W] (b : Buckets) (p : Problem W) (role : Role)
    (x : Assignment) : Except Fault W :=
  p.partialScore role x (b.share role).overflow

end Buckets

/-! ## Section 3: Aggregates -/

/-- The merged factors of a component. Both have the component as scope, so that one address
selects a cost and a profit. -/
structure Aggregate (W : Type) where
  /-- The merged factors of the constraint network. -/
  cost : Factor W
  /-- The merged factors of the objective network. -/
  profit : Factor W

namespace Aggregate

variable {W : Type} [Weight W]

/-- The aggregate of a component under the values of the cut. -/
def ofComponent (p : Problem W) (b : Buckets) (x : Assignment) (component : Nat) (scope : Scope) :
    Except Fault (Aggregate W) := do
  let cost ← p.aggregate .constraint x (← b.bucket .constraint component) scope
  let profit ← p.aggregate .objective x (← b.bucket .objective component) scope
  return { cost, profit }

/-- The aggregates of components that are numbered from `first` on. -/
def ofComponentsFrom (p : Problem W) (b : Buckets) (x : Assignment) :
    (first : Nat) → List Scope → Except Fault (List (Aggregate W))
  | _, [] => .ok []
  | first, scope :: rest => do
    let aggregate ← ofComponent p b x first scope
    return aggregate :: (← ofComponentsFrom p b x (first + 1) rest)

/-- The aggregates of all components. -/
def ofDecomposition (p : Problem W) (d : Decomposition) (b : Buckets) (x : Assignment) :
    Except Fault (List (Aggregate W)) :=
  ofComponentsFrom p b x 0 d.components

/-- The aggregates after a change of the assignment: those of conditioned components are merged
again, the others are kept. The components are numbered from `first` on. -/
def refreshFrom (p : Problem W) (b : Buckets) (x : Assignment) :
    (first : Nat) → List Scope → List (Aggregate W) → Except Fault (List (Aggregate W))
  | first, scope :: scopes, aggregate :: rest => do
    let current ←
      if ← fetch b.conditioned first then ofComponent p b x first scope else pure aggregate
    return current :: (← refreshFrom p b x (first + 1) scopes rest)
  | _, _, _ => .ok []

/-- The aggregates of all components after a change of the assignment. -/
def refresh (p : Problem W) (d : Decomposition) (b : Buckets) (x : Assignment)
    (aggregates : List (Aggregate W)) : Except Fault (List (Aggregate W)) :=
  refreshFrom p b x 0 d.components aggregates

end Aggregate

end PairedMarkov
