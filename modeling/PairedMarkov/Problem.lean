import PairedMarkov.Factor

/-!
# Networks and problems

A network is a list of factors; its score under an assignment is the sum of the entries that the
assignment selects, taken in the order of the factors. A problem has two networks over the same
variables: the score of the *constraint* network has to stay under a threshold, and the score of
the *objective* network is to be as large as possible.

The assignment is not part of a problem. Whatever is tried on an assignment leaves the problem as
it was, and a function that does not return an assignment does not change one.
-/

namespace PairedMarkov

/-! ## Section 1: Networks -/

/-- The factors of a network, in order. -/
structure Network (W : Type) where
  factors : Array (Factor W)

namespace Network

variable {W : Type} [Weight W]

/-- The network without factors. -/
def empty : Network W := ⟨#[]⟩

/-- The sum of the entries of the given factors. -/
def sum (domains : Domains) (x : Assignment) (factors : List (Factor W)) : Except Fault W :=
  factors.foldlM (fun total f => return total + (← f.value domains x)) Weight.emptySum

/-- The score of a network. -/
def score (n : Network W) (domains : Domains) (x : Assignment) : Except Fault W :=
  sum domains x n.factors.toList

/-- The sum of the entries of the factors with the given numbers. -/
def partialScore (n : Network W) (domains : Domains) (x : Assignment) (ids : List Nat) :
    Except Fault W :=
  ids.foldlM (fun total id => do
    let f ← fetch n.factors id
    return total + (← f.value domains x)) Weight.emptySum

/-- Merges factors into one over a scope: its entry at an address is the partial score of the
factors when the scope takes the joint value at that address and every other variable keeps its
value. -/
def aggregate (n : Network W) (domains : Domains) (x : Assignment) (ids : List Nat)
    (scope : Scope) : Except Fault (Factor W) := do
  scope.forM fun id => do let _ ← fetch x id
  let merged : Factor W ← Factor.blank domains scope
  let table ← (Array.range merged.table.size).mapM fun address => do
    n.partialScore domains (← scope.assign domains address x) ids
  return { merged with table }

end Network

/-! ## Section 2: Problems -/

/-- The part that a network plays in a problem. -/
inductive Role where
  /-- Its score is bounded by the threshold. -/
  | constraint
  /-- Its score is maximised. -/
  | objective
  deriving DecidableEq, Repr

/-- Two networks over the same variables. -/
structure Problem (W : Type) where
  /-- The number of values of each variable. -/
  domains : Domains
  /-- The network whose score is bounded. -/
  constraint : Network W
  /-- The network whose score is maximised. -/
  objective : Network W

namespace Problem

variable {W : Type}

/-- The network that plays a role. -/
def network (p : Problem W) : Role → Network W
  | .constraint => p.constraint
  | .objective => p.objective

/-- The scopes of all factors, those of the constraint network first. -/
def scopes (p : Problem W) : List Scope :=
  (p.constraint.factors.toList ++ p.objective.factors.toList).map Factor.scope

variable [Weight W]

/-- The score of the network in a role. -/
def score (p : Problem W) (role : Role) (x : Assignment) : Except Fault W :=
  (p.network role).score p.domains x

/-- The sum of some factors of the network in a role. -/
def partialScore (p : Problem W) (role : Role) (x : Assignment) (ids : List Nat) :
    Except Fault W :=
  (p.network role).partialScore p.domains x ids

/-- Merges some factors of the network in a role. -/
def aggregate (p : Problem W) (role : Role) (x : Assignment) (ids : List Nat) (scope : Scope) :
    Except Fault (Factor W) :=
  (p.network role).aggregate p.domains x ids scope

end Problem

end PairedMarkov
