import PairedMarkov.Scope
import PairedMarkov.Weight

/-!
# Factors

A factor is a scope with a table of log-weights, one for each joint value of the scope in the order
of their addresses. Under an assignment the factor contributes the entry that the assignment
addresses.
-/

namespace PairedMarkov

/-- A table of weights over a scope. -/
structure Factor (W : Type) where
  /-- The variables that the table depends on, the first one changing the fastest. -/
  scope : Scope
  /-- The weights, by address. -/
  table : Array W

namespace Factor

variable {W : Type}

/-! ## Section 1: Building factors -/

/-- The factor with a given table, which needs one entry per joint value. -/
def ofTable (domains : Domains) (scope : Scope) (table : Array W) : Except Fault (Factor W) := do
  let expected ← scope.size domains
  if expected = table.size then .ok ⟨scope, table⟩
  else .error (.entryCount scope.length expected table.size)

/-- The bytes that one entry takes in memory. -/
def entryBytes : Nat := 8

/-- The factor whose entries are all zero. -/
def blank [Weight W] (domains : Domains) (scope : Scope) : Except Fault (Factor W) := do
  let size ← scope.size domains
  allocate entryBytes size
  .ok ⟨scope, Array.replicate size 0⟩

/-! ## Section 2: Reading and changing entries -/

/-- Whether a variable is in the scope. -/
def mentions (f : Factor W) (id : Nat) : Bool := f.scope.contains id

/-- The address that an assignment selects. -/
def address (f : Factor W) (domains : Domains) (x : Assignment) : Except Fault Nat :=
  f.scope.address domains x

/-- The entry at an address. -/
def valueAt (f : Factor W) (address : Nat) : Except Fault W := fetch f.table address

/-- The entry that an assignment selects. -/
def value (f : Factor W) (domains : Domains) (x : Assignment) : Except Fault W := do
  f.valueAt (← f.address domains x)

/-- The factor with another weight at an address. -/
def setAt (f : Factor W) (address : Nat) (weight : W) : Except Fault (Factor W) :=
  if address < f.table.size then
    .ok { f with table := f.table.setIfInBounds address weight }
  else .error (.indexOutside f.table.size address)

/-- The value that a variable takes at an address. -/
def digit (f : Factor W) (domains : Domains) (id address : Nat) : Except Fault (Option Nat) :=
  f.scope.digit domains id address

end Factor

end PairedMarkov
