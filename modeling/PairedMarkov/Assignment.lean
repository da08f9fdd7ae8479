import PairedMarkov.Fault

/-!
# Variables and assignments

Variables are numbered from zero. A problem fixes how many values each variable has; an assignment
gives every variable one of its values, written as a number below the size of its domain. Both are
arrays indexed by the variables.
-/

namespace PairedMarkov

/-! ## Section 1: Domains -/

/-- For each variable, the number of values it can take. -/
abbrev Domains := Array Nat

/-- Domains of the given sizes; every variable needs at least one value. -/
def Domains.ofSizes (sizes : Array Nat) : Except Fault Domains :=
  if sizes.all (1 ≤ ·) then .ok sizes else .error .emptyDomain

/-- The name of a variable. -/
def variableName (id : Nat) : String := s!"X{id}"

/-! ## Section 2: Assignments -/

/-- For each variable, the value it takes. -/
abbrev Assignment := Array Nat

/-- The assignment in which every variable takes its first value. -/
def Assignment.first (domains : Domains) : Assignment :=
  Array.replicate domains.size 0

/-- Gives a variable another value of its domain. -/
def Assignment.set (domains : Domains) (x : Assignment) (id value : Nat) :
    Except Fault Assignment := do
  let size ← fetch domains id
  if value < size then .ok (x.setIfInBounds id value) else .error (.valueOutside value id)

/-- Gives the variables of a list, which are numbered from `id` on, their values. -/
def Assignment.setFrom (domains : Domains) :
    Nat → List Nat → Assignment → Except Fault Assignment
  | _, [], x => .ok x
  | id, value :: values, x => do
    Assignment.setFrom domains (id + 1) values (← x.set domains id value)

/-- The assignment with the given values, one for each variable. -/
def Assignment.ofValues (domains : Domains) (values : List Nat) : Except Fault Assignment :=
  if values.length = domains.size then
    Assignment.setFrom domains 0 values (Assignment.first domains)
  else .error (.assignmentLength values.length domains.size)

theorem Assignment.getElem?_first {domains : Domains} {id : Nat} (h : id < domains.size) :
    (Assignment.first domains)[id]? = some 0 := by
  simp [Assignment.first, h]

/-- Every variable has a value, and the value lies in its domain. -/
def Assignment.Inside (domains : Domains) (x : Assignment) : Prop :=
  x.size = domains.size ∧ ∀ id (h : id < x.size) (h' : id < domains.size), x[id] < domains[id]

end PairedMarkov
