/-!
# Faults

Some conditions are promises between the parts of the program rather than properties of its input:
an index lies inside its array, a product fits in a machine word, a table has one entry per joint
value. Breaking one is a *fault*. A fault is an ordinary value here, so that "no fault arises" can
be stated and proved of any computation.

Words are 64 bits wide and memory holds fewer than `2 ^ 63` bytes. No array can be larger than that,
which is what `allocate` checks. A machine has less memory and may refuse a smaller array as well; it
then ends the program without a fault, and such refusals are not modelled.
-/

namespace PairedMarkov

/-! ## Section 1: The causes -/

/-- The ways in which a computation breaks one of its own promises. -/
inductive Fault where
  /-- A variable was declared without any value. -/
  | emptyDomain
  /-- The value lies outside the domain of the variable. -/
  | valueOutside (value id : Nat)
  /-- The position lies past the end of an array of this length. -/
  | indexOutside (length position : Nat)
  /-- A sum does not fit in a word. -/
  | sumOverflow
  /-- A product does not fit in a word. -/
  | productOverflow
  /-- A difference would be negative. -/
  | differenceOverflow
  /-- An array would need more bytes than memory can have. -/
  | capacityOverflow
  /-- A number is to be drawn from no numbers at all. -/
  | emptyRange
  /-- The bin of this number offers no item. -/
  | emptyBin (bin : Nat)
  /-- A table over `arity` variables has the wrong number of entries. -/
  | entryCount (arity expected given : Nat)
  /-- An assignment does not have one value per variable. -/
  | assignmentLength (given expected : Nat)
  /-- Costs and profits disagree on the number of bins. -/
  | binCount (costs profits : Nat)
  /-- Costs and profits disagree on the number of items of a bin. -/
  | itemCount (bin costs profits : Nat)
  /-- The costs and profits of a bin are tables over different scopes. -/
  | scopesDiffer (costs profits : List Nat)
  /-- A factor has variables in two components of a decomposition. -/
  | spansComponents (factor first second : Nat)
  deriving DecidableEq, Repr

/-! ## Section 2: The wording -/

/-- The text of a failed equality between two expectations. -/
def Fault.unequal (subject left right : String) : String :=
  s!"assertion `left == right` failed: {subject}\n  left: {left}\n right: {right}"

/-- A scope in a diagnostic. -/
def Fault.scopeText (scope : List Nat) : String :=
  "[" ++ ", ".intercalate (scope.map fun id => s!"VariableIndex({id})") ++ "]"

/-- The diagnostic that describes a fault. -/
def Fault.message : Fault → String
  | .emptyDomain => "assertion failed: domain_size >= 1"
  | .valueOutside value id => s!"value {value} out of the domain of X{id}"
  | .indexOutside length position =>
    s!"index out of bounds: the len is {length} but the index is {position}"
  | .sumOverflow => "attempt to add with overflow"
  | .productOverflow => "attempt to multiply with overflow"
  | .differenceOverflow => "attempt to subtract with overflow"
  | .capacityOverflow => "capacity overflow"
  | .emptyRange => "cannot sample empty range"
  | .emptyBin bin => s!"Bin {bin} has no item"
  | .entryCount arity expected given =>
    unequal s!"A factor over {arity} variables must have {expected} entries, got {given}"
      s!"{expected}" s!"{given}"
  | .assignmentLength given expected =>
    unequal "An assignment must give a value to every variable" s!"{given}" s!"{expected}"
  | .binCount costs profits =>
    unequal "Mismatch in the number of bins" s!"{costs}" s!"{profits}"
  | .itemCount bin costs profits =>
    unequal s!"Mismatch in the number of items in bin {bin}" s!"{costs}" s!"{profits}"
  | .scopesDiffer costs profits =>
    "assertion `left == right` failed"
      ++ s!"\n  left: {scopeText costs}\n right: {scopeText profits}"
  | .spansComponents factor first second =>
    unequal
      (s!"Factor {factor} spans components {first} and {second}; "
        ++ "the decomposition is not a separator")
      s!"ComponentIndex({first})" s!"ComponentIndex({second})"

/-! ## Section 3: Checked operations -/

/-- The element at a position, or the fault of reading past the end. -/
def fetch {α : Type} (xs : Array α) (position : Nat) : Except Fault α :=
  match xs[position]? with
  | some x => .ok x
  | none => .error (.indexOutside xs.size position)

/-- The number of values of a word. -/
def wordLimit : Nat := UInt64.size

/-- The sum of two words, if it is a word. -/
def addWords (a b : Nat) : Except Fault Nat :=
  if a + b < wordLimit then .ok (a + b) else .error .sumOverflow

/-- The product of two words, if it is a word. -/
def mulWords (a b : Nat) : Except Fault Nat :=
  if a * b < wordLimit then .ok (a * b) else .error .productOverflow

/-- The difference of two words, if it is a word. -/
def subWords (a b : Nat) : Except Fault Nat :=
  if b ≤ a then .ok (a - b) else .error .differenceOverflow

/-- The number of bytes from which on there is no place in any memory. -/
def memoryLimit : Nat := wordLimit / 2

/-- Checks that `count` elements of `bytes` bytes each can have a place in some memory. Whether the
memory at hand has one is not asked. -/
def allocate (bytes count : Nat) : Except Fault Unit :=
  if bytes * count < memoryLimit then .ok () else .error .capacityOverflow

/-! ## Section 4: When the checks pass -/

theorem fetch_eq_ok_iff {α : Type} {xs : Array α} {position : Nat} {x : α} :
    fetch xs position = .ok x ↔ xs[position]? = some x := by
  unfold fetch
  split <;> simp_all

theorem fetch_of_lt {α : Type} {xs : Array α} {position : Nat} (h : position < xs.size) :
    fetch xs position = .ok xs[position] :=
  fetch_eq_ok_iff.2 (Array.getElem?_eq_getElem h)

theorem fetch_of_le {α : Type} {xs : Array α} {position : Nat} (h : xs.size ≤ position) :
    fetch xs position = .error (.indexOutside xs.size position) := by
  simp [fetch, Array.getElem?_eq_none h]

theorem addWords_of_lt {a b : Nat} (h : a + b < wordLimit) : addWords a b = .ok (a + b) :=
  if_pos h

theorem mulWords_of_lt {a b : Nat} (h : a * b < wordLimit) : mulWords a b = .ok (a * b) :=
  if_pos h

theorem subWords_of_le {a b : Nat} (h : b ≤ a) : subWords a b = .ok (a - b) :=
  if_pos h

end PairedMarkov
