import PairedMarkov.Problem

/-!
# Problems as linear programs

A problem with a threshold can be written as a linear program over variables that are zero or one.
Each entry of each factor has such a variable, which is one if the factor is on that entry:
`c2_5` stands for entry 5 of factor 2 of the constraint network, `o` marks the objective network.
The rows of the program say that

* the selected entries of the constraint network sum up to at most the threshold;
* every factor is on exactly one entry;
* two consecutive factors that mention a variable are on entries that agree on its value.

The objective is the sum of the selected entries of the objective network.
-/

namespace PairedMarkov

/-! ## Section 1: Linear programs -/

/-- A variable of a program with a coefficient. -/
structure Term (W : Type) where
  /-- The variable. -/
  name : String
  coefficient : W
  deriving DecidableEq

/-- A sum of terms. -/
abbrev LinearForm (W : Type) := List (Term W)

/-- How the two sides of a row are compared. -/
inductive Sense where
  /-- The form is at most the bound. -/
  | atMost
  /-- The form equals the bound. -/
  | equal
  deriving DecidableEq, Repr

/-- A condition on the variables of a program. -/
structure Row (W : Type) where
  name : String
  form : LinearForm W
  sense : Sense
  bound : W
  deriving DecidableEq

/-- A linear program over variables that are zero or one. -/
structure LinearProgram (W : Type) where
  /-- The form to maximise. -/
  objective : LinearForm W
  /-- The conditions. -/
  rows : List (Row W)
  /-- The variables. -/
  binaries : List String
  deriving DecidableEq

/-! ## Section 2: Tables and their entries -/

/-- The letter that stands for a network. -/
def Role.letter : Role → String
  | .constraint => "c"
  | .objective => "o"

/-- A factor of a problem with its place there. -/
structure Table (W : Type) where
  /-- The network. -/
  role : Role
  /-- The number of the factor in the network. -/
  index : Nat
  factor : Factor W

namespace Table

variable {W : Type}

/-- The name of the variable of an entry. -/
def entryName (t : Table W) (entry : Nat) : String := s!"{t.role.letter}{t.index}_{entry}"

/-- The names of the variables of all entries. -/
def names (t : Table W) : List String := (List.range t.factor.table.size).map t.entryName

/-- The sum of the selected entries. -/
def value (t : Table W) : LinearForm W :=
  t.factor.table.toList.zipIdx.map fun (weight, entry) => ⟨t.entryName entry, weight⟩

/-- The condition that exactly one entry is selected. -/
def choice [Weight W] (t : Table W) : Row W where
  name := s!"one_{t.role.letter}{t.index}"
  form := t.names.map fun name => ⟨name, 1⟩
  sense := .equal
  bound := 1

/-- The entries at which a variable has a value. -/
def entriesAt (t : Table W) (domains : Domains) (id value : Nat) : Except Fault (List Nat) :=
  (List.range t.factor.table.size).filterM fun entry => do
    return (← t.factor.digit domains id entry) == some value

/-- The entries at which a variable has a value, all with the same coefficient. -/
def selectedAt (t : Table W) (domains : Domains) (id value : Nat) (coefficient : W) :
    Except Fault (LinearForm W) := do
  return (← t.entriesAt domains id value).map fun entry => ⟨t.entryName entry, coefficient⟩

end Table

namespace Problem

variable {W : Type}

/-- The tables of one network. -/
def tablesOf (p : Problem W) (role : Role) : List (Table W) :=
  (p.network role).factors.toList.zipIdx.map fun (factor, index) => { role, index, factor }

/-- The tables of both networks, those of the constraint network first. -/
def tables (p : Problem W) : List (Table W) := p.tablesOf .constraint ++ p.tablesOf .objective

end Problem

/-! ## Section 3: The program of a problem -/

namespace LinearProgram

variable {W : Type} [Weight W]

/-- The condition that two tables agree on a value of a variable: the difference of what they
select there is zero. -/
def agreement (domains : Domains) (a b : Table W) (id value : Nat) :
    Except Fault (LinearForm W) := do
  let left ← a.selectedAt domains id value 1
  let right ← b.selectedAt domains id value (-1)
  return left ++ right

/-- A form that has to be zero for a value of a variable. -/
structure Balance (W : Type) where
  id : Nat
  value : Nat
  form : LinearForm W

/-- The agreement of two tables on all values of a variable. -/
def balances (domains : Domains) (id : Nat) (a b : Table W) : Except Fault (List (Balance W)) := do
  let size ← fetch domains id
  (List.range size).mapM fun value => return ⟨id, value, ← agreement domains a b id value⟩

/-- The agreement of consecutive tables of a list on a variable. -/
def chain (domains : Domains) (id : Nat) : List (Table W) → Except Fault (List (Balance W))
  | a :: b :: rest => do
    let first ← balances domains id a b
    return first ++ (← chain domains id (b :: rest))
  | _ => .ok []

/-- The agreement of all tables that mention a variable, for the listed variables. -/
def chains (domains : Domains) (tables : List (Table W)) :
    List Nat → Except Fault (List (Balance W))
  | [] => .ok []
  | id :: ids => do
    let first ← chain domains id (tables.filter fun t => t.factor.mentions id)
    return first ++ (← chains domains tables ids)

/-- The row of a balance, with its position among all rows in its name. -/
def Balance.row (b : Balance W) (position : Nat) : Row W where
  name := s!"r{position}_x{b.id}_{b.value}"
  form := b.form
  sense := .equal
  bound := 0

/-- The condition on the constraint network. -/
def budget (p : Problem W) (threshold : W) : Row W where
  name := "budget"
  form := (p.tablesOf .constraint).flatMap Table.value
  sense := .atMost
  bound := threshold

/-- The linear program of a problem with a threshold. -/
def ofProblem (p : Problem W) (threshold : W) : Except Fault (LinearProgram W) := do
  let tables := p.tables
  let balances ← chains p.domains tables (List.range p.domains.size)
  return {
    objective := (p.tablesOf .objective).flatMap Table.value
    rows := budget p threshold :: tables.map Table.choice
      ++ (balances.zipIdx (tables.length + 1)).map fun (b, position) => b.row position
    binaries := tables.flatMap Table.names }

end LinearProgram

end PairedMarkov
