import PairedMarkov.Assignment
import PairedMarkov.Duration
import PairedMarkov.LogWeight

/-!
# Explanations

An explanation is what a search answers with: the best assignment it has found under the threshold,
if it has found one, with the objective score, the time and the width at which it was found.
-/

namespace PairedMarkov.Search

/-- The outcome of a search. -/
structure Explanation (W : Type) where
  /-- The objective score; the lowest weight if no assignment is known. -/
  objective : W
  /-- The assignment, if one is known. -/
  assignment : Option Assignment
  /-- The time from the start of the search until it was found. -/
  foundAt : Duration
  /-- The width at which it was found. -/
  width : Nat

namespace Explanation

/-- The outcome as long as no assignment is known. -/
def none {W : Type} [Weight W] : Explanation W where
  objective := Weight.lowest
  assignment := .none
  foundAt := 0
  width := 0

/-- Whether an assignment is known. -/
def isFeasible {W : Type} (e : Explanation W) : Bool := e.assignment.isSome

/-- An explanation on one line. -/
def text (e : Explanation LogWeight) : String :=
  let best := s!"best {e.objective.text}"
  match e.assignment with
  | .none => s!"{best} | no feasible assignment"
  | some x =>
    let values := String.join (x.toList.map fun value => s!" {value}")
    s!"{best} | width {e.width} | found after {e.foundAt.text}s | assignment{values}"

end Explanation

end PairedMarkov.Search
