import PairedMarkov.Duration
import PairedMarkov.Knapsack.Solver

/-!
# Parameters of a search

What can be set for a search, with the values that are taken when nothing is said, and the widths
that a search goes through: `1, 3, 5, …` up to the largest one.
-/

namespace PairedMarkov.Search

/-- What can be set for a search. -/
structure Parameters (W : Type) where
  /-- No decomposition is wider than this. -/
  maxWidth : Nat := 15
  /-- The constraint score has to stay at or below this. -/
  threshold : W
  /-- The time given to each width. -/
  timePerWidth : Duration := Duration.ofSeconds 1200
  /-- The least time between two progress records. -/
  interval : Duration := Duration.ofSeconds 1
  /-- The seed of the word source. -/
  seed : UInt64 := 0
  /-- The number of iterations at each width, if it is limited. -/
  maxIterations : Option Nat := none
  /-- The effort put into each knapsack. -/
  effort : Effort := {}

namespace Parameters

variable {W : Type}

/-- The number of iterations after which every width ends: as many as a word can count. The program
has no end of this kind. Without a limit on the iterations it counts on until the time is over, and
one more iteration than this would overflow its counter, which no fault stands for here. -/
def iterationLimit : Nat := wordLimit - 1

/-- The most iterations that a width may have: the number that is set, or else `iterationLimit`. -/
def iterationCap (p : Parameters W) : Nat := p.maxIterations.getD iterationLimit

/-- The bytes that one width takes in memory. -/
def widthBytes : Nat := 8

/-- The widths of a search, in increasing order: the odd numbers up to the largest width. -/
def oddWidths (p : Parameters W) : List Nat :=
  (List.range ((p.maxWidth + 1) / 2)).map fun i => 2 * i + 1

/-- The widths of a search, if there is room for them. -/
def widths (p : Parameters W) : Except Fault (List Nat) := do
  allocate widthBytes ((p.maxWidth + 1) / 2)
  return p.oddWidths

end Parameters

end PairedMarkov.Search
