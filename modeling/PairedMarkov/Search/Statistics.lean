import PairedMarkov.Decimal.Text

/-!
# Statistics of a search

Counts of what happens during a search, and the line that shows them.
-/

namespace PairedMarkov.Search

/-- How often things have happened. -/
structure Statistics where
  /-- Widths that were started. -/
  widths : Nat := 0
  /-- Iterations. -/
  iterations : Nat := 0
  /-- Iterations that changed one cut variable for the better. -/
  localMoves : Nat := 0
  /-- Escapes that gave all cut variables random values. -/
  globalEscapes : Nat := 0
  /-- Escapes that gave one cut variable a random value. -/
  localEscapes : Nat := 0
  /-- Knapsacks in which nothing fitted the budget. -/
  infeasibleKnapsacks : Nat := 0
  /-- New best assignments. -/
  improvements : Nat := 0
  /-- The sizes of the cuts, summed over the widths. -/
  cutTotal : Nat := 0
  /-- The numbers of components, summed over the widths. -/
  componentTotal : Nat := 0
  deriving DecidableEq, Repr

namespace Statistics

/-- Takes note of a new width. -/
def addWidth (s : Statistics) (cut components : Nat) : Statistics :=
  { s with
    widths := s.widths + 1
    cutTotal := s.cutTotal + cut
    componentTotal := s.componentTotal + components }

/-- The mean over the widths of a total, zero without widths. -/
def mean (s : Statistics) (total : Nat) : Float :=
  if s.widths = 0 then 0.0 else Float.ofNat total / Float.ofNat s.widths

/-- The statistics on one line, with the peak of memory in megabytes. -/
def text (s : Statistics) (memory : Float) : String :=
  " | ".intercalate [
    s!"widths {s.widths}",
    s!"avg cut {Decimal.fixed 1 (s.mean s.cutTotal)}",
    s!"avg components {Decimal.fixed 1 (s.mean s.componentTotal)}",
    s!"iterations {s.iterations}",
    s!"local moves {s.localMoves}",
    s!"global escapes {s.globalEscapes}",
    s!"local escapes {s.localEscapes}",
    s!"#INFEASIBLE {s.infeasibleKnapsacks}",
    s!"improvements {s.improvements}",
    s!"Peak memory usage {Decimal.text memory} Mb"]

end Statistics

end PairedMarkov.Search
