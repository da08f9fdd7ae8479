import PairedMarkov.Duration
import PairedMarkov.LogWeight

/-!
# What a search reports

While it runs, a search tells what it does in events, which go to a log, and writes down the best
score known in progress records, which go to a file of their own.
-/

namespace PairedMarkov

/-- How much an event matters to a reader of the log. -/
inductive LogLevel where
  | info
  | debug
  | trace
  deriving DecidableEq, Repr

/-- The name of a level. -/
def LogLevel.text : LogLevel → String
  | .info => "INFO"
  | .debug => "DEBUG"
  | .trace => "TRACE"

namespace Search

/-! ## Section 1: Events -/

/-- What happens during a search. -/
inductive Event (W : Type) where
  /-- A width begins with a new decomposition. -/
  | widthStarted (width cut components largest conditioned : Nat)
  /-- A better assignment is known. -/
  | improved (objective : W) (width : Nat) (foundAt : Duration)
  /-- The components are about to be chosen under a budget. -/
  | knapsack (bins fixed : Nat) (budget : W)
  /-- No choice for the components fits the budget. -/
  | infeasible (budget : W)
  /-- A width has come to its end. -/
  | widthDone (width iterations : Nat) (best : W)

/-- The level at which an event is logged. -/
def Event.level {W : Type} : Event W → LogLevel
  | .widthStarted .. | .widthDone .. => .info
  | .improved .. => .debug
  | .knapsack .. | .infeasible .. => .trace

/-- An event in words. -/
def Event.text : Event LogWeight → String
  | .widthStarted width cut components largest conditioned =>
    s!"width {width}: {cut} cut variables, {components} components (largest {largest}), "
      ++ s!"{conditioned} conditioned"
  | .improved objective width foundAt =>
    s!"new best {objective.text} at width {width} after {foundAt.text}s"
  | .knapsack bins fixed budget =>
    s!"knapsack with {bins} bins ({fixed} fixed), budget {budget.text}"
  | .infeasible budget => s!"infeasible knapsack for budget {budget.text}"
  | .widthDone width iterations best =>
    s!"width {width} done after {iterations} iterations, best {best.text}"

/-! ## Section 2: Progress records -/

/-- The best score known at some time. -/
structure Progress (W : Type) where
  /-- The threshold of the search. -/
  threshold : W
  /-- The current width. -/
  width : Nat
  /-- The best objective score known. -/
  best : W
  /-- The time since the start of the search. -/
  elapsed : Duration

/-- A record as a line with fields between commas. -/
def Progress.line (p : Progress LogWeight) : String :=
  s!"{p.threshold.text},{p.width},{p.best.text},{p.elapsed.text}\n"

end Search

end PairedMarkov
