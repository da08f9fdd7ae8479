import PairedMarkov.FileError
import PairedMarkov.Search.Cut
import PairedMarkov.Search.Event
import PairedMarkov.Search.Explanation
import PairedMarkov.Search.Filling
import PairedMarkov.Search.Parameters
import PairedMarkov.Search.Statistics

/-!
# The anytime search

The search goes through the widths. At each width it decomposes the problem, gives all variables
random values and then iterates: the cut changes, and the components are filled under what the cut
left of the threshold. Both halves of an iteration can lead to an assignment under the threshold;
the best one so far is the *explanation*, which is kept across all widths.

A width ends when its time is over or when it has had its iterations, looked at in this order before
each iteration. Where their number is not limited, a width of endless time still ends here when no
word can count its iterations any more (`Parameters.iterationLimit`). After each iteration, if the
last progress record is old enough, a new one is written; a record that cannot be written ends the
search.

The search acts on its surroundings, a clock, a log and a place for records, only through
`Surroundings`, and works in any monad that offers these. What it changes itself is its `State`.
-/

namespace PairedMarkov.Search

/-! ## Section 1: Surroundings and state -/

/-- What a search needs of the world around it. -/
structure Surroundings (m : Type → Type) (W : Type) where
  /-- The time since some fixed moment. -/
  clock : m Duration
  /-- Tells what happens. -/
  log : Event W → m Unit
  /-- Writes down a progress record. -/
  record : Progress W → m (Except FileError Unit)
  /-- Takes the statistics at the end of a search. -/
  summarize : Statistics → m Unit

/-- What a search works on. -/
structure Setup (W : Type) where
  /-- The problem with its threshold, prepared for moves. -/
  terrain : Terrain W
  parameters : Parameters W

/-- A search that is to be made. -/
def Setup.ofProblem {W : Type} (p : Problem W) (parameters : Parameters W) :
    Except Fault (Setup W) := do
  return ⟨← Terrain.ofProblem p parameters.threshold, parameters⟩

/-- The problem that is searched. -/
def Setup.problem {W : Type} (t : Setup W) : Problem W := t.terrain.problem

/-- What a search changes while it runs. -/
structure State (W σ : Type) where
  /-- The current assignment. -/
  assignment : Assignment
  /-- The source of all random draws. -/
  source : σ
  /-- The best assignment so far. -/
  best : Explanation W
  /-- What has happened so far. -/
  statistics : Statistics
  /-- What the clock showed at the start. -/
  started : Duration
  /-- The time from the start to the last progress record. -/
  lastRecord : Duration

/-- The state before the first search. -/
def State.start {W σ : Type} [Weight W] (domains : Domains) (source : σ) : State W σ where
  assignment := Assignment.first domains
  source
  best := Explanation.none
  statistics := {}
  started := 0
  lastRecord := 0

/-- The state with an assignment and a source after some draws. -/
def State.place {W σ : Type} (s : State W σ) (x : Assignment) (source : σ) : State W σ :=
  { s with assignment := x, source }

/-- A computation of a search; the state outlives its failure. -/
abbrev Run (m : Type → Type) (W σ : Type) := ExceptT (Stop FileError) (StateT (State W σ) m)

variable {m : Type → Type} [Monad m] {W σ : Type}

/-- An action on the surroundings as a part of a search. -/
def act {α : Type} (action : m α) : Run m W σ α :=
  ExceptT.lift (StateT.lift action)

/-- A checked computation as a part of a search. -/
def checked {α : Type} (x : Except Fault α) : Run m W σ α :=
  ExceptT.mk (pure (orFault x))

/-- Changes the statistics. -/
def count (change : Statistics → Statistics) : Run m W σ Unit :=
  modify fun s => { s with statistics := change s.statistics }

/-! ## Section 2: One iteration -/

/-- The time since the start of the search. -/
def elapsed (around : Surroundings m W) : Run m W σ Duration := do
  let now ← act around.clock
  return now - (← get).started

variable [Weight W]

/-- Keeps the current assignment as the best one if its objective score is above that of the best
one so far. -/
def offer (around : Surroundings m W) (width : Nat) (objective : W) : Run m W σ Unit := do
  if (← get).best.objective < objective then
    let foundAt ← elapsed around
    act (around.log (.improved objective width foundAt))
    modify fun s =>
      { s with best := { objective, assignment := some s.assignment, foundAt, width } }
    count fun s => { s with improvements := s.improvements + 1 }

omit [Weight W] in
/-- The statistics after a change of the cut. -/
def Statistics.addChange (s : Statistics) : CutChange W → Statistics
  | .moved _ => { s with localMoves := s.localMoves + 1 }
  | .localEscape => { s with localEscapes := s.localEscapes + 1 }
  | .globalEscape => { s with globalEscapes := s.globalEscapes + 1 }
  | .unchanged => s

variable [Random.Source σ]

/-- The first half of an iteration: changes the cut. -/
def iterateCut (around : Surroundings m W) (t : Setup W) (width : Nat) (d : Decomposition) :
    Run m W σ Unit := do
  let s ← get
  let (change, x, source) ← checked (t.terrain.changeCut d.cut s.assignment s.source)
  set (s.place x source)
  count fun statistics => statistics.addChange change
  match change.reaches? t.terrain.threshold with
  | some objective => offer around width objective
  | none => pure ()

/-- The second half of an iteration: fills the components. Gives the aggregates under the new
cut. -/
def iterateFilling (around : Surroundings m W) (t : Setup W) (width : Nat) (d : Decomposition)
    (b : Buckets) (aggregates : List (Aggregate W)) : Run m W σ (List (Aggregate W)) := do
  let s ← get
  let filling ← checked (fill t.problem t.terrain.threshold t.parameters.effort d b aggregates
    s.assignment s.source)
  act (around.log (.knapsack filling.bins filling.fixed filling.budget))
  set (s.place filling.assignment filling.source)
  if filling.solution.isFeasible then offer around width filling.objective
  else
    act (around.log (.infeasible filling.budget))
    count fun statistics =>
      { statistics with infeasibleKnapsacks := statistics.infeasibleKnapsacks + 1 }
  return filling.aggregates

/-- One iteration at a width. -/
def iterate (around : Surroundings m W) (t : Setup W) (width : Nat) (d : Decomposition)
    (b : Buckets) (aggregates : List (Aggregate W)) : Run m W σ (List (Aggregate W)) := do
  count fun statistics => { statistics with iterations := statistics.iterations + 1 }
  iterateCut around t width d
  iterateFilling around t width d b aggregates

omit [Weight W] [Random.Source σ] in
/-- Writes a progress record if the last one is old enough. -/
def report (around : Surroundings m W) (t : Setup W) (width : Nat) : Run m W σ Unit := do
  let elapsed ← elapsed around
  let s ← get
  if s.lastRecord + t.parameters.interval ≤ elapsed then
    let record : Progress W :=
      { threshold := t.parameters.threshold, width, best := s.best.objective, elapsed }
    match ← act (around.record record) with
    | .ok () => set { s with lastRecord := elapsed }
    | .error e => throw (.error e)

/-! ## Section 3: One width -/

/-- Iterates until the time since `begun` is over, but at most `remaining` times; gives the number
of iterations, `done` of which lie behind. The clock is looked at once more when none remains. -/
def iterations (around : Surroundings m W) (t : Setup W) (width : Nat) (d : Decomposition)
    (b : Buckets) (begun : Duration) :
    (remaining done : Nat) → List (Aggregate W) → Run m W σ Nat
  | 0, done, _ => do
    let _ ← act around.clock
    pure done
  | remaining + 1, done, aggregates => do
    let now ← act around.clock
    if t.parameters.timePerWidth ≤ now - begun then pure done
    else
      let aggregates ← iterate around t width d b aggregates
      report around t width
      iterations around t width d b begun remaining (done + 1) aggregates

/-- Gives all variables random values. -/
def scatter (t : Setup W) : Run m W σ Unit := do
  let s ← get
  let domains := t.problem.domains
  let (x, source) ← checked
    (s.assignment.randomizeAll domains s.source (List.range domains.size))
  set (s.place x source)

/-- Searches at one width. -/
def searchWidth (around : Surroundings m W) (t : Setup W) (width : Nat) : Run m W σ Unit := do
  let d ← checked (Decomposition.ofProblem t.problem width)
  let b ← checked (Buckets.ofProblem t.problem d)
  act (around.log (.widthStarted width d.cut.length d.components.length d.largest
    b.conditionedCount))
  count fun statistics => statistics.addWidth d.cut.length d.components.length
  scatter t
  let aggregates ←
    checked (Aggregate.ofDecomposition t.problem d b (← get).assignment)
  let begun ← act around.clock
  let done ← iterations around t width d b begun t.parameters.iterationCap 0 aggregates
  act (around.log (.widthDone width done (← get).best.objective))

/-! ## Section 4: All widths -/

/-- Searches at the given widths, one after the other. -/
def searchWidths (around : Surroundings m W) (t : Setup W) : List Nat → Run m W σ Unit
  | [] => pure ()
  | width :: widths => do
    searchWidth around t width
    searchWidths around t widths

/-- Searches at all widths; gives the best assignment found in this search or an earlier one. -/
def search (around : Surroundings m W) (t : Setup W) : Run m W σ (Explanation W) := do
  let now ← act around.clock
  modify fun s => { s with started := now, lastRecord := 0 }
  let widths ← checked t.parameters.widths
  searchWidths around t widths
  act (around.summarize (← get).statistics)
  return (← get).best

end PairedMarkov.Search
