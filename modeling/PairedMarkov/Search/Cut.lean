import PairedMarkov.Problem
import PairedMarkov.Random.Assignment

/-!
# Changing the cut

An iteration of the search begins with the variables of the cut. If giving a single one of them
another value improves the assignment, the best such *move* is made; otherwise the cut *escapes*:
with one chance in ten all of its variables get random values, else a random one of them does.

What a move improves depends on where the search stands. From an assignment under the threshold a
move has to stay there and raise the objective score; from any other assignment it has to lower the
constraint score. Moves are tried in the order of the cut and then of the values, and the first of
equally good ones is taken.

The scores of a move are computed from those of the assignment by exchanging what the factors of
the changed variable contribute, so only these factors are looked at. A move is tried out on the
assignment itself: the values of a variable are set one after the other, and when all of them have
been tried the variable gets back the value that it had.
-/

namespace PairedMarkov.Search

variable {W : Type} [Weight W] {σ : Type} [Random.Source σ]

/-! ## Section 1: The factors of a variable -/

/-- For each variable the factors of a network that mention it, once for each mention. -/
abbrev Incidence := Array (List Nat)

omit [Weight W] in
/-- The incidence of a network over `count` variables. -/
def Incidence.ofNetwork (count : Nat) (n : Network W) : Except Fault Incidence := do
  n.factors.toList.forM fun f => f.scope.forM fun id =>
    if id < count then .ok () else .error (.indexOutside count id)
  return (Array.range count).map fun id =>
    n.factors.toList.zipIdx.flatMap fun (f, factor) =>
      (f.scope.filter (· = id)).map fun _ => factor

/-- The scores of both networks, or of a part of them. -/
structure Scores (W : Type) where
  constraint : W
  objective : W

/-- The scores after a part of them has changed. -/
def Scores.exchange (total before after : Scores W) : Scores W where
  constraint := total.constraint - before.constraint + after.constraint
  objective := total.objective - before.objective + after.objective

/-- What cut moves are judged by: a problem, its incidences and the threshold. -/
structure Terrain (W : Type) where
  problem : Problem W
  threshold : W
  /-- The incidence of the constraint network. -/
  constraint : Incidence
  /-- The incidence of the objective network. -/
  objective : Incidence

namespace Terrain

omit [Weight W] in
/-- Prepares a problem for moves. -/
def ofProblem (p : Problem W) (threshold : W) : Except Fault (Terrain W) := do
  let constraint ← Incidence.ofNetwork p.domains.size p.constraint
  let objective ← Incidence.ofNetwork p.domains.size p.objective
  return ⟨p, threshold, constraint, objective⟩

/-- The scores of an assignment. -/
def scores (t : Terrain W) (x : Assignment) : Except Fault (Scores W) := do
  let constraint ← t.problem.score .constraint x
  let objective ← t.problem.score .objective x
  return ⟨constraint, objective⟩

/-- What the factors of one variable contribute to the scores. -/
def localScores (t : Terrain W) (x : Assignment) (id : Nat) : Except Fault (Scores W) := do
  let constraint ← t.problem.partialScore .constraint x (← fetch t.constraint id)
  let objective ← t.problem.partialScore .objective x (← fetch t.objective id)
  return ⟨constraint, objective⟩

end Terrain

/-! ## Section 2: Moves -/

/-- Another value for a variable of the cut. -/
structure CutMove (W : Type) where
  /-- The variable. -/
  id : Nat
  /-- Its new value. -/
  value : Nat
  /-- The scores after the move. -/
  scores : Scores W

namespace Terrain

/-- Whether a move with the scores `candidate`, from an assignment with the scores `current`, is
preferred to the best move so far. -/
def prefers (t : Terrain W) (current : Scores W) (best : Option (CutMove W))
    (candidate : Scores W) : Bool :=
  if current.constraint ≤ t.threshold then
    candidate.constraint ≤ t.threshold &&
      (best.elim current.objective fun move => move.scores.objective) < candidate.objective
  else candidate.constraint < best.elim current.constraint fun move => move.scores.constraint

/-- The state of the search for a move. -/
structure Tried (W : Type) where
  /-- The best move so far. -/
  best : Option (CutMove W)
  /-- The assignment, with the values that have been set last. -/
  assignment : Assignment

/-- Sets a variable to a value, and takes this move if it is preferred to the best one so far. The
factors of the variable contribute `before` to the scores `current`. -/
def tryValue (t : Terrain W) (current : Scores W) (id : Nat) (before : Scores W) (tried : Tried W)
    (value : Nat) : Except Fault (Tried W) := do
  let x ← tried.assignment.set t.problem.domains id value
  let after ← t.localScores x id
  let candidate := current.exchange before after
  return {
    best := if t.prefers current tried.best candidate then some ⟨id, value, candidate⟩
      else tried.best
    assignment := x }

/-- Tries all other values of a variable, and gives it back its own one. -/
def tryVariable (t : Terrain W) (current : Scores W) (tried : Tried W) (id : Nat) :
    Except Fault (Tried W) := do
  let held ← fetch tried.assignment id
  let before ← t.localScores tried.assignment id
  let size ← fetch t.problem.domains id
  let tried ← ((List.range size).filter (· ≠ held)).foldlM (t.tryValue current id before) tried
  return { tried with assignment := ← tried.assignment.set t.problem.domains id held }

/-- The best move of a cut that improves an assignment with the given scores, if there is one, and
the assignment after all moves have been tried. -/
def bestMove (t : Terrain W) (cut : List Nat) (x : Assignment) (current : Scores W) :
    Except Fault (Tried W) :=
  cut.foldlM (t.tryVariable current) ⟨none, x⟩

end Terrain

/-! ## Section 3: Escapes and changes -/

/-- What has been done to the cut. -/
inductive CutChange (W : Type) where
  /-- The best move was made. -/
  | moved (move : CutMove W)
  /-- A random variable got a random value. -/
  | localEscape
  /-- All variables got random values. -/
  | globalEscape
  /-- Nothing; the cut is empty. -/
  | unchanged

/-- The objective score that a change is known to lead to under the threshold. -/
def CutChange.reaches? (threshold : W) : CutChange W → Option W
  | .moved move => if move.scores.constraint ≤ threshold then some move.scores.objective else none
  | _ => none

omit [Weight W] in
/-- Random values for one or for all variables of a cut. -/
def escape (domains : Domains) (cut : List Nat) (x : Assignment) (source : σ) :
    Except Fault (CutChange W × Assignment × σ) :=
  if cut.isEmpty then .ok (.unchanged, x, source)
  else
    match Random.oneInTen source with
    | (true, source) => do
      let (x, source) ← x.randomizeAll domains source cut
      return (.globalEscape, x, source)
    | (false, source) => do
      let (drawn, source) ← Random.draw cut.length source
      let id ← fetch cut.toArray drawn
      let (x, source) ← x.randomize domains source id
      return (.localEscape, x, source)

/-- Changes the cut: by the best move if one improves the assignment, by an escape if not. -/
def Terrain.changeCut (t : Terrain W) (cut : List Nat) (x : Assignment) (source : σ) :
    Except Fault (CutChange W × Assignment × σ) := do
  let current ← t.scores x
  let tried ← t.bestMove cut x current
  match tried.best with
  | some move =>
    return (.moved move, ← tried.assignment.set t.problem.domains move.id move.value, source)
  | none => escape t.problem.domains cut tried.assignment source

end PairedMarkov.Search
