import PairedMarkov.Uai.Reader

/-!
# Loading networks from files

Files are read through a function from paths to their texts, in any monad. Loading a problem looks
at the file of the objective network only when that of the constraint network has been understood.
-/

namespace PairedMarkov.Uai

variable {m : Type → Type} [Monad m]

/-- The network in the file at a path. -/
def loadNetwork (read : String → m (Except FileError String)) (path : String) :
    ExceptT (Stop LoadError) m (Domains × Network LogWeight) := do
  match ← ExceptT.lift (read path) with
  | .error reason => throw (.error (.unreadable path reason))
  | .ok content =>
    match parse content with
    | .ok network => pure network
    | .error (.fault f) => throw (.fault f)
    | .error (.error e) => throw (.error (.malformed e))

/-- The problem of the networks in the files at two paths. -/
def loadProblem (read : String → m (Except FileError String)) (constraint objective : String) :
    ExceptT (Stop LoadError) m (Problem LogWeight) := do
  let constraint ← loadNetwork read constraint
  let objective ← loadNetwork read objective
  match pair constraint objective with
  | .ok problem => pure problem
  | .error e => throw (.error e)

end PairedMarkov.Uai
