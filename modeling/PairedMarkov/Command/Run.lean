import PairedMarkov.Command.Basic
import PairedMarkov.LinearProgram.Text
import PairedMarkov.Quantiles
import PairedMarkov.Random.ChaCha
import PairedMarkov.Search.Run
import PairedMarkov.Uai.Load

/-!
# Carrying out commands

A command acts on the world through a *host*, which has files, a log, an output and a clock. It
works in any monad that has a host, and stops at the first failure.
-/

namespace PairedMarkov.Command

/-! ## Section 1: Hosts and failures -/

/-- What commands need of the world around them. -/
structure Host (m : Type → Type) where
  /-- The text of the file at a path. -/
  readText : String → m (Except FileError String)
  /-- Whether a path leads to a folder. -/
  isFolder : String → m Bool
  /-- Makes an empty file at a path. -/
  create : String → m (Except FileError Unit)
  /-- Adds a text at the end of the file at a path. -/
  append : (path text : String) → m (Except FileError Unit)
  /-- Writes a text to the output. -/
  print : String → m Unit
  /-- Writes a line to the log. -/
  log : LogLevel → String → m Unit
  /-- The time since some fixed moment. -/
  clock : m Duration
  /-- The date and the time of day, as a part of file names. -/
  timestamp : m String
  /-- The peak of memory in megabytes. -/
  memory : m Float

/-- Why a command cannot be carried out. -/
inductive Failure where
  /-- The networks cannot be loaded. -/
  | load (e : Uai.LoadError)
  /-- A file cannot be written. -/
  | file (path : String) (reason : FileError)
  /-- A progress record cannot be written. -/
  | progress (reason : FileError)
  deriving DecidableEq

/-- The wording of a failure. -/
def Failure.message : Failure → String
  | .load e => e.message
  | .file path reason => s!"i/o error on {path}: {reason.message}"
  | .progress reason => s!"could not write progress: {reason.message}"

variable {m : Type → Type} [Monad m]

/-- A part of a command. -/
abbrev Action (m : Type → Type) := ExceptT (Stop Failure) m

/-- An action of the host that cannot fail. -/
def act {α : Type} (action : m α) : Action m α := ExceptT.lift action

/-- An action of the host on a file. -/
def onFile {α : Type} (path : String) (action : m (Except FileError α)) : Action m α := do
  match ← act action with
  | .ok a => pure a
  | .error reason => throw (.error (.file path reason))

/-- A checked computation. -/
def checked {α : Type} (x : Except Fault α) : Action m α := ExceptT.mk (pure (orFault x))

/-- Loading as a part of a command. -/
def loading {α : Type} (x : ExceptT (Stop Uai.LoadError) m α) : Action m α :=
  ExceptT.mk do return (← x.run).mapError (Stop.map .load)

/-- Writes a file with a given text. -/
def writeFile (host : Host m) (path text : String) : Action m Unit := do
  onFile path (host.create path)
  onFile path (host.append path text)

/-! ## Section 2: Searching -/

/-- The path of a name in a folder. -/
def inFolder (folder name : String) : String :=
  if folder.endsWith "/" then folder ++ name else s!"{folder}/{name}"

/-- Makes the file for the progress records: at the given path, or with the time in its name if
there is a folder at that path. Gives the path of the file. -/
def openProgress (host : Host m) (path : String) : Action m String := do
  if ← act (host.isFolder path) then
    let file := inFolder path s!"progress_{← act host.timestamp}.csv"
    onFile path (host.create file)
    act (host.log .info s!"progress written in {file}")
    return file
  else
    onFile path (host.create path)
    return path

/-- A host as the surroundings of a search that writes its records to a file, if there is one, and
prints its statistics if they are wanted. -/
def Host.surroundings (host : Host m) (progress : Option String) (statistics : Bool) :
    Search.Surroundings m LogWeight where
  clock := host.clock
  log event := host.log event.level event.text
  record record :=
    match progress with
    | some file => host.append file record.line
    | none => pure (.ok ())
  summarize summary := do
    if statistics then host.print s!"{summary.text (← host.memory)}\n\n"

/-- Searches a problem. -/
def searchProblem (host : Host m) (p : Problem LogWeight) (parameters : Search.Parameters LogWeight)
    (progress : Option String) (statistics : Bool) : Action m (Search.Explanation LogWeight) := do
  let setup ← checked (Search.Setup.ofProblem p parameters)
  let source := Random.ChaCha.ofSeed parameters.seed
  let start := Search.State.start p.domains source
  let run := Search.search (host.surroundings progress statistics) setup
  let (result, _) ← act (run.run.run start)
  ExceptT.mk (pure (result.mapError (Stop.map .progress)))

/-- Loads a problem and searches it. -/
def searchFiles (host : Host m) (constraint objective : String)
    (parameters : Search.Parameters LogWeight) (progress : Option String) (statistics : Bool) :
    Action m (Search.Explanation LogWeight) := do
  let p ← loading (Uai.loadProblem host.readText constraint objective)
  let sizes := s!"{p.constraint.factors.size} constraint factors, "
    ++ s!"{p.objective.factors.size} objective factors"
  let threshold := parameters.threshold.text
  act (host.log .info s!"{p.domains.size} variables, {sizes}, threshold {threshold}")
  let file ←
    match progress with
    | some path => some <$> openProgress host path
    | none => pure none
  searchProblem host p parameters file statistics

/-! ## Section 3: The other commands -/

/-- Writes the linear program of a problem. -/
def exportTo (host : Host m) (constraint objective : String) (threshold : LogWeight)
    (output : String) : Action m Unit := do
  let p ← loading (Uai.loadProblem host.readText constraint objective)
  let program ← checked (LinearProgram.ofProblem p threshold)
  writeFile host output program.text
  act (host.log .info s!"integer program written in {output}")

/-- The quantiles of the scores of a network at random assignments. -/
def quantilesOf (host : Host m) (model : String) (samples : Nat) (seed : UInt64) :
    Action m (List LogWeight) := do
  let (domains, network) ← loading (Uai.loadNetwork host.readText model)
  let sample ← checked (Sample.ofNetwork domains network samples (Random.ChaCha.ofSeed seed))
  checked (quantiles sample.scores.toArray)

/-- Numbers on a line each. -/
def lines (xs : List LogWeight) : String := String.join (xs.map fun x => s!"{x.text}\n")

/-! ## Section 4: All commands -/

/-- Carries out a command. -/
def run (host : Host m) : Command → Action m Unit
  | .search constraint objective parameters progress statistics => do
    let result ← searchFiles host constraint objective parameters progress statistics
    act (host.print s!"{result.text}\n")
  | .exportProgram constraint objective threshold output =>
    exportTo host constraint objective threshold output
  | .thresholds model samples seed output => do
    let text := lines (← quantilesOf host model samples seed)
    match output with
    | some path => writeFile host path text
    | none => act (host.print text)

end PairedMarkov.Command
