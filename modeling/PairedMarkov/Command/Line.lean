import PairedMarkov.Command.Basic

/-!
# Reading command lines

A command line is a list of words: the name of a command, then its options. An option has a long
name, some also have a letter, and most take a value: `--name value`, `--name=value`, `-x value`,
`-x=value` or `-xvalue`.

A value that is a word of its own is *pending* until another option of the command or the end of
the line is met; only then is it looked at. So a word that the command does not know is reported
rather than a bad value before it, while of two bad values the first one is reported. A word that
begins with a minus sign is read as an option, even after an option that waits for its value; only
negative numbers are values where an option allows them. After two minus signs alone no option can
follow, and as no command takes anything else, no word at all.
-/

namespace PairedMarkov.Command

/-! ## Section 1: Options and values -/

/-- What can stand behind an option. -/
inductive Kind where
  /-- A path, not empty. -/
  | path
  /-- A natural number. -/
  | natural
  /-- A number, which as a word of its own may be negative. -/
  | real
  /-- A number of seconds. -/
  | seconds
  /-- Nothing; the option is set by its presence. -/
  | flag
  /-- Nothing; the option asks for help at once. -/
  | help
  deriving DecidableEq, Repr

/-- Whether an option of a kind takes a value. -/
def Kind.takesValue : Kind → Bool
  | .flag | .help => false
  | _ => true

/-- An option of a command. -/
structure Form where
  /-- The long name. -/
  name : String
  /-- The letter, if it has one. -/
  letter : Option Char
  /-- What stands behind it. -/
  kind : Kind
  deriving DecidableEq, Repr

/-- What an option has been given. -/
inductive Value where
  | path (p : String)
  | natural (n : Nat)
  | real (x : LogWeight)
  | seconds (d : Duration)
  | present

/-- Reads the value of an option. -/
def Form.read (form : Form) (text : String) : Except LineError Value :=
  match form.kind with
  | .path => if text = "" then .error .missingValue else .ok (.path text)
  | .natural =>
    match Decimal.natural text with
    | .ok n => .ok (.natural n)
    | .error e => .error (.invalidValue form.name text e.message)
  | .real =>
    match LogWeight.read text with
    | .ok x => .ok (.real x)
    | .error e => .error (.invalidValue form.name text e.message)
  | .seconds =>
    match Duration.read text with
    | .ok d => .ok (.seconds d)
    | .error e => .error (.invalidValue form.name text s!"{text}: {e.message}")
  | .flag | .help => .ok .present

/-! ## Section 2: Words -/

/-- What a word looks like. -/
inductive Word where
  /-- Two minus signs alone. -/
  | escape
  /-- A long name, with a value if there is an equals sign. -/
  | long (name : String) (value : Option String)
  /-- Letters behind one minus sign. -/
  | short (letters : List Char)
  /-- Anything else. -/
  | plain
  deriving DecidableEq, Repr

/-- What a word looks like. -/
def Word.ofString (word : String) : Word :=
  match word.toList with
  | ['-', '-'] => .escape
  | '-' :: '-' :: rest =>
    let name := String.ofList (rest.takeWhile (· ≠ '='))
    match rest.dropWhile (· ≠ '=') with
    | _ :: value => .long name (some (String.ofList value))
    | [] => .long name none
  | '-' :: c :: rest => .short (c :: rest)
  | _ => .plain

/-- Whether characters are digits, with at most one point and one exponent mark, not at the start;
the point comes before the mark, and the mark is not at the end. -/
def looksNumeric (cs : List Char) : Bool :=
  let isMark := fun c : Char => c = 'e' || c = 'E'
  let mantissa := cs.takeWhile fun c => !isMark c
  let power := cs.dropWhile fun c => !isMark c
  let whole := mantissa.takeWhile Char.isDigit
  let places := mantissa.dropWhile Char.isDigit
  let wellFormed (places : List Char) : Bool :=
    match places with
    | [] => true
    | c :: rest => c = '.' && !whole.isEmpty && rest.all Char.isDigit
  wellFormed places &&
    match power with
    | [] => true
    | _ :: digits => !mantissa.isEmpty && !digits.isEmpty && digits.all Char.isDigit

/-! ## Section 3: Reading options -/

/-- How far a line has been read. -/
structure Scan where
  /-- The options with their values, the last one first. -/
  found : List (String × Value) := []
  /-- The option whose value is a word of its own, with that word if it has come. -/
  pending : Option (Form × Option String) := none

namespace Scan

/-- Keeps the value of an option that has none yet. -/
def add (s : Scan) (form : Form) (value : Except LineError Value) :
    Except LineError Scan :=
  if s.found.any fun other => other.1 = form.name then .error .repeated
  else do return { s with found := (form.name, ← value) :: s.found }

/-- Looks at the pending value. -/
def settle (s : Scan) : Except LineError Scan :=
  match s.pending with
  | none => .ok s
  | some (_, none) => .error .missingValue
  | some (form, some text) => add { s with pending := none } form (form.read text)

/-- Whether an option waits for its value. -/
def awaitsValue (s : Scan) : Bool :=
  match s.pending with
  | some (_, none) => true
  | _ => false

/-- Whether an option waits for a value that may be a negative number. -/
def awaitsReal (s : Scan) : Bool :=
  match s.pending with
  | some (form, none) => form.kind = .real
  | _ => false

/-- Gives the option that waits its value. -/
def fill (s : Scan) (word : String) : Scan :=
  { s with pending := s.pending.map fun (form, _) => (form, some word) }

/-- Reads an option, with its value if that belongs to the same word. -/
def takeOption (s : Scan) (form : Form) (value : Option String) :
    Except LineError Scan := do
  let s ← s.settle
  match form.kind, value with
  | .help, _ => .error .help
  | .flag, _ => s.add form (.ok .present)
  | _, some text => s.add form (form.read text)
  | _, none => .ok { s with pending := some (form, none) }

/-- Reads an option by its long name. -/
def takeLong (s : Scan) (forms : List Form) (name : String) (value : Option String) :
    Except LineError Scan :=
  match forms.find? fun form => form.name = name with
  | none => .error .unknownArgument
  | some form =>
    if !form.kind.takesValue && value.isSome then .error .unexpectedValue
    else s.takeOption form value

/-- The value behind a letter in the same word. -/
def attached : List Char → Option String
  | [] => none
  | '=' :: value => some (String.ofList value)
  | value => some (String.ofList value)

/-- Reads options by their letters, up to one that takes a value. -/
def takeLetters (forms : List Form) : Scan → List Char → Except LineError Scan
  | s, [] => .ok s
  | s, letter :: rest =>
    match forms.find? fun form => form.letter = some letter with
    | none => .error .unknownArgument
    | some form =>
      if form.kind.takesValue then s.takeOption form (attached rest)
      else do takeLetters forms (← s.takeOption form none) rest

/-- Reads the words behind the name of a command. -/
def takeWords (forms : List Form) : Scan → List String → Except LineError Scan
  | s, [] => s.settle
  | s, word :: rest =>
    match Word.ofString word with
    | .escape => if rest.isEmpty then s.settle else .error .unknownArgument
    | .long name value => do takeWords forms (← s.takeLong forms name value) rest
    | .short letters =>
      if s.awaitsReal && looksNumeric letters then takeWords forms (s.fill word) rest
      else do takeWords forms (← takeLetters forms s letters) rest
    | .plain =>
      if s.awaitsValue then takeWords forms (s.fill word) rest else .error .unknownArgument

end Scan

/-! ## Section 4: What the options say -/

/-- Options with their values. -/
abbrev Found := List (String × Value)

/-- The options on the words behind the name of a command. -/
def readOptions (forms : List Form) (words : List String) : Except LineError Found := do
  return (← Scan.takeWords forms {} words).found

namespace Found

/-- The value of an option. -/
def value? (f : Found) (name : String) : Option Value :=
  (f.find? fun option => option.1 = name).map Prod.snd

/-- The path that an option gives. -/
def path? (f : Found) (name : String) : Option String :=
  match f.value? name with
  | some (.path p) => some p
  | _ => none

/-- The natural number that an option gives. -/
def natural? (f : Found) (name : String) : Option Nat :=
  match f.value? name with
  | some (.natural n) => some n
  | _ => none

/-- The number that an option gives. -/
def real? (f : Found) (name : String) : Option LogWeight :=
  match f.value? name with
  | some (.real x) => some x
  | _ => none

/-- The length of time that an option gives. -/
def seconds? (f : Found) (name : String) : Option Duration :=
  match f.value? name with
  | some (.seconds d) => some d
  | _ => none

/-- Whether a flag is there. -/
def has (f : Found) (name : String) : Bool := (f.value? name).isSome

end Found

/-- What an option has to give. -/
def required {α : Type} : Option α → Except LineError α
  | some a => .ok a
  | none => .error .missingOption

/-! ## Section 5: The commands -/

/-- The option of all commands that asks for help. -/
def helpForm : Form := ⟨"help", some 'h', .help⟩

/-- The options of a search. -/
def searchForms : List Form :=
  [⟨"constraint", some 'c', .path⟩, ⟨"objective", some 'o', .path⟩,
    ⟨"threshold", some 'q', .real⟩, ⟨"max-width", some 'k', .natural⟩,
    ⟨"timeout", some 't', .natural⟩, ⟨"seed", some 's', .natural⟩,
    ⟨"interval", none, .seconds⟩, ⟨"progress", none, .path⟩,
    ⟨"max-iterations", none, .natural⟩, ⟨"restarts", none, .natural⟩,
    ⟨"moves", none, .natural⟩, ⟨"statistics", none, .flag⟩, helpForm]

/-- The options of an export. -/
def exportForms : List Form :=
  [⟨"constraint", some 'c', .path⟩, ⟨"objective", some 'o', .path⟩,
    ⟨"threshold", some 'q', .real⟩, ⟨"output", none, .path⟩, helpForm]

/-- The options of the quantiles. -/
def thresholdsForms : List Form :=
  [⟨"model", some 'm', .path⟩, ⟨"samples", none, .natural⟩, ⟨"seed", some 's', .natural⟩,
    ⟨"output", none, .path⟩, helpForm]

/-- The number of samples when nothing is said. -/
def defaultSamples : Nat := 1000000

/-- The parameters of a search with a threshold. -/
def searchParameters (f : Found) (threshold : LogWeight) : Search.Parameters LogWeight :=
  let standard : Search.Parameters LogWeight := { threshold }
  { threshold
    maxWidth := (f.natural? "max-width").getD standard.maxWidth
    timePerWidth := ((f.natural? "timeout").map Duration.ofSeconds).getD standard.timePerWidth
    interval := (f.seconds? "interval").getD standard.interval
    seed := ((f.natural? "seed").map UInt64.ofNat).getD standard.seed
    maxIterations := f.natural? "max-iterations"
    effort := {
      restarts := (f.natural? "restarts").getD standard.effort.restarts
      moves := (f.natural? "moves").getD standard.effort.moves } }

/-- The search that options ask for. -/
def searchOf (f : Found) : Except LineError Command := do
  let constraint ← required (f.path? "constraint")
  let objective ← required (f.path? "objective")
  let threshold ← required (f.real? "threshold")
  return .search constraint objective (searchParameters f threshold) (f.path? "progress")
    (f.has "statistics")

/-- The export that options ask for. -/
def exportOf (f : Found) : Except LineError Command := do
  let constraint ← required (f.path? "constraint")
  let objective ← required (f.path? "objective")
  let threshold ← required (f.real? "threshold")
  let output ← required (f.path? "output")
  return .exportProgram constraint objective threshold output

/-- The quantiles that options ask for. -/
def thresholdsOf (f : Found) : Except LineError Command := do
  let model ← required (f.path? "model")
  return .thresholds model ((f.natural? "samples").getD defaultSamples)
    (UInt64.ofNat ((f.natural? "seed").getD 0)) (f.path? "output")

/-- A command with the options it has and what they make of it. -/
structure Usage where
  name : String
  forms : List Form
  build : Found → Except LineError Command

/-- The commands. -/
def usages : List Usage :=
  [⟨"search", searchForms, searchOf⟩, ⟨"export-mip", exportForms, exportOf⟩,
    ⟨"thresholds", thresholdsForms, thresholdsOf⟩]

/-- The word that asks for help on a command. -/
def helpWord : String := "help"

/-- Whether a word names something that can be asked for. -/
def isKnown (word : String) : Bool :=
  word = helpWord || usages.any fun usage => usage.name = word

/-- Why words behind the word for help are no command: they ask for help on a command, if they name
one. -/
def helpOn : List String → LineError
  | [] => .help
  | [word] => if isKnown word then .help else .unknownCommand
  | _ => .unknownCommand

/-- Why a line is no command if it does not begin with the name of one. -/
def lineError (word : String) (rest : List String) : LineError :=
  match Word.ofString word with
  | .escape =>
    match rest with
    | [] => .nothing
    | next :: _ => if isKnown next then .unknownArgument else .unknownCommand
  | .long name value =>
    if name = "help" || name = "version" then
      if value.isSome then .unexpectedValue else if name = "help" then .help else .version
    else .unknownArgument
  | .short ('h' :: _) => .help
  | .short ('V' :: _) => .version
  | .short _ => .unknownArgument
  | .plain => .unknownCommand

/-- The command on a line. -/
def ofWords : List String → Except LineError Command
  | [] => .error .nothing
  | word :: rest =>
    match usages.find? fun usage => usage.name = word with
    | some usage => do usage.build (← readOptions usage.forms rest)
    | none => .error (if word = helpWord then helpOn rest else lineError word rest)

end PairedMarkov.Command
