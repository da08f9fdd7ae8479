import PairedMarkov.LogWeight
import PairedMarkov.Search.Parameters
import PairedMarkov.Text.Terminal

/-!
# Commands

What the program can be asked to do, and why a command line asks for nothing that it can do.
-/

namespace PairedMarkov

/-- What the program can be asked to do. -/
inductive Command where
  /-- Search for the best assignment under a threshold. The progress records go to a file, or to a
  new file in a folder. -/
  | search (constraint objective : String) (parameters : Search.Parameters LogWeight)
      (progress : Option String) (statistics : Bool)
  /-- Write a problem with a threshold as a linear program. -/
  | exportProgram (constraint objective : String) (threshold : LogWeight) (output : String)
  /-- Give the quantiles of random scores. -/
  | thresholds (model : String) (samples : Nat) (seed : UInt64) (output : Option String)

/-- The parameters of a search. -/
def Command.parameters? : Command → Option (Search.Parameters LogWeight)
  | .search _ _ parameters _ _ => some parameters
  | _ => none

namespace Command

/-- Why a command line is no command. -/
inductive LineError where
  /-- Help is asked for. -/
  | help
  /-- The version is asked for. -/
  | version
  /-- There is nothing on the line. -/
  | nothing
  /-- There is no command of this name. -/
  | unknownCommand
  /-- An option is not known, or a word is left over. -/
  | unknownArgument
  /-- An option is given twice. -/
  | repeated
  /-- A flag has a value. -/
  | unexpectedValue
  /-- An option has no value, or an empty path. -/
  | missingValue
  /-- An option is missing. -/
  | missingOption
  /-- The value of an option cannot be read. -/
  | invalidValue (option value reason : String)
  deriving DecidableEq, Repr

/-- The sign for the value of an option. -/
def placeholder (option : String) : String :=
  String.ofList (option.toList.map fun c => if c = '-' then '_' else c.toUpper)

/-- The last line of a message about a value, up to the name of the option for help. -/
def helpHint : String := "\n\nFor more information, try '"

/-- The wording of an error, without the sequences for a terminal that a value may hold. -/
def LineError.message : LineError → String
  | .help => "help requested"
  | .version => "version requested"
  | .nothing => "error: a command is needed"
  | .unknownCommand => "error: unrecognized subcommand"
  | .unknownArgument => "error: unexpected argument"
  | .repeated => "error: an argument cannot be used multiple times"
  | .unexpectedValue => "error: unexpected value for a flag"
  | .missingValue => "error: a value is required"
  | .missingOption => "error: a required argument was not provided"
  | .invalidValue option value reason =>
    s!"error: invalid value '{Text.shown value}' for '--{option} <{placeholder option}>': "
      ++ Text.shown (reason ++ helpHint) ++ "--help'."

/-- The first line of a text, without the characters that end it. -/
def firstLine (s : String) : String :=
  let cs := s.toList.takeWhile (· ≠ '\n')
  String.ofList (if cs.getLast? = some '\r' then cs.dropLast else cs)

/-- The first line of the wording. -/
def LineError.headline (e : LineError) : String := firstLine e.message

end Command

end PairedMarkov
