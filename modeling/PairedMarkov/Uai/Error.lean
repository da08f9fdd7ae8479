import PairedMarkov.Decimal.Text
import PairedMarkov.FileError
import PairedMarkov.Text.Quoted

/-!
# What can be wrong with a network file

The ways in which a text fails to be a Markov network in the UAI format, and those in which two
such files fail to make up one problem, each with its wording.
-/

namespace PairedMarkov.Uai

/-! ## Section 1: A single file -/

/-- The sections of a file, in their order. -/
inductive Part where
  | header
  | variableCount
  | domainSizes
  | factorCount
  | scopes
  | entryCount
  | entries
  deriving DecidableEq, Repr

/-- How messages refer to a section. -/
def Part.description : Part → String
  | .header => "the header"
  | .variableCount => "the number of variables"
  | .domainSizes => "the domain sizes"
  | .factorCount => "the number of factors"
  | .scopes => "the scopes"
  | .entryCount => "the number of entries"
  | .entries => "the entries"

/-- Why a text is not a network. -/
inductive ReadError where
  /-- The first word is not the one that announces a network. -/
  | header (found : String)
  /-- The text ends inside a section. -/
  | truncated (part : Part)
  /-- A word of a section is not a number of the right kind. -/
  | token (word : String) (part : Part)
  /-- A variable has no value. -/
  | emptyDomain (id : Nat)
  /-- A scope names a variable that the network does not have. -/
  | unknownVariable (factor id count : Nat)
  /-- A scope names a variable a second time. -/
  | duplicateVariable (factor id : Nat)
  /-- The declared number of entries is not the number of joint values of the scope. -/
  | entryCount (factor declared expected : Nat)
  /-- A weight is not above zero. -/
  | nonPositiveWeight (factor entry : Nat) (weight : Float)
  deriving DecidableEq

/-- The wording of an error. -/
def ReadError.message : ReadError → String
  | .header found => s!"expected the MARKOV header, found {Text.quoted found}"
  | .truncated part => s!"unexpected end of file while reading {part.description}"
  | .token word part => s!"invalid token {Text.quoted word} while reading {part.description}"
  | .emptyDomain id => s!"variable {id} has an empty domain"
  | .unknownVariable factor id count =>
    s!"factor {factor} mentions variable {id} but the network has {count} variables"
  | .duplicateVariable factor id => s!"factor {factor} mentions variable {id} twice"
  | .entryCount factor declared expected =>
    s!"factor {factor} declares {declared} entries but its scope has {expected} joint values"
  | .nonPositiveWeight factor entry weight =>
    s!"factor {factor} has the non-positive weight {Decimal.text weight} at entry {entry}"

/-! ## Section 2: A pair of files -/

/-- Why two files do not make up a problem. -/
inductive LoadError where
  /-- A file cannot be read. -/
  | unreadable (path : String) (reason : FileError)
  /-- A file does not hold a network. -/
  | malformed (e : ReadError)
  /-- The networks have different numbers of variables. -/
  | variableCount (constraint objective : Nat)
  /-- The networks give a variable different numbers of values. -/
  | domainMismatch (id constraint objective : Nat)
  deriving DecidableEq

/-- The wording of an error. -/
def LoadError.message : LoadError → String
  | .unreadable path reason => s!"could not read {path}: {reason.message}"
  | .malformed e => e.message
  | .variableCount constraint objective =>
    s!"the constraint network has {constraint} variables but the objective network has {objective}"
  | .domainMismatch id constraint objective =>
    s!"variable {id} has {constraint} values in the constraint network "
      ++ s!"but {objective} in the objective network"

end PairedMarkov.Uai
