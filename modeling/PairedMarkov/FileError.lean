import PairedMarkov.Fault

/-!
# Failing to read or write

The reasons for which a file cannot be read or written, with the wording of the system, and the
two ways in which a computation can stop: at an error that its input or its surroundings cause, or
at a fault of its own.
-/

namespace PairedMarkov

/-- Why a file cannot be read or written. -/
inductive FileError where
  /-- There is no such file, or no such folder on the way to it. -/
  | missing
  /-- Something on the way to the file is not a folder. -/
  | notFolder
  /-- A folder has the name of the file. -/
  | isFolder
  /-- The path, or a name in it, is too long. -/
  | nameTooLong
  /-- The path has a character that ends paths. -/
  | nameHasNull
  /-- The bytes of the file are not a text. -/
  | notText
  /-- A reason of another kind, in words. -/
  | other (reason : String)
  deriving DecidableEq, Repr

/-- The wording of a reason. -/
def FileError.message : FileError → String
  | .missing => "No such file or directory (os error 2)"
  | .notFolder => "Not a directory (os error 20)"
  | .isFolder => "Is a directory (os error 21)"
  | .nameTooLong => "File name too long (os error 36)"
  | .nameHasNull => "file name contained an unexpected NUL byte"
  | .notText => "stream did not contain valid UTF-8"
  | .other reason => reason

/-- Why a computation stops without a result. -/
inductive Stop (ε : Type) where
  /-- A promise between parts of the program is broken. -/
  | fault (f : Fault)
  /-- The input or the surroundings do not allow a result. -/
  | error (e : ε)

/-- Why a computation stops, as a part of one with another kind of errors. -/
def Stop.map {ε ε' : Type} (convert : ε → ε') : Stop ε → Stop ε'
  | .fault f => .fault f
  | .error e => .error (convert e)

/-- A checked computation as part of one that can also meet errors. -/
def orFault {ε α : Type} (x : Except Fault α) : Except (Stop ε) α :=
  x.mapError .fault

end PairedMarkov
