import PairedMarkov.Command.Run
import PairedMarkov.Folder

/-!
# Running commands in memory

A desk is a host that is a value: a folder in memory, what has been logged and printed, and a clock
that stands still.
-/

namespace PairedMarkov.Command

/-- A folder to work in, with what commands have told. -/
structure Desk where
  folder : Folder
  /-- What the clock shows. -/
  time : Duration := 0
  /-- The time in the names of files. -/
  timestamp : String := ""
  /-- The lines of the log. -/
  log : Array (LogLevel × String) := #[]
  /-- The output. -/
  printed : String := ""

namespace Desk

/-- Changes the folder, if that is possible. -/
def change (f : Folder → Except FileError Folder) : StateM Desk (Except FileError Unit) :=
  fun desk =>
    match f desk.folder with
    | .ok folder => (.ok (), { desk with folder })
    | .error reason => (.error reason, desk)

/-- The host that works on a desk. -/
def host : Host (StateM Desk) where
  readText path := fun desk => (desk.folder.read path, desk)
  isFolder path := fun desk => (desk.folder.isFolder path, desk)
  create path := change fun folder => folder.create path
  append path text := change fun folder => folder.append path text
  print text := fun desk => ((), { desk with printed := desk.printed ++ text })
  log level text := fun desk => ((), { desk with log := desk.log.push (level, text) })
  clock := fun desk => (desk.time, desk)
  timestamp := fun desk => (desk.timestamp, desk)
  memory := pure 0.0

end Desk

end PairedMarkov.Command
