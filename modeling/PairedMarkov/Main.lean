import PairedMarkov.Command.Line
import PairedMarkov.Command.Run
import Std.Time.Zoned

/-!
# The program

The command line of the program: reads the command on it and carries it out on the files of the
machine. The log goes to the standard error stream, where only what matters most is shown.
-/

namespace PairedMarkov

/-! ## Section 1: Files of the machine -/

/-- The reason behind an error of the system. -/
def FileError.ofSystem : IO.Error → FileError
  | .noFileOrDirectory .. => .missing
  | .inappropriateType _ 20 _ => .notFolder
  | .inappropriateType _ 21 _ => .isFolder
  | .permissionDenied _ code details => .other s!"{details} (os error {code})"
  | .invalidArgument _ code details => .other s!"{details} (os error {code})"
  | .resourceExhausted _ code details => .other s!"{details} (os error {code})"
  | .otherError code details => .other s!"{details} (os error {code})"
  | e => .other e.toString

/-- An action on files, with the reason if it fails. -/
def attempt {α : Type} (action : IO α) : IO (Except FileError α) := do
  try
    return .ok (← action)
  catch e =>
    return .error (FileError.ofSystem e)

/-- The text of a file. -/
def readFile (path : String) : IO (Except FileError String) := do
  let content ← attempt do
    let handle ← IO.FS.Handle.mk path .read
    handle.readBinToEnd
  match content with
  | .error reason => return .error reason
  | .ok content =>
    match String.fromUTF8? content with
    | some text => return .ok text
    | none => return .error .notText

/-- Whether a path leads to a folder, which is something that cannot be read for that reason. -/
def isFolderPath (path : String) : IO Bool := do
  let byte ← attempt do
    let handle ← IO.FS.Handle.mk path .read
    handle.read 1
  match byte with
  | .error .isFolder => return true
  | _ => return false

/-! ## Section 2: Time and memory -/

/-- A number with at least so many digits. -/
def padded (digits : Nat) (n : Int) : String :=
  let text := s!"{n}"
  String.ofList (List.replicate (digits - text.length) '0') ++ text

/-- The local date and time of day. -/
def localTimestamp : IO String := do
  let now ← Std.Time.PlainDateTime.now
  let date := padded 4 now.year.toInt ++ padded 2 now.month.val ++ padded 2 now.day.val
  let time := padded 2 now.hour.val ++ padded 2 now.minute.val ++ padded 2 now.second.val
  return s!"{date}-{time}"

/-- The peak of the memory in use, in megabytes; zero if the system does not tell. -/
def peakMemory : IO Float := do
  match ← readFile "/proc/self/status" with
  | .error _ => return 0.0
  | .ok status =>
    let peak := (status.splitOn "\n").findSome? fun line =>
      match Text.words line with
      | ["VmHWM:", kilobytes, _] => (Decimal.natural kilobytes).toOption
      | _ => none
    return Float.ofNat (peak.getD 0) / 1024.0

/-! ## Section 3: The machine as a host -/

/-- The machine that the program runs on. -/
def machine : Command.Host IO where
  readText := readFile
  isFolder := isFolderPath
  create path := attempt (IO.FS.writeFile path "")
  append path text := attempt do
    let handle ← IO.FS.Handle.mk path .append
    handle.putStr text
    handle.flush
  print text := do
    let output ← IO.getStdout
    output.putStr text
    output.flush
  log level text := do
    if level = .info then IO.eprintln s!"[{level.text}] {text}"
  clock := IO.monoNanosNow
  timestamp := localTimestamp
  memory := peakMemory

/-- The version of the program. -/
def version : String := "0.1.0"

/-- What can be on a command line. -/
def usage : String := "\n".intercalate [
  "Usage: <COMMAND> [OPTIONS]",
  "",
  "Commands:",
  "  search -c <FILE> -o <FILE> -q <NUMBER> [-k <WIDTH>] [-t <SECONDS>] [-s <SEED>]",
  "         [--interval <SECONDS>] [--progress <PATH>] [--max-iterations <COUNT>]",
  "         [--restarts <COUNT>] [--moves <COUNT>] [--statistics]",
  "  export-mip -c <FILE> -o <FILE> -q <NUMBER> --output <FILE>",
  "  thresholds -m <FILE> [--samples <COUNT>] [-s <SEED>] [--output <FILE>]",
  "  help"]

/-- The exit status after a line that is no command, with what has to be said about it. -/
def refuse : Command.LineError → IO UInt32
  | .help => do
    IO.println usage
    return 0
  | .version => do
    IO.println version
    return 0
  | e => do
    IO.eprintln e.message
    IO.eprintln usage
    return 2

end PairedMarkov

open PairedMarkov in
/-- Carries out the command on the command line. -/
def main (words : List String) : IO UInt32 := do
  match PairedMarkov.Command.ofWords words with
  | .error e => refuse e
  | .ok command =>
    match ← (PairedMarkov.Command.run machine command).run with
    | .ok () => return 0
    | .error (.error failure) =>
      IO.eprintln s!"[ERROR] {failure.message}"
      return 1
    | .error (.fault f) =>
      IO.eprintln f.message
      return 101
