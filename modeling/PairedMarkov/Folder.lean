import PairedMarkov.FileError

/-!
# Folders in memory

A folder with all files and folders below it, as a value. Commands that read and write files can be
run on it without a disk. A path is made of steps between slashes. It starts at the folder itself,
or at the root if it begins with a slash; it can also lead to the folders above. Of what lies
outside of the folder nothing is known, so it holds nothing.
-/

namespace PairedMarkov

/-! ## Section 1: Entries -/

/-- What can have a name in a folder. -/
inductive FolderEntry where
  /-- A file with its bytes. -/
  | file (content : ByteArray)
  /-- A folder; what it holds has entries of its own. -/
  | folder

/-- The entries below a folder, each under the names that lead to it. -/
structure Folder where
  entries : List (List String × FolderEntry)

namespace Folder

/-- The folder with nothing in it. -/
def empty : Folder := ⟨[]⟩

/-- The names between the slashes of a path. -/
def steps (path : String) : List String := path.splitOn "/"

/-- The steps that lead somewhere else. -/
def properSteps (path : String) : List String :=
  (steps path).filter fun step => step ≠ "" ∧ step ≠ "."

/-- The place of the root. -/
def root : List String := ["/"]

/-- The place above a place. Above the folder itself, and so on upwards, it has no name but `..`;
there is nothing above the root. -/
def above (place : List String) : List String :=
  if place = root then root
  else if place.all (· = "..") then place ++ [".."]
  else place.dropLast

/-- Whether a place is the folder itself, one above it, or the root. -/
def isAncestor (place : List String) : Bool := place = root || place.all (· = "..")

/-- What stands at a place. A place above an entry is a folder. -/
def find? (f : Folder) (place : List String) : Option FolderEntry :=
  match f.entries.find? fun entry => entry.1 = place with
  | some entry => some entry.2
  | none =>
    if isAncestor place ∨ f.entries.any fun entry => place.isPrefixOf entry.1 then some .folder
    else none

/-- The folder with something else at a place. -/
def put (f : Folder) (place : List String) (entry : FolderEntry) : Folder :=
  ⟨f.entries.filter (fun other => other.1 ≠ place) ++ [(place, entry)]⟩

/-- The folder with the given entries under their paths. -/
def ofEntries (entries : List (String × FolderEntry)) : Folder :=
  entries.foldl (fun f entry => f.put (properSteps entry.1) entry.2) empty

/-! ## Section 2: Following a path -/

/-- The bytes that a name can have. -/
def nameLimit : Nat := 255

/-- The bytes that a path can have. -/
def pathLimit : Nat := 4095

/-- The place that steps lead to. Every place on the way has to be a folder; the last one need not
exist. -/
def walk (f : Folder) : (place : List String) → List String → Except FileError (List String)
  | place, [] => .ok place
  | place, step :: rest =>
    match f.find? place with
    | none => .error .missing
    | some (.file _) => .error .notFolder
    | some .folder =>
      if step = "" ∨ step = "." then f.walk place rest
      else if step = ".." then f.walk (above place) rest
      else if nameLimit < step.utf8ByteSize then .error .nameTooLong
      else f.walk (place ++ [step]) rest

/-- Checks that a text can be a path. -/
def checkPath (path : String) : Except FileError Unit :=
  if path.contains '\x00' then .error .nameHasNull
  else if path = "" then .error .missing
  else if pathLimit < path.utf8ByteSize then .error .nameTooLong
  else .ok ()

/-- The place where a path starts. -/
def start (path : String) : List String := if path.startsWith "/" then root else []

/-- The place of a path. -/
def place (f : Folder) (path : String) : Except FileError (List String) := do
  checkPath path
  f.walk (start path) (steps path)

/-! ## Section 3: Reading and writing -/

/-- Whether a path leads to a folder. -/
def isFolder (f : Folder) (path : String) : Bool :=
  match f.place path with
  | .error _ => false
  | .ok place =>
    match f.find? place with
    | some .folder => true
    | _ => false

/-- The text of the file at a path. -/
def read (f : Folder) (path : String) : Except FileError String := do
  match f.find? (← f.place path) with
  | none => .error .missing
  | some .folder => .error .isFolder
  | some (.file content) =>
    match String.fromUTF8? content with
    | some text => .ok text
    | none => .error .notText

/-- The steps to the folder in which a path has its last step. -/
def parentSteps (path : String) : List String :=
  let proper := steps (path.dropEndWhile (· == '/')).toString
  proper.dropLast

/-- Makes an empty file at a path; a file that is there loses its content. A path that ends in a
slash asks for a folder. -/
def create (f : Folder) (path : String) : Except FileError Folder := do
  if path.endsWith "/" then
    checkPath path
    let parent ← f.walk (start path) (parentSteps path)
    match f.find? parent with
    | none => .error .missing
    | some (.file _) => .error .notFolder
    | some .folder => .error .isFolder
  else
    let place ← f.place path
    match f.find? place with
    | some .folder => .error .isFolder
    | _ => .ok (f.put place (.file ByteArray.empty))

/-- Adds a text at the end of the file at a path. -/
def append (f : Folder) (path text : String) : Except FileError Folder := do
  let place ← f.place path
  match f.find? place with
  | none => .error .missing
  | some .folder => .error .isFolder
  | some (.file content) => .ok (f.put place (.file (content ++ text.toUTF8)))

/-- The files below the folder that hold a text, by their paths. -/
def texts (f : Folder) : List (String × String) :=
  (f.entries.filter fun entry => !isAncestor (entry.1.take 1)).filterMap fun entry =>
    match entry.2 with
    | .folder => none
    | .file content =>
      (String.fromUTF8? content).map fun text => ("/".intercalate entry.1, text)

end Folder

end PairedMarkov
