import PairedMarkov.LogWeight
import PairedMarkov.Problem
import PairedMarkov.Text.Blank
import PairedMarkov.Uai.Error

/-!
# Reading networks

A network file is a sequence of words: the word `MARKOV`; the number of variables and the size of
each domain; the number of factors and the scope of each, as a length and that many variables; and
for every factor the number of its entries and the entries themselves, the first variable of the
scope changing the fastest. Entries are weights above zero, of which the natural logarithms are
kept. Words behind the last entry are not looked at.

A reader takes words from the front and never looks ahead. Announced counts reserve memory before
the counted things are read, and the scopes reserve it for the factors over them, which is a fault
when there cannot be so much.
-/

namespace PairedMarkov.Uai

/-! ## Section 1: Readers -/

/-- Takes some of the words and gives a value and the words left, or stops. -/
abbrev Reader (α : Type) := StateT (List String) (Except (Stop ReadError)) α

namespace Reader

/-- Stops at an error. -/
def fail {α : Type} (e : ReadError) : Reader α := throw (.error e)

/-- Carries out a check that may be a fault. -/
def check {α : Type} (x : Except Fault α) : Reader α := StateT.lift (orFault x)

/-- The next word, needed for a section. -/
def word (part : Part) : Reader String := fun
  | [] => .error (.error (.truncated part))
  | w :: rest => .ok (w, rest)

/-- The next word as a natural number. -/
def natural (part : Part) : Reader Nat := do
  let w ← word part
  match Decimal.natural w with
  | .ok n => pure n
  | .error _ => fail (.token w part)

/-- The next word as a double. -/
def real (part : Part) : Reader Float := do
  let w ← word part
  match Decimal.real w with
  | .ok x => pure x
  | .error _ => fail (.token w part)

/-- Reads `count` things one after the other, numbered from `index` on, and puts them behind those
read before. -/
def collect {α : Type} (read : Nat → Reader α) :
    (count index : Nat) → Array α → Reader (Array α)
  | 0, _, done => pure done
  | count + 1, index, done => do collect read count (index + 1) (done.push (← read index))

/-- Reads `count` things one after the other, numbered from zero. -/
def times {α : Type} (count : Nat) (read : Nat → Reader α) : Reader (Array α) :=
  collect read count 0 #[]

end Reader

/-! ## Section 2: The sections of a file -/

/-- The bytes that announced variables, scopes and numbers take. -/
def variableBytes : Nat := 24

/-- The bytes of a scope, besides those of its variables. -/
def scopeBytes : Nat := 24

/-- The bytes of one variable of a scope. -/
def memberBytes : Nat := 8

/-- The bytes of a factor, besides those of its scope and its entries. -/
def factorBytes : Nat := 48

/-- The word that announces a network. -/
def magic : String := "MARKOV"

open Reader

/-- The size of the domain of a variable. -/
def readDomain (id : Nat) : Reader Nat := do
  let size ← natural .domainSizes
  if size = 0 then fail (.emptyDomain id) else pure size

/-- The variables and the sizes of their domains. -/
def readDomains : Reader Domains := do
  let count ← natural .variableCount
  check (allocate variableBytes count)
  times count readDomain

/-- The remaining `count` variables of a scope that already has some, in a network of `total`
variables. -/
def readMembers (total factor : Nat) : (count : Nat) → Scope → Reader Scope
  | 0, scope => pure scope
  | count + 1, scope => do
    let id ← natural .scopes
    if total ≤ id then fail (.unknownVariable factor id total)
    else if scope.contains id then fail (.duplicateVariable factor id)
    else readMembers total factor count (scope ++ [id])

/-- The scope of a factor. -/
def readScope (total factor : Nat) : Reader Scope := do
  let count ← natural .scopes
  check (allocate memberBytes count)
  readMembers total factor count []

/-- The scopes of all factors. -/
def readScopes (total : Nat) : Reader (Array Scope) := do
  let count ← natural .factorCount
  check (allocate scopeBytes count)
  times count (readScope total)

/-- One entry of a factor: the logarithm of a weight above zero. -/
def readEntry (factor entry : Nat) : Reader LogWeight := do
  let weight ← real .entries
  if weight ≤ 0 ∨ weight.isNaN then fail (.nonPositiveWeight factor entry weight)
  else pure (.ofFloat weight.log)

/-- The factor of a number, whose scope is known. -/
def readFactor (domains : Domains) (scopes : Array Scope) (factor : Nat) :
    Reader (Factor LogWeight) := do
  let scope ← check (fetch scopes factor)
  let expected ← check (scope.size domains)
  let declared ← natural .entryCount
  if declared ≠ expected then fail (.entryCount factor declared expected)
  else
    check (allocate Factor.entryBytes expected)
    let table ← times expected (readEntry factor)
    check (Factor.ofTable domains scope table)

/-- The factors over the scopes that have been read. -/
def readFactors (domains : Domains) (scopes : Array Scope) : Reader (Array (Factor LogWeight)) := do
  check (allocate factorBytes scopes.size)
  times scopes.size (readFactor domains scopes)

/-! ## Section 3: Whole files -/

/-- The variables and the factors of a network. -/
def readNetwork : Reader (Domains × Network LogWeight) := do
  let first ← word .header
  if first ≠ magic then fail (.header first)
  else
    let domains ← readDomains
    let scopes ← readScopes domains.size
    let factors ← readFactors domains scopes
    pure (domains, ⟨factors⟩)

/-- The network that a text describes. -/
def parse (content : String) : Except (Stop ReadError) (Domains × Network LogWeight) :=
  (readNetwork.run (Text.words content)).map Prod.fst

/-- The first variable to which the two networks give different numbers of values. -/
def mismatch? (constraint objective : Domains) : Option LoadError :=
  (List.range constraint.size).findSome? fun id =>
    let c := constraint.getD id 0
    let o := objective.getD id 0
    if c = o then none else some (.domainMismatch id c o)

/-- The problem of two networks, which must have the same variables with the same domains. -/
def pair (constraint objective : Domains × Network LogWeight) :
    Except LoadError (Problem LogWeight) :=
  if constraint.1.size ≠ objective.1.size then
    .error (.variableCount constraint.1.size objective.1.size)
  else
    match mismatch? constraint.1 objective.1 with
    | some e => .error e
    | none => .ok ⟨constraint.1, constraint.2, objective.2⟩

end PairedMarkov.Uai
