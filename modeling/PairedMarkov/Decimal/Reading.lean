/-!
# Reading numbers

The written forms that are accepted as natural numbers and as doubles, with the reasons for
refusing a text. Only ASCII digits count, and no blank is skipped.

* A natural number is an optional plus sign and at least one digit; it has to fit in a word.
* A double is an optional sign followed by `inf`, `infinity` or `nan` in any case, or by digits
  with at most one point among or around them and an optional exponent. It is rounded to nearest.
-/

namespace PairedMarkov.Decimal

/-! ## Section 1: Natural numbers -/

/-- Why a text is not a natural number. -/
inductive NaturalError where
  /-- There is nothing to read. -/
  | empty
  /-- A character is not a digit. -/
  | invalidDigit
  /-- The number does not fit in a word. -/
  | tooLarge
  deriving DecidableEq, Repr

/-- The wording of a reason. -/
def NaturalError.message : NaturalError → String
  | .empty => "cannot parse integer from empty string"
  | .invalidDigit => "invalid digit found in string"
  | .tooLarge => "number too large to fit in target type"

/-- The value of a digit character. -/
def digitValue (c : Char) : Nat := c.toNat - '0'.toNat

/-- Reads digits to the end, on top of the number read so far. The first character that is no
digit or makes the number too large decides. -/
def naturalFrom : Nat → List Char → Except NaturalError Nat
  | n, [] => .ok n
  | n, c :: rest =>
    if c.isDigit then
      let next := 10 * n + digitValue c
      if next < UInt64.size then naturalFrom next rest else .error .tooLarge
    else .error .invalidDigit

/-- The natural number that a text stands for. -/
def natural (s : String) : Except NaturalError Nat :=
  match s.toList with
  | [] => .error .empty
  | ['+'] => .error .invalidDigit
  | '+' :: digits => naturalFrom 0 digits
  | digits => naturalFrom 0 digits

/-! ## Section 2: Doubles -/

/-- Why a text is not a double. -/
inductive RealError where
  /-- There is nothing to read. -/
  | empty
  /-- The text has another form. -/
  | invalid
  deriving DecidableEq, Repr

/-- The wording of a reason. -/
def RealError.message : RealError → String
  | .empty => "cannot parse float from empty string"
  | .invalid => "invalid float literal"

/-- The number of a run of digits. -/
def digitsValue (digits : List Char) : Nat :=
  digits.foldl (fun n c => 10 * n + digitValue c) 0

/-- An optional sign, telling whether it is a minus, and what follows. -/
def signed : List Char → Bool × List Char
  | '+' :: rest => (false, rest)
  | '-' :: rest => (true, rest)
  | rest => (false, rest)

/-- The exponent at the end of a number: nothing, or a mark, an optional sign and digits. -/
def exponent? : List Char → Option Int
  | [] => some 0
  | mark :: rest =>
    let (negative, digits) := signed rest
    if (mark = 'e' ∨ mark = 'E') ∧ digits ≠ [] ∧ digits.all Char.isDigit then
      some (if negative then -digitsValue digits else digitsValue digits)
    else none

/-- A decimal as it is written: `coefficient * 10 ^ exponent`. -/
structure Written where
  coefficient : Nat
  exponent : Int
  deriving DecidableEq, Repr

/-- Digits with an optional point and an optional exponent. -/
def written? (cs : List Char) : Option Written :=
  let whole := cs.takeWhile Char.isDigit
  let (places, rest) :=
    match cs.dropWhile Char.isDigit with
    | '.' :: after => (after.takeWhile Char.isDigit, after.dropWhile Char.isDigit)
    | rest => ([], rest)
  if whole = [] ∧ places = [] then none
  else (exponent? rest).map fun e => ⟨digitsValue (whole ++ places), e - places.length⟩

/-- The double nearest to a written decimal. Far beyond the range of the type the answer is
infinity or zero, whatever the digits are. -/
def Written.toFloat (d : Written) : Float :=
  let magnitude := d.exponent + (Nat.toDigits 10 d.coefficient).length
  if d.coefficient = 0 ∨ magnitude < -400 then 0.0
  else if 400 < magnitude then 1.0 / 0.0
  else Float.ofScientific d.coefficient (d.exponent < 0) d.exponent.natAbs

/-- The double that unsigned characters stand for. -/
def unsigned? (cs : List Char) : Option Float :=
  let name := String.ofList (cs.map Char.toLower)
  if name = "inf" ∨ name = "infinity" then some (1.0 / 0.0)
  else if name = "nan" then some (0.0 / 0.0)
  else (written? cs).map Written.toFloat

/-- The double that a text stands for. -/
def real (s : String) : Except RealError Float :=
  if s.toList = [] then .error .empty
  else
    let (negative, rest) := signed s.toList
    match unsigned? rest with
    | some x => .ok (if negative then -x else x)
    | none => .error .invalid

end PairedMarkov.Decimal
