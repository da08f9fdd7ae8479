import PairedMarkov.LinearProgram.Basic
import PairedMarkov.LogWeight

/-!
# The text of a linear program

A program is written in sections under headings: the objective, the rows, the names of the
variables. A number that is almost whole is written as a whole one, any other with nine places. A
coefficient has a sign; it has nine places unless it is almost one or almost minus one.
-/

namespace PairedMarkov

/-! ## Section 1: Numbers -/

namespace LinearProgram

/-- The places of numbers that are not written as whole ones. -/
def places : Nat := 9

/-- A bound is almost whole if it is less than this power of a tenth away from a whole number. -/
def wholePlaces : Nat := 9

/-- A coefficient is almost one if it is less than this power of a tenth away from one. -/
def unitPlaces : Nat := 12

/-- A whole number with a sign, kept within the range of signed words. -/
def wholeText : Float.Model.UnpackedFloat.Sign → Nat → String
  | _, 0 => "0"
  | .positive, n + 1 => s!"{min (n + 1) (UInt64.size / 2 - 1)}"
  | .negative, n + 1 => s!"-{min (n + 1) (UInt64.size / 2)}"

/-- The text of a bound. -/
def boundText (x : LogWeight) : String :=
  match x.value.toModel.unpack with
  | .zero _ => "0"
  | .finite sign m e _ =>
    let whole := Decimal.nearestWhole m e
    if Decimal.isNear wholePlaces m e whole then wholeText sign whole
    else Decimal.fixed places x.value
  | _ => Decimal.fixed places x.value

/-- The text of a coefficient. -/
def coefficientText (x : LogWeight) : String :=
  match x.value.toModel.unpack with
  | .finite sign m e _ =>
    if Decimal.isNear unitPlaces m e 1 then
      match sign with
      | .positive => "+1"
      | .negative => "-1"
    else Decimal.signedFixed places x.value
  | _ => Decimal.signedFixed places x.value

end LinearProgram

/-! ## Section 2: Forms, rows and programs -/

/-- The text of a term. -/
def Term.text (t : Term LogWeight) : String :=
  s!"{LinearProgram.coefficientText t.coefficient} {t.name}"

/-- The text of a sum, which is a zero if there is no term. -/
def LinearForm.text (form : LinearForm LogWeight) : String :=
  if form.isEmpty then "+0" else " ".intercalate (form.map Term.text)

/-- The sign between the two sides of a row. -/
def Sense.text : Sense → String
  | .atMost => "<="
  | .equal => "="

/-- The line of a row. -/
def Row.text (r : Row LogWeight) : String :=
  s!" {r.name}: {LinearForm.text r.form} {r.sense.text} {LinearProgram.boundText r.bound}\n"

/-- The text of a program. -/
def LinearProgram.text (p : LinearProgram LogWeight) : String :=
  s!"Maximize\n obj: {LinearForm.text p.objective}\n"
    ++ "Subject To\n" ++ String.join (p.rows.map Row.text)
    ++ "Binary\n" ++ String.join (p.binaries.map fun name => s!" {name}\n")
    ++ "End\n"

end PairedMarkov
