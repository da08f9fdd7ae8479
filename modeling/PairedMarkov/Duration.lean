import PairedMarkov.Decimal.Text
import PairedMarkov.Decimal.Reading

/-!
# Lengths of time

A length of time is a number of nanoseconds. It is shown in seconds with three places, and read
from a number of seconds that is neither negative nor too large to count, rounded to the nearest
nanosecond, ties to even.
-/

namespace PairedMarkov

/-- A length of time, in nanoseconds. -/
abbrev Duration := Nat

namespace Duration

/-- The nanoseconds of a second. -/
def second : Nat := 1000000000

/-- So many seconds. -/
def ofSeconds (n : Nat) : Duration := n * second

/-- The seconds as a double: the whole ones plus the rounded fraction. -/
def toSeconds (d : Duration) : Float :=
  Float.ofNat (d / second) + Float.ofNat (d % second) / Float.ofNat second

/-- The seconds with three places. -/
def text (d : Duration) : String := Decimal.fixed 3 d.toSeconds

/-- Why a number of seconds is not a length of time. -/
inductive Error where
  /-- It is not a number of seconds at all. -/
  | number (e : Decimal.RealError)
  /-- It is below zero. -/
  | negative
  /-- It is too large, or not a number. -/
  | tooLarge
  deriving DecidableEq, Repr

/-- The wording of a reason. -/
def Error.message : Error → String
  | .number e => e.message
  | .negative => "cannot convert float seconds to Duration: value is negative"
  | .tooLarge => "cannot convert float seconds to Duration: value is either too big or NaN"

/-- The length of a number of seconds. -/
def ofReal (seconds : Float) : Except Error Duration :=
  if seconds < 0 then .error .negative
  else
    match seconds.toModel.unpack with
    | .zero _ => .ok 0
    | .finite _ m e _ =>
      if Decimal.binaryNumerator m e < UInt64.size * Decimal.binaryDenominator e then
        .ok (Decimal.roundPlaces 9 m e)
      else .error .tooLarge
    | _ => .error .tooLarge

/-- The length of time that a text gives in seconds. -/
def read (s : String) : Except Error Duration :=
  match Decimal.real s with
  | .ok seconds => ofReal seconds
  | .error e => .error (.number e)

end Duration

end PairedMarkov
