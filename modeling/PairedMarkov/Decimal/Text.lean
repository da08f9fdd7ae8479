import PairedMarkov.Decimal.Nearest
import PairedMarkov.Decimal.Shortest

/-!
# Decimal text of doubles

Two written forms of a double. `text` gives the shortest decimal that reads back as the double,
always positionally. `fixed` gives a set number of places, the exact value being rounded to
nearest, ties to even. Both write `inf`, `-inf` and `NaN`, and both keep the sign of zero.
-/

namespace PairedMarkov.Decimal

/-! ## Section 1: Placing the point -/

/-- The digits of `n` with a point before the last `places` of them. -/
def pointed (n places : Nat) : String :=
  let digits := Nat.toDigits 10 n
  let padded := List.replicate (places + 1 - digits.length) '0' ++ digits
  let whole := padded.take (padded.length - places)
  if places = 0 then String.ofList whole
  else String.ofList (whole ++ '.' :: padded.drop (padded.length - places))

/-- A scaled number, written positionally. -/
def Scaled.text (d : Scaled) : String :=
  if 0 ≤ d.exponent then pointed (d.coefficient * Nat.pow 10 d.exponent.toNat) 0
  else pointed d.coefficient (-d.exponent).toNat

/-! ## Section 2: Rounding -/

/-- The quotient of two numbers rounded to the nearest whole number, ties to even. -/
def roundToEven (numerator denominator : Nat) : Nat :=
  let quotient := numerator / denominator
  let rest := numerator % denominator
  if 2 * rest < denominator then quotient
  else if denominator < 2 * rest then quotient + 1
  else quotient + quotient % 2

/-- The multiple of `10 ^ (-places)` nearest to `m * 2 ^ e`, as a count of these. -/
def roundPlaces (places m : Nat) (e : Int) : Nat :=
  roundToEven (binaryNumerator m e * Nat.pow 10 places) (binaryDenominator e)

/-! ## Section 3: The written forms -/

/-- A minus sign for negative numbers. -/
def minus : Float.Model.UnpackedFloat.Sign → String
  | .negative => "-"
  | .positive => ""

/-- The shortest positional decimal that reads back as the double. -/
def text (x : Float) : String :=
  match x.toModel.unpack with
  | .notANumber => "NaN"
  | .infinity sign => minus sign ++ "inf"
  | .zero sign => minus sign ++ "0"
  | .finite sign m e _ => minus sign ++ (shortest m e).text

/-- The double with a fixed number of places. -/
def fixed (places : Nat) (x : Float) : String :=
  match x.toModel.unpack with
  | .notANumber => "NaN"
  | .infinity sign => minus sign ++ "inf"
  | .zero sign => minus sign ++ pointed 0 places
  | .finite sign m e _ => minus sign ++ pointed (roundPlaces places m e) places

/-- As `fixed`, with a plus sign in front of everything that has no minus sign and is a number. -/
def signedFixed (places : Nat) (x : Float) : String :=
  let written := fixed places x
  if x.isNaN ∨ written.startsWith "-" then written else "+" ++ written

end PairedMarkov.Decimal
