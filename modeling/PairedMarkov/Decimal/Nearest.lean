/-!
# Numbers near whole numbers

A number `m * 2 ^ e` is compared with whole numbers, and with distances that are powers of a tenth,
in exact arithmetic.
-/

namespace PairedMarkov.Decimal

/-- The distance of two natural numbers. -/
def distance (a b : Nat) : Nat := (a - b) + (b - a)

/-- The numerator of `m * 2 ^ e` over `binaryDenominator e`. -/
def binaryNumerator (m : Nat) (e : Int) : Nat := m * Nat.pow 2 e.toNat

/-- A power of two that makes every `m * 2 ^ e` whole. -/
def binaryDenominator (e : Int) : Nat := Nat.pow 2 (-e).toNat

/-- The whole number nearest to `m * 2 ^ e`, the upper one of two equally near ones. -/
def nearestWhole (m : Nat) (e : Int) : Nat :=
  (2 * binaryNumerator m e + binaryDenominator e) / (2 * binaryDenominator e)

/-- Whether `m * 2 ^ e` is less than `10 ^ (-places)` away from a whole number. -/
def isNear (places m : Nat) (e : Int) (whole : Nat) : Bool :=
  Nat.pow 10 places * distance (binaryNumerator m e) (whole * binaryDenominator e) <
    binaryDenominator e

end PairedMarkov.Decimal
