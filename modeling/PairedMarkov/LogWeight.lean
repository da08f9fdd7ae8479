import PairedMarkov.Decimal.Reading
import PairedMarkov.Decimal.Text
import PairedMarkov.Weight

/-!
# Weights in double precision

A log-weight is a double. Among the values that are not a number it keeps a negative one apart from
a positive one, as the hardware does; the difference shows only where weights are sorted. The order
of sorting is, from below: the negative value that is not a number, negative infinity, the negative
numbers, negative zero, zero, the positive numbers, infinity, and the positive value that is not a
number.

An operation whose result is not a number takes the sign of its first operand that is not a number
either. If both operands are numbers, as for the difference of two infinities, the sign is minus.
-/

namespace PairedMarkov

/-- A double with a sign also where it is not a number. -/
structure LogWeight where
  /-- The double. -/
  value : Float
  /-- Whether this is the negative one of the two values that are not a number. -/
  isNegativeNaN : Bool
  /-- A number is not that one. -/
  isNaN_of_isNegativeNaN : isNegativeNaN = true → value.isNaN = true

namespace LogWeight

/-! ## Section 1: Making log-weights -/

/-- A double as a log-weight, with a sign in case it is not a number: minus if `negative`. -/
@[inline]
def signed (negative : Bool) (value : Float) : LogWeight :=
  ⟨value, value.isNaN && negative, fun h => (Bool.and_eq_true_iff.1 h).1⟩

/-- A double as a log-weight. -/
def ofFloat (value : Float) : LogWeight := signed false value

/-- The log-weight that a text stands for; its minus sign counts also if it is not a number. -/
def read (s : String) : Except Decimal.RealError LogWeight :=
  (Decimal.real s).map (signed (s.startsWith "-"))

/-- The shortest positional decimal that reads back as the number. -/
def text (a : LogWeight) : String := Decimal.text a.value

/-! ## Section 2: Arithmetic -/

/-- The sign of a result that is not a number: that of the first operand that is not a number, and
minus if both are numbers. -/
@[inline]
def resultSign (a b : LogWeight) : Bool :=
  if a.value.isNaN then a.isNegativeNaN else if b.value.isNaN then b.isNegativeNaN else true

/-- The sum. -/
def add (a b : LogWeight) : LogWeight := signed (resultSign a b) (a.value + b.value)

/-- The difference. -/
def sub (a b : LogWeight) : LogWeight := signed (resultSign a b) (a.value - b.value)

/-- The same with the other sign. -/
def neg (a : LogWeight) : LogWeight := signed (!a.isNegativeNaN) (-a.value)

/-! ## Section 3: The order of sorting -/

/-- A word for each log-weight, increasing in the order of sorting. The pattern of a positive
number gets its first bit set; that of a negative one has all its bits turned over. -/
def orderKey (a : LogWeight) : UInt64 :=
  if a.isNegativeNaN then 0
  else if a.value.toBits < 0x8000000000000000 then a.value.toBits + 0x8000000000000000
  else 0xffffffffffffffff - a.value.toBits

/-- Negative infinity. -/
def negativeInfinity : LogWeight := ofFloat (-1.0 / 0.0)

instance : Weight LogWeight where
  add := add
  sub := sub
  neg := neg
  zero := ofFloat 0.0
  one := ofFloat 1.0
  le a b := a.value ≤ b.value
  lt a b := a.value < b.value
  beq a b := a.value == b.value
  decLE a b := Float.decLe a.value b.value
  decLT a b := Float.decLt a.value b.value
  emptySum := ofFloat (-0.0)
  lowest := negativeInfinity
  sortsBefore a b := a.orderKey ≤ b.orderKey

end LogWeight

end PairedMarkov
