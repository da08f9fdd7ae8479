/-!
# Shortest decimals

A double stands for all the numbers that round to it. Among the decimals in that interval the
*shortest* one lies on the coarsest grid `10 ^ k` that meets the interval; of two grid points in
the interval the nearer is taken, and the upper one when both are equally near.

The search walks the grids from coarse to fine. Only the two grid points around the double need
to be looked at: if any point of a grid lies in the interval, one of these two does.

All arithmetic is exact. The double `m * 2 ^ e` is written `4 * m` in units of `2 ^ (e - 2)`, so
that the ends of its interval are whole numbers of units too.
-/

namespace PairedMarkov.Decimal

/-! ## Section 1: The interval of a double -/

/-- The numbers that round to a double, in units of `2 ^ unit`. -/
structure Interval where
  /-- The lower end. -/
  low : Nat
  /-- The double itself. -/
  middle : Nat
  /-- The upper end. -/
  high : Nat
  /-- The exponent of the unit. -/
  unit : Int
  /-- Whether the ends round to the double as well. -/
  closed : Bool

/-- The interval of the double `m * 2 ^ e`. The gap below a power of two is half as wide, except
at the smallest exponent; a tie rounds to the double whose `m` is even. -/
def Interval.ofDouble (m : Nat) (e : Int) : Interval where
  low := if m = Nat.pow 2 52 ∧ e ≠ -1074 then 4 * m - 1 else 4 * m - 2
  middle := 4 * m
  high := 4 * m + 2
  unit := e - 2
  closed := m % 2 = 0

/-! ## Section 2: One grid -/

/-- The number `coefficient * 10 ^ exponent`. -/
structure Scaled where
  coefficient : Nat
  exponent : Int
  deriving DecidableEq, Repr

/-- Whether `c` steps of a grid lie in the interval, where one step is `step` and one unit of the
interval is `unit` in a common measure. -/
def Interval.holds (i : Interval) (unit step c : Nat) : Bool :=
  if i.closed then i.low * unit ≤ c * step ∧ c * step ≤ i.high * unit
  else i.low * unit < c * step ∧ c * step < i.high * unit

/-- The point of the grid `10 ^ k` in the interval that is nearest to its middle, if there is
one; the upper of two equally near ones. -/
def Interval.nearest? (i : Interval) (k : Int) : Option Nat :=
  let unit := Nat.pow 2 i.unit.toNat * Nat.pow 10 (-k).toNat
  let step := Nat.pow 10 k.toNat * Nat.pow 2 (-i.unit).toNat
  let value := i.middle * unit
  let below := value / step
  let above := below + 1
  if i.holds unit step above ∧
      (above * step - value ≤ value - below * step ∨ ¬ i.holds unit step below) then some above
  else if i.holds unit step below then some below else none

/-! ## Section 3: From coarse to fine -/

/-- The point found on the first of `steps + 1` grids, starting at `10 ^ k` and refining tenfold
each time, that meets the interval; zero if none does. -/
def Interval.refine (i : Interval) : Nat → Int → Scaled
  | 0, k => ⟨(i.nearest? k).getD 0, k⟩
  | steps + 1, k =>
    match i.nearest? k with
    | some c => ⟨c, k⟩
    | none => i.refine steps (k - 1)

/-- An exponent of ten that no number below `2 ^ bits` reaches. -/
def decimalBound (bits : Int) : Int := bits * 30103 / 100000 + 1

/-- The shortest decimal that rounds to the double `m * 2 ^ e`. Twenty grids below one that is too
coarse, seventeen digits are available, and these always suffice. -/
def shortest (m : Nat) (e : Int) : Scaled :=
  (Interval.ofDouble m e).refine 20 (decimalBound (m.log2 + 1 + e))

end PairedMarkov.Decimal
