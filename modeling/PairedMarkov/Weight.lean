/-!
# Weights

Everything between the tables of a problem and the result of its search works over one type of
*weights*, of which it only needs a few operations. `LogWeight`, in double precision, is the type
that runs; its sums start at negative zero, the neutral element of its addition. A type with exact
arithmetic obeys the same program, and there the laws of an ordered group are available.

Comparisons are those of the type: for doubles they are false whenever one side is not a number.
Sorting needs a total order and has its own field, `sortsBefore`.
-/

namespace PairedMarkov

/-- The operations on weights that scoring, choosing and searching need. -/
class Weight (W : Type) extends Add W, Sub W, Neg W, Zero W, One W, LE W, LT W, BEq W where
  /-- The order can be tested. -/
  decLE : DecidableLE W
  /-- The strict order can be tested. -/
  decLT : DecidableLT W
  /-- The sum of no weights. -/
  emptySum : W
  /-- Stands below every weight; the score of a problem without a known solution. -/
  lowest : W
  /-- The total order by which weights are sorted. -/
  sortsBefore : W → W → Bool

instance Weight.decidableLE {W : Type} [Weight W] (a b : W) : Decidable (a ≤ b) := Weight.decLE a b

instance Weight.decidableLT {W : Type} [Weight W] (a b : W) : Decidable (a < b) := Weight.decLT a b

end PairedMarkov
