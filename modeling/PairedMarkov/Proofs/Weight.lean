import Mathlib
import PairedMarkov.Weight

/-!
# Ordered weights

Comparing doubles is comparing in a linear order as long as both of them are numbers, and sorting
refines that order: it also tells negative zero from zero. Exact weights are in a linear order, all
of them. What pruning does needs no more than this, so it is stated for both at once.
-/

namespace PairedMarkov

/-- On the weights that are `proper`, the comparisons are those of a linear order up to equality,
and the order of sorting refines it. -/
structure Weight.OrderedOn (W : Type) [Weight W] (proper : W → Prop) : Prop where
  le_refl : ∀ {a : W}, proper a → a ≤ a
  le_of_lt : ∀ {a b : W}, a < b → a ≤ b
  le_of_not_lt : ∀ {a b : W}, proper a → proper b → ¬ a < b → b ≤ a
  lt_of_le_of_lt : ∀ {a b c : W}, a ≤ b → b < c → a < c
  le_of_sortsBefore : ∀ {a b : W}, proper a → proper b → Weight.sortsBefore a b = true → a ≤ b
  sortsBefore_trans : ∀ {a b c : W}, Weight.sortsBefore a b = true →
    Weight.sortsBefore b c = true → Weight.sortsBefore a c = true
  sortsBefore_total : ∀ a b : W, (Weight.sortsBefore a b || Weight.sortsBefore b a) = true

theorem Weight.OrderedOn.lt_trans {W : Type} [Weight W] {proper : W → Prop}
    (hW : Weight.OrderedOn W proper) {a b c : W} (hab : a < b) (hbc : b < c) : a < c :=
  hW.lt_of_le_of_lt (hW.le_of_lt hab) hbc

end PairedMarkov
