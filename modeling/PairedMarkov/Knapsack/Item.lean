import PairedMarkov.Weight

/-!
# Items and domination

A bin offers items, each with a cost and a profit, and one of them has to be chosen. An item is
*dominated* if an item that costs no more brings at least as much profit. Pruning keeps the items
that are not, in the order of their costs: of the sorted items, each one whose profit is above that
of every item before it. Along a pruned bin the profits strictly increase, and its first item is a
cheapest one.

Pruning works in place. One pass over the sorted items moves each item that is kept behind the kept
ones, where it changes places with an item that has been dropped; in the end the bin is cut off
behind the kept items.
-/

namespace PairedMarkov

/-- Something that can be chosen in a bin. -/
structure Item (W : Type) where
  /-- What choosing it takes from the budget. -/
  cost : W
  /-- What choosing it brings. -/
  profit : W
  /-- Its position in the bin as it was first offered. -/
  position : Nat

namespace Item

variable {W : Type}

/-- The items with the given costs and profits, at the positions from `first` on. -/
def offerFrom : (first : Nat) → List W → List W → List (Item W)
  | first, cost :: costs, profit :: profits =>
    ⟨cost, profit, first⟩ :: offerFrom (first + 1) costs profits
  | _, _, _ => []

/-- The items with the given costs and profits. -/
def offer (costs profits : List W) : List (Item W) := offerFrom 0 costs profits

/-- The bytes that one item takes in memory. -/
def bytes : Nat := 24

variable [Weight W]

/-- Items by increasing cost; items of equal cost stay in order. -/
def sortByCost (items : List (Item W)) : List (Item W) :=
  items.mergeSort fun a b => Weight.sortsBefore a.cost b.cost

/-- A sorted bin while it is pruned. -/
structure Sweep (W : Type) where
  /-- The items of the bin, the kept ones in front. -/
  items : Array (Item W)
  /-- The number of kept items. -/
  kept : Nat
  /-- The profit of the last kept item. -/
  best : W

/-- Keeps the item at a place if its profit is above that of the last kept item. -/
def Sweep.step (s : Sweep W) (place : Nat) : Sweep W :=
  match s.items[place]? with
  | some item =>
    if s.best < item.profit then
      ⟨s.items.swapIfInBounds s.kept place, s.kept + 1, item.profit⟩
    else s
  | none => s

/-- The items of a bin that are not dominated, by increasing cost. -/
def prune (items : List (Item W)) : List (Item W) :=
  match sortByCost items with
  | [] => []
  | first :: rest =>
    let swept := (List.range' 1 rest.length).foldl Sweep.step
      ⟨(first :: rest).toArray, 1, first.profit⟩
    (swept.items.take swept.kept).toList

end Item

end PairedMarkov
