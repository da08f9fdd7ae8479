import PairedMarkov.Proofs.Knapsack.Pruning
import PairedMarkov.Proofs.LogWeight

/-!
# Pruned bins are staircases

Along a pruned bin the costs do not decrease and the profits increase. The items that make it up can
be told without the sweep: they are the *records* of the sorted bin, the items that bring more than
all items before them. So nothing is lost for a choice of one item from each bin: every item of the
bin is dominated by a record, which can take its place.

Main statements:
- `Item.prune_eq_records`: the items that the sweep keeps are the records of the sorted bin;
- `Item.staircase_prune`: what pruning leaves of a bin, over weights that can be compared;
- `Item.prune_exact`: the same for numbers in double precision, and that over exact weights a best
  choice from the pruned bins is a best choice from all items.
-/

namespace PairedMarkov

/-! ## Section 1: Stable sorting -/

/-- Whether an order does not tell two items apart. -/
def tied {α : Type} (before : α → α → Bool) (a b : α) : Bool := before a b && before b a

/-- The second list is the first one in a given order, where items that are tied stay as they were. -/
structure StableSort {α : Type} (before : α → α → Bool) (items sorted : List α) : Prop where
  perm : sorted.Perm items
  ordered : sorted.Pairwise fun a b => before a b = true
  stable : ∀ item, sorted.filter (tied before item) = items.filter (tied before item)

section StableSorts

variable {α : Type} {before : α → α → Bool} {items sorted : List α}
  (htrans : ∀ a b c, before a b = true → before b c = true → before a c = true)
  (htotal : ∀ a b, (before a b || before b a) = true)

include htrans htotal

theorem stableSort_mergeSort (items : List α) : StableSort before items (items.mergeSort before) where
  perm := List.mergeSort_perm ..
  ordered := List.pairwise_mergeSort htrans htotal items
  stable item := by
    -- tied items are in order as they are, so that none overtakes another
    have hsame : (items.filter (tied before item)).Pairwise fun a b => before a b = true := by
      apply List.pairwise_of_forall_mem_list
      intro a ha b hb
      simp only [List.mem_filter, tied, Bool.and_eq_true] at ha hb
      exact htrans a item b ha.2.2 hb.2.1
    have hsublist := List.sublist_mergeSort htrans htotal hsame List.filter_sublist
    have hfilter := hsublist.filter (tied before item)
    have hlength := ((List.mergeSort_perm items before).filter (tied before item)).length_eq
    rw [List.filter_filter] at hfilter
    simp only [Bool.and_self] at hfilter
    exact (hfilter.eq_of_length hlength.symm).symm

/-- A stable sort begins with the first of the least items. -/
theorem StableSort.head?_eq_find? (h : StableSort before items sorted) :
    sorted.head? = items.find? fun item => items.all fun other => before item other := by
  cases hsorted : sorted with
  | nil =>
    have hitems : items = [] := (hsorted ▸ h.perm).nil_eq.symm
    rw [hitems]
    rfl
  | cons first rest =>
    have hmem : first ∈ items := h.perm.mem_iff.1 (hsorted ▸ List.mem_cons_self)
    have hrefl : before first first = true := by simpa using htotal first first
    have hfirst : ∀ other ∈ items, before first other = true := by
      intro other hother
      have hordered := h.ordered
      rw [← h.perm.mem_iff, hsorted] at hother
      rw [hsorted] at hordered
      rcases List.mem_cons.1 hother with rfl | hother
      · exact hrefl
      · exact (List.pairwise_cons.1 hordered).1 other hother
    -- the least items are those that the first one is tied with
    have hleast : (items.filter fun item => items.all fun other => before item other) =
        items.filter (tied before first) := by
      apply List.filter_congr
      intro item hitem
      rw [tied, Bool.eq_iff_iff, List.all_eq_true, Bool.and_eq_true]
      constructor
      · intro hall
        exact ⟨hfirst item hitem, hall first hmem⟩
      · rintro ⟨-, hle⟩ other hother
        exact htrans item first other hle (hfirst other hother)
    rw [← List.head?_filter, hleast, ← h.stable, hsorted]
    simp [tied, hrefl]

end StableSorts

namespace Item

/-! ## Section 2: Records -/

section Records

variable {W : Type} [Weight W] {proper : W → Prop} {items : List (Item W)}

/-- Whether an item brings more than all items of a list before its place. -/
def isRecord (items : List (Item W)) (entry : Item W × Nat) : Bool :=
  (items.take entry.2).all fun earlier => earlier.profit < entry.1.profit

/-- The items of a list that bring more than all items before them. -/
def records (items : List (Item W)) : List (Item W) :=
  (items.zipIdx.filter (isRecord items)).map Prod.fst

theorem isRecord_iff (before rest : List (Item W)) (item : Item W) :
    isRecord (before ++ rest) (item, before.length) = true ↔
      ∀ earlier ∈ before, earlier.profit < item.profit := by
  simp [isRecord]

/-- What pruning leaves of a bin. -/
structure Staircase (items kept : List (Item W)) : Prop where
  /-- The items of the bin are sorted by cost, those of equal cost in their order, -/
  sorted : StableSort (fun a b => Weight.sortsBefore a.cost b.cost) items (sortByCost items)
  /-- and each one is kept whose profit is above that of all items before it. -/
  kept_eq : kept = records (sortByCost items)
  /-- The first item is the first of the cheapest ones. -/
  head_eq : kept.head? =
    items.find? fun item => items.all fun other => Weight.sortsBefore item.cost other.cost
  nonempty : kept ≠ []
  /-- Costs do not decrease and profits increase. -/
  climbs : kept.Pairwise fun a b => a.cost ≤ b.cost ∧ a.profit < b.profit
  /-- Whatever goes is dominated by something that stays. -/
  dominates : ∀ item ∈ items, ∃ other ∈ kept, other.cost ≤ item.cost ∧ item.profit ≤ other.profit

variable (hW : Weight.OrderedOn W proper)

include hW

/-- The items that are kept among those to come are records, if the best profit so far is exceeded
by whatever exceeds all items before. -/
private theorem climbing_eq_filter (before : List (Item W)) {rest : List (Item W)} {best : W}
    (hbest : proper best) (hrest : Proper proper rest)
    (hexceeds : ∀ profit, proper profit →
      (best < profit ↔ ∀ earlier ∈ before, earlier.profit < profit)) :
    climbing best rest =
      ((rest.zipIdx before.length).filter (isRecord (before ++ rest))).map Prod.fst := by
  induction rest generalizing before best with
  | nil => rfl
  | cons item rest ih =>
    have hproper := (hrest item List.mem_cons_self).2
    have hrecord := isRecord_iff before (item :: rest) item
    have hlist : before ++ item :: rest = (before ++ [item]) ++ rest := by simp
    have hlength : before.length + 1 = (before ++ [item]).length := by simp
    rw [← hexceeds item.profit hproper] at hrecord
    rw [climbing, List.zipIdx_cons, List.filter_cons]
    by_cases hlt : best < item.profit
    · rw [if_pos hlt, if_pos (hrecord.2 hlt), List.map_cons, hlist, hlength]
      -- the item takes over, being above all items before
      congr 1
      apply ih (before ++ [item]) hproper hrest.tail
      intro profit _
      simp only [List.forall_mem_append, List.forall_mem_singleton]
      constructor
      · intro hprofit
        refine ⟨fun earlier hearlier => ?_, hprofit⟩
        exact hW.lt_trans ((hexceeds item.profit hproper).1 hlt earlier hearlier) hprofit
      · exact And.right
    · rw [if_neg hlt, if_neg (mt hrecord.1 hlt), hlist, hlength]
      -- the item is not above the best profit so far, which therefore stays
      apply ih (before ++ [item]) hbest hrest.tail
      intro profit hprofit
      simp only [List.forall_mem_append, List.forall_mem_singleton, ← hexceeds profit hprofit]
      constructor
      · intro hexceed
        exact ⟨hexceed, hW.lt_of_le_of_lt (hW.le_of_not_lt hbest hproper hlt) hexceed⟩
      · exact And.left

/-- What is kept exceeds the best profit so far, and each kept item those before it. -/
private theorem pairwise_climbing (best : W) (items : List (Item W)) :
    (∀ item ∈ climbing best items, best < item.profit) ∧
      (climbing best items).Pairwise fun a b => a.profit < b.profit := by
  induction items generalizing best with
  | nil => simp [climbing]
  | cons item items ih =>
    rw [climbing]
    split
    · rename_i hlt
      obtain ⟨hexceed, hpairwise⟩ := ih item.profit
      refine ⟨?_, List.pairwise_cons.2 ⟨hexceed, hpairwise⟩⟩
      rw [List.forall_mem_cons]
      exact ⟨hlt, fun other hother => hW.lt_trans hlt (hexceed other hother)⟩
    · exact ih best

theorem prune_pairwise_profit (items : List (Item W)) :
    (prune items).Pairwise fun a b => a.profit < b.profit := by
  rw [prune_eq]
  cases sortByCost items with
  | nil => exact List.Pairwise.nil
  | cons first rest => exact List.pairwise_cons.2 (pairwise_climbing hW first.profit rest)

theorem stableSort_sortByCost (items : List (Item W)) :
    StableSort (fun a b => Weight.sortsBefore a.cost b.cost) items (sortByCost items) := by
  apply stableSort_mergeSort
  · exact fun a b c => hW.sortsBefore_trans
  · exact fun a b => hW.sortsBefore_total a.cost b.cost

/-- What is kept first is the first of the cheapest items. -/
theorem head?_prune_eq_find? (items : List (Item W)) : (prune items).head? =
    items.find? fun item => items.all fun other => Weight.sortsBefore item.cost other.cost := by
  rw [head?_prune]
  apply (stableSort_sortByCost hW items).head?_eq_find?
  · exact fun a b c => hW.sortsBefore_trans
  · exact fun a b => hW.sortsBefore_total a.cost b.cost

variable (hitems : Proper proper items)

include hitems

theorem prune_eq_records : prune items = records (sortByCost items) := by
  have hproper := hitems.sortByCost
  rw [prune_eq]
  cases hsorted : sortByCost items with
  | nil => rfl
  | cons first rest =>
    rw [hsorted] at hproper
    have hclimbing := climbing_eq_filter hW [first]
      (hproper first List.mem_cons_self).2 hproper.tail (fun profit _ => by simp)
    have hfirst : isRecord (first :: rest) (first, 0) = true := rfl
    rw [records, List.zipIdx_cons, List.filter_cons, if_pos hfirst, List.map_cons]
    exact congrArg _ hclimbing

/-- **Pruning** leaves a staircase. -/
theorem staircase_prune (h : items ≠ []) : Staircase items (prune items) where
  sorted := stableSort_sortByCost hW items
  kept_eq := prune_eq_records hW hitems
  head_eq := head?_prune_eq_find? hW items
  nonempty := prune_ne_nil h
  climbs := by
    have hcost := (sortByCost_sorted hW hitems).sublist (prune_sublist items)
    exact hcost.and (prune_pairwise_profit hW items)
  dominates _ hitem := exists_mem_prune hW hitems hitem

end Records

end Item

/-! ## Section 3: Choices from bins -/

namespace Knapsack

variable {R : Type} [Ring R] [LinearOrder R] {α : Type} {cost profit : α → Exact R}
  {bins bins' : List (List α)} {picks : List α} {budget : Exact R}

/-- The choices of one option from each bin that a budget allows. -/
def choicesWithin (cost : α → Exact R) (bins : List (List α)) (budget : Exact R) : List (List α) :=
  bins.sections.filter fun picks => (picks.map cost).sum ≤ budget

/-- The greatest profit of these choices, if there are any. -/
def bestWithin (cost profit : α → Exact R) (bins : List (List α)) (budget : Exact R) :
    Option (Exact R) :=
  ((choicesWithin cost bins budget).map fun picks => (picks.map profit).sum).max?

theorem mem_choicesWithin_iff : picks ∈ choicesWithin cost bins budget ↔
    List.Forall₂ (· ∈ ·) picks bins ∧ (picks.map cost).sum ≤ budget := by
  simp [choicesWithin, List.mem_sections]

theorem bestWithin_eq_some_iff {best : Exact R} : bestWithin cost profit bins budget = some best ↔
    (∃ picks ∈ choicesWithin cost bins budget, (picks.map profit).sum = best) ∧
      ∀ picks ∈ choicesWithin cost bins budget, (picks.map profit).sum ≤ best := by
  rw [bestWithin, List.max?_eq_some_iff, List.mem_map, List.forall_mem_map]

/-- Every option of a bin is dominated by one of another bin. -/
def Dominates (cost profit : α → Exact R) (bin bin' : List α) : Prop :=
  ∀ a ∈ bin, ∃ b ∈ bin', cost b ≤ cost a ∧ profit a ≤ profit b

variable [IsStrictOrderedRing R]

/-- Choices are dominated if the options of each bin are. -/
theorem exists_sections_dominating (h : List.Forall₂ (Dominates cost profit) bins bins')
    (hpicks : List.Forall₂ (· ∈ ·) picks bins) :
    ∃ picks', List.Forall₂ (· ∈ ·) picks' bins' ∧ (picks'.map cost).sum ≤ (picks.map cost).sum ∧
      (picks.map profit).sum ≤ (picks'.map profit).sum := by
  induction h generalizing picks with
  | nil =>
    rw [List.forall₂_nil_right_iff] at hpicks
    exact ⟨[], .nil, by simp [hpicks]⟩
  | cons hbin _ ih =>
    obtain ⟨a, rest, ha, hrest, rfl⟩ := List.forall₂_cons_right_iff.1 hpicks
    -- the choice is made bin by bin
    obtain ⟨b, hb, hcost, hprofit⟩ := hbin a ha
    obtain ⟨rest', hrest', hcosts, hprofits⟩ := ih hrest
    refine ⟨b :: rest', .cons hb hrest', ?_, ?_⟩
    · simpa using add_le_add hcost hcosts
    · simpa using add_le_add hprofit hprofits

theorem exists_choicesWithin_dominating (h : List.Forall₂ (Dominates cost profit) bins bins')
    (hpicks : picks ∈ choicesWithin cost bins budget) :
    ∃ picks' ∈ choicesWithin cost bins' budget, (picks.map profit).sum ≤ (picks'.map profit).sum := by
  rw [mem_choicesWithin_iff] at hpicks
  obtain ⟨picks', hpicks', hcost, hprofit⟩ := exists_sections_dominating h hpicks.1
  exact ⟨picks', mem_choicesWithin_iff.2 ⟨hpicks', hcost.trans hpicks.2⟩, hprofit⟩

theorem choicesWithin_ne_nil (h : List.Forall₂ (Dominates cost profit) bins bins')
    (hne : choicesWithin cost bins budget ≠ []) : choicesWithin cost bins' budget ≠ [] := by
  obtain ⟨picks, hpicks⟩ := List.exists_mem_of_ne_nil _ hne
  obtain ⟨picks', hpicks', -⟩ := exists_choicesWithin_dominating h hpicks
  exact List.ne_nil_of_mem hpicks'

theorem bestWithin_eq_some (h : List.Forall₂ (Dominates cost profit) bins bins')
    (h' : List.Forall₂ (Dominates cost profit) bins' bins) {best : Exact R}
    (hbest : bestWithin cost profit bins budget = some best) :
    bestWithin cost profit bins' budget = some best := by
  obtain ⟨⟨picks, hpicks, rfl⟩, hmax⟩ := bestWithin_eq_some_iff.1 hbest
  have hmax' : ∀ picks' ∈ choicesWithin cost bins' budget,
      (picks'.map profit).sum ≤ (picks.map profit).sum := by
    intro picks' hpicks'
    obtain ⟨other, hother, hprofit⟩ := exists_choicesWithin_dominating h' hpicks'
    exact hprofit.trans (hmax other hother)
  -- the choice that dominates a best one brings no less, and no more either
  obtain ⟨picks', hpicks', hprofit⟩ := exists_choicesWithin_dominating h hpicks
  apply bestWithin_eq_some_iff.2
  exact ⟨⟨picks', hpicks', (hmax' picks' hpicks').antisymm hprofit⟩, hmax'⟩

end Knapsack

namespace Item

open Knapsack

variable {R : Type} [Ring R] [LinearOrder R]

theorem forall₂_dominates_prune (bins : List (List (Item (Exact R)))) :
    List.Forall₂ (Dominates cost profit) bins (bins.map prune) := by
  rw [List.forall₂_map_right_iff, List.forall₂_same]
  exact fun items _ item hitem =>
    exists_mem_prune Exact.orderedOn (proper_true items) hitem

theorem forall₂_prune_dominates (bins : List (List (Item (Exact R)))) :
    List.Forall₂ (Dominates cost profit) (bins.map prune) bins := by
  rw [List.forall₂_map_left_iff, List.forall₂_same]
  exact fun items _ item hitem => ⟨item, mem_of_mem_prune hitem, le_rfl, le_rfl⟩

/-- **Pruning is exact.** In double precision, of items whose costs and profits are numbers, it
leaves the staircase of the records of the sorted bin. Over exact weights the pruned bins allow a
choice within a budget exactly if the bins do, and a best choice brings the same. -/
theorem prune_exact (R : Type) [Ring R] [LinearOrder R] [IsStrictOrderedRing R]
    {items : List (Item LogWeight)} (h : items ≠ [])
    (hnumber : Proper (fun a => a.value.isNaN = false) items) :
    Staircase items (prune items) ∧
      ∀ (bins : List (List (Item (Exact R)))) (budget : Exact R),
        (choicesWithin cost (bins.map prune) budget ≠ [] ↔ choicesWithin cost bins budget ≠ []) ∧
          bestWithin cost profit (bins.map prune) budget = bestWithin cost profit bins budget := by
  refine ⟨staircase_prune LogWeight.orderedOn hnumber h, fun bins budget => ⟨?_, ?_⟩⟩
  · have hprune := forall₂_prune_dominates bins
    exact ⟨choicesWithin_ne_nil hprune, choicesWithin_ne_nil (forall₂_dominates_prune bins)⟩
  · apply Option.ext
    intro best
    exact ⟨bestWithin_eq_some (forall₂_prune_dominates bins) (forall₂_dominates_prune bins),
      bestWithin_eq_some (forall₂_dominates_prune bins) (forall₂_prune_dominates bins)⟩

/-- A dear item that brings little, and two cheap ones. -/
def threeItems : List (Item LogWeight) :=
  offer [.ofFloat 2.0, .ofFloat 1.0, .ofFloat 1.0] [.ofFloat 3.0, .ofFloat 2.0, .ofFloat 5.0]

/-- Two bins of two items each. -/
def twoBins : List (List (Item (Exact ℤ))) :=
  [offer [.number 2, .number 1] [.number 5, .number 2],
    offer [.number 1, .number 2] [.number 4, .number 4]]

theorem staircase_threeItems : threeItems ≠ [] ∧
    Proper (fun a => a.value.isNaN = false) threeItems ∧ Staircase threeItems (prune threeItems) ∧
    bestWithin cost profit (twoBins.map prune) (.number 3) = some (.number 9) := by
  have hne : threeItems ≠ [] := by simp [threeItems, offer, offerFrom]
  have hnumber : ∀ item ∈ threeItems, item.cost.value.isNaN = false ∧
      item.profit.value.isNaN = false := by decide
  have hbest : bestWithin cost profit twoBins (.number 3) = some (.number 9) := by decide
  obtain ⟨hstaircase, hexact⟩ := prune_exact ℤ hne hnumber
  obtain ⟨-, hsame⟩ := hexact twoBins (.number 3)
  exact ⟨hne, hnumber, hstaircase, hsame.trans hbest⟩

end Item

end PairedMarkov
