import PairedMarkov.Proofs.Knapsack.Choices

/-!
# Selections of the knapsack

A selection keeps its total cost and profit up to date by exchanging what one bin held for what it
holds now. Over exact weights the totals are right at every moment, because only numbers are ever
taken away. Every selection that the heuristic goes through lies within the budget and brings at
least the profit of the one it started from; the baseline is a cheapest selection of all.

Main statements:
- `Selection.keeps_fits`: exchanges keep sound totals, the budget and the profit;
- `Knapsack.exists_solve_fits`: the heuristic always answers, and what its answer means;
- `Knapsack.cost_cheapest_le`: no choice of offered items costs less than the baseline.
-/

namespace PairedMarkov

namespace Knapsack

/-! ## Section 1: Totals of choices -/

variable {R : Type} [Ring R] [LinearOrder R]

/-- A knapsack with an item in every bin, all of whose costs and profits are numbers. -/
structure Valid (k : Knapsack (Exact R)) : Prop where
  nonempty : ∀ bin < k.bins.size, 0 < k.binSize bin
  cost : ∀ bin < k.bins.size, ∀ place < k.binSize bin, (k.itemAt bin place).cost.IsNumber
  profit : ∀ bin < k.bins.size, ∀ place < k.binSize bin, (k.itemAt bin place).profit.IsNumber

/-- The total of one quantity over the items of a choice. -/
def total (k : Knapsack (Exact R)) (quantity : Item (Exact R) → Exact R) (chosen : Array Nat) :
    Exact R :=
  ∑ bin ∈ Finset.range k.bins.size, quantity (k.held chosen bin)

variable {k : Knapsack (Exact R)} {quantity : Item (Exact R) → Exact R} {chosen : Array Nat}

/-- Exchanging one item keeps a total right. -/
theorem total_set (h : k.Choice chosen) {bin : Nat} (hbin : bin < k.bins.size)
    (hnumber : (quantity (k.held chosen bin)).IsNumber) (place : Nat) :
    k.total quantity (chosen.setIfInBounds bin place) =
      exchange quantity (k.total quantity chosen) (k.held chosen bin) (k.itemAt bin place) := by
  have hmem := Finset.mem_range.2 hbin
  -- the bin is taken out of both sums, which agree on all other bins
  have hother : ∀ other ∈ (Finset.range k.bins.size).erase bin,
      quantity (k.held (chosen.setIfInBounds bin place) other) = quantity (k.held chosen other) := by
    intro other hother
    rw [held, getD_setIfInBounds (h.size_eq ▸ hbin), if_neg (Finset.ne_of_mem_erase hother), held]
  have hself : k.held (chosen.setIfInBounds bin place) bin = k.itemAt bin place := by
    rw [held, getD_setIfInBounds (h.size_eq ▸ hbin), if_pos rfl]
  unfold total
  rw [← Finset.sum_erase_add _ _ hmem, ← Finset.sum_erase_add _ _ hmem, Finset.sum_congr rfl hother,
    hself, exchange, Exact.add_sub_cancel_number _ hnumber]

theorem isNumber_total (h : k.Choice chosen)
    (hnumber : ∀ bin < k.bins.size, ∀ place < k.binSize bin, (quantity (k.itemAt bin place)).IsNumber) :
    (k.total quantity chosen).IsNumber := by
  apply Finset.sum_induction _ Exact.IsNumber (fun _ _ hv hw => hv.add hw) Exact.isNumber_zero
  intro bin hbin
  have hbin := Finset.mem_range.1 hbin
  exact hnumber bin hbin _ (h.place_lt bin hbin)

end Knapsack

/-! ## Section 2: Sound selections -/

namespace Selection

variable {R : Type} [Ring R] [LinearOrder R]

/-- A selection of one place per bin whose totals are right. -/
structure Sound (k : Knapsack (Exact R)) (s : Selection (Exact R)) : Prop where
  choice : k.Choice s.chosen
  cost : s.cost = k.total Item.cost s.chosen
  profit : s.profit = k.total Item.profit s.chosen

/-- A sound selection within the budget that brings at least a given profit. -/
structure Fits (k : Knapsack (Exact R)) (budget least : Exact R) (s : Selection (Exact R)) : Prop
    extends s.Sound k where
  affordable : s.cost ≤ budget
  profitable : least ≤ s.profit

variable {k : Knapsack (Exact R)} {budget least : Exact R} {s : Selection (Exact R)}

theorem Sound.put (hk : k.Valid) (h : s.Sound k) {bin place : Nat} (hbin : bin < k.bins.size)
    (hplace : place < k.binSize bin) : (s.put k bin place).Sound k where
  choice := h.choice.set hbin hplace
  cost := by
    rw [Selection.put, h.cost]
    exact (Knapsack.total_set h.choice hbin (hk.cost bin hbin _ (h.choice.place_lt bin hbin)) _).symm
  profit := by
    rw [Selection.put, h.profit]
    exact (Knapsack.total_set h.choice hbin
      (hk.profit bin hbin _ (h.choice.place_lt bin hbin)) _).symm

/-- **Exchanges** that are affordable and bring more profit keep a selection that fits. -/
theorem keeps_fits (hk : k.Valid) (budget least : Exact R) :
    k.Keeps budget fun s => s.Fits k budget least where
  choice h := h.choice
  put h hbin hplace hcost hgain :=
    ⟨h.toSound.put hk hbin hplace, hcost, h.profitable.trans (Exact.le_of_steps hgain.to_reflTransGen)⟩

end Selection

theorem Solution.isFeasible_iff {R : Type} [Ring R] [LinearOrder R] {s : Solution (Exact R)} :
    s.isFeasible = true ↔ s.profit ≠ Exact.below := by
  unfold Solution.isFeasible
  exact bne_iff_ne

namespace Knapsack

variable {R : Type} [Ring R] [LinearOrder R] {k : Knapsack (Exact R)} {budget least : Exact R}
  {s start : Selection (Exact R)}

/-! ## Section 3: The baseline -/

/-- The choice of the first place everywhere, with its totals. -/
def cheapest (k : Knapsack (Exact R)) : Selection (Exact R) where
  chosen := k.firstPlaces
  cost := k.total Item.cost k.firstPlaces
  profit := k.total Item.profit k.firstPlaces

theorem sound_cheapest (hk : k.Valid) : k.cheapest.Sound k :=
  ⟨choice_firstPlaces hk.nonempty, rfl, rfl⟩

private theorem baselineTotal_eq_ok (hk : k.Valid) (quantity : Item (Exact R) → Exact R) :
    k.baselineTotal quantity = .ok (k.total quantity k.firstPlaces) := by
  -- the loop goes over the bins themselves, the total over their numbers
  have step : ∀ (total : Exact R), ∀ bin ∈ k.bins.toList,
      (return total + quantity (← fetch bin 0) : Except Fault (Exact R)) =
        .ok (total + quantity (bin.getD 0 ⟨0, 0, 0⟩)) := by
    intro total bin hbin
    obtain ⟨i, hi, rfl⟩ := List.mem_iff_getElem.1 hbin
    have hi : i < k.bins.size := by simpa using hi
    have := fetch_item k (hk.nonempty i hi)
    simp only [itemAt, Array.getD_eq_getD_getElem?, Array.getElem?_eq_getElem hi,
      Option.getD_some] at this
    rw [Array.getElem_toList, this, Array.getD_eq_getD_getElem?]
    rfl
  have hlist : (List.range k.bins.size).map (fun bin => quantity (k.held k.firstPlaces bin)) =
      k.bins.toList.map fun bin => quantity (bin.getD 0 ⟨0, 0, 0⟩) := by
    refine List.ext_getElem (by simp) fun i hi _ => ?_
    have hi : i < k.bins.size := by simpa using hi
    simp [held, itemAt, firstPlaces, hi]
  rw [baselineTotal, foldlM_eq_ok step, ← List.foldl_map, ← hlist]
  exact congrArg Except.ok (List.sum_eq_foldl ..).symm

/-- The baseline is the choice of the first place everywhere. -/
theorem baseline_eq_ok (hk : k.Valid) : k.baseline = .ok k.cheapest := by
  rw [baseline, baselineTotal_eq_ok hk, ok_bind, baselineTotal_eq_ok hk]
  rfl

/-! ## Section 4: Answers -/

/-- **The heuristic answers** with a selection within the budget, or with the cheapest one, if even
that costs too much. -/
theorem exists_solve_fits (hk : k.Valid) (budget : Exact R) (effort : Effort) {σ : Type}
    [Random.Source σ] (source : σ) :
    ∃ result, k.solve budget effort source = .ok result ∧
      k.Answers budget (fun s => s.Fits k budget k.cheapest.profit) k.cheapest result.1 := by
  have hcheapest := sound_cheapest hk
  exact exists_solve (Selection.keeps_fits hk _ _) (baseline_eq_ok hk) hcheapest.choice
    (fun hbudget => ⟨hcheapest, le_of_not_gt hbudget, le_rfl⟩) effort source

/-! ## Section 5: Knapsacks of given bins -/

section OfBins

variable {bins : List (List (Item (Exact R)))} {items : List (Item (Exact R))} {bin place : Nat}
  (hk : ofBins bins = .ok k)

include hk

/-- The first item of a bin is the cheapest one that was offered. -/
theorem cost_itemAt_zero_le (hbin : bins[bin]? = some items) {item : Item (Exact R)}
    (hitem : item ∈ items) : (k.itemAt bin 0).cost ≤ item.cost := by
  obtain ⟨first, rest, hprune, -, hfirst⟩ :=
    Item.exists_prune_eq_cons Exact.orderedOn (Item.proper_true _) (List.ne_nil_of_mem hitem)
  simpa [itemAt, bin_ofBins hk hbin, hprune] using hfirst item hitem

theorem valid_ofBins
    (hnumber : ∀ items ∈ bins, ∀ item ∈ items, item.cost.IsNumber ∧ item.profit.IsNumber) :
    k.Valid := by
  have hmem : ∀ bin < k.bins.size, ∀ place < k.binSize bin,
      (k.itemAt bin place).cost.IsNumber ∧ (k.itemAt bin place).profit.IsNumber := by
    intro bin hbin place hplace
    rw [size_ofBins hk] at hbin
    exact hnumber _ (List.getElem_mem hbin) _
      (itemAt_mem hk (List.getElem?_eq_getElem hbin) hplace)
  exact ⟨fun bin hbin => binSize_pos hk hbin, fun bin hbin place hplace => (hmem bin hbin place hplace).1,
    fun bin hbin place hplace => (hmem bin hbin place hplace).2⟩

/-- The baseline costs no more than any choice of one item from each bin. -/
theorem cost_cheapest_le [IsStrictOrderedRing R] (item : Nat → Item (Exact R))
    (hitem : ∀ bin items, bins[bin]? = some items → item bin ∈ items) :
    k.cheapest.cost ≤ ∑ bin ∈ Finset.range k.bins.size, (item bin).cost := by
  change ∑ bin ∈ Finset.range k.bins.size, (k.held k.firstPlaces bin).cost ≤ _
  -- bin by bin, since pruning has kept a cheapest item in the first place
  refine Finset.sum_le_sum fun bin hbin => ?_
  have hbin := Finset.mem_range.1 hbin
  have hbins : bins[bin]? = some _ := List.getElem?_eq_getElem (size_ofBins hk ▸ hbin)
  have hheld : k.held k.firstPlaces bin = k.itemAt bin 0 := by
    simp [held, firstPlaces, hbin]
  rw [hheld]
  exact cost_itemAt_zero_le hk hbins (hitem bin _ hbins)

end OfBins

end Knapsack

end PairedMarkov
