import PairedMarkov.Proofs.Knapsack.Offers

/-!
# When answers are optimal

The pass over the bins finds a best choice in two cases. If at most one bin leaves a choice, the best
item that fits it is a best choice. If the budget suffices for the dearest offers, all choices fit,
and the best item of each bin can be taken. The random moves do not matter for either.

Main statements:
- `Offers.mixes_of_countP`, `Offers.mixes_of_largestCost`: in both cases choices mix;
- `Knapsack.solve_optimal`: no choice that fits the budget brings more than the answer.
-/

namespace PairedMarkov

open Knapsack

variable {R : Type} [Ring R] [LinearOrder R]

/-! ## Section 1: The dearest offers -/

/-- The largest cost in a bin; zero if it offers nothing. -/
def Offer.largestCost (bin : List (Offer R)) : Exact R := (bin.map Offer.exactCost).max?.getD 0

theorem Offer.exactCost_le_largestCost {offer : Offer R} {bin : List (Offer R)} (h : offer ∈ bin) :
    offer.exactCost ≤ Offer.largestCost bin := by
  have hmem : offer.exactCost ∈ bin.map Offer.exactCost := List.mem_map_of_mem h
  cases hmax : (bin.map Offer.exactCost).max? with
  | none =>
    rw [List.max?_eq_none_iff.1 hmax] at hmem
    cases hmem
  | some largest =>
    rw [Offer.largestCost, hmax]
    exact (List.max?_eq_some_iff.1 hmax).2 _ hmem

namespace Offers

/-! ## Section 2: Choices of offers that mix -/

section Unique

variable {α : Type} {p : α → Bool} {l : List α} {i j : Nat} {a b : α}

private theorem not_lt_of_countP_le_one (h : l.countP p ≤ 1) (hi : l[i]? = some a)
    (hj : l[j]? = some b) (ha : p a = true) (hb : p b = true) : ¬ i < j := by
  intro hlt
  have hsplit : (l.take j ++ l.drop j).countP p = (l.take j).countP p + (l.drop j).countP p :=
    List.countP_append
  have hbefore : a ∈ l.take j := by
    apply List.mem_of_getElem? (i := i)
    rw [List.getElem?_take_of_lt hlt, hi]
  have hfrom : b ∈ l.drop j := by
    apply List.mem_of_getElem? (i := 0)
    rw [List.getElem?_drop, Nat.add_zero, hj]
  have hcount := List.countP_pos_iff.2 ⟨a, hbefore, ha⟩
  have hcount' := List.countP_pos_iff.2 ⟨b, hfrom, hb⟩
  rw [List.take_append_drop] at hsplit
  omega

/-- A list with at most one entry of a kind has it in one place. -/
private theorem eq_of_countP_le_one (h : l.countP p ≤ 1) (hi : l[i]? = some a)
    (hj : l[j]? = some b) (ha : p a = true) (hb : p b = true) : i = j := by
  have hle := not_lt_of_countP_le_one h hi hj ha hb
  have hge := not_lt_of_countP_le_one h hj hi hb ha
  omega

end Unique

variable {offers : Offers R} {k : Knapsack (Exact R)}
  (hk : ofBins (offers.map Offer.items) = .ok k) {budget : Exact R}

include hk

/-- If at most one bin keeps more than one item, choices mix. -/
theorem mixes_of_countP
    (h : (offers.countP fun bin => 1 < (Item.prune (Offer.items bin)).length) ≤ 1) :
    k.Mixes budget := by
  have hopen : ∀ bin < k.bins.size, 1 < k.binSize bin →
      ∃ offered, offers[bin]? = some offered ∧ 1 < (Item.prune (Offer.items offered)).length := by
    intro bin hbin hsize
    have hoffered := List.getElem?_eq_getElem (size_ofBins hk ▸ hbin)
    refine ⟨_, hoffered, ?_⟩
    rwa [binSize_ofBins hk (by rw [List.getElem?_map, hoffered]; rfl)] at hsize
  apply mixes_of_open_unique
  intro bin hbin other hother hsize hsize'
  obtain ⟨offered, hoffered, hmore⟩ := hopen bin hbin hsize
  obtain ⟨offered', hoffered', hmore'⟩ := hopen other hother hsize'
  exact eq_of_countP_le_one h hoffered hoffered' (decide_eq_true hmore) (decide_eq_true hmore')

/-- If the budget suffices for the dearest offers, choices mix. -/
theorem mixes_of_largestCost [IsStrictOrderedRing R]
    (h : (offers.map Offer.largestCost).sum ≤ budget) : k.Mixes budget := by
  apply mixes_of_forall
  intro chosen hchosen
  obtain ⟨picks, hpick, hcost, -⟩ := exists_pick hk
    (s := ⟨chosen, k.total Item.cost chosen, k.total Item.profit chosen⟩) ⟨hchosen, rfl, rfl⟩
  have hle : List.Forall₂ (· ≤ ·) (picks.map Offer.exactCost) (offers.map Offer.largestCost) := by
    rw [List.forall₂_map_left_iff, List.forall₂_map_right_iff]
    exact (forall₂_mem_of_pick hpick).imp fun _ _ => Offer.exactCost_le_largestCost
  calc k.total Item.cost chosen = (picks.map Offer.exactCost).sum := hcost
    _ ≤ (offers.map Offer.largestCost).sum := hle.sum_le_sum
    _ ≤ budget := h

/-- Where choices mix, no choice brings more than the answer. -/
theorem profit_le_of_mixes [IsStrictOrderedRing R] (hmix : k.Mixes budget)
    {solution : Solution (Exact R)}
    (hanswer : k.Answers budget (fun s => s.Fits k budget k.cheapest.profit) k.cheapest solution)
    {picks : List (Offer R)} (hpicks : picks ∈ choicesWithin Offer.exactCost offers budget) :
    (picks.map Offer.exactProfit).sum ≤ solution.profit := by
  obtain ⟨hmem, hbudget⟩ := mem_choicesWithin_iff.1 hpicks
  obtain ⟨item, hitem, hcost, hprofit⟩ := exists_items id hmem
  have hitems := item_mem fun i bin hbin => (hitem i bin hbin).1
  rw [← hcost, ← size_ofBins hk] at hbudget
  rw [← hprofit, ← size_ofBins hk]
  exact sum_profit_le_of_answers hk hitems (valid_ofBins hk) hmix hbudget hanswer

end Offers

/-! ## Section 3: Optimality -/

variable [IsStrictOrderedRing R] {offers : Offers R} {budget : Exact R}

/-- **The heuristic is optimal** where one pass over the bins is enough. -/
theorem Knapsack.solve_optimal (hoffers : ∀ bin ∈ offers, bin ≠ [])
    (hadmits : choicesWithin Offer.exactCost offers budget ≠ [])
    (hsuffices : (offers.countP fun bin => 1 < (Item.prune (Offer.items bin)).length) ≤ 1 ∨
      (offers.map Offer.largestCost).sum ≤ budget)
    (effort : Effort) {σ : Type} [Random.Source σ] (source : σ) :
    ∃ k solution source', ofLists offers.costs offers.profits = .ok k ∧
      k.solve budget effort source = .ok (solution, source') ∧
      bestWithin Offer.exactCost Offer.exactProfit offers budget = some solution.profit := by
  obtain ⟨k, hk⟩ := Offers.exists_ofBins hoffers
  obtain ⟨⟨solution, source'⟩, hsolve, hanswer⟩ :=
    exists_solve_fits (Offers.valid_ofBins hk) budget effort source
  obtain ⟨picks, hsound⟩ := Offers.exists_sound_of_answers hk hanswer
  refine ⟨k, solution, source', (Offers.ofLists_eq offers).trans hk, hsolve, ?_⟩
  have hmix : k.Mixes budget := by
    rcases hsuffices with hone | hlarge
    · exact Offers.mixes_of_countP hk hone
    · exact Offers.mixes_of_largestCost hk hlarge
  -- the answer is one of the choices, and no choice brings more
  have hfeasible := hsound.isFeasible_iff.2 hadmits
  have hpicks : picks ∈ choicesWithin Offer.exactCost offers budget := by
    rw [mem_choicesWithin_iff, ← hsound.cost_eq]
    exact ⟨Offers.forall₂_mem_of_pick hsound.picked, hsound.affordable hfeasible⟩
  rw [bestWithin_eq_some_iff]
  refine ⟨⟨picks, hpicks, (hsound.profit_eq hfeasible).symm⟩, fun other hother => ?_⟩
  exact Offers.profit_le_of_mixes hk hmix hanswer hother

/-- Two bins with two offers each, one of which is dominated. -/
def Offers.oneOpen : Offers ℤ := [[⟨1, 5⟩, ⟨3, 9⟩], [⟨2, 4⟩, ⟨4, 3⟩]]

theorem Knapsack.solve_oneOpen_optimal : (∀ bin ∈ Offers.oneOpen, bin ≠ []) ∧
    choicesWithin Offer.exactCost Offers.oneOpen (.number 5) ≠ [] ∧
    (Offers.oneOpen.countP fun bin => 1 < (Item.prune (Offer.items bin)).length) = 1 ∧
    ∃ k solution, ∃ source' : Random.Progression,
      ofLists Offers.oneOpen.costs Offers.oneOpen.profits = .ok k ∧
        k.solve (.number 5) ⟨1, 10⟩ (⟨3, 5⟩ : Random.Progression) = .ok (solution, source') ∧
        solution.profit = .number 13 := by
  have hoffers : ∀ bin ∈ Offers.oneOpen, bin ≠ [] := by decide
  have hadmits : choicesWithin Offer.exactCost Offers.oneOpen (.number 5) ≠ [] := by decide
  have hone : (Offers.oneOpen.countP fun bin => 1 < (Item.prune (Offer.items bin)).length) = 1 := by
    cbv
  have hbest : bestWithin Offer.exactCost Offer.exactProfit Offers.oneOpen (.number 5) =
      some (.number 13) := by decide
  obtain ⟨k, solution, source', hk, hsolve, hoptimal⟩ :=
    solve_optimal hoffers hadmits (.inl hone.le) ⟨1, 10⟩ (⟨3, 5⟩ : Random.Progression)
  rw [hbest, Option.some.injEq] at hoptimal
  exact ⟨hoffers, hadmits, hone, k, solution, source', hk, hsolve, hoptimal.symm⟩

end PairedMarkov
