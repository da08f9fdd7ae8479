import PairedMarkov.Proofs.Knapsack.Greedy
import PairedMarkov.Proofs.Knapsack.Staircase

/-!
# Answers to offers

What the heuristic is asked for is a choice from bins as they are offered: lists of costs and profits
in any order, with dominated offers among them. Its answer names a position in each of these lists.
So what an answer is worth has to be said without the pruned bins that the heuristic works on: the
offers at its positions have the cost and the profit that it states, they fit the budget if anything
does, and they bring at least what the cheapest offers bring.

Main statements:
- `Offers.exists_pick`: the totals of a selection are those of the offers at its positions;
- `Offers.cost_cheapest_le`: no choice costs less than the baseline;
- `Knapsack.solve_sound`: the heuristic gives a sound answer, whatever it draws.
-/

namespace PairedMarkov

variable {R : Type}

/-! ## Section 1: Offers -/

/-- A cost and a profit that can be chosen in a bin. -/
structure Offer (R : Type) where
  cost : R
  profit : R
  deriving DecidableEq

namespace Offer

/-- The cost as a weight. -/
def exactCost (offer : Offer R) : Exact R := .number offer.cost

/-- The profit as a weight. -/
def exactProfit (offer : Offer R) : Exact R := .number offer.profit

/-- The items of a bin with the given offers. -/
def items (bin : List (Offer R)) : List (Item (Exact R)) :=
  Item.offer (bin.map exactCost) (bin.map exactProfit)

theorem mem_items_iff {bin : List (Offer R)} {item : Item (Exact R)} :
    item ∈ items bin ↔ ∃ offer, bin[item.position]? = some offer ∧ item.cost = offer.exactCost ∧
      item.profit = offer.exactProfit := by
  rw [items, Item.mem_offer_iff, List.getElem?_map, List.getElem?_map]
  cases bin[item.position]? with
  | none => simp
  | some offer => simp [eq_comm]

end Offer

/-- The offers of several bins. -/
abbrev Offers (R : Type) := List (List (Offer R))

namespace Offers

/-- The costs of each bin. -/
def costs (offers : Offers R) : List (List (Exact R)) := offers.map (List.map Offer.exactCost)

/-- The profits of each bin. -/
def profits (offers : Offers R) : List (List (Exact R)) := offers.map (List.map Offer.exactProfit)

/-- The offers at one position in each bin. -/
def pick : Offers R → List Nat → Option (List (Offer R))
  | [], [] => some []
  | bin :: bins, position :: positions => do return (← bin[position]?) :: (← pick bins positions)
  | _, _ => none

/-- Picking the same way in all bins. -/
theorem pick_range {offers : Offers R} (position : Nat → Nat) (offer : Nat → Offer R)
    (h : ∀ i bin, offers[i]? = some bin → bin[position i]? = some (offer i)) :
    pick offers ((List.range offers.length).map position) =
      some ((List.range offers.length).map offer) := by
  induction offers generalizing position offer with
  | nil => rfl
  | cons bin offers ih =>
    have hrest := ih (position ∘ Nat.succ) (offer ∘ Nat.succ)
      fun i bin hbin => h (i + 1) bin (by simpa using hbin)
    rw [List.length_cons, List.range_succ_eq_map, List.map_cons, List.map_map, List.map_cons,
      List.map_map, pick, h 0 bin rfl, hrest]
    rfl

theorem forall₂_mem_of_pick {offers : Offers R} {positions : List Nat} {picks : List (Offer R)}
    (h : pick offers positions = some picks) : List.Forall₂ (· ∈ ·) picks offers := by
  induction offers, positions using pick.induct generalizing picks with
  | case1 =>
    obtain rfl := Option.some.inj h
    exact .nil
  | case2 bin bins position positions ih =>
    simp only [pick, Option.bind_eq_bind, Option.bind_eq_some_iff, Option.pure_def,
      Option.some.injEq] at h
    obtain ⟨offer, hoffer, rest, hrest, rfl⟩ := h
    exact .cons (List.mem_of_getElem? hoffer) (ih hrest)
  | case3 _ _ hnil hcons => simp [pick] at h

/-! ## Section 2: Offers as items -/

theorem exists_bin_of_items {offers : Offers R} {i : Nat} {items : List (Item (Exact R))}
    (h : (offers.map Offer.items)[i]? = some items) :
    ∃ bin, offers[i]? = some bin ∧ Offer.items bin = items := by
  rwa [List.getElem?_map, Option.map_eq_some_iff] at h

/-- The items that stand for one offer of each bin have been offered. -/
theorem item_mem {offers : Offers R} {item : Nat → Item (Exact R)}
    (hitem : ∀ i bin, offers[i]? = some bin → item i ∈ Offer.items bin) :
    ∀ i items, (offers.map Offer.items)[i]? = some items → item i ∈ items := by
  intro i items hitems
  obtain ⟨bin, hbin, rfl⟩ := exists_bin_of_items hitems
  exact hitem i bin hbin

section Items

variable [Ring R]

/-- One offer of each bin, as items by the number of the bin. -/
theorem exists_items {r : Offer R → List (Offer R) → Prop}
    (hmem : ∀ {offer bin}, r offer bin → offer ∈ bin) {picks : List (Offer R)} {offers : Offers R}
    (h : List.Forall₂ r picks offers) :
    ∃ item : Nat → Item (Exact R),
      (∀ i bin, offers[i]? = some bin → item i ∈ Offer.items bin ∧
        ∃ offer, r offer bin ∧ (item i).cost = offer.exactCost) ∧
      ∑ i ∈ Finset.range offers.length, (item i).cost = (picks.map Offer.exactCost).sum ∧
      ∑ i ∈ Finset.range offers.length, (item i).profit = (picks.map Offer.exactProfit).sum := by
  -- the items of later bins are counted from zero in the rest, and one further on here
  induction h with
  | nil => exact ⟨fun _ => ⟨0, 0, 0⟩, by simp⟩
  | @cons offer bin _ _ hoffer _ ih =>
    obtain ⟨item, hitem, hcost, hprofit⟩ := ih
    obtain ⟨position, hposition⟩ := List.mem_iff_getElem?.1 (hmem hoffer)
    let first : Item (Exact R) := ⟨offer.exactCost, offer.exactProfit, position⟩
    have hfirst : first ∈ Offer.items bin := Offer.mem_items_iff.2 ⟨offer, hposition, rfl, rfl⟩
    refine ⟨fun i => i.casesOn first item, fun i other hother => ?_, ?_, ?_⟩
    · cases i with
      | zero =>
        obtain rfl : bin = other := by simpa using hother
        exact ⟨hfirst, offer, hoffer, rfl⟩
      | succ i => exact hitem i other (by simpa using hother)
    · rw [List.length_cons, Finset.sum_range_succ', List.map_cons, List.sum_cons, add_comm, ← hcost]
      rfl
    · rw [List.length_cons, Finset.sum_range_succ', List.map_cons, List.sum_cons, add_comm,
        ← hprofit]
      rfl

variable [LinearOrder R]

/-- The knapsack of lists of costs and profits. -/
theorem ofLists_eq (offers : Offers R) :
    Knapsack.ofLists offers.costs offers.profits = Knapsack.ofBins (offers.map Offer.items) := by
  have hoffers : ∀ first,
      Knapsack.offersFrom first offers.costs offers.profits = .ok (offers.map Offer.items) := by
    induction offers with
    | nil => exact fun _ => rfl
    | cons bin offers ih =>
      intro first
      rw [costs, profits, List.map_cons, List.map_cons, Knapsack.offersFrom,
        if_pos (by rw [List.length_map, List.length_map]), ← costs, ← profits, ih]
      rfl
  rw [Knapsack.ofLists, if_pos (by simp [costs, profits]), hoffers]
  rfl

theorem exists_ofBins {offers : Offers R} (h : ∀ bin ∈ offers, bin ≠ []) :
    ∃ k, Knapsack.ofBins (offers.map Offer.items) = .ok k := by
  refine ⟨_, Knapsack.ofBins_eq_ok_iff.2 ⟨?_, rfl⟩⟩
  intro items hitems
  obtain ⟨bin, hbin, rfl⟩ := List.mem_map.1 hitems
  obtain ⟨offer, hoffer⟩ := List.exists_mem_of_ne_nil bin (h bin hbin)
  obtain ⟨position, hposition⟩ := List.mem_iff_getElem?.1 hoffer
  have hitem : ⟨offer.exactCost, offer.exactProfit, position⟩ ∈ Offer.items bin :=
    Offer.mem_items_iff.2 ⟨offer, hposition, rfl, rfl⟩
  exact List.ne_nil_of_mem hitem

variable {offers : Offers R} {k : Knapsack (Exact R)}
  (hk : Knapsack.ofBins (offers.map Offer.items) = .ok k)

include hk

theorem size_ofBins : k.bins.size = offers.length := by
  rw [Knapsack.size_ofBins hk, List.length_map]

theorem valid_ofBins : k.Valid := by
  apply Knapsack.valid_ofBins hk
  intro items hitems item hitem
  obtain ⟨bin, -, rfl⟩ := List.mem_map.1 hitems
  obtain ⟨offer, -, hcost, hprofit⟩ := Offer.mem_items_iff.1 hitem
  exact ⟨⟨offer.cost, hcost⟩, ⟨offer.profit, hprofit⟩⟩

/-- What a choice takes from a bin has been offered there. -/
theorem exists_offer_held {chosen : Array Nat} (h : k.Choice chosen) {i : Nat} {bin : List (Offer R)}
    (hbin : offers[i]? = some bin) :
    ∃ offer, bin[(k.held chosen i).position]? = some offer ∧
      (k.held chosen i).cost = offer.exactCost ∧ (k.held chosen i).profit = offer.exactProfit := by
  have hi : i < k.bins.size := by
    rw [size_ofBins hk]
    exact (List.getElem?_eq_some_iff.1 hbin).1
  have hitems : (offers.map Offer.items)[i]? = some (Offer.items bin) := by
    rw [List.getElem?_map, hbin, Option.map_some]
  exact Offer.mem_items_iff.1 (Knapsack.itemAt_mem hk hitems (h.place_lt i hi))

/-- What a selection chooses has been offered, and its totals are those of the offers. -/
theorem exists_pick {s : Selection (Exact R)} (hs : s.Sound k) :
    ∃ picks, offers.pick (k.choicePositions s.chosen) = some picks ∧
      s.cost = (picks.map Offer.exactCost).sum ∧ s.profit = (picks.map Offer.exactProfit).sum := by
  have hsize := size_ofBins hk
  -- one offer for each number of a bin; past the last bin any will do
  have hheld : ∀ i, ∃ offer : Offer R, ∀ bin, offers[i]? = some bin →
      bin[(k.held s.chosen i).position]? = some offer ∧
        (k.held s.chosen i).cost = offer.exactCost ∧
        (k.held s.chosen i).profit = offer.exactProfit := by
    intro i
    cases hbin : offers[i]? with
    | none => exact ⟨⟨0, 0⟩, by simp⟩
    | some bin =>
      obtain ⟨offer, hoffer⟩ := exists_offer_held hk hs.choice hbin
      exact ⟨offer, fun _ h => Option.some.inj h ▸ hoffer⟩
  choose offer hoffer using hheld
  have htotal : ∀ (quantity : Item (Exact R) → Exact R) (exact : Offer R → Exact R),
      (∀ i bin, offers[i]? = some bin → quantity (k.held s.chosen i) = exact (offer i)) →
      k.total quantity s.chosen = (((List.range offers.length).map offer).map exact).sum := by
    intro quantity exact hquantity
    rw [Knapsack.total, hsize, List.map_map]
    change _ = ∑ i ∈ Finset.range offers.length, exact (offer i)
    apply Finset.sum_congr rfl
    intro i hi
    exact hquantity i _ (List.getElem?_eq_getElem (Finset.mem_range.1 hi))
  refine ⟨(List.range offers.length).map offer, ?_, ?_, ?_⟩
  · rw [Knapsack.choicePositions, hsize]
    exact pick_range _ offer fun i bin hbin => (hoffer i bin hbin).1
  · rw [hs.cost]
    exact htotal _ _ fun i bin hbin => (hoffer i bin hbin).2.1
  · rw [hs.profit]
    exact htotal _ _ fun i bin hbin => (hoffer i bin hbin).2.2

end Items

end Offers

/-! ## Section 3: Soundness -/

/-- A cheapest offer of a bin. -/
def Offer.Cheapest [LE R] (offer : Offer R) (bin : List (Offer R)) : Prop :=
  offer ∈ bin ∧ ∀ other ∈ bin, offer.cost ≤ other.cost

/-- What an answer promises to those who made the offers: `picks` are the offers at its choices. -/
structure Solution.Sound [Ring R] [LinearOrder R] (offers : Offers R) (budget : Exact R)
    (s : Solution (Exact R)) (picks : List (Offer R)) : Prop where
  /-- It chooses one position in each bin. -/
  picked : offers.pick s.choices = some picks
  /-- The cost is the total cost of the choice. -/
  cost_eq : s.cost = (picks.map Offer.exactCost).sum
  /-- It is feasible exactly if some choice fits the budget. -/
  isFeasible_iff : s.isFeasible = true ↔ Knapsack.choicesWithin Offer.exactCost offers budget ≠ []
  /-- If it is not, no choice costs less. -/
  least : s.isFeasible = false →
    ∀ other ∈ offers.sections, s.cost ≤ (other.map Offer.exactCost).sum
  /-- If it is, the choice fits the budget, -/
  affordable : s.isFeasible = true → s.cost ≤ budget
  /-- the profit is the total profit of the choice, -/
  profit_eq : s.isFeasible = true → s.profit = (picks.map Offer.exactProfit).sum
  /-- and it is at least that of the cheapest offers. -/
  baseline_le : s.isFeasible = true → ∀ cheapest, List.Forall₂ Offer.Cheapest cheapest offers →
    (cheapest.map Offer.exactProfit).sum ≤ s.profit

namespace Offers

open Knapsack

section Soundness

variable [Ring R] [LinearOrder R] [IsStrictOrderedRing R] {offers : Offers R}
  {k : Knapsack (Exact R)} (hk : ofBins (offers.map Offer.items) = .ok k) {budget : Exact R}
  {solution : Solution (Exact R)}
  (hanswer : k.Answers budget (fun s => s.Fits k budget k.cheapest.profit) k.cheapest solution)

include hk

/-- The baseline costs no more than any choice. -/
theorem cost_cheapest_le {picks : List (Offer R)} (hpicks : List.Forall₂ (· ∈ ·) picks offers) :
    k.cheapest.cost ≤ (picks.map Offer.exactCost).sum := by
  obtain ⟨item, hitem, hcost, -⟩ := exists_items id hpicks
  rw [← hcost, ← size_ofBins hk]
  exact Knapsack.cost_cheapest_le hk item (item_mem fun i bin hbin => (hitem i bin hbin).1)

include hanswer

/-- The answer brings no less than cheapest offers, if these fit the budget. -/
theorem profit_cheapest_le (hbaseline : k.cheapest.cost ≤ budget) {cheapest : List (Offer R)}
    (h : List.Forall₂ Offer.Cheapest cheapest offers) :
    (cheapest.map Offer.exactProfit).sum ≤ solution.profit := by
  obtain ⟨item, hitem, -, hprofit⟩ := exists_items And.left h
  have hitems := item_mem fun i bin hbin => (hitem i bin hbin).1
  rw [← hprofit, ← size_ofBins hk]
  refine sum_profit_cheapest_le_of_answers hk hitems (valid_ofBins hk) hbaseline ?_ hanswer
  intro i items hitems other hother
  obtain ⟨bin, hbin, rfl⟩ := exists_bin_of_items hitems
  obtain ⟨-, offer, hcheapest, hcost⟩ := hitem i bin hbin
  obtain ⟨offer', hoffer', hcost', -⟩ := Offer.mem_items_iff.1 hother
  rw [hcost, hcost']
  exact hcheapest.2 offer' (List.mem_of_getElem? hoffer')

/-- What the heuristic answers is sound for the offers. -/
theorem exists_sound_of_answers : ∃ picks, solution.Sound offers budget picks := by
  have hvalid := valid_ofBins hk
  cases hanswer with
  | feasible passed s himprove hs hgain =>
    obtain ⟨picks, hpick, hcost, hprofit⟩ := exists_pick hk hs.toSound
    have hpicks := forall₂_mem_of_pick hpick
    have hwithin : picks ∈ choicesWithin Offer.exactCost offers budget :=
      mem_choicesWithin_iff.2 ⟨hpicks, hcost ▸ hs.affordable⟩
    -- what has been picked is affordable itself, and so is the baseline
    have hbaseline : k.cheapest.cost ≤ budget :=
      (cost_cheapest_le hk hpicks).trans (hcost ▸ hs.affordable)
    have hfeasible : (k.answerOf s).isFeasible = true := by
      rw [Solution.isFeasible_iff]
      change s.profit ≠ _
      rw [hprofit]
      exact (Exact.isNumber_sum (by simp [Offer.exactProfit, Exact.IsNumber])).ne_below
    have hyes : ¬ (k.answerOf s).isFeasible = false := by simp [hfeasible]
    exact ⟨picks, {
      picked := hpick
      cost_eq := hcost
      isFeasible_iff := iff_of_true hfeasible (List.ne_nil_of_mem hwithin)
      least := fun hno => absurd hno hyes
      affordable := fun _ => hs.affordable
      profit_eq := fun _ => hprofit
      baseline_le := fun _ _ =>
        profit_cheapest_le hk (.feasible passed s himprove hs hgain) hbaseline }⟩
  | infeasible hbudget =>
    obtain ⟨picks, hpick, hcost, -⟩ := exists_pick hk (sound_cheapest hvalid)
    -- a choice within the budget would cost less than the baseline
    have hnone : choicesWithin Offer.exactCost offers budget = [] := by
      rw [List.eq_nil_iff_forall_not_mem]
      intro other hother
      obtain ⟨hmem, hle⟩ := mem_choicesWithin_iff.1 hother
      exact absurd ((cost_cheapest_le hk hmem).trans hle) (not_le_of_gt hbudget)
    have hno : ¬ (k.answerOf { k.cheapest with profit := Weight.lowest }).isFeasible = true := by
      rw [Solution.isFeasible_iff]
      exact fun h => h rfl
    exact ⟨picks, {
      picked := hpick
      cost_eq := hcost
      isFeasible_iff := iff_of_false hno (not_not_intro hnone)
      least := fun _ other hother => cost_cheapest_le hk (List.mem_sections.1 hother)
      affordable := fun hyes => absurd hyes hno
      profit_eq := fun hyes => absurd hyes hno
      baseline_le := fun hyes => absurd hyes hno }⟩

end Soundness

end Offers

/-- **The heuristic is sound** for whatever is offered. -/
theorem Knapsack.solve_sound [Ring R] [LinearOrder R] [IsStrictOrderedRing R] {offers : Offers R}
    (hoffers : ∀ bin ∈ offers, bin ≠ []) (budget : Exact R) (effort : Effort) {σ : Type}
    [Random.Source σ] (source : σ) :
    ∃ k solution source' picks, ofLists offers.costs offers.profits = .ok k ∧
      k.solve budget effort source = .ok (solution, source') ∧
      solution.Sound offers budget picks := by
  obtain ⟨k, hk⟩ := Offers.exists_ofBins hoffers
  obtain ⟨⟨solution, source'⟩, hsolve, hanswer⟩ :=
    exists_solve_fits (Offers.valid_ofBins hk) budget effort source
  obtain ⟨picks, hsound⟩ := Offers.exists_sound_of_answers hk hanswer
  exact ⟨k, solution, source', picks, (Offers.ofLists_eq offers).trans hk, hsolve, hsound⟩

/-- Two bins with two offers each. -/
def Offers.twoBins : Offers ℤ := [[⟨1, 5⟩, ⟨3, 9⟩], [⟨2, 4⟩, ⟨4, 10⟩]]

theorem Knapsack.solve_twoBins_sound : (∀ bin ∈ Offers.twoBins, bin ≠ []) ∧
    ∃ k solution, ∃ source' : Random.Progression, ∃ picks,
      ofLists Offers.twoBins.costs Offers.twoBins.profits = .ok k ∧
        k.solve (.number 5) ⟨1, 10⟩ (⟨3, 5⟩ : Random.Progression) = .ok (solution, source') ∧
        solution.Sound Offers.twoBins (.number 5) picks := by
  have hoffers : ∀ bin ∈ Offers.twoBins, bin ≠ [] := by decide
  have hsound := solve_sound hoffers (.number 5) ⟨1, 10⟩ (⟨3, 5⟩ : Random.Progression)
  exact ⟨hoffers, hsound⟩

end PairedMarkov
