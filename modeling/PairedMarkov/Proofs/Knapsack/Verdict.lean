import PairedMarkov.Proofs.Knapsack.Staircase
import PairedMarkov.Proofs.Knapsack.Choices

/-!
# The verdict of the knapsack in double precision

An answer is told to be feasible by its profit: the lowest weight is kept for answers that do not fit
the budget. Over exact weights that is the same as comparing the cheapest total cost with the budget.
Over doubles it is not. A budget that is not a number is not below any cost, nor is a cost that is
not a number above any budget, so the heuristic goes on with a baseline that it cannot compare. And
a baseline may itself bring negative infinity, which then reads as if nothing fitted.

From such a baseline no exchange leads away, since no sum is above negative infinity that begins with
it, and no cost that is not a number becomes one. So the verdict is settled by the baseline alone.

Main statements:
- `Knapsack.baseline_ofBins`: the baseline in terms of the bins as they were offered;
- `Selection.keeps_settled`: what exchanges make of a baseline, whatever doubles there are;
- `Knapsack.solve_verdict`: which answers are feasible, and which of these keep to the budget.
-/

namespace PairedMarkov

/-! ## Section 1: The cheapest items of the bins -/

/-- The first of the cheapest items of a bin, in the order of sorting. -/
def Item.cheapest? {W : Type} [Weight W] (items : List (Item W)) : Option (Item W) :=
  items.find? fun item => items.all fun other => Weight.sortsBefore item.cost other.cost

namespace Knapsack

/-- The total of one quantity over the cheapest items of some bins, from the first bin on. -/
def cheapestTotal {W : Type} [Weight W] (quantity : Item W → W) (bins : List (List (Item W))) : W :=
  (bins.filterMap Item.cheapest?).foldl (fun total item => total + quantity item) Weight.emptySum

section Baseline

variable {W : Type} [Weight W] {proper : W → Prop} (hW : Weight.OrderedOn W proper)
  {bins : List (List (Item W))} {k : Knapsack W}

include hW

private theorem foldlM_fetch_prune (quantity : Item W → W) (hbins : ∀ items ∈ bins, items ≠ [])
    (total : W) :
    (bins.map fun items => (Item.prune items).toArray).foldlM
        (fun total bin => (return total + quantity (← fetch bin 0) : Except Fault W)) total =
      .ok ((bins.filterMap Item.cheapest?).foldl (fun total item => total + quantity item) total) := by
  induction bins generalizing total with
  | nil => rfl
  | cons items bins ih =>
    obtain ⟨hitems, hbins⟩ := List.forall_mem_cons.1 hbins
    -- pruning has put the first of the cheapest items in front
    have hhead := Item.head?_prune_eq_find? hW items
    cases hprune : Item.prune items with
    | nil => exact absurd hprune (Item.prune_ne_nil hitems)
    | cons item rest =>
      rw [hprune, List.head?_cons] at hhead
      have hcheapest : Item.cheapest? items = some item := hhead.symm
      rw [List.map_cons, List.foldlM_cons, hprune, List.filterMap_cons_some hcheapest,
        List.foldl_cons]
      exact ih hbins (total + quantity item)

theorem baselineTotal_ofBins (hk : ofBins bins = .ok k) (quantity : Item W → W) :
    k.baselineTotal quantity = .ok (cheapestTotal quantity bins) := by
  obtain ⟨hbins, rfl⟩ := ofBins_eq_ok_iff.1 hk
  exact foldlM_fetch_prune hW quantity hbins Weight.emptySum

/-- The baseline takes the cheapest items as they were offered. -/
theorem baseline_ofBins (hk : ofBins bins = .ok k) :
    k.baseline =
      .ok ⟨k.firstPlaces, cheapestTotal Item.cost bins, cheapestTotal Item.profit bins⟩ := by
  rw [baseline, baselineTotal_ofBins hW hk, ok_bind, baselineTotal_ofBins hW hk]
  rfl

end Baseline

end Knapsack

/-! ## Section 2: What exchanges make of a baseline -/

section Exchanges

open Double

variable {quantity : Item LogWeight → LogWeight} {total : LogWeight}

/-- Steps up lead up. -/
theorem LogWeight.lt_of_steps {a b : LogWeight} (h : Relation.TransGen (· < ·) a b) : a < b := by
  induction h with
  | single h => exact h
  | tail _ h ih => exact LogWeight.lt_trans ih h

/-- Only numbers can be compared. -/
theorem LogWeight.isNaN_eq_false_of_le {a b : LogWeight} (h : a ≤ b) :
    a.value.isNaN = false ∧ b.value.isNaN = false := by
  obtain ⟨i, j, hi, hj, -⟩ := LogWeight.le_iff.1 h
  constructor <;> rw [← Bool.not_eq_true, isNaN_iff_place] <;> simp [hi, hj]

theorem isNaN_exchange (h : total.value.isNaN = true) (held item : Item LogWeight) :
    (Knapsack.exchange quantity total held item).value.isNaN = true :=
  isNaN_add (isNaN_sub h _) _

theorem isBottom_exchange (h : IsBottom total.value) (held item : Item LogWeight) :
    IsBottom (Knapsack.exchange quantity total held item).value :=
  (h.sub _).add _

namespace Selection

variable {k : Knapsack LogWeight} {budget : LogWeight} {start s : Selection LogWeight}

/-- A selection that exchanges have made of a baseline which is not above the budget: its totals are
still those of the baseline, or it fits the budget and brings more. -/
structure Settled (k : Knapsack LogWeight) (budget : LogWeight) (start s : Selection LogWeight) :
    Prop where
  choice : k.Choice s.chosen
  start_within : ¬ budget < start.cost
  totals : s.cost = start.cost ∧ s.profit = start.profit ∨
    s.cost ≤ budget ∧ start.profit < s.profit ∧ start.cost.value.isNaN = false ∧
      ¬ IsBottom start.profit.value

/-- **Exchanges** keep a baseline settled. -/
theorem keeps_settled (k : Knapsack LogWeight) (budget : LogWeight)
    (start : Selection LogWeight) : k.Keeps budget (Settled k budget start) where
  choice h := h.choice
  put {s bin place} h hbin hplace hcost hgain := by
    have hgain := LogWeight.lt_of_steps hgain
    refine ⟨h.choice.set hbin hplace, h.start_within, .inr ?_⟩
    rcases h.totals with ⟨hstart, hprofit⟩ | ⟨-, hmore, hnumber, hbottom⟩
    · refine ⟨hcost, hprofit ▸ hgain, ?_, fun hbottom => ?_⟩
      · -- an exchange would not have made a number of the cost
        by_contra hnan
        rw [Bool.not_eq_false, ← hstart] at hnan
        have hnumber := (LogWeight.isNaN_eq_false_of_le hcost).1
        rw [Selection.put, isNaN_exchange hnan] at hnumber
        cases hnumber
      · rw [← hprofit] at hbottom
        exact LogWeight.not_isBottom_of_lt hgain (isBottom_exchange hbottom _ _)
    · exact ⟨hcost, LogWeight.lt_trans hmore hgain, hnumber, hbottom⟩

end Selection

end Exchanges

/-! ## Section 3: The verdict -/

open Knapsack in
/-- What the verdict on an answer comes down to: the totals of the cheapest items. -/
structure Solution.Verdict (bins : List (List (Item LogWeight))) (budget : LogWeight)
    (s : Solution LogWeight) : Prop where
  /-- An answer is feasible unless the cheapest items cost more than the budget, or bring the weight
  that is kept for answers that are not. -/
  isFeasible_iff : s.isFeasible = true ↔
    ¬ budget < cheapestTotal Item.cost bins ∧
      ¬ (cheapestTotal Item.profit bins == Weight.lowest) = true
  /-- A feasible answer keeps to the budget exactly if this can be compared with the cheapest cost. -/
  cost_le_iff : s.isFeasible = true →
    (s.cost ≤ budget ↔
      budget.value.isNaN = false ∧ (cheapestTotal Item.cost bins).value.isNaN = false)
  /-- So the verdict is right wherever costs can be compared and profits are not at the bottom. -/
  right : budget.value.isNaN = false → (cheapestTotal Item.cost bins).value.isNaN = false →
    ¬ (cheapestTotal Item.profit bins == Weight.lowest) = true →
    (s.isFeasible = true ↔ cheapestTotal Item.cost bins ≤ budget) ∧
      (s.isFeasible = true → s.cost ≤ budget)

theorem Solution.isFeasible_iff_not_beq {W : Type} [Weight W] {s : Solution W} :
    s.isFeasible = true ↔ ¬ (s.profit == Weight.lowest) = true := by
  simp [Solution.isFeasible, bne]

namespace Knapsack

open Double

variable {bins : List (List (Item LogWeight))} {k : Knapsack LogWeight} {budget : LogWeight}
  {start : Selection LogWeight} {solution : Solution LogWeight}

/-- The heuristic answers with a settled selection, or that its baseline does not fit. -/
theorem exists_settled (hk : ofBins bins = .ok k) (hbaseline : k.baseline = .ok start)
    (budget : LogWeight) (effort : Effort) {σ : Type} [Random.Source σ] (source : σ) :
    ∃ result, k.solve budget effort source = .ok result ∧
      k.Answers budget (Selection.Settled k budget start) start result.1 := by
  have hplaces : k.Choice k.firstPlaces := choice_firstPlaces fun bin hbin => binSize_pos hk hbin
  obtain ⟨_, hstart, hchosen⟩ := exists_baseline fun bin hbin => binSize_pos hk hbin
  obtain rfl := Except.ok.inj (hbaseline.symm.trans hstart)
  have hchoice : k.Choice start.chosen := hchosen ▸ hplaces
  exact exists_solve (Selection.keeps_settled k budget start) hbaseline hchoice
    (fun hbudget => ⟨hchoice, hbudget, .inl ⟨rfl, rfl⟩⟩) effort source

/-- The lowest profit is what tells that an answer does not fit. -/
theorem isFeasible_iff_of_answers
    (h : k.Answers budget (Selection.Settled k budget start) start solution) :
    solution.isFeasible = true ↔
      ¬ budget < start.cost ∧ ¬ (start.profit == Weight.lowest) = true := by
  rw [Solution.isFeasible_iff_not_beq]
  cases h with
  | infeasible hbudget =>
    have hlowest : (Weight.lowest == (Weight.lowest : LogWeight)) = true := by decide
    exact iff_of_false (not_not_intro hlowest) fun h => h.1 hbudget
  | feasible improved s himprove hs hgain =>
    change ¬ (s.profit == Weight.lowest) = true ↔ _
    rcases hs.totals with ⟨-, hprofit⟩ | ⟨-, hmore, -, hbottom⟩
    · rw [hprofit, and_iff_right hs.start_within]
    · -- both profits are above the bottom
      refine iff_of_true (fun h => ?_) ⟨hs.start_within, fun h => ?_⟩
      · exact LogWeight.not_isBottom_of_lt hmore (LogWeight.isBottom_of_beq_lowest h)
      · exact hbottom (LogWeight.isBottom_of_beq_lowest h)

theorem cost_le_iff_of_answers
    (h : k.Answers budget (Selection.Settled k budget start) start solution)
    (hfeasible : solution.isFeasible = true) :
    solution.cost ≤ budget ↔ budget.value.isNaN = false ∧ start.cost.value.isNaN = false := by
  have hwithin := ((isFeasible_iff_of_answers h).1 hfeasible).1
  cases h with
  | infeasible hbudget => exact absurd hbudget hwithin
  | feasible improved s himprove hs hgain =>
    change s.cost ≤ budget ↔ _
    rcases hs.totals with ⟨hcost, -⟩ | ⟨hcost, -, hnumber, -⟩
    · rw [hcost]
      constructor
      · exact fun hle => (LogWeight.isNaN_eq_false_of_le hle).symm
      · exact fun hnumbers => LogWeight.orderedOn.le_of_not_lt hnumbers.1 hnumbers.2 hwithin
    · exact iff_of_true hcost ⟨(LogWeight.isNaN_eq_false_of_le hcost).2, hnumber⟩

/-- **The verdict** on the answers of any knapsack, for any doubles as costs, profits and budget. -/
theorem solve_verdict (hk : ofBins bins = .ok k) (budget : LogWeight) (effort : Effort) {σ : Type}
    [Random.Source σ] (source : σ) :
    ∃ solution source', k.solve budget effort source = .ok (solution, source') ∧
      solution.Verdict bins budget := by
  obtain ⟨⟨solution, source'⟩, hsolve, hanswer⟩ :=
    exists_settled hk (baseline_ofBins LogWeight.orderedOn hk) budget effort source
  have hfeasible := isFeasible_iff_of_answers hanswer
  have hcost := cost_le_iff_of_answers hanswer
  refine ⟨solution, source', hsolve, hfeasible, hcost, fun hb hc hprofit => ⟨?_, fun h => ?_⟩⟩
  · rw [hfeasible, and_iff_left hprofit]
    constructor
    · exact LogWeight.orderedOn.le_of_not_lt hb hc
    · intro hle hlt
      exact LogWeight.not_beq_of_lt (LogWeight.lt_of_le_of_lt hle hlt) (LogWeight.beq_self_of_lt hlt)
  · exact (hcost h).2 ⟨hb, hc⟩

/-- Two bins, one of which offers a dearer item that brings more. -/
def dearerOffer : List (List (Item LogWeight)) :=
  [Item.offer [.ofFloat 3.0, .ofFloat 1.0] [.ofFloat 9.0, .ofFloat 5.0],
    Item.offer [.ofFloat 2.0] [.ofFloat 4.0]]

theorem solve_dearerOffer_verdict : ∃ k, ofBins dearerOffer = .ok k ∧
    ∃ solution, ∃ source' : Random.Progression,
      k.solve (.ofFloat 5.0) ⟨1, 10⟩ (⟨3, 5⟩ : Random.Progression) = .ok (solution, source') ∧
        solution.isFeasible = true ∧ solution.cost ≤ .ofFloat 5.0 := by
  have hbins : ∀ items ∈ dearerOffer, items ≠ [] := by
    simp [dearerOffer, Item.offer, Item.offerFrom]
  have hk := ofBins_eq_ok_iff.2 ⟨hbins, rfl⟩
  obtain ⟨solution, source', hsolve, hverdict⟩ :=
    solve_verdict hk (.ofFloat 5.0) ⟨1, 10⟩ (⟨3, 5⟩ : Random.Progression)
  obtain ⟨hfeasible, hcost⟩ := hverdict.right (by decide) (by decide) (by decide)
  have hyes : solution.isFeasible = true := hfeasible.2 (by decide)
  exact ⟨_, hk, solution, source', hsolve, hyes, hcost hyes⟩

/-- A bin with one item of cost one. -/
def oneItem (profit : LogWeight) : List (List (Item LogWeight)) :=
  [Item.offer [.ofFloat 1.0] [profit]]

/-- **The verdict can be wrong**: an answer is feasible for a budget that is not a number, which no
cost keeps to, and one is not although the only item is cheaper than the budget. -/
theorem exists_wrong_verdicts :
    let unordered : LogWeight := .ofFloat (0.0 / 0.0)
    (∃ k solution, ∃ source' : Random.Progression, ofBins (oneItem (.ofFloat 1.0)) = .ok k ∧
      k.solve unordered {} (⟨3, 5⟩ : Random.Progression) = .ok (solution, source') ∧
        solution.isFeasible = true ∧ ¬ cheapestTotal Item.cost (oneItem (.ofFloat 1.0)) ≤ unordered ∧
          ¬ solution.cost ≤ unordered) ∧
    ∃ k solution, ∃ source' : Random.Progression, ofBins (oneItem Weight.lowest) = .ok k ∧
      k.solve (.ofFloat 2.0) {} (⟨3, 5⟩ : Random.Progression) = .ok (solution, source') ∧
        solution.isFeasible = false ∧
          cheapestTotal Item.cost (oneItem Weight.lowest) ≤ .ofFloat 2.0 := by
  intro unordered
  have hbins : ∀ profit, ∀ items ∈ oneItem profit, items ≠ [] := by
    simp [oneItem, Item.offer, Item.offerFrom]
  have hk := fun profit => ofBins_eq_ok_iff.2 ⟨hbins profit, rfl⟩
  have hanswers := fun profit budget => exists_settled (hk profit)
    (baseline_ofBins LogWeight.orderedOn (hk profit)) budget {} (⟨3, 5⟩ : Random.Progression)
  constructor
  · obtain ⟨⟨solution, source'⟩, hsolve, hanswer⟩ := hanswers (.ofFloat 1.0) unordered
    have hfeasible := (isFeasible_iff_of_answers hanswer).2 ⟨by decide, by decide⟩
    have hcost := cost_le_iff_of_answers hanswer hfeasible
    exact ⟨_, solution, source', hk _, hsolve, hfeasible, by decide, fun hle => by
      exact absurd (hcost.1 hle).1 (by decide)⟩
  · obtain ⟨⟨solution, source'⟩, hsolve, hanswer⟩ := hanswers Weight.lowest (.ofFloat 2.0)
    have hfeasible : ¬ solution.isFeasible = true :=
      fun h => ((isFeasible_iff_of_answers hanswer).1 h).2 (by decide)
    exact ⟨_, solution, source', hk _, hsolve, Bool.not_eq_true _ ▸ hfeasible, by decide⟩

end Knapsack

end PairedMarkov
