import PairedMarkov.Proofs.Knapsack.Selections

/-!
# When one pass over the bins is enough

The pass over the bins takes, bin by bin, the most profitable item that the budget allows. In general
that spends the budget on the first bins. But if affordable choices can be mixed, as they can in a
single bin, or if nothing exceeds the budget, then no affordable choice has a better item in any bin
that the pass has left behind. The random moves only improve on that.

The same argument bounds the answer from below wherever there is a choice that the pass can follow
in each bin, whatever it has taken so far. The cheapest items make up such a choice.

Main statements:
- `Knapsack.profit_le_held_improved`: the pass leaves the best affordable item in a bin;
- `Knapsack.total_le_of_answers`: no choice that can be followed brings more than the answer;
- `Knapsack.exists_choice_dominating`: pruned items are no loss;
- `Knapsack.sum_profit_le_of_answers`: where choices mix, no affordable choice of the unpruned items
  brings more than the answer.
-/

namespace PairedMarkov.Knapsack

/-! ## Section 1: The best exchange of a bin -/

section Exchanges

variable {W : Type} [Weight W] {k : Knapsack W} {budget : W} {s : Selection W} {bin : Nat}

/-- After its exchange a bin holds the item that was found for it. -/
theorem held_improved (h : k.Choice s.chosen) (hbin : bin < k.bins.size) :
    k.held (k.improved budget s bin).chosen bin = k.itemAt bin (k.bestIn budget s bin).1 := by
  unfold improved
  split
  · rename_i hsame
    rw [hsame, held]
  · rw [Selection.put, held, getD_setIfInBounds (h.size_eq ▸ hbin), if_pos rfl]

/-- The other bins hold what they held. -/
theorem held_improved_of_ne (h : k.Choice s.chosen) (hbin : bin < k.bins.size) {other : Nat}
    (hother : other ≠ bin) :
    k.held (k.improved budget s bin).chosen other = k.held s.chosen other := by
  unfold improved
  split
  · rfl
  · rw [Selection.put, held, getD_setIfInBounds (h.size_eq ▸ hbin), if_neg hother, held]

end Exchanges

variable {R : Type} [Ring R] [LinearOrder R] {k : Knapsack (Exact R)} {budget least : Exact R}
  {s start : Selection (Exact R)} {bin : Nat}

/-- No affordable exchange brings more than the best one, nor does the best one so far. -/
private theorem le_bestExchange {held : Item (Exact R)} {items : List (Item (Exact R))}
    (place best : Nat) (profit : Exact R) :
    profit ≤ (bestExchange budget s held place items best profit).2 ∧
      ∀ item ∈ items, exchange Item.cost s.cost held item ≤ budget →
        exchange Item.profit s.profit held item ≤
          (bestExchange budget s held place items best profit).2 := by
  induction items generalizing place best profit with
  | nil => simp [bestExchange]
  | cons item rest ih =>
    rw [bestExchange]
    split
    · rename_i hgood
      obtain ⟨hnew, hrest⟩ := ih (place + 1) place (exchange Item.profit s.profit held item)
      exact ⟨hgood.2.le.trans hnew, List.forall_mem_cons.2 ⟨fun _ => hnew, hrest⟩⟩
    · rename_i hbad
      obtain ⟨hold, hrest⟩ := ih (place + 1) best profit
      -- an affordable item that is passed over brings no more
      refine ⟨hold, List.forall_mem_cons.2 ⟨fun hcost => ?_, hrest⟩⟩
      exact (not_lt.1 fun hprofit => hbad ⟨hcost, hprofit⟩).trans hold

theorem le_bestIn {place : Nat} (hplace : place < k.binSize bin)
    (hcost : (s.put k bin place).cost ≤ budget) :
    (s.put k bin place).profit ≤ (k.bestIn budget s bin).2 := by
  have hmem : k.itemAt bin place ∈ (k.bins.getD bin #[]).toList := by
    rw [itemAt, ← Array.getElem_eq_getD (h := hplace)]
    exact Array.mem_toList_iff.2 (Array.getElem_mem hplace)
  exact (le_bestExchange ..).2 _ hmem hcost

section Greedy

variable (hk : k.Valid)

include hk

/-- What an exchange brings is the profit that is noted with it, also if nothing is exchanged. -/
theorem bestIn_profit (h : s.Sound k) (hbin : bin < k.bins.size) :
    (k.bestIn budget s bin).2 = (s.put k bin (k.bestIn budget s bin).1).profit := by
  rcases found_bestIn k budget s bin with ⟨hplace, hprofit⟩ | ⟨-, hprofit⟩
  · have hheld := hk.profit bin hbin _ (h.choice.place_lt bin hbin)
    rw [hprofit, hplace]
    -- the held item is taken out and put back
    exact (Exact.sub_add_cancel_number _ hheld).symm
  · exact hprofit

/-- **After its exchange** a bin holds the best of the items that can be afforded. -/
theorem profit_le_held_improved [IsStrictOrderedRing R] (h : s.Sound k)
    (hbin : bin < k.bins.size) {place : Nat} (hplace : place < k.binSize bin)
    (hcost : (s.put k bin place).cost ≤ budget) :
    (k.itemAt bin place).profit ≤ (k.held (k.improved budget s bin).chosen bin).profit := by
  have hle := le_bestIn hplace hcost
  rw [bestIn_profit hk h hbin] at hle
  rw [held_improved h.choice hbin]
  -- both profits exchange the same held item
  have hheld := hk.profit bin hbin _ (h.choice.place_lt bin hbin)
  have htotal := isNumber_total h.choice hk.profit
  rw [← h.profit] at htotal
  exact Exact.le_of_number_add_le_add (htotal.sub hheld) hle

end Greedy

/-! ## Section 2: Choices that mix -/

/-- A choice within the budget. -/
structure Affordable (k : Knapsack (Exact R)) (budget : Exact R) (chosen : Array Nat) : Prop
    extends k.Choice chosen where
  cost_le : k.total Item.cost chosen ≤ budget

/-- Affordable choices mix: in each bin one of them can follow another. -/
def Mixes (k : Knapsack (Exact R)) (budget : Exact R) : Prop :=
  ∀ {chosen chosen'}, k.Affordable budget chosen → k.Affordable budget chosen' →
    ∀ bin < k.bins.size, k.Affordable budget (chosen.setIfInBounds bin (chosen'.getD bin 0))

/-- A choice that every affordable choice can follow, in each bin by itself. -/
def Followed (k : Knapsack (Exact R)) (budget : Exact R) (chosen : Array Nat) : Prop :=
  ∀ other, k.Affordable budget other →
    ∀ bin < k.bins.size, k.Affordable budget (other.setIfInBounds bin (chosen.getD bin 0))

theorem Mixes.followed (hmix : k.Mixes budget) {chosen : Array Nat}
    (h : k.Affordable budget chosen) : k.Followed budget chosen :=
  fun _ hother bin hbin => hmix hother h bin hbin

/-- If no two bins leave a choice, following another choice is to become that choice or to stay. -/
theorem mixes_of_open_unique (hopen : ∀ bin < k.bins.size, ∀ other < k.bins.size,
    1 < k.binSize bin → 1 < k.binSize other → bin = other) : k.Mixes budget := by
  intro chosen chosen' h h' bin hbin
  have hset := h.toChoice.set hbin (h'.place_lt bin hbin)
  have hsize : bin < chosen.size := h.size_eq ▸ hbin
  by_cases hone : 1 < k.binSize bin
  · -- in all other bins the two choices agree
    suffices chosen.setIfInBounds bin (chosen'.getD bin 0) = chosen' by rwa [this]
    apply hset.ext h'.toChoice
    intro other hother
    rw [getD_setIfInBounds hsize]
    split
    · rename_i heq
      rw [heq]
    · rename_i hne
      have hfixed : ¬ 1 < k.binSize other := fun hmore => hne (hopen other hother bin hbin hmore hone)
      have hplace := h.place_lt other hother
      have hplace' := h'.place_lt other hother
      omega
  · -- here the two choices agree
    suffices chosen.setIfInBounds bin (chosen'.getD bin 0) = chosen by rwa [this]
    apply hset.ext h.toChoice
    intro other _
    rw [getD_setIfInBounds hsize]
    split
    · rename_i heq
      have hplace := h.place_lt bin hbin
      have hplace' := h'.place_lt bin hbin
      rw [heq]
      omega
    · rfl

theorem mixes_of_size_le_one (hsize : k.bins.size ≤ 1) : k.Mixes budget :=
  mixes_of_open_unique fun bin hbin other hother _ _ => by omega

theorem mixes_of_forall (h : ∀ chosen, k.Choice chosen → k.total Item.cost chosen ≤ budget) :
    k.Mixes budget := fun ha ha' bin hbin =>
  have hchoice := ha.toChoice.set hbin (ha'.place_lt bin hbin)
  ⟨hchoice, h _ hchoice⟩

/-- Following a choice of cheapest items never costs more. -/
theorem followed_of_cheapest [IsStrictOrderedRing R] {chosen : Array Nat} (hchoice : k.Choice chosen)
    (hcheapest : ∀ bin < k.bins.size, ∀ place < k.binSize bin,
      (k.held chosen bin).cost ≤ (k.itemAt bin place).cost) : k.Followed budget chosen := by
  intro other hother bin hbin
  have hset := hother.toChoice.set hbin (hchoice.place_lt bin hbin)
  refine ⟨hset, le_trans ?_ hother.cost_le⟩
  apply Finset.sum_le_sum
  intro here _
  rw [held, getD_setIfInBounds (hother.size_eq ▸ hbin)]
  split
  · rename_i heq
    rw [heq]
    exact hcheapest bin hbin _ (hother.place_lt bin hbin)
  · exact le_rfl

theorem affordable_of_fits (h : s.Fits k budget least) : k.Affordable budget s.chosen :=
  ⟨h.choice, h.cost ▸ h.affordable⟩

section Pass

variable [IsStrictOrderedRing R] (hk : k.Valid) (hstart : start.Fits k budget least)
  {chosen : Array Nat} (hchosen : k.Choice chosen) (hfollow : k.Followed budget chosen)

include hk hstart hchosen hfollow

/-- The bins that the pass has left behind hold nothing worse than a choice that can be followed. -/
private theorem profit_le_held_foldl (count : Nat) (hcount : count ≤ k.bins.size) :
    ((List.range count).foldl (k.improved budget) start).Fits k budget least ∧
      ∀ bin < count, (k.held chosen bin).profit ≤
        (k.held ((List.range count).foldl (k.improved budget) start).chosen bin).profit := by
  -- on the number of bins left behind; no exchange in a later bin touches them
  induction count with
  | zero => simpa using hstart
  | succ count ih =>
    obtain ⟨hfits, hbehind⟩ := ih (by omega)
    rw [List.range_succ, List.foldl_append, List.foldl_cons, List.foldl_nil]
    generalize (List.range count).foldl (k.improved budget) start = s at *
    refine ⟨(Selection.keeps_fits hk _ _).improved hfits hcount, fun bin hbin => ?_⟩
    rcases Nat.lt_succ_iff_lt_or_eq.1 hbin with hbin | rfl
    · rw [held_improved_of_ne hfits.choice hcount hbin.ne]
      exact hbehind bin hbin
    · -- the item of the other choice can be afforded here
      have hplace := hchosen.place_lt bin hcount
      refine profit_le_held_improved hk hfits.toSound hcount hplace ?_
      rw [(hfits.toSound.put hk hcount hplace).cost]
      exact (hfollow _ (affordable_of_fits hfits) bin hcount).cost_le

/-- **The pass is enough**: no choice that can be followed brings more than what it leads to. -/
theorem total_le_improve {passed : Selection (Exact R)}
    (hpass : k.improve budget start = .ok passed) :
    k.total Item.profit chosen ≤ passed.profit := by
  obtain ⟨hok, -⟩ := improve_eq_ok (Selection.keeps_fits hk budget least) hstart
  rw [hok, Except.ok.injEq] at hpass
  obtain ⟨hfits, hle⟩ := profit_le_held_foldl hk hstart hchosen hfollow _ le_rfl
  rw [hpass] at hfits hle
  rw [hfits.profit]
  exact Finset.sum_le_sum fun bin hbin => hle bin (Finset.mem_range.1 hbin)

omit hstart in
/-- No choice that can be followed brings more than the answer. -/
theorem total_le_of_answers (hbaseline : k.cheapest.cost ≤ budget) {solution : Solution (Exact R)}
    (hanswer : k.Answers budget (fun s => s.Fits k budget k.cheapest.profit) k.cheapest solution) :
    k.total Item.profit chosen ≤ solution.profit := by
  cases hanswer with
  | feasible passed s himprove hs hgain =>
    have hstart : k.cheapest.Fits k budget k.cheapest.profit :=
      ⟨sound_cheapest hk, hbaseline, le_rfl⟩
    -- the random moves have not made the outcome of the pass worse
    calc k.total Item.profit chosen
        ≤ passed.profit := total_le_improve hk hstart hchosen hfollow himprove
      _ ≤ s.profit := Exact.le_of_steps hgain
  | infeasible hbudget => exact absurd hbaseline (not_le_of_gt hbudget)

end Pass

/-! ## Section 3: Choices of offered items -/

section OfBins

variable {bins : List (List (Item (Exact R)))} (hk : ofBins bins = .ok k)
  {item : Nat → Item (Exact R)} (hitem : ∀ bin items, bins[bin]? = some items → item bin ∈ items)

include hk hitem

/-- Pruned items are no loss: in each bin some choice costs no more and brings no less than an
offered item. -/
theorem exists_choice_dominating : ∃ chosen, k.Choice chosen ∧
    ∀ bin < k.bins.size, (k.held chosen bin).cost ≤ (item bin).cost ∧
      (item bin).profit ≤ (k.held chosen bin).profit := by
  have hplace : ∀ bin, ∃ place, bin < k.bins.size → place < k.binSize bin ∧
      (k.itemAt bin place).cost ≤ (item bin).cost ∧
      (item bin).profit ≤ (k.itemAt bin place).profit := by
    intro bin
    by_cases hbin : bin < k.bins.size
    · -- what has been pruned is dominated by something that has not
      have hbins := List.getElem?_eq_getElem (size_ofBins hk ▸ hbin)
      obtain ⟨kept, hkept, hdominates⟩ :=
        Item.exists_mem_prune Exact.orderedOn (Item.proper_true _) (hitem bin _ hbins)
      obtain ⟨place, hlt, rfl⟩ := List.mem_iff_getElem.1 hkept
      refine ⟨place, fun _ => ⟨(binSize_ofBins hk hbins).symm ▸ hlt, ?_⟩⟩
      rwa [itemAt_ofBins hk hbins hlt]
    · exact ⟨0, fun h => absurd h hbin⟩
  choose place hplace using hplace
  have hget : ∀ bin < k.bins.size, ((Array.range k.bins.size).map place).getD bin 0 = place bin :=
    fun bin hbin => by simp [hbin]
  refine ⟨(Array.range k.bins.size).map place, ⟨by simp, fun bin hbin => ?_⟩, fun bin hbin => ?_⟩
  · exact hget bin hbin ▸ (hplace bin hbin).1
  · rw [held, hget bin hbin]
    exact (hplace bin hbin).2

variable [IsStrictOrderedRing R] {solution : Solution (Exact R)} (hvalid : k.Valid)

include hvalid

/-- Offered items bring no more than the answer if the choices that cost no more can be followed. -/
private theorem sum_profit_le_of_followed (hbaseline : k.cheapest.cost ≤ budget)
    (hfollow : ∀ chosen, k.Choice chosen →
      (∀ bin < k.bins.size, (k.held chosen bin).cost ≤ (item bin).cost) →
      k.Followed budget chosen)
    (hanswer : k.Answers budget (fun s => s.Fits k budget k.cheapest.profit) k.cheapest solution) :
    ∑ bin ∈ Finset.range k.bins.size, (item bin).profit ≤ solution.profit := by
  obtain ⟨chosen, hchoice, hdominates⟩ := exists_choice_dominating hk hitem
  have hfollow := hfollow chosen hchoice fun bin hbin => (hdominates bin hbin).1
  calc ∑ bin ∈ Finset.range k.bins.size, (item bin).profit
      ≤ k.total Item.profit chosen :=
        Finset.sum_le_sum fun bin hbin => (hdominates bin (Finset.mem_range.1 hbin)).2
    _ ≤ solution.profit := total_le_of_answers hvalid hchoice hfollow hbaseline hanswer

/-- **Where choices mix, the answer is optimal**: offered items within the budget bring no more. -/
theorem sum_profit_le_of_answers (hmix : k.Mixes budget)
    (hcost : ∑ bin ∈ Finset.range k.bins.size, (item bin).cost ≤ budget)
    (hanswer : k.Answers budget (fun s => s.Fits k budget k.cheapest.profit) k.cheapest solution) :
    ∑ bin ∈ Finset.range k.bins.size, (item bin).profit ≤ solution.profit := by
  have hbaseline : k.cheapest.cost ≤ budget := (cost_cheapest_le hk item hitem).trans hcost
  refine sum_profit_le_of_followed hk hitem hvalid hbaseline (fun chosen hchoice hle => ?_) hanswer
  have htotal : k.total Item.cost chosen ≤ ∑ bin ∈ Finset.range k.bins.size, (item bin).cost :=
    Finset.sum_le_sum fun bin hbin => hle bin (Finset.mem_range.1 hbin)
  exact hmix.followed ⟨hchoice, htotal.trans hcost⟩

/-- **The answer is no worse than the cheapest items** of all bins. -/
theorem sum_profit_cheapest_le_of_answers (hbaseline : k.cheapest.cost ≤ budget)
    (hcheapest : ∀ bin items, bins[bin]? = some items →
      ∀ other ∈ items, (item bin).cost ≤ other.cost)
    (hanswer : k.Answers budget (fun s => s.Fits k budget k.cheapest.profit) k.cheapest solution) :
    ∑ bin ∈ Finset.range k.bins.size, (item bin).profit ≤ solution.profit := by
  refine sum_profit_le_of_followed hk hitem hvalid hbaseline (fun chosen hchoice hle => ?_) hanswer
  apply followed_of_cheapest hchoice
  intro bin hbin place hplace
  -- what costs no more than a cheapest item is a cheapest one itself
  have hbins := List.getElem?_eq_getElem (size_ofBins hk ▸ hbin)
  exact (hle bin hbin).trans (hcheapest bin _ hbins _ (itemAt_mem hk hbins hplace))

end OfBins

end PairedMarkov.Knapsack
