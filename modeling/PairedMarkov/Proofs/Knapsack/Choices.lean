import PairedMarkov.Proofs.Knapsack.Pruning

/-!
# Choices of the knapsack

Whatever costs and profits are, the heuristic only ever exchanges an item of one bin for another
item of the same bin, and only if the budget allows it and the profit goes up. So it never leaves the
bins, and what such exchanges keep holds of all selections that it goes through.

Main statements:
- `Knapsack.improve_eq_ok`: the pass over the bins without checks;
- `Knapsack.exists_solve`: with an item in every bin the heuristic answers, and what exchanges keep
  holds of its answer.
-/

namespace PairedMarkov

open Relation (TransGen ReflTransGen)

variable {W : Type} [Weight W]

namespace Knapsack

/-! ## Section 1: Choices -/

/-- The item at a place of a bin. -/
def itemAt (k : Knapsack W) (bin place : Nat) : Item W :=
  (k.bins.getD bin #[]).getD place ⟨0, 0, 0⟩

/-- The number of items of a bin. -/
def binSize (k : Knapsack W) (bin : Nat) : Nat := (k.bins.getD bin #[]).size

/-- The item that a choice of places takes from a bin. -/
def held (k : Knapsack W) (chosen : Array Nat) (bin : Nat) : Item W :=
  k.itemAt bin (chosen.getD bin 0)

omit [Weight W] in
/-- One place in every bin. -/
structure Choice (k : Knapsack W) (chosen : Array Nat) : Prop where
  size_eq : chosen.size = k.bins.size
  place_lt : ∀ bin < k.bins.size, chosen.getD bin 0 < k.binSize bin

omit [Weight W] in
theorem fetch_bin (k : Knapsack W) {bin : Nat} (hbin : bin < k.bins.size) :
    fetch k.bins bin = .ok (k.bins.getD bin #[]) := by
  simp [fetch_of_lt hbin, hbin]

theorem fetch_item (k : Knapsack W) {bin place : Nat} (hplace : place < k.binSize bin) :
    fetch (k.bins.getD bin #[]) place = .ok (k.itemAt bin place) := by
  rw [fetch_of_lt hplace, itemAt]
  exact congrArg Except.ok (Array.getElem_eq_getD _)

omit [Weight W] in
theorem Choice.fetch_eq_ok {k : Knapsack W} {chosen : Array Nat} (h : k.Choice chosen) {bin : Nat}
    (hbin : bin < k.bins.size) : fetch chosen bin = .ok (chosen.getD bin 0) := by
  have hbin : bin < chosen.size := h.size_eq ▸ hbin
  simp [fetch_of_lt hbin, hbin]

theorem getD_setIfInBounds {chosen : Array Nat} {bin : Nat} (hbin : bin < chosen.size)
    (place other : Nat) :
    (chosen.setIfInBounds bin place).getD other 0 =
      if other = bin then place else chosen.getD other 0 := by
  simp only [Array.getD_eq_getD_getElem?, Array.getElem?_setIfInBounds, eq_comm (a := bin)]
  split
  · rfl
  · rfl

omit [Weight W] in
/-- A choice with another place of one of its bins is a choice. -/
theorem Choice.set {k : Knapsack W} {chosen : Array Nat} (h : k.Choice chosen) {bin place : Nat}
    (hbin : bin < k.bins.size) (hplace : place < k.binSize bin) :
    k.Choice (chosen.setIfInBounds bin place) where
  size_eq := by rw [Array.size_setIfInBounds, h.size_eq]
  place_lt other hother := by
    rw [getD_setIfInBounds (h.size_eq ▸ hbin)]
    split
    · rename_i heq
      exact heq ▸ hplace
    · exact h.place_lt other hother

omit [Weight W] in
/-- Choices with the same place in every bin are the same. -/
theorem Choice.ext {k : Knapsack W} {chosen chosen' : Array Nat} (h : k.Choice chosen)
    (h' : k.Choice chosen')
    (hplaces : ∀ bin < k.bins.size, chosen.getD bin 0 = chosen'.getD bin 0) : chosen = chosen' := by
  apply Array.ext
  · rw [h.size_eq, h'.size_eq]
  · intro bin hbin hbin'
    have hplace := hplaces bin (h.size_eq ▸ hbin)
    simpa [Array.getD_eq_getD_getElem?, hbin, hbin'] using hplace

theorem Choice.fetch_held {k : Knapsack W} {chosen : Array Nat} (h : k.Choice chosen) {bin : Nat}
    (hbin : bin < k.bins.size) :
    fetch (k.bins.getD bin #[]) (chosen.getD bin 0) = .ok (k.held chosen bin) :=
  fetch_item k (h.place_lt bin hbin)

/-- The choice of the first place everywhere. -/
def firstPlaces (k : Knapsack W) : Array Nat := Array.replicate k.bins.size 0

omit [Weight W] in
/-- The first places are a choice if no bin is empty. -/
theorem choice_firstPlaces {k : Knapsack W} (hk : ∀ bin < k.bins.size, 0 < k.binSize bin) :
    k.Choice k.firstPlaces where
  size_eq := by simp [firstPlaces]
  place_lt bin hbin := by simpa [firstPlaces, hbin] using hk bin hbin

/-- The positions of the items that a choice takes. -/
def choicePositions (k : Knapsack W) (chosen : Array Nat) : List Nat :=
  (List.range k.bins.size).map fun bin => (k.held chosen bin).position

/-- The positions of the items of a choice are looked up without a fault. -/
theorem positions_eq_ok {k : Knapsack W} {chosen : Array Nat} (h : k.Choice chosen) :
    k.positions chosen = .ok (k.choicePositions chosen) := by
  rw [positions, h.size_eq]
  refine mapM_eq_ok fun bin hbin => ?_
  have hbin := List.mem_range.1 hbin
  rw [fetch_bin k hbin, ok_bind, h.fetch_eq_ok hbin, ok_bind, h.fetch_held hbin]
  rfl

variable {k : Knapsack W} {budget : W} {s start : Selection W}

/-- The solution that a selection amounts to, without checks. -/
def answerOf (k : Knapsack W) (s : Selection W) : Solution W :=
  ⟨s.profit, s.cost, k.choicePositions s.chosen⟩

theorem solutionOf_eq_ok (h : k.Choice s.chosen) : k.solutionOf s = .ok (k.answerOf s) := by
  rw [solutionOf, positions_eq_ok h]
  rfl

omit [Weight W] in
/-- A bin is open if it has more than one item. -/
theorem mem_openBins_iff {bin : Nat} :
    bin ∈ k.openBins ↔ bin < k.bins.size ∧ 1 < k.binSize bin := by
  simp only [openBins, List.mem_map, List.mem_filter, List.mem_zipIdx_iff_getElem?,
    decide_eq_true_eq, Prod.exists, Array.getElem?_toList, binSize]
  -- bins are listed with their numbers, and the number of a bin is where it stands
  constructor
  · rintro ⟨items, i, ⟨hi, hsize⟩, rfl⟩
    refine ⟨(Array.getElem?_eq_some_iff.1 hi).1, ?_⟩
    rwa [Array.getD_eq_getD_getElem?, hi]
  · rintro ⟨hbin, hsize⟩
    refine ⟨k.bins[bin], bin, ⟨Array.getElem?_eq_getElem hbin, ?_⟩, rfl⟩
    rwa [Array.getD_eq_getD_getElem?, Array.getElem?_eq_getElem hbin] at hsize

/-- If no bin is empty there is a baseline: it takes the first item of every bin. -/
theorem exists_baseline (hk : ∀ bin < k.bins.size, 0 < k.binSize bin) :
    ∃ start, k.baseline = .ok start ∧ start.chosen = k.firstPlaces := by
  have htotal : ∀ quantity, ∃ total, k.baselineTotal quantity = .ok total := by
    intro quantity
    have step : ∀ (total : W), True → ∀ bin ∈ k.bins.toList, ∃ total',
        (return total + quantity (← fetch bin 0) : Except Fault W) = .ok total' ∧ True := by
      intro total _ bin hbin
      -- there is a first item in every bin
      obtain ⟨i, hi, rfl⟩ := List.mem_iff_getElem.1 hbin
      have hi : i < k.bins.size := by simpa using hi
      have hfirst := hk i hi
      simp only [binSize, Array.getD_eq_getD_getElem?, Array.getElem?_eq_getElem hi,
        Option.getD_some] at hfirst
      rw [Array.getElem_toList, fetch_of_lt hfirst]
      exact ⟨_, rfl, trivial⟩
    obtain ⟨total, htotal, -⟩ := exists_foldlM_eq_ok step trivial
    exact ⟨total, htotal⟩
  obtain ⟨cost, hcost⟩ := htotal Item.cost
  obtain ⟨profit, hprofit⟩ := htotal Item.profit
  exact ⟨⟨k.firstPlaces, cost, profit⟩, by rw [baseline, hcost, ok_bind, hprofit]; rfl, rfl⟩

end Knapsack

/-! ## Section 2: Exchanges -/

/-- The selection with another place in one bin. -/
def Selection.put (s : Selection W) (k : Knapsack W) (bin place : Nat) : Selection W where
  chosen := s.chosen.setIfInBounds bin place
  cost := Knapsack.exchange Item.cost s.cost (k.held s.chosen bin) (k.itemAt bin place)
  profit := Knapsack.exchange Item.profit s.profit (k.held s.chosen bin) (k.itemAt bin place)

namespace Knapsack

variable {k : Knapsack W} {budget : W} {s start : Selection W} {P : Selection W → Prop}

/-- A property of selections within the bins that exchanges keep, as long as they fit the budget and
bring more profit. The profit may have grown in several steps. -/
structure Keeps (k : Knapsack W) (budget : W) (P : Selection W → Prop) : Prop where
  choice : ∀ {s}, P s → k.Choice s.chosen
  put : ∀ {s bin place}, P s → bin < k.bins.size → place < k.binSize bin →
    (s.put k bin place).cost ≤ budget → TransGen (· < ·) s.profit (s.put k bin place).profit →
    P (s.put k bin place)

/-- Staying within the bins is kept, whatever the budget. -/
theorem keeps_choice (k : Knapsack W) (budget : W) : Keeps k budget fun s => k.Choice s.chosen :=
  ⟨id, fun h hbin hplace _ _ => h.set hbin hplace⟩

/-! ## Section 3: One pass over the bins -/

/-- An exchange that can be made in a bin: it is affordable and brings more profit. -/
structure Improves (k : Knapsack W) (budget : W) (s : Selection W) (bin place : Nat) : Prop where
  place_lt : place < k.binSize bin
  affordable : (s.put k bin place).cost ≤ budget
  gain : TransGen (· < ·) s.profit (s.put k bin place).profit

/-- The best exchange that has been found in a bin: none, or one that can be made. -/
def Found (k : Knapsack W) (budget : W) (s : Selection W) (bin place : Nat) (profit : W) : Prop :=
  place = s.chosen.getD bin 0 ∧ profit = s.profit ∨
    k.Improves budget s bin place ∧ profit = (s.put k bin place).profit

/-- What has been found in a bin brings at least the profit that is there already. -/
theorem Found.gain {bin place : Nat} {profit : W} (h : Found k budget s bin place profit) :
    ReflTransGen (· < ·) s.profit profit := by
  rcases h with ⟨-, rfl⟩ | ⟨h, rfl⟩
  · exact .refl
  · exact h.gain.to_reflTransGen

/-- Going through more items of a bin still finds an exchange that can be made, or none. -/
private theorem found_bestExchange {bin place best : Nat} {rest : List (Item W)} {profit : W}
    (hrest : (k.bins.getD bin #[]).toList.drop place = rest)
    (h : Found k budget s bin best profit) :
    Found k budget s bin (bestExchange budget s (k.held s.chosen bin) place rest best profit).1
      (bestExchange budget s (k.held s.chosen bin) place rest best profit).2 := by
  -- `place` goes up while the items before it are taken away
  induction rest generalizing place best profit with
  | nil => exact h
  | cons item rest ih =>
    obtain ⟨hget, hnext⟩ := getElem?_of_drop_eq_cons hrest
    rw [Array.getElem?_toList] at hget
    have hitem : k.itemAt bin place = item := by
      rw [itemAt, Array.getD_eq_getD_getElem?, hget, Option.getD_some]
    have hplace : place < k.binSize bin := (Array.getElem?_eq_some_iff.1 hget).1
    rw [bestExchange]
    split
    · -- the item brings more than the best one before it, which brings no less than the held one
      rename_i hgood
      rw [← hitem] at hgood ⊢
      exact ih hnext (Or.inr ⟨⟨hplace, hgood.1, .tail' h.gain hgood.2⟩, rfl⟩)
    · exact ih hnext h

/-- The best exchange of one bin. -/
def bestIn (k : Knapsack W) (budget : W) (s : Selection W) (bin : Nat) : Nat × W :=
  bestExchange budget s (k.held s.chosen bin) 0 (k.bins.getD bin #[]).toList (s.chosen.getD bin 0)
    s.profit

theorem found_bestIn (k : Knapsack W) (budget : W) (s : Selection W) (bin : Nat) :
    Found k budget s bin (k.bestIn budget s bin).1 (k.bestIn budget s bin).2 :=
  found_bestExchange List.drop_zero (Or.inl ⟨rfl, rfl⟩)

/-- The selection with the best exchange of one bin made. -/
def improved (k : Knapsack W) (budget : W) (s : Selection W) (bin : Nat) : Selection W :=
  if (k.bestIn budget s bin).1 = s.chosen.getD bin 0 then s
  else s.put k bin (k.bestIn budget s bin).1

/-- The best exchange of a bin is looked for and made without a fault. -/
theorem improveBin_eq_ok (h : k.Choice s.chosen) {bin : Nat} (hbin : bin < k.bins.size) :
    k.improveBin budget s bin = .ok (k.improved budget s bin) := by
  rw [improveBin, fetch_bin k hbin, ok_bind, h.fetch_eq_ok hbin, ok_bind, h.fetch_held hbin, ok_bind]
  -- what is left is to fetch the item of the best exchange, unless it is the held one
  change (if (k.bestIn budget s bin).1 = s.chosen.getD bin 0 then pure s else do
    let item ← fetch (k.bins.getD bin #[]) (k.bestIn budget s bin).1
    return ⟨s.chosen.setIfInBounds bin (k.bestIn budget s bin).1,
      exchange Item.cost s.cost (k.held s.chosen bin) item, (k.bestIn budget s bin).2⟩) = _
  by_cases hother : (k.bestIn budget s bin).1 = s.chosen.getD bin 0
  · rw [if_pos hother, improved, if_pos hother]
    rfl
  · rw [if_neg hother, improved, if_neg hother]
    obtain ⟨hbest, hprofit⟩ := (found_bestIn k budget s bin).resolve_left fun h => hother h.1
    rw [fetch_item k hbest.place_lt, ok_bind, hprofit]
    rfl

/-- What exchanges keep is kept by the best exchange of a bin. -/
theorem Keeps.improved (hP : Keeps k budget P) (h : P s) {bin : Nat} (hbin : bin < k.bins.size) :
    P (k.improved budget s bin) := by
  unfold Knapsack.improved
  split
  · exact h
  · rename_i hother
    obtain ⟨hbest, -⟩ := (found_bestIn k budget s bin).resolve_left fun h => hother h.1
    exact hP.put h hbin hbest.place_lt hbest.affordable hbest.gain

/-- **The pass** over the bins makes the best exchange of one bin after the other. -/
theorem improve_eq_ok (hP : Keeps k budget P) (h : P s) :
    k.improve budget s = .ok ((List.range k.bins.size).foldl (k.improved budget) s) ∧
      P ((List.range k.bins.size).foldl (k.improved budget) s) := by
  refine foldlM_eq_ok_of_invariant (fun s hs bin hbin => ?_) h
  have hbin := List.mem_range.1 hbin
  exact ⟨improveBin_eq_ok (hP.choice hs) hbin, hP.improved hs hbin⟩

/-! ## Section 4: Random moves -/

/-- What holds of a trial: both of its selections have the property, and the best one has been
reached by steps up from a given profit. -/
structure Trial.Holds (P : Selection W → Prop) (least : W) (t : Trial W) : Prop where
  current : P t.current
  best : P t.best
  gain : ReflTransGen (· < ·) least t.best.profit

variable {σ : Type} [Random.Source σ] {choices : Array Nat} {t : Trial W} {least : W}

section Moves

variable (hP : Keeps k budget P)
  (hchoices : ∀ bin ∈ choices, bin < k.bins.size ∧ 1 < k.binSize bin) (hopen : 0 < choices.size)

include hP hchoices hopen

/-- **A random move** is tried without a fault, and keeps what holds of a trial. -/
theorem exists_move (ht : t.Holds P least) (source : σ) :
    ∃ result, k.move choices budget t source = .ok result ∧ result.1.Holds P least := by
  have hchoice := hP.choice ht.current
  -- the first draw gives an open bin, the second one a place of it
  obtain ⟨drawn, source', hdraw, hdrawn⟩ := Random.exists_draw hopen source
  obtain ⟨hbin, hsize⟩ := hchoices _ (Array.getElem_mem hdrawn)
  rw [move, hdraw, ok_bind]
  dsimp only
  rw [fetch_of_lt hdrawn, ok_bind]
  generalize choices[drawn] = bin at hbin hsize ⊢
  obtain ⟨place, source'', hdraw', hplace⟩ :=
    Random.exists_draw (Nat.sub_pos_of_lt hsize) source'
  rw [fetch_bin k hbin, ok_bind, hchoice.fetch_eq_ok hbin, ok_bind,
    subWords_of_le (show 1 ≤ (k.bins.getD bin #[]).size from hsize.le), ok_bind]
  change ∃ result, (Random.draw (k.binSize bin - 1) source' >>= _) = _ ∧ _
  rw [hdraw', ok_bind]
  dsimp only
  -- the places from the held one on are shifted, so that another place is met
  have hother : (if t.current.chosen.getD bin 0 ≤ place then place + 1 else place) <
      k.binSize bin := by
    split
    · exact Nat.add_lt_of_lt_sub hplace
    · exact Nat.lt_of_lt_of_le hplace (Nat.sub_le _ _)
  generalize (if t.current.chosen.getD bin 0 ≤ place then place + 1 else place) = other
    at hother ⊢
  rw [hchoice.fetch_held hbin, ok_bind, fetch_item k hother, ok_bind]
  split
  · -- the move is made, and is the best one of the trial only if it brings more than that
    rename_i hgood
    have hnew : P (t.current.put k bin other) :=
      hP.put ht.current hbin hother hgood.1 (.single hgood.2)
    refine ⟨_, rfl, hnew, ?_, ?_⟩
    · dsimp only
      split
      · exact hnew
      · exact ht.best
    · dsimp only
      split
      · rename_i hbetter
        exact ht.gain.tail hbetter
      · exact ht.gain
  · exact ⟨_, rfl, ht⟩

theorem exists_moves (ht : t.Holds P least) (count : Nat) (source : σ) :
    ∃ result, k.moves choices budget count t source = .ok result ∧ result.1.Holds P least := by
  induction count generalizing t source with
  | zero => exact ⟨_, rfl, ht⟩
  | succ count ih =>
    obtain ⟨⟨t', source'⟩, hmove, ht'⟩ := exists_move hP hchoices hopen ht source
    rw [moves, hmove, ok_bind]
    exact ih ht' source'

theorem exists_restarts (hstart : P start) (perRestart count : Nat) (hs : P s)
    (hgain : ReflTransGen (· < ·) least s.profit) (source : σ) :
    ∃ result, k.restarts choices budget start perRestart count s source = .ok result ∧
      P result.1 ∧ ReflTransGen (· < ·) least result.1.profit := by
  induction count generalizing s source with
  | zero => exact ⟨_, rfl, hs, hgain⟩
  | succ count ih =>
    -- every restart begins with the same selection and keeps the best one found so far
    obtain ⟨⟨t', source'⟩, hmoves, ht'⟩ :=
      exists_moves hP hchoices hopen (t := ⟨start, s⟩) ⟨hstart, hs, hgain⟩ perRestart source
    rw [restarts, hmoves, ok_bind]
    exact ih ht'.best ht'.gain source'

end Moves

/-! ## Section 5: Answers -/

/-- What an answer means: a selection with the property, not below the one that the pass over the
bins has found, or the baseline, if even that costs too much. -/
inductive Answers (k : Knapsack W) (budget : W) (P : Selection W → Prop) (start : Selection W) :
    Solution W → Prop
  | feasible (improved s : Selection W) (himprove : k.improve budget start = .ok improved)
    (hs : P s) (hgain : ReflTransGen (· < ·) improved.profit s.profit) :
    Answers k budget P start (k.answerOf s)
  | infeasible (h : budget < start.cost) :
    Answers k budget P start (k.answerOf { start with profit := Weight.lowest })

/-- **The heuristic answers**: it never fails from a baseline within the bins. -/
theorem exists_solve (hP : Keeps k budget P) (hbaseline : k.baseline = .ok start)
    (hchoice : k.Choice start.chosen) (hstart : ¬ budget < start.cost → P start) (effort : Effort)
    (source : σ) :
    ∃ result, k.solve budget effort source = .ok result ∧ k.Answers budget P start result.1 := by
  rw [solve, hbaseline, ok_bind]
  split
  · -- over the budget the baseline is answered all the same, as a profit that no choice has
    rename_i hbudget
    have hchoice : k.Choice { start with profit := Weight.lowest }.chosen := hchoice
    rw [solutionOf_eq_ok hchoice, ok_bind]
    exact ⟨_, rfl, .infeasible hbudget⟩
  · rename_i hbudget
    have hstart := hstart hbudget
    obtain ⟨himprove, hpassed⟩ := improve_eq_ok hP hstart
    have himprove' := himprove
    rw [himprove, ok_bind]
    generalize (List.range k.bins.size).foldl (k.improved budget) start = passed at *
    dsimp only
    split
    · -- no bin leaves a choice
      rw [solutionOf_eq_ok (hP.choice hpassed), ok_bind]
      exact ⟨_, rfl, .feasible passed passed himprove' hpassed .refl⟩
    · -- random moves start from the baseline, and have to be better than the pass
      rename_i hopen
      have hchoices : ∀ bin ∈ k.openBins.toArray, bin < k.bins.size ∧ 1 < k.binSize bin :=
        fun bin hbin => mem_openBins_iff.1 (List.mem_toArray.1 hbin)
      have hsize : 0 < k.openBins.toArray.size := by
        simpa [List.length_pos_iff] using hopen
      obtain ⟨⟨best, source'⟩, hrestarts, hbest, hgain⟩ :=
        exists_restarts hP hchoices hsize hstart effort.moves effort.restarts hpassed .refl source
      rw [hrestarts, ok_bind]
      change ∃ result, (k.solutionOf best >>= fun solution => pure (solution, source')) = _ ∧ _
      rw [solutionOf_eq_ok (hP.choice hbest), ok_bind]
      exact ⟨_, rfl, .feasible passed best himprove' hbest hgain⟩

/-! ## Section 6: Knapsacks of given bins -/

section OfBins

variable {bins : List (List (Item W))} {items : List (Item W)} {bin place : Nat}
  (hk : ofBins bins = .ok k)

include hk

theorem size_ofBins : k.bins.size = bins.length := by
  obtain ⟨-, rfl⟩ := ofBins_eq_ok_iff.1 hk
  simp

/-- A bin of a knapsack is what pruning has left of the items it was made of. -/
theorem bin_ofBins (hbin : bins[bin]? = some items) :
    k.bins.getD bin #[] = (Item.prune items).toArray := by
  obtain ⟨-, rfl⟩ := ofBins_eq_ok_iff.1 hk
  simp [Array.getD_eq_getD_getElem?, hbin]

theorem binSize_ofBins (hbin : bins[bin]? = some items) :
    k.binSize bin = (Item.prune items).length := by
  rw [binSize, bin_ofBins hk hbin, List.size_toArray]

theorem itemAt_ofBins (hbin : bins[bin]? = some items) (hplace : place < (Item.prune items).length) :
    k.itemAt bin place = (Item.prune items)[place] := by
  simp [itemAt, bin_ofBins hk hbin, Array.getD_eq_getD_getElem?, hplace]

/-- The items of a knapsack are items of the bins that it was made of. -/
theorem itemAt_mem (hbin : bins[bin]? = some items) (hplace : place < k.binSize bin) :
    k.itemAt bin place ∈ items := by
  rw [binSize_ofBins hk hbin] at hplace
  rw [itemAt_ofBins hk hbin hplace]
  exact Item.mem_of_mem_prune (List.getElem_mem _)

/-- Pruning leaves no bin empty. -/
theorem binSize_pos (hbin : bin < k.bins.size) : 0 < k.binSize bin := by
  rw [size_ofBins hk] at hbin
  have hnonempty := (ofBins_eq_ok_iff.1 hk).1 _ (List.getElem_mem hbin)
  rw [binSize_ofBins hk (List.getElem?_eq_getElem hbin)]
  exact List.length_pos_iff.2 (Item.prune_ne_nil hnonempty)

end OfBins

end Knapsack

end PairedMarkov
