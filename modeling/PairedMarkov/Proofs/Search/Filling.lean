import PairedMarkov.Proofs.Buckets.Aggregates
import PairedMarkov.Proofs.Knapsack.Selections
import PairedMarkov.Search.Filling

/-!
# Filling is complete

With the values of the cut fixed, a score is what the overflow contributes and one term for each
component, and the items of a component are all values that its term can have. So the total cost of
a choice is the constraint score of the assignment it is written to, up to the overflow, and the
baseline of the knapsack is the least constraint score under the cut.

Main statements: `Search.exists_fill`, filling always succeeds if the items fit into memory, and
`Search.filled_of_fill`, what the filled assignment is.
-/

namespace PairedMarkov.Search

/-! ## Section 1: Writing choices -/

section Writing

variable {domains : Domains} {x : Assignment}

/-- The assignment with the joint values at the given addresses written into scopes. -/
def writeAll (domains : Domains) : List Scope → List Nat → Assignment → Assignment
  | scope :: scopes, choice :: choices, x =>
    writeAll domains scopes choices (scope.write domains choice x)
  | _, _, x => x

theorem writeChoices_eq_ok (hd : domains.Positive) {scopes : List Scope}
    (hscopes : ∀ scope ∈ scopes, scope.InRange domains) (choices : List Nat) (x : Assignment) :
    writeChoices domains scopes choices x = .ok (writeAll domains scopes choices x) := by
  induction scopes generalizing choices x with
  | nil => rfl
  | cons scope scopes ih =>
    obtain ⟨hscope, hscopes⟩ := List.forall_mem_cons.1 hscopes
    cases choices with
    | nil => rfl
    | cons choice choices =>
      rw [writeChoices, Scope.assign_eq_ok hd hscope, ok_bind, ih hscopes]
      rfl

theorem inside_writeAll (hx : x.Inside domains) (scopes : List Scope) (choices : List Nat) :
    (writeAll domains scopes choices x).Inside domains := by
  induction scopes generalizing choices x with
  | nil => exact hx
  | cons scope scopes ih =>
    cases choices with
    | nil => exact hx
    | cons choice choices => exact ih (Scope.inside_write hx scope choice) choices

theorem valueAt_writeAll_of_notMem (hx : x.size = domains.size) {scopes : List Scope}
    (hscopes : ∀ scope ∈ scopes, scope.InRange domains) {v : Nat} (hv : v ∉ scopes.flatten)
    (choices : List Nat) : (writeAll domains scopes choices x).valueAt v = x.valueAt v := by
  induction scopes generalizing choices x with
  | nil => rfl
  | cons scope scopes ih =>
    obtain ⟨hscope, hscopes⟩ := List.forall_mem_cons.1 hscopes
    -- the variable is in none of the scopes that are written
    obtain ⟨hfirst, hrest⟩ := not_or.1 (mt List.mem_append.2 hv)
    cases choices with
    | nil => rfl
    | cons choice choices =>
      rw [writeAll, ih ((Scope.size_write ..).trans hx) hscopes hrest,
        Scope.valueAt_write_of_notMem hscope hx hfirst]

/-- Scopes without common variables get exactly the joint values that were chosen for them. -/
theorem map_index_writeAll (hx : x.Inside domains) {scopes : List Scope} {choices : List Nat}
    (hscopes : ∀ scope ∈ scopes, scope.InRange domains) (hnodup : scopes.flatten.Nodup)
    (hchoices : List.Forall₂ (fun scope choice => choice < scope.capacity domains) scopes choices) :
    scopes.map (Scope.index domains (writeAll domains scopes choices x)) = choices := by
  induction hchoices generalizing x with
  | nil => rfl
  | @cons scope choice scopes choices hchoice _ ih =>
    obtain ⟨hscope, hscopes⟩ := List.forall_mem_cons.1 hscopes
    obtain ⟨hfirst, hrest, hdisjoint⟩ := List.nodup_append.1 hnodup
    have hwritten := Scope.inside_write hx scope choice
    rw [List.map_cons, writeAll, ih hwritten hscopes hrest]
    apply congrArg (· :: choices)
    -- what is written later leaves the first scope alone
    rw [Scope.index_congr fun v hv => valueAt_writeAll_of_notMem hwritten.size_eq hscopes
      (fun hflat => hdisjoint v hv v hflat rfl) choices]
    exact Scope.index_write hx hscope hfirst hchoice

end Writing

/-! ## Section 2: Components as bins -/

variable {W : Type} [Weight W] {p : Problem W} {d : Decomposition} {b : Buckets} {width : Nat}
  {x y z : Assignment}

/-- The items of a component, one for each of its joint values, have a place in memory. -/
def AllocatesItems {W : Type} (p : Problem W) (scope : Scope) : Prop :=
  Item.bytes * scope.capacity p.domains < memoryLimit

omit [Weight W] in
/-- An item takes more room than an entry. -/
theorem AllocatesItems.allocates {scope : Scope} (h : AllocatesItems p scope) :
    p.Allocates scope := by
  simp only [AllocatesItems, Item.bytes] at h
  simp only [Problem.Allocates, Factor.entryBytes]
  omega

omit [Weight W] in
/-- There is room for fewer than `2 ^ 58` items. -/
theorem allocatesItems_of_capacity_lt {scope : Scope} (h : scope.capacity p.domains < 2 ^ 58) :
    AllocatesItems p scope := by
  simp only [AllocatesItems, Item.bytes, memoryLimit, wordLimit, UInt64.size]
  omega

/-- The items of a component: its joint values with what they contribute. -/
def componentItems (p : Problem W) (b : Buckets) (x : Assignment) (c : Nat) (scope : Scope) :
    List (Item W) :=
  Item.offer (Aggregate.merged p b x c scope).cost.table.toList
    (Aggregate.merged p b x c scope).profit.table.toList

/-- The bins of a decomposition. -/
def componentBins (p : Problem W) (b : Buckets) (x : Assignment) (d : Decomposition) :
    List (List (Item W)) :=
  d.components.zipIdx.map fun (scope, c) => componentItems p b x c scope

private theorem itemsOf_merged_eq_ok_iff {c : Nat} {scope : Scope} {items : List (Item W)} :
    Knapsack.itemsOf (Aggregate.merged p b x c scope) = .ok items ↔
      AllocatesItems p scope ∧ items = componentItems p b x c scope := by
  have hsize (role : Role) (ids : List Nat) := Problem.size_merged p role ids x scope
  have hscope : (Aggregate.merged p b x c scope).cost.scope =
      (Aggregate.merged p b x c scope).profit.scope := rfl
  rw [Knapsack.itemsOf, if_pos hscope]
  simp only [Aggregate.merged, hsize, min_self, bind_eq_ok_iff, Problem.allocate_eq_ok_iff,
    pure_eq_ok_iff]
  exact ⟨fun ⟨_, hfits, hitems⟩ => ⟨hfits, hitems.symm⟩,
    fun ⟨hfits, hitems⟩ => ⟨(), hfits, hitems.symm⟩⟩

/-- The aggregates make up the bins of the decomposition, if there is room for the items. -/
theorem ofAggregates_mergedFrom_eq_ok_iff {k : Knapsack W} :
    Knapsack.ofAggregates (Aggregate.mergedFrom p b x 0 d.components) = .ok k ↔
      (∀ scope ∈ d.components, AllocatesItems p scope) ∧
        Knapsack.ofBins (componentBins p b x d) = .ok k := by
  have hitems : ∀ entry ∈ d.components.zipIdx, ∀ items,
      Knapsack.itemsOf (Aggregate.merged p b x entry.2 entry.1) = .ok items ↔
        AllocatesItems p entry.1 ∧ items = componentItems p b x entry.2 entry.1 :=
    fun _ _ _ => itemsOf_merged_eq_ok_iff
  have hroom : (∀ entry ∈ d.components.zipIdx, AllocatesItems p entry.1) ↔
      ∀ scope ∈ d.components, AllocatesItems p scope := by
    conv_rhs => rw [← List.zipIdx_map_fst 0 d.components, List.forall_mem_map]
  rw [Knapsack.ofAggregates, Aggregate.mergedFrom, List.mapM_map, bind_eq_ok_iff]
  simp only [Function.comp_def, mapM_eq_ok_iff hitems, hroom]
  constructor
  · rintro ⟨_, ⟨hfits, rfl⟩, hk⟩
    exact ⟨hfits, hk⟩
  · rintro ⟨hfits, hk⟩
    exact ⟨_, ⟨hfits, rfl⟩, hk⟩

theorem componentBins_getElem? {c : Nat} {scope : Scope} (hc : d.components[c]? = some scope) :
    (componentBins p b x d)[c]? = some (componentItems p b x c scope) := by
  simp [componentBins, hc]

theorem position_lt_of_mem_componentItems {c : Nat} {scope : Scope} {item : Item W}
    (hitem : item ∈ componentItems p b x c scope) :
    item.position < scope.capacity p.domains := by
  obtain ⟨hcost, -⟩ := Item.mem_offer_iff.1 hitem
  obtain ⟨hlt, -⟩ := List.getElem?_eq_some_iff.1 hcost
  rwa [Array.length_toList, Aggregate.merged, Problem.size_merged] at hlt

/-- What an assignment takes from a component, as an item. -/
def takenItem (p : Problem W) (d : Decomposition) (b : Buckets) (z : Assignment) (c : Nat) :
    Item W where
  cost := p.partialTotal .constraint z (b.bucketIds .constraint c)
  profit := p.partialTotal .objective z (b.bucketIds .objective c)
  position := Scope.index p.domains z (d.components.getD c [])

section Agreeing

variable (hp : p.Tabulated) (hd : d.Separates width p.domains.size p.scopes) (hb : b.Shares p d)
  (hx : x.Inside p.domains) (hz : z.Inside p.domains)
  (hcut : ∀ v ∈ d.cut, z.valueAt v = x.valueAt v) {c : Nat} {scope : Scope}
  (hc : d.components[c]? = some scope)

include hp hd hb hx hz hcut hc

/-- The items of a component are what its bucket contributes under the assignments that agree on the
cut. -/
theorem mem_componentItems_iff {item : Item W}
    (hposition : item.position = Scope.index p.domains z scope) :
    item ∈ componentItems p b x c scope ↔
      item.cost = p.partialTotal .constraint z (b.bucketIds .constraint c) ∧
        item.profit = p.partialTotal .objective z (b.bucketIds .objective c) := by
  have hcost := Aggregate.entry_merged hp hd hb hx hz hcut hc .constraint
  have hprofit := Aggregate.entry_merged hp hd hb hx hz hcut hc .objective
  simp only [Aggregate.factor] at hcost hprofit
  rw [componentItems, Item.mem_offer_iff, hposition, Array.getElem?_toList, Array.getElem?_toList,
    hcost, hprofit, Option.some.injEq, Option.some.injEq, eq_comm, @eq_comm _ _ item.profit]

omit hc

/-- What an assignment takes from a component is offered by the bin of the component. -/
theorem takenItem_mem (c : Nat) (items : List (Item W))
    (hitems : (componentBins p b x d)[c]? = some items) : takenItem p d b z c ∈ items := by
  have hlt : c < d.components.length := by
    have := (List.getElem?_eq_some_iff.1 hitems).1
    rwa [componentBins, List.length_map, List.length_zipIdx] at this
  have hc := List.getElem?_eq_getElem hlt
  rw [componentBins_getElem? hc, Option.some.injEq] at hitems
  rw [← hitems]
  refine (mem_componentItems_iff hp hd hb hx hz hcut hc ?_).2 ⟨rfl, rfl⟩
  simp [takenItem, hlt]

end Agreeing

/-! ## Section 3: Choices and assignments -/

/-- The assignment with the joint values that a choice takes. -/
def taking (p : Problem W) (d : Decomposition) (k : Knapsack W) (chosen : Array Nat)
    (x : Assignment) : Assignment :=
  writeAll p.domains d.components (k.choicePositions chosen) x

theorem inside_taking (hx : x.Inside p.domains) (k : Knapsack W) (chosen : Array Nat) :
    (taking p d k chosen x).Inside p.domains :=
  inside_writeAll hx ..

/-- A choice changes no variable of the cut. -/
theorem valueAt_taking (hd : d.Separates width p.domains.size p.scopes) (hx : x.Inside p.domains)
    (k : Knapsack W) (chosen : Array Nat) {v : Nat} (hv : v ∈ d.cut) :
    (taking p d k chosen x).valueAt v = x.valueAt v := by
  have hnodup := hd.partition.nodup_iff.2 List.nodup_range
  have hout : v ∉ d.components.flatten := fun hflat =>
    (List.nodup_append.1 hnodup).2.2 v hv v hflat rfl
  exact valueAt_writeAll_of_notMem hx.size_eq hd.inRange_components hout _

section Choices

variable (hp : p.Tabulated) (hd : d.Separates width p.domains.size p.scopes) (hb : b.Shares p d)
  (hx : x.Inside p.domains)

include hp hd hb

/-- The overflow contributes the same under all assignments that agree on the cut. -/
theorem overflow_congr (hcut : ∀ v ∈ d.cut, z.valueAt v = x.valueAt v) (role : Role) :
    p.partialTotal role z (b.share role).overflow =
      p.partialTotal role x (b.share role).overflow := by
  refine Problem.partialTotal_congr fun id hid v hv => hcut v ?_
  have hv' := hp.inRange _ (Problem.scopeOf_mem_scopes hv) v hv
  exact (hd.componentOf_eq_none v hv').1 (hb.overflow role id hid v hv)

include hx

/-- The components make a knapsack, since no table is empty. -/
theorem exists_ofBins : ∃ k, Knapsack.ofBins (componentBins p b x d) = .ok k := by
  refine ⟨_, Knapsack.ofBins_eq_ok_iff.2 ⟨fun items hitems => ?_, rfl⟩⟩
  obtain ⟨⟨scope, c⟩, hc, rfl⟩ := List.mem_map.1 hitems
  have hc := List.mem_zipIdx_iff_getElem?.1 hc
  exact List.ne_nil_of_mem (a := ⟨_, _, _⟩)
    ((mem_componentItems_iff hp hd hb hx hx (fun _ _ => rfl) hc rfl).2 ⟨rfl, rfl⟩)

variable {k : Knapsack W} (hk : Knapsack.ofBins (componentBins p b x d) = .ok k)

include hk

omit hp hd hb hx in
theorem size_componentBins : k.bins.size = d.components.length := by
  rw [Knapsack.size_ofBins hk, componentBins, List.length_map, List.length_zipIdx]

omit hp hd hb hx in
/-- A choice takes an item of each component. -/
theorem held_mem_componentItems {chosen : Array Nat} (hchosen : k.Choice chosen) {c : Nat}
    {scope : Scope} (hc : d.components[c]? = some scope) :
    k.held chosen c ∈ componentItems p b x c scope := by
  have hlt := size_componentBins hk ▸ (List.getElem?_eq_some_iff.1 hc).1
  exact Knapsack.itemAt_mem hk (componentBins_getElem? hc) (hchosen.place_lt c hlt)

omit hp hb in
/-- A component has the joint value that is chosen for it. -/
theorem index_taking {chosen : Array Nat} (hchosen : k.Choice chosen) {c : Nat} {scope : Scope}
    (hc : d.components[c]? = some scope) :
    Scope.index p.domains (taking p d k chosen x) scope = (k.held chosen c).position := by
  have hsize := size_componentBins hk
  have hnodup := hd.partition.nodup_iff.2 List.nodup_range
  have hindices : d.components.map (Scope.index p.domains (taking p d k chosen x)) =
      k.choicePositions chosen := by
    apply map_index_writeAll hx hd.inRange_components (List.nodup_append.1 hnodup).2.1
    -- the position of an item is the index of a joint value
    refine List.forall₂_iff_get.2 ⟨by simp [Knapsack.choicePositions, hsize], fun c hc _ => ?_⟩
    have hheld := held_mem_componentItems hk hchosen (List.getElem?_eq_getElem hc)
    simpa [Knapsack.choicePositions] using position_lt_of_mem_componentItems hheld
  have hposition := congrArg (·[c]?) hindices
  obtain ⟨hlt, rfl⟩ := List.getElem?_eq_some_iff.1 hc
  simpa [Knapsack.choicePositions, hsize, hlt] using hposition

/-- A component contributes what the item costs and brings that is chosen for it. -/
theorem held_eq {chosen : Array Nat} (hchosen : k.Choice chosen) {c : Nat}
    (hc : c < d.components.length) :
    (k.held chosen c).cost =
        p.partialTotal .constraint (taking p d k chosen x) (b.bucketIds .constraint c) ∧
      (k.held chosen c).profit =
        p.partialTotal .objective (taking p d k chosen x) (b.bucketIds .objective c) := by
  have hscope := List.getElem?_eq_getElem hc
  have hposition := index_taking hd hx hk hchosen hscope
  exact (mem_componentItems_iff hp hd hb hx (inside_taking hx k chosen)
    (fun _ hv => valueAt_taking hd hx k chosen hv) hscope hposition.symm).1
    (held_mem_componentItems hk hchosen hscope)

end Choices

/-! ## Section 4: Filling without checks -/

/-- What the threshold leaves to the components. -/
def budgetOf (p : Problem W) (threshold : W) (b : Buckets) (x : Assignment) : W :=
  threshold - p.partialTotal .constraint x (b.share .constraint).overflow

/-- The filling by a solution of the knapsack of the components. -/
def fillingBy {σ : Type} (p : Problem W) (threshold : W) (d : Decomposition) (b : Buckets)
    (x : Assignment) (k : Knapsack W) (result : Solution W × σ) : Filling W σ where
  bins := k.bins.size
  fixed := k.fixedCount
  budget := budgetOf p threshold b x
  solution := result.1
  objective := result.1.profit + p.partialTotal .objective x (b.share .objective).overflow
  aggregates := Aggregate.mergedFrom p b x 0 d.components
  assignment := writeAll p.domains d.components result.1.choices x
  source := result.2

section Fills

variable {threshold : W} {effort : Effort} {σ : Type} [Random.Source σ] {source : σ}
  (hp : p.Tabulated) (hd : d.Separates width p.domains.size p.scopes) (hb : b.Shares p d)
  (hx : x.Inside p.domains) (hy : y.Inside p.domains)

include hp hd hb hx hy

/-- What has been filled has had room for its items. -/
theorem allocatesItems_of_fill (hfits : ∀ scope ∈ d.components, p.Allocates scope)
    {f : Filling W σ}
    (hfill : fill p threshold effort d b (Aggregate.mergedFrom p b y 0 d.components) x source =
      .ok f) : ∀ scope ∈ d.components, AllocatesItems p scope := by
  -- of the steps of a filling only the refresh and the making of the bins matter
  obtain ⟨_, -, hrest⟩ := bind_eq_ok_iff.1 hfill
  obtain ⟨_, -, hrest⟩ := bind_eq_ok_iff.1 hrest
  obtain ⟨aggregates, hrefresh, hrest⟩ := bind_eq_ok_iff.1 hrest
  obtain ⟨k, hk, -⟩ := bind_eq_ok_iff.1 hrest
  rw [Aggregate.refresh_eq_ok hp hd hb hx hy hfits, Except.ok.injEq] at hrefresh
  exact (ofAggregates_mergedFrom_eq_ok_iff.1 (hrefresh ▸ hk)).1

variable (hitems : ∀ scope ∈ d.components, AllocatesItems p scope)

include hitems

/-- **Filling** is solving the knapsack of the components, whatever assignment the given aggregates
come from. -/
theorem fill_eq_ok {k : Knapsack W} (hk : Knapsack.ofBins (componentBins p b x d) = .ok k)
    {result : Solution W × σ}
    (hsolve : k.solve (budgetOf p threshold b x) effort source = .ok result) :
    fill p threshold effort d b (Aggregate.mergedFrom p b y 0 d.components) x source =
      .ok (fillingBy p threshold d b x k result) := by
  have hfits := fun scope hscope => (hitems scope hscope).allocates
  rw [fill, Buckets.overflowScore, Buckets.overflowScore,
    Problem.partialScore_eq_ok hp hx (hb.overflow_lt .constraint), ok_bind,
    Problem.partialScore_eq_ok hp hx (hb.overflow_lt .objective), ok_bind,
    Aggregate.refresh_eq_ok hp hd hb hx hy hfits, ok_bind,
    ofAggregates_mergedFrom_eq_ok_iff.2 ⟨hitems, hk⟩, ok_bind]
  change (k.solve (budgetOf p threshold b x) effort source >>= _) = _
  rw [hsolve, ok_bind]
  dsimp only
  rw [writeChoices_eq_ok hp.positive hd.inRange_components, ok_bind]
  rfl

/-- With room for the items filling never fails, and stays inside the domains. -/
theorem exists_fill (threshold : W) (effort : Effort) (source : σ) :
    ∃ f, fill p threshold effort d b (Aggregate.mergedFrom p b y 0 d.components) x source = .ok f ∧
      f.aggregates = Aggregate.mergedFrom p b x 0 d.components ∧ f.assignment.Inside p.domains := by
  obtain ⟨k, hk⟩ := exists_ofBins hp hd hb hx
  have hnonempty : ∀ bin < k.bins.size, 0 < k.binSize bin := fun _ => Knapsack.binSize_pos hk
  obtain ⟨start, hstart, hfirst⟩ := Knapsack.exists_baseline hnonempty
  have hchoice : k.Choice start.chosen := hfirst ▸ Knapsack.choice_firstPlaces hnonempty
  obtain ⟨result, hsolve, -⟩ := Knapsack.exists_solve (Knapsack.keeps_choice k _) hstart hchoice
    (fun _ => hchoice) effort source
  exact ⟨_, fill_eq_ok hp hd hb hx hy hitems hk hsolve, rfl, inside_writeAll hx ..⟩

end Fills

/-! ## Section 5: Exact scores of choices -/

section ExactScores

variable {R : Type} [Ring R] [LinearOrder R] {p : Problem (Exact R)}

theorem isNumber_of_mem_componentItems (hn : p.Numeric) {c : Nat} {scope : Scope}
    {item : Item (Exact R)} (hitem : item ∈ componentItems p b x c scope) :
    item.cost.IsNumber ∧ item.profit.IsNumber := by
  have hentry : ∀ role ids, ∀ w ∈ (p.merged role ids x scope).table.toList, w.IsNumber := by
    intro role ids w hw
    obtain ⟨index, -, rfl⟩ := Array.mem_map.1 (Array.mem_toList_iff.1 hw)
    exact hn.partialTotal role _ ids
  obtain ⟨hcost, hprofit⟩ := Item.mem_offer_iff.1 hitem
  exact ⟨hentry _ _ _ (List.mem_of_getElem? hcost), hentry _ _ _ (List.mem_of_getElem? hprofit)⟩

theorem valid_ofComponentBins (hn : p.Numeric) {k : Knapsack (Exact R)}
    (hk : Knapsack.ofBins (componentBins p b x d) = .ok k) : k.Valid :=
  Knapsack.valid_ofBins hk fun items hitems item hitem => by
    obtain ⟨⟨scope, c⟩, -, rfl⟩ := List.mem_map.1 hitems
    exact isNumber_of_mem_componentItems hn hitem

section Totals

variable (hp : p.Tabulated) (hd : d.Separates width p.domains.size p.scopes) (hb : b.Shares p d)
  (hx : x.Inside p.domains) {k : Knapsack (Exact R)}
  (hk : Knapsack.ofBins (componentBins p b x d) = .ok k)

include hp hd hb hx hk

/-- **The scores of a choice** are its totals and what the overflow contributes. -/
theorem total_taking {chosen : Array Nat} (hchosen : k.Choice chosen) :
    p.total .constraint (taking p d k chosen x) = k.total Item.cost chosen +
        p.partialTotal .constraint x (b.share .constraint).overflow ∧
      p.total .objective (taking p d k chosen x) = k.total Item.profit chosen +
        p.partialTotal .objective x (b.share .objective).overflow := by
  have hcut : ∀ v ∈ d.cut, (taking p d k chosen x).valueAt v = x.valueAt v := fun _ hv =>
    valueAt_taking hd hx k chosen hv
  have hheld (c : Nat) (hc : c ∈ Finset.range d.components.length) :=
    held_eq hp hd hb hx hk hchosen (Finset.mem_range.1 hc)
  -- both scores separate into the overflow and one term for each component
  constructor
  · rw [Problem.total_eq_overflow_add hb, overflow_congr hp hd hb hcut, add_comm, Knapsack.total,
      size_componentBins hk, Finset.sum_congr rfl fun c hc => (hheld c hc).1]
  · rw [Problem.total_eq_overflow_add hb, overflow_congr hp hd hb hcut, add_comm, Knapsack.total,
      size_componentBins hk, Finset.sum_congr rfl fun c hc => (hheld c hc).2]

/-- No assignment that agrees on the cut costs less in its components than the baseline, which has a
cheapest item of each bin. -/
theorem cheapest_le [IsStrictOrderedRing R] (hz : z.Inside p.domains)
    (hcut : ∀ v ∈ d.cut, z.valueAt v = x.valueAt v) :
    k.cheapest.cost ≤ ∑ c ∈ Finset.range d.components.length,
      p.partialTotal .constraint z (b.bucketIds .constraint c) := by
  rw [← size_componentBins hk]
  exact Knapsack.cost_cheapest_le hk (takenItem p d b z) (takenItem_mem hp hd hb hx hz hcut)

end Totals

end ExactScores

/-! ## Section 6: Filled assignments -/

section Filled

variable {R : Type} [Ring R] [LinearOrder R] {p : Problem (Exact R)} {σ : Type}

/-- What a filling promises: it changes no variable of the cut, and stays under the threshold if
that is possible without such a change. If not, the assignment has the least constraint score that
is possible. -/
structure Filled (p : Problem (Exact R)) (threshold : Exact R) (d : Decomposition) (x : Assignment)
    (f : Filling (Exact R) σ) : Prop where
  inside : f.assignment.Inside p.domains
  agrees : ∀ v ∈ d.cut, f.assignment.valueAt v = x.valueAt v
  feasible : f.solution.isFeasible = true →
    p.total .constraint f.assignment ≤ threshold ∧
      f.objective = p.total .objective f.assignment
  infeasible : f.solution.isFeasible = false →
    threshold < p.total .constraint f.assignment ∧
      ∀ z, z.Inside p.domains → (∀ v ∈ d.cut, z.valueAt v = x.valueAt v) →
        p.total .constraint f.assignment ≤ p.total .constraint z

variable [IsStrictOrderedRing R] {threshold : Exact R} (hp : p.Tabulated) (hn : p.Numeric)
  (hd : d.Separates width p.domains.size p.scopes) (hb : b.Shares p d) (hx : x.Inside p.domains)

include hp hn hd hb hx

section Promises

variable {k : Knapsack (Exact R)} (hk : Knapsack.ofBins (componentBins p b x d) = .ok k)
  {result : Solution (Exact R) × σ}

include hk

/-- A selection within the budget gives an assignment under the threshold. -/
private theorem filled_of_fits {s : Selection (Exact R)} {least : Exact R}
    (hs : s.Fits k (budgetOf p threshold b x) least) (hresult : result.1 = k.answerOf s) :
    Filled p threshold d x (fillingBy p threshold d b x k result) := by
  have hvalid := valid_ofComponentBins hn hk
  have hnumber := hn.partialTotal .constraint x (b.share .constraint).overflow
  obtain ⟨hcost, hgain⟩ := total_taking hp hd hb hx hk hs.choice
  have hassignment : (fillingBy p threshold d b x k result).assignment =
      taking p d k s.chosen x := by
    rw [fillingBy, hresult]
    rfl
  refine ⟨hassignment ▸ inside_taking hx k _, fun v hv => ?_, fun _ => ⟨?_, ?_⟩, fun hno => ?_⟩
  · rw [hassignment, valueAt_taking hd hx k _ hv]
  · rw [hassignment, hcost, ← hs.cost]
    exact (Exact.le_sub_number_iff hnumber).1 hs.affordable
  · rw [hassignment, hgain, ← hs.profit, fillingBy, hresult]
    rfl
  · -- the profit is a number, which no infeasible solution has
    have hfeasible : result.1.profit ≠ Exact.below := by
      rw [hresult, Knapsack.answerOf, hs.profit]
      exact (Knapsack.isNumber_total hs.choice hvalid.profit).ne_below
    have hyes : (fillingBy p threshold d b x k result).solution.isFeasible = true :=
      Solution.isFeasible_iff.2 hfeasible
    rw [hyes] at hno
    cases hno

/-- If even the baseline is above the budget, then no assignment is under the threshold. -/
private theorem filled_of_lt (hbudget : budgetOf p threshold b x < k.cheapest.cost)
    (hresult : result.1 = k.answerOf { k.cheapest with profit := Weight.lowest }) :
    Filled p threshold d x (fillingBy p threshold d b x k result) := by
  have hvalid := valid_ofComponentBins hn hk
  have hnumber := hn.partialTotal .constraint x (b.share .constraint).overflow
  obtain ⟨hcost, -⟩ := total_taking hp hd hb hx hk (Knapsack.choice_firstPlaces hvalid.nonempty)
  have hassignment : (fillingBy p threshold d b x k result).assignment =
      taking p d k k.firstPlaces x := by
    rw [fillingBy, hresult]
    rfl
  have hprofit : result.1.profit = Exact.below := by
    rw [hresult]
    rfl
  have htotal : p.total .constraint (taking p d k k.firstPlaces x) =
      k.cheapest.cost + p.partialTotal .constraint x (b.share .constraint).overflow := by
    rw [hcost]
    rfl
  refine ⟨hassignment ▸ inside_taking hx k _, fun v hv => ?_,
    fun hyes => absurd hprofit (Solution.isFeasible_iff.1 hyes), fun _ => ⟨?_, fun z hz hzcut => ?_⟩⟩
  · rw [hassignment, valueAt_taking hd hx k _ hv]
  · rw [hassignment, htotal]
    exact (Exact.sub_number_lt_iff hnumber).1 hbudget
  · -- with the cut held, only the components can make a difference, and the baseline is their least
    rw [hassignment, htotal, Problem.total_eq_overflow_add hb, overflow_congr hp hd hb hzcut,
      add_comm]
    exact add_le_add_right (cheapest_le hp hd hb hx hk hz hzcut) _

end Promises

variable [Random.Source σ]

omit [IsStrictOrderedRing R] in
/-- A filling is one by the answer of the knapsack of the components. -/
theorem exists_answer_of_fill (hfits : ∀ scope ∈ d.components, p.Allocates scope)
    (hy : y.Inside p.domains) {effort : Effort} {source : σ} {f : Filling (Exact R) σ}
    (hfill : fill p threshold effort d b (Aggregate.mergedFrom p b y 0 d.components) x source =
      .ok f) :
    ∃ k result, Knapsack.ofBins (componentBins p b x d) = .ok k ∧
      k.Answers (budgetOf p threshold b x)
        (fun s => s.Fits k (budgetOf p threshold b x) k.cheapest.profit) k.cheapest result.1 ∧
      f = fillingBy p threshold d b x k result := by
  obtain ⟨k, hk⟩ := exists_ofBins hp hd hb hx
  obtain ⟨result, hsolve, hanswer⟩ := Knapsack.exists_solve_fits (valid_ofComponentBins hn hk)
    (budgetOf p threshold b x) effort source
  have hitems := allocatesItems_of_fill hp hd hb hx hy hfits hfill
  rw [fill_eq_ok hp hd hb hx hy hitems hk hsolve, Except.ok.injEq] at hfill
  exact ⟨k, result, hk, hanswer, hfill.symm⟩

/-- **Filling is complete**: over exact weights it gives what it promises. -/
theorem filled_of_fill (hfits : ∀ scope ∈ d.components, p.Allocates scope)
    (hy : y.Inside p.domains) {effort : Effort} {source : σ} {f : Filling (Exact R) σ}
    (hfill : fill p threshold effort d b (Aggregate.mergedFrom p b y 0 d.components) x source =
      .ok f) : Filled p threshold d x f := by
  obtain ⟨k, ⟨solution, source'⟩, hk, hanswer, rfl⟩ :=
    exists_answer_of_fill hp hn hd hb hx hfits hy hfill
  -- what the answer of the knapsack means for the filled assignment
  cases hanswer with
  | feasible _ s _ hs => exact filled_of_fits hp hn hd hb hx hk hs rfl
  | infeasible hbudget => exact filled_of_lt hp hn hd hb hx hk hbudget rfl

end Filled

end PairedMarkov.Search
