import PairedMarkov.Proofs.Search.Cut
import PairedMarkov.Proofs.Search.Filling

/-!
# Merging on the assignment itself

Aggregates are merged without touching the assignment: for each joint value of a component a changed
copy is scored. With a single assignment that all parts of a search share, there is another way. The
component is set to one joint value after the other, the factors are scored under what the assignment
has become, and in the end the variables of the component get back the values that they had.

Both ways give the same tables, and the second one leaves no trace: each joint value overwrites the one
before it, and the saved values overwrite the last one.

Main statements:
- `Problem.aggregateInPlace_eq`: factors can be merged on the assignment itself;
- `Aggregate.refreshInPlace_eq`: so can all aggregates be refreshed;
- `Search.fillInPlace_eq`: so can the components be filled.
-/

namespace PairedMarkov

variable {W : Type}

/-! ## Section 1: Restoring values -/

/-- Gives variables the listed values, one after the other. -/
def Assignment.restore (domains : Domains) (x : Assignment) (ids values : List Nat) :
    Except Fault Assignment :=
  (ids.zip values).foldlM (fun x (id, value) => x.set domains id value) x

section Restoring

open Search (Differs)

variable {domains : Domains} {x y : Assignment} {scope : Scope}

/-- An assignment that differs nowhere is the same. -/
theorem Search.Differs.eq_of_nil (hx : x.Inside domains) (h : Differs domains [] x y) : y = x :=
  Assignment.ext_valueAt (h.inside.size_eq.trans hx.size_eq.symm) fun v _ =>
    h.frame v List.not_mem_nil

/-- Variables that get back their values leave no difference. -/
theorem Assignment.restore_eq_ok (hx : x.Inside domains) (h : Differs domains scope x y)
    (hscope : scope.InRange domains) :
    y.restore domains scope (scope.map x.valueAt) = .ok x := by
  -- one variable after the other stops to differ
  induction scope generalizing y with
  | nil => exact congrArg Except.ok (h.eq_of_nil hx)
  | cons id scope ih =>
    obtain ⟨hid, hscope⟩ := Scope.inRange_cons.1 hscope
    have hrest : Differs domains scope x (y.with id (x.valueAt id)) := by
      refine ⟨h.inside.with (hx.valueAt_lt id), fun v hv => ?_⟩
      rw [valueAt_with (h.inside.size_eq ▸ hid)]
      split
      · rename_i hsame
        rw [hsame]
      · rename_i hother
        exact h.frame v (by simp [hother, hv])
    rw [List.map_cons, restore, List.zip_cons_cons, List.foldlM_cons]
    dsimp only
    rw [set_eq_ok hid (hx.valueAt_lt id), ok_bind]
    exact ih hrest hscope

/-- What is written into a scope overwrites all differences in it. -/
theorem Scope.write_eq_of_differs (hx : x.Inside domains) (h : Differs domains scope x y)
    (hscope : scope.InRange domains) (hnodup : scope.Nodup) {address : Nat}
    (haddress : address < scope.capacity domains) :
    scope.write domains address y = scope.write domains address x := by
  have hinside := inside_write h.inside scope address
  have hinside' := inside_write hx scope address
  refine Assignment.ext_valueAt (hinside.size_eq.trans hinside'.size_eq.symm) fun v _ => ?_
  by_cases hv : v ∈ scope
  · refine valueAt_eq_of_index_eq hinside hinside' ?_ v hv
    rw [index_write h.inside hscope hnodup haddress, index_write hx hscope hnodup haddress]
  · rw [valueAt_write_of_notMem hscope h.inside.size_eq hv,
      valueAt_write_of_notMem hscope hx.size_eq hv, h.frame v hv]

theorem Scope.differs_write (hx : x.Inside domains) (hscope : scope.InRange domains)
    (address : Nat) : Differs domains scope x (scope.write domains address x) :=
  ⟨inside_write hx scope address, fun _ hv => valueAt_write_of_notMem hscope hx.size_eq hv address⟩

end Restoring

/-! ## Section 2: Merging factors -/

variable [Weight W]

namespace Network

/-- Sets a scope to the joint value at an address, and enters there what some factors contribute. -/
def enter (n : Network W) (domains : Domains) (ids : List Nat) (scope : Scope)
    (state : Factor W × Assignment) (address : Nat) : Except Fault (Factor W × Assignment) := do
  let x ← scope.assign domains address state.2
  let merged ← state.1.setAt address (← n.partialScore domains x ids)
  return (merged, x)

/-- Merges factors into one over a scope, on the assignment itself. -/
def aggregateInPlace (n : Network W) (domains : Domains) (x : Assignment) (ids : List Nat)
    (scope : Scope) : Except Fault (Factor W × Assignment) := do
  let saved ← scope.mapM fun id => fetch x id
  let blank : Factor W ← Factor.blank domains scope
  let (merged, x) ← (List.range blank.table.size).foldlM (n.enter domains ids scope) (blank, x)
  return (merged, ← x.restore domains scope saved)

end Network

namespace Problem

open Search (Differs)

/-- Merges some factors of the network in a role, on the assignment itself. -/
def aggregateInPlace (p : Problem W) (role : Role) (x : Assignment) (ids : List Nat)
    (scope : Scope) : Except Fault (Factor W × Assignment) :=
  (p.network role).aggregateInPlace p.domains x ids scope

/-- The table over a scope that has been entered up to an address. -/
def entered (p : Problem W) (role : Role) (ids : List Nat) (x : Assignment) (scope : Scope)
    (count : Nat) : Factor W where
  scope
  table := (Array.range (scope.capacity p.domains)).map fun address =>
    if address < count then p.partialTotal role (scope.write p.domains address x) ids else 0

section Merging

variable {p : Problem W} {x : Assignment} {role : Role} {ids : List Nat} {scope : Scope}

theorem entered_zero : p.entered role ids x scope 0 =
    ⟨scope, Array.replicate (scope.capacity p.domains) 0⟩ := by
  rw [entered]
  exact congrArg (Factor.mk scope) (Array.ext (by simp) fun address _ _ => by simp)

theorem entered_capacity :
    p.entered role ids x scope (scope.capacity p.domains) = p.merged role ids x scope := by
  rw [entered, merged]
  refine congrArg (Factor.mk scope) (Array.map_congr_left fun address haddress => ?_)
  exact if_pos (by simpa using haddress)

theorem setAt_entered {count : Nat} (hcount : count < scope.capacity p.domains) :
    (p.entered role ids x scope count).setAt count
        (p.partialTotal role (scope.write p.domains count x) ids) =
      .ok (p.entered role ids x scope (count + 1)) := by
  rw [Factor.setAt, if_pos (by simpa [entered] using hcount)]
  refine congrArg (Except.ok ∘ Factor.mk scope) (Array.ext (by simp [entered]) fun address _ h => ?_)
  rw [Array.getElem_setIfInBounds (by simpa [entered] using h)]
  simp only [entered, Array.getElem_map, Array.getElem_range]
  -- the new entry is the last one that has been made
  by_cases hlast : count = address
  · rw [if_pos hlast, if_pos (by omega), hlast]
  · rw [if_neg hlast]
    exact if_congr (by omega) rfl rfl

variable (hp : p.Tabulated) (hx : x.Inside p.domains)
  (hids : ∀ id ∈ ids, id < (p.network role).factors.size) (hscope : scope.InRange p.domains)
  (hnodup : scope.Nodup)

include hp hx hids hscope hnodup

/-- Entering goes on from whatever joint value the scope was left at. -/
private theorem exists_foldlM_enter {count : Nat} (hcount : count ≤ scope.capacity p.domains) :
    ∃ y, (List.range count).foldlM ((p.network role).enter p.domains ids scope)
        (p.entered role ids x scope 0, x) = .ok (p.entered role ids x scope count, y) ∧
      Differs p.domains scope x y := by
  induction count with
  | zero => exact ⟨x, rfl, .refl hx scope⟩
  | succ count ih =>
    obtain ⟨y, hentered, hdiffers⟩ := ih (Nat.le_of_succ_le hcount)
    have hscore : (p.network role).partialScore p.domains (scope.write p.domains count x) ids =
        .ok (p.partialTotal role (scope.write p.domains count x) ids) :=
      partialScore_eq_ok hp (Scope.inside_write hx scope count) hids
    refine ⟨scope.write p.domains count x, ?_, Scope.differs_write hx hscope count⟩
    rw [List.range_succ, List.foldlM_append, hentered, ok_bind, List.foldlM_cons, Network.enter,
      Scope.assign_eq_ok hp.positive hscope, ok_bind,
      Scope.write_eq_of_differs hx hdiffers hscope hnodup hcount, hscore, ok_bind,
      setAt_entered hcount]
    rfl

/-- **Factors can be merged on the assignment itself**: the table is the same, or fails to exist for the
same reason, and the assignment is left as it was. -/
theorem aggregateInPlace_eq :
    p.aggregateInPlace role x ids scope = (p.aggregate role x ids scope).map (·, x) := by
  have hsaved : scope.mapM (fun id => fetch x id) = (.ok (scope.map x.valueAt) : Except Fault _) :=
    mapM_eq_ok fun id hid => Assignment.fetch_eq_ok (hx.size_eq ▸ hscope id hid)
  have hfetch : (scope.forM fun id => do let _ ← fetch x id) = (.ok () : Except Fault Unit) :=
    forM_eq_ok fun id hid => by
      rw [Assignment.fetch_eq_ok (hx.size_eq ▸ hscope id hid)]
      rfl
  cases hblank : (Factor.blank p.domains scope : Except Fault (Factor W)) with
  | ok blank =>
    obtain ⟨hfits, rfl⟩ := (blank_eq_ok_iff hp hscope).1 hblank
    obtain ⟨y, hentered, hdiffers⟩ := exists_foldlM_enter hp hx hids hscope hnodup le_rfl
    rw [entered_zero, entered_capacity] at hentered
    rw [(aggregate_eq_ok_iff hp hx hids hscope).2 ⟨hfits, rfl⟩, aggregateInPlace,
      Network.aggregateInPlace, hsaved, ok_bind, hblank, ok_bind, Array.size_replicate, hentered,
      ok_bind]
    dsimp only
    rw [Assignment.restore_eq_ok hx hdiffers hscope]
    rfl
  | error fault =>
    -- without room for the table neither way begins
    rw [aggregateInPlace, Network.aggregateInPlace, hsaved, aggregate, Network.aggregate, hfetch,
      ok_bind, ok_bind, hblank]
    rfl

end Merging

end Problem

/-! ## Section 3: Refreshing aggregates -/

namespace Aggregate

/-- The aggregate of a component, merged on the assignment itself. -/
def ofComponentInPlace (p : Problem W) (b : Buckets) (x : Assignment) (component : Nat)
    (scope : Scope) : Except Fault (Aggregate W × Assignment) := do
  let (cost, x) ← p.aggregateInPlace .constraint x (← b.bucket .constraint component) scope
  let (profit, x) ← p.aggregateInPlace .objective x (← b.bucket .objective component) scope
  return ({ cost, profit }, x)

/-- The aggregates of components that are numbered from `first` on, those of conditioned ones merged
again on the assignment itself. -/
def refreshFromInPlace (p : Problem W) (b : Buckets) :
    (first : Nat) → List Scope → List (Aggregate W) → Assignment →
      Except Fault (List (Aggregate W) × Assignment)
  | first, scope :: scopes, aggregate :: rest, x => do
    let (current, x) ←
      if ← fetch b.conditioned first then ofComponentInPlace p b x first scope
      else pure (aggregate, x)
    let (later, x) ← refreshFromInPlace p b (first + 1) scopes rest x
    return (current :: later, x)
  | _, _, _, x => .ok ([], x)

/-- The aggregates of all components after a change of the assignment. -/
def refreshInPlace (p : Problem W) (d : Decomposition) (b : Buckets) (x : Assignment)
    (aggregates : List (Aggregate W)) : Except Fault (List (Aggregate W) × Assignment) :=
  refreshFromInPlace p b 0 d.components aggregates x

variable {p : Problem W} {d : Decomposition} {b : Buckets} {width c : Nat} {scope : Scope}
  {x : Assignment} (hp : p.Tabulated) (hd : d.Separates width p.domains.size p.scopes)
  (hb : b.Shares p d) (hx : x.Inside p.domains)

include hp hd hb hx

theorem ofComponentInPlace_eq (hc : d.components[c]? = some scope) :
    ofComponentInPlace p b x c scope = (ofComponent p b x c scope).map (·, x) := by
  have hmem := List.mem_of_getElem? hc
  have hbucket := fun role => hb.bucket_eq_ok role (List.getElem?_eq_some_iff.1 hc).1
  have hmerge := fun role => Problem.aggregateInPlace_eq hp hx (hb.bucketIds_lt role c)
    (hd.inRange_components scope hmem) (hd.nodup_components scope hmem)
  rw [ofComponentInPlace, ofComponent, hbucket, hbucket, ok_bind, ok_bind, hmerge .constraint]
  cases p.aggregate .constraint x (b.bucketIds .constraint c) scope with
  | error fault => rfl
  | ok cost =>
    -- the second network finds the assignment that the first one has found
    change (p.aggregateInPlace .objective x _ scope >>= _) =
      Except.map _ (p.aggregate .objective x _ scope >>= _)
    rw [hmerge .objective]
    cases p.aggregate .objective x (b.bucketIds .objective c) scope with
    | error fault => rfl
    | ok profit => rfl

private theorem refreshFromInPlace_eq {first : Nat} {scopes : List Scope}
    (hscopes : d.components.drop first = scopes) (aggregates : List (Aggregate W)) :
    refreshFromInPlace p b first scopes aggregates x =
      (refreshFrom p b x first scopes aggregates).map (·, x) := by
  -- the components left are those from `first` on, and one step leaves those behind it
  induction scopes generalizing first aggregates with
  | nil => rfl
  | cons scope scopes ih =>
    obtain ⟨hc, hrest⟩ := getElem?_of_drop_eq_cons hscopes
    cases aggregates with
    | nil => rfl
    | cons aggregate rest =>
      have hlt : first < b.conditioned.size :=
        hb.size_conditioned ▸ (List.getElem?_eq_some_iff.1 hc).1
      have hlater (current : Aggregate W) : (do
            let (later, x) ← refreshFromInPlace p b (first + 1) scopes rest x
            return (current :: later, x)) =
          (do return current :: (← refreshFrom p b x (first + 1) scopes rest)).map (·, x) := by
        rw [ih hrest rest]
        cases refreshFrom p b x (first + 1) scopes rest with
        | error fault => rfl
        | ok later => rfl
      rw [refreshFromInPlace, refreshFrom, fetch_of_lt hlt, ok_bind, ok_bind]
      cases b.conditioned[first] with
      | true =>
        rw [if_pos rfl, if_pos rfl, ofComponentInPlace_eq hp hd hb hx hc]
        cases ofComponent p b x first scope with
        | error fault => rfl
        | ok current => exact hlater current
      | false => exact hlater aggregate

/-- **Aggregates can be refreshed on the assignment itself**, which is left as it was. -/
theorem refreshInPlace_eq (aggregates : List (Aggregate W)) :
    refreshInPlace p d b x aggregates = (refresh p d b x aggregates).map (·, x) :=
  refreshFromInPlace_eq hp hd hb hx List.drop_zero aggregates

end Aggregate

/-! ## Section 4: Filling -/

namespace Search

variable {σ : Type} [Random.Source σ]

/-- Fills the components of a decomposition on the assignment itself: the aggregates are refreshed on
it, and then the chosen joint values are written into what it has become. -/
def fillInPlace (p : Problem W) (threshold : W) (effort : Effort) (d : Decomposition) (b : Buckets)
    (aggregates : List (Aggregate W)) (x : Assignment) (source : σ) :
    Except Fault (Filling W σ) := do
  let cost ← b.overflowScore p .constraint x
  let profit ← b.overflowScore p .objective x
  let budget := threshold - cost
  let (aggregates, x) ← Aggregate.refreshInPlace p d b x aggregates
  let knapsack ← Knapsack.ofAggregates aggregates
  let (solution, source) ← knapsack.solve budget effort source
  let assignment ← writeChoices p.domains d.components solution.choices x
  return {
    bins := knapsack.bins.size
    fixed := knapsack.fixedCount
    budget, solution
    objective := solution.profit + profit
    aggregates, assignment, source }

/-- **Components can be filled on the assignment itself**: no joint value that was only tried survives. -/
theorem fillInPlace_eq {p : Problem W} {d : Decomposition} {b : Buckets} {width : Nat}
    {x : Assignment} (hp : p.Tabulated) (hd : d.Separates width p.domains.size p.scopes)
    (hb : b.Shares p d) (hx : x.Inside p.domains) (threshold : W) (effort : Effort)
    (aggregates : List (Aggregate W)) (source : σ) :
    fillInPlace p threshold effort d b aggregates x source =
      fill p threshold effort d b aggregates x source := by
  rw [fillInPlace, fill, Aggregate.refreshInPlace_eq hp hd hb hx]
  cases Aggregate.refresh p d b x aggregates with
  | error fault => rfl
  | ok aggregates => rfl

end Search

end PairedMarkov
