import PairedMarkov.Proofs.Buckets.Sharing
import PairedMarkov.Proofs.Scores

/-!
# Aggregates without checks

The aggregate of a component holds, for each joint value of the component, what the factors of its
bucket contribute when this value is written into the assignment. It can only fail to exist for lack
of memory. Keeping the aggregates of components that no factor joins to the cut is right, because
what is merged there does not depend on the assignment at all.

Main statements:
- `Aggregate.ofDecomposition_eq_ok_iff`: which aggregates a decomposition has;
- `Aggregate.refresh_eq_ok`: refreshing the aggregates of any assignment gives those of the current
  one;
- `Aggregate.entry_merged`: the entries of an aggregate are the contributions of its bucket under
  every assignment that agrees on the cut;
- `Problem.total_eq_overflow_add`: a score is what the overflow contributes and one term for each
  component.
-/

namespace PairedMarkov

variable {W : Type} [Weight W] {p : Problem W} {x y z : Assignment}

/-! ## Section 1: Merging factors -/

namespace Problem

/-- The table over a scope that merges some factors of the network in a role. -/
def merged (p : Problem W) (role : Role) (ids : List Nat) (x : Assignment) (scope : Scope) :
    Factor W where
  scope
  table := (Array.range (scope.capacity p.domains)).map fun index =>
    p.partialTotal role (scope.write p.domains index x) ids

/-- A table over a scope has a place in memory. -/
def Allocates (p : Problem W) (scope : Scope) : Prop :=
  Factor.entryBytes * scope.capacity p.domains < memoryLimit

omit [Weight W] in
/-- What has a place in memory can be counted. -/
theorem Allocates.capacity_lt {scope : Scope} (h : p.Allocates scope) :
    scope.capacity p.domains < wordLimit := by
  simp only [Allocates, Factor.entryBytes, memoryLimit] at h
  omega

omit [Weight W] in
/-- A table of fewer than `2 ^ 58` entries has a place in memory. -/
theorem allocates_of_capacity_lt {scope : Scope} (h : scope.capacity p.domains < 2 ^ 58) :
    p.Allocates scope := by
  simp only [Allocates, Factor.entryBytes, memoryLimit, wordLimit, UInt64.size]
  omega

theorem size_merged (p : Problem W) (role : Role) (ids : List Nat) (x : Assignment)
    (scope : Scope) : (p.merged role ids x scope).table.size = scope.capacity p.domains := by
  simp [merged]

theorem allocate_eq_ok_iff {bytes count : Nat} {done : Unit} :
    allocate bytes count = .ok done ↔ bytes * count < memoryLimit := by
  unfold allocate
  split <;> simp_all

theorem blank_eq_ok_iff (hp : p.Tabulated) {scope : Scope} (hscope : scope.InRange p.domains)
    {f : Factor W} :
    Factor.blank p.domains scope = .ok f ↔
      p.Allocates scope ∧ f = ⟨scope, Array.replicate (scope.capacity p.domains) 0⟩ := by
  simp only [Factor.blank, bind_eq_ok_iff, Scope.size_eq_ok_iff hp.positive, allocate_eq_ok_iff,
    Except.ok.injEq]
  constructor
  · rintro ⟨_, ⟨-, -, rfl⟩, -, hfits, rfl⟩
    exact ⟨hfits, rfl⟩
  · rintro ⟨hfits, rfl⟩
    exact ⟨_, ⟨hscope, hfits.capacity_lt, rfl⟩, (), hfits, rfl⟩

/-- Merging needs memory for the table, and nothing else. -/
theorem aggregate_eq_ok_iff (hp : p.Tabulated) (hx : x.Inside p.domains) {role : Role} {ids : List Nat}
    (hids : ∀ id ∈ ids, id < (p.network role).factors.size) {scope : Scope}
    (hscope : scope.InRange p.domains) {f : Factor W} :
    p.aggregate role x ids scope = .ok f ↔
      p.Allocates scope ∧ f = p.merged role ids x scope := by
  have hfetch : (scope.forM fun id => do let _ ← fetch x id) = (.ok () : Except Fault Unit) := by
    refine forM_eq_ok fun id hid => ?_
    rw [Assignment.fetch_eq_ok (hx.size_eq ▸ hscope id hid)]
    rfl
  -- entry by entry: the scope takes the joint value, then the factors are summed up
  have hentry : ∀ index ∈ Array.range (scope.capacity p.domains),
      (do (p.network role).partialScore p.domains (← scope.assign p.domains index x) ids) =
        (.ok (p.partialTotal role (scope.write p.domains index x) ids) : Except Fault W) := by
    intro index _
    rw [Scope.assign_eq_ok hp.positive hscope, ok_bind]
    exact partialScore_eq_ok hp (Scope.inside_write hx scope index) hids
  rw [aggregate, Network.aggregate, hfetch, ok_bind, bind_eq_ok_iff]
  simp only [blank_eq_ok_iff hp hscope]
  constructor
  · rintro ⟨_, ⟨hfits, rfl⟩, h⟩
    rw [Array.size_replicate, array_mapM_eq_ok hentry, ok_bind, pure_eq_ok_iff] at h
    exact ⟨hfits, h.symm⟩
  · rintro ⟨hfits, rfl⟩
    refine ⟨_, ⟨hfits, rfl⟩, ?_⟩
    rw [Array.size_replicate, array_mapM_eq_ok hentry, ok_bind]
    rfl

theorem tabulated_merged (hp : p.Tabulated) (role : Role) (ids : List Nat) (x : Assignment)
    {scope : Scope} (hscope : scope.InRange p.domains) (hfits : p.Allocates scope) :
    (p.merged role ids x scope).Tabulated p.domains where
  inRange := hscope
  complete := (Scope.size_eq_ok_iff hp.positive).2
    ⟨hscope, hfits.capacity_lt, (size_merged ..)⟩

/-- Under an assignment that agrees with the merged one outside the scope, the merged table has what
the factors contribute. -/
theorem merged_getElem? (hx : x.Inside p.domains) (hz : z.Inside p.domains) {role : Role}
    {ids : List Nat} {scope : Scope} (hscope : scope.InRange p.domains) (hnodup : scope.Nodup)
    (h : ∀ id ∈ ids, ∀ v ∈ p.scopeOf role id, v ∉ scope → z.valueAt v = x.valueAt v) :
    (p.merged role ids x scope).table[Scope.index p.domains z scope]? =
      some (p.partialTotal role z ids) := by
  have hindex := Scope.index_lt hz scope
  simp only [merged, Array.getElem?_map, Array.getElem?_range, hindex, ↓reduceIte, Option.map_some]
  refine congrArg some (partialTotal_congr fun id hid v hv => ?_)
  -- inside the scope the entry was merged with the value of `z`, outside of it with that of `x`
  by_cases hmem : v ∈ scope
  · exact Scope.valueAt_write_index hx hz hscope hnodup hmem
  · rw [Scope.valueAt_write_of_notMem hscope hx.size_eq hmem, h id hid v hv hmem]

/-- The merged table only depends on the values outside the scope that the factors look at. -/
theorem merged_congr (hx : x.Inside p.domains) (hy : y.Inside p.domains) {role : Role}
    {ids : List Nat} {scope : Scope} (hscope : scope.InRange p.domains) (hnodup : scope.Nodup)
    (h : ∀ id ∈ ids, ∀ v ∈ p.scopeOf role id, v ∉ scope → x.valueAt v = y.valueAt v) :
    p.merged role ids x scope = p.merged role ids y scope := by
  unfold merged
  refine congrArg (Factor.mk scope) (Array.map_congr_left fun index hindex => ?_)
  refine partialTotal_congr fun id hid v hv => ?_
  have hlt : index < scope.capacity p.domains := by simpa using hindex
  by_cases hmem : v ∈ scope
  · -- both assignments are overwritten with the joint value at the same index
    refine Scope.valueAt_eq_of_index_eq (Scope.inside_write hx scope index)
      (Scope.inside_write hy scope index) ?_ v hmem
    rw [Scope.index_write hx hscope hnodup hlt, Scope.index_write hy hscope hnodup hlt]
  · rw [Scope.valueAt_write_of_notMem hscope hx.size_eq hmem,
      Scope.valueAt_write_of_notMem hscope hy.size_eq hmem, h id hid v hv hmem]

end Problem

/-! ## Section 2: Components and their buckets -/

section Components

variable {d : Decomposition} {b : Buckets} {width count : Nat} {scopes : List Scope} {c v : Nat}
  {scope : Scope}

namespace Decomposition.Separates

omit [Weight W]

theorem cut_lt (hd : d.Separates width count scopes) : ∀ id ∈ d.cut, id < count := fun _ hid =>
  List.mem_range.1 (hd.partition.mem_iff.1 (List.mem_append.2 (Or.inl hid)))

theorem inRange_components (hd : d.Separates width p.domains.size scopes) :
    ∀ scope ∈ d.components, scope.InRange p.domains := fun scope hscope _ hv =>
  List.mem_range.1 <| hd.partition.mem_iff.1 <|
    List.mem_append.2 (Or.inr (List.mem_flatten.2 ⟨scope, hscope, hv⟩))

theorem nodup_components (hd : d.Separates width count scopes) :
    ∀ scope ∈ d.components, scope.Nodup := fun scope hscope =>
  (hd.sorted scope hscope).imp fun h => h.ne

theorem mem_component_iff (hd : d.Separates width count scopes) (hv : v < count)
    (hc : d.components[c]? = some scope) : v ∈ scope ↔ d.componentOf v = .ok (some c) := by
  rw [hd.componentOf_eq_some v hv c, hc]
  simp

/-- A component has no more joint values than all variables together. -/
theorem capacity_le (hd : d.Separates width p.domains.size scopes) (hp : p.domains.Positive)
    (hscope : scope ∈ d.components) :
    scope.capacity p.domains ≤ Scope.capacity p.domains (List.range p.domains.size) := by
  have hperm := (hd.partition.map p.domains.sizeAt).prod_eq
  have hsub : scope.Sublist (d.cut ++ d.components.flatten) :=
    (List.sublist_flatten_of_mem hscope).trans (List.sublist_append_right _ _)
  rw [Scope.capacity, Scope.capacity, ← hperm]
  -- the variables that are left out have at least one value each
  refine (hsub.map p.domains.sizeAt).prod_le_prod' fun size hsize => ?_
  obtain ⟨id, -, rfl⟩ := List.mem_map.1 hsize
  exact hp.sizeAt_pos id

end Decomposition.Separates

/-- The factors of a component in the network of a role, none if there is no such component. -/
def Buckets.bucketIds (b : Buckets) (role : Role) (c : Nat) : List Nat :=
  (b.share role).buckets.getD c []

namespace Buckets.Shares

omit [Weight W]

theorem bucket_eq_ok (hb : b.Shares p d) (role : Role) (hc : c < d.components.length) :
    b.bucket role c = .ok (b.bucketIds role c) := by
  have hc : c < (b.share role).buckets.size := hb.size_buckets role ▸ hc
  rw [Buckets.bucket, fetch_of_lt hc]
  simp [bucketIds, hc]

theorem bucketIds_lt (hb : b.Shares p d) (role : Role) (c : Nat) :
    ∀ id ∈ b.bucketIds role c, id < (p.network role).factors.size := by
  intro id hid
  rw [bucketIds, Array.getD_eq_getD_getElem?] at hid
  cases hc : (b.share role).buckets[c]? with
  | none => simp [hc] at hid
  | some ids =>
    have hmem : ids ∈ (b.share role).buckets.toList := by
      simpa using Array.mem_of_getElem? hc
    have hid : id ∈ (b.share role).buckets.toList.flatten :=
      List.mem_flatten.2 ⟨ids, hmem, by simpa [hc] using hid⟩
    exact List.mem_range.1 <| (hb.partition role).mem_iff.1 (List.mem_append.2 (Or.inr hid))

theorem overflow_lt (hb : b.Shares p d) (role : Role) :
    ∀ id ∈ (b.share role).overflow, id < (p.network role).factors.size := fun _ hid =>
  List.mem_range.1 <| (hb.partition role).mem_iff.1 (List.mem_append.2 (Or.inl hid))

end Buckets.Shares

end Components

/-! ## Section 3: The aggregates of an assignment -/

namespace Aggregate

/-- The table of the network in a role. -/
def factor (a : Aggregate W) : Role → Factor W
  | .constraint => a.cost
  | .objective => a.profit

/-- The aggregate of a component with all its entries. -/
def merged (p : Problem W) (b : Buckets) (x : Assignment) (c : Nat) (scope : Scope) :
    Aggregate W where
  cost := p.merged .constraint (b.bucketIds .constraint c) x scope
  profit := p.merged .objective (b.bucketIds .objective c) x scope

/-- The aggregates of components that are numbered from `first` on. -/
def mergedFrom (p : Problem W) (b : Buckets) (x : Assignment) (first : Nat)
    (scopes : List Scope) : List (Aggregate W) :=
  (scopes.zipIdx first).map fun (scope, c) => merged p b x c scope

theorem factor_merged (p : Problem W) (b : Buckets) (x : Assignment) (c : Nat) (scope : Scope)
    (role : Role) :
    (merged p b x c scope).factor role = p.merged role (b.bucketIds role c) x scope := by
  cases role <;> rfl

variable {d : Decomposition} {b : Buckets} {width c : Nat} {scope : Scope} (hp : p.Tabulated)
  (hd : d.Separates width p.domains.size p.scopes) (hb : b.Shares p d)

include hp hd hb

theorem ofComponent_eq_ok_iff (hx : x.Inside p.domains) (hc : d.components[c]? = some scope)
    {a : Aggregate W} :
    ofComponent p b x c scope = .ok a ↔ p.Allocates scope ∧ a = merged p b x c scope := by
  have hlt := (List.getElem?_eq_some_iff.1 hc).1
  have hscope := hd.inRange_components scope (List.mem_of_getElem? hc)
  simp only [ofComponent, hb.bucket_eq_ok _ hlt, ok_bind, bind_eq_ok_iff, pure_eq_ok_iff,
    Problem.aggregate_eq_ok_iff hp hx (hb.bucketIds_lt _ c) hscope]
  constructor
  · rintro ⟨_, ⟨hfits, rfl⟩, _, ⟨-, rfl⟩, rfl⟩
    exact ⟨hfits, rfl⟩
  · rintro ⟨hfits, rfl⟩
    exact ⟨_, ⟨hfits, rfl⟩, _, ⟨hfits, rfl⟩, rfl⟩

private theorem ofComponentsFrom_eq_ok_iff (hx : x.Inside p.domains) {first : Nat}
    {scopes : List Scope} (hscopes : d.components.drop first = scopes)
    {aggregates : List (Aggregate W)} :
    ofComponentsFrom p b x first scopes = .ok aggregates ↔
      (∀ scope ∈ scopes, p.Allocates scope) ∧ aggregates = mergedFrom p b x first scopes := by
  -- `first` goes up while the components are taken away one by one
  induction scopes generalizing first aggregates with
  | nil => simp [ofComponentsFrom, mergedFrom, eq_comm]
  | cons scope scopes ih =>
    obtain ⟨hc, hrest⟩ := getElem?_of_drop_eq_cons hscopes
    simp only [ofComponentsFrom, bind_eq_ok_iff, pure_eq_ok_iff, ih hrest,
      ofComponent_eq_ok_iff hp hd hb hx hc, List.forall_mem_cons]
    constructor
    · rintro ⟨_, ⟨hfits, rfl⟩, _, ⟨hall, rfl⟩, rfl⟩
      exact ⟨⟨hfits, hall⟩, rfl⟩
    · rintro ⟨⟨hfits, hall⟩, rfl⟩
      exact ⟨_, ⟨hfits, rfl⟩, _, ⟨hall, rfl⟩, rfl⟩

/-- A decomposition has aggregates exactly if their tables fit into memory. -/
theorem ofDecomposition_eq_ok_iff (hx : x.Inside p.domains) (aggregates : List (Aggregate W)) :
    ofDecomposition p d b x = .ok aggregates ↔
      (∀ scope ∈ d.components, p.Allocates scope) ∧
        aggregates = mergedFrom p b x 0 d.components :=
  ofComponentsFrom_eq_ok_iff hp hd hb hx List.drop_zero

/-- What is merged in a component that no factor joins to the cut is the same under all
assignments. -/
theorem merged_eq_of_unconditioned (hx : x.Inside p.domains) (hy : y.Inside p.domains)
    (hc : d.components[c]? = some scope) (hfree : fetch b.conditioned c = .ok false) :
    merged p b x c scope = merged p b y c scope := by
  have hlt := (List.getElem?_eq_some_iff.1 hc).1
  have hmem := List.mem_of_getElem? hc
  have hrole : ∀ role, p.merged role (b.bucketIds role c) x scope =
      p.merged role (b.bucketIds role c) y scope := by
    intro role
    refine Problem.merged_congr hx hy (hd.inRange_components scope hmem)
      (hd.nodup_components scope hmem) fun id hid v hv hout => absurd ?_ hout
    -- without a variable of the cut, all variables of the bucket are in the component
    have hv' := hp.inRange _ (Problem.scopeOf_mem_scopes hv) v hv
    exact (hd.mem_component_iff hv' hc).2
      (hb.unconditioned c hfree role _ (hb.bucket_eq_ok role hlt) id hid v hv)
  rw [merged, merged, hrole, hrole]

omit [Weight W] in
/-- The factors of a bucket look at nothing outside its component but the cut. -/
theorem mem_cut_of_mem_bucket (hc : d.components[c]? = some scope) {role : Role} {id v : Nat}
    (hid : id ∈ b.bucketIds role c) (hv : v ∈ p.scopeOf role id) (hout : v ∉ scope) :
    v ∈ d.cut := by
  have hlt := (List.getElem?_eq_some_iff.1 hc).1
  have hv' := hp.inRange _ (Problem.scopeOf_mem_scopes hv) v hv
  refine (hd.componentOf_eq_none v hv').1 ?_
  refine (hb.bucket role c _ (hb.bucket_eq_ok role hlt) id hid v hv).resolve_right fun hin => ?_
  exact hout ((hd.mem_component_iff hv' hc).2 hin)

/-- Assignments that agree on the cut have the same aggregates. -/
theorem mergedFrom_congr (hx : x.Inside p.domains) (hz : z.Inside p.domains)
    (hcut : ∀ v ∈ d.cut, z.valueAt v = x.valueAt v) :
    mergedFrom p b z 0 d.components = mergedFrom p b x 0 d.components := by
  refine List.map_congr_left ?_
  rintro ⟨scope, c⟩ hentry
  have hc := List.mem_zipIdx_iff_getElem?.1 hentry
  have hmem := List.mem_of_getElem? hc
  have hrole : ∀ role, p.merged role (b.bucketIds role c) z scope =
      p.merged role (b.bucketIds role c) x scope := fun role =>
    Problem.merged_congr hz hx (hd.inRange_components scope hmem) (hd.nodup_components scope hmem)
      fun _ hid v hv hout => hcut v (mem_cut_of_mem_bucket hp hd hb hc hid hv hout)
  simp only [merged, hrole]

private theorem refreshFrom_eq_ok (hx : x.Inside p.domains) (hy : y.Inside p.domains) {first : Nat}
    {scopes : List Scope} (hscopes : d.components.drop first = scopes)
    (hfits : ∀ scope ∈ scopes, p.Allocates scope) :
    refreshFrom p b x first scopes (mergedFrom p b y first scopes) =
      .ok (mergedFrom p b x first scopes) := by
  induction scopes generalizing first with
  | nil => rfl
  | cons scope scopes ih =>
    obtain ⟨hc, hrest⟩ := getElem?_of_drop_eq_cons hscopes
    obtain ⟨hfit, hfits⟩ := List.forall_mem_cons.1 hfits
    have hlt : first < b.conditioned.size :=
      hb.size_conditioned ▸ (List.getElem?_eq_some_iff.1 hc).1
    show refreshFrom p b x first (scope :: scopes)
      (merged p b y first scope :: mergedFrom p b y (first + 1) scopes) = _
    rw [refreshFrom, fetch_of_lt hlt, ok_bind, ih hrest hfits]
    cases hconditioned : b.conditioned[first] with
    | true =>
      -- the aggregate is merged again, whatever the old one was
      rw [if_pos rfl, (ofComponent_eq_ok_iff hp hd hb hx hc).2 ⟨hfit, rfl⟩]
      rfl
    | false =>
      -- the old aggregate is kept, and it is also the new one
      have hfree : fetch b.conditioned first = .ok false := by rw [fetch_of_lt hlt, hconditioned]
      rw [merged_eq_of_unconditioned hp hd hb hy hx hc hfree]
      rfl

/-- **Refreshing** the aggregates of any assignment gives those of the current one. -/
theorem refresh_eq_ok (hx : x.Inside p.domains) (hy : y.Inside p.domains)
    (hfits : ∀ scope ∈ d.components, p.Allocates scope) :
    refresh p d b x (mergedFrom p b y 0 d.components) = .ok (mergedFrom p b x 0 d.components) :=
  refreshFrom_eq_ok hp hd hb hx hy List.drop_zero hfits

/-- Under every assignment that agrees with the merged one on the cut, an aggregate holds what the
bucket contributes. -/
theorem entry_merged (hx : x.Inside p.domains) (hz : z.Inside p.domains)
    (hcut : ∀ v ∈ d.cut, z.valueAt v = x.valueAt v) (hc : d.components[c]? = some scope)
    (role : Role) :
    ((merged p b x c scope).factor role).table[Scope.index p.domains z scope]? =
      some (p.partialTotal role z (b.bucketIds role c)) := by
  have hmem := List.mem_of_getElem? hc
  rw [factor_merged]
  exact Problem.merged_getElem? hx hz (hd.inRange_components scope hmem)
    (hd.nodup_components scope hmem) fun _ hid v hv hout =>
      hcut v (mem_cut_of_mem_bucket hp hd hb hc hid hv hout)

/-- Under every such assignment an aggregate has the contribution of the bucket as its value. -/
theorem value_merged (hx : x.Inside p.domains) (hz : z.Inside p.domains)
    (hcut : ∀ v ∈ d.cut, z.valueAt v = x.valueAt v) (hc : d.components[c]? = some scope)
    (hfits : p.Allocates scope) (role : Role) :
    ((merged p b x c scope).factor role).value p.domains z =
      .ok (p.partialTotal role z (b.bucketIds role c)) := by
  have hscope := hd.inRange_components scope (List.mem_of_getElem? hc)
  have hentry := entry_merged hp hd hb hx hz hcut hc role
  rw [factor_merged] at hentry ⊢
  rw [(Problem.tabulated_merged hp role _ x hscope hfits).value_eq_ok hz, Factor.weight,
    Array.getD_eq_getD_getElem?]
  exact congrArg Except.ok (congrArg (Option.getD · 0) hentry)

end Aggregate

/-! ## Section 4: Scores by components -/

section ExactScores

variable {R : Type} [Ring R] [LinearOrder R] {p : Problem (Exact R)}

/-- **Separation of scores**: a score is what the overflow contributes and one term for each
component. -/
theorem Problem.total_eq_overflow_add {d : Decomposition} {b : Buckets} (hb : b.Shares p d)
    (role : Role) (x : Assignment) :
    p.total role x = p.partialTotal role x (b.share role).overflow +
      ∑ c ∈ Finset.range d.components.length, p.partialTotal role x (b.bucketIds role c) := by
  have hbuckets : (List.range d.components.length).map (fun c =>
      p.partialTotal role x (b.bucketIds role c)) =
      (b.share role).buckets.toList.map (p.partialTotal role x) := by
    refine List.ext_getElem (by simp [hb.size_buckets]) fun c hc _ => ?_
    have hc : c < (b.share role).buckets.size := by
      rw [hb.size_buckets]
      simpa using hc
    simp [Buckets.bucketIds, hc]
  -- the sums may be reordered, because weights are exact
  calc p.total role x
      = p.partialTotal role x ((b.share role).overflow ++ (b.share role).buckets.toList.flatten) :=
        (partialTotal_perm (hb.partition role) x).symm
    _ = p.partialTotal role x (b.share role).overflow +
          ((List.range d.components.length).map fun c =>
            p.partialTotal role x (b.bucketIds role c)).sum := by
        rw [partialTotal_append, partialTotal_flatten, hbuckets]

end ExactScores

end PairedMarkov
