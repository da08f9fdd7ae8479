import PairedMarkov.Proofs.Separation
import PairedMarkov.Buckets

/-!
# Sharing factors out

The place of a factor is found by going through its scope, and says which component its variables
outside the cut lie in. It depends only on the components of the variables, and not on their order:
a factor has a place exactly if its variables have components and no two of these differ.

Main statements:
- `Placement.ofScope_eq_ok_iff`: when a factor has a place, and which one;
- `Placement.factorsAt_perm`: the factors of the overflow and of all components are all factors,
  each exactly once;
- `Buckets.shares_of_ofProblem`: what the buckets of a problem promise under a decomposition that
  separates it.
-/

namespace PairedMarkov

namespace Placement

variable {d : Decomposition} {scope : Scope} {place : Placement}

/-! ## Section 1: The place of one factor -/

/-- A place tells where the variables of a scope lie. -/
structure Describes (d : Decomposition) (scope : Scope) (place : Placement) : Prop where
  known : ∀ id ∈ scope, ∃ o, d.componentOf id = .ok o
  component : ∀ c, place.component = some c ↔ ∃ id ∈ scope, d.componentOf id = .ok (some c)
  touchesCut : place.touchesCut = true ↔ ∃ id ∈ scope, d.componentOf id = .ok none

theorem describes_nil : (⟨none, false⟩ : Placement).Describes d [] :=
  ⟨by simp, by simp, by simp⟩

private theorem Describes.known_concat {id : Nat} {o : Option Nat} (h : place.Describes d scope)
    (hid : d.componentOf id = .ok o) : ∀ v ∈ scope ++ [id], ∃ o, d.componentOf v = .ok o := by
  intro v hv
  rcases List.mem_append.1 hv with hv | hv
  · exact h.known v hv
  · exact ⟨o, List.mem_singleton.1 hv ▸ hid⟩

private theorem exists_mem_concat_iff {P : Nat → Prop} {id : Nat} :
    (∃ v ∈ scope ++ [id], P v) ↔ (∃ v ∈ scope, P v) ∨ P id := by
  simp [or_and_right, exists_or]

/-- A variable of the cut does not change the component. -/
theorem Describes.cut {id : Nat} (h : place.Describes d scope) (hid : d.componentOf id = .ok none) :
    ({ place with touchesCut := true } : Placement).Describes d (scope ++ [id]) where
  known := h.known_concat hid
  component c := by
    rw [exists_mem_concat_iff, hid, ← h.component c]
    simp
  touchesCut := by
    rw [exists_mem_concat_iff, hid]
    simp

/-- The first variable outside the cut gives the component. -/
theorem Describes.first {id c : Nat} (h : place.Describes d scope) (hnone : place.component = none)
    (hid : d.componentOf id = .ok (some c)) :
    ({ place with component := some c } : Placement).Describes d (scope ++ [id]) where
  known := h.known_concat hid
  component c' := by
    rw [exists_mem_concat_iff, hid, ← h.component c', hnone]
    simp
  touchesCut := by
    rw [exists_mem_concat_iff, hid, ← h.touchesCut]
    simp

/-- Another variable of the component changes nothing. -/
theorem Describes.again {id c : Nat} (h : place.Describes d scope) (hsome : place.component = some c)
    (hid : d.componentOf id = .ok (some c)) : place.Describes d (scope ++ [id]) where
  known := h.known_concat hid
  component c' := by
    rw [exists_mem_concat_iff, hid, ← h.component c', hsome]
    simp
  touchesCut := by
    rw [exists_mem_concat_iff, hid, ← h.touchesCut]
    simp

/-- No place describes variables of two components. -/
theorem Describes.component_eq {u v c c' : Nat} (h : place.Describes d scope) (hu : u ∈ scope)
    (hv : v ∈ scope) (hcu : d.componentOf u = .ok (some c)) (hcv : d.componentOf v = .ok (some c')) :
    c = c' := by
  have hc := (h.component c).2 ⟨u, hu, hcu⟩
  rw [(h.component c').2 ⟨v, hv, hcv⟩] at hc
  exact (Option.some.inj hc).symm

/-- A variable lies in the cut or in the component of the place. -/
theorem Describes.componentOf_eq {v : Nat} (h : place.Describes d scope) (hv : v ∈ scope) :
    d.componentOf v = .ok none ∨ ∃ c, place.component = some c ∧ d.componentOf v = .ok (some c) := by
  obtain ⟨o, ho⟩ := h.known v hv
  cases o with
  | none => exact Or.inl ho
  | some c => exact Or.inr ⟨c, (h.component c).2 ⟨v, hv, ho⟩, ho⟩

/-- Going through the rest of a scope completes the place of what has been seen. -/
private theorem extend_eq_ok_iff {factor : Nat} {seen rest : Scope} {place' : Placement}
    (h : place.Describes d seen) :
    extend d factor place rest = .ok place' ↔ place'.Describes d (seen ++ rest) := by
  induction rest generalizing seen place with
  | nil =>
    rw [extend, Except.ok.injEq, List.append_nil]
    constructor
    · rintro rfl
      exact h
    · intro h'
      -- two places that describe the same scope have the same fields
      obtain ⟨component, touchesCut⟩ := place
      obtain ⟨component', touchesCut'⟩ := place'
      have hcomponent : component = component' :=
        Option.ext fun c => (h.component c).trans (h'.component c).symm
      have htouches : touchesCut = touchesCut' :=
        Bool.eq_iff_iff.2 (h.touchesCut.trans h'.touchesCut.symm)
      rw [hcomponent, htouches]
  | cons id rest ih =>
    rw [extend, show seen ++ id :: rest = seen ++ [id] ++ rest by simp]
    cases hid : d.componentOf id with
    | error e =>
      -- a variable that is unknown has no component, so that no place describes the scope
      refine iff_of_false (by simp [bind, Except.bind]) fun h' => ?_
      obtain ⟨o, ho⟩ := h'.known id (by simp)
      exact absurd (hid.symm.trans ho) (by simp)
    | ok o =>
      rw [ok_bind]
      cases o with
      | none => exact ih (h.cut hid)
      | some c =>
        cases hc : place.component with
        | none => exact ih (h.first hc hid)
        | some previous =>
          by_cases heq : previous = c
          · simp only [if_pos heq]
            exact ih (h.again (heq ▸ hc) hid)
          · simp only [if_neg heq]
            refine iff_of_false (by simp) fun h' => ?_
            -- an earlier variable lies in `previous`, this one in `c`
            obtain ⟨v, hv, hcv⟩ := (h.component previous).1 hc
            exact heq (h'.component_eq (by simp [hv]) (by simp) hcv hid)

/-- A factor has the place that describes its scope. -/
theorem ofScope_eq_ok_iff {factor : Nat} :
    ofScope d factor scope = .ok place ↔ place.Describes d scope :=
  extend_eq_ok_iff describes_nil

/-- Variables whose components are known and do not differ have a place. -/
theorem exists_describes (hknown : ∀ id ∈ scope, ∃ o, d.componentOf id = .ok o)
    (hsep : ∀ u ∈ scope, ∀ v ∈ scope, ∀ c c', d.componentOf u = .ok (some c) →
      d.componentOf v = .ok (some c') → c = c') :
    ∃ place : Placement, place.Describes d scope := by
  classical
  -- the component of any variable outside the cut is that of all of them
  let touchesCut := decide (∃ id ∈ scope, d.componentOf id = .ok none)
  by_cases h : ∃ c, ∃ id ∈ scope, d.componentOf id = .ok (some c)
  · obtain ⟨c, u, hu, hcu⟩ := h
    refine ⟨⟨some c, touchesCut⟩, hknown, fun c' => ?_, by simp [touchesCut]⟩
    rw [Option.some.injEq]
    constructor
    · rintro rfl
      exact ⟨u, hu, hcu⟩
    · rintro ⟨v, hv, hcv⟩
      exact hsep u hu v hv c c' hcu hcv
  · refine ⟨⟨none, touchesCut⟩, hknown, fun c => ?_, by simp [touchesCut]⟩
    exact iff_of_false (by simp) fun hc => h ⟨c, hc⟩

/-! ## Section 2: The places of all factors -/

theorem ofScopesFrom_eq_ok_iff {first : Nat} {scopes : List Scope} {places : List Placement} :
    ofScopesFrom d first scopes = .ok places ↔
      List.Forall₂ (fun scope place => place.Describes d scope) scopes places := by
  induction scopes generalizing first places with
  | nil => simp [ofScopesFrom, eq_comm]
  | cons scope scopes ih =>
    simp only [ofScopesFrom, bind_eq_ok_iff, pure_eq_ok_iff, List.forall₂_cons_left_iff,
      ofScope_eq_ok_iff, ih]
    grind

theorem exists_forall₂_describes {scopes : List Scope}
    (h : ∀ scope ∈ scopes, ∃ place : Placement, place.Describes d scope) :
    ∃ places : List Placement,
      List.Forall₂ (fun scope place => place.Describes d scope) scopes places := by
  induction scopes with
  | nil => exact ⟨[], .nil⟩
  | cons scope scopes ih =>
    obtain ⟨hscope, hscopes⟩ := List.forall_mem_cons.1 h
    obtain ⟨place, hplace⟩ := hscope
    obtain ⟨places, hplaces⟩ := ih hscopes
    exact ⟨place :: places, .cons hplace hplaces⟩

/-! ## Section 3: The factors at a place -/

variable {places : List Placement}

theorem mem_factorsAt {component : Option Nat} {i : Nat} :
    i ∈ factorsAt places component ↔
      ∃ place, places[i]? = some place ∧ place.component = component := by
  simp only [factorsAt, List.mem_map, List.mem_filter, List.mem_zipIdx_iff_getElem?, beq_iff_eq,
    Prod.exists]
  constructor
  · rintro ⟨place, j, ⟨hj, hcomponent⟩, rfl⟩
    exact ⟨place, hj, hcomponent⟩
  · rintro ⟨place, hi, hcomponent⟩
    exact ⟨place, i, ⟨hi, hcomponent⟩, rfl⟩

/-- Factors at a place are in order. -/
theorem factorsAt_sorted (places : List Placement) (component : Option Nat) :
    (factorsAt places component).Pairwise (· < ·) := by
  have hsub : (factorsAt places component).Sublist (List.range' 0 places.length) := by
    rw [← List.zipIdx_map_snd 0 places]
    exact List.filter_sublist.map _
  exact List.Pairwise.sublist hsub (List.pairwise_lt_range' ..)

theorem nodup_factorsAt (places : List Placement) (component : Option Nat) :
    (factorsAt places component).Nodup :=
  (factorsAt_sorted places component).imp fun h => h.ne

theorem lt_of_mem_factorsAt {component : Option Nat} {i : Nat}
    (hi : i ∈ factorsAt places component) : i < places.length := by
  obtain ⟨place, hplace, -⟩ := mem_factorsAt.1 hi
  exact (List.getElem?_eq_some_iff.1 hplace).1

/-- A factor is at one place only. -/
theorem disjoint_factorsAt {o o' : Option Nat} (h : o ≠ o') :
    (factorsAt places o).Disjoint (factorsAt places o') := by
  intro i hi hi'
  obtain ⟨place, hplace, rfl⟩ := mem_factorsAt.1 hi
  obtain ⟨place', hplace', rfl⟩ := mem_factorsAt.1 hi'
  rw [hplace] at hplace'
  exact h (congrArg component (Option.some.inj hplace'))

/-- The overflow and the components together have every factor exactly once. -/
theorem factorsAt_perm {count : Nat}
    (hcount : ∀ place ∈ places, ∀ c, place.component = some c → c < count) :
    (factorsAt places none ++
      ((List.range count).map fun c => factorsAt places (some c)).flatten).Perm
      (List.range places.length) := by
  have hbuckets : ((List.range count).map fun c => factorsAt places (some c)).flatten.Nodup := by
    rw [← List.flatMap_def, List.nodup_flatMap]
    refine ⟨fun c _ => nodup_factorsAt places _, ?_⟩
    exact List.nodup_range.imp fun hne => disjoint_factorsAt (by simpa using hne)
  refine (List.perm_ext_iff_of_nodup ?_ List.nodup_range).2 fun i => ?_
  · refine (nodup_factorsAt places none).append hbuckets fun i hi hi' => ?_
    obtain ⟨ids, hids, hi'⟩ := List.mem_flatten.1 hi'
    obtain ⟨c, -, rfl⟩ := List.mem_map.1 hids
    exact disjoint_factorsAt (by simp) hi hi'
  · rw [List.mem_append, List.mem_range, List.mem_flatten]
    constructor
    · rintro (hi | ⟨ids, hids, hi⟩)
      · exact lt_of_mem_factorsAt hi
      · obtain ⟨c, -, rfl⟩ := List.mem_map.1 hids
        exact lt_of_mem_factorsAt hi
    · intro hi
      -- its place says whether a factor is in the overflow or in which component
      have hplace : places[i]? = some places[i] := List.getElem?_eq_getElem hi
      cases hc : places[i].component with
      | none => exact Or.inl (mem_factorsAt.2 ⟨_, hplace, hc⟩)
      | some c =>
        have hlt := hcount _ (List.getElem_mem hi) c hc
        exact Or.inr ⟨_, List.mem_map.2 ⟨c, List.mem_range.2 hlt, rfl⟩,
          mem_factorsAt.2 ⟨_, hplace, hc⟩⟩

end Placement

/-! ## Section 4: Buckets -/

namespace Buckets

variable {W : Type} {p : Problem W} {d : Decomposition} {b : Buckets}

/-- What the buckets of a problem promise: every factor of either network is in one place exactly
once, and its variables lie there. -/
structure Shares (b : Buckets) (p : Problem W) (d : Decomposition) : Prop where
  /-- Every factor is in the overflow or in one bucket, exactly once. -/
  partition : ∀ role,
    ((b.share role).overflow ++ (b.share role).buckets.toList.flatten).Perm (p.factorIds role)
  size_buckets : ∀ role, (b.share role).buckets.size = d.components.length
  size_conditioned : b.conditioned.size = d.components.length
  /-- The factors of the overflow depend on the cut only. -/
  overflow : ∀ role, ∀ i ∈ (b.share role).overflow, ∀ v ∈ p.scopeOf role i,
    d.componentOf v = .ok none
  /-- The factors of a component depend on it and on the cut. -/
  bucket : ∀ role c ids, b.bucket role c = .ok ids → ∀ i ∈ ids, ∀ v ∈ p.scopeOf role i,
    d.componentOf v = .ok none ∨ d.componentOf v = .ok (some c)
  /-- Those of a component that is not conditioned do not depend on the cut. -/
  unconditioned : ∀ c, fetch b.conditioned c = .ok false → ∀ role ids, b.bucket role c = .ok ids →
    ∀ i ∈ ids, ∀ v ∈ p.scopeOf role i, d.componentOf v = .ok (some c)

/-- The buckets of factors with known places. -/
def ofPlaces (count : Nat) (places : Role → List Placement) : Buckets where
  constraint := Share.ofPlaces count (places .constraint)
  objective := Share.ofPlaces count (places .objective)
  conditioned := (Array.range count).map fun c =>
    (places .constraint ++ places .objective).any fun place =>
      place.component == some c && place.touchesCut

/-- The places of the factors of each network. -/
def Located (p : Problem W) (d : Decomposition) (places : Role → List Placement) : Prop :=
  ∀ role, List.Forall₂ (fun scope place => place.Describes d scope)
    ((p.network role).factors.toList.map Factor.scope) (places role)

theorem ofProblem_eq_ok_iff :
    ofProblem p d = .ok b ↔
      ∃ places, Located p d places ∧ b = ofPlaces d.components.length places := by
  simp only [ofProblem, Placement.ofNetwork, bind_eq_ok_iff, pure_eq_ok_iff,
    Placement.ofScopesFrom_eq_ok_iff]
  constructor
  · rintro ⟨constraint, hconstraint, objective, hobjective, rfl⟩
    exact ⟨fun role => role.casesOn constraint objective,
      fun role => role.casesOn hconstraint hobjective, rfl⟩
  · rintro ⟨places, hplaces, rfl⟩
    exact ⟨_, hplaces .constraint, _, hplaces .objective, rfl⟩

theorem share_ofPlaces (count : Nat) (places : Role → List Placement) (role : Role) :
    (ofPlaces count places).share role = Share.ofPlaces count (places role) := by
  cases role <;> rfl

theorem bucket_ofPlaces_eq_ok_iff {count c : Nat} {places : Role → List Placement} {role : Role}
    {ids : List Nat} :
    (ofPlaces count places).bucket role c = .ok ids ↔
      c < count ∧ ids = Placement.factorsAt (places role) (some c) := by
  rw [bucket, share_ofPlaces, fetch_eq_ok_iff]
  by_cases h : c < count <;> simp [Share.ofPlaces, h, eq_comm]

theorem conditioned_ofPlaces_eq_false {count c : Nat} {places : Role → List Placement}
    (h : fetch (ofPlaces count places).conditioned c = .ok false) (role : Role) {place : Placement}
    (hplace : place ∈ places role) (hc : place.component = some c) : place.touchesCut = false := by
  rw [fetch_eq_ok_iff] at h
  by_cases hlt : c < count
  · simp only [ofPlaces, Array.getElem?_map, Array.getElem?_range, hlt, ↓reduceIte, Option.map_some,
      Option.some.injEq, List.any_eq_false, List.mem_append] at h
    have hmem : place ∈ places .constraint ∨ place ∈ places .objective := by
      cases role
      · exact Or.inl hplace
      · exact Or.inr hplace
    simpa [hc] using h place hmem
  · simp [ofPlaces, hlt] at h

/-- The place of the factor with a number describes its scope. -/
theorem Located.describes {places : Role → List Placement} (h : Located p d places) {role : Role}
    {i : Nat} {place : Placement} (hplace : (places role)[i]? = some place) :
    place.Describes d (p.scopeOf role i) := by
  obtain ⟨hlength, hall⟩ := List.forall₂_iff_get.1 (h role)
  obtain ⟨hi, rfl⟩ := List.getElem?_eq_some_iff.1 hplace
  have hfactor : i < (p.network role).factors.size := by simpa [← hlength] using hi
  have := hall i (by simpa using hfactor) hi
  simpa [Problem.scopeOf, hfactor] using this

theorem Located.shares {places : Role → List Placement} (h : Located p d places)
    (hcount : ∀ role i, ∀ v ∈ p.scopeOf role i, ∀ c, d.componentOf v = .ok (some c) →
      c < d.components.length) : (ofPlaces d.components.length places).Shares p d where
  partition role := by
    -- the component of a place is that of some variable, and so it exists
    have hlength : (places role).length = (p.network role).factors.size := by
      rw [← (h role).length_eq]
      simp
    have hplaces : ∀ place ∈ places role, ∀ c, place.component = some c →
        c < d.components.length := by
      intro place hplace c hc
      obtain ⟨i, hi⟩ := List.mem_iff_getElem?.1 hplace
      obtain ⟨v, hv, hcv⟩ := ((h.describes hi).component c).1 hc
      exact hcount role i v hv c hcv
    have hperm := Placement.factorsAt_perm hplaces
    rw [share_ofPlaces, Problem.factorIds, ← hlength]
    simpa [Share.ofPlaces] using hperm
  size_buckets role := by simp [share_ofPlaces, Share.ofPlaces]
  size_conditioned := by simp [ofPlaces]
  overflow role i hi v hv := by
    rw [share_ofPlaces] at hi
    obtain ⟨place, hplace, hnone⟩ := Placement.mem_factorsAt.1 hi
    apply ((h.describes hplace).componentOf_eq hv).resolve_right
    rintro ⟨c, hc, -⟩
    exact absurd (hnone.symm.trans hc) (by simp)
  bucket role c ids hids i hi v hv := by
    obtain ⟨-, rfl⟩ := bucket_ofPlaces_eq_ok_iff.1 hids
    obtain ⟨place, hplace, hsome⟩ := Placement.mem_factorsAt.1 hi
    apply ((h.describes hplace).componentOf_eq hv).imp_right
    rintro ⟨c', hc', hv'⟩
    rw [hsome, Option.some.injEq] at hc'
    rwa [hc']
  unconditioned c hc role ids hids i hi v hv := by
    obtain ⟨-, rfl⟩ := bucket_ofPlaces_eq_ok_iff.1 hids
    obtain ⟨place, hplace, hsome⟩ := Placement.mem_factorsAt.1 hi
    -- a variable of the cut would have marked the component
    have htouches :=
      conditioned_ofPlaces_eq_false hc role (List.mem_of_getElem? hplace) hsome
    rcases (h.describes hplace).componentOf_eq hv with hcut | ⟨c', hc', hv'⟩
    · rw [(h.describes hplace).touchesCut.2 ⟨v, hv, hcut⟩] at htouches
      cases htouches
    · rw [hsome, Option.some.injEq] at hc'
      rwa [hc']

/-! ## Section 5: Buckets under a separating decomposition -/

section Separated

variable {width : Nat} (hd : d.Separates width p.domains.size p.scopes)
  (hp : ∀ scope ∈ p.scopes, scope.InRange p.domains)

include hd hp

theorem shares_of_ofProblem (hb : ofProblem p d = .ok b) : b.Shares p d := by
  obtain ⟨places, hplaces, rfl⟩ := ofProblem_eq_ok_iff.1 hb
  refine hplaces.shares fun role i v hv c hc => ?_
  have hid := hp _ (Problem.scopeOf_mem_scopes hv) v hv
  obtain ⟨component, hcomponent, -⟩ := (hd.componentOf_eq_some v hid c).1 hc
  exact (List.getElem?_eq_some_iff.1 hcomponent).1

theorem exists_ofProblem : ∃ b, ofProblem p d = .ok b := by
  have hscope : ∀ scope ∈ p.scopes, ∃ place : Placement, place.Describes d scope := by
    intro scope hscope
    apply Placement.exists_describes fun id hid => hd.exists_componentOf (hp scope hscope id hid)
    exact hd.separated scope hscope
  have hrole : ∀ role, ∃ places : List Placement,
      List.Forall₂ (fun scope place => place.Describes d scope)
        ((p.network role).factors.toList.map Factor.scope) places := by
    intro role
    refine Placement.exists_forall₂_describes fun scope hs => hscope scope ?_
    obtain ⟨f, hf, rfl⟩ := List.mem_map.1 hs
    exact Problem.mem_scopes_iff.2 ⟨role, f, Array.mem_toList_iff.1 hf, rfl⟩
  choose places hplaces using hrole
  exact ⟨_, ofProblem_eq_ok_iff.2 ⟨places, hplaces, rfl⟩⟩

omit hd in
/-- At every width a problem has a separating decomposition, and buckets that share out its
factors. -/
theorem exists_decomposed (width : Nat) : ∃ d b, Decomposition.ofProblem p width = .ok d ∧
    ofProblem p d = .ok b ∧ d.Separates width p.domains.size p.scopes ∧ b.Shares p d := by
  obtain ⟨d, hd⟩ := Decomposition.exists_ofProblem hp width
  have hseparates := Decomposition.separates_of_ofProblem hp hd
  obtain ⟨b, hb⟩ := exists_ofProblem hseparates hp
  exact ⟨d, b, hd, hb, hseparates, shares_of_ofProblem hseparates hp hb⟩

end Separated

end Buckets

end PairedMarkov
