import PairedMarkov.Proofs.Buckets.Sharing

/-!
# Sharing factors out among components of another problem

A decomposition may be that of another problem, and then nothing says that its components separate
the factors which are shared out. Going through the scopes finds out: either some factor has variables
in two components, which is a fault that names it and them, or every factor has exactly one place.

Main statements:
- `Placement.extend_eq_error`: what the fault is if a scope has no place;
- `Buckets.ofProblem_partition`: the factors of a problem are shared out exactly if none of them has
  variables in two components, and then each one lies where its scope says.
-/

namespace PairedMarkov

/-! ## Section 1: What any decomposition says of its variables -/

namespace Decomposition

/-- The variables of the component with a number, none if there is no such component. -/
def component (d : Decomposition) (c : Nat) : Scope := d.components[c]?.getD []

/-- A scope has a variable in a component. -/
def Meets (d : Decomposition) (c : Nat) (scope : Scope) : Prop := ∃ v ∈ scope, v ∈ d.component c

theorem mem_component {d : Decomposition} {c id : Nat} :
    id ∈ d.component c ↔ ∃ component, d.components[c]? = some component ∧ id ∈ component := by
  unfold component
  cases d.components[c]? <;> simp

theorem lt_length_of_mem_component {d : Decomposition} {c id : Nat} (h : id ∈ d.component c) :
    c < d.components.length := by
  obtain ⟨component, hc, -⟩ := mem_component.1 h
  exact (List.getElem?_eq_some_iff.1 hc).1

/-- Each variable below a bound is in the cut or in the component that is looked up for it. -/
structure Assigns (d : Decomposition) (count : Nat) : Prop where
  known : ∀ id < count, ∃ o, d.componentOf id = .ok o
  eq_none_iff : ∀ id < count, d.componentOf id = .ok none ↔ id ∈ d.cut
  eq_some_iff : ∀ id < count, ∀ c, d.componentOf id = .ok (some c) ↔ id ∈ d.component c

theorem assigns_of_ofProblem {V : Type} {q : Problem V} {width : Nat} {d : Decomposition}
    (hd : ofProblem q width = .ok d) : d.Assigns q.domains.size := by
  obtain ⟨g, hok, hd⟩ := bind_eq_ok_iff.1 hd
  have hg := Graph.shows_of_ofScopes hok
  rw [pure_eq_ok_iff] at hd
  subst hd
  exact ⟨fun id hid => ⟨_, componentOf_ofGraph width g hid⟩,
    fun id hid => componentOf_eq_none_iff width hg hid,
    fun id hid c => (componentOf_eq_some_iff width hg hid c).trans mem_component.symm⟩

end Decomposition

/-! ## Section 2: Factors without a place -/

namespace Placement

variable {d : Decomposition}

/-- A fault that tells the truth about the scope of a factor: two of its variables lie in different
components. -/
def Spans (d : Decomposition) (factor : Nat) (scope : Scope) (fault : Fault) : Prop :=
  ∃ u ∈ scope, ∃ v ∈ scope, ∃ c c', d.componentOf u = .ok (some c) ∧
    d.componentOf v = .ok (some c') ∧ c ≠ c' ∧ fault = .spansComponents factor c c'

/-- Going through a scope of known variables fails only at a variable of a second component. -/
theorem extend_eq_error {factor : Nat} {seen rest : Scope} {place : Placement} {fault : Fault}
    (h : place.Describes d seen) (hknown : ∀ id ∈ rest, ∃ o, d.componentOf id = .ok o)
    (herror : extend d factor place rest = .error fault) :
    Spans d factor (seen ++ rest) fault := by
  induction rest generalizing seen place with
  | nil => cases herror
  | cons id rest ih =>
    obtain ⟨⟨o, hid⟩, hknown⟩ := List.forall_mem_cons.1 hknown
    rw [extend, hid, ok_bind] at herror
    rw [show seen ++ id :: rest = seen ++ [id] ++ rest by simp]
    cases o with
    | none => exact ih (h.cut hid) hknown herror
    | some c =>
      cases hc : place.component with
      | none =>
        simp only [hc] at herror
        exact ih (h.first hc hid) hknown herror
      | some previous =>
        simp only [hc] at herror
        split at herror
        · rename_i heq
          exact ih (h.again (heq ▸ hc) hid) hknown herror
        · rename_i hne
          -- an earlier variable lies in `previous`, this one in `c`
          obtain ⟨v, hv, hcv⟩ := (h.component previous).1 hc
          exact ⟨v, by simp [hv], id, by simp, previous, c, hcv, hid, hne,
            (Except.error.inj herror).symm⟩

theorem ofScopesFrom_eq_error {first : Nat} {scopes : List Scope} {fault : Fault}
    (hknown : ∀ scope ∈ scopes, ∀ id ∈ scope, ∃ o, d.componentOf id = .ok o)
    (herror : ofScopesFrom d first scopes = .error fault) :
    ∃ i scope, scopes[i]? = some scope ∧ Spans d (first + i) scope fault := by
  induction scopes generalizing first with
  | nil => cases herror
  | cons scope scopes ih =>
    obtain ⟨hscope, hknown⟩ := List.forall_mem_cons.1 hknown
    rw [ofScopesFrom, bind_eq_error_iff] at herror
    rcases herror with herror | ⟨place, -, herror⟩
    · exact ⟨0, scope, rfl, extend_eq_error describes_nil hscope herror⟩
    · rcases bind_eq_error_iff.1 herror with herror | ⟨places, -, herror⟩
      · obtain ⟨i, scope', hi, hspans⟩ := ih hknown herror
        exact ⟨i + 1, scope', hi, by rwa [show first + (i + 1) = first + 1 + i by omega]⟩
      · cases herror

end Placement

namespace Buckets

variable {W : Type} {p : Problem W} {d : Decomposition} {b : Buckets}

theorem ofNetwork_eq_error {role : Role} {fault : Fault}
    (hknown : ∀ scope ∈ p.scopes, ∀ id ∈ scope, ∃ o, d.componentOf id = .ok o)
    (herror : Placement.ofNetwork d (p.network role) = .error fault) :
    ∃ i ∈ p.factorIds role, Placement.Spans d i (p.scopeOf role i) fault := by
  obtain ⟨i, scope, hi, hspans⟩ := Placement.ofScopesFrom_eq_error (fun scope hscope => by
    obtain ⟨f, hf, rfl⟩ := List.mem_map.1 hscope
    exact hknown _ (Problem.mem_scopes_iff.2 ⟨role, f, Array.mem_toList_iff.1 hf, rfl⟩)) herror
  rw [List.getElem?_map, Option.map_eq_some_iff] at hi
  obtain ⟨f, hf, rfl⟩ := hi
  rw [Array.getElem?_toList] at hf
  refine ⟨i, List.mem_range.2 (Array.getElem?_eq_some_iff.1 hf).1, ?_⟩
  rwa [Nat.zero_add, show f.scope = p.scopeOf role i by simp [Problem.scopeOf, hf]] at hspans

/-- Sharing out fails only at a factor with variables in two components. -/
theorem ofProblem_eq_error {fault : Fault}
    (hknown : ∀ scope ∈ p.scopes, ∀ id ∈ scope, ∃ o, d.componentOf id = .ok o)
    (herror : ofProblem p d = .error fault) :
    ∃ role, ∃ i ∈ p.factorIds role, Placement.Spans d i (p.scopeOf role i) fault := by
  rcases bind_eq_error_iff.1 herror with herror | ⟨_, -, herror⟩
  · exact ⟨.constraint, ofNetwork_eq_error hknown herror⟩
  · rcases bind_eq_error_iff.1 herror with herror | ⟨_, -, herror⟩
    · exact ⟨.objective, ofNetwork_eq_error hknown herror⟩
    · cases herror

/-! ## Section 3: Factors with a place -/

/-- Buckets that hold each factor where its scope says. -/
structure Partitions (b : Buckets) (p : Problem W) (d : Decomposition) : Prop where
  /-- Every factor is in the overflow or in one bucket, exactly once. -/
  partition : ∀ role,
    ((b.share role).overflow ++ (b.share role).buckets.toList.flatten).Perm (p.factorIds role)
  sorted_overflow : ∀ role, (b.share role).overflow.Pairwise (· < ·)
  mem_overflow_iff : ∀ role, ∀ i ∈ p.factorIds role,
    i ∈ (b.share role).overflow ↔ ∀ c, ¬ d.Meets c (p.scopeOf role i)
  exists_bucket_iff : ∀ role c, (∃ ids, b.bucket role c = .ok ids) ↔ c < d.components.length
  sorted_bucket : ∀ role c ids, b.bucket role c = .ok ids → ids.Pairwise (· < ·)
  mem_bucket_iff : ∀ role c ids, b.bucket role c = .ok ids → ∀ i ∈ p.factorIds role,
    i ∈ ids ↔ d.Meets c (p.scopeOf role i)
  /-- The factors of a component depend on it and on the cut. -/
  subset_bucket : ∀ role c ids, b.bucket role c = .ok ids → ∀ i ∈ ids, ∀ v ∈ p.scopeOf role i,
    v ∈ d.component c ∨ v ∈ d.cut
  exists_conditioned_iff : ∀ c, (∃ flag, fetch b.conditioned c = .ok flag) ↔ c < d.components.length
  /-- A component is conditioned by those of its factors that depend on the cut. -/
  conditioned_iff : ∀ c, fetch b.conditioned c = .ok true ↔
    ∃ role ids, b.bucket role c = .ok ids ∧ ∃ i ∈ ids, ∃ v ∈ p.scopeOf role i, v ∈ d.cut

theorem conditioned_ofPlaces_eq_ok_iff {count c : Nat} {places : Role → List Placement}
    {flag : Bool} : fetch (ofPlaces count places).conditioned c = .ok flag ↔
      c < count ∧ flag = (places .constraint ++ places .objective).any fun place =>
        place.component == some c && place.touchesCut := by
  rw [fetch_eq_ok_iff]
  by_cases h : c < count <;> simp [ofPlaces, h, eq_comm]

theorem conditioned_ofPlaces_eq_true_iff {count c : Nat} {places : Role → List Placement} :
    fetch (ofPlaces count places).conditioned c = .ok true ↔ c < count ∧
      ∃ role, ∃ place ∈ places role, place.component = some c ∧ place.touchesCut = true := by
  rw [conditioned_ofPlaces_eq_ok_iff, eq_comm, List.any_append, Bool.or_eq_true, List.any_eq_true,
    List.any_eq_true]
  simp only [Bool.and_eq_true, beq_iff_eq]
  refine and_congr_right fun _ => ⟨?_, ?_⟩
  · rintro (h | h)
    · exact ⟨.constraint, h⟩
    · exact ⟨.objective, h⟩
  · rintro ⟨role, h⟩
    cases role
    · exact Or.inl h
    · exact Or.inr h

theorem Located.exists_place {places : Role → List Placement} (h : Located p d places) {role : Role}
    {i : Nat} (hi : i ∈ p.factorIds role) : ∃ place, (places role)[i]? = some place := by
  have hlength := (h role).length_eq
  have hlt : i < (places role).length := by
    simpa [← hlength, Problem.factorIds] using hi
  exact ⟨_, List.getElem?_eq_getElem hlt⟩

/-- Which factors lie at a place is known from their places. -/
theorem mem_factorsAt_iff {places : List Placement} {i : Nat} {place : Placement}
    (hplace : places[i]? = some place) (o : Option Nat) :
    i ∈ Placement.factorsAt places o ↔ place.component = o := by
  rw [Placement.mem_factorsAt]
  simp [hplace]

section Assigned

variable {count : Nat} (hd : d.Assigns count) (hp : ∀ scope ∈ p.scopes, ∀ id ∈ scope, id < count)

include hd hp

theorem componentOf_eq_some_iff {role : Role} {i v c : Nat} (hv : v ∈ p.scopeOf role i) :
    d.componentOf v = .ok (some c) ↔ v ∈ d.component c :=
  hd.eq_some_iff v (hp _ (Problem.scopeOf_mem_scopes hv) v hv) c

theorem componentOf_eq_none_iff {role : Role} {i v : Nat} (hv : v ∈ p.scopeOf role i) :
    d.componentOf v = .ok none ↔ v ∈ d.cut :=
  hd.eq_none_iff v (hp _ (Problem.scopeOf_mem_scopes hv) v hv)

/-- The component of a place is the one that the scope meets. -/
theorem component_eq_some_iff {role : Role} {i c : Nat} {place : Placement}
    (hplace : place.Describes d (p.scopeOf role i)) :
    place.component = some c ↔ d.Meets c (p.scopeOf role i) := by
  rw [hplace.component c]
  exact exists_congr fun v => and_congr_right fun hv => componentOf_eq_some_iff hd hp hv

theorem touchesCut_iff {role : Role} {i : Nat} {place : Placement}
    (hplace : place.Describes d (p.scopeOf role i)) :
    place.touchesCut = true ↔ ∃ v ∈ p.scopeOf role i, v ∈ d.cut := by
  rw [hplace.touchesCut]
  exact exists_congr fun v => and_congr_right fun hv => componentOf_eq_none_iff hd hp hv

/-- Placements that tell where the factors meet the decomposition share them out as a partition: a
question about a bucket is one about placements, and that is one about the variables of a scope. -/
theorem Located.partitions {places : Role → List Placement} (h : Located p d places) :
    (ofPlaces d.components.length places).Partitions p d where
  partition := by
    refine (h.shares fun role i v hv c hc => ?_).partition
    exact Decomposition.lt_length_of_mem_component ((componentOf_eq_some_iff hd hp hv).1 hc)
  sorted_overflow role := by
    rw [share_ofPlaces]
    exact Placement.factorsAt_sorted _ _
  mem_overflow_iff role i hi := by
    obtain ⟨place, hplace⟩ := h.exists_place hi
    rw [share_ofPlaces, Share.ofPlaces, mem_factorsAt_iff hplace, Option.eq_none_iff_forall_ne_some]
    exact forall_congr' fun c => not_congr (component_eq_some_iff hd hp (h.describes hplace))
  exists_bucket_iff role c := by simp [bucket_ofPlaces_eq_ok_iff]
  sorted_bucket role c ids hids := by
    obtain ⟨-, rfl⟩ := bucket_ofPlaces_eq_ok_iff.1 hids
    exact Placement.factorsAt_sorted _ _
  mem_bucket_iff role c ids hids i hi := by
    obtain ⟨-, rfl⟩ := bucket_ofPlaces_eq_ok_iff.1 hids
    obtain ⟨place, hplace⟩ := h.exists_place hi
    rw [mem_factorsAt_iff hplace, component_eq_some_iff hd hp (h.describes hplace)]
  subset_bucket role c ids hids i hi v hv := by
    obtain ⟨-, rfl⟩ := bucket_ofPlaces_eq_ok_iff.1 hids
    obtain ⟨place, hplace, hc⟩ := Placement.mem_factorsAt.1 hi
    -- a placement names at most one component, so that any other variable is in the cut
    rcases (h.describes hplace).componentOf_eq hv with hcut | ⟨c', hc', hcomponent⟩
    · exact Or.inr ((componentOf_eq_none_iff hd hp hv).1 hcut)
    · obtain rfl := Option.some.inj (hc'.symm.trans hc)
      exact Or.inl ((componentOf_eq_some_iff hd hp hv).1 hcomponent)
  exists_conditioned_iff c := by simp [conditioned_ofPlaces_eq_ok_iff]
  conditioned_iff c := by
    rw [conditioned_ofPlaces_eq_true_iff]
    constructor
    · rintro ⟨hc, role, place, hmem, hcomponent, htouches⟩
      obtain ⟨i, hplace⟩ := List.mem_iff_getElem?.1 hmem
      exact ⟨role, _, bucket_ofPlaces_eq_ok_iff.2 ⟨hc, rfl⟩, i,
        Placement.mem_factorsAt.2 ⟨place, hplace, hcomponent⟩,
        (touchesCut_iff hd hp (h.describes hplace)).1 htouches⟩
    · rintro ⟨role, ids, hids, i, hi, hcut⟩
      obtain ⟨hc, rfl⟩ := bucket_ofPlaces_eq_ok_iff.1 hids
      obtain ⟨place, hplace, hcomponent⟩ := Placement.mem_factorsAt.1 hi
      exact ⟨hc, role, place, List.mem_of_getElem? hplace, hcomponent,
        (touchesCut_iff hd hp (h.describes hplace)).2 hcut⟩

/-- If sharing out fails, then at a factor that the fault names, with two components that it meets. -/
theorem exists_meets_of_eq_error {fault : Fault} (herror : ofProblem p d = .error fault) :
    ∃ role, ∃ i ∈ p.factorIds role, ∃ c c', c ≠ c' ∧ d.Meets c (p.scopeOf role i) ∧
      d.Meets c' (p.scopeOf role i) ∧ fault = .spansComponents i c c' := by
  obtain ⟨role, i, hi, u, hu, v, hv, c, c', hcu, hcv, hne, hfault⟩ :=
    ofProblem_eq_error (fun scope hscope id hid => hd.known id (hp scope hscope id hid)) herror
  exact ⟨role, i, hi, c, c', hne, ⟨u, hu, (componentOf_eq_some_iff hd hp hu).1 hcu⟩,
    ⟨v, hv, (componentOf_eq_some_iff hd hp hv).1 hcv⟩, hfault⟩

end Assigned

/-- **Sharing out is a partition or a rejection**: under the decomposition of any problem with at least
as many variables, the factors are rejected exactly if one of them has variables in two components,
which the fault names; otherwise each one lies where its scope says. -/
theorem ofProblem_partition {V : Type} {q : Problem V} {width : Nat}
    (hd : Decomposition.ofProblem q width = .ok d)
    (hp : ∀ scope ∈ p.scopes, scope.InRange p.domains) (hsize : p.domains.size ≤ q.domains.size) :
    ((∃ fault, ofProblem p d = .error fault) ↔ ∃ role, ∃ i ∈ p.factorIds role, ∃ c c', c ≠ c' ∧
      d.Meets c (p.scopeOf role i) ∧ d.Meets c' (p.scopeOf role i)) ∧
    (∀ fault, ofProblem p d = .error fault → ∃ role, ∃ i ∈ p.factorIds role, ∃ c c', c ≠ c' ∧
      d.Meets c (p.scopeOf role i) ∧ d.Meets c' (p.scopeOf role i) ∧
      fault = .spansComponents i c c') ∧
    ∀ b, ofProblem p d = .ok b → b.Partitions p d := by
  have hassigns := Decomposition.assigns_of_ofProblem hd
  have hlt : ∀ scope ∈ p.scopes, ∀ id ∈ scope, id < q.domains.size :=
    fun scope hscope id hid => (hp scope hscope id hid).trans_le hsize
  refine ⟨⟨?_, ?_⟩, fun fault => exists_meets_of_eq_error hassigns hlt, fun b hb => ?_⟩
  · rintro ⟨fault, herror⟩
    obtain ⟨role, i, hi, c, c', hne, hc, hc', -⟩ := exists_meets_of_eq_error hassigns hlt herror
    exact ⟨role, i, hi, c, c', hne, hc, hc'⟩
  · rintro ⟨role, i, hi, c, c', hne, hc, hc'⟩
    cases hresult : ofProblem p d with
    | error fault => exact ⟨fault, rfl⟩
    | ok b =>
      -- the factor would have a place, and the place one component
      obtain ⟨places, hplaces, rfl⟩ := ofProblem_eq_ok_iff.1 hresult
      obtain ⟨place, hplace⟩ := hplaces.exists_place hi
      have hdescribes := hplaces.describes hplace
      rw [← component_eq_some_iff hassigns hlt hdescribes] at hc hc'
      exact absurd (Option.some.inj (hc.symm.trans hc')) hne
  · obtain ⟨places, hplaces, rfl⟩ := ofProblem_eq_ok_iff.1 hb
    exact hplaces.partitions hassigns hlt

/-- Two factors under the decomposition of a longer chain, which knows nothing of the second one. -/
theorem exists_chain_partition :
    let q : Problem Nat :=
      { domains := #[2, 2, 2, 2]
        constraint := ⟨#[⟨[0, 1], #[0, 1, 2, 3]⟩, ⟨[2, 3], #[0, 1, 2, 3]⟩]⟩
        objective := ⟨#[⟨[2, 1], #[0, 1, 2, 3]⟩]⟩ }
    let p : Problem Nat :=
      { domains := #[2, 3, 2]
        constraint := ⟨#[⟨[1, 0], #[0, 1, 2, 3, 4, 5]⟩]⟩
        objective := ⟨#[⟨[0, 2], #[0, 1, 2, 3]⟩]⟩ }
    ∃ d, Decomposition.ofProblem q 2 = .ok d ∧
      ((∃ fault, ofProblem p d = .error fault) ↔ ∃ role, ∃ i ∈ p.factorIds role, ∃ c c', c ≠ c' ∧
        d.Meets c (p.scopeOf role i) ∧ d.Meets c' (p.scopeOf role i)) ∧
      (∀ fault, ofProblem p d = .error fault → ∃ role, ∃ i ∈ p.factorIds role, ∃ c c', c ≠ c' ∧
        d.Meets c (p.scopeOf role i) ∧ d.Meets c' (p.scopeOf role i) ∧
        fault = .spansComponents i c c') ∧
      ∀ b, ofProblem p d = .ok b → b.Partitions p d := by
  intro q p
  have hq : ∀ scope ∈ q.scopes, scope.InRange q.domains := by decide
  have hp : ∀ scope ∈ p.scopes, scope.InRange p.domains := by decide
  obtain ⟨d, hd⟩ := Decomposition.exists_ofProblem hq 2
  exact ⟨d, hd, ofProblem_partition hd hp (by decide)⟩

end Buckets

end PairedMarkov
