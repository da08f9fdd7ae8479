import PairedMarkov.Proofs.Buckets.Aggregates

/-!
# Scores from aggregates

The aggregates that a decomposition has under an assignment are enough to score that assignment:
every component adds one entry, at the address that the assignment gives to the component, and the
overflow adds the rest. Both tables of a component are over the component itself, so that they share
the address.

Main statement: `Aggregate.exists_score_eq_overflow_add`.
-/

namespace PairedMarkov.Aggregate

variable {R : Type} [Ring R] [LinearOrder R] {p : Problem (Exact R)} {d : Decomposition}
  {b : Buckets} {width : Nat} {x z : Assignment}

section Entries

variable (hp : p.Tabulated) (hd : d.Separates width p.domains.size p.scopes) (hb : b.Shares p d)
  (hfits : ∀ scope ∈ d.components, p.Allocates scope) (hx : x.Inside p.domains)

include hp hd hb hfits hx

/-- The entries that an assignment selects are what the buckets contribute. -/
theorem mapM_value_mergedFrom (role : Role) :
    (mergedFrom p b x 0 d.components).mapM (fun a => (a.factor role).value p.domains x) =
      .ok ((List.range d.components.length).map fun c =>
        p.partialTotal role x (b.bucketIds role c)) := by
  have hvalue : ∀ entry ∈ d.components.zipIdx,
      ((merged p b x entry.2 entry.1).factor role).value p.domains x =
        .ok (p.partialTotal role x (b.bucketIds role entry.2)) := by
    rintro ⟨scope, c⟩ hentry
    have hc := List.mem_zipIdx_iff_getElem?.1 hentry
    exact value_merged hp hd hb hx hx (fun _ _ => rfl) hc (hfits scope (List.mem_of_getElem? hc)) role
  -- the numbers of the components are what is left when the components are forgotten
  rw [mergedFrom, List.mapM_map, List.range_eq_range', ← List.zipIdx_map_snd 0 d.components,
    List.map_map]
  exact mapM_eq_ok hvalue

omit hp hb in
/-- Both tables of a component have one address. -/
theorem exists_address {a : Aggregate (Exact R)} (ha : a ∈ mergedFrom p b x 0 d.components) :
    ∃ address, a.cost.address p.domains x = .ok address ∧
      a.profit.address p.domains x = .ok address := by
  obtain ⟨⟨scope, c⟩, hentry, rfl⟩ := List.mem_map.1 ha
  have hscope := List.mem_of_getElem? (List.mem_zipIdx_iff_getElem?.1 hentry)
  have haddress := Scope.address_eq_ok hx (hd.inRange_components scope hscope)
    (hfits scope hscope).capacity_lt
  exact ⟨_, haddress, haddress⟩

end Entries

/-- **Scores from aggregates**: at every width whose tables fit into memory a problem has a
decomposition, buckets and aggregates, the two tables of each aggregate are over the component, and
the score of either network is what the overflow contributes and the entries of the aggregates at
the current addresses. -/
theorem exists_score_eq_overflow_add (hp : p.Valid)
    (hsmall : ∀ d, Decomposition.ofProblem p width = .ok d →
      ∀ scope ∈ d.components, scope.capacity p.domains < 2 ^ 58)
    (hx : x.Inside p.domains) :
    ∃ d b aggregates, Decomposition.ofProblem p width = .ok d ∧ Buckets.ofProblem p d = .ok b ∧
      ofDecomposition p d b x = .ok aggregates ∧
      (aggregates.map fun a => a.cost.scope) = d.components ∧
      (aggregates.map fun a => a.profit.scope) = d.components ∧
      (∀ a ∈ aggregates, ∃ address, a.cost.address p.domains x = .ok address ∧
        a.profit.address p.domains x = .ok address) ∧
      ∀ role, ∃ overflow entries, b.overflowScore p role x = .ok overflow ∧
        aggregates.mapM (fun a => (a.factor role).value p.domains x) = .ok entries ∧
        p.score role x = .ok (overflow + entries.sum) := by
  obtain ⟨d, b, hd, hb, hseparates, hshares⟩ := Buckets.exists_decomposed hp.inRange width
  have hfits : ∀ scope ∈ d.components, p.Allocates scope := fun scope hscope =>
    Problem.allocates_of_capacity_lt (hsmall d hd scope hscope)
  have hscopes : ∀ role, ((mergedFrom p b x 0 d.components).map fun a => (a.factor role).scope) =
      d.components := by
    intro role
    rw [mergedFrom, List.map_map]
    simp [Function.comp_def, factor_merged, Problem.merged]
  refine ⟨d, b, mergedFrom p b x 0 d.components, hd, hb, ?_, hscopes .constraint,
    hscopes .objective, fun a ha => exists_address hseparates hfits hx ha,
    fun role => ?_⟩
  · exact (ofDecomposition_eq_ok_iff hp.tabulated hseparates hshares hx _).2 ⟨hfits, rfl⟩
  · refine ⟨_, _, Problem.partialScore_eq_ok hp.tabulated hx (hshares.overflow_lt role),
      mapM_value_mergedFrom hp.tabulated hseparates hshares hfits hx role, ?_⟩
    -- the score separates, and the sum over components is that of the entries
    rw [Problem.score_eq_ok hp hx, Problem.total_eq_overflow_add hshares]
    rfl

/-- Scores from aggregates for three variables the first of which is the cut, with a factor in the
overflow. -/
theorem exists_star_score :
    let p : Problem (Exact ℤ) :=
      { domains := #[2, 3, 2]
        constraint := ⟨#[⟨[0, 1], #[.number 0, .number 1, .number 2, .number 3, .number 4,
          .number 5]⟩, ⟨[0], #[.number 7, .number 10]⟩, ⟨[2, 0], #[.number 0, .number 20, .number 40,
          .number 60]⟩]⟩
        objective := ⟨#[⟨[2], #[.number 5, .number 7]⟩]⟩ }
    let x : Assignment := #[1, 2, 0]
    p.Valid ∧ x.Inside p.domains ∧ ∃ d b aggregates, Decomposition.ofProblem p 1 = .ok d ∧
      Buckets.ofProblem p d = .ok b ∧ ofDecomposition p d b x = .ok aggregates ∧
      ∃ overflow entries, b.overflowScore p .constraint x = .ok overflow ∧
        aggregates.mapM (fun a => a.cost.value p.domains x) = .ok entries ∧
        overflow + entries.sum = .number 55 := by
  intro p x
  have hp : p.Valid := by decide
  have hx : x.Inside p.domains := Assignment.inside_iff.2 (by decide)
  have hsmall : ((Decomposition.ofProblem p 1).toOption.all fun d =>
      d.components.all fun scope => decide (scope.capacity p.domains < 2 ^ 58)) = true := by
    decide +kernel
  obtain ⟨d, b, aggregates, hd, hb, haggregates, -, -, -, hscore⟩ :=
    exists_score_eq_overflow_add hp (fun d hd => by simpa using of_all_toOption hsmall hd) hx
  obtain ⟨overflow, entries, hoverflow, hentries, htotal⟩ := hscore .constraint
  have hvalue : p.score .constraint x = .ok (.number 55) := by decide +kernel
  rw [hvalue, Except.ok.injEq] at htotal
  exact ⟨hp, hx, d, b, aggregates, hd, hb, haggregates, overflow, entries, hoverflow, hentries,
    htotal.symm⟩

end PairedMarkov.Aggregate
