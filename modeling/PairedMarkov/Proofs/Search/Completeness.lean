import PairedMarkov.Proofs.Search.Soundness

/-!
# Completeness of the iterations

Whatever the cut has become, an iteration does not miss an assignment under the threshold that
agrees with it: the knapsack finds nothing exactly if there is none. Then the components are filled
such that the constraint score is as small as the cut allows, so that later moves start from there.

Main statement: `Search.iterate_complete`, for every state in which an iteration can begin.
-/

namespace PairedMarkov.Search

variable {τ σ R : Type} [Random.Source σ] [Ring R] [LinearOrder R] [IsStrictOrderedRing R]
  {p : Problem (Exact R)}
  {around : Surroundings (StateM τ) (Exact R)} {parameters : Parameters (Exact R)} {width : Nat}
  {d : Decomposition} {b : Buckets} {aggregates : List (Aggregate (Exact R))}
  {s : State (Exact R) σ}

/-! ## Section 1: Complete fillings -/

theorem Iterating.sound (hp : p.Valid) (hn : p.Numeric)
    (h : Iterating around (setupOf p parameters) width d b aggregates s) :
    Opened p width d b aggregates ∧ s.Holds p (Explanation.Sound p parameters.threshold) :=
  h.holds hp (leads_sound hp hn parameters) rfl

/-- An assignment inside its domains that agrees with another one on a cut. -/
structure Agrees (domains : Domains) (cut : List Nat) (x z : Assignment) : Prop where
  inside : z.Inside domains
  valueAt : ∀ v ∈ cut, z.valueAt v = x.valueAt v

/-- A filling is complete for the cut of an assignment: its choice is infeasible exactly if no
assignment that agrees on the cut is under the threshold, and then it has the least constraint score
of these; if it is feasible, it is under the threshold. -/
structure Complete (p : Problem (Exact R)) (threshold : Exact R) (cut : List Nat) (x : Assignment)
    (f : Filling (Exact R) σ) : Prop where
  agrees : Agrees p.domains cut x f.assignment
  infeasible_iff : f.solution.isFeasible = false ↔
    ¬ ∃ z, Agrees p.domains cut x z ∧ p.Under threshold z
  least : f.solution.isFeasible = false →
    ∃ score, p.score .constraint f.assignment = .ok score ∧
      ∀ z, Agrees p.domains cut x z → ∃ score', p.score .constraint z = .ok score' ∧ score ≤ score'
  under : f.solution.isFeasible = true → p.Under threshold f.assignment

omit [Random.Source σ] [IsStrictOrderedRing R] in
/-- What a filling promises makes it complete. -/
theorem Filled.complete (hp : p.Valid) {threshold : Exact R} {x : Assignment}
    {f : Filling (Exact R) σ} (h : Filled p threshold d x f) : Complete p threshold d.cut x f where
  agrees := ⟨h.inside, h.agrees⟩
  infeasible_iff := by
    constructor
    · -- the filled assignment has the least score, and even that is above the threshold
      rintro hno ⟨z, hz, hunder⟩
      obtain ⟨habove, hleast⟩ := h.infeasible hno
      have hle := (hleast z hz.inside hz.valueAt).trans ((Problem.under_iff hp hz.inside).1 hunder)
      exact absurd habove (not_lt_of_ge hle)
    · intro hnone
      by_contra hyes
      rw [Bool.not_eq_false] at hyes
      exact hnone ⟨f.assignment, ⟨h.inside, h.agrees⟩,
        (Problem.under_iff hp h.inside).2 (h.feasible hyes).1⟩
  least hno := by
    refine ⟨_, Problem.score_eq_ok hp h.inside, fun z hz => ?_⟩
    exact ⟨_, Problem.score_eq_ok hp hz.inside, (h.infeasible hno).2 z hz.inside hz.valueAt⟩
  under hyes := (Problem.under_iff hp h.inside).2 (h.feasible hyes).1

/-! ## Section 2: Completeness -/

/-- **Completeness of the iterations**: at a width whose tables fit into memory, every iteration from
a state that searching can come to ends, and its filling is complete for the cut that the iteration
has changed. -/
theorem iterate_complete (hp : p.Valid) (hn : p.Numeric) {t : Setup (Exact R)}
    (ht : Setup.ofProblem p parameters = .ok t) (hd : Decomposition.ofProblem p width = .ok d)
    (hsmall : ∀ scope ∈ d.components, scope.capacity p.domains < tableLimit) :
    ∃ b, Buckets.ofProblem p d = .ok b ∧
      (∀ (s : State (Exact R) σ) (w : τ), Reached around t s → ∃ aggregates s' w',
        (openWidth around t width).runOn s w = ((.ok (d, b, aggregates), s'), w')) ∧
      ∀ aggregates (s : State (Exact R) σ), Iterating around t width d b aggregates s → ∀ w,
        ∃ change x source f s' w',
          t.terrain.changeCut d.cut s.assignment s.source = .ok (change, x, source) ∧
          fill p parameters.threshold parameters.effort d b aggregates x source = .ok f ∧
          (iterate around t width d b aggregates).runOn s w = ((.ok f.aggregates, s'), w') ∧
          s'.assignment = f.assignment ∧ Complete p parameters.threshold d.cut x f := by
  rw [Setup.ofProblem_eq_ok hp, Except.ok.injEq] at ht
  subst ht
  have hfits : ¬ TooLarge p width := not_tooLarge fun d' hd' => by
    obtain rfl := Except.ok.inj (hd.symm.trans hd')
    exact hsmall
  have hseparates := Decomposition.separates_of_ofProblem hp.inRange hd
  obtain ⟨b, hb⟩ := Buckets.exists_ofProblem hseparates hp.inRange
  refine ⟨b, hb, fun s w hs => ?_, fun aggregates s hs w => ?_⟩
  · obtain ⟨b', aggregates, s', w', hb', hrun⟩ :=
      exists_openWidth around hp hd hfits (hs.sound hp hn) w
    rw [hb, Except.ok.injEq] at hb'
    exact ⟨aggregates, s', w', hb' ▸ hrun⟩
  · obtain ⟨hopened, hsound⟩ := hs.sound hp hn
    -- an iteration keeps its promise in every sound state, and never stops
    have hensures : (iterate around (setupOf p parameters) width d b aggregates).Ensures s _
        fun _ _ => False := ensures_iterate_sound hp hn hfits hopened hsound
    obtain ⟨aggregates', s', w', hrun, -, -, ⟨change, x, source⟩, f, rfl, hiterated, -, hfilled⟩ :=
      hensures.exists_run w
    exact ⟨change, x, source, f, s', w', hiterated.changeCut, hiterated.fill, hrun,
      hiterated.assignment, hfilled.complete hp⟩

/-- The iterations are complete for a chain of variables with two and three values, beginning with the
first one at width one. -/
theorem iterate_chain_complete :
    let p : Problem (Exact ℤ) :=
      { domains := #[2, 3, 2]
        constraint := ⟨#[⟨[0, 1], #[.number 0, .number 1, .number 2, .number 3, .number 4,
          .number 5]⟩]⟩
        objective := ⟨#[⟨[2], #[.number 5, .number 7]⟩]⟩ }
    let parameters : Parameters (Exact ℤ) := { threshold := .number 3 }
    let t := setupOf p parameters
    let s : State (Exact ℤ) Random.Progression := State.start p.domains ⟨3, 5⟩
    let journal : Journal (Exact ℤ) := { clock := fun _ => 0 }
    ∃ d b aggregates s' journal', Decomposition.ofProblem p 1 = .ok d ∧
      (openWidth Journal.surroundings t 1).runOn s journal = ((.ok (d, b, aggregates), s'), journal') ∧
      ∃ change x source f, t.terrain.changeCut d.cut s'.assignment s'.source =
          .ok (change, x, source) ∧
        fill p parameters.threshold parameters.effort d b aggregates x source = .ok f ∧
        Complete p parameters.threshold d.cut x f := by
  intro p parameters t s journal
  have hp : p.Valid := by decide
  have hn : p.Numeric := by decide
  have hsmall : (Decomposition.ofProblem p 1).toOption.all fun d =>
      d.components.all fun scope => scope.capacity p.domains < tableLimit := by decide +kernel
  obtain ⟨d, hd⟩ := Decomposition.exists_ofProblem hp.inRange 1
  simp only [hd, Except.toOption, Option.all_some, List.all_eq_true, decide_eq_true_eq] at hsmall
  obtain ⟨b, -, hopen, hiterate⟩ : ∃ b, _ ∧ (∀ (s : State (Exact ℤ) Random.Progression) w,
      Reached Journal.surroundings t s → _) ∧ _ :=
    iterate_complete hp hn (Setup.ofProblem_eq_ok hp parameters) hd hsmall
  obtain ⟨aggregates, s', journal', hrun⟩ := hopen s journal (.start _)
  obtain ⟨change, x, source, f, -, -, hchange, hfill, -, -, hcomplete⟩ :=
    hiterate aggregates s' (.opened (.start _) hrun) journal'
  exact ⟨d, b, aggregates, s', journal', hd, hrun, change, x, source, f, hchange, hfill, hcomplete⟩

end PairedMarkov.Search
