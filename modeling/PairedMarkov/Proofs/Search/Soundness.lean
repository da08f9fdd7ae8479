import PairedMarkov.Proofs.Search.Invariants
import PairedMarkov.Search.Journal

/-!
# Soundness of the search

The best assignment so far is never scored again: its objective score comes from exchanging what the
factors of one variable contribute, or from the profits of the chosen items. Over exact weights both
are right as long as every aggregate belongs to some assignment, and then a refresh makes it that of
the current one. So a sound best assignment is kept by every iteration, and wherever a search stops.

Main statements:
- `Search.iterated_filled`: an iteration fills the components as promised;
- `Search.leads_sound`: iterations keep the best assignment sound;
- `Search.search_sound`: the answer of a search is an assignment under the threshold with its own
  objective score, or that none is known.
-/

namespace PairedMarkov.Search

variable {τ σ R : Type} [Random.Source σ] [Ring R] [LinearOrder R]

/-! ## Section 1: Sound explanations -/

/-- The best assignment so far lies under the threshold and has the objective score that is kept
with it; without an assignment the score is the lowest weight. -/
def Explanation.Sound (p : Problem (Exact R)) (threshold : Exact R) (e : Explanation (Exact R)) :
    Prop :=
  match e.assignment with
  | .none => e.objective = Weight.lowest
  | .some x => x.Inside p.domains ∧ p.total .constraint x ≤ threshold ∧
      p.total .objective x = e.objective

variable {p : Problem (Exact R)} {threshold : Exact R} {s s' : State (Exact R) σ}

/-- An offer with the right score keeps the best assignment sound. -/
theorem Explanation.Sound.updatesWith {best best' : Explanation (Exact R)} {x : Assignment}
    {objective? : Option (Exact R)} (h : best.Sound p threshold)
    (hupdate : UpdatesWith x objective? best best') (hx : x.Inside p.domains)
    (hreaches : ∀ objective, objective? = some objective →
      p.total .constraint x ≤ threshold ∧ objective = p.total .objective x) :
    best'.Sound p threshold := by
  cases objective? with
  | none => exact (show best' = best from hupdate) ▸ h
  | some objective =>
    cases hupdate with
    | kept _ => exact h
    | replaced _ foundAt width =>
      obtain ⟨hconstraint, hobjective⟩ := hreaches objective rfl
      exact ⟨hx, hconstraint, hobjective.symm⟩

/-! ## Section 2: Iterations -/

variable [IsStrictOrderedRing R] {around : Surroundings (StateM τ) (Exact R)}
  {parameters : Parameters (Exact R)} {width : Nat} {d : Decomposition} {b : Buckets}
  {aggregates : List (Aggregate (Exact R))} {result : CutChange (Exact R) × Assignment × σ}
  {f : Filling (Exact R) σ}

/-- An iteration fills the components as promised. -/
theorem iterated_filled (hp : p.Valid) (hn : p.Numeric) (hopened : Opened p width d b aggregates)
    (hchanged : Changed p parameters.threshold d.cut s.assignment result)
    (hiterated : Iterated (setupOf p parameters) d b aggregates s result f s') :
    Filled p parameters.threshold d result.2.1 f := by
  obtain ⟨-, hd, hb, hfits, y, hy, rfl⟩ := hopened
  exact filled_of_fill hp.tabulated hn hd hb hchanged.differs.inside hfits hy hiterated.fill

/-- **Iterations** keep the best assignment sound. -/
theorem leads_sound (hp : p.Valid) (hn : p.Numeric) (parameters : Parameters (Exact R))
    (width : Nat) : Leads p parameters σ width (Explanation.Sound p parameters.threshold)
      (Explanation.Sound p parameters.threshold) := by
  have hcut : ∀ {d b aggregates} {s : State (Exact R) σ}
      {result : CutChange (Exact R) × Assignment × σ} {best}, Opened p width d b aggregates →
      s.Holds p (Explanation.Sound p parameters.threshold) →
      Changed p parameters.threshold d.cut s.assignment result →
      UpdatesWith result.2.1 (result.1.reaches? parameters.threshold) s.best best →
      best.Sound p parameters.threshold := fun hopened hs hchanged hoffer =>
    hs.best.updatesWith hoffer hchanged.differs.inside fun _ hreaches =>
      hchanged.reaches hn hreaches
  refine ⟨hcut, fun {d b aggregates s s' result f} hopened hs hchanged hiterated => ?_⟩
  have hfilled := iterated_filled hp hn hopened hchanged hiterated
  -- two offers are made, one after the cut has changed and one after the components are filled
  obtain ⟨best, hfirst, hsecond⟩ := hiterated.best
  refine (hcut hopened hs hchanged hfirst).updatesWith hsecond hfilled.inside
    fun objective hreaches => ?_
  unfold Filling.reaches? at hreaches
  split at hreaches
  · rename_i hfeasible
    rw [← Option.some.inj hreaches]
    exact hfilled.feasible hfeasible
  · cases hreaches

/-- One iteration at a width at which everything fits into memory never fails, keeps the best
assignment sound, changes the cut as promised and fills the components as promised. -/
theorem ensures_iterate_sound (hp : p.Valid) (hn : p.Numeric) (hsmall : ¬ TooLarge p width)
    (hopened : Opened p width d b aggregates)
    (hs : s.Holds p (Explanation.Sound p parameters.threshold))
    {stop : Stop FileError → State (Exact R) σ → Prop} :
    (iterate around (setupOf p parameters) width d b aggregates :
      Run (StateM τ) (Exact R) σ (List (Aggregate (Exact R)))).Ensures s
      (fun aggregates' s' => Opened p width d b aggregates' ∧
        s'.Holds p (Explanation.Sound p parameters.threshold) ∧
        ∃ result f, aggregates' = f.aggregates ∧
          Iterated (setupOf p parameters) d b aggregates s result f s' ∧
          Changed p parameters.threshold d.cut s.assignment result ∧
          Filled p parameters.threshold d result.2.1 f) stop := by
  refine (ensures_iterate_inside hp hopened hs.inside).mono ?_
    fun _ _ h => absurd h.1.1 hsmall
  rintro aggregates' s' ⟨hopened', hinside, result, f, haggregates, hiterated, hchanged⟩
  have hbest := (leads_sound hp hn parameters width).iterated hopened hs hchanged hiterated
  exact ⟨hopened', ⟨hinside, hbest⟩, result, f, haggregates, hiterated, hchanged,
    iterated_filled hp hn hopened hchanged hiterated⟩

/-! ## Section 3: Searches -/

/-- A search keeps the best assignment sound, and answers with it. -/
theorem ensures_search_sound (hp : p.Valid) (hn : p.Numeric)
    (hs : s.Holds p (Explanation.Sound p parameters.threshold)) :
    (search around (setupOf p parameters) :
      Run (StateM τ) (Exact R) σ (Explanation (Exact R))).Ensures s
      (fun e s' => e.Sound p parameters.threshold ∧
        s'.Holds p (Explanation.Sound p parameters.threshold))
      (fun _ s' => s'.Holds p (Explanation.Sound p parameters.threshold)) :=
  (ensures_search hp (leads_sound hp hn parameters) hs).mono (fun _ _ h => h) fun _ _ h => h.2

theorem Reached.sound (hp : p.Valid) (hn : p.Numeric) (h : Reached around (setupOf p parameters) s) :
    s.Holds p (Explanation.Sound p parameters.threshold) :=
  h.holds hp (leads_sound hp hn parameters) rfl

/-- **Soundness of the search**: if a search from any state that searching can come to answers with
an assignment, then the assignment has values inside all domains, can be set again, lies under the
threshold, and has the objective score of the answer; without an assignment the answer has the
lowest weight. So the answer is never above a bound on the objective scores under the threshold. -/
theorem search_sound (hp : p.Valid) (hn : p.Numeric) {t : Setup (Exact R)}
    (ht : Setup.ofProblem p parameters = .ok t) (hs : Reached around t s) {w w' : τ}
    {e : Explanation (Exact R)} (hrun : (search around t).runOn s w = ((.ok e, s'), w')) :
    (∀ x, e.assignment = some x →
      x.Inside p.domains ∧ Assignment.ofValues p.domains x.toList = .ok x ∧
        (∃ score, p.score .constraint x = .ok score ∧ score ≤ parameters.threshold) ∧
        p.score .objective x = .ok e.objective) ∧
      (e.assignment = none → e.objective = Weight.lowest) ∧
      ∀ bound, (∀ z, z.Inside p.domains →
        (∃ score, p.score .constraint z = .ok score ∧ score ≤ parameters.threshold) →
        ∃ score, p.score .objective z = .ok score ∧ score ≤ bound) → e.objective ≤ bound := by
  rw [Setup.ofProblem_eq_ok hp, Except.ok.injEq] at ht
  subst ht
  obtain ⟨he, -⟩ := (ensures_search_sound hp hn (hs.sound hp hn)).of_run_eq hrun
  unfold Explanation.Sound at he
  cases hx : e.assignment with
  | none =>
    rw [hx] at he
    -- the lowest weight is below every bound
    refine ⟨fun x h => absurd h (by simp), fun _ => he, fun bound _ => ?_⟩
    rw [show e.objective = Exact.below from he]
    exact Exact.below_le bound
  | some x =>
    rw [hx] at he
    obtain ⟨hinside, hconstraint, hobjective⟩ := he
    have hunder : ∃ score, p.score .constraint x = .ok score ∧ score ≤ parameters.threshold :=
      ⟨_, Problem.score_eq_ok hp hinside, hconstraint⟩
    have hscore : p.score .objective x = .ok e.objective := by
      rw [Problem.score_eq_ok hp hinside, hobjective]
    refine ⟨?_, fun h => absurd h (by simp), fun bound hbound => ?_⟩
    · rintro _ ⟨rfl⟩
      exact ⟨hinside, Assignment.ofValues_toList hinside, hunder, hscore⟩
    · obtain ⟨score, hok, hle⟩ := hbound x hinside hunder
      rw [hscore, Except.ok.injEq] at hok
      exact hok ▸ hle

/-- A chain of three variables, the middle one of which is the cut: the search finds the best of the
two values that it can have under the threshold. -/
theorem search_chain_sound :
    let p : Problem (Exact ℤ) :=
      { domains := #[1, 3, 1]
        constraint := ⟨#[⟨[0, 1], #[.number 0, .number 1, .number 2]⟩]⟩
        objective := ⟨#[⟨[1, 2], #[.number 5, .number 9, .number 7]⟩]⟩ }
    let parameters : Parameters (Exact ℤ) :=
      { maxWidth := 1, threshold := .number 1, maxIterations := some 2, effort := ⟨1, 1⟩ }
    let journal : Journal (Exact ℤ) := { clock := fun _ => 0 }
    let source : Random.Progression := ⟨3, 5⟩
    p.Valid ∧ p.Numeric ∧ ∃ e s' journal',
      (search Journal.surroundings (setupOf p parameters)).runOn (State.start p.domains source)
        journal = ((.ok e, s'), journal') ∧
      e.assignment = some #[0, 1, 0] ∧ e.objective = .number 9 ∧
      p.score .objective #[0, 1, 0] = .ok (.number 9) := by
  intro p parameters journal source
  have hp : p.Valid := by decide
  have hn : p.Numeric := by decide
  have hanswer : (((search Journal.surroundings (setupOf p parameters)).runOn
      (State.start p.domains source) journal).1.1.toOption.map fun e =>
        (e.assignment, e.objective)) = some (some #[0, 1, 0], .number 9) := by decide +kernel
  rcases hrun : (search Journal.surroundings (setupOf p parameters)).runOn
    (State.start p.domains source) journal with ⟨⟨result, s'⟩, journal'⟩
  rw [hrun] at hanswer
  cases result with
  | error e => simp [Except.toOption] at hanswer
  | ok e =>
    obtain ⟨hassignment, hobjective⟩ : e.assignment = some #[0, 1, 0] ∧ e.objective = .number 9 := by
      simpa [Except.toOption] using hanswer
    obtain ⟨hsound, -⟩ := search_sound hp hn (Setup.ofProblem_eq_ok hp parameters)
      (.start source) hrun
    exact ⟨hp, hn, e, s', journal', rfl, hassignment, hobjective,
      hobjective ▸ (hsound _ hassignment).2.2.2⟩

end PairedMarkov.Search
