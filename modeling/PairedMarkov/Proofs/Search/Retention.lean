import PairedMarkov.Proofs.Search.Completeness
import PairedMarkov.Proofs.Search.Exactness
import PairedMarkov.Proofs.Search.Points

/-!
# Assignments that a search keeps

An iteration scores the current assignment before it changes the cut, and what it changes may be
lost: an escape gives variables other values, and the knapsack need not find the old ones again. So
it matters whether the assignment was offered when it arose. It was if the iteration follows another
one at its width, since the components have just been filled; and if the cut makes a move from it, then
what the move leads to is offered and is better. Random values that begin a width are offered to
nobody: an escape from them gives them away.

Main statement: `Search.search_retains`, what a search does not give away.
-/

namespace PairedMarkov.Search

variable {τ σ : Type} [Random.Source σ]

/-! ## Section 1: What is offered -/

variable {R : Type} [Ring R] [LinearOrder R] [IsStrictOrderedRing R] {p : Problem (Exact R)}
  {around : Surroundings (StateM τ) (Exact R)} {parameters : Parameters (Exact R)} {width : ℕ}
  {d : Decomposition} {b : Buckets} {aggregates : List (Aggregate (Exact R))}
  {s s' : State (Exact R) σ} {result : CutChange (Exact R) × Assignment × σ}
  {f : Filling (Exact R) σ}

omit [Random.Source σ] [IsStrictOrderedRing R] in
/-- From an assignment under the threshold, a move stays there and raises the objective score. -/
theorem Changed.lt_of_moved {threshold : Exact R} {cut : List ℕ} {x : Assignment}
    (h : Changed p threshold cut x result) (hunder : p.total .constraint x ≤ threshold)
    {move : CutMove (Exact R)} (hmoved : result.1 = .moved move) :
    move.scores.constraint ≤ threshold ∧ p.total .objective x < move.scores.objective := by
  -- the best move so far has this property, and the preferred one is better still
  refine List.foldlRecOn (otherValues p x cut) ((terrainOf p threshold).better x)
    (motive := fun best => ∀ move, best = some move →
      move.scores.constraint ≤ threshold ∧ p.total .objective x < move.scores.objective)
    (by simp) ?_ move (h.moved move hmoved).1
  intro best hbest target _ move hmove
  unfold Terrain.better at hmove
  split at hmove
  · rename_i hprefers
    obtain rfl := Option.some.inj hmove
    have hcurrent : (scoresOf (terrainOf p threshold).problem x).constraint ≤
      (terrainOf p threshold).threshold := hunder
    rw [Terrain.prefers, if_pos hcurrent, Bool.and_eq_true, decide_eq_true_eq, decide_eq_true_eq]
      at hprefers
    refine ⟨hprefers.1, ?_⟩
    cases best with
    | none => exact hprefers.2
    | some other => exact (hbest other rfl).2.trans hprefers.2
  · exact hbest move hmove

/-- The assignment that an iteration leaves has been offered if it is under the threshold. -/
theorem Iterated.le_best (hp : p.Valid) (hn : p.Numeric) (hopened : Opened p width d b aggregates)
    (hchanged : Changed p parameters.threshold d.cut s.assignment result)
    (h : Iterated (setupOf p parameters) d b aggregates s result f s')
    (hunder : p.total .constraint s'.assignment ≤ parameters.threshold) :
    p.total .objective s'.assignment ≤ s'.best.objective := by
  have hfilled := iterated_filled hp hn hopened hchanged h
  obtain ⟨best, -, hsecond⟩ := h.best
  rw [h.assignment] at hunder ⊢
  cases hfeasible : f.solution.isFeasible with
  | true =>
    rw [← (hfilled.feasible hfeasible).2]
    exact hsecond.le.2 f.objective (if_pos hfeasible)
  | false => exact absurd hunder (not_le_of_gt (hfilled.infeasible hfeasible).1)

omit [IsStrictOrderedRing R] in
theorem Iterated.best_le (h : Iterated (setupOf p parameters) d b aggregates s result f s') :
    s.best.objective ≤ s'.best.objective := by
  obtain ⟨best, hfirst, hsecond⟩ := h.best
  exact hfirst.le.1.trans hsecond.le.1

omit [IsStrictOrderedRing R] in
/-- From an assignment under the threshold, what a move leads to is offered and is better. -/
theorem Iterated.le_best_of_moved
    (hchanged : Changed p parameters.threshold d.cut s.assignment result)
    (h : Iterated (setupOf p parameters) d b aggregates s result f s')
    (hunder : p.total .constraint s.assignment ≤ parameters.threshold) {move : CutMove (Exact R)}
    (hmoved : result.1 = .moved move) : p.total .objective s.assignment ≤ s'.best.objective := by
  obtain ⟨hstays, hraises⟩ := hchanged.lt_of_moved hunder hmoved
  have hreaches : result.1.reaches? parameters.threshold = some move.scores.objective := by
    rw [hmoved, CutChange.reaches?, if_pos hstays]
  obtain ⟨best, hfirst, hsecond⟩ := h.best
  exact hraises.le.trans ((hfirst.le.2 _ hreaches).trans hsecond.le.1)

/-- If nothing is cut, the components can be filled at least as the assignment fills them. -/
theorem Iterated.isFeasible_of_uncut (hp : p.Valid) (hn : p.Numeric)
    (hopened : Opened p width d b aggregates) (hx : s.assignment.Inside p.domains)
    (hchanged : Changed p parameters.threshold d.cut s.assignment result)
    (h : Iterated (setupOf p parameters) d b aggregates s result f s')
    (hunder : p.total .constraint s.assignment ≤ parameters.threshold) (hcut : d.cut = []) :
    f.solution.isFeasible = true := by
  have hfilled := iterated_filled hp hn hopened hchanged h
  by_contra hinfeasible
  obtain ⟨habove, hleast⟩ := hfilled.infeasible (Bool.eq_false_iff.2 hinfeasible)
  -- the assignment agrees with the filled one on the empty cut
  exact absurd ((hleast _ hx (by simp [hcut])).trans hunder) (not_le_of_gt habove)

/-! ## Section 2: What is kept -/

/-- The best assignment is sound and has at least an objective score. -/
structure Explanation.AtLeast (p : Problem (Exact R)) (threshold score : Exact R)
    (e : Explanation (Exact R)) : Prop where
  sound : e.Sound p threshold
  le : score ≤ e.objective

omit [IsStrictOrderedRing R] in
/-- Without an assignment no number is reached. -/
theorem Explanation.AtLeast.ne_none {threshold score : Exact R} {e : Explanation (Exact R)}
    (h : e.AtLeast p threshold score) (hscore : score.IsNumber) : e.assignment ≠ .none := by
  intro hnone
  have hlowest : e.objective = Exact.below := by
    have hsound := h.sound
    unfold Explanation.Sound at hsound
    rwa [hnone] at hsound
  exact absurd (hlowest ▸ h.le) (not_le_of_gt hscore.below_lt)

theorem leads_atLeast (hp : p.Valid) (hn : p.Numeric) (parameters : Parameters (Exact R))
    (score : Exact R) (width : ℕ) :
    Leads p parameters σ width (Explanation.AtLeast p parameters.threshold score)
      (Explanation.AtLeast p parameters.threshold score) := by
  have hsound := leads_sound (σ := σ) hp hn parameters width
  constructor
  · intro d b aggregates s result best hopened hs hchanged hoffer
    exact ⟨hsound.changed hopened ⟨hs.inside, hs.best.sound⟩ hchanged hoffer,
      hs.best.le.trans hoffer.le.1⟩
  · intro d b aggregates s s' result f hopened hs hchanged hiterated
    exact ⟨hsound.iterated hopened ⟨hs.inside, hs.best.sound⟩ hchanged hiterated,
      hs.best.le.trans hiterated.best_le⟩

/-- A round leaves an assignment that has been offered if it is under the threshold. -/
theorem ensures_round_offered (hp : p.Valid) (hn : p.Numeric)
    (hopened : Opened p width d b aggregates) (hs : s.assignment.Inside p.domains) :
    (round around (setupOf p parameters) width d b aggregates :
      Run (StateM τ) (Exact R) σ (List (Aggregate (Exact R)))).Ensures s
      (fun _ s' => p.total .constraint s'.assignment ≤ parameters.threshold →
        p.total .objective s'.assignment ≤ s'.best.objective) fun _ _ => True := by
  refine Run.ensures_bind ((ensures_iterate_inside hp hopened hs).mono ?_ fun _ _ _ => trivial)
  rintro _ s' ⟨-, -, result, f, -, hiterated, hchanged⟩
  have hoffered := hiterated.le_best hp hn hopened hchanged
  exact Run.ensures_bind
    (ensures_report (fun _ => Run.ensures_pure hoffered) fun _ _ => trivial)

/-- **What a search keeps**: let a search come to an iteration that scores the current assignment at
or below the threshold. If the iteration follows another one at its width, or if the cut makes a move,
then at the end of the iteration the best objective score is at least that of the assignment, and so is
the answer of the search, which has an assignment. If nothing is cut, the answer has an assignment in
any case. -/
theorem search_retains (hp : p.Valid) (hn : p.Numeric) {t : Setup (Exact R)}
    (ht : Setup.ofProblem p parameters = .ok t) (hs : Reached around t s) {w : τ} {after : List ℕ}
    {begun : Duration} {n : ℕ} {here : Point τ (Exact R) σ}
    (hcomes : ComesTo around t width d b begun s w after n here) {current : Scores (Exact R)}
    (hscores : t.terrain.scores here.state.assignment = .ok current)
    (hunder : current.constraint ≤ parameters.threshold) {w' : τ}
    (hiterate : (iterate around t width d b here.aggregates).runOn here.state here.world =
      ((.ok aggregates, s'), w')) :
    (0 < n ∨ (∃ move x source, t.terrain.changeCut d.cut here.state.assignment here.state.source =
        .ok (.moved move, x, source)) →
      current.objective ≤ s'.best.objective ∧
        ∀ e s'' w'', (search around t).runOn s w = ((.ok e, s''), w'') →
          e.assignment ≠ .none ∧ current.objective ≤ e.objective) ∧
    (d.cut = [] → ∀ e s'' w'', (search around t).runOn s w = ((.ok e, s''), w'') →
      e.assignment ≠ .none) := by
  rw [Setup.ofProblem_eq_ok hp, Except.ok.injEq] at ht
  subst ht
  obtain ⟨hiterating, hagain⟩ := hcomes.iterating hs
  obtain ⟨hopened, hhere⟩ := hiterating.sound hp hn
  have hx := hhere.inside
  obtain rfl : scoresOf p here.state.assignment = current :=
    Except.ok.inj ((Terrain.scores_eq_ok hp hx).symm.trans hscores)
  obtain ⟨hopened', hinside, result, f, rfl, hiterated, hchanged⟩ :=
    (ensures_iterate_inside hp hopened hx).of_run_eq hiterate
  have hsound := (leads_sound hp hn parameters width).iterated hopened hhere hchanged hiterated
  -- what is reached by the end of the iteration is in the answer
  have hanswer (score : Exact R) (hscore : score ≤ s'.best.objective) (e s'' w'')
      (hrun : (search around (setupOf p parameters)).runOn s w = ((.ok e, s''), w'')) :
      e.AtLeast p parameters.threshold score := by
    obtain ⟨remaining, hrest⟩ := runOn_search_of_comesTo hcomes hiterate
    rw [hrest] at hrun
    exact (ensures_afterIteration hp (leads_atLeast hp hn parameters score) hopened'
      ⟨hinside, hsound, hscore⟩ remaining (n + 1) after).of_run_eq hrun
  constructor
  · intro hoffered
    have hle : p.total .objective here.state.assignment ≤ s'.best.objective := by
      obtain hn' | ⟨move, x, source, hmove⟩ := hoffered
      · -- the round before has left the assignment, and has offered it
        obtain ⟨_, s₀, w₀, w₁, hbefore, hround⟩ := hagain hn'
        obtain ⟨hopened₀, hs₀⟩ := hbefore.sound hp hn
        have hkept := (ensures_round_offered hp hn hopened₀ hs₀.inside).of_run_eq hround hunder
        exact hkept.trans hiterated.best_le
      · have hmoved : result.1 = .moved move :=
          congrArg Prod.fst (Except.ok.inj (hiterated.changeCut.symm.trans hmove))
        exact hiterated.le_best_of_moved hchanged hunder hmoved
    refine ⟨hle, fun e s'' w'' hrun => ?_⟩
    have he := hanswer _ hle e s'' w'' hrun
    exact ⟨he.ne_none (hn.total ..), he.le⟩
  · intro hcut e s'' w'' hrun
    have hfilled := iterated_filled hp hn hopened hchanged hiterated
    have hfeasible :=
      hiterated.isFeasible_of_uncut hp hn hopened hx hchanged hunder hcut
    have hle := hiterated.le_best hp hn hopened hchanged
      (hiterated.assignment ▸ (hfilled.feasible hfeasible).1)
    exact (hanswer _ hle e s'' w'' hrun).ne_none (hn.total ..)

omit [Random.Source σ] in
private theorem exists_run_of_isSome {α W : Type} {x : Run (StateM τ) W σ α} {s : State W σ} {w : τ}
    (h : (x.runOn s w).1.1.toOption.isSome = true) : ∃ a s' w', x.runOn s w = ((.ok a, s'), w') := by
  rcases hrun : x.runOn s w with ⟨⟨result, s'⟩, w'⟩
  rw [hrun] at h
  cases result with
  | ok a => exact ⟨a, s', w', rfl⟩
  | error e => cases h

private theorem scores_eq_of_any {x : Except Fault (Scores (Exact ℤ))} {constraint objective : Exact ℤ}
    (h : (x.toOption.any fun current =>
      decide (current.constraint = constraint ∧ current.objective = objective)) = true) :
    x = .ok ⟨constraint, objective⟩ := by
  cases x with
  | ok current =>
    obtain ⟨rfl, rfl⟩ := of_decide_eq_true h
    rfl
  | error e => cases h

/-- The second iteration of a search whose first one has filled the components under the threshold. -/
theorem search_retains_filled :
    let p : Problem (Exact ℤ) :=
      { domains := #[2, 1]
        constraint := ⟨#[⟨[0, 1], #[.number 0, .number 5]⟩]⟩
        objective := ⟨#[⟨[0], #[.number 3, .number 1]⟩]⟩ }
    let t := setupOf p { maxWidth := 1, threshold := .number 1, maxIterations := some 2 }
    let around : Surroundings (StateM Unit) (Exact ℤ) :=
      ⟨pure 0, fun _ => pure (), fun _ => pure (.ok ()), fun _ => pure ()⟩
    let s : State (Exact ℤ) Random.Progression := State.start p.domains ⟨3, 5⟩
    p.Valid ∧ p.Numeric ∧ ∃ d b here aggregates s',
      ComesTo around t 1 d b 0 s () [] 1 here ∧
      t.terrain.scores here.state.assignment = .ok ⟨.number 0, .number 3⟩ ∧
      (iterate around t 1 d b here.aggregates).runOn here.state here.world =
        ((.ok aggregates, s'), ()) ∧ .number 3 ≤ s'.best.objective := by
  intro p t around s
  have hp : p.Valid := by decide
  have hn : p.Numeric := by decide
  have hruns : (match (openWidth around t 1).runOn (s.begin 0) () with
      | ((.ok (d, b, aggregates), s₁), _) =>
        match (round around t 1 d b aggregates).runOn s₁ () with
        | ((.ok aggregates, s₂), _) =>
          ((iterate around t 1 d b aggregates).runOn s₂ ()).1.1.toOption.isSome &&
            (t.terrain.scores s₂.assignment).toOption.any fun current =>
              current.constraint = .number 0 ∧ current.objective = .number 3
        | _ => false
      | _ => false) = true := by decide +kernel
  have htime (here : Point Unit (Exact ℤ) Random.Progression) : here.InTime around t 0 := by
    show 0 - 0 < Duration.ofSeconds 1200
    decide
  have hwidths : t.parameters.widths = .ok ([] ++ [1]) := by decide
  split at hruns
  · rename_i d b aggregates s₁ w₁ hopen
    split at hruns
    · rename_i aggregates' s₂ w₂ hround
      obtain ⟨hiterate, hscores⟩ := Bool.and_eq_true_iff.1 hruns
      obtain ⟨aggregates'', s', w', hiterate⟩ := exists_run_of_isSome hiterate
      have hcurrent := scores_eq_of_any hscores
      have hrounds : Rounds around t 1 d b 0 1 (Point.look around ⟨aggregates, s₁, w₁⟩)
          ⟨aggregates', s₂, w₂⟩ := .more (.none _) (htime _) hround
      have harrives : Arrives around t 1 d b 0 s () [] 1 ⟨aggregates', s₂, w₂⟩ := by
        refine .mk hwidths rfl ?_ rfl hrounds
        exact hopen
      have hcomes := ComesTo.mk harrives (by decide) (htime _)
      obtain ⟨hretained, -⟩ := search_retains hp hn (Setup.ofProblem_eq_ok hp _) (.start _) hcomes
        hcurrent (by decide) hiterate
      exact ⟨hp, hn, d, b, _, aggregates'', s', hcomes, hcurrent, hiterate,
        (hretained (.inl Nat.one_pos)).1⟩
    · cases hruns
  · cases hruns

/-- The values that begin a width are lost: the first one has the objective score three under the
threshold, an escape takes it away, and the search ends without an assignment. -/
theorem search_loses_random_values :
    let p : Problem (Exact ℤ) :=
      { domains := #[2, 1]
        constraint := ⟨#[⟨[0, 1], #[.number 0, .number 5]⟩]⟩
        objective := ⟨#[⟨[0], #[.number 3, .number 1]⟩]⟩ }
    let t := setupOf p { maxWidth := 1, threshold := .number 1, maxIterations := some 1 }
    let around : Surroundings (StateM Unit) (Exact ℤ) :=
      ⟨pure 0, fun _ => pure (), fun _ => pure (.ok ()), fun _ => pure ()⟩
    let s : State (Exact ℤ) Random.Progression := State.start p.domains ⟨0, 2305843009213693952⟩
    p.Valid ∧ p.Numeric ∧ ∃ d b here aggregates s',
      ComesTo around t 1 d b 0 s () [] 0 here ∧
      t.terrain.scores here.state.assignment = .ok ⟨.number 0, .number 3⟩ ∧
      (iterate around t 1 d b here.aggregates).runOn here.state here.world =
        ((.ok aggregates, s'), ()) ∧ ¬ .number 3 ≤ s'.best.objective ∧
      ∃ e s'', (search around t).runOn s () = ((.ok e, s''), ()) ∧ e.assignment = .none := by
  intro p t around s
  have hp : p.Valid := by decide
  have hn : p.Numeric := by decide
  have hruns : (match (openWidth around t 1).runOn (s.begin 0) () with
      | ((.ok (d, b, aggregates), s₁), _) =>
        ((iterate around t 1 d b aggregates).runOn s₁ ()).1.1.toOption.isSome &&
          (decide (¬ .number 3 ≤
              ((iterate around t 1 d b aggregates).runOn s₁ ()).1.2.best.objective) &&
            (t.terrain.scores s₁.assignment).toOption.any fun current =>
              current.constraint = .number 0 ∧ current.objective = .number 3)
      | _ => false) = true := by decide +kernel
  have hanswer : ((search around t).runOn s ()).1.1.toOption.isSome &&
      ((search around t).runOn s ()).1.1.toOption.all fun e => e.assignment.isNone := by
    decide +kernel
  have htime (here : Point Unit (Exact ℤ) Random.Progression) : here.InTime around t 0 := by
    show 0 - 0 < Duration.ofSeconds 1200
    decide
  have hwidths : t.parameters.widths = .ok ([] ++ [1]) := by decide
  split at hruns
  · rename_i d b aggregates s₁ w₁ hopen
    obtain ⟨hiterate, hrest⟩ := Bool.and_eq_true_iff.1 hruns
    obtain ⟨hbest, hscores⟩ := Bool.and_eq_true_iff.1 hrest
    obtain ⟨aggregates', s', w', hiterate⟩ := exists_run_of_isSome hiterate
    obtain ⟨hsome, hnone⟩ := Bool.and_eq_true_iff.1 hanswer
    obtain ⟨e, s'', w'', hsearch⟩ := exists_run_of_isSome hsome
    rw [hiterate] at hbest
    rw [hsearch] at hnone
    have harrives : Arrives around t 1 d b 0 s () [] 0 (Point.look around ⟨aggregates, s₁, w₁⟩) := by
      refine .mk hwidths rfl ?_ rfl (.none _)
      exact hopen
    have hcomes := ComesTo.mk harrives (by decide) (htime _)
    exact ⟨hp, hn, d, b, _, aggregates', s', hcomes, scores_eq_of_any hscores, hiterate,
      of_decide_eq_true hbest, e, s'', hsearch, Option.isNone_iff_eq_none.1 hnone⟩
  · cases hruns

end PairedMarkov.Search
