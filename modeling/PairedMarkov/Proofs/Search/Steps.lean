import PairedMarkov.Proofs.Search.Ensures

/-!
# The steps of a search

What each step of a search does to its state. The surroundings only matter for the times that are
kept; the assignment, the source and the best assignment so far are changed in ways that are known.

Main statements:
- `Search.ensures_offer`: an offered assignment replaces a worse one;
- `Search.ensures_iterate`: an iteration changes the cut and fills the components, and offers what
  either of the two has reached.
-/

namespace PairedMarkov.Search

variable {τ W σ : Type} {around : Surroundings (StateM τ) W} {t : Setup W} {s : State W σ}
  {width : Nat} {stop : Stop FileError → State W σ → Prop}

/-! ## Section 1: Looking around -/

theorem ensures_elapsed {post : Duration → State W σ → Prop} (h : ∀ time, post time s) :
    (elapsed around : Run (StateM τ) W σ Duration).Ensures s post stop :=
  Run.ensures_bind <| Run.ensures_act fun _ =>
    Run.ensures_bind (Run.ensures_get (Run.ensures_pure (h _)))

/-- The surroundings can answer a record with an error. -/
def Surroundings.Refuses (around : Surroundings (StateM τ) W) (e : FileError) : Prop :=
  ∃ (record : Progress W) (w : τ), ((around.record record).run w).1 = .error e

/-- A report changes no more than the time of the last record, and stops if the record is refused. -/
theorem ensures_report {post : Unit → State W σ → Prop}
    (hpost : ∀ lastRecord, post () { s with lastRecord })
    (hstop : ∀ e, around.Refuses e → stop (.error e) s) :
    (report around t width : Run (StateM τ) W σ Unit).Ensures s post stop := by
  apply Run.ensures_bind
  apply ensures_elapsed
  intro time
  apply Run.ensures_bind
  apply Run.ensures_get
  dsimp only
  split
  · apply Run.ensures_bind
    apply Run.ensures_answer
    intro w
    cases hanswer : ((around.record _).run w).1 with
    | ok _ => exact Run.ensures_set (hpost time)
    | error e => exact Run.ensures_throw (hstop e ⟨_, w, hanswer⟩)
  · exact Run.ensures_pure (hpost s.lastRecord)

/-! ## Section 2: Offers -/

variable [Weight W]

/-- How an offer changes the best assignment so far: not at all, or to the offered one, if that has
a larger objective score. -/
inductive Updates (x : Assignment) (objective : W) (best : Explanation W) : Explanation W → Prop
  | kept (h : ¬ best.objective < objective) : Updates x objective best best
  | replaced (h : best.objective < objective) (foundAt : Duration) (width : Nat) :
    Updates x objective best ⟨objective, some x, foundAt, width⟩

/-- How an offer that may not be made changes the best assignment so far. -/
def UpdatesWith (x : Assignment) (objective? : Option W) (best best' : Explanation W) : Prop :=
  match objective? with
  | none => best' = best
  | some objective => Updates x objective best best'

/-- **An offer** changes the best assignment so far, and not the current one. -/
theorem ensures_offer {post : Unit → State W σ → Prop} {objective : W}
    (hpost : ∀ s' : State W σ, s'.assignment = s.assignment → s'.source = s.source →
      s'.statistics.iterations = s.statistics.iterations →
      Updates s.assignment objective s.best s'.best → post () s') :
    (offer around width objective : Run (StateM τ) W σ Unit).Ensures s post stop := by
  apply Run.ensures_bind
  apply Run.ensures_get
  split
  · -- a better assignment is noted with its time and width
    rename_i hbetter
    apply Run.ensures_bind
    apply ensures_elapsed
    intro foundAt
    apply Run.ensures_bind
    apply Run.ensures_act
    intro _
    apply Run.ensures_bind
    apply Run.ensures_modify
    exact Run.ensures_count (hpost _ rfl rfl rfl (.replaced hbetter foundAt width))
  · rename_i hworse
    exact Run.ensures_pure (hpost s rfl rfl rfl (.kept hworse))

/-! ## Section 3: Iterations -/

variable [Random.Source σ] {d : Decomposition} {b : Buckets} {aggregates : List (Aggregate W)}
  {result : CutChange W × Assignment × σ} {f : Filling W σ}

/-- What a filling has reached, if its choice fits the budget. -/
def Filling.reaches? (f : Filling W σ) : Option W :=
  if f.solution.isFeasible then some f.objective else none

omit [Weight W] in
theorem Statistics.iterations_addChange (statistics : Statistics) (change : CutChange W) :
    (statistics.addChange change).iterations = statistics.iterations := by
  cases change <;> rfl

theorem ensures_iterateCut {post : Unit → State W σ → Prop}
    (hcut : t.terrain.changeCut d.cut s.assignment s.source = .ok result)
    (hpost : ∀ s' : State W σ, s'.assignment = result.2.1 → s'.source = result.2.2 →
      s'.statistics.iterations = s.statistics.iterations →
      UpdatesWith result.2.1 (result.1.reaches? t.terrain.threshold) s.best s'.best → post () s') :
    (iterateCut around t width d : Run (StateM τ) W σ Unit).Ensures s post stop := by
  apply Run.ensures_bind
  apply Run.ensures_get
  apply Run.ensures_bind
  apply Run.ensures_passed hcut
  obtain ⟨change, x, source⟩ := result
  apply Run.ensures_bind
  apply Run.ensures_set
  apply Run.ensures_bind
  apply Run.ensures_count
  have hcount := Statistics.iterations_addChange s.statistics change
  dsimp only at hpost ⊢
  cases hreaches : change.reaches? t.terrain.threshold with
  | none =>
    -- without a score under the threshold nothing is offered
    rw [hreaches] at hpost
    exact Run.ensures_pure (hpost _ rfl rfl hcount rfl)
  | some objective =>
    rw [hreaches] at hpost
    exact ensures_offer fun s' hx hsource hsame => hpost s' hx hsource (hsame.trans hcount)

/-- What filling does: the assignment and the source are those of the filling, no iteration is
counted, and the best score is updated with what the filling has reached. -/
theorem ensures_iterateFilling {post : List (Aggregate W) → State W σ → Prop}
    (hfill : fill t.problem t.terrain.threshold t.parameters.effort d b aggregates s.assignment
      s.source = .ok f)
    (hpost : ∀ s' : State W σ, s'.assignment = f.assignment → s'.source = f.source →
      s'.statistics.iterations = s.statistics.iterations →
      UpdatesWith f.assignment f.reaches? s.best s'.best → post f.aggregates s') :
    (iterateFilling around t width d b aggregates :
      Run (StateM τ) W σ (List (Aggregate W))).Ensures s post stop := by
  apply Run.ensures_bind
  apply Run.ensures_get
  apply Run.ensures_bind
  apply Run.ensures_passed hfill
  apply Run.ensures_bind
  apply Run.ensures_act
  intro _
  apply Run.ensures_bind
  apply Run.ensures_set
  rw [Filling.reaches?] at hpost
  split
  · rename_i hfeasible
    rw [if_pos hfeasible] at hpost
    exact Run.ensures_bind (ensures_offer fun s' hx hsource hsame hbest =>
      Run.ensures_pure (hpost s' hx hsource hsame hbest))
  · rename_i hinfeasible
    rw [if_neg hinfeasible] at hpost
    apply Run.ensures_bind
    apply Run.ensures_act
    intro _
    exact Run.ensures_bind (Run.ensures_count (Run.ensures_pure (hpost _ rfl rfl rfl rfl)))

/-- What an iteration does: it changes the cut, fills the components, and offers what either of the
two has reached. -/
structure Iterated (t : Setup W) (d : Decomposition) (b : Buckets) (aggregates : List (Aggregate W))
    (s : State W σ) (result : CutChange W × Assignment × σ) (f : Filling W σ) (s' : State W σ) :
    Prop where
  changeCut : t.terrain.changeCut d.cut s.assignment s.source = .ok result
  fill : fill t.problem t.terrain.threshold t.parameters.effort d b aggregates result.2.1
    result.2.2 = .ok f
  assignment : s'.assignment = f.assignment
  source : s'.source = f.source
  iterations : s'.statistics.iterations = s.statistics.iterations + 1
  /-- The change of the cut makes the first offer, the filling the second one. -/
  best : ∃ best, UpdatesWith result.2.1 (result.1.reaches? t.terrain.threshold) s.best best ∧
    UpdatesWith f.assignment f.reaches? best s'.best

/-- **An iteration** cannot stop if neither of its halves breaks a promise. -/
theorem ensures_iterate (hcut : t.terrain.changeCut d.cut s.assignment s.source = .ok result)
    (hfill : fill t.problem t.terrain.threshold t.parameters.effort d b aggregates result.2.1
      result.2.2 = .ok f) :
    (iterate around t width d b aggregates : Run (StateM τ) W σ (List (Aggregate W))).Ensures s
      (fun aggregates' s' => aggregates' = f.aggregates ∧ Iterated t d b aggregates s result f s')
      stop := by
  apply Run.ensures_bind
  apply Run.ensures_count
  refine Run.ensures_bind (ensures_iterateCut hcut fun s₁ hx hsource hcount hfirst => ?_)
  refine ensures_iterateFilling (hx ▸ hsource ▸ hfill) fun s' hx' hsource' hcount' hsecond => ?_
  exact ⟨rfl, hcut, hfill, hx', hsource', hcount'.trans hcount, s₁.best, hfirst, hsecond⟩

/-- If the filling breaks a promise, the iteration stops with the new cut and its offer. -/
theorem ensures_iterate_of_error {fault : Fault}
    {post : List (Aggregate W) → State W σ → Prop}
    (hcut : t.terrain.changeCut d.cut s.assignment s.source = .ok result)
    (hfill : fill t.problem t.terrain.threshold t.parameters.effort d b aggregates result.2.1
      result.2.2 = .error fault) :
    (iterate around t width d b aggregates : Run (StateM τ) W σ (List (Aggregate W))).Ensures s post
      fun e s' => e = .fault fault ∧ s'.assignment = result.2.1 ∧
        UpdatesWith result.2.1 (result.1.reaches? t.terrain.threshold) s.best s'.best := by
  apply Run.ensures_bind
  apply Run.ensures_count
  refine Run.ensures_bind (ensures_iterateCut hcut fun s₁ hx hsource _ hoffer => ?_)
  apply Run.ensures_bind
  apply Run.ensures_get
  -- the filling fails in the state that the change of the cut has left
  rw [← hx, ← hsource] at hfill
  refine Run.ensures_bind (Run.ensures_checked (fun f hf => ?_) fun e he => ?_)
  · exact absurd (hf.symm.trans hfill) (by simp)
  · rw [hfill, Except.error.injEq] at he
    exact ⟨he ▸ rfl, hx, hoffer⟩

/-! ## Section 4: Widths -/

/-- The beginning of a width: the decomposition, the buckets and the aggregates under random values
of all variables. -/
def openWidth (around : Surroundings (StateM τ) W) (t : Setup W) (width : Nat) :
    Run (StateM τ) W σ (Decomposition × Buckets × List (Aggregate W)) := do
  let d ← checked (Decomposition.ofProblem t.problem width)
  let b ← checked (Buckets.ofProblem t.problem d)
  act (around.log (.widthStarted width d.cut.length d.components.length d.largest
    b.conditionedCount))
  count fun statistics => statistics.addWidth d.cut.length d.components.length
  scatter t
  let aggregates ←
    checked (Aggregate.ofDecomposition t.problem d b (← get).assignment)
  return (d, b, aggregates)

/-- One round of a width: an iteration and a report. -/
def round (around : Surroundings (StateM τ) W) (t : Setup W) (width : Nat) (d : Decomposition)
    (b : Buckets) (aggregates : List (Aggregate W)) :
    Run (StateM τ) W σ (List (Aggregate W)) := do
  let aggregates ← iterate around t width d b aggregates
  report around t width
  return aggregates

/-- A width is opened before it has its rounds. -/
theorem searchWidth_eq (around : Surroundings (StateM τ) W) (t : Setup W) (width : Nat) :
    (searchWidth around t width : Run (StateM τ) W σ Unit) = (do
      let (d, b, aggregates) ← openWidth around t width
      let begun ← act around.clock
      let done ← iterations around t width d b begun t.parameters.iterationCap 0 aggregates
      act (around.log (.widthDone width done (← get).best.objective))) := by
  simp only [searchWidth, openWidth, bind_assoc, pure_bind]

/-- A round is what is repeated. -/
theorem iterations_succ_eq (around : Surroundings (StateM τ) W) (t : Setup W) (width : Nat)
    (d : Decomposition) (b : Buckets) (begun : Duration) (remaining done : Nat)
    (aggregates : List (Aggregate W)) :
    (iterations around t width d b begun (remaining + 1) done aggregates :
      Run (StateM τ) W σ Nat) = (do
      let now ← act around.clock
      if t.parameters.timePerWidth ≤ now - begun then pure done
      else
        let aggregates ← round around t width d b aggregates
        iterations around t width d b begun remaining (done + 1) aggregates) := by
  simp only [iterations, round, bind_assoc, pure_bind]

/-! ## Section 5: Searches -/

/-- The end of a search: the best assignment so far is the answer. -/
def conclude (around : Surroundings (StateM τ) W) : Run (StateM τ) W σ (Explanation W) := do
  act (around.summarize (← get).statistics)
  return (← get).best

omit [Weight W] [Random.Source σ] in
theorem ensures_conclude {post : Explanation W → State W σ → Prop} (h : post s.best s) :
    (conclude around : Run (StateM τ) W σ (Explanation W)).Ensures s post stop :=
  Run.ensures_bind <| Run.ensures_get <| Run.ensures_bind <| Run.ensures_act fun _ =>
    Run.ensures_bind (Run.ensures_get (Run.ensures_pure h))

/-- The state in which a search begins when the clock shows a time. -/
def State.begin (s : State W σ) (now : Duration) : State W σ :=
  { s with started := now, lastRecord := 0 }

/-- The widths of a search, and then its end. -/
theorem search_eq (around : Surroundings (StateM τ) W) (t : Setup W) :
    (search around t : Run (StateM τ) W σ (Explanation W)) = (do
      let now ← act around.clock
      modify fun s => s.begin now
      let widths ← checked t.parameters.widths
      searchWidths around t widths
      conclude around) := rfl

theorem searchWidths_append (around : Surroundings (StateM τ) W) (t : Setup W)
    (before after : List Nat) :
    (searchWidths around t (before ++ after) : Run (StateM τ) W σ Unit) = (do
      searchWidths around t before
      searchWidths around t after) := by
  induction before with
  | nil => simp only [searchWidths, List.nil_append, pure_bind]
  | cons width before ih => simp only [searchWidths, List.cons_append, ih, bind_assoc]

/-- **A search can be resumed** at any of its widths, from the state in which the widths before have
left it. -/
theorem runOn_search {w w' : τ} {s' : State W σ} {before after : List Nat}
    (hwidths : t.parameters.widths = .ok (before ++ after))
    (hbefore : (searchWidths around t before).runOn (s.begin (around.clock.run w).1)
      (around.clock.run w).2 = ((.ok (), s'), w')) :
    (search around t).runOn s w = (do
      searchWidths around t after
      conclude around : Run (StateM τ) W σ (Explanation W)).runOn s' w' := by
  rw [search_eq, hwidths]
  -- the clock answers, the state begins, and the widths are known
  change (do
    searchWidths around t (before ++ after)
    conclude around : Run (StateM τ) W σ (Explanation W)).runOn (s.begin (around.clock.run w).1)
      (around.clock.run w).2 = _
  rw [searchWidths_append, bind_assoc, Run.runOn_bind_of_ok hbefore]

end PairedMarkov.Search
