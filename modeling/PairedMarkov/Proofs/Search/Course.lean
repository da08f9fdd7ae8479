import PairedMarkov.Proofs.Search.Points
import PairedMarkov.Search.Journal

/-!
# The course of a search

What a search finds depends on the problem, on the effort and on the source of random draws. Of the
clock it depends only so far as time can run out. The *course* of a search is what remains without a
clock: a computation on the assignment, the source and the best assignment so far, which gives for each
iteration the best score after it. Searches with the same course may differ in nothing but the times
that they keep.

Main statements:
- `Search.gives_search`: a search that never runs out of time follows its course, and with an interval
  of zero it writes a record for each iteration;
- `Search.Standing.atWidths_append`: the course through some widths is the beginning of the course
  through these and more.
-/

namespace PairedMarkov.Search

variable {W σ : Type}

/-! ## Section 1: Searching without a clock -/

/-- What a search knows, apart from times and statistics. -/
structure Standing (W σ : Type) where
  assignment : Assignment
  source : σ
  /-- The best objective score so far. -/
  best : W
  /-- The assignment with that score, if one is known. -/
  found : Option Assignment
  /-- The width at which it was found. -/
  width : ℕ

/-- What a search knows in a state. -/
def State.standing (s : State W σ) : Standing W σ :=
  ⟨s.assignment, s.source, s.best.objective, s.best.assignment, s.best.width⟩

namespace Standing

/-- Other values and another source. -/
def place (v : Standing W σ) (x : Assignment) (source : σ) : Standing W σ :=
  { v with assignment := x, source }

/-- What is written down at a width, apart from the time. -/
def record (v : Standing W σ) (terrain : Terrain W) (width : ℕ) : Progress W :=
  { threshold := terrain.threshold, width, best := v.best, elapsed := 0 }

variable [Weight W]

/-- The current assignment becomes the best one if it has a larger objective score. -/
def offer (v : Standing W σ) (width : ℕ) : Option W → Standing W σ
  | none => v
  | some objective =>
    if v.best < objective then
      { v with best := objective, found := some v.assignment, width }
    else v

variable [Random.Source σ] (terrain : Terrain W) (effort : Effort)

/-- One iteration. -/
def iterate (width : ℕ) (d : Decomposition) (b : Buckets) (aggregates : List (Aggregate W))
    (v : Standing W σ) : Except Fault (List (Aggregate W) × Standing W σ) := do
  let (change, x, source) ← terrain.changeCut d.cut v.assignment v.source
  let v := (v.place x source).offer width (change.reaches? terrain.threshold)
  -- the assignment with the changed cut is the one that is filled
  let f ← fill terrain.problem terrain.threshold effort d b aggregates v.assignment v.source
  return (f.aggregates, (v.place f.assignment f.source).offer width f.reaches?)

/-- A number of iterations, with a record after each of them. -/
def iterations (width : ℕ) (d : Decomposition) (b : Buckets) :
    (count : ℕ) → List (Aggregate W) → Standing W σ →
      Except Fault (List (Progress W) × Standing W σ)
  | 0, _, v => return ([], v)
  | count + 1, aggregates, v => do
    let (aggregates, v) ← iterate terrain effort width d b aggregates v
    let (records, last) ← iterations width d b count aggregates v
    return (v.record terrain width :: records, last)

/-- The beginning of a width. -/
def openWidth (width : ℕ) (v : Standing W σ) :
    Except Fault ((Decomposition × Buckets × List (Aggregate W)) × Standing W σ) := do
  let d ← Decomposition.ofProblem terrain.problem width
  let b ← Buckets.ofProblem terrain.problem d
  let domains := terrain.problem.domains
  let (x, source) ← v.assignment.randomizeAll domains v.source (List.range domains.size)
  let aggregates ← Aggregate.ofDecomposition terrain.problem d b x
  return ((d, b, aggregates), v.place x source)

/-- One width with a number of iterations. -/
def atWidth (count width : ℕ) (v : Standing W σ) :
    Except Fault (List (Progress W) × Standing W σ) := do
  let ((d, b, aggregates), v) ← openWidth terrain width v
  iterations terrain effort width d b count aggregates v

/-- Some widths, one after the other. -/
def atWidths (count : ℕ) :
    List ℕ → Standing W σ → Except Fault (List (Progress W) × Standing W σ)
  | [], v => return ([], v)
  | width :: widths, v => do
    let (records, v) ← atWidth terrain effort count width v
    let (later, v) ← atWidths count widths v
    return (records ++ later, v)

/-- The course through some widths is where the course through more of them begins. -/
theorem atWidths_append (count : ℕ) (before after : List ℕ) (v : Standing W σ) :
    atWidths terrain effort count (before ++ after) v = (do
      let (records, v) ← atWidths terrain effort count before v
      let (later, v) ← atWidths terrain effort count after v
      return (records ++ later, v)) := by
  induction before generalizing v with
  | nil => simp [atWidths]
  | cons width before ih => simp [atWidths, ih, List.append_assoc]

end Standing

/-! ## Section 2: Runs with their surroundings -/

section Rules

variable {τ α β : Type}

/-- From a state of the search and one of the surroundings, every result comes with `post`. -/
def Run.Gives (x : Run (StateM τ) W σ α) (s : State W σ) (w : τ)
    (post : α → State W σ → τ → Prop) : Prop :=
  ∀ a s' w', x.runOn s w = ((.ok a, s'), w') → post a s' w'

namespace Run

variable {x : Run (StateM τ) W σ α} {f : α → Run (StateM τ) W σ β} {s : State W σ} {w : τ} {a : α}
  {post : α → State W σ → τ → Prop} {next : β → State W σ → τ → Prop}

theorem gives_pure (h : post a s w) : (pure a : Run (StateM τ) W σ α).Gives s w post := by
  intro _ _ _ hrun
  cases hrun
  exact h

theorem gives_bind (h : x.Gives s w fun a s' w' => (f a).Gives s' w' next) :
    (x >>= f).Gives s w next := by
  intro c s' w' hrun
  obtain ⟨a, s₁, w₁, hfirst, hsecond⟩ := runOn_bind_eq_ok_iff.1 hrun
  exact h a s₁ w₁ hfirst c s' w' hsecond

theorem Gives.mono {post' : α → State W σ → τ → Prop} (h : x.Gives s w post)
    (himp : ∀ a s' w', post a s' w' → post' a s' w') : x.Gives s w post' :=
  fun a s' w' hrun => himp a s' w' (h a s' w' hrun)

theorem gives_get {post : State W σ → State W σ → τ → Prop} (h : post s s w) :
    (get : Run (StateM τ) W σ (State W σ)).Gives s w post := by
  intro _ _ _ hrun
  cases hrun
  exact h

theorem gives_set {post : PUnit → State W σ → τ → Prop} {s' : State W σ} (h : post ⟨⟩ s' w) :
    (set s' : Run (StateM τ) W σ PUnit).Gives s w post := by
  intro _ _ _ hrun
  cases hrun
  exact h

theorem gives_modify {post : PUnit → State W σ → τ → Prop} {change : State W σ → State W σ}
    (h : post ⟨⟩ (change s) w) : (modify change : Run (StateM τ) W σ PUnit).Gives s w post := by
  intro _ _ _ hrun
  cases hrun
  exact h

theorem gives_count {post : Unit → State W σ → τ → Prop} {change : Statistics → Statistics}
    (h : post () { s with statistics := change s.statistics } w) :
    (count change : Run (StateM τ) W σ Unit).Gives s w post := gives_modify h

theorem gives_act {action : StateM τ α} (h : post (action.run w).1 s (action.run w).2) :
    (act action : Run (StateM τ) W σ α).Gives s w post := by
  intro _ _ _ hrun
  cases hrun
  exact h

theorem gives_checked {x : Except Fault α} (h : ∀ a, x = .ok a → post a s w) :
    (checked x : Run (StateM τ) W σ α).Gives s w post := by
  cases x with
  | ok a =>
    intro _ _ _ hrun
    cases hrun
    exact h a rfl
  | error fault => exact fun _ _ _ hrun => nomatch hrun

end Run

end Rules

/-! ## Section 3: Iterations follow their course -/

/-- A progress record without its time. -/
def Progress.untimed (r : Progress W) : Progress W := { r with elapsed := 0 }

/-- The progress records of a journal without their times. -/
def Journal.untimed (j : Journal W) : List (Progress W) := j.records.toList.map Progress.untimed

/-- The clock never goes back, the last record lies behind, and there is room for more. -/
structure Timely (s : State W σ) (j : Journal W) : Prop where
  room : j.room = none
  monotone : Monotone j.clock
  last : s.lastRecord ≤ j.clock j.looks - s.started

/-- Another look at the clock. -/
theorem Timely.look {s : State W σ} {j : Journal W} (h : Timely s j) :
    Timely s { j with looks := j.looks + 1 } where
  room := h.room
  monotone := h.monotone
  last := h.last.trans (Nat.sub_le_sub_right (h.monotone (Nat.le_succ j.looks)) s.started)

/-- A part of a search that began with a journal has written records and led to a standing. -/
structure Follows (j : Journal W) (records : List (Progress W)) (v : Standing W σ) (s' : State W σ)
    (j' : Journal W) : Prop where
  standing : s'.standing = v
  records : j'.untimed = j.untimed ++ records
  timely : Timely s' j'

/-- Nothing is written. -/
theorem Follows.silent {j j' : Journal W} {v : Standing W σ} {s' : State W σ}
    (hstanding : s'.standing = v) (hrecords : j'.records = j.records) (h : Timely s' j') :
    Follows j [] v s' j' where
  standing := hstanding
  records := by rw [List.append_nil, Journal.untimed, hrecords, Journal.untimed]
  timely := h

/-- A look at the clock before is not seen. -/
theorem Follows.looked {j j' : Journal W} {records : List (Progress W)} {v : Standing W σ}
    {s' : State W σ} (h : Follows { j with looks := j.looks + 1 } records v s' j') :
    Follows j records v s' j' := ⟨h.standing, h.records, h.timely⟩

theorem Follows.trans {j j₁ j₂ : Journal W} {records records' : List (Progress W)}
    {v v' : Standing W σ} {s₁ s₂ : State W σ} (h : Follows j records v s₁ j₁)
    (h' : Follows j₁ records' v' s₂ j₂) : Follows j (records ++ records') v' s₂ j₂ where
  standing := h'.standing
  records := by rw [h'.records, h.records, List.append_assoc]
  timely := h'.timely

variable [Weight W] {t : Setup W} {width : ℕ} {s : State W σ} {j : Journal W}

open Journal (surroundings)

theorem gives_offer (h : Timely s j) (objective : W) :
    (offer surroundings width objective).Gives s j fun _ s' j' =>
      Follows j [] (s.standing.offer width (some objective)) s' j' := by
  refine Run.gives_bind (Run.gives_get ?_)
  by_cases hbetter : s.best.objective < objective
  · rw [if_pos hbetter]
    have hstanding : s.standing.offer width (some objective) =
      ⟨s.assignment, s.source, objective, some s.assignment, width⟩ := if_pos hbetter
    rw [hstanding]
    -- the clock tells when it was found, and the log is told
    refine Run.gives_bind (Run.gives_bind (Run.gives_act ?_))
    refine Run.gives_bind (Run.gives_get (Run.gives_pure ?_))
    refine Run.gives_bind (Run.gives_act (Run.gives_bind (Run.gives_modify (Run.gives_count ?_))))
    exact .silent rfl rfl ⟨h.look.room, h.look.monotone, h.look.last⟩
  · rw [if_neg hbetter]
    exact Run.gives_pure (.silent (if_neg hbetter).symm rfl h)

variable [Random.Source σ] {d : Decomposition} {b : Buckets} {aggregates : List (Aggregate W)}

/-- Changing the cut writes no record, and leads to where the course stands when it has changed the
cut. -/
theorem gives_iterateCut (h : Timely s j) :
    (iterateCut surroundings t width d).Gives s j fun _ s' j' => ∃ change x source,
      t.terrain.changeCut d.cut s.assignment s.source = .ok (change, x, source) ∧
        Follows j []
          ((s.standing.place x source).offer width (change.reaches? t.terrain.threshold)) s' j' := by
  refine Run.gives_bind (Run.gives_get (Run.gives_bind (Run.gives_checked fun result hchange => ?_)))
  obtain ⟨change, x, source⟩ := result
  refine Run.gives_bind (Run.gives_set (Run.gives_bind (Run.gives_count ?_)))
  cases hreaches : change.reaches? t.terrain.threshold with
  | none =>
    refine Run.gives_pure ⟨change, x, source, hchange, ?_⟩
    rw [hreaches]
    exact .silent rfl rfl ⟨h.room, h.monotone, h.last⟩
  | some objective =>
    have hplaced : Timely { s.place x source with statistics := s.statistics.addChange change } j :=
      ⟨h.room, h.monotone, h.last⟩
    refine (gives_offer hplaced objective).mono fun _ s' j' hoffer => ?_
    refine ⟨change, x, source, hchange, ?_⟩
    rw [hreaches]
    exact hoffer

/-- Filling writes no record, and leads to where the course stands when it has filled the
components. -/
theorem gives_iterateFilling (h : Timely s j) :
    (iterateFilling surroundings t width d b aggregates).Gives s j fun aggregates' s' j' =>
      ∃ f, fill t.problem t.terrain.threshold t.parameters.effort d b aggregates s.assignment
          s.source = .ok f ∧ aggregates' = f.aggregates ∧
        Follows j [] ((s.standing.place f.assignment f.source).offer width f.reaches?) s' j' := by
  refine Run.gives_bind (Run.gives_get (Run.gives_bind (Run.gives_checked fun f hf => ?_)))
  refine Run.gives_bind (Run.gives_act (Run.gives_bind (Run.gives_set ?_)))
  by_cases hfeasible : f.solution.isFeasible = true
  · rw [if_pos hfeasible]
    have hplaced : Timely (s.place f.assignment f.source)
        (surroundings.log (.knapsack f.bins f.fixed f.budget) |>.run j).2 :=
      ⟨h.room, h.monotone, h.last⟩
    refine Run.gives_bind ((gives_offer hplaced f.objective).mono fun _ s' j' hoffer => ?_)
    refine Run.gives_pure ⟨f, hf, rfl, ?_⟩
    rw [Filling.reaches?, if_pos hfeasible]
    exact ⟨hoffer.standing, hoffer.records, hoffer.timely⟩
  · rw [if_neg hfeasible]
    refine Run.gives_bind (Run.gives_act (Run.gives_bind (Run.gives_count (Run.gives_pure ?_))))
    refine ⟨f, hf, rfl, ?_⟩
    rw [Filling.reaches?, if_neg hfeasible]
    exact .silent rfl rfl ⟨h.room, h.monotone, h.last⟩

theorem gives_iterate (h : Timely s j) :
    (iterate surroundings t width d b aggregates).Gives s j fun aggregates' s' j' => ∃ v,
      Standing.iterate t.terrain t.parameters.effort width d b aggregates s.standing =
        .ok (aggregates', v) ∧ Follows j [] v s' j' := by
  have hcounted : Timely
      { s with statistics := { s.statistics with iterations := s.statistics.iterations + 1 } } j :=
    ⟨h.room, h.monotone, h.last⟩
  refine Run.gives_bind (Run.gives_count (Run.gives_bind ?_))
  refine (gives_iterateCut hcounted).mono fun _ s₁ j₁ hcut => ?_
  obtain ⟨change, x, source, hchange, hcut⟩ := hcut
  refine (gives_iterateFilling hcut.timely).mono fun aggregates' s₂ j₂ hfilling => ?_
  obtain ⟨f, hf, rfl, hfilling⟩ := hfilling
  have hstanding : s₁.standing =
    (s.standing.place x source).offer width (change.reaches? t.terrain.threshold) := hcut.standing
  refine ⟨_, bind_eq_ok_iff.2 ⟨_, hchange, ?_⟩, hcut.trans hfilling⟩
  -- the filling starts in the standing in which the change of the cut has ended
  dsimp only
  rw [← hstanding]
  exact bind_eq_ok_iff.2 ⟨f, hf, rfl⟩

/-- A search that writes a record whenever it can. -/
structure Setup.Detailed (t : Setup W) : Prop where
  interval : t.parameters.interval = 0
  threshold : t.terrain.threshold = t.parameters.threshold

omit [Weight W] [Random.Source σ] in
theorem gives_report (ht : t.Detailed) (h : Timely s j) :
    (report surroundings t width).Gives s j fun _ s' j' =>
      Follows j [s.standing.record t.terrain width] s.standing s' j' := by
  have hclock : (surroundings (W := W)).clock.run j =
    (j.clock j.looks, { j with looks := j.looks + 1 }) := rfl
  have hroom (record : Progress W) :
      ((surroundings (W := W)).record record).run { j with looks := j.looks + 1 } =
        (.ok (), { j with looks := j.looks + 1, records := j.records.push record }) :=
    if_pos (by rw [h.room]; rfl)
  have hold : s.lastRecord + t.parameters.interval ≤ j.clock j.looks - s.started := by
    -- without an interval every record is old enough, as the clock has not gone back
    rw [ht.interval]
    exact h.last
  refine Run.gives_bind (Run.gives_bind (Run.gives_act (Run.gives_bind (Run.gives_get
    (Run.gives_pure (Run.gives_bind (Run.gives_get ?_)))))))
  rw [hclock, if_pos hold]
  refine Run.gives_bind (Run.gives_act ?_)
  rw [hroom]
  refine Run.gives_set ⟨rfl, ?_, h.room, h.monotone, ?_⟩
  · rw [Journal.untimed, Array.toList_push, List.map_append, Standing.record, ht.threshold]
    rfl
  · exact Nat.sub_le_sub_right (h.monotone (Nat.le_succ j.looks)) s.started

theorem gives_round (ht : t.Detailed) (h : Timely s j) :
    (round surroundings t width d b aggregates).Gives s j fun aggregates' s' j' => ∃ v,
      Standing.iterate t.terrain t.parameters.effort width d b aggregates s.standing =
        .ok (aggregates', v) ∧ Follows j [v.record t.terrain width] v s' j' := by
  refine Run.gives_bind ((gives_iterate h).mono fun aggregates' s₁ j₁ hiterate => ?_)
  obtain ⟨_, hiterate, hsilent⟩ := hiterate
  obtain rfl := hsilent.standing
  refine Run.gives_bind ((gives_report ht hsilent.timely).mono fun _ s₂ j₂ hreport => ?_)
  exact Run.gives_pure ⟨_, hiterate, hsilent.trans hreport⟩

/-! ## Section 4: Searches follow their course -/

theorem gives_iterations (ht : t.Detailed) {begun : Duration} {first : Point (Journal W) W σ}
    {count : ℕ} (h : Timely first.state first.world)
    (htime : ∀ n here, Rounds surroundings t width d b begun n first here → n < count →
      here.InTime surroundings t begun) (done : ℕ) :
    (iterations surroundings t width d b begun count done first.aggregates).Gives first.state
      first.world fun _ s' j' => ∃ records v,
        Standing.iterations t.terrain t.parameters.effort width d b count first.aggregates
          first.state.standing = .ok (records, v) ∧ Follows first.world records v s' j' := by
  induction count generalizing first done with
  | zero =>
    -- the last look at the clock writes nothing down
    exact Run.gives_bind (Run.gives_act (Run.gives_pure ⟨[], _, rfl, .silent rfl rfl h.look⟩))
  | succ count ih =>
    -- one round, and then the others from the next point on
    have hnow := htime 0 first (.none first) (Nat.succ_pos count)
    intro total s' j' hrun
    rw [runOn_iterations_succ hnow] at hrun
    obtain ⟨aggregates', s₁, j₁, hround, hrest⟩ := runOn_bind_eq_ok_iff.1 hrun
    obtain ⟨_, hiterate, hfollows⟩ := gives_round ht h.look _ _ _ hround
    obtain rfl := hfollows.standing
    -- rounds from there are rounds from the first point, with one more before them
    have hnext : ∀ n here, Rounds surroundings t width d b begun n ⟨aggregates', s₁, j₁⟩ here →
        n < count → here.InTime surroundings t begun := fun n here hrounds hn =>
      htime (n + 1) here (hrounds.cons hnow hround) (Nat.succ_lt_succ hn)
    obtain ⟨records, v, hiterations, hlater⟩ :=
      ih hfollows.timely hnext (done + 1) total s' j' hrest
    refine ⟨_, v, bind_eq_ok_iff.2 ⟨_, hiterate, bind_eq_ok_iff.2 ⟨_, hiterations, rfl⟩⟩, ?_⟩
    exact (hfollows.trans hlater).looked

theorem gives_openWidth (h : Timely s j) :
    (openWidth surroundings t width).Gives s j fun opened s' j' => ∃ v,
      Standing.openWidth t.terrain width s.standing = .ok (opened, v) ∧ Follows j [] v s' j' := by
  refine Run.gives_bind (Run.gives_checked fun d hd => ?_)
  refine Run.gives_bind (Run.gives_checked fun b hb => ?_)
  refine Run.gives_bind (Run.gives_act (Run.gives_bind (Run.gives_count ?_)))
  refine Run.gives_bind (Run.gives_bind (Run.gives_get (Run.gives_bind
    (Run.gives_checked fun scattered hscattered => ?_))))
  refine Run.gives_set (Run.gives_bind (Run.gives_get ?_))
  refine Run.gives_bind (Run.gives_checked fun aggregates haggregates => Run.gives_pure ?_)
  refine ⟨s.standing.place scattered.1 scattered.2, ?_, .silent rfl rfl
    ⟨h.room, h.monotone, h.last⟩⟩
  exact bind_eq_ok_iff.2 ⟨d, hd, bind_eq_ok_iff.2 ⟨b, hb, bind_eq_ok_iff.2 ⟨_, hscattered,
    bind_eq_ok_iff.2 ⟨aggregates, haggregates, rfl⟩⟩⟩⟩

/-- A width follows its course if the clock keeps it from no iteration. Opening it writes no
records, and so all of them are those of its iterations. -/
theorem gives_searchWidth (ht : t.Detailed) (h : Timely s j)
    (htime : ∀ d b first s₁ j₁, (openWidth surroundings t width).runOn s j =
        ((.ok (d, b, first), s₁), j₁) → ∀ n here,
      Rounds surroundings t width d b (surroundings.clock.run j₁).1 n
        (Point.look surroundings ⟨first, s₁, j₁⟩) here → n < t.parameters.iterationCap →
      here.InTime surroundings t (surroundings.clock.run j₁).1) :
    (searchWidth surroundings t width).Gives s j fun _ s' j' => ∃ records v,
      Standing.atWidth t.terrain t.parameters.effort t.parameters.iterationCap width s.standing =
        .ok (records, v) ∧ Follows j records v s' j' := by
  rw [searchWidth_eq]
  intro _ s' j' hrun
  obtain ⟨⟨d, b, aggregates⟩, s₁, j₁, hopen, hrest⟩ := runOn_bind_eq_ok_iff.1 hrun
  obtain ⟨_, hcourse, hopened⟩ := gives_openWidth h _ _ _ hopen
  obtain rfl := hopened.standing
  dsimp only at hrest
  rw [runOn_act_bind] at hrest
  obtain ⟨_, s₂, j₂, hrounds, hlog⟩ := runOn_bind_eq_ok_iff.1 hrest
  obtain ⟨records, v, hiterations, hfollows⟩ := gives_iterations ht
    hopened.timely.look (htime d b aggregates s₁ j₁ hopen) 0 _ _ _ hrounds
  have hlogged := hfollows.timely
  refine ⟨records, v, bind_eq_ok_iff.2 ⟨_, hcourse, hiterations⟩, ?_⟩
  cases hlog
  exact hopened.trans (Follows.looked ⟨hfollows.standing, hfollows.records, hlogged.room,
    hlogged.monotone, hlogged.last⟩)

/-- A search that stands before some of its widths follows their course. -/
theorem gives_searchWidths (ht : t.Detailed) {s₀ : State W σ} {j₀ : Journal W} {before after : List ℕ}
    (hunhurried : Unhurried surroundings t s₀ j₀)
    (hwidths : t.parameters.widths = .ok (before ++ after))
    (hbefore : (searchWidths surroundings t before).runOn
      (s₀.begin (surroundings.clock.run j₀).1) (surroundings.clock.run j₀).2 = ((.ok (), s), j))
    (h : Timely s j) :
    (searchWidths surroundings t after).Gives s j fun _ s' j' => ∃ records v,
      Standing.atWidths t.terrain t.parameters.effort t.parameters.iterationCap after s.standing =
        .ok (records, v) ∧ Follows j records v s' j' := by
  induction after generalizing before s j with
  | nil => exact Run.gives_pure ⟨[], _, rfl, .silent rfl rfl h⟩
  | cons width after ih =>
    intro _ _ _ hrun
    obtain ⟨_, s₁, j₁, hwidth, hrest⟩ := runOn_bind_eq_ok_iff.1 hrun
    obtain ⟨records, _, hcourse, hfollows⟩ := gives_searchWidth ht h
      (fun d b first s₁ j₁ hopen n here hrounds hn =>
        hunhurried (.mk hwidths hbefore hopen rfl hrounds) hn) _ _ _ hwidth
    obtain rfl := hfollows.standing
    -- the width now is one of those before
    have hbefore' : (searchWidths surroundings t (before ++ [width])).runOn
        (s₀.begin (surroundings.clock.run j₀).1) (surroundings.clock.run j₀).2 =
          ((.ok (), s₁), j₁) := by
      rw [searchWidths_append, Run.runOn_bind_of_ok hbefore]
      exact runOn_bind_eq_ok_iff.2 ⟨_, s₁, j₁, hwidth, rfl⟩
    rw [List.append_cons] at hwidths
    obtain ⟨later, v, hlater, hfollows'⟩ := ih hwidths hbefore' hfollows.timely _ _ _ hrest
    refine ⟨records ++ later, v, ?_, hfollows.trans hfollows'⟩
    exact bind_eq_ok_iff.2 ⟨_, hcourse, bind_eq_ok_iff.2 ⟨_, hlater, rfl⟩⟩

omit [Weight W] in
/-- A journal keeps its clock. -/
theorem Journal.keep_clock (clock : ℕ → Duration) :
    (surroundings : Surroundings (StateM (Journal W)) W).Keep fun j => j.clock = clock where
  clock _ h := h
  log _ _ h := h
  record record j h := by
    show (j.addRecord record).2.clock = clock
    rw [Journal.addRecord]
    split <;> exact h

/-- There is time for everything if the clock never shows the time that a width is given. -/
theorem unhurried_of_clock_lt (h : ∀ looks, j.clock looks < t.parameters.timePerWidth) :
    Unhurried surroundings t s j := by
  intro width d b begun after n here harrives _
  have hclock : here.world.clock = j.clock := harrives.keep (Journal.keep_clock j.clock) rfl
  show here.world.clock here.world.looks - begun < t.parameters.timePerWidth
  rw [hclock]
  exact Nat.lt_of_le_of_lt (Nat.sub_le _ begun) (h _)

theorem Journal.runSearch_eq_iff {s' : State W σ} {j' : Journal W}
    {result : Except (Stop FileError) (Explanation W)} :
    Journal.runSearch t s j = (result, s', j') ↔
      (search surroundings t).runOn s j = ((result, s'), j') := by
  show (((search surroundings t).runOn s j).1.1, ((search surroundings t).runOn s j).1.2,
    ((search surroundings t).runOn s j).2) = _ ↔ _
  rcases (search surroundings t).runOn s j with ⟨⟨result', s₁⟩, j₁⟩
  simp only [Prod.mk.injEq, and_assoc]

/-- **A search follows its course** if it writes a record whenever it can and the clock never keeps it
from an iteration. -/
theorem gives_search (ht : t.Detailed) (hunhurried : Unhurried surroundings t s j)
    (hroom : j.room = none) (hclock : Monotone j.clock) :
    (search surroundings t).Gives s j fun e _ j' => ∃ widths records v,
      t.parameters.widths = .ok widths ∧
      Standing.atWidths t.terrain t.parameters.effort t.parameters.iterationCap widths s.standing =
        .ok (records, v) ∧
      j'.untimed = j.untimed ++ records ∧ e.objective = v.best ∧ e.assignment = v.found ∧
        e.width = v.width := by
  rw [search_eq]
  refine Run.gives_bind (Run.gives_act (Run.gives_bind (Run.gives_modify (Run.gives_bind
    (Run.gives_checked fun widths hwidths => Run.gives_bind ?_)))))
  have hbegun : Timely (s.begin (surroundings.clock.run j).1) (surroundings.clock.run j).2 :=
    ⟨hroom, hclock, Nat.zero_le _⟩
  have hall : t.parameters.widths = .ok ([] ++ widths) := hwidths
  refine (gives_searchWidths ht hunhurried hall rfl hbegun).mono fun _ s₁ j₁ hcourse => ?_
  obtain ⟨records, _, hcourse, hfollows⟩ := hcourse
  obtain rfl := hfollows.standing
  refine Run.gives_bind (Run.gives_get (Run.gives_bind (Run.gives_act (Run.gives_bind
    (Run.gives_get (Run.gives_pure ?_))))))
  exact ⟨widths, records, _, hwidths, hcourse, hfollows.records, rfl, rfl, rfl⟩

end PairedMarkov.Search
