import PairedMarkov.Proofs.Search.Invariants

/-!
# The iterations of a search

A search comes to its iterations one after the other: it goes through the widths before, opens a width
and has rounds there, as long as the clock leaves time for another one. Between two of them it stands at
a *point*, which is all that the rest of the search depends on.

Main statements:
- `Search.runOn_search_of_comesTo`: a search goes on behind each of its iterations;
- `Search.ComesTo.iterating`: what is known of states in which iterations begin is known of these;
- `Search.ensures_afterIteration`: what iterations keep is still there at the end of the search;
- `Search.Arrives.keep`: what the surroundings keep when they act is true of them at each point.
-/

namespace PairedMarkov.Search

variable {τ W σ α β : Type}

/-! ## Section 1: Runs that end -/

theorem runOn_act_bind (action : StateM τ α) (f : α → Run (StateM τ) W σ β) (s : State W σ) (w : τ) :
    (act action >>= f).runOn s w = (f (action.run w).1).runOn s (action.run w).2 := rfl

theorem runOn_bind_congr {x y : Run (StateM τ) W σ α} {s s' : State W σ} {w w' : τ}
    (h : x.runOn s w = y.runOn s' w') (f : α → Run (StateM τ) W σ β) :
    (x >>= f).runOn s w = (y >>= f).runOn s' w' := by
  rw [Run.runOn_bind, h, Run.runOn_bind]

/-- A sequence ends with a result exactly if both of its parts do. -/
theorem runOn_bind_eq_ok_iff {x : Run (StateM τ) W σ α} {f : α → Run (StateM τ) W σ β}
    {s s' : State W σ} {w w' : τ} {c : β} :
    (x >>= f).runOn s w = ((.ok c, s'), w') ↔
      ∃ a s₁ w₁, x.runOn s w = ((.ok a, s₁), w₁) ∧ (f a).runOn s₁ w₁ = ((.ok c, s'), w') := by
  rw [Run.runOn_bind]
  rcases x.runOn s w with ⟨⟨result, s₁⟩, w₁⟩
  cases result <;> simp

/-! ## Section 2: Points -/

variable [Random.Source σ] [Weight W]

/-- Where a search stands between two iterations at a width. -/
structure Point (τ W σ : Type) where
  aggregates : List (Aggregate W)
  state : State W σ
  world : τ

variable (around : Surroundings (StateM τ) W) (t : Setup W) (width : ℕ) (d : Decomposition)
  (b : Buckets) (begun : Duration)

/-- The point after a look at the clock. -/
def Point.look (here : Point τ W σ) : Point τ W σ :=
  { here with world := (around.clock.run here.world).2 }

/-- At a point there is time left for another iteration at a width that has begun at some time. -/
def Point.InTime (here : Point τ W σ) : Prop :=
  (around.clock.run here.world).1 - begun < t.parameters.timePerWidth

/-- From one point to another by a number of rounds, each of which is begun in time. -/
inductive Rounds : ℕ → Point τ W σ → Point τ W σ → Prop
  | none (here : Point τ W σ) : Rounds 0 here here
  | more {n : ℕ} {first here next : Point τ W σ} (h : Rounds n first here)
    (htime : here.InTime around t begun)
    (hrun : (round around t width d b here.aggregates).runOn here.state
      (here.look around).world = ((.ok next.aggregates, next.state), next.world)) :
    Rounds (n + 1) first next

/-- A search from a state comes to a point at a width, at which it has had `n` rounds; the widths
`after` are still to come. -/
inductive Arrives (s : State W σ) (w : τ) (after : List ℕ) (n : ℕ) : Point τ W σ → Prop
  | mk {before : List ℕ} {s' : State W σ} {w' : τ} {first here : Point τ W σ}
    (hwidths : t.parameters.widths = .ok (before ++ width :: after))
    (hbefore : (searchWidths around t before).runOn (s.begin (around.clock.run w).1)
      (around.clock.run w).2 = ((.ok (), s'), w'))
    (hopen : (openWidth around t width).runOn s' w' =
      ((.ok (d, b, first.aggregates), first.state), first.world))
    (hbegun : begun = (around.clock.run first.world).1)
    (hrounds : Rounds around t width d b begun n (first.look around) here) : Arrives s w after n here

/-- A search from a state comes to an iteration: there is another one to be made, and time for it. -/
inductive ComesTo (s : State W σ) (w : τ) (after : List ℕ) (n : ℕ) : Point τ W σ → Prop
  | mk {here : Point τ W σ} (h : Arrives around t width d b begun s w after n here)
    (hcap : n < t.parameters.iterationCap) (htime : here.InTime around t begun) :
    ComesTo s w after n (here.look around)

/-- What a search does behind an iteration. -/
def afterIteration (remaining done : ℕ) (after : List ℕ) (aggregates : List (Aggregate W)) :
    Run (StateM τ) W σ (Explanation W) := do
  report around t width
  let done ← iterations around t width d b begun remaining done aggregates
  act (around.log (.widthDone width done (← get).best.objective))
  searchWidths around t after
  conclude around

/-- At no point of a search does the clock keep it from an iteration. -/
def Unhurried (s : State W σ) (w : τ) : Prop :=
  ∀ {width d b begun after n here}, Arrives around t width d b begun s w after n here →
    n < t.parameters.iterationCap → here.InTime around t begun

variable {around t width d b begun} {s s' : State W σ} {w w' : τ} {after : List ℕ} {n : ℕ}
  {first here : Point τ W σ} {aggregates : List (Aggregate W)}

/-- Another round is begun if there is time for it. -/
theorem runOn_iterations_succ (htime : here.InTime around t begun)
    (remaining done : ℕ) :
    (iterations around t width d b begun (remaining + 1) done here.aggregates).runOn here.state
        here.world = (do
      let aggregates ← round around t width d b here.aggregates
      iterations around t width d b begun remaining (done + 1) aggregates).runOn here.state
        (here.look around).world := by
  rw [iterations_succ_eq, runOn_act_bind, if_neg (Nat.not_le_of_lt htime)]
  rfl

/-- Behind some rounds there are as many iterations fewer to make. -/
theorem Rounds.runOn_iterations (h : Rounds around t width d b begun n first here)
    (remaining done : ℕ) :
    (iterations around t width d b begun (remaining + n) done first.aggregates).runOn first.state
        first.world =
      (iterations around t width d b begun remaining (done + n) here.aggregates).runOn here.state
        here.world := by
  induction h generalizing remaining with
  | none here => rfl
  | @more n first here next h htime hrun ih =>
    -- up to the last round by induction, and then this one
    rw [show remaining + (n + 1) = remaining + 1 + n by omega, ih, runOn_iterations_succ htime]
    exact Run.runOn_bind_of_ok hrun _

/-- **A search goes on** behind each of its iterations with the state that the iteration has left. -/
theorem runOn_search_of_comesTo (h : ComesTo around t width d b begun s w after n here)
    (hiterate : (iterate around t width d b here.aggregates).runOn here.state here.world =
      ((.ok aggregates, s'), w')) :
    ∃ remaining, (search around t).runOn s w =
      (afterIteration around t width d b begun remaining (n + 1) after aggregates).runOn s' w' := by
  obtain ⟨⟨hwidths, hbefore, hopen, hbegun, hrounds⟩, hcap, htime⟩ := h
  obtain ⟨remaining, hremaining⟩ := Nat.exists_eq_add_of_lt hcap
  refine ⟨remaining, ?_⟩
  -- up to the width, then up to its rounds, and then up to the iteration
  rw [runOn_search hwidths hbefore, searchWidths, searchWidth_eq]
  simp only [bind_assoc]
  rw [Run.runOn_bind_of_ok hopen, runOn_act_bind, ← hbegun, hremaining,
    show n + remaining + 1 = remaining + 1 + n by omega]
  have hreached := (hrounds.runOn_iterations (remaining + 1) 0).trans
    (runOn_iterations_succ htime remaining (0 + n))
  refine (runOn_bind_congr hreached _).trans ?_
  simp only [round, bind_assoc, pure_bind, Nat.zero_add]
  exact Run.runOn_bind_of_ok hiterate _

/-- One round before others. -/
theorem Rounds.cons {next : Point τ W σ} (htime : first.InTime around t begun)
    (hrun : (round around t width d b first.aggregates).runOn first.state
      (first.look around).world = ((.ok next.aggregates, next.state), next.world))
    (h : Rounds around t width d b begun n next here) :
    Rounds around t width d b begun (n + 1) first here := by
  induction h with
  | none next => exact .more (.none first) htime hrun
  | more _ htime' hrun' ih => exact .more (ih hrun) htime' hrun'

theorem Reached.searchWidths (hs : Reached around t s) {widths : List ℕ}
    (hrun : (searchWidths around t widths).runOn s w = ((.ok (), s'), w')) : Reached around t s' := by
  induction widths generalizing s w with
  | nil =>
    cases hrun
    exact hs
  | cons width widths ih =>
    obtain ⟨_, s₁, w₁, hwidth, hrest⟩ := runOn_bind_eq_ok_iff.1 hrun
    exact ih (hs.width width hwidth) hrest

theorem Rounds.iterating (h : Rounds around t width d b begun n first here)
    (hfirst : Iterating around t width d b first.aggregates first.state) :
    Iterating around t width d b here.aggregates here.state := by
  induction h with
  | none here => exact hfirst
  | more _ _ hrun ih => exact .again (ih hfirst) hrun

/-- An iteration that a search comes to follows another one at its width, unless it is the first. -/
theorem ComesTo.iterating (h : ComesTo around t width d b begun s w after n here)
    (hs : Reached around t s) :
    Iterating around t width d b here.aggregates here.state ∧
      (0 < n → ∃ (aggregates : List (Aggregate W)) (s' : State W σ) (w' w'' : τ),
        Iterating around t width d b aggregates s' ∧
          (round around t width d b aggregates).runOn s' w' =
            ((.ok here.aggregates, here.state), w'')) := by
  obtain ⟨⟨hwidths, hbefore, hopen, hbegun, hrounds⟩, hcap, htime⟩ := h
  have hfirst := Iterating.opened ((hs.begin _).searchWidths hbefore) hopen
  refine ⟨hrounds.iterating hfirst, fun hn => ?_⟩
  cases hrounds with
  | none => exact absurd hn (lt_irrefl 0)
  | more h _ hrun => exact ⟨_, _, _, _, h.iterating hfirst, hrun⟩

/-- What holds at the end of an iteration and is kept by iterations holds at the end of the search. -/
theorem ensures_afterIteration {p : Problem W} {parameters : Parameters W} (hp : p.Valid)
    {J : Explanation W → Prop} (hkeep : ∀ width, Leads p parameters σ width J J)
    (hopened : Opened p width d b aggregates) (hs : s.Holds p J) (remaining done : ℕ) (after : List ℕ) :
    (afterIteration around (setupOf p parameters) width d b begun remaining done after aggregates :
      Run (StateM τ) W σ (Explanation W)).Ensures s (fun e _ => J e) fun _ _ => True := by
  have hreport (lastRecord : Duration) : ({ s with lastRecord } : State W σ).Holds p J :=
    ⟨hs.inside, hs.best⟩
  refine Run.ensures_bind (ensures_report (fun lastRecord => ?_) fun _ _ => trivial)
  refine Run.ensures_bind ((ensures_iterations hp (hkeep width) hopened (hreport lastRecord) begun
    remaining done).mono (fun _ s₁ hs₁ => ?_) fun _ _ _ => trivial)
  apply Run.ensures_bind
  apply Run.ensures_get
  refine Run.ensures_bind (Run.ensures_act fun _ => ?_)
  exact Run.ensures_bind ((ensures_searchWidths hp hkeep hs₁.1 after).mono
    (fun _ s₂ hs₂ => ensures_conclude hs₂.best) fun _ _ _ => trivial)

/-! ## Section 3: What the surroundings keep -/

/-- A part of a search keeps what is true of the surroundings. -/
def Run.Keeps (I : τ → Prop) (x : Run (StateM τ) W σ α) : Prop :=
  ∀ ⦃s s' w w' a⦄, x.runOn s w = ((.ok a, s'), w') → I w → I w'

/-- The surroundings keep what is true of them when they act. -/
structure Surroundings.Keep (around : Surroundings (StateM τ) W) (I : τ → Prop) : Prop where
  clock : ∀ w, I w → I (around.clock.run w).2
  log : ∀ event w, I w → I ((around.log event).run w).2
  record : ∀ record w, I w → I ((around.record record).run w).2

section Keeping

variable {I : τ → Prop} {x : Run (StateM τ) W σ α} {f : α → Run (StateM τ) W σ β}

omit [Random.Source σ] [Weight W]

theorem keeps_pure (a : α) : (pure a : Run (StateM τ) W σ α).Keeps I := by
  intro _ _ _ _ _ hrun hw
  cases hrun
  exact hw

theorem keeps_bind (h : x.Keeps I) (h' : ∀ a, (f a).Keeps I) : (x >>= f).Keeps I := by
  intro _ _ _ _ _ hrun hw
  obtain ⟨a, _, _, hfirst, hsecond⟩ := runOn_bind_eq_ok_iff.1 hrun
  exact h' a hsecond (h hfirst hw)

theorem keeps_get : (get : Run (StateM τ) W σ (State W σ)).Keeps I := by
  intro _ _ _ _ _ hrun hw
  cases hrun
  exact hw

theorem keeps_set (s : State W σ) : (set s : Run (StateM τ) W σ PUnit).Keeps I := by
  intro _ _ _ _ _ hrun hw
  cases hrun
  exact hw

theorem keeps_modify (change : State W σ → State W σ) :
    (modify change : Run (StateM τ) W σ PUnit).Keeps I := by
  intro _ _ _ _ _ hrun hw
  cases hrun
  exact hw

theorem keeps_throw (e : Stop FileError) : (throw e : Run (StateM τ) W σ α).Keeps I :=
  fun _ _ _ _ _ hrun => nomatch hrun

theorem keeps_checked (x : Except Fault α) : (checked x : Run (StateM τ) W σ α).Keeps I := by
  cases x with
  | ok a => exact keeps_pure a
  | error fault => exact keeps_throw (.fault fault)

theorem keeps_act {action : StateM τ α} (h : ∀ w, I w → I (action.run w).2) :
    (act action : Run (StateM τ) W σ α).Keeps I := by
  intro _ _ w _ _ hrun hw
  cases hrun
  exact h w hw

variable [Weight W] [Random.Source σ] (hkeep : around.Keep I)
include hkeep

omit [Weight W] [Random.Source σ] in
theorem keeps_elapsed : (elapsed around : Run (StateM τ) W σ Duration).Keeps I :=
  keeps_bind (keeps_act hkeep.clock) fun _ => keeps_bind keeps_get fun _ => keeps_pure _

omit [Random.Source σ] in
theorem keeps_offer (objective : W) :
    (offer around width objective : Run (StateM τ) W σ Unit).Keeps I := by
  refine keeps_bind keeps_get fun s => ?_
  split
  · exact keeps_bind (keeps_elapsed hkeep) fun _ => keeps_bind (keeps_act (hkeep.log _)) fun _ =>
      keeps_bind (keeps_modify _) fun _ => keeps_modify _
  · exact keeps_pure _

theorem keeps_iterate :
    (iterate around t width d b aggregates : Run (StateM τ) W σ _).Keeps I := by
  refine keeps_bind (keeps_modify _) fun _ => keeps_bind ?_ fun _ => ?_
  · -- the cut changes
    refine keeps_bind keeps_get fun s => keeps_bind (keeps_checked _) fun result => ?_
    refine keeps_bind (keeps_set _) fun _ => keeps_bind (keeps_modify _) fun _ => ?_
    split
    · exact keeps_offer hkeep _
    · exact keeps_pure _
  · -- the components are filled
    refine keeps_bind keeps_get fun s => keeps_bind (keeps_checked _) fun filling => ?_
    refine keeps_bind (keeps_act (hkeep.log _)) fun _ => keeps_bind (keeps_set _) fun _ => ?_
    split
    · exact keeps_bind (keeps_offer hkeep _) fun _ => keeps_pure _
    · exact keeps_bind (keeps_act (hkeep.log _)) fun _ => keeps_bind (keeps_modify _) fun _ =>
        keeps_pure _

omit [Weight W] [Random.Source σ] in
theorem keeps_report : (report around t width : Run (StateM τ) W σ Unit).Keeps I := by
  refine keeps_bind (keeps_elapsed hkeep) fun _ => keeps_bind keeps_get fun s => ?_
  split
  · refine keeps_bind (keeps_act (hkeep.record _)) fun written => ?_
    cases written with
    | ok _ => exact keeps_set _
    | error e => exact keeps_throw _
  · exact keeps_pure _

theorem keeps_iterations (remaining done : ℕ) :
    (iterations around t width d b begun remaining done aggregates : Run (StateM τ) W σ ℕ).Keeps
      I := by
  induction remaining generalizing done aggregates with
  | zero => exact keeps_bind (keeps_act hkeep.clock) fun _ => keeps_pure _
  | succ remaining ih =>
    refine keeps_bind (keeps_act hkeep.clock) fun now => ?_
    split
    · exact keeps_pure _
    · exact keeps_bind (keeps_iterate hkeep) fun _ => keeps_bind (keeps_report hkeep) fun _ => ih _

theorem keeps_round :
    (round around t width d b aggregates : Run (StateM τ) W σ _).Keeps I :=
  keeps_bind (keeps_iterate hkeep) fun _ => keeps_bind (keeps_report hkeep) fun _ => keeps_pure _

theorem keeps_openWidth : (openWidth around t width : Run (StateM τ) W σ _).Keeps I := by
  refine keeps_bind (keeps_checked _) fun d => keeps_bind (keeps_checked _) fun b => ?_
  refine keeps_bind (keeps_act (hkeep.log _)) fun _ => keeps_bind (keeps_modify _) fun _ => ?_
  refine keeps_bind ?_ fun _ => keeps_bind keeps_get fun s => ?_
  · exact keeps_bind keeps_get fun s => keeps_bind (keeps_checked _) fun _ => keeps_set _
  · exact keeps_bind (keeps_checked _) fun _ => keeps_pure _

theorem keeps_searchWidths (widths : List ℕ) :
    (searchWidths around t widths : Run (StateM τ) W σ Unit).Keeps I := by
  induction widths with
  | nil => exact keeps_pure _
  | cons width widths ih =>
    rw [searchWidths, searchWidth_eq]
    refine keeps_bind (keeps_bind (keeps_openWidth hkeep) fun _ => ?_) fun _ => ih
    refine keeps_bind (keeps_act hkeep.clock) fun _ => ?_
    refine keeps_bind (keeps_iterations hkeep _ _) fun _ => ?_
    exact keeps_bind keeps_get fun _ => keeps_act (hkeep.log _)

theorem Rounds.keep (h : Rounds around t width d b begun n first here) (hfirst : I first.world) :
    I here.world := by
  induction h with
  | none here => exact hfirst
  | more _ _ hrun ih => exact keeps_round hkeep hrun (hkeep.clock _ (ih hfirst))

/-- What the surroundings keep is true of them at each point of a search. -/
theorem Arrives.keep (h : Arrives around t width d b begun s w after n here) (hw : I w) :
    I here.world := by
  obtain ⟨hwidths, hbefore, hopen, hbegun, hrounds⟩ := h
  have hopened := keeps_openWidth hkeep hopen
    (keeps_searchWidths hkeep _ hbefore (hkeep.clock w hw))
  exact hrounds.keep hkeep (hkeep.clock _ hopened)

end Keeping

end PairedMarkov.Search
