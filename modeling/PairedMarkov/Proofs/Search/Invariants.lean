import PairedMarkov.Proofs.Search.Cut
import PairedMarkov.Proofs.Search.Filling
import PairedMarkov.Proofs.Search.Steps

/-!
# Invariants of a search

Between two steps of a search all variables have values inside their domains, and the best assignment
so far only changes by what iterations offer. So a property of the best assignment holds throughout a
search as soon as iterations keep it, and only a component that is too large or a refused record can
stop a search at a width.

Main statements:
- `Search.ensures_iterate_inside`: an iteration at an opened width fails only if the items of some
  component do not fit into memory, whatever the weights;
- `Search.ensures_searchWidth`: one width keeps a property that iterations keep, and has another one
  if iterations bring it about and there was one;
- `Search.ensures_search`, `Search.Reached.holds`: so do whole searches.
-/

namespace PairedMarkov.Search

variable {τ σ W : Type} [Random.Source σ] [Weight W]

/-! ## Section 1: Opened widths -/

/-- The search of a problem. -/
def setupOf {W : Type} (p : Problem W) (parameters : Parameters W) : Setup W :=
  ⟨terrainOf p parameters.threshold, parameters⟩

omit [Weight W] in
theorem Setup.ofProblem_eq_ok {p : Problem W} (hp : p.Valid) (parameters : Parameters W) :
    Setup.ofProblem p parameters = .ok (setupOf p parameters) := by
  rw [ofProblem, Terrain.ofProblem_eq_ok hp]
  rfl

/-- What a search at one width works with: the separating decomposition with its buckets, and
aggregates of some assignment. -/
structure Opened (p : Problem W) (width : Nat) (d : Decomposition) (b : Buckets)
    (aggregates : List (Aggregate W)) : Prop where
  ofProblem : Decomposition.ofProblem p width = .ok d
  separates : d.Separates width p.domains.size p.scopes
  shares : b.Shares p d
  fits : ∀ scope ∈ d.components, p.Allocates scope
  aggregates : ∃ y, y.Inside p.domains ∧ aggregates = Aggregate.mergedFrom p b y 0 d.components

/-- At a width the items of some component do not fit into memory; then their tables need not fit
either. -/
def TooLarge (p : Problem W) (width : Nat) : Prop :=
  ∃ d, Decomposition.ofProblem p width = .ok d ∧ ∃ scope ∈ d.components, ¬ AllocatesItems p scope

variable {p : Problem W} {parameters : Parameters W} {around : Surroundings (StateM τ) W}
  {width : Nat} {d : Decomposition} {b : Buckets} {aggregates : List (Aggregate W)}
  {s s' : State W σ} {result : CutChange W × Assignment × σ} {f : Filling W σ}
  {stop : Stop FileError → State W σ → Prop}

/-- **One iteration** at an opened width stays inside the domains. It only fails for items that do
not fit into memory, and then the cut has already changed. -/
theorem ensures_iterate_inside (hp : p.Valid) (hopened : Opened p width d b aggregates)
    (hs : s.assignment.Inside p.domains) :
    (iterate around (setupOf p parameters) width d b aggregates :
      Run (StateM τ) W σ (List (Aggregate W))).Ensures s
      (fun aggregates' s' => Opened p width d b aggregates' ∧ s'.assignment.Inside p.domains ∧
        ∃ result f, aggregates' = f.aggregates ∧
          Iterated (setupOf p parameters) d b aggregates s result f s' ∧
          Changed p parameters.threshold d.cut s.assignment result)
      (fun e s' => (TooLarge p width ∧ ∃ fault, e = .fault fault) ∧
        s'.assignment.Inside p.domains ∧ ∃ result : CutChange W × Assignment × σ,
          Changed p parameters.threshold d.cut s.assignment result ∧
          UpdatesWith result.2.1 (result.1.reaches? parameters.threshold) s.best s'.best) := by
  obtain ⟨hof, hd, hb, hfits, y, hy, rfl⟩ := hopened
  obtain ⟨result, hresult, hchanged⟩ :=
    exists_changeCut parameters.threshold hp hs hd.cut_lt s.source
  have hx := hchanged.differs.inside
  have hexists := fun hitems => exists_fill hp.tabulated hd hb hx hy hitems parameters.threshold
    parameters.effort result.2.2
  cases hfill : fill p parameters.threshold parameters.effort d b
      (Aggregate.mergedFrom p b y 0 d.components) result.2.1 result.2.2 with
  | ok f =>
    obtain ⟨_, hsame, haggregates, hinside⟩ :=
      hexists (allocatesItems_of_fill hp.tabulated hd hb hx hy hfits hfill)
    obtain rfl := Except.ok.inj (hfill.symm.trans hsame)
    refine (ensures_iterate (t := setupOf p parameters) hresult hfill).mono ?_ fun _ _ h => h
    rintro _ s' ⟨rfl, hiterated⟩
    exact ⟨⟨hof, hd, hb, hfits, _, hx, haggregates⟩, hiterated.assignment ▸ hinside, result, f,
      rfl, hiterated, hchanged⟩
  | error fault =>
    refine (ensures_iterate_of_error (t := setupOf p parameters) hresult hfill).mono
      (fun _ _ h => h) ?_
    rintro _ s' ⟨rfl, hassignment, hoffer⟩
    refine ⟨⟨⟨d, hof, ?_⟩, fault, rfl⟩, hassignment ▸ hx, result, hchanged, hoffer⟩
    -- with room for all items the filling would have succeeded
    by_contra! hitems
    obtain ⟨f, hf, -⟩ := hexists hitems
    exact absurd (hf.symm.trans hfill) (by simp)

omit [Weight W] in
/-- All variables get values of their domains. -/
private theorem ensures_scatter {t : Setup W} (ht : t.problem = p)
    (hs : s.assignment.Inside p.domains) {post : Unit → State W σ → Prop}
    (hpost : ∀ (x : Assignment) source, x.Inside p.domains → post () (s.place x source)) :
    (scatter t : Run (StateM τ) W σ Unit).Ensures s post stop := by
  subst ht
  obtain ⟨result, hresult, hdiffers⟩ :=
    exists_randomizeAll hs (fun id hid => List.mem_range.1 hid) s.source
  apply Run.ensures_bind
  apply Run.ensures_get
  apply Run.ensures_bind
  apply Run.ensures_passed hresult
  exact Run.ensures_set (hpost _ _ hdiffers.inside)

/-- **A width can be opened** unless a table does not fit into memory. This is no iteration, and the
best assignment stays. -/
theorem ensures_openWidth (hp : p.Valid) (hs : s.assignment.Inside p.domains) :
    (openWidth around (setupOf p parameters) width :
      Run (StateM τ) W σ (Decomposition × Buckets × List (Aggregate W))).Ensures s
      (fun result s' => Buckets.ofProblem p result.1 = .ok result.2.1 ∧
        Opened p width result.1 result.2.1 result.2.2 ∧ s'.assignment.Inside p.domains ∧
        s'.best = s.best ∧ s'.statistics.iterations = s.statistics.iterations)
      (fun e s' => s'.assignment.Inside p.domains ∧ s'.best = s.best ∧ TooLarge p width ∧
        ∃ fault, e = .fault fault) := by
  obtain ⟨d, b, hd, hb, hseparates, hshares⟩ := Buckets.exists_decomposed hp.inRange width
  -- neither the decomposition nor its buckets can fail
  apply Run.ensures_bind
  apply Run.ensures_passed hd
  apply Run.ensures_bind
  apply Run.ensures_passed hb
  apply Run.ensures_bind
  apply Run.ensures_act
  intro _
  apply Run.ensures_bind
  apply Run.ensures_count
  refine Run.ensures_bind (ensures_scatter rfl (by exact hs) fun x source hx => ?_)
  apply Run.ensures_bind
  apply Run.ensures_get
  have hiff := fun aggregates =>
    Aggregate.ofDecomposition_eq_ok_iff hp.tabulated hseparates hshares hx aggregates
  refine Run.ensures_bind (Run.ensures_checked (fun aggregates haggregates => ?_) fun e he => ?_)
  · obtain ⟨hfits, hmerged⟩ := (hiff aggregates).1 haggregates
    exact Run.ensures_pure
      ⟨hb, ⟨hd, hseparates, hshares, hfits, x, hx, hmerged⟩, hx, rfl, rfl⟩
  · -- nothing but a table that is too large stops the width
    refine ⟨hx, rfl, ⟨d, hd, ?_⟩, e, rfl⟩
    by_contra! hitems
    have hfits := fun scope hscope => (hitems scope hscope).allocates
    exact absurd (((hiff _).2 ⟨hfits, rfl⟩).symm.trans he) (by simp)

/-- The number of joint values of a component below which its tables and items surely have a place in
memory. -/
def tableLimit : Nat := 2 ^ 58

omit [Weight W] in
theorem not_tooLarge
    (hsmall : ∀ d, Decomposition.ofProblem p width = .ok d →
      ∀ scope ∈ d.components, scope.capacity p.domains < tableLimit) : ¬ TooLarge p width := by
  rintro ⟨d, hd, scope, hscope, hlarge⟩
  exact hlarge (allocatesItems_of_capacity_lt (hsmall d hd scope hscope))

/-! ## Section 2: What iterations keep -/

/-- The values of all variables lie in their domains, and the best assignment so far has a
property. -/
structure State.Holds (p : Problem W) (J : Explanation W → Prop) (s : State W σ) : Prop where
  inside : s.assignment.Inside p.domains
  best : J s.best

/-- Iterations at a width lead from best assignments with one property to those with another, and
the offer for a changed cut alone keeps the first property. -/
structure Leads (p : Problem W) (parameters : Parameters W) (σ : Type) [Random.Source σ]
    (width : Nat) (J J' : Explanation W → Prop) : Prop where
  changed : ∀ {d b aggregates} {s : State W σ} {result : CutChange W × Assignment × σ} {best},
    Opened p width d b aggregates → s.Holds p J →
    Changed p parameters.threshold d.cut s.assignment result →
    UpdatesWith result.2.1 (result.1.reaches? parameters.threshold) s.best best → J best
  iterated : ∀ {d b aggregates} {s s' : State W σ} {result f}, Opened p width d b aggregates →
    s.Holds p J → Changed p parameters.threshold d.cut s.assignment result →
    Iterated (setupOf p parameters) d b aggregates s result f s' → J' s'.best

/-- Iterations keep what holds of everything. -/
theorem leads_trivial (p : Problem W) (parameters : Parameters W) (width : Nat) :
    Leads p parameters σ width (fun _ => True) fun _ => True :=
  ⟨fun _ _ _ _ => trivial, fun _ _ _ _ => trivial⟩

/-- Why searching at a width can stop. -/
inductive Stopped (around : Surroundings (StateM τ) W) (p : Problem W) (widths : List Nat) :
    Stop FileError → Prop
  | tooLarge {width : Nat} (hwidth : width ∈ widths) (h : TooLarge p width) (fault : Fault) :
    Stopped around p widths (.fault fault)
  | refused {e : FileError} (h : around.Refuses e) : Stopped around p widths (.error e)

omit [Weight W] in
theorem Stopped.mono {widths widths' : List Nat} {e : Stop FileError}
    (h : Stopped around p widths e) (hsub : widths ⊆ widths') : Stopped around p widths' e := by
  cases h with
  | tooLarge hwidth h fault => exact .tooLarge (hsub hwidth) h fault
  | refused h => exact .refused h

omit [Weight W] in
/-- If all tables fit into memory, nothing but a refused record stops a search. -/
theorem Stopped.exists_refuses {widths : List Nat} {e : Stop FileError}
    (h : Stopped around p widths e) (hsmall : ∀ width ∈ widths, ¬ TooLarge p width) :
    ∃ reason, e = .error reason ∧ around.Refuses reason := by
  cases h with
  | tooLarge hwidth hlarge _ => exact absurd hlarge (hsmall _ hwidth)
  | refused hrefuses => exact ⟨_, rfl, hrefuses⟩

variable {J J' : Explanation W → Prop}

/-- A round leads where iterations do, also if its report fails. -/
theorem ensures_round (hp : p.Valid) (hlead : Leads p parameters σ width J J')
    (himp : ∀ e, J' e → J e) (hopened : Opened p width d b aggregates) (hs : s.Holds p J) :
    (round around (setupOf p parameters) width d b aggregates :
      Run (StateM τ) W σ (List (Aggregate W))).Ensures s
      (fun aggregates' s' => (Opened p width d b aggregates' ∧ s'.Holds p J') ∧
        s'.statistics.iterations = s.statistics.iterations + 1)
      (fun e s' => Stopped around p [width] e ∧ s'.Holds p J) := by
  refine Run.ensures_bind ((ensures_iterate_inside hp hopened hs.inside).mono ?_ ?_)
  · rintro aggregates' s' ⟨hopened', hinside, result, f, -, hiterated, hchanged⟩
    have hs' : s'.Holds p J' := ⟨hinside, hlead.iterated hopened hs hchanged hiterated⟩
    refine Run.ensures_bind (ensures_report (fun _ => ?_) fun e he =>
      ⟨.refused he, hs'.inside, himp _ hs'.best⟩)
    exact Run.ensures_pure ⟨⟨hopened', hs'.inside, hs'.best⟩, hiterated.iterations⟩
  · -- the changed cut has been offered, but nothing has been filled
    rintro _ s' ⟨⟨hlarge, fault, rfl⟩, hinside, result, hchanged, hoffer⟩
    exact ⟨.tooLarge (List.mem_singleton_self width) hlarge fault, hinside,
      hlead.changed hopened hs hchanged hoffer⟩

/-- So do any number of rounds. -/
theorem ensures_iterations (hp : p.Valid) (hkeep : Leads p parameters σ width J J)
    (hopened : Opened p width d b aggregates) (hs : s.Holds p J) (begun : Duration)
    (remaining done : Nat) :
    (iterations around (setupOf p parameters) width d b begun remaining done aggregates :
      Run (StateM τ) W σ Nat).Ensures s
      (fun _ s' => s'.Holds p J ∧ s.statistics.iterations ≤ s'.statistics.iterations)
      (fun e s' => Stopped around p [width] e ∧ s'.Holds p J) := by
  -- the aggregates of one round are the old ones of the next, and may be those of any assignment
  induction remaining generalizing s done aggregates with
  | zero =>
    apply Run.ensures_bind
    apply Run.ensures_act
    exact fun _ => Run.ensures_pure ⟨hs, le_rfl⟩
  | succ remaining ih =>
    rw [iterations_succ_eq]
    apply Run.ensures_bind
    apply Run.ensures_act
    intro now
    split
    · exact Run.ensures_pure ⟨hs, le_rfl⟩
    · refine Run.ensures_bind ((ensures_round hp hkeep (fun _ => id) hopened hs).mono ?_
        fun _ _ h => h)
      rintro aggregates' s' ⟨⟨hopened', hs'⟩, hcount⟩
      refine (ih hopened' hs' _).mono (fun _ _ h => ⟨h.1, ?_⟩) fun _ _ h => h
      have := h.2
      omega

/-! ## Section 3: Widths -/

/-- A search that gives time and iterations to each of its widths. -/
structure Patient (around : Surroundings (StateM τ) W) (t : Setup W) : Prop where
  cap : 0 < t.parameters.iterationCap
  clock : ∀ w w' : τ, (around.clock.run w').1 - (around.clock.run w).1 < t.parameters.timePerWidth

/-- **One width** either has an iteration, and then it brings about what its iterations bring about
and keep, or it has none, for lack of patience. -/
theorem ensures_searchWidth (hp : p.Valid) (hlead : Leads p parameters σ width J J')
    (hkeep : Leads p parameters σ width J' J') (himp : ∀ e, J' e → J e) (hs : s.Holds p J) :
    (searchWidth around (setupOf p parameters) width : Run (StateM τ) W σ Unit).Ensures s
      (fun _ s' => s.statistics.iterations < s'.statistics.iterations ∧ s'.Holds p J' ∨
        s'.statistics.iterations = s.statistics.iterations ∧ s'.Holds p J ∧
          ¬ Patient around (setupOf p parameters))
      (fun e s' => Stopped around p [width] e ∧ s'.Holds p J) := by
  have hweaken : ∀ s' : State W σ, s'.Holds p J' → s'.Holds p J := fun s' h =>
    ⟨h.inside, himp _ h.best⟩
  rw [searchWidth_eq]
  refine Run.ensures_bind ((ensures_openWidth hp hs.inside).mono ?_ ?_)
  · rintro ⟨d, b, aggregates⟩ s₁ ⟨-, hopened, hinside, hbest, hcount⟩
    have hs₁ : s₁.Holds p J := ⟨hinside, hbest ▸ hs.best⟩
    apply Run.ensures_bind
    apply Run.ensures_answer
    intro w
    -- the width ends with a message, which changes nothing
    suffices (iterations around (setupOf p parameters) width d b (around.clock.run w).1
        (setupOf p parameters).parameters.iterationCap 0 aggregates :
        Run (StateM τ) W σ Nat).Ensures s₁
        (fun _ s' => s.statistics.iterations < s'.statistics.iterations ∧ s'.Holds p J' ∨
          s'.statistics.iterations = s.statistics.iterations ∧ s'.Holds p J ∧
            ¬ Patient around (setupOf p parameters))
        (fun e s' => Stopped around p [width] e ∧ s'.Holds p J) from
      Run.ensures_bind (this.mono (fun _ _ h =>
        Run.ensures_bind (Run.ensures_get (Run.ensures_act fun _ => h))) fun _ _ h => h)
    cases hcap : (setupOf p parameters).parameters.iterationCap with
    | zero =>
      apply Run.ensures_bind
      apply Run.ensures_act
      exact fun _ => Run.ensures_pure (.inr ⟨hcount, hs₁, fun h => h.cap.ne' hcap⟩)
    | succ remaining =>
      rw [iterations_succ_eq]
      apply Run.ensures_bind
      apply Run.ensures_answer
      intro w'
      split
      · rename_i hover
        exact Run.ensures_pure (.inr ⟨hcount, hs₁, fun h => absurd hover (h.clock w w').not_ge⟩)
      · -- the first round brings about what all later ones keep
        refine Run.ensures_bind ((ensures_round hp hlead himp hopened hs₁).mono ?_
          fun _ _ h => h)
        rintro aggregates' s₂ ⟨⟨hopened', hs₂⟩, hcount'⟩
        refine (ensures_iterations hp hkeep hopened' hs₂ _ _ _).mono
          (fun _ _ h => .inl ⟨?_, h.1⟩) fun _ _ h => ⟨h.1, hweaken _ h.2⟩
        have := h.2
        omega
  · rintro _ s₁ ⟨hinside, hbest, hlarge, fault, rfl⟩
    exact ⟨.tooLarge (List.mem_singleton_self width) hlarge fault, hinside, hbest ▸ hs.best⟩

theorem ensures_searchWidth_holds (hp : p.Valid) (hkeep : Leads p parameters σ width J J)
    (hs : s.Holds p J) :
    (searchWidth around (setupOf p parameters) width : Run (StateM τ) W σ Unit).Ensures s
      (fun _ s' => s'.Holds p J) (fun e s' => Stopped around p [width] e ∧ s'.Holds p J) :=
  (ensures_searchWidth hp hkeep hkeep (fun _ => id) hs).mono
    (fun _ _ h => h.elim (fun h => h.2) fun h => h.2.1) fun _ _ h => h

theorem ensures_searchWidths (hp : p.Valid) (hkeep : ∀ width, Leads p parameters σ width J J)
    (hs : s.Holds p J) (widths : List Nat) :
    (searchWidths around (setupOf p parameters) widths : Run (StateM τ) W σ Unit).Ensures s
      (fun _ s' => s'.Holds p J) (fun e s' => Stopped around p widths e ∧ s'.Holds p J) := by
  induction widths generalizing s with
  | nil => exact Run.ensures_pure hs
  | cons width widths ih =>
    refine Run.ensures_bind ((ensures_searchWidth_holds hp (hkeep width) hs).mono
      (fun _ s' hs' => ?_) fun e s' h => ⟨h.1.mono (by simp), h.2⟩)
    exact (ih hs').mono (fun _ _ h => h) fun e s' h => ⟨h.1.mono (by simp), h.2⟩

/-! ## Section 4: Searches -/

omit [Weight W] in
theorem Parameters.eq_oddWidths_of_widths {widths : List Nat}
    (h : parameters.widths = .ok widths) : widths = parameters.oddWidths := by
  obtain ⟨_, -, hodd⟩ := bind_eq_ok_iff.1 h
  exact (pure_eq_ok_iff.1 hodd).symm

/-- A search keeps what iterations keep, and answers with the best assignment so far. It needs room
for the list of its widths. -/
theorem ensures_search (hp : p.Valid) (hkeep : ∀ width, Leads p parameters σ width J J)
    (hs : s.Holds p J) :
    (search around (setupOf p parameters) : Run (StateM τ) W σ (Explanation W)).Ensures s
      (fun e s' => J e ∧ s'.Holds p J)
      (fun e s' => (Stopped around p parameters.oddWidths e ∨
        ∃ fault, parameters.widths = .error fault ∧ e = .fault fault) ∧ s'.Holds p J) := by
  apply Run.ensures_bind
  apply Run.ensures_act
  intro now
  apply Run.ensures_bind
  apply Run.ensures_modify
  have hs₁ : (s.begin now).Holds p J := ⟨hs.inside, hs.best⟩
  -- the list of the widths is made before the first of them begins
  refine Run.ensures_bind (Run.ensures_checked (fun widths hwidths => ?_)
    fun fault hfault => ⟨.inr ⟨fault, hfault, rfl⟩, hs₁⟩)
  rw [Parameters.eq_oddWidths_of_widths hwidths]
  exact Run.ensures_bind ((ensures_searchWidths hp hkeep hs₁ _).mono
    (fun _ _ hs₂ => ensures_conclude ⟨hs₂.best, hs₂⟩) fun _ _ h => ⟨.inl h.1, h.2⟩)

/-- The states that searching can come to between two widths, whatever the surroundings answer: the
state before the first search, the begin of a search, and the end of a width, also if it stops. -/
inductive Reached {W : Type} [Weight W] (around : Surroundings (StateM τ) W) (t : Setup W) :
    State W σ → Prop
  | start (source : σ) : Reached around t (State.start t.problem.domains source)
  | begin {s : State W σ} (h : Reached around t s) (now : Duration) :
    Reached around t { s with started := now, lastRecord := 0 }
  | width {s s' : State W σ} {w w' : τ} {result : Except (Stop FileError) Unit}
    (h : Reached around t s) (width : Nat)
    (hrun : (searchWidth around t width).runOn s w = ((result, s'), w')) : Reached around t s'

/-- The states and aggregates with which an iteration can begin at a width: those of the opened
width, and those after another round. -/
inductive Iterating {W : Type} [Weight W] (around : Surroundings (StateM τ) W) (t : Setup W)
    (width : Nat) (d : Decomposition) (b : Buckets) : List (Aggregate W) → State W σ → Prop
  | opened {s s' : State W σ} {w w' : τ} {aggregates : List (Aggregate W)} (h : Reached around t s)
    (hrun : (openWidth around t width).runOn s w = ((.ok (d, b, aggregates), s'), w')) :
    Iterating around t width d b aggregates s'
  | again {s s' : State W σ} {w w' : τ} {aggregates aggregates' : List (Aggregate W)}
    (h : Iterating around t width d b aggregates s)
    (hrun : (round around t width d b aggregates).runOn s w = ((.ok aggregates', s'), w')) :
    Iterating around t width d b aggregates' s'

/-- What holds without an assignment and is kept by iterations holds wherever a search comes to. -/
theorem Reached.holds (hp : p.Valid) (hkeep : ∀ width, Leads p parameters σ width J J)
    (hnone : J Explanation.none) (h : Reached around (setupOf p parameters) s) : s.Holds p J := by
  induction h with
  | start source => exact ⟨Assignment.inside_first hp.positive, hnone⟩
  | begin _ now ih => exact ⟨ih.inside, ih.best⟩
  | width _ width hrun ih =>
    exact ((ensures_searchWidth_holds hp (hkeep width) ih).mono (fun _ _ h => h)
      fun _ _ h => h.2).of_run hrun

theorem Iterating.holds (hp : p.Valid) (hkeep : ∀ width, Leads p parameters σ width J J)
    (hnone : J Explanation.none)
    (h : Iterating around (setupOf p parameters) width d b aggregates s) :
    Opened p width d b aggregates ∧ s.Holds p J := by
  induction h with
  | opened h hrun =>
    have hs := h.holds hp hkeep hnone
    obtain ⟨-, hopened, hinside, hbest, -⟩ := (ensures_openWidth hp hs.inside).of_run_eq hrun
    exact ⟨hopened, hinside, hbest ▸ hs.best⟩
  | again _ hrun ih =>
    exact ((ensures_round hp (hkeep width) (fun _ => id) ih.1 ih.2).of_run_eq hrun).1

/-- A width at which everything fits into memory can be opened. -/
theorem exists_openWidth (around : Surroundings (StateM τ) W) (hp : p.Valid)
    (hd : Decomposition.ofProblem p width = .ok d) (hsmall : ¬ TooLarge p width) (hs : s.Holds p J)
    (w : τ) :
    ∃ b aggregates s' w', Buckets.ofProblem p d = .ok b ∧
      (openWidth around (setupOf p parameters) width).runOn s w =
        ((.ok (d, b, aggregates), s'), w') := by
  have hensures : (openWidth around (setupOf p parameters) width).Ensures s
      (fun result _ => Decomposition.ofProblem p width = .ok result.1 ∧
        Buckets.ofProblem p result.1 = .ok result.2.1) fun _ _ => False :=
    (ensures_openWidth hp hs.inside).mono (fun _ _ h => ⟨h.2.1.ofProblem, h.1⟩)
      fun _ _ h => hsmall h.2.2.1
  obtain ⟨⟨d', b, aggregates⟩, s', w', hrun, hd', hb⟩ := hensures.exists_run w
  rw [hd, Except.ok.injEq] at hd'
  subst hd'
  exact ⟨b, aggregates, s', w', hb, hrun⟩

end PairedMarkov.Search
