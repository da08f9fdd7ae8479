import PairedMarkov.Proofs.Search.Invariants
import PairedMarkov.Proofs.Uai.Loading

/-!
# Safety of the search

Nothing that the search promises itself depends on what weights are: values stay inside domains,
positions inside arrays, and sums and products inside words also where a score is infinite or not a
number. So over doubles, too, a search of a problem from files ends with an answer, unless a record is
refused, provided that the tables and items of its widths fit into memory.

What a search changes is its state; the problem is not a part of it. Changes of an assignment are
tried on copies, so the values that a search works with are those of the states that it visits and
what becomes of them by giving variables other values.

Main statements:
- `Search.Visited.inside`: all states that a search visits have values inside the domains;
- `Search.ensures_search_answer`: nothing but a refused record keeps a search from answering;
- `Search.search_safe`: both hold of every problem that is loaded from files.
-/

namespace PairedMarkov.Search

variable {τ σ W : Type} [Random.Source σ] [Weight W]

/-! ## Section 1: Visited states -/

/-- The states that a search visits: those between two widths, those after a width has been opened,
after a cut has changed, after an iteration and after its report, and the last one, each of them also
if the search stops there. -/
inductive Visited {W : Type} [Weight W] (around : Surroundings (StateM τ) W) (t : Setup W) :
    State W σ → Prop
  | reached {s : State W σ} (h : Reached around t s) : Visited around t s
  | opened {s s' : State W σ} {w w' : τ}
    {result : Except (Stop FileError) (Decomposition × Buckets × List (Aggregate W))}
    (h : Reached around t s) (width : Nat)
    (hrun : (openWidth around t width).runOn s w = ((result, s'), w')) : Visited around t s'
  | changed {s s' : State W σ} {w w' : τ} {width : Nat} {d : Decomposition} {b : Buckets}
    {aggregates : List (Aggregate W)} {result : Except (Stop FileError) Unit}
    (h : Iterating around t width d b aggregates s) (statistics : Statistics)
    (hrun : (iterateCut around t width d).runOn { s with statistics } w = ((result, s'), w')) :
    Visited around t s'
  | iterated {s s' : State W σ} {w w' : τ} {width : Nat} {d : Decomposition} {b : Buckets}
    {aggregates : List (Aggregate W)} {result : Except (Stop FileError) (List (Aggregate W))}
    (h : Iterating around t width d b aggregates s)
    (hrun : (iterate around t width d b aggregates).runOn s w = ((result, s'), w')) :
    Visited around t s'
  | reported {s s' : State W σ} {w w' : τ} {width : Nat} {d : Decomposition} {b : Buckets}
    {aggregates : List (Aggregate W)} {result : Except (Stop FileError) (List (Aggregate W))}
    (h : Iterating around t width d b aggregates s)
    (hrun : (round around t width d b aggregates).runOn s w = ((result, s'), w')) :
    Visited around t s'
  | answered {s s' : State W σ} {w w' : τ} {result : Except (Stop FileError) (Explanation W)}
    (h : Reached around t s) (hrun : (search around t).runOn s w = ((result, s'), w')) :
    Visited around t s'

variable {p : Problem W} {parameters : Parameters W} {around : Surroundings (StateM τ) W}
  {s : State W σ}

theorem Reached.inside (hp : p.Valid) (h : Reached around (setupOf p parameters) s) :
    s.assignment.Inside p.domains :=
  (h.holds hp (leads_trivial p parameters) trivial).inside

/-- **All visited states** have values inside the domains. -/
theorem Visited.inside (hp : p.Valid) (h : Visited around (setupOf p parameters) s) :
    s.assignment.Inside p.domains := by
  have hkeep := leads_trivial (σ := σ) p parameters
  cases h with
  | reached h => exact h.inside hp
  | opened h width hrun =>
    exact ((ensures_openWidth hp (h.inside hp)).mono (fun _ _ h => h.2.2.1)
      fun _ _ h => h.1).of_run hrun
  | @changed before _ _ _ _ _ _ _ _ h statistics hrun =>
    -- in the middle of an iteration, where the components are still filled for the old cut
    obtain ⟨hopened, hs⟩ := h.holds hp hkeep trivial
    obtain ⟨result, hresult, hchanged⟩ :=
      exists_changeCut parameters.threshold hp hs.inside hopened.separates.cut_lt before.source
    exact (ensures_iterateCut (t := setupOf p parameters) (s := { before with statistics }) hresult
      fun s' hx _ _ _ => hx ▸ hchanged.differs.inside).of_run hrun
  | iterated h hrun =>
    obtain ⟨hopened, hs⟩ := h.holds hp hkeep trivial
    exact ((ensures_iterate_inside hp hopened hs.inside).mono (fun _ _ h => h.2.1)
      fun _ _ h => h.2.1).of_run hrun
  | reported h hrun =>
    obtain ⟨hopened, hs⟩ := h.holds hp hkeep trivial
    exact ((ensures_round hp (hkeep _) (fun _ => id) hopened hs).mono (fun _ _ h => h.1.2.inside)
      fun _ _ h => h.2.inside).of_run hrun
  | answered h hrun =>
    exact ((ensures_search hp hkeep ⟨h.inside hp, trivial⟩).mono (fun _ _ h => h.2.inside)
      fun _ _ h => h.2.inside).of_run hrun

/-- The assignments that arise in a search: those of visited states, and what becomes of them when
variables are given other values. -/
inductive Arises (σ : Type) [Random.Source σ] {W : Type} [Weight W]
    (around : Surroundings (StateM τ) W) (t : Setup W) : Assignment → Prop
  | visited {s : State W σ} (h : Visited around t s) : Arises σ around t s.assignment
  | set {x y : Assignment} (h : Arises σ around t x) (id value : Nat)
    (hset : x.set t.problem.domains id value = .ok y) : Arises σ around t y

theorem Arises.inside (hp : p.Valid) {x : Assignment}
    (h : Arises σ around (setupOf p parameters) x) : x.Inside p.domains := by
  induction h with
  | visited h => exact h.inside hp
  | set _ id value hset ih => exact ih.of_set hset

/-! ## Section 2: Answers -/

omit [Weight W] in
/-- There is room for the widths of a search below `2 ^ 60`. -/
theorem Parameters.widths_eq_ok (hmax : parameters.maxWidth < 2 ^ 60) :
    parameters.widths = .ok parameters.oddWidths := by
  have hroom : widthBytes * ((parameters.maxWidth + 1) / 2) < memoryLimit := by
    simp only [widthBytes, memoryLimit, wordLimit, UInt64.size]
    omega
  rw [widths, allocate, if_pos hroom]
  rfl

/-- **Nothing but a refused record** keeps a search from answering. -/
theorem ensures_search_answer (hp : p.Valid) (hmax : parameters.maxWidth < 2 ^ 60)
    (hsmall : ∀ width ∈ parameters.oddWidths, ¬ TooLarge p width)
    (hs : s.assignment.Inside p.domains) :
    (search around (setupOf p parameters) : Run (StateM τ) W σ (Explanation W)).Ensures s
      (fun _ _ => True) fun e _ => ∃ reason, e = .error reason ∧ around.Refuses reason := by
  refine (ensures_search hp (leads_trivial p parameters) ⟨hs, trivial⟩).mono
    (fun _ _ _ => trivial) ?_
  rintro e s' ⟨hstopped | ⟨fault, hwidths, -⟩, -⟩
  · exact hstopped.exists_refuses hsmall
  · rw [Parameters.widths_eq_ok hmax] at hwidths
    cases hwidths

/-! ## Section 3: Problems from files -/

/-- **Safety of the search**: a problem that is loaded from files can be searched, and if at each
width every component has fewer than `2 ^ 58` joint values, then no search from a state that searching
can come to meets a fault, over doubles and whatever the threshold, the source of randomness, the
efforts and the surroundings are. It answers unless a record is refused, and every assignment that
arises on the way has values inside the domains. The problem stays what was loaded. -/
theorem search_safe {τ' : Type} {read : String → StateM τ' (Except FileError String)}
    {constraint objective : String} {files files' : τ'} {p : Problem LogWeight}
    (hload : (Uai.loadProblem read constraint objective).run.run files = (.ok p, files'))
    {parameters : Parameters LogWeight} (hmax : parameters.maxWidth < 2 ^ 60)
    (htables : ∀ width ∈ parameters.oddWidths, ∀ d, Decomposition.ofProblem p width = .ok d →
      ∀ scope ∈ d.components, scope.capacity p.domains < tableLimit)
    (around : Surroundings (StateM τ) LogWeight) :
    ∃ t, Setup.ofProblem p parameters = .ok t ∧ t.problem = p ∧
      (∀ s : State LogWeight σ, Reached around t s → ∀ w,
        (∃ e s' w', (search around t).runOn s w = ((.ok e, s'), w')) ∨
        ∃ reason s' w', (search around t).runOn s w = ((.error (.error reason), s'), w') ∧
          around.Refuses reason) ∧
      ∀ x, Arises σ around t x → x.Inside p.domains := by
  have hp : p.Valid := Uai.loads_loadProblem constraint objective files p files' hload
  have hsmall : ∀ width ∈ parameters.oddWidths, ¬ TooLarge p width := fun width hwidth =>
    not_tooLarge (htables width hwidth)
  refine ⟨setupOf p parameters, Setup.ofProblem_eq_ok hp parameters, rfl, fun s hs w => ?_,
    fun x hx => hx.inside hp⟩
  rcases (ensures_search_answer hp hmax hsmall (hs.inside hp)).exists_end w with
    ⟨e, s', w', hrun, -⟩ | ⟨_, s', w', hrun, reason, rfl, hrefuses⟩
  · exact .inl ⟨e, s', w', hrun⟩
  · exact .inr ⟨reason, s', w', hrun, hrefuses⟩

/-- Safety for two variables that a factor of the constraint network joins. -/
theorem search_pair_safe :
    let read : String → StateM Unit (Except FileError String) := fun path => pure (.ok
      (if path = "c.uai" then "MARKOV 2 2 3 1 2 0 1 6 1 2 3 4 5 6" else "MARKOV 2 2 3 1 1 1 3 1 4 2"))
    let parameters : Parameters LogWeight :=
      { maxWidth := 3, threshold := .ofFloat 1.5, maxIterations := some 2 }
    let around : Surroundings (StateM Unit) LogWeight :=
      ⟨pure 0, fun _ => pure (), fun _ => pure (.ok ()), fun _ => pure ()⟩
    ∃ p t, (Uai.loadProblem read "c.uai" "o.uai").run.run () = (.ok p, ()) ∧
      p.domains = #[2, 3] ∧ Setup.ofProblem p parameters = .ok t ∧
      (∃ e s', (search around t).runOn (State.start p.domains (⟨3, 5⟩ : Random.Progression)) () =
        ((.ok e, s'), ())) ∧
      ∀ x, Arises Random.Progression around t x → x.Inside #[2, 3] := by
  intro read parameters around
  -- no logarithm is computed here, so of the problem only its domains are known
  have hdomains : ((Uai.loadProblem read "c.uai" "o.uai").run.run ()).1.toOption.map
      Problem.domains = some #[2, 3] := by decide +kernel
  rcases hload : (Uai.loadProblem read "c.uai" "o.uai").run.run () with ⟨_ | p, _⟩
  · rw [hload] at hdomains
    cases hdomains
  rw [hload] at hdomains
  have hdomains : p.domains = #[2, 3] := by simpa [Except.toOption] using hdomains
  have hp : p.Valid := Uai.loads_loadProblem _ _ _ _ _ hload
  have htables : ∀ width ∈ parameters.oddWidths, ∀ d, Decomposition.ofProblem p width = .ok d →
      ∀ scope ∈ d.components, scope.capacity p.domains < tableLimit := by
    intro width _ d hd scope hscope
    -- no component has more joint values than both variables together
    have hle := (Decomposition.separates_of_ofProblem hp.inRange hd).capacity_le hp.positive hscope
    rw [hdomains] at hle ⊢
    exact hle.trans_lt (by decide)
  obtain ⟨t, ht, hsame, hsearch, hinside⟩ := search_safe (σ := Random.Progression) hload (by decide)
    htables around
  rcases hsearch (State.start p.domains (⟨3, 5⟩ : Random.Progression)) (hsame ▸ .start _) () with
    ⟨e, s', _, hrun⟩ | ⟨reason, _, _, _, record, w, hrefuses⟩
  · exact ⟨p, t, rfl, hdomains, ht, ⟨e, s', hrun⟩, hdomains ▸ hinside⟩
  · cases hrefuses

end PairedMarkov.Search
