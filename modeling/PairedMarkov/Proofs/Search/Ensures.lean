import PairedMarkov.Proofs.Checked
import PairedMarkov.Search.Run

/-!
# What a part of a search ensures

A part of a search changes the state of the search, may stop, and acts on its surroundings. Of the
surroundings nothing is known: they are any state of their own, and whatever a clock, a log or a
place for records answers from it is possible. A part of a search *ensures* something in a state if
it holds of every way in which the part can end.

Main statements: one rule for each of the ways in which parts of a search are put together, and
`Run.Ensures.of_run_eq`, what is ensured holds of each run.
-/

namespace PairedMarkov.Search

variable {τ W σ α β : Type}

namespace Run

/-! ## Section 1: Runs -/

/-- A run from a state of the search and a state of the surroundings. -/
def runOn (x : Run (StateM τ) W σ α) (s : State W σ) (w : τ) :
    (Except (Stop FileError) α × State W σ) × τ :=
  (x.run.run s).run w

/-- From the given state a part of a search gives a result with `post`, or stops with `stop`. -/
def Ensures (x : Run (StateM τ) W σ α) (s : State W σ) (post : α → State W σ → Prop)
    (stop : Stop FileError → State W σ → Prop) : Prop :=
  ∀ w, match (x.runOn s w).1 with
    | (.ok a, s') => post a s'
    | (.error e, s') => stop e s'

variable {x : Run (StateM τ) W σ α} {f : α → Run (StateM τ) W σ β} {s s' : State W σ} {a : α}
  {post : α → State W σ → Prop} {next : β → State W σ → Prop}
  {stop : Stop FileError → State W σ → Prop}

theorem Ensures.of_run_eq (h : x.Ensures s post stop) {w w' : τ}
    (hrun : x.runOn s w = ((.ok a, s'), w')) : post a s' := by
  have := h w
  rwa [hrun] at this

/-- What is ensured of every end holds of the state after each run. -/
theorem Ensures.of_run {inv : State W σ → Prop} (h : x.Ensures s (fun _ => inv) fun _ => inv)
    {w w' : τ} {result : Except (Stop FileError) α} (hrun : x.runOn s w = ((result, s'), w')) :
    inv s' := by
  have := h w
  rw [hrun] at this
  cases result with
  | ok a => exact this
  | error e => exact this

/-- A part of a search gives a result or stops, with what is ensured of either. -/
theorem Ensures.exists_end (h : x.Ensures s post stop) (w : τ) :
    (∃ a s' w', x.runOn s w = ((.ok a, s'), w') ∧ post a s') ∨
      ∃ e s' w', x.runOn s w = ((.error e, s'), w') ∧ stop e s' := by
  have := h w
  rcases hrun : x.runOn s w with ⟨⟨result, s'⟩, w'⟩
  rw [hrun] at this
  cases result with
  | ok a => exact .inl ⟨a, s', w', rfl, this⟩
  | error e => exact .inr ⟨e, s', w', rfl, this⟩

/-- A part of a search that cannot stop gives a result. -/
theorem Ensures.exists_run (h : x.Ensures s post fun _ _ => False) (w : τ) :
    ∃ a s' w', x.runOn s w = ((.ok a, s'), w') ∧ post a s' :=
  (h.exists_end w).resolve_right fun ⟨_, _, _, _, hstop⟩ => hstop

theorem Ensures.mono {post' : α → State W σ → Prop} {stop' : Stop FileError → State W σ → Prop}
    (h : x.Ensures s post stop) (hpost : ∀ a s', post a s' → post' a s')
    (hstop : ∀ e s', stop e s' → stop' e s') : x.Ensures s post' stop' := by
  intro w
  have hw := h w
  revert hw
  rcases x.runOn s w with ⟨⟨result, s'⟩, w'⟩
  cases result with
  | ok a => exact hpost a s'
  | error e => exact hstop e s'

/-! ## Section 2: Rules -/

theorem ensures_pure (h : post a s) : (pure a : Run (StateM τ) W σ α).Ensures s post stop :=
  fun _ => h

theorem runOn_bind (x : Run (StateM τ) W σ α) (f : α → Run (StateM τ) W σ β) (s : State W σ)
    (w : τ) : (x >>= f).runOn s w = match x.runOn s w with
      | ((.ok a, s'), w') => (f a).runOn s' w'
      | ((.error e, s'), w') => ((.error e, s'), w') := by
  simp only [runOn, ExceptT.run_bind, StateT.run_bind]
  show (match StateT.run (StateT.run (ExceptT.run x) s) w with | (r, w') => _) = _
  rcases StateT.run (StateT.run (ExceptT.run x) s) w with ⟨⟨result, s'⟩, w'⟩
  cases result <;> rfl

theorem runOn_bind_of_ok {w w' : τ} (hrun : x.runOn s w = ((.ok a, s'), w'))
    (f : α → Run (StateM τ) W σ β) : (x >>= f).runOn s w = (f a).runOn s' w' := by
  rw [runOn_bind, hrun]

theorem runOn_bind_of_error {w w' : τ} {e : Stop FileError}
    (hrun : x.runOn s w = ((.error e, s'), w')) (f : α → Run (StateM τ) W σ β) :
    (x >>= f).runOn s w = ((.error e, s'), w') := by
  rw [runOn_bind, hrun]

/-- A sequence: the second part starts where the first one ends. -/
theorem ensures_bind (h : x.Ensures s (fun a s' => (f a).Ensures s' next stop) stop) :
    (x >>= f).Ensures s next stop := by
  intro w
  have hw := h w
  rw [runOn_bind]
  revert hw
  rcases x.runOn s w with ⟨⟨result, s'⟩, w'⟩
  cases result with
  | ok a => exact fun hf => hf w'
  | error e => exact id

theorem ensures_get {post : State W σ → State W σ → Prop} (h : post s s) :
    (get : Run (StateM τ) W σ (State W σ)).Ensures s post stop := fun _ => h

theorem ensures_set {post : PUnit → State W σ → Prop} (h : post ⟨⟩ s') :
    (set s' : Run (StateM τ) W σ PUnit).Ensures s post stop := fun _ => h

theorem ensures_modify {post : PUnit → State W σ → Prop} {change : State W σ → State W σ}
    (h : post ⟨⟩ (change s)) : (modify change : Run (StateM τ) W σ PUnit).Ensures s post stop :=
  fun _ => h

theorem ensures_count {post : Unit → State W σ → Prop} {change : Statistics → Statistics}
    (h : post () { s with statistics := change s.statistics }) :
    (count change : Run (StateM τ) W σ Unit).Ensures s post stop := fun _ => h

theorem ensures_throw {e : Stop FileError} (h : stop e s) :
    (throw e : Run (StateM τ) W σ α).Ensures s post stop := fun _ => h

/-- The surroundings answer as their own state has it, and leave the search alone. -/
theorem ensures_answer {action : StateM τ α} (h : ∀ w, post (action.run w).1 s) :
    (act action : Run (StateM τ) W σ α).Ensures s post stop := h

theorem ensures_act {action : StateM τ α} (h : ∀ a, post a s) :
    (act action : Run (StateM τ) W σ α).Ensures s post stop :=
  ensures_answer fun _ => h _

/-- A check that passes. -/
theorem ensures_passed {x : Except Fault α} (hx : x = .ok a) (h : post a s) :
    (checked x : Run (StateM τ) W σ α).Ensures s post stop := by
  subst hx
  exact fun _ => h

theorem ensures_checked {x : Except Fault α} (hok : ∀ a, x = .ok a → post a s)
    (herror : ∀ e, x = .error e → stop (.fault e) s) :
    (checked x : Run (StateM τ) W σ α).Ensures s post stop := by
  intro w
  cases hx : x with
  | ok a => exact hok a hx
  | error e => exact herror e hx

end Run

end PairedMarkov.Search
