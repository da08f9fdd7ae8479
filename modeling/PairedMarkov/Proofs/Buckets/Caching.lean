import PairedMarkov.Proofs.Buckets.Aggregates

/-!
# Caching of aggregates

A search does not build its aggregates anew when the assignment has changed, but refreshes those that
it has. Between two refreshes any variables may change, so the aggregates can be those of a state of
affairs long gone. They always are the aggregates of some assignment, though, and a refresh makes them
those of the current one: of the cut they are rebuilt by, nothing else is seen. No law of arithmetic
is used, and scopes may repeat variables.

Main statements:
- `Cached.exists_steps`: changes and refreshes never fail and keep aggregates of some assignment;
- `Cached.exists_refreshed_eq`: after a refresh these are the aggregates of every assignment that
  agrees with the current one on the cut.
-/

namespace PairedMarkov

variable {W : Type} [Weight W]

/-! ## Section 1: Changes and refreshes -/

/-- An assignment with the aggregates that are kept for it. -/
structure Cached (W : Type) where
  assignment : Assignment
  aggregates : List (Aggregate W)

/-- What can be done to an assignment and its aggregates. -/
inductive CacheStep where
  /-- A variable gets another value; the aggregates are left behind. -/
  | change (id value : Nat)
  /-- The aggregates catch up. -/
  | refresh

/-- A change is one to a value of the domain. -/
def CacheStep.InDomain (domains : Domains) : CacheStep → Prop
  | .change id value => id < domains.size ∧ value < domains.sizeAt id
  | .refresh => True

namespace Cached

/-- Takes one step. -/
def step (p : Problem W) (d : Decomposition) (b : Buckets) (c : Cached W) :
    CacheStep → Except Fault (Cached W)
  | .change id value => do return { c with assignment := ← c.assignment.set p.domains id value }
  | .refresh => do
    return { c with aggregates := ← Aggregate.refresh p d b c.assignment c.aggregates }

/-- Takes steps, one after the other. -/
def steps (p : Problem W) (d : Decomposition) (b : Buckets) (c : Cached W) (todo : List CacheStep) :
    Except Fault (Cached W) :=
  todo.foldlM (step p d b) c

/-! ## Section 2: What steps keep -/

/-- The assignment has values inside the domains, and the aggregates are those of some assignment. -/
structure Holds (p : Problem W) (d : Decomposition) (b : Buckets) (c : Cached W) : Prop where
  inside : c.assignment.Inside p.domains
  aggregates : ∃ y, y.Inside p.domains ∧ c.aggregates = Aggregate.mergedFrom p b y 0 d.components

variable {p : Problem W} {d : Decomposition} {b : Buckets} {width : Nat} {c : Cached W}
  {x z : Assignment} (hp : p.Tabulated) (hd : d.Separates width p.domains.size p.scopes)
  (hb : b.Shares p d) (hfits : ∀ scope ∈ d.components, p.Allocates scope)

include hp hd hb hfits

theorem refresh_eq_ok (hc : c.Holds p d b) :
    c.step p d b .refresh =
      .ok ⟨c.assignment, Aggregate.mergedFrom p b c.assignment 0 d.components⟩ := by
  obtain ⟨y, hy, haggregates⟩ := hc.aggregates
  rw [step, haggregates, Aggregate.refresh_eq_ok hp hd hb hc.inside hy hfits]
  rfl

theorem exists_step (hc : c.Holds p d b) {next : CacheStep} (hnext : next.InDomain p.domains) :
    ∃ c', c.step p d b next = .ok c' ∧ c'.Holds p d b := by
  cases next with
  | change id value =>
    refine ⟨{ c with assignment := c.assignment.with id value }, ?_, hc.inside.with hnext.2,
      hc.aggregates⟩
    rw [step, Assignment.set_eq_ok hnext.1 hnext.2]
    rfl
  | refresh => exact ⟨_, refresh_eq_ok hp hd hb hfits hc, hc.inside, _, hc.inside, rfl⟩

/-- Changes and refreshes in any order succeed. -/
theorem exists_steps (hc : c.Holds p d b) {todo : List CacheStep}
    (htodo : ∀ next ∈ todo, next.InDomain p.domains) :
    ∃ c', c.steps p d b todo = .ok c' ∧ c'.Holds p d b :=
  exists_foldlM_eq_ok (fun _ hc next hnext => exists_step hp hd hb hfits hc (htodo next hnext)) hc

omit hp hd hb hfits

/-- **Caching is transparent**: at every width whose tables fit into memory, aggregates that were
built at some assignment can be followed by any changes and refreshes, and right after a refresh they
are the aggregates that would be built at any assignment that agrees with the current one on the
cut. -/
theorem exists_refreshed_eq (hp : p.Tabulated)
    (hsmall : ∀ d, Decomposition.ofProblem p width = .ok d →
      ∀ scope ∈ d.components, scope.capacity p.domains < 2 ^ 58) :
    ∃ d b, Decomposition.ofProblem p width = .ok d ∧ Buckets.ofProblem p d = .ok b ∧
      ∀ x, x.Inside p.domains → ∃ aggregates, Aggregate.ofDecomposition p d b x = .ok aggregates ∧
        ∀ todo : List CacheStep, (∀ next ∈ todo, next.InDomain p.domains) →
          ∃ c : Cached W, Cached.steps p d b ⟨x, aggregates⟩ (todo ++ [.refresh]) = .ok c ∧
            c.assignment.Inside p.domains ∧
            ∀ z, z.Inside p.domains → (∀ v ∈ d.cut, z.valueAt v = c.assignment.valueAt v) →
              Aggregate.ofDecomposition p d b z = .ok c.aggregates := by
  obtain ⟨d, b, hd, hb, hseparates, hshares⟩ := Buckets.exists_decomposed hp.inRange width
  have hfits : ∀ scope ∈ d.components, p.Allocates scope := fun scope hscope =>
    Problem.allocates_of_capacity_lt (hsmall d hd scope hscope)
  have hbuild := fun (z : Assignment) (hz : z.Inside p.domains) =>
    (Aggregate.ofDecomposition_eq_ok_iff hp hseparates hshares hz _).2 ⟨hfits, rfl⟩
  refine ⟨d, b, hd, hb, fun x hx => ⟨_, hbuild x hx, fun todo htodo => ?_⟩⟩
  -- whatever has been done before, the last refresh starts from aggregates of some assignment
  obtain ⟨c, hsteps, hc⟩ := exists_steps hp hseparates hshares hfits
    (c := ⟨x, Aggregate.mergedFrom p b x 0 d.components⟩) ⟨hx, x, hx, rfl⟩ htodo
  refine ⟨⟨c.assignment, Aggregate.mergedFrom p b c.assignment 0 d.components⟩, ?_, hc.inside,
    fun z hz hcut => ?_⟩
  · rw [steps, List.foldlM_append, ← steps, hsteps, ok_bind]
    simp [refresh_eq_ok hp hseparates hshares hfits hc]
  · rw [hbuild z hz, Aggregate.mergedFrom_congr hp hseparates hshares hc.inside hz hcut]

/-- Caching is transparent where a factor repeats a variable: the first variable is the cut, and is
changed after the first refresh as well. -/
theorem exists_star_refreshed :
    let p : Problem (Exact ℤ) :=
      { domains := #[2, 3, 2]
        constraint := ⟨#[⟨[0, 1], #[.number 0, .number 1, .number 2, .number 3, .number 4,
          .number 5]⟩, ⟨[2, 2], #[.number 7, .above, .below, .number 8]⟩]⟩
        objective := ⟨#[⟨[2, 0], #[.number 5, .number 7, .number 9, .number 11]⟩]⟩ }
    let todo : List CacheStep := [.change 0 1, .refresh, .change 1 2, .change 0 0]
    p.Tabulated ∧ ¬ p.Valid ∧ (∀ next ∈ todo, next.InDomain p.domains) ∧
      ∃ d b aggregates, Decomposition.ofProblem p 1 = .ok d ∧ Buckets.ofProblem p d = .ok b ∧
        Aggregate.ofDecomposition p d b #[0, 0, 1] = .ok aggregates ∧
        ∃ c : Cached (Exact ℤ),
          Cached.steps p d b ⟨#[0, 0, 1], aggregates⟩ (todo ++ [.refresh]) = .ok c ∧
            Aggregate.ofDecomposition p d b c.assignment = .ok c.aggregates := by
  intro p todo
  have hp : p.Tabulated := by decide
  have hnot : ¬ p.Valid := by decide
  have hx : Assignment.Inside p.domains #[0, 0, 1] := Assignment.inside_iff.2 (by decide)
  have htodo : ∀ next ∈ todo, next.InDomain p.domains := by
    simp [todo, p, CacheStep.InDomain, Domains.sizeAt]
  have hsmall : ((Decomposition.ofProblem p 1).toOption.all fun d =>
      d.components.all fun scope => decide (scope.capacity p.domains < 2 ^ 58)) = true := by
    decide +kernel
  obtain ⟨d, b, hd, hb, hrefreshed⟩ :=
    exists_refreshed_eq hp fun d hd => by simpa using of_all_toOption hsmall hd
  obtain ⟨aggregates, haggregates, hsteps⟩ := hrefreshed _ hx
  obtain ⟨c, hc, hinside, heq⟩ := hsteps todo htodo
  exact ⟨hp, hnot, htodo, d, b, aggregates, hd, hb, haggregates, c, hc,
    heq c.assignment hinside fun _ _ => rfl⟩

end Cached

end PairedMarkov
