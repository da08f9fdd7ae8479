import PairedMarkov.Proofs.Knapsack.Greedy
import PairedMarkov.Proofs.Search.Soundness

/-!
# Exactness on small components

At a width that no connected component exceeds nothing is cut, and the components are filled with
joint values of all variables. If there is only one component, or if the threshold leaves every choice
open, then the knapsack is solved to the optimum by the first pass over its bins. So the first
iteration at such a width finds the best assignment under the threshold, and no later one, nor the end
of the search, gives it away again.

Main statements:
- `Search.objective_le_of_fill`: where choices mix, filling is optimal for its cut;
- `Search.dominates_of_iterated`: an iteration without a cut reaches the optimum;
- `Search.search_exact`: a search with such an iteration answers with the optimum.
-/

namespace PairedMarkov

/-- If everything is connected and nothing is cut, there is at most one component. -/
theorem Decomposition.Separates.length_components_le_one {d : Decomposition} {width count : Nat}
    {scopes : List Scope} (hd : d.Separates width count scopes) (hcut : d.cut = [])
    (hconnected : ∀ u < count, ∀ v < count, (interaction scopes []).Reachable u v) :
    d.components.length ≤ 1 := by
  by_contra! hmany
  have hmem : ∀ c (hc : c < d.components.length), ∃ u ∈ d.components[c], u < count := by
    intro c hc
    obtain ⟨u, hu⟩ := List.exists_mem_of_ne_nil _ (hd.nonempty _ (List.getElem_mem hc))
    refine ⟨u, hu, List.mem_range.1 (hd.partition.mem_iff.1 ?_)⟩
    exact List.mem_append_right _ (List.mem_flatten.2 ⟨_, List.getElem_mem hc, hu⟩)
  obtain ⟨u, hu, hlt⟩ := hmem 0 (by omega)
  obtain ⟨v, hv, hlt'⟩ := hmem 1 hmany
  -- a variable of the second component would be one of the first component, too
  have hreach : v ∈ d.components[0] := by
    rw [hd.connected _ (List.getElem_mem _) u hu, hcut]
    exact hconnected u hlt v hlt'
  have hfirst := (hd.componentOf_eq_some v hlt' 0).2 ⟨_, List.getElem?_eq_getElem _, hreach⟩
  have hsecond := (hd.componentOf_eq_some v hlt' 1).2 ⟨_, List.getElem?_eq_getElem _, hv⟩
  rw [hfirst] at hsecond
  simp at hsecond

/-- No connected component exceeds the number of variables. -/
theorem encard_reachable_le {scopes : List Scope} {count u : Nat}
    (hscopes : ∀ scope ∈ scopes, ∀ id ∈ scope, id < count) (hu : u < count) :
    {v | (interaction scopes []).Reachable u v}.encard ≤ count := by
  have hsub : {v | (interaction scopes []).Reachable u v} ⊆ (Finset.range count : Set Nat) := by
    intro v hv
    obtain ⟨walk⟩ := SimpleGraph.Reachable.symm hv
    cases walk with
    | nil => simpa using hu
    | cons hadj _ =>
      -- a variable that has been reached is in some scope
      obtain ⟨-, -, -, scope, hscope, hmem, -⟩ := hadj
      simpa using hscopes scope hscope v hmem
  have hle := Set.encard_le_encard hsub
  rwa [Set.encard_coe_eq_coe_finsetCard, Finset.card_range] at hle

namespace Search

variable {τ σ R : Type} [Random.Source σ] [Ring R] [LinearOrder R] [IsStrictOrderedRing R]
  {p : Problem (Exact R)} {threshold : Exact R} {d : Decomposition} {b : Buckets} {width : Nat}
  {x y z : Assignment}

/-! ## Section 1: Optimal fillings -/

section Fillings

variable (hp : p.Tabulated) (hn : p.Numeric) (hd : d.Separates width p.domains.size p.scopes)
  (hb : b.Shares p d) (hx : x.Inside p.domains)

include hp hn hd hb hx

omit [Random.Source σ] in
/-- If no assignment exceeds the threshold, no choice exceeds the budget. -/
theorem mixes_of_forall_le (hall : ∀ z, z.Inside p.domains → p.total .constraint z ≤ threshold)
    {k : Knapsack (Exact R)} (hk : Knapsack.ofBins (componentBins p b x d) = .ok k) :
    k.Mixes (budgetOf p threshold b x) := by
  refine Knapsack.mixes_of_forall fun chosen hchosen => ?_
  have hnumber := hn.partialTotal .constraint x (b.share .constraint).overflow
  rw [budgetOf, Exact.le_sub_number_iff hnumber, ← (total_taking hp hd hb hx hk hchosen).1]
  exact hall _ (inside_taking hx k chosen)

/-- **Where choices mix, filling is optimal** among the assignments that agree on the cut. -/
theorem objective_le_of_fill (hfits : ∀ scope ∈ d.components, p.Allocates scope)
    (hy : y.Inside p.domains) {effort : Effort} {source : σ} {f : Filling (Exact R) σ}
    (hfill : fill p threshold effort d b (Aggregate.mergedFrom p b y 0 d.components) x source =
      .ok f)
    (hmix : ∀ k, Knapsack.ofBins (componentBins p b x d) = .ok k →
      k.Mixes (budgetOf p threshold b x))
    (hz : z.Inside p.domains) (hcut : ∀ v ∈ d.cut, z.valueAt v = x.valueAt v)
    (hunder : p.total .constraint z ≤ threshold) :
    f.solution.isFeasible = true ∧ p.total .objective z ≤ f.objective := by
  obtain ⟨k, result, hk, hanswer, rfl⟩ := exists_answer_of_fill hp hn hd hb hx hfits hy hfill
  have hsize := size_componentBins hk
  have hoverflow := overflow_congr hp hd hb hcut
  -- what `z` takes from the components is within the budget
  have hcost : ∑ c ∈ Finset.range k.bins.size, (takenItem p d b z c).cost ≤
      budgetOf p threshold b x := by
    rw [budgetOf, Exact.le_sub_number_iff (hn.partialTotal ..), hsize, add_comm, ← hoverflow]
    exact (Problem.total_eq_overflow_add hb .constraint z).symm.trans_le hunder
  have hprofit := Knapsack.sum_profit_le_of_answers hk (takenItem_mem hp hd hb hx hz hcut)
    (valid_ofComponentBins hn hk) (hmix k hk) hcost hanswer
  constructor
  · -- the profit is above a number, so it is not the lowest weight
    have hnumber : (∑ c ∈ Finset.range k.bins.size, (takenItem p d b z c).profit).IsNumber :=
      Finset.sum_induction _ Exact.IsNumber (fun _ _ hv hw => hv.add hw) Exact.isNumber_zero
        fun c _ => hn.partialTotal ..
    exact Solution.isFeasible_iff.2 (hnumber.below_lt.trans_le hprofit).ne'
  · rw [Problem.total_eq_overflow_add hb, hoverflow, add_comm, ← hsize]
    exact add_le_add_left hprofit _

end Fillings

/-! ## Section 2: Iterations without a cut -/

/-- No assignment under the threshold has a larger objective score. -/
def Explanation.Dominates (p : Problem (Exact R)) (threshold : Exact R)
    (e : Explanation (Exact R)) : Prop :=
  ∀ z, z.Inside p.domains → p.total .constraint z ≤ threshold →
    p.total .objective z ≤ e.objective

omit [IsStrictOrderedRing R] in
/-- After an offer the best assignment is no worse than before, and no worse than what is offered. -/
theorem UpdatesWith.le {objective? : Option (Exact R)} {best best' : Explanation (Exact R)}
    (h : UpdatesWith x objective? best best') :
    best.objective ≤ best'.objective ∧
      ∀ objective, objective? = some objective → objective ≤ best'.objective := by
  cases objective? with
  | none =>
    rw [show best' = best from h]
    exact ⟨le_rfl, by simp⟩
  | some objective =>
    cases h with
    | kept hworse => exact ⟨le_rfl, by rintro _ ⟨rfl⟩; exact le_of_not_gt hworse⟩
    | replaced hbetter foundAt width => exact ⟨hbetter.le, by rintro _ ⟨rfl⟩; exact le_rfl⟩

variable {around : Surroundings (StateM τ) (Exact R)} {parameters : Parameters (Exact R)}
  {s s' : State (Exact R) σ}

omit [IsStrictOrderedRing R] in
/-- Iterations never give the optimum away. -/
theorem leads_dominates (p : Problem (Exact R)) (parameters : Parameters (Exact R)) (width : Nat) :
    Leads p parameters σ width (Explanation.Dominates p parameters.threshold)
      (Explanation.Dominates p parameters.threshold) where
  changed _ hs _ hoffer z hz hunder := (hs.best z hz hunder).trans hoffer.le.1
  iterated _ hs _ hiterated z hz hunder := by
    obtain ⟨best, hfirst, hsecond⟩ := hiterated.best
    exact (hs.best z hz hunder).trans (hfirst.le.1.trans hsecond.le.1)

/-- A threshold that does not make components compete: there is only one, or no assignment exceeds
it. -/
def Uncontested (p : Problem (Exact R)) (threshold : Exact R) : Prop :=
  (∀ u < p.domains.size, ∀ v < p.domains.size, (interaction p.scopes []).Reachable u v) ∨
    ∀ z, z.Inside p.domains → p.Under threshold z

/-- **An iteration without a cut** reaches the optimum. -/
theorem dominates_of_iterated (hp : p.Valid) (hn : p.Numeric)
    (hsmall : ∀ u < p.domains.size,
      {v | (interaction p.scopes []).Reachable u v}.encard ≤ width)
    (hfree : Uncontested p parameters.threshold) {b : Buckets}
    {aggregates : List (Aggregate (Exact R))} {result : CutChange (Exact R) × Assignment × σ}
    {f : Filling (Exact R) σ} (hopened : Opened p width d b aggregates)
    (hchanged : Changed p parameters.threshold d.cut s.assignment result)
    (hiterated : Iterated (setupOf p parameters) d b aggregates s result f s') :
    s'.best.Dominates p parameters.threshold := by
  intro z hz hunder
  obtain ⟨-, hd, hb, hfits, y, hy, rfl⟩ := hopened
  have hcut := hd.cut_eq_nil_iff.2 hsmall
  have hx := hchanged.differs.inside
  have hmix : ∀ k, Knapsack.ofBins (componentBins p b result.2.1 d) = .ok k →
      k.Mixes (budgetOf p parameters.threshold b result.2.1) := by
    intro k hk
    rcases hfree with hconnected | hall
    · refine Knapsack.mixes_of_size_le_one ?_
      rw [size_componentBins hk]
      exact hd.length_components_le_one hcut hconnected
    · exact mixes_of_forall_le hp.tabulated hn hd hb hx
        (fun z hz => (Problem.under_iff hp hz).1 (hall z hz)) hk
  obtain ⟨hfeasible, hle⟩ := objective_le_of_fill hp.tabulated hn hd hb hx hfits hy hiterated.fill
    hmix hz (by simp [hcut]) hunder
  -- the filling is offered, and the best assignment is no worse than that
  obtain ⟨best, -, hsecond⟩ := hiterated.best
  exact hle.trans (hsecond.le.2 f.objective (if_pos hfeasible))

/-- The best assignment is sound, and nothing is better. -/
structure Explanation.Settled (p : Problem (Exact R)) (threshold : Exact R)
    (e : Explanation (Exact R)) : Prop where
  sound : e.Sound p threshold
  dominates : e.Dominates p threshold

theorem keeps_settled (hp : p.Valid) (hn : p.Numeric) (parameters : Parameters (Exact R))
    (width : Nat) : Leads p parameters σ width (Explanation.Settled p parameters.threshold)
      (Explanation.Settled p parameters.threshold) := by
  have hsound := leads_sound (σ := σ) hp hn parameters width
  have hdominates := leads_dominates (σ := σ) p parameters width
  constructor
  · intro d b aggregates s result best hopened hs hchanged hoffer
    exact ⟨hsound.changed hopened ⟨hs.inside, hs.best.sound⟩ hchanged hoffer,
      hdominates.changed hopened ⟨hs.inside, hs.best.dominates⟩ hchanged hoffer⟩
  · intro d b aggregates s s' result f hopened hs hchanged hiterated
    exact ⟨hsound.iterated hopened ⟨hs.inside, hs.best.sound⟩ hchanged hiterated,
      hdominates.iterated hopened ⟨hs.inside, hs.best.dominates⟩ hchanged hiterated⟩

/-! ## Section 3: Searches -/

/-- The answer of a search is optimal: it has the largest objective score of all assignments under
the threshold, with an assignment that has it, and no assignment exactly if none is under the
threshold. -/
structure Explanation.Optimal (p : Problem (Exact R)) (threshold : Exact R)
    (e : Explanation (Exact R)) : Prop where
  none_iff : e.assignment = .none ↔ ¬ ∃ z, z.Inside p.domains ∧ p.Under threshold z
  attained : ∀ x, e.assignment = some x →
    x.Inside p.domains ∧ p.Under threshold x ∧ p.score .objective x = .ok e.objective
  isGreatest : e.assignment ≠ .none → IsGreatest
    {score | ∃ z, z.Inside p.domains ∧ p.Under threshold z ∧ p.score .objective z = .ok score}
    e.objective
  lowest : e.assignment = .none → e.objective = Weight.lowest

omit [IsStrictOrderedRing R] in
theorem Explanation.Settled.optimal {e : Explanation (Exact R)} (hp : p.Valid) (hn : p.Numeric)
    (h : e.Settled p threshold) : e.Optimal p threshold := by
  obtain ⟨hsound, hdominates⟩ := h
  unfold Explanation.Sound at hsound
  cases hassignment : e.assignment with
  | none =>
    rw [hassignment] at hsound
    refine ⟨?_, by simp [hassignment], by simp [hassignment], fun _ => hsound⟩
    simp only [hassignment, true_iff]
    -- the score of an assignment under the threshold would be below the lowest weight
    rintro ⟨z, hz, hunder⟩
    have hle := hdominates z hz ((Problem.under_iff hp hz).1 hunder)
    rw [show e.objective = Exact.below from hsound] at hle
    exact absurd hle (not_le_of_gt (hn.total .objective z).below_lt)
  | some x =>
    rw [hassignment] at hsound
    obtain ⟨hx, hconstraint, hobjective⟩ := hsound
    have hunder := (Problem.under_iff hp hx).2 hconstraint
    have hscore : p.score .objective x = .ok e.objective := by
      rw [Problem.score_eq_ok hp hx, hobjective]
    refine ⟨?_, ?_, fun _ => ⟨⟨x, hx, hunder, hscore⟩, ?_⟩, by simp [hassignment]⟩
    · simp only [hassignment, reduceCtorEq, false_iff, not_not]
      exact ⟨x, hx, hunder⟩
    · intro y hy
      obtain rfl := Option.some.inj (hassignment.symm.trans hy)
      exact ⟨hx, hunder, hscore⟩
    · rintro score ⟨z, hz, hzunder, hzscore⟩
      rw [Problem.score_eq_ok hp hz, Except.ok.injEq] at hzscore
      exact hzscore ▸ hdominates z hz ((Problem.under_iff hp hz).1 hzunder)

/-- A search from a state comes to a width and has an iteration there. -/
def Iterates {W : Type} [Weight W] (around : Surroundings (StateM τ) W) (t : Setup W)
    (width : Nat) (s : State W σ) (w : τ) : Prop :=
  ∃ before after s' w', t.parameters.widths = .ok (before ++ width :: after) ∧
    (searchWidths around t before).runOn (s.begin (around.clock.run w).1) (around.clock.run w).2 =
      ((.ok (), s'), w') ∧
    s'.statistics.iterations <
      ((searchWidth around t width).runOn s' w').1.2.statistics.iterations

/-- With patience, memory and a place for records a search has an iteration at each of its widths. -/
theorem iterates_of_patient {W : Type} [Weight W] {p : Problem W} {parameters : Parameters W}
    {around : Surroundings (StateM τ) W} {s : State W σ} (hp : p.Valid)
    (hpatient : Patient around (setupOf p parameters))
    (hwidths : parameters.widths = .ok parameters.oddWidths)
    (htables : ∀ width ∈ parameters.oddWidths, ¬ TooLarge p width)
    (haccepts : ∀ reason, ¬ around.Refuses reason) (hs : s.assignment.Inside p.domains) (w : τ) :
    ∀ width ∈ parameters.oddWidths, Iterates around (setupOf p parameters) width s w := by
  intro width hwidth
  obtain ⟨before, after, hsplit⟩ := List.append_of_mem hwidth
  -- there is room for every width and for every record, so nothing stops
  have hnever : ∀ {widths e}, widths ⊆ parameters.oddWidths → ¬ Stopped around p widths e := by
    intro widths e hsub hstopped
    obtain ⟨reason, -, hrefuses⟩ := hstopped.exists_refuses fun width h => htables width (hsub h)
    exact haccepts reason hrefuses
  have hkeep := leads_trivial (σ := σ) p parameters
  have hbegun : (s.begin (around.clock.run w).1).Holds p fun _ => True := ⟨hs, trivial⟩
  rcases (ensures_searchWidths hp hkeep hbegun before).exists_end (around.clock.run w).2 with
    ⟨_, s₁, w₁, hbefore, hs₁⟩ | ⟨_, _, _, _, hstopped, -⟩
  · refine ⟨before, after, s₁, w₁, hsplit ▸ hwidths, hbefore, ?_⟩
    rcases (ensures_searchWidth hp (hkeep width) (hkeep width) (fun _ => id) hs₁).exists_end w₁ with
      ⟨_, s₂, w₂, hrun, ⟨hmore, -⟩ | ⟨-, -, hnot⟩⟩ | ⟨_, _, _, _, hstopped, -⟩
    · rw [hrun]
      exact hmore
    · exact absurd hpatient hnot
    · exact absurd hstopped (hnever (by simpa using hwidth))
  · exact absurd hstopped (hnever fun width h => by simp [hsplit, h])

/-- **Exactness on small components**: if a search has an iteration at a width that no connected
component exceeds, and if there is only one component or no assignment exceeds the threshold, then the
search answers with the optimum. Only a refused record can keep it from answering. -/
theorem search_exact (hp : p.Valid) (hn : p.Numeric) {t : Setup (Exact R)}
    (ht : Setup.ofProblem p parameters = .ok t)
    (htables : ∀ width ∈ parameters.oddWidths, ∀ d, Decomposition.ofProblem p width = .ok d →
      ∀ scope ∈ d.components, scope.capacity p.domains < tableLimit)
    (hs : Reached around t s) {w : τ} (hiterates : Iterates around t width s w)
    (hsmall : ∀ u < p.domains.size,
      {v | (interaction p.scopes []).Reachable u v}.encard ≤ width)
    (hfree : Uncontested p parameters.threshold) :
    (∃ e s' w', (search around t).runOn s w = ((.ok e, s'), w') ∧
      e.Optimal p parameters.threshold) ∨
    ∃ reason s' w', (search around t).runOn s w = ((.error (.error reason), s'), w') ∧
      around.Refuses reason := by
  rw [Setup.ofProblem_eq_ok hp, Except.ok.injEq] at ht
  subst ht
  obtain ⟨before, after, s₁, w₁, hwidths, hbefore, hmore⟩ := hiterates
  have hodd : before ++ width :: after = parameters.oddWidths :=
    Parameters.eq_oddWidths_of_widths hwidths
  have hrefused : ∀ {widths e}, widths ⊆ parameters.oddWidths → Stopped around p widths e →
      ∃ reason, e = .error reason ∧ around.Refuses reason := fun hsub h =>
    h.exists_refuses fun width hwidth => not_tooLarge (htables width (hsub hwidth))
  -- until the width comes the best assignment is sound, and from its first iteration on optimal
  have hbegun : (s.begin (around.clock.run w).1).Holds p
      (Explanation.Sound p parameters.threshold) :=
    ⟨(hs.sound hp hn).inside, (hs.sound hp hn).best⟩
  have hs₁ := (ensures_searchWidths hp (leads_sound hp hn parameters) hbegun before).of_run_eq
    hbefore
  have hlead : Leads p parameters σ width (Explanation.Sound p parameters.threshold)
      (Explanation.Settled p parameters.threshold) :=
    ⟨(leads_sound hp hn parameters width).changed, fun hopened hs hchanged hiterated =>
      ⟨(leads_sound hp hn parameters width).iterated hopened hs hchanged hiterated,
        dominates_of_iterated hp hn hsmall hfree hopened hchanged hiterated⟩⟩
  have hkeep := keeps_settled (σ := σ) hp hn parameters
  rw [runOn_search hwidths hbefore, searchWidths, bind_assoc]
  rcases (ensures_searchWidth hp hlead (hkeep width) (fun _ h => h.sound) hs₁).exists_end w₁ with
    ⟨_, s₂, w₂, hrun, ⟨-, hs₂⟩ | ⟨hsame, -⟩⟩ | ⟨e, s₂, w₂, hrun, hstopped, -⟩
  · rw [Run.runOn_bind_of_ok hrun]
    have hrest : (do
        searchWidths around (setupOf p parameters) after
        conclude around : Run (StateM τ) (Exact R) σ (Explanation (Exact R))).Ensures s₂
        (fun e _ => e.Settled p parameters.threshold) fun e _ => Stopped around p after e :=
      Run.ensures_bind ((ensures_searchWidths hp hkeep hs₂ after).mono
        (fun _ _ h => ensures_conclude h.best) fun _ _ h => h.1)
    rcases hrest.exists_end w₂ with ⟨e, s₃, w₃, hrun, he⟩ | ⟨e, s₃, w₃, hrun, hstopped⟩
    · exact .inl ⟨e, s₃, w₃, hrun, he.optimal hp hn⟩
    · obtain ⟨reason, rfl, hrefuses⟩ := hrefused (fun _ h => by simp [← hodd, h]) hstopped
      exact .inr ⟨reason, s₃, w₃, hrun, hrefuses⟩
  · -- but there has been an iteration
    rw [hrun] at hmore
    exact absurd hsame hmore.ne'
  · rw [Run.runOn_bind_of_error hrun]
    obtain ⟨reason, rfl, hrefuses⟩ := hrefused (by simp [← hodd]) hstopped
    exact .inr ⟨reason, s₂, w₂, rfl, hrefuses⟩

/-- Exactness for two variables that one factor joins, under a threshold that forbids the largest
objective score: width one cuts a variable, and width three is exact. -/
theorem search_pair_exact :
    let p : Problem (Exact ℤ) :=
      { domains := #[2, 3]
        constraint := ⟨#[⟨[0, 1], #[.number 0, .number 4, .number 2, .number 1, .number 3,
          .number 5]⟩]⟩
        objective := ⟨#[⟨[0], #[.number 0, .number 2]⟩, ⟨[1], #[.number 0, .number 5, .number 7]⟩]⟩ }
    let parameters : Parameters (Exact ℤ) :=
      { maxWidth := 3, threshold := .number 2, maxIterations := some 1 }
    let around : Surroundings (StateM Unit) (Exact ℤ) :=
      ⟨pure 0, fun _ => pure (), fun _ => pure (.ok ()), fun _ => pure ()⟩
    let s : State (Exact ℤ) Random.Progression := State.start p.domains ⟨3, 5⟩
    p.Valid ∧ p.Numeric ∧ Uncontested p (.number 2) ∧
      Iterates around (setupOf p parameters) 3 s () ∧
      ∃ e s', (search around (setupOf p parameters)).runOn s () = ((.ok e, s'), ()) ∧
        e.Optimal p (.number 2) := by
  intro p parameters around s
  have hp : p.Valid := by decide
  have hn : p.Numeric := by decide
  have htables : ∀ width ∈ parameters.oddWidths, ∀ d, Decomposition.ofProblem p width = .ok d →
      ∀ scope ∈ d.components, scope.capacity p.domains < tableLimit := by
    intro width _ d hd scope hscope
    have hle := (Decomposition.separates_of_ofProblem hp.inRange hd).capacity_le hp.positive hscope
    exact hle.trans_lt (by decide)
  have haccepts : ∀ reason, ¬ around.Refuses reason := by
    rintro reason ⟨record, w, hrefuses⟩
    cases hrefuses
  have hpatient : Patient around (setupOf p parameters) := ⟨by decide, fun _ _ => by
    show 0 - 0 < Duration.ofSeconds 1200
    decide⟩
  have hiterates : Iterates around (setupOf p parameters) 3 s () :=
    iterates_of_patient hp hpatient (by decide)
      (fun width hwidth => not_tooLarge (htables width hwidth)) haccepts
      (Assignment.inside_first hp.positive) () 3 (by decide)
  have hsmall : ∀ u < p.domains.size,
      {v | (interaction p.scopes []).Reachable u v}.encard ≤ (3 : Nat) := fun u hu =>
    (encard_reachable_le hp.inRange hu).trans (by decide)
  have hjoined : (interaction p.scopes []).Adj 0 1 := by
    refine ⟨by decide, by simp, by simp, [0, 1], ?_, by simp, by simp⟩
    decide
  have hfree : Uncontested p parameters.threshold := by
    left
    intro u hu v hv
    have hu : u = 0 ∨ u = 1 := by simp [p] at hu; omega
    have hv : v = 0 ∨ v = 1 := by simp [p] at hv; omega
    rcases hu with rfl | rfl <;> rcases hv with rfl | rfl
    · rfl
    · exact hjoined.reachable
    · exact hjoined.reachable.symm
    · rfl
  rcases search_exact hp hn (Setup.ofProblem_eq_ok hp parameters) htables (.start _) hiterates hsmall
    hfree with ⟨e, s', _, hrun, he⟩ | ⟨reason, _, _, _, hrefuses⟩
  · exact ⟨hp, hn, hfree, hiterates, e, s', hrun, he⟩
  · exact absurd hrefuses (haccepts reason)

end Search

end PairedMarkov
