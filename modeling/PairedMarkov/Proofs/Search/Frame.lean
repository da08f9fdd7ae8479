import PairedMarkov.Proofs.Search.InPlace
import PairedMarkov.Proofs.Search.Invariants
import PairedMarkov.Search.Journal

/-!
# What an iteration leaves alone

An iteration tries many values: every move of the cut, and every joint value of the components whose
aggregates change. None of them is left behind. At the end of an iteration the cut has the values that
the change of the cut gave it, the components have the joint values that the knapsack chose for them,
and what was computed on the way is what would be computed from the assignment at the end.

All this holds for weights of any kind, of which nothing is assumed.

Main statements:
- `Search.cutFrame_of_changeCut`: what a change of the cut does to the assignment and to the source;
- `Search.followsBest_of_changeCut`: the cut is moved exactly if a move is found;
- `Search.exists_choice_of_fill`: a filling writes the joint values of a choice;
- `Search.iterate_frame`: the frame of an iteration, in every state in which one can begin.
-/

namespace PairedMarkov.Search

variable {σ W : Type} [Random.Source σ]

/-! ## Section 1: Changes of the cut -/

/-- The variables of a list that have different values in two assignments. -/
def changedOn (ids : List Nat) (x y : Assignment) : List Nat :=
  ids.filter fun v => y.valueAt v ≠ x.valueAt v

/-- What a change of the cut leads to, from an assignment and a source. -/
inductive CutFrame (domains : Domains) (cut : List Nat) (x : Assignment) (source : σ) :
    CutChange W → Assignment → σ → Prop
  /-- A move gives one variable another value, and nothing is drawn. -/
  | moved {move : CutMove W} (hid : move.id ∈ cut) (hvalue : move.value ≠ x.valueAt move.id) :
    CutFrame domains cut x source (.moved move) (x.with move.id move.value) source
  /-- One variable may change. -/
  | localEscape {y : Assignment} {source' : σ} {id : Nat} (hid : id ∈ cut)
    (h : Differs domains [id] x y) : CutFrame domains cut x source .localEscape y source'
  /-- All variables of the cut may change. -/
  | globalEscape {y : Assignment} {source' : σ} (hcut : cut ≠ []) (h : Differs domains cut x y) :
    CutFrame domains cut x source .globalEscape y source'
  /-- Without a cut nothing changes and nothing is drawn. -/
  | unchanged (hcut : cut = []) : CutFrame domains cut x source .unchanged x source

variable {p : Problem W} {threshold : W} {cut : List Nat} {x y : Assignment} {source source' : σ}
  {change : CutChange W} {domains : Domains}

private theorem cutFrame_of_escape (hx : x.Inside domains) (hcut : ∀ id ∈ cut, id < domains.size)
    (h : escape domains cut x source = .ok (change, y, source')) :
    CutFrame domains cut x source change y source' := by
  unfold escape at h
  by_cases hempty : cut = []
  · rw [if_pos (List.isEmpty_iff.2 hempty), Except.ok.injEq] at h
    cases h
    exact .unchanged hempty
  · rw [if_neg (mt List.isEmpty_iff.1 hempty)] at h
    generalize Random.oneInTen source = draw at h
    obtain ⟨global, source⟩ := draw
    cases global with
    | true =>
      obtain ⟨result, hresult, hdiffers⟩ := exists_randomizeAll hx hcut source
      dsimp only at h
      rw [hresult, ok_bind, pure_eq_ok_iff] at h
      cases h
      exact .globalEscape hempty hdiffers
    | false =>
      -- the variable is drawn before its value, and only its value can change
      obtain ⟨drawn, source, hdraw, hdrawn⟩ :=
        Random.exists_draw (List.length_pos_iff.2 hempty) source
      have hid : cut[drawn] ∈ cut := List.getElem_mem hdrawn
      have hfetch : fetch cut.toArray drawn = .ok cut[drawn] := fetch_of_lt hdrawn
      obtain ⟨result, hresult, hdiffers⟩ :=
        exists_randomize (Differs.refl hx [cut[drawn]]) (List.mem_singleton_self _) (hcut _ hid) source
      dsimp only at h
      rw [hdraw, ok_bind, hfetch, ok_bind, hresult, ok_bind, pure_eq_ok_iff] at h
      cases h
      exact .localEscape hid hdiffers

variable [Weight W]

/-- **A change of the cut** is a move of one variable, an escape of one or of all, or none at all. -/
theorem cutFrame_of_changeCut (hp : p.Valid) (hx : x.Inside p.domains)
    (hcut : ∀ id ∈ cut, id < p.domains.size)
    (h : (terrainOf p threshold).changeCut cut x source = .ok (change, y, source')) :
    CutFrame p.domains cut x source change y source' := by
  rw [Terrain.changeCut, Terrain.scores_eq_ok hp hx, ok_bind, Terrain.bestMove_eq_ok hp hx hcut,
    ok_bind] at h
  cases hbest : (otherValues p x cut).foldl ((terrainOf p threshold).better x) none with
  | none =>
    rw [hbest] at h
    exact cutFrame_of_escape hx hcut h
  | some move =>
    rw [hbest] at h
    obtain ⟨target, htarget, rfl⟩ := Terrain.exists_of_foldl_better hbest
    obtain ⟨hid, hvalue, hother⟩ := Terrain.mem_otherValues_iff.1 htarget
    obtain ⟨y, hset, h⟩ := bind_eq_ok_iff.1 h
    have hset' : x.set p.domains target.1 target.2 = .ok y := hset
    rw [Assignment.set_eq_ok (hcut _ hid) hvalue, Except.ok.injEq] at hset'
    rw [pure_eq_ok_iff] at h
    cases h
    subst hset'
    exact .moved hid hother

/-- A change of the cut is a move exactly if looking for one, from the assignment before the change,
finds one; it is then the move that is found. -/
def FollowsBest (p : Problem W) (threshold : W) (cut : List Nat) (x : Assignment)
    (change : CutChange W) : Prop :=
  ∃ t current tried, Terrain.ofProblem p threshold = .ok t ∧ t.scores x = .ok current ∧
    t.bestMove cut x current = .ok tried ∧ ∀ move, change = .moved move ↔ tried.best = some move

theorem followsBest_of_changeCut (hp : p.Valid) (hx : x.Inside p.domains)
    (hcut : ∀ id ∈ cut, id < p.domains.size)
    (h : (terrainOf p threshold).changeCut cut x source = .ok (change, y, source')) :
    FollowsBest p threshold cut x change := by
  refine ⟨_, _, _, Terrain.ofProblem_eq_ok hp threshold, Terrain.scores_eq_ok hp hx,
    Terrain.bestMove_eq_ok hp hx hcut, fun move => ?_⟩
  rw [Terrain.changeCut, Terrain.scores_eq_ok hp hx, ok_bind, Terrain.bestMove_eq_ok hp hx hcut,
    ok_bind] at h
  cases hbest : (otherValues p x cut).foldl ((terrainOf p threshold).better x) none with
  | none =>
    -- an escape is never told as a move
    rw [hbest] at h
    obtain ⟨result, hescape, hnone, -⟩ := exists_escape W hx hcut source
    obtain rfl : result = (change, y, source') := Except.ok.inj (hescape.symm.trans h)
    simp [hnone move]
  | some found =>
    rw [hbest] at h
    obtain ⟨_, -, h⟩ := bind_eq_ok_iff.1 h
    cases h
    simp

namespace CutFrame

omit [Random.Source σ] [Weight W]

variable (h : CutFrame domains cut x source change y source')

include h

/-- Without a cut nothing is drawn. -/
theorem eq_of_nil (hcut : cut = []) : y = x ∧ source' = source := by
  cases h with
  | moved hid _ => simp [hcut] at hid
  | localEscape hid _ => simp [hcut] at hid
  | globalEscape hne _ => exact absurd hcut hne
  | unchanged _ => exact ⟨rfl, rfl⟩

variable (hcut : ∀ id ∈ cut, id < x.size) (hnodup : cut.Nodup)

include hcut hnodup

theorem changedOn_of_moved {move : CutMove W} (hchange : change = .moved move) :
    changedOn cut x y = [move.id] := by
  subst hchange
  obtain ⟨hid, hvalue⟩ := h
  have hfilter : changedOn cut x (x.with move.id move.value) = cut.filter (· == move.id) := by
    refine List.filter_congr fun v _ => ?_
    rw [Assignment.valueAt_with (hcut _ hid), Bool.beq_eq_decide_eq, decide_eq_decide]
    by_cases hsame : v = move.id
    · simpa [hsame] using hvalue
    · simp [hsame]
  rw [hfilter, List.filter_beq, List.count_eq_one_of_mem hnodup hid]
  rfl

/-- Unless all variables have got random values, at most one has changed. -/
theorem length_changedOn_le_one (hchange : change ≠ .globalEscape) :
    (changedOn cut x y).length ≤ 1 := by
  -- all variables that have changed are one and the same
  have hone (id : Nat) (hother : ∀ v ∈ cut, v ≠ id → y.valueAt v = x.valueAt v) :
      (changedOn cut x y).length ≤ 1 := by
    calc (changedOn cut x y).length
        = cut.countP fun v => y.valueAt v ≠ x.valueAt v := List.countP_eq_length_filter.symm
      _ ≤ cut.countP (· == id) := List.countP_mono_left fun v hv hchanged => by
          by_contra hne
          exact of_decide_eq_true hchanged (hother v hv (by simpa using hne))
      _ ≤ 1 := List.nodup_iff_count_le_one.1 hnodup id
  cases h with
  | @moved move hid _ =>
    refine hone move.id fun v _ hne => ?_
    rw [Assignment.valueAt_with (hcut _ hid), if_neg hne]
  | @localEscape _ _ id hid hdiffers =>
    exact hone id fun v _ hne => hdiffers.frame v (by simpa using hne)
  | globalEscape hne _ => exact absurd rfl hchange
  | unchanged hnil => simp [changedOn, hnil]

end CutFrame

/-! ## Section 2: Choices that are written -/

section Fills

variable {d : Decomposition} {b : Buckets} {width : Nat} {effort : Effort} {f : Filling W σ}
  (hp : p.Tabulated) (hd : d.Separates width p.domains.size p.scopes) (hb : b.Shares p d)
  (hx : x.Inside p.domains) (hy : y.Inside p.domains)

include hp hd hb hx hy

/-- **A filling** writes the joint values of a choice, whatever the weights. -/
theorem exists_choice_of_fill (hfits : ∀ scope ∈ d.components, p.Allocates scope)
    (hfill : fill p threshold effort d b (Aggregate.mergedFrom p b y 0 d.components) x source =
      .ok f) :
    ∃ k result chosen, Knapsack.ofBins (componentBins p b x d) = .ok k ∧ k.Choice chosen ∧
      result.1.choices = k.choicePositions chosen ∧
      f = fillingBy p threshold d b x k result := by
  obtain ⟨k, hk⟩ := exists_ofBins hp hd hb hx
  have hnonempty : ∀ bin < k.bins.size, 0 < k.binSize bin := fun _ => Knapsack.binSize_pos hk
  obtain ⟨start, hstart, hfirst⟩ := Knapsack.exists_baseline hnonempty
  have hchoice : k.Choice start.chosen := hfirst ▸ Knapsack.choice_firstPlaces hnonempty
  obtain ⟨⟨solution, source'⟩, hsolve, hanswer⟩ := Knapsack.exists_solve
    (Knapsack.keeps_choice k _) hstart hchoice (fun _ => hchoice) effort source
  have hitems := allocatesItems_of_fill hp hd hb hx hy hfits hfill
  rw [fill_eq_ok hp hd hb hx hy hitems hk hsolve, Except.ok.injEq] at hfill
  -- also if nothing fits the budget, the answer has the positions of a choice
  cases hanswer with
  | feasible _ s _ hs _ => exact ⟨k, _, s.chosen, hk, hs, rfl, hfill.symm⟩
  | infeasible _ => exact ⟨k, _, start.chosen, hk, hchoice, rfl, hfill.symm⟩

end Fills

/-! ## Section 3: Iterations -/

/-- The frame of an iteration that begins with an assignment and a source: the change of the cut has
led to `y` and `source'`, the filling to `f`, and `z` is the assignment at the end. -/
structure Framed (p : Problem W) (threshold : W) (d : Decomposition) (b : Buckets) (x : Assignment)
    (source : σ) (change : CutChange W) (y : Assignment) (source' : σ) (f : Filling W σ)
    (z : Assignment) : Prop where
  inside : z.Inside p.domains
  /-- The change is a move exactly if one is found, and an escape only if none is. -/
  found : FollowsBest p threshold d.cut x change
  /-- A move changes the value of its variable, and of no other one in the cut. -/
  moved : ∀ move, change = .moved move → changedOn d.cut x z = [move.id]
  localEscape : change = .localEscape → (changedOn d.cut x z).length ≤ 1
  /-- Several variables of the cut change only if all of them got random values. -/
  globalEscape : 1 < (changedOn d.cut x z).length → change = .globalEscape
  /-- Without a cut nothing is drawn before the knapsack. -/
  drawn : d.cut = [] → y = x ∧ source' = source
  /-- The cut keeps the values that its change has given it. -/
  cut : ∀ v ∈ d.cut, z.valueAt v = y.valueAt v
  /-- The address of each component is the choice of the knapsack for it. -/
  chosen : d.components.Forall₂ (fun scope choice => scope.address p.domains z = .ok choice)
    f.solution.choices
  /-- The overflow of the assignment at the end is the one that has made the budget. -/
  scored : ∃ cost profit, b.overflowScore p .constraint z = .ok cost ∧
    b.overflowScore p .objective z = .ok profit ∧ f.budget = threshold - cost ∧
    f.objective = f.solution.profit + profit
  /-- The refreshed aggregates are those of the assignment at the end. -/
  refreshed : Aggregate.ofDecomposition p d b z = .ok f.aggregates

variable {d : Decomposition} {b : Buckets} {width : Nat} {effort : Effort} {f : Filling W σ}

omit [Random.Source σ] in
/-- What a filling by a choice leaves alone, behind a change of the cut. -/
theorem framed_of_choice (hp : p.Tabulated) (hd : d.Separates width p.domains.size p.scopes)
    (hb : b.Shares p d) (hfits : ∀ scope ∈ d.components, p.Allocates scope)
    (hx : x.Inside p.domains) (hy : y.Inside p.domains)
    (hfound : FollowsBest p threshold d.cut x change)
    (hcut : CutFrame p.domains d.cut x source change y source') {k : Knapsack W}
    (hk : Knapsack.ofBins (componentBins p b y d) = .ok k) {result : Solution W × σ}
    {chosen : Array Nat} (hchosen : k.Choice chosen)
    (hresult : result.1.choices = k.choicePositions chosen) :
    Framed p threshold d b x source change y source' (fillingBy p threshold d b y k result)
      (taking p d k chosen y) := by
  have hz := inside_taking (d := d) hy k chosen
  have hkept : ∀ v ∈ d.cut, (taking p d k chosen y).valueAt v = y.valueAt v := fun v hv =>
    valueAt_taking hd hy k chosen hv
  have hbelow : ∀ id ∈ d.cut, id < x.size := fun id hid => hx.size_eq ▸ hd.cut_lt id hid
  have hnodup : d.cut.Nodup :=
    (List.nodup_append.1 (hd.partition.nodup_iff.2 List.nodup_range)).1
  have hchanged : changedOn d.cut x (taking p d k chosen y) = changedOn d.cut x y :=
    List.filter_congr fun v hv => by rw [hkept v hv]
  have hoverflow (role : Role) : b.overflowScore p role (taking p d k chosen y) =
      .ok (p.partialTotal role y (b.share role).overflow) := by
    rw [Buckets.overflowScore, Problem.partialScore_eq_ok hp hz (hb.overflow_lt role),
      overflow_congr hp hd hb hkept]
  refine {
    inside := hz
    found := hfound
    moved := fun move hmove => hchanged ▸ hcut.changedOn_of_moved hbelow hnodup hmove
    localEscape := fun hlocal => ?_
    globalEscape := fun hmany => ?_
    drawn := hcut.eq_of_nil
    cut := hkept
    chosen := ?_
    scored := ⟨_, _, hoverflow .constraint, hoverflow .objective, rfl, rfl⟩
    refreshed := ?_ }
  · rw [hchanged]
    exact hcut.length_changedOn_le_one hbelow hnodup (by simp [hlocal])
  · by_contra hother
    rw [hchanged] at hmany
    exact absurd (hcut.length_changedOn_le_one hbelow hnodup hother) (not_le_of_gt hmany)
  · -- component by component: the joint value at its address is the one of the chosen item
    have hsize := size_componentBins hk
    rw [fillingBy, hresult]
    refine List.forall₂_iff_get.2 ⟨by simp [Knapsack.choicePositions, hsize], fun c hc hc' => ?_⟩
    have hscope := List.getElem?_eq_getElem hc
    have hmem := List.getElem_mem hc
    rw [List.get_eq_getElem, List.get_eq_getElem, Scope.address_eq_ok hz
      (hd.inRange_components _ hmem) (hfits _ hmem).capacity_lt, index_taking hd hy hk hchosen hscope]
    simp [Knapsack.choicePositions]
  · rw [Aggregate.ofDecomposition_eq_ok_iff hp hd hb hz]
    exact ⟨hfits, (Aggregate.mergedFrom_congr hp hd hb hy hz hkept).symm⟩

variable {τ : Type} {parameters : Parameters W} {around : Surroundings (StateM τ) W}

/-- **The frame of an iteration**: at a width whose tables fit into memory, every iteration from a state
that searching can come to ends, whatever is drawn. It can be made on a single assignment, of which it
leaves nothing changed but the cut, as its change has it, and the components, as the knapsack has
chosen. -/
theorem iterate_frame (hp : p.Valid) {t : Setup W} (ht : Setup.ofProblem p parameters = .ok t)
    (hd : Decomposition.ofProblem p width = .ok d)
    (hsmall : ∀ scope ∈ d.components, scope.capacity p.domains < tableLimit) :
    ∃ b, Buckets.ofProblem p d = .ok b ∧
      (∀ (s : State W σ) (w : τ), Reached around t s → ∃ aggregates s' w',
        (openWidth around t width).runOn s w = ((.ok (d, b, aggregates), s'), w')) ∧
      ∀ aggregates (s : State W σ), Iterating around t width d b aggregates s → ∀ w,
        ∃ change y source f s' w',
          t.terrain.changeCut d.cut s.assignment s.source = .ok (change, y, source) ∧
          fill p parameters.threshold parameters.effort d b aggregates y source = .ok f ∧
          fillInPlace p parameters.threshold parameters.effort d b aggregates y source = .ok f ∧
          (iterate around t width d b aggregates).runOn s w = ((.ok f.aggregates, s'), w') ∧
          s'.assignment = f.assignment ∧
          Framed p parameters.threshold d b s.assignment s.source change y source f s'.assignment := by
  rw [Setup.ofProblem_eq_ok hp, Except.ok.injEq] at ht
  subst ht
  have hfits : ¬ TooLarge p width := not_tooLarge fun d' hd' => by
    obtain rfl := Except.ok.inj (hd.symm.trans hd')
    exact hsmall
  have hseparates := Decomposition.separates_of_ofProblem hp.inRange hd
  obtain ⟨b, hb⟩ := Buckets.exists_ofProblem hseparates hp.inRange
  have hkeep := leads_trivial (σ := σ) p parameters
  refine ⟨b, hb, fun s w hs => ?_, fun aggregates s hs w => ?_⟩
  · obtain ⟨b', aggregates, s', w', hb', hrun⟩ :=
      exists_openWidth around hp hd hfits (hs.holds hp hkeep trivial) w
    rw [hb, Except.ok.injEq] at hb'
    exact ⟨aggregates, s', w', hb' ▸ hrun⟩
  · obtain ⟨hopened, hinside, -⟩ := hs.holds hp hkeep trivial
    have hensures : (iterate around (setupOf p parameters) width d b aggregates).Ensures s _
        fun _ _ => False := (ensures_iterate_inside hp hopened hinside).mono (fun _ _ h => h)
      fun _ _ h => hfits h.1.1
    obtain ⟨_, s', w', hrun, -, -, ⟨change, y, source⟩, f, rfl, hiterated, hchanged⟩ :=
      hensures.exists_run w
    obtain ⟨-, hd, hb, hallocates, y', hy', rfl⟩ := hopened
    have hy := hchanged.differs.inside
    have hcut := cutFrame_of_changeCut hp hinside hd.cut_lt hiterated.changeCut
    have hfound := followsBest_of_changeCut hp hinside hd.cut_lt hiterated.changeCut
    obtain ⟨k, result, chosen, hk, hchosen, hresult, hf⟩ :=
      exists_choice_of_fill hp.tabulated hd hb hy hy' hallocates hiterated.fill
    have hassignment : f.assignment = taking p d k chosen y := by
      rw [hf, fillingBy, hresult]
      rfl
    refine ⟨change, y, source, f, s', w', hiterated.changeCut, hiterated.fill, ?_, hrun,
      hiterated.assignment, ?_⟩
    · rw [fillInPlace_eq hp.tabulated hd hb hy]
      exact hiterated.fill
    · rw [hiterated.assignment, hassignment, hf]
      exact framed_of_choice hp.tabulated hd hb hallocates hinside hy hfound hcut hk hchosen hresult

/-- The frame of the first iteration for a chain of variables with two and three values, in doubles, at
width one. -/
theorem iterate_chain_frame :
    let p : Problem LogWeight :=
      { domains := #[2, 3, 2]
        constraint := ⟨#[⟨[0, 1], #[0, 1, 0, 1, 0, 1]⟩, ⟨[1, 2], #[1, 0, 1, 0, 1, 0]⟩]⟩
        objective := ⟨#[⟨[2], #[0, 1]⟩]⟩ }
    let parameters : Parameters LogWeight := { threshold := 1 }
    let t := setupOf p parameters
    let s : State LogWeight Random.Progression := State.start p.domains ⟨3, 5⟩
    let journal : Journal LogWeight := { clock := fun _ => 0 }
    ∃ d b aggregates s' journal', Decomposition.ofProblem p 1 = .ok d ∧
      (openWidth Journal.surroundings t 1).runOn s journal = ((.ok (d, b, aggregates), s'), journal') ∧
      ∃ change y source f s'' journal'',
        (iterate Journal.surroundings t 1 d b aggregates).runOn s' journal' =
          ((.ok f.aggregates, s''), journal'') ∧
        Framed p 1 d b s'.assignment s'.source change y source f s''.assignment := by
  intro p parameters t s journal
  have hp : p.Valid := by decide
  have hsmall : (Decomposition.ofProblem p 1).toOption.all fun d =>
      d.components.all fun scope => scope.capacity p.domains < tableLimit := by decide +kernel
  obtain ⟨d, hd⟩ := Decomposition.exists_ofProblem hp.inRange 1
  simp only [hd, Except.toOption, Option.all_some, List.all_eq_true, decide_eq_true_eq] at hsmall
  obtain ⟨b, -, hopen, hiterate⟩ : ∃ b, _ ∧
      (∀ (s : State LogWeight Random.Progression) w, Reached Journal.surroundings t s → _) ∧ _ :=
    iterate_frame hp (Setup.ofProblem_eq_ok hp parameters) hd hsmall
  obtain ⟨aggregates, s', journal', hrun⟩ := hopen s journal (.start _)
  obtain ⟨change, y, source, f, s'', journal'', -, -, -, hrun', -, hframed⟩ :=
    hiterate aggregates s' (.opened (.start _) hrun) journal'
  exact ⟨d, b, aggregates, s', journal', hd, hrun, change, y, source, f, s'', journal'', hrun',
    hframed⟩

end PairedMarkov.Search
