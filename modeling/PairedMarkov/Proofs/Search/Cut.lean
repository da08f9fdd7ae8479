import PairedMarkov.Proofs.Scores
import PairedMarkov.Search.Cut

/-!
# Changes of the cut

The scores of a move are not computed anew: what the factors of the changed variable contribute is
exchanged. Each of these factors is listed once, and all other factors keep their weights, so that
over exact weights the exchanged scores are those of the assignment after the move.

Main statements:
- `Search.Terrain.bestMove_eq_ok`: looking for a move never fails, is a fold over all moves, and
  leaves the assignment as it was;
- `Search.scores_moveTo`: the exchanged scores are the scores after the move;
- `Search.exists_changeCut`: changing the cut never fails and only changes values of the cut, and a
  score that it reports is right.
-/

namespace PairedMarkov

variable {W : Type} {p : Problem W} {role : Role} {x : Assignment} {cut : List Nat}

/-! ## Section 1: The factors of a variable -/

/-- The numbers of the factors that mention a variable. -/
def Problem.incident (p : Problem W) (role : Role) (v : Nat) : List Nat :=
  (p.factorIds role).filter fun i => v ∈ p.scopeOf role i

theorem Problem.incident_lt (p : Problem W) (role : Role) (v : Nat) :
    ∀ i ∈ p.incident role v, i < (p.network role).factors.size := fun _ hi =>
  List.mem_range.1 (List.mem_filter.1 hi).1

namespace Search

private theorem filter_eq_of_nodup {scope : Scope} (h : scope.Nodup) (v : Nat) :
    scope.filter (· = v) = if v ∈ scope then [v] else [] := by
  rw [List.filter_eq, h.count]
  split <;> rfl

/-- The incidence of a network lists each factor once at each of its variables. -/
theorem Incidence.ofNetwork_eq_ok (hp : p.Valid) (role : Role) :
    Incidence.ofNetwork p.domains.size (p.network role) =
      .ok ((Array.range p.domains.size).map (p.incident role)) := by
  have hrange : (p.network role).factors.toList.forM (fun f => f.scope.forM fun id =>
      if id < p.domains.size then .ok () else .error (.indexOutside p.domains.size id)) =
        (.ok () : Except Fault Unit) := by
    refine forM_eq_ok fun f hf => forM_eq_ok fun id hid => if_pos ?_
    exact (hp.factor role f (Array.mem_toList_iff.1 hf)).inRange id hid
  rw [ofNetwork, hrange, ok_bind]
  refine congrArg Except.ok (Array.map_congr_left fun v _ => ?_)
  -- a scope without repetitions lists a factor at most once
  have hone : ∀ entry ∈ (p.network role).factors.toList.zipIdx,
      ((entry.1.scope.filter (· = v)).map fun _ => entry.2) =
        [entry.2].filter fun i => v ∈ p.scopeOf role i := by
    rintro ⟨f, i⟩ hentry
    have hi := List.mem_zipIdx_iff_getElem?.1 hentry
    rw [Array.getElem?_toList] at hi
    have hscope : p.scopeOf role i = f.scope := by rw [Problem.scopeOf, hi, Option.elim_some]
    have hnodup := (hp.factor role f (Array.mem_of_getElem? hi)).nodup
    rw [filter_eq_of_nodup hnodup, List.filter_singleton, hscope]
    by_cases hv : v ∈ f.scope <;> simp [hv]
  show (p.network role).factors.toList.zipIdx.flatMap
    (fun entry => (entry.1.scope.filter (· = v)).map fun _ => entry.2) = p.incident role v
  rw [List.flatMap_congr hone, Problem.incident, Problem.factorIds, ← Array.length_toList,
    List.range_eq_range', ← List.zipIdx_map_snd 0 (p.network role).factors.toList,
    ← List.filter_flatMap, List.map_eq_flatMap]

/-- A problem prepared for moves. -/
def terrainOf (p : Problem W) (threshold : W) : Terrain W where
  problem := p
  threshold
  constraint := (Array.range p.domains.size).map (p.incident .constraint)
  objective := (Array.range p.domains.size).map (p.incident .objective)

theorem Terrain.ofProblem_eq_ok (hp : p.Valid) (threshold : W) :
    Terrain.ofProblem p threshold = .ok (terrainOf p threshold) := by
  have hconstraint : Incidence.ofNetwork p.domains.size p.constraint = .ok _ :=
    Incidence.ofNetwork_eq_ok hp .constraint
  have hobjective : Incidence.ofNetwork p.domains.size p.objective = .ok _ :=
    Incidence.ofNetwork_eq_ok hp .objective
  rw [ofProblem, hconstraint, ok_bind, hobjective]
  rfl

/-! ## Section 2: Scores without checks -/

variable [Weight W]

/-- The scores of an assignment. -/
def scoresOf (p : Problem W) (x : Assignment) : Scores W where
  constraint := p.total .constraint x
  objective := p.total .objective x

/-- What the factors of one variable contribute to the scores. -/
def localScoresOf (p : Problem W) (x : Assignment) (v : Nat) : Scores W where
  constraint := p.partialTotal .constraint x (p.incident .constraint v)
  objective := p.partialTotal .objective x (p.incident .objective v)

variable {threshold : W}

namespace Terrain

theorem scores_eq_ok (hp : p.Valid) (hx : x.Inside p.domains) :
    (terrainOf p threshold).scores x = .ok (scoresOf p x) := by
  show (do
    let constraint ← p.score .constraint x
    let objective ← p.score .objective x
    return ⟨constraint, objective⟩ : Except Fault (Scores W)) = _
  rw [Problem.score_eq_ok hp hx, ok_bind, Problem.score_eq_ok hp hx]
  rfl

theorem localScores_eq_ok (hp : p.Valid) (hx : x.Inside p.domains) {v : Nat}
    (hv : v < p.domains.size) :
    (terrainOf p threshold).localScores x v = .ok (localScoresOf p x v) := by
  have hfetch : ∀ role,
      fetch ((Array.range p.domains.size).map (p.incident role)) v = .ok (p.incident role v) := by
    intro role
    rw [fetch_eq_ok_iff]
    simp [hv]
  show (do
    let constraint ← p.partialScore .constraint x
      (← fetch ((Array.range p.domains.size).map (p.incident .constraint)) v)
    let objective ← p.partialScore .objective x
      (← fetch ((Array.range p.domains.size).map (p.incident .objective)) v)
    return ⟨constraint, objective⟩ : Except Fault (Scores W)) = _
  have hscore := fun role => Problem.partialScore_eq_ok hp.tabulated hx (p.incident_lt role v)
  rw [hfetch, ok_bind, hfetch, hscore, ok_bind, ok_bind, hscore]
  rfl

end Terrain

/-! ## Section 3: The best move -/

omit [Weight W] in
/-- The other values of the variables of a cut, in the order in which they are tried. -/
def otherValues (p : Problem W) (x : Assignment) (cut : List Nat) : List (Nat × Nat) :=
  cut.flatMap fun id =>
    ((List.range (p.domains.sizeAt id)).filter (· ≠ x.valueAt id)).map (Prod.mk id)

/-- The move that gives a variable a value. -/
def moveTo (p : Problem W) (x : Assignment) (id value : Nat) : CutMove W where
  id
  value
  scores := (scoresOf p x).exchange (localScoresOf p x id) (localScoresOf p (x.with id value) id)

namespace Terrain

/-- The better of the best move so far and another one. -/
def better (t : Terrain W) (x : Assignment) (best : Option (CutMove W)) (target : Nat × Nat) :
    Option (CutMove W) :=
  if t.prefers (scoresOf t.problem x) best (moveTo t.problem x target.1 target.2).scores then
    some (moveTo t.problem x target.1 target.2)
  else best

omit [Weight W] in
theorem mem_otherValues_iff {target : Nat × Nat} :
    target ∈ otherValues p x cut ↔
      target.1 ∈ cut ∧ target.2 < p.domains.sizeAt target.1 ∧ target.2 ≠ x.valueAt target.1 := by
  obtain ⟨id, value⟩ := target
  simp only [otherValues, List.mem_flatMap, List.mem_map, List.mem_filter, List.mem_range,
    decide_eq_true_eq, Prod.mk.injEq]
  constructor
  · rintro ⟨_, hid, _, hvalue, rfl, rfl⟩
    exact ⟨hid, hvalue⟩
  · rintro ⟨hid, hvalue⟩
    exact ⟨id, hid, value, hvalue, rfl, rfl⟩

section Trying

variable (hp : p.Valid) (hx : x.Inside p.domains)

include hp hx

/-- A value that is tried takes the place of the one tried before it. -/
private theorem tryValue_eq_ok {id value : Nat} (hid : id < p.domains.size)
    (hvalue : value < p.domains.sizeAt id) {tried : Tried W}
    (htried : tried.assignment.with id value = x.with id value) :
    (terrainOf p threshold).tryValue (scoresOf p x) id (localScoresOf p x id) tried value =
      .ok ⟨(terrainOf p threshold).better x tried.best (id, value), x.with id value⟩ := by
  have hset : tried.assignment.set (terrainOf p threshold).problem.domains id value =
      .ok (x.with id value) := htried ▸ Assignment.set_eq_ok hid hvalue
  rw [tryValue, hset, ok_bind, localScores_eq_ok hp (hx.with hvalue) hid, ok_bind]
  rfl

/-- Trying values of a variable changes no other variable. -/
private theorem exists_foldlM_tryValue (threshold : W) {id : Nat} (hid : id < p.domains.size)
    {values : List Nat} (hvalues : ∀ value ∈ values, value < p.domains.sizeAt id) (tried : Tried W)
    (htried : ∀ value, tried.assignment.with id value = x.with id value) :
    ∃ y, values.foldlM ((terrainOf p threshold).tryValue (scoresOf p x) id (localScoresOf p x id))
        tried = .ok ⟨(values.map (Prod.mk id)).foldl ((terrainOf p threshold).better x) tried.best,
          y⟩ ∧
      ∀ value, y.with id value = x.with id value := by
  induction values generalizing tried with
  | nil => exact ⟨tried.assignment, rfl, htried⟩
  | cons value values ih =>
    obtain ⟨hvalue, hrest⟩ := List.forall_mem_cons.1 hvalues
    rw [List.foldlM_cons, tryValue_eq_ok hp hx hid hvalue (htried value), ok_bind, List.map_cons,
      List.foldl_cons]
    exact ih hrest _ (x.with_with id value)

/-- A variable whose values have all been tried has its own one again. -/
private theorem tryVariable_eq_ok {id : Nat} (hid : id < p.domains.size)
    (best : Option (CutMove W)) :
    (terrainOf p threshold).tryVariable (scoresOf p x) ⟨best, x⟩ id =
      .ok ⟨(otherValues p x [id]).foldl ((terrainOf p threshold).better x) best, x⟩ := by
  have hvalues : ∀ value ∈ (List.range (p.domains.sizeAt id)).filter (· ≠ x.valueAt id),
      value < p.domains.sizeAt id := fun value hvalue =>
    List.mem_range.1 (List.mem_filter.1 hvalue).1
  obtain ⟨y, htry, hrestore⟩ :=
    exists_foldlM_tryValue hp hx threshold hid hvalues ⟨best, x⟩ fun _ => rfl
  have hsize : fetch (terrainOf p threshold).problem.domains id = .ok (p.domains.sizeAt id) :=
    Domains.fetch_eq_ok hid
  have hset : y.set (terrainOf p threshold).problem.domains id (x.valueAt id) =
      .ok (y.with id (x.valueAt id)) := Assignment.set_eq_ok hid (hx.valueAt_lt id)
  rw [tryVariable, Assignment.fetch_eq_ok (hx.size_eq ▸ hid), ok_bind, localScores_eq_ok hp hx hid,
    ok_bind, hsize, ok_bind, htry, ok_bind, hset, hrestore, x.with_valueAt, otherValues,
    List.flatMap_singleton]
  rfl

private theorem foldlM_tryVariable_eq_ok (hcut : ∀ id ∈ cut, id < p.domains.size)
    (best : Option (CutMove W)) :
    cut.foldlM ((terrainOf p threshold).tryVariable (scoresOf p x)) ⟨best, x⟩ =
      .ok ⟨(otherValues p x cut).foldl ((terrainOf p threshold).better x) best, x⟩ := by
  induction cut generalizing best with
  | nil => rfl
  | cons id cut ih =>
    obtain ⟨hid, hrest⟩ := List.forall_mem_cons.1 hcut
    have hvalues : otherValues p x (id :: cut) = otherValues p x [id] ++ otherValues p x cut := by
      simp [otherValues]
    rw [List.foldlM_cons, tryVariable_eq_ok hp hx hid, ok_bind, ih hrest, hvalues,
      List.foldl_append]

/-- **Looking for a move** never fails, goes through all other values of the cut, and leaves the
assignment as it was. -/
theorem bestMove_eq_ok (hcut : ∀ id ∈ cut, id < p.domains.size) :
    (terrainOf p threshold).bestMove cut x (scoresOf p x) =
      .ok ⟨(otherValues p x cut).foldl ((terrainOf p threshold).better x) none, x⟩ :=
  foldlM_tryVariable_eq_ok hp hx hcut none

end Trying

/-- The move that is found is one of the moves, and preferred to some state of the search. -/
theorem exists_of_foldl_better {t : Terrain W} {targets : List (Nat × Nat)} {move : CutMove W}
    (h : targets.foldl (t.better x) none = some move) :
    ∃ target ∈ targets, move = moveTo t.problem x target.1 target.2 := by
  -- every step keeps what is claimed of the best move so far
  refine List.foldlRecOn targets (t.better x) (motive := fun best => ∀ move, best = some move →
    ∃ target ∈ targets, move = moveTo t.problem x target.1 target.2) (by simp) ?_ move h
  intro best hbest target htarget move hmove
  unfold better at hmove
  split at hmove
  · exact ⟨target, htarget, (Option.some.inj hmove).symm⟩
  · exact hbest move hmove

end Terrain

/-! ## Section 4: Escapes -/

section Escapes

omit [Weight W]

variable {σ : Type} [Random.Source σ] {domains : Domains}

/-- An assignment that differs from another one in the values of some variables only. -/
structure Differs (domains : Domains) (ids : List Nat) (x y : Assignment) : Prop where
  inside : y.Inside domains
  frame : ∀ v, v ∉ ids → y.valueAt v = x.valueAt v

theorem Differs.refl (hx : x.Inside domains) (ids : List Nat) : Differs domains ids x x :=
  ⟨hx, fun _ _ => rfl⟩

theorem Differs.with {y : Assignment} {ids : List Nat} {id value : Nat} (h : Differs domains ids x y)
    (hid : id ∈ ids) (hlt : id < domains.size) (hvalue : value < domains.sizeAt id) :
    Differs domains ids x (y.with id value) where
  inside := h.inside.with hvalue
  frame v hv := by
    rw [Assignment.valueAt_with (h.inside.size_eq ▸ hlt), if_neg (ne_of_mem_of_not_mem hid hv).symm,
      h.frame v hv]

/-- A random value changes one variable. -/
theorem exists_randomize {y : Assignment} {ids : List Nat} {id : Nat} (h : Differs domains ids x y)
    (hid : id ∈ ids) (hlt : id < domains.size) (source : σ) :
    ∃ result, y.randomize domains source id = .ok result ∧ Differs domains ids x result.1 := by
  -- a draw below the size of the domain is a value
  obtain ⟨value, source', hdraw, hvalue⟩ :=
    Random.exists_draw (h.inside.positive.sizeAt_pos id) source
  rw [Assignment.randomize, Domains.fetch_eq_ok hlt, ok_bind, hdraw, ok_bind]
  dsimp only
  rw [Assignment.set_eq_ok hlt hvalue, ok_bind]
  exact ⟨_, rfl, h.with hid hlt hvalue⟩

theorem exists_randomizeAll (hx : x.Inside domains) {ids : List Nat}
    (hids : ∀ id ∈ ids, id < domains.size) (source : σ) :
    ∃ result, x.randomizeAll domains source ids = .ok result ∧ Differs domains ids x result.1 :=
  exists_foldlM_eq_ok (P := fun state : Assignment × σ => Differs domains ids x state.1)
    (fun state hstate id hid => exists_randomize hstate hid (hids id hid) state.2)
    (Differs.refl hx ids)

/-- An escape changes values of the cut, and promises no score. -/
theorem exists_escape (W : Type) (hx : x.Inside domains) (hcut : ∀ id ∈ cut, id < domains.size)
    (source : σ) :
    ∃ result : CutChange W × Assignment × σ, escape domains cut x source = .ok result ∧
      (∀ move, result.1 ≠ .moved move) ∧ Differs domains cut x result.2.1 := by
  unfold escape
  by_cases hempty : cut = []
  · refine ⟨(.unchanged, x, source), ?_, by simp, Differs.refl hx cut⟩
    rw [if_pos (List.isEmpty_iff.2 hempty)]
  · rw [if_neg (mt List.isEmpty_iff.1 hempty)]
    generalize Random.oneInTen source = draw
    obtain ⟨global, source⟩ := draw
    cases global with
    | true =>
      -- all variables of the cut are drawn
      obtain ⟨result, hresult, hdiffers⟩ := exists_randomizeAll hx hcut source
      refine ⟨(.globalEscape, result), ?_, by simp, hdiffers⟩
      dsimp only
      rw [hresult, ok_bind]
      rfl
    | false =>
      -- one variable of the cut is drawn, then its value
      obtain ⟨drawn, source, hdraw, hdrawn⟩ :=
        Random.exists_draw (List.length_pos_iff.2 hempty) source
      have hid : cut[drawn] ∈ cut := List.getElem_mem hdrawn
      obtain ⟨result, hresult, hdiffers⟩ :=
        exists_randomize (Differs.refl hx cut) hid (hcut _ hid) source
      refine ⟨(.localEscape, result), ?_, by simp, hdiffers⟩
      have hfetch : fetch cut.toArray drawn = .ok cut[drawn] := fetch_of_lt hdrawn
      dsimp only
      rw [hdraw, ok_bind, hfetch, ok_bind, hresult, ok_bind]
      rfl

end Escapes

/-! ## Section 5: Changes of the cut -/

variable {σ : Type} [Random.Source σ]

/-- What a change of the cut promises: only values of the cut change, and a move that was made is
the best one that was found. -/
structure Changed (p : Problem W) (threshold : W) (cut : List Nat) (x : Assignment)
    (result : CutChange W × Assignment × σ) : Prop where
  differs : Differs p.domains cut x result.2.1
  moved : ∀ move, result.1 = .moved move →
    (otherValues p x cut).foldl ((terrainOf p threshold).better x) none = some move ∧
      result.2.1 = x.with move.id move.value

/-- **Changing the cut** never fails. -/
theorem exists_changeCut (threshold : W) (hp : p.Valid) (hx : x.Inside p.domains)
    (hcut : ∀ id ∈ cut, id < p.domains.size) (source : σ) :
    ∃ result, (terrainOf p threshold).changeCut cut x source = .ok result ∧
      Changed p threshold cut x result := by
  rw [Terrain.changeCut, Terrain.scores_eq_ok hp hx, ok_bind, Terrain.bestMove_eq_ok hp hx hcut,
    ok_bind]
  cases hbest : (otherValues p x cut).foldl ((terrainOf p threshold).better x) none with
  | none =>
    -- no move is better than to stay, so that the search escapes
    obtain ⟨result, hresult, hnone, hdiffers⟩ := exists_escape W hx hcut source
    exact ⟨result, hresult, hdiffers, fun move hmove => absurd hmove (hnone move)⟩
  | some move =>
    obtain ⟨target, htarget, rfl⟩ := Terrain.exists_of_foldl_better hbest
    obtain ⟨hid, hvalue, -⟩ := Terrain.mem_otherValues_iff.1 htarget
    have hset : x.set (terrainOf p threshold).problem.domains target.1 target.2 =
        .ok (x.with target.1 target.2) := Assignment.set_eq_ok (hcut _ hid) hvalue
    refine ⟨(.moved (moveTo p x target.1 target.2), x.with target.1 target.2, source), ?_,
      (Differs.refl hx cut).with hid (hcut _ hid) hvalue, ?_⟩
    · dsimp only
      rw [show (moveTo (terrainOf p threshold).problem x target.1 target.2).id = target.1 from rfl,
        show (moveTo (terrainOf p threshold).problem x target.1 target.2).value = target.2 from rfl,
        hset]
      rfl
    · rintro _ ⟨rfl⟩
      exact ⟨hbest, rfl⟩

end Search

/-! ## Section 6: Exact scores of moves -/

section ExactScores

variable {R : Type} [Ring R] [LinearOrder R] {p : Problem (Exact R)}

/-- A score is what the factors of a variable contribute and what the other ones do. -/
private theorem total_eq_incident_add (role : Role) (x : Assignment) (v : Nat) :
    p.total role x =
      p.partialTotal role x (p.incident role v) +
        p.partialTotal role x ((p.factorIds role).filter fun i => v ∉ p.scopeOf role i) := by
  rw [← Problem.partialTotal_append, Problem.total, Problem.incident]
  refine Problem.partialTotal_perm ?_ x
  simpa using (List.filter_append_perm (fun i => decide (v ∈ p.scopeOf role i)) (p.factorIds role)).symm

/-- Exchanging what the factors of a changed variable contribute gives the new score. -/
theorem total_with (hn : p.Numeric) (role : Role) (x : Assignment) (v value : Nat) :
    p.total role x - p.partialTotal role x (p.incident role v) +
        p.partialTotal role (x.with v value) (p.incident role v) =
      p.total role (x.with v value) := by
  by_cases hv : v < x.size
  · have hother : p.partialTotal role (x.with v value)
        ((p.factorIds role).filter fun i => v ∉ p.scopeOf role i) =
          p.partialTotal role x ((p.factorIds role).filter fun i => v ∉ p.scopeOf role i) := by
      refine Problem.partialTotal_congr fun i hi u hu => ?_
      -- a factor that does not mention the variable does not see the change
      have hout : v ∉ p.scopeOf role i := by simpa using (List.mem_filter.1 hi).2
      rw [Assignment.valueAt_with hv, if_neg (ne_of_mem_of_not_mem hu hout)]
    rw [total_eq_incident_add role x v, total_eq_incident_add role (x.with v value) v, hother,
      add_comm (p.partialTotal role x _), Exact.add_sub_cancel_number _ (hn.partialTotal ..),
      add_comm]
  · -- there is no such variable, so that nothing changes
    rw [Assignment.with, Array.setIfInBounds_eq_of_size_le (not_lt.1 hv)]
    exact Exact.sub_add_cancel_number _ (hn.partialTotal ..)

namespace Search

/-- **The scores of a move** are those of the assignment that it leads to. -/
theorem scores_moveTo (hn : p.Numeric) (x : Assignment) (id value : Nat) :
    (moveTo p x id value).scores = scoresOf p (x.with id value) := by
  rw [moveTo, Scores.exchange, scoresOf, localScoresOf, localScoresOf]
  dsimp only
  rw [total_with hn .constraint, total_with hn .objective]
  rfl

variable {σ : Type} {threshold : Exact R} {result : CutChange (Exact R) × Assignment × σ}

/-- An objective score that a change reports is reached under the threshold. -/
theorem Changed.reaches (h : Changed p threshold cut x result) (hn : p.Numeric)
    {objective : Exact R} (hreaches : result.1.reaches? threshold = some objective) :
    p.total .constraint result.2.1 ≤ threshold ∧ objective = p.total .objective result.2.1 := by
  obtain ⟨change, y, source⟩ := result
  cases change with
  | moved move =>
    obtain ⟨hbest, hy⟩ := h.moved move rfl
    obtain ⟨target, -, rfl⟩ := Terrain.exists_of_foldl_better hbest
    have hscores := scores_moveTo hn x target.1 target.2
    dsimp only at hy
    -- the scores of a move are compared with the threshold before they are reported
    rw [CutChange.reaches?] at hreaches
    split at hreaches
    · rename_i hle
      rw [Option.some.injEq] at hreaches
      rw [← hreaches, hy]
      exact ⟨(congrArg Scores.constraint hscores).ge.trans hle, congrArg Scores.objective hscores⟩
    · cases hreaches
  | localEscape => cases hreaches
  | globalEscape => cases hreaches
  | unchanged => cases hreaches

end Search

end ExactScores

end PairedMarkov
