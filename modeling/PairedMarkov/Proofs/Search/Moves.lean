import PairedMarkov.Proofs.Search.Cut

/-!
# The best move of a cut

The search looks for a move while it changes the assignment: a variable is set to one value after
the other, the scores are kept up to date by exchanging what its factors contribute, and one best
move is carried along. What it finds can be told without any of this. List the changes of a single
variable in the order of the cut and of the values, score each assignment anew, leave out what is no
improvement, and take the first best one.

Which score decides depends on whether the assignment is under the threshold. Both cases are one
fold, which keeps the best candidate so far; the lowest score is the largest one in the opposite
order.

Main statements:
- `Search.foldl_keepBest`: keeping the best candidate finds the first best one above a bound;
- `Search.foldl_better_eq_bestTarget`: the moves that are kept lead to the best target;
- `Search.bestMove_exact`: looking for a move agrees with scoring every change anew.
-/

namespace PairedMarkov

namespace Search

/-! ## Section 1: The first best candidate -/

section FirstBest

variable {α β : Type} [LinearOrder β] (ok : α → Prop) [DecidablePred ok] (value : α → β) (bound : β)

/-- Keeps the best candidate so far, unless another one that is allowed is above it; the first one
has to be above a bound. -/
def keepBest (best : Option α) (a : α) : Option α :=
  if ok a ∧ best.elim bound value < value a then some a else best

private theorem keepBest_eq {best : Option α} (hbest : ∀ b ∈ best, bound < value b) (a : α) :
    keepBest ok value bound best a =
      if ok a ∧ bound < value a then List.argAux (fun b c => value c < value b) best a else best := by
  cases best with
  | none => rfl
  | some b =>
    have hb := hbest b rfl
    by_cases hlt : value b < value a
    · simp [keepBest, List.argAux, hlt, hb.trans hlt]
    · simp [keepBest, List.argAux, hlt]

/-- **Keeping the best candidate** finds the first best one of those above the bound. -/
theorem foldl_keepBest (l : List α) :
    l.foldl (keepBest ok value bound) none =
      (l.filter fun a => ok a ∧ bound < value a).argmax value := by
  induction l using List.reverseRecOn with
  | nil => rfl
  | append_singleton l a ih =>
    -- what is kept is above the bound, so that comparing with it is comparing with the bound too
    have hbest : ∀ b ∈ l.foldl (keepBest ok value bound) none, bound < value b := by
      intro b hb
      rw [ih] at hb
      obtain ⟨-, hadmitted⟩ := List.mem_filter.1 (List.argmax_mem hb)
      exact (of_decide_eq_true hadmitted).2
    rw [List.foldl_append, List.foldl_cons, List.foldl_nil, keepBest_eq ok value bound hbest, ih,
      List.filter_append, List.filter_singleton]
    by_cases ha : ok a ∧ bound < value a
    · rw [if_pos ha, decide_eq_true ha]
      exact (List.argmax_concat ..).symm
    · rw [if_neg ha]
      simp [ha]

end FirstBest

/-! ## Section 2: The best target -/

/-- The variable that a move changes, with its new value. -/
def CutMove.target {W : Type} (move : CutMove W) : Nat × Nat := (move.id, move.value)

variable {R : Type} [Ring R] [LinearOrder R] {p : Problem (Exact R)} {x : Assignment}
  {cut : List Nat} {threshold : Exact R}

/-- The scores after a variable has been given a value. -/
def scoresAfter (p : Problem (Exact R)) (x : Assignment) (target : Nat × Nat) : Scores (Exact R) :=
  scoresOf p (x.with target.1 target.2)

/-- The best change of a single variable of the cut, told by the scores of whole assignments: under
the threshold the first one with the largest objective score, of those that stay there and raise
it, and otherwise the first one with the lowest constraint score, of those that lower it. -/
def bestTarget (p : Problem (Exact R)) (threshold : Exact R) (x : Assignment) (cut : List Nat) :
    Option (Nat × Nat) :=
  if (scoresOf p x).constraint ≤ threshold then
    ((otherValues p x cut).filter fun target =>
      (scoresAfter p x target).constraint ≤ threshold ∧
        (scoresOf p x).objective < (scoresAfter p x target).objective).argmax
      fun target => (scoresAfter p x target).objective
  else
    ((otherValues p x cut).filter fun target =>
      (scoresAfter p x target).constraint < (scoresOf p x).constraint).argmin
      fun target => (scoresAfter p x target).constraint

/-- The move that leads to a target. -/
def moveOf (p : Problem (Exact R)) (x : Assignment) (target : Nat × Nat) : CutMove (Exact R) :=
  moveTo p x target.1 target.2

theorem moveOf_scores (hn : p.Numeric) (x : Assignment) (target : Nat × Nat) :
    (moveOf p x target).scores = scoresAfter p x target := scores_moveTo hn x target.1 target.2

private theorem elim_map_moveOf (hn : p.Numeric) (best : Option (Nat × Nat)) (bound : Exact R)
    (quantity : Scores (Exact R) → Exact R) :
    ((best.map (moveOf p x)).elim bound fun move => quantity move.scores) =
      best.elim bound fun target => quantity (scoresAfter p x target) := by
  cases best with
  | none => rfl
  | some target => exact congrArg quantity (moveOf_scores hn x target)

section Regimes

variable (hn : p.Numeric) (best : Option (Nat × Nat)) (target : Nat × Nat)

include hn

/-- Under the threshold the objective score decides. -/
private theorem better_of_under (hunder : (scoresOf p x).constraint ≤ threshold) :
    (terrainOf p threshold).better x (best.map (moveOf p x)) target =
      (keepBest (fun target => (scoresAfter p x target).constraint ≤ threshold)
        (fun target => (scoresAfter p x target).objective) (scoresOf p x).objective best
        target).map (moveOf p x) := by
  have hprefers : (terrainOf p threshold).prefers (scoresOf p x) (best.map (moveOf p x))
      (moveOf p x target).scores = true ↔ (scoresAfter p x target).constraint ≤ threshold ∧
        (best.elim (scoresOf p x).objective fun target => (scoresAfter p x target).objective) <
          (scoresAfter p x target).objective := by
    have hunder : (scoresOf p x).constraint ≤ (terrainOf p threshold).threshold := hunder
    rw [Terrain.prefers, if_pos hunder, moveOf_scores hn, elim_map_moveOf hn _ _ Scores.objective,
      Bool.and_eq_true, decide_eq_true_iff, decide_eq_true_iff]
    rfl
  unfold Terrain.better keepBest
  rw [apply_ite (Option.map _)]
  exact if_congr hprefers rfl rfl

/-- Above the threshold the constraint score decides. -/
private theorem better_of_not_under (hunder : ¬ (scoresOf p x).constraint ≤ threshold) :
    (terrainOf p threshold).better x (best.map (moveOf p x)) target =
      (keepBest (fun _ => True) (fun target => OrderDual.toDual (scoresAfter p x target).constraint)
        (OrderDual.toDual (scoresOf p x).constraint) best target).map (moveOf p x) := by
  have hprefers : (terrainOf p threshold).prefers (scoresOf p x) (best.map (moveOf p x))
      (moveOf p x target).scores = true ↔ (scoresAfter p x target).constraint <
        best.elim (scoresOf p x).constraint fun target => (scoresAfter p x target).constraint := by
    have hunder : ¬ (scoresOf p x).constraint ≤ (terrainOf p threshold).threshold := hunder
    rw [Terrain.prefers, if_neg hunder, moveOf_scores hn, elim_map_moveOf hn _ _ Scores.constraint,
      decide_eq_true_iff]
  unfold Terrain.better keepBest
  rw [apply_ite (Option.map _)]
  refine if_congr (hprefers.trans ?_) rfl rfl
  cases best <;> simp

end Regimes

/-- Steps that agree lead to the same move. -/
private theorem foldl_better {step : Option (Nat × Nat) → Nat × Nat → Option (Nat × Nat)}
    (h : ∀ best target, (terrainOf p threshold).better x (best.map (moveOf p x)) target =
      (step best target).map (moveOf p x)) (targets : List (Nat × Nat)) :
    targets.foldl ((terrainOf p threshold).better x) none =
      (targets.foldl step none).map (moveOf p x) := by
  change targets.foldl _ (Option.map (moveOf p x) none) = _
  exact List.foldl_hom _ h

/-- **The search for a move** finds the best target. -/
theorem foldl_better_eq_bestTarget (hn : p.Numeric) :
    (otherValues p x cut).foldl ((terrainOf p threshold).better x) none =
      (bestTarget p threshold x cut).map (moveOf p x) := by
  unfold bestTarget
  split
  · rename_i hunder
    rw [foldl_better fun best target => better_of_under hn best target hunder, foldl_keepBest]
  · rename_i hunder
    rw [foldl_better fun best target => better_of_not_under hn best target hunder, foldl_keepBest]
    -- the lowest score is the largest one in the opposite order
    simp only [true_and, OrderDual.toDual_lt_toDual]
    rfl

/-! ## Section 3: Looking for a move -/

/-- What looking for a move promises: the best change of a single variable of the cut, if any of
them is an improvement, with the scores of the assignment that it leads to. -/
structure BestMove (p : Problem (Exact R)) (threshold : Exact R) (x : Assignment) (cut : List Nat)
    (best : Option (CutMove (Exact R))) : Prop where
  target_eq : best.map CutMove.target = bestTarget p threshold x cut
  changes : ∀ move ∈ best, move.id ∈ cut ∧ move.value < p.domains.sizeAt move.id ∧
    move.value ≠ x.valueAt move.id
  scores_eq : ∀ move ∈ best, move.scores = scoresOf p (x.with move.id move.value)

theorem bestMove_of_foldl (hn : p.Numeric) (threshold : Exact R) (x : Assignment) (cut : List Nat) :
    BestMove p threshold x cut
      ((otherValues p x cut).foldl ((terrainOf p threshold).better x) none) where
  target_eq := by
    have htarget : CutMove.target ∘ moveOf p x = id := rfl
    rw [foldl_better_eq_bestTarget hn, Option.map_map, htarget, Option.map_id, id]
  changes move hmove := by
    obtain ⟨target, htarget, rfl⟩ := Terrain.exists_of_foldl_better hmove
    exact Terrain.mem_otherValues_iff.1 htarget
  scores_eq move hmove := by
    obtain ⟨target, -, rfl⟩ := Terrain.exists_of_foldl_better hmove
    exact scores_moveTo hn x target.1 target.2

/-- **Looking for a move** leaves the assignment as it was, and agrees with scoring every change of
a single variable anew. -/
theorem bestMove_exact (hp : p.Valid) (hn : p.Numeric) (threshold : Exact R)
    (hx : x.Inside p.domains) (hcut : ∀ id ∈ cut, id < p.domains.size) :
    ∃ t best, Terrain.ofProblem p threshold = .ok t ∧
      (∀ y, y.Inside p.domains → t.scores y = .ok (scoresOf p y)) ∧
      t.bestMove cut x (scoresOf p x) = .ok ⟨best, x⟩ ∧ BestMove p threshold x cut best :=
  ⟨terrainOf p threshold, _, Terrain.ofProblem_eq_ok hp threshold,
    fun _ hy => Terrain.scores_eq_ok hp hy, Terrain.bestMove_eq_ok hp hx hcut,
    bestMove_of_foldl hn threshold x cut⟩

/-- Two variables that one factor joins, and a factor of each that is to be large. -/
def joinedPair : Problem (Exact ℤ) where
  domains := #[2, 3]
  constraint := ⟨#[⟨[0, 1], #[.number 0, .number 4, .number 2, .number 1, .number 3, .number 5]⟩]⟩
  objective :=
    ⟨#[⟨[0], #[.number 0, .number 2]⟩, ⟨[1], #[.number 0, .number 5, .number 7]⟩]⟩

theorem bestMove_joinedPair :
    let x := Assignment.first joinedPair.domains
    joinedPair.Valid ∧ joinedPair.Numeric ∧ x.Inside joinedPair.domains ∧
      (∀ id ∈ [0, 1], id < joinedPair.domains.size) ∧
      ∃ t best, Terrain.ofProblem joinedPair (.number 3) = .ok t ∧
        t.bestMove [0, 1] x (scoresOf joinedPair x) = .ok ⟨best, x⟩ ∧
        best.map CutMove.target = some (1, 2) := by
  intro x
  have hp : joinedPair.Valid := by decide
  have hn : joinedPair.Numeric := by decide
  have hx : x.Inside joinedPair.domains := Assignment.inside_first hp.positive
  have hcut : ∀ id ∈ [0, 1], id < joinedPair.domains.size := by decide
  have htarget : bestTarget joinedPair (.number 3) x [0, 1] = some (1, 2) := by decide
  obtain ⟨t, best, ht, -, hfound, hbest⟩ := bestMove_exact hp hn (.number 3) hx hcut
  exact ⟨hp, hn, hx, hcut, t, best, ht, hfound, hbest.target_eq.trans htarget⟩

end Search

end PairedMarkov
