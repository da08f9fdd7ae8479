import PairedMarkov.Problem
import PairedMarkov.Random.Assignment

/-!
# Quantiles of random scores

To choose a threshold it helps to know how scores are spread. The score of a network is taken at
random assignments, and of the sorted scores the least one and every twentieth part are reported.
The quantile of `i` twentieths of `n` scores is the one of rank `i * n / 20`, rounded down, and at
least one.
-/

namespace PairedMarkov

/-! ## Section 1: Sampling -/

/-- What sampling leaves behind. -/
structure Sample (W σ : Type) where
  /-- The scores, in increasing order. -/
  scores : List W
  /-- The assignment drawn last. -/
  last : Assignment
  /-- The source after all draws. -/
  source : σ

namespace Sample

variable {W σ : Type} [Weight W] [Random.Source σ]

/-- Takes the scores of `count` random assignments, in the order drawn, behind those taken
before. -/
def draw (domains : Domains) (n : Network W) :
    (count : Nat) → Array W → Assignment → σ → Except Fault (Array W × Assignment × σ)
  | 0, scores, x, source => .ok (scores, x, source)
  | count + 1, scores, x, source => do
    let (x, source) ← x.randomizeAll domains source (List.range domains.size)
    draw domains n count (scores.push (← n.score domains x)) x source

/-- The bytes that one score takes. -/
def scoreBytes : Nat := 8

/-- The sorted scores of a network at `count` random assignments. -/
def ofNetwork (domains : Domains) (n : Network W) (count : Nat) (source : σ) :
    Except Fault (Sample W σ) := do
  allocate scoreBytes count
  let (scores, last, source) ← draw domains n count #[] (Assignment.first domains) source
  return { scores := scores.toList.mergeSort Weight.sortsBefore, last, source }

end Sample

/-! ## Section 2: Quantiles -/

/-- The number of parts into which quantiles divide the scores. -/
def quantileParts : Nat := 20

/-- The position of the quantile of `i` parts among `n` sorted scores. -/
def quantilePosition (n i : Nat) : Except Fault Nat := do
  return max ((← mulWords i n) / quantileParts) 1 - 1

/-- The quantile of `i` parts of the sorted scores. -/
def quantile {W : Type} (sorted : Array W) (i : Nat) : Except Fault W := do
  fetch sorted (← quantilePosition sorted.size i)

/-- The least of the sorted scores and their quantiles; nothing if there is no score. -/
def quantiles {W : Type} (sorted : Array W) : Except Fault (List W) :=
  if sorted.isEmpty then .ok []
  else do
    let least ← fetch sorted 0
    let others ← (List.range' 1 quantileParts).mapM (quantile sorted)
    return least :: others

end PairedMarkov
