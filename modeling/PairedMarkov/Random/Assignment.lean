import PairedMarkov.Assignment
import PairedMarkov.Random.Source

/-!
# Random assignments

Giving variables uniformly random values, one word source serving all draws in order.
-/

namespace PairedMarkov.Assignment

variable {σ : Type} [Random.Source σ]

/-- Gives one variable a random value of its domain. -/
def randomize (domains : Domains) (x : Assignment) (source : σ) (id : Nat) :
    Except Fault (Assignment × σ) := do
  let size ← fetch domains id
  let (value, source) ← Random.draw size source
  return (← x.set domains id value, source)

/-- Gives the listed variables random values, one after the other. -/
def randomizeAll (domains : Domains) (x : Assignment) (source : σ) (ids : List Nat) :
    Except Fault (Assignment × σ) :=
  ids.foldlM (fun state id => randomize domains state.1 state.2 id) (x, source)

end PairedMarkov.Assignment
