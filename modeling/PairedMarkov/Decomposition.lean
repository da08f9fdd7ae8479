import PairedMarkov.Graph.Components
import PairedMarkov.Problem

/-!
# Decompositions

A decomposition of a given *width* takes some variables into a *cut* such that the others fall into
connected components of at most that many variables. The cut is chosen greedily, in two phases:

* while some node has at least as many neighbours as the width, the node with the most neighbours
  goes into the cut;
* while some component has more nodes than the width, the node with the most neighbours in the
  largest component goes into the cut.

Ties go to the smallest variable and to the first component. Removed nodes take no part in either
phase. Both phases end because each step removes a live node.
-/

namespace PairedMarkov

namespace Graph

variable {n : Nat}

/-! ## Section 1: The two phases -/

/-- Removes the node of largest degree as long as this degree reaches the width; gives the removed
nodes in order, and the graph that is left. -/
def cutDegrees (width : Nat) (g : Graph n) : List (Fin n) × Graph n :=
  match _h : g.maxDegree g.live with
  | none => ([], g)
  | some (u, degree) =>
    if width ≤ degree then
      let rest := cutDegrees width (g.remove u)
      (u :: rest.1, rest.2)
    else ([], g)
termination_by g.live.length
decreasing_by exact length_live_remove_lt (maxDegree_mem _h)

/-- The components of the nodes that have not been removed. -/
def liveComponents (g : Graph n) : List (List (Fin n)) := g.componentsAmong g.live

/-- The node of largest degree in the largest component, if that component has more nodes than the
width. -/
def oversized? (width : Nat) (g : Graph n) : Option (Fin n) :=
  match firstMax List.length g.liveComponents with
  | none => none
  | some component =>
    if width < component.length then (g.maxDegree component).map Prod.fst else none

theorem oversized?_mem {width : Nat} {g : Graph n} {u : Fin n}
    (h : g.oversized? width = some u) : u ∈ g.live := by
  unfold oversized? at h
  split at h
  · exact absurd h (by simp)
  · rename_i component hc
    split at h
    · obtain ⟨⟨v, degree⟩, hv, rfl⟩ := Option.map_eq_some_iff.1 h
      exact mem_of_mem_componentsAmong (firstMax_mem hc) (maxDegree_mem hv)
    · exact absurd h (by simp)

/-- Removes a node of the largest component as long as that has more nodes than the width; gives
the removed nodes in order, and the graph that is left. -/
def cutComponents (width : Nat) (g : Graph n) : List (Fin n) × Graph n :=
  match _h : g.oversized? width with
  | none => ([], g)
  | some u =>
    let rest := cutComponents width (g.remove u)
    (u :: rest.1, rest.2)
termination_by g.live.length
decreasing_by exact length_live_remove_lt (oversized?_mem _h)

end Graph

/-! ## Section 2: Decompositions -/

/-- A cut and the components it leaves. -/
structure Decomposition where
  /-- The largest number of variables that a component may have. -/
  width : Nat
  /-- The variables of the cut, in the order in which they were chosen. -/
  cut : List Nat
  /-- The components, each in increasing order. -/
  components : List Scope
  /-- For each variable the number of its component, nothing for those of the cut. -/
  membership : Array (Option Nat)

namespace Decomposition

/-- The decomposition of a graph. -/
def ofGraph {n : Nat} (width : Nat) (g : Graph n) : Decomposition :=
  let first := g.cutDegrees width
  let second := first.2.cutComponents width
  let components := second.2.liveComponents.map fun c => c.map Fin.val
  { width
    cut := (first.1 ++ second.1).map Fin.val
    components
    membership := (Array.range n).map fun id => components.findIdx? fun c => c.contains id }

/-- The decomposition of a problem, by the scopes of both networks. -/
def ofProblem {W : Type} (p : Problem W) (width : Nat) : Except Fault Decomposition := do
  return ofGraph width (← Graph.ofScopes p.domains.size p.scopes)

/-- The component of a variable, nothing if it is in the cut. -/
def componentOf (d : Decomposition) (id : Nat) : Except Fault (Option Nat) :=
  fetch d.membership id

/-- The number of variables in the largest component. -/
def largest (d : Decomposition) : Nat :=
  d.components.foldl (fun size c => max size c.length) 0

end Decomposition

end PairedMarkov
