import PairedMarkov.Graph.Basic

/-!
# Connected components

The component of a node is found by following edges: a stack holds the nodes that are known to
belong to it and whose neighbours have not been looked at, and a second list holds the nodes that
have not been reached. Each step takes a node from the stack and moves its unreached neighbours
onto it, so that the two lists together become shorter by one.

Components come in the order of their smallest nodes, and each is listed in increasing order.
-/

namespace PairedMarkov.Graph

variable {n : Nat}

/-! ## Section 1: Following edges -/

/-- The unreached nodes that are neighbours of a node, and the other unreached ones. -/
def splitNeighbours (g : Graph n) (u : Fin n) (unreached : List (Fin n)) :
    List (Fin n) × List (Fin n) :=
  unreached.partition fun v => (g.neighbours u).contains v

theorem splitNeighbours_eq (g : Graph n) (u : Fin n) (unreached : List (Fin n)) :
    g.splitNeighbours u unreached =
      (unreached.filter fun v => (g.neighbours u).contains v,
        unreached.filter fun v => !(g.neighbours u).contains v) := by
  simp only [splitNeighbours, List.partition_eq_filter_filter]
  rfl

theorem length_splitNeighbours (g : Graph n) (u : Fin n) (unreached : List (Fin n)) :
    (g.splitNeighbours u unreached).1.length + (g.splitNeighbours u unreached).2.length =
      unreached.length := by
  rw [splitNeighbours_eq]
  induction unreached with
  | nil => rfl
  | cons v unreached ih =>
    by_cases h : v ∈ g.neighbours u <;> simp_all <;> omega

/-- The nodes reached from a stack, and the nodes left unreached. -/
def explore (g : Graph n) : (stack unreached : List (Fin n)) → List (Fin n) × List (Fin n)
  | [], unreached => ([], unreached)
  | u :: stack, unreached =>
    let split := g.splitNeighbours u unreached
    let result := explore g (split.1 ++ stack) split.2
    (u :: result.1, result.2)
termination_by stack unreached => stack.length + unreached.length
decreasing_by
  have := g.length_splitNeighbours u unreached
  simp only [List.length_append, List.length_cons]
  omega

/-- What is left unreached was unreached before, in the same order. -/
theorem explore_left_sublist (g : Graph n) (stack unreached : List (Fin n)) :
    (g.explore stack unreached).2.Sublist unreached := by
  fun_induction explore g stack unreached with
  | case1 unreached => exact List.Sublist.refl unreached
  | case2 u stack unreached split result ih =>
    refine ih.trans ?_
    simp only [split, splitNeighbours_eq]
    exact List.filter_sublist

/-- Only nodes of the stack and unreached ones are reached. -/
theorem mem_explore_reached {g : Graph n} {stack unreached : List (Fin n)} {v : Fin n}
    (h : v ∈ (g.explore stack unreached).1) : v ∈ stack ∨ v ∈ unreached := by
  fun_induction explore g stack unreached with
  | case1 unreached => exact absurd h (List.not_mem_nil)
  | case2 u stack unreached split result ih =>
    rcases List.mem_cons.1 h with rfl | h
    · exact Or.inl List.mem_cons_self
    · rcases ih h with h | h
      · rcases List.mem_append.1 h with h | h
        · simp only [split, splitNeighbours_eq, List.mem_filter] at h
          exact Or.inr h.1
        · exact Or.inl (List.mem_cons_of_mem u h)
      · simp only [split, splitNeighbours_eq, List.mem_filter] at h
        exact Or.inr h.1

/-! ## Section 2: The components of a list of nodes -/

/-- The components among the given nodes, which are listed in increasing order. -/
def componentsAmong (g : Graph n) : List (Fin n) → List (List (Fin n))
  | [] => []
  | u :: nodes =>
    let result := g.explore [u] nodes
    result.1.mergeSort (fun v w => decide (v ≤ w)) :: componentsAmong g result.2
termination_by nodes => nodes.length
decreasing_by
  have := (g.explore_left_sublist [u] nodes).length_le
  simp only [List.length_cons]
  omega

/-- The components among some nodes hold only these. -/
theorem mem_of_mem_componentsAmong {g : Graph n} {nodes component : List (Fin n)} {v : Fin n}
    (hc : component ∈ g.componentsAmong nodes) (hv : v ∈ component) : v ∈ nodes := by
  fun_induction componentsAmong g nodes with
  | case1 => exact absurd hc List.not_mem_nil
  | case2 u nodes result ih =>
    rcases List.mem_cons.1 hc with rfl | hc
    · rcases mem_explore_reached (List.mem_mergeSort.1 hv) with h | h
      · exact List.mem_singleton.1 h ▸ List.mem_cons_self
      · exact List.mem_cons_of_mem u h
    · exact List.mem_cons_of_mem u ((g.explore_left_sublist [u] nodes).mem (ih hc))

/-- The connected components; a removed node is one of its own. -/
def components (g : Graph n) : List (List (Fin n)) := g.componentsAmong (List.finRange n)

end PairedMarkov.Graph
