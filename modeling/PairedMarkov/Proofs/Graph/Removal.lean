import PairedMarkov.Proofs.Graph.Traversal

/-!
# Removing nodes along their neighbours

A node knows its neighbours, and so it can be removed without a look at all the other lists: its own
list is taken out, and the node is erased from the lists of those that were in it. The neighbours
form a set, which is gone through in some order. That nothing is missed in this way rests on what
the graph shows: whoever has the node for a neighbour is one of its neighbours.

Main statements:
- `Shows.removeAlong_eq_remove`: removing a node along its neighbours, in any order, removes it from
  all lists;
- `Shows.removesAlong_iff`: hence removals along the neighbours lead to one graph only;
- `adjacency_exact`: what this graph tells of neighbours, degrees and removed nodes.
-/

namespace PairedMarkov.Graph

variable {n : Nat} {g h : Graph n} {scopes : List (List Nat)} {cut : List Nat}

/-! ## Section 1: One node -/

/-- Takes a node out of the neighbours of another one. -/
def detach (u : Fin n) (g : Graph n) (v : Fin n) : Graph n :=
  { g with adjacency := g.adjacency.set v ((g.neighbours v).erase u) v.isLt }

/-- Removes a node: its own list is emptied, and it is taken out of those of the given nodes. -/
def removeAlong (g : Graph n) (u : Fin n) (nodes : List (Fin n)) : Graph n :=
  nodes.foldl (detach u) ⟨g.adjacency.set u [] u.isLt, g.removed.set u true u.isLt⟩

theorem neighbours_detach (g : Graph n) (u v w : Fin n) : (g.detach u v).neighbours w =
    if w = v then (g.neighbours v).erase u else g.neighbours w := by
  simp only [neighbours, detach, Fin.getElem_fin, Vector.getElem_set, Fin.ext_iff, eq_comm]

theorem neighbours_foldl_detach (g : Graph n) (u w : Fin n) {nodes : List (Fin n)}
    (hnodes : nodes.Nodup) : (nodes.foldl (detach u) g).neighbours w =
      if w ∈ nodes then (g.neighbours w).erase u else g.neighbours w := by
  induction nodes generalizing g with
  | nil => simp
  | cons v nodes ih =>
    obtain ⟨hv, hnodes⟩ := List.nodup_cons.1 hnodes
    rw [List.foldl_cons, ih _ hnodes, neighbours_detach]
    by_cases hwv : w = v
    · subst hwv
      simp [hv]
    · simp [hwv]

theorem removed_foldl_detach (g : Graph n) (u : Fin n) (nodes : List (Fin n)) :
    (nodes.foldl (detach u) g).removed = g.removed := by
  induction nodes generalizing g with
  | nil => rfl
  | cons v nodes ih => exact ih _

theorem ext_neighbours (hneighbours : ∀ u, g.neighbours u = h.neighbours u)
    (hremoved : g.removed = h.removed) : g = h := by
  obtain ⟨adjacency, removed⟩ := g
  obtain ⟨adjacency', removed'⟩ := h
  obtain rfl : removed = removed' := hremoved
  have : adjacency = adjacency' := Vector.ext fun i hi => hneighbours ⟨i, hi⟩
  rw [this]

/-- Going through the neighbours in any order removes the node from all lists. -/
theorem Shows.removeAlong_eq_remove (hg : g.Shows scopes cut) (order : g.Enumeration) (u : Fin n) :
    g.removeAlong u (order.list u) = g.remove u := by
  have hnodup : (order.list u).Nodup := (order.perm u).nodup_iff.2 (hg.nodup u)
  refine ext_neighbours (fun w => ?_) (removed_foldl_detach _ u _)
  have hcleared : (⟨g.adjacency.set u [] u.isLt, g.removed.set u true u.isLt⟩ :
      Graph n).neighbours w =
      if w = u then [] else g.neighbours w := by
    simp only [neighbours, Fin.getElem_fin, Vector.getElem_set, Fin.ext_iff, eq_comm]
  rw [removeAlong, neighbours_foldl_detach _ u w hnodup, hcleared, neighbours_remove]
  by_cases hwu : w = u
  · simp [hwu]
  · rw [if_neg hwu, if_neg hwu, ite_eq_left_iff, order.mem_list]
    -- a node that is no neighbour does not have the removed one in its list
    exact fun hw => (List.erase_of_not_mem fun h => hw (hg.symmetric w u h)).symm

/-- Removing a node along its neighbours puts it into the cut. -/
theorem Shows.removeAlong (hg : g.Shows scopes cut) (order : g.Enumeration) (u : Fin n) :
    (g.removeAlong u (order.list u)).Shows scopes (cut ++ [(u : Nat)]) := by
  rw [hg.removeAlong_eq_remove order u]
  exact hg.remove u

/-! ## Section 2: One node after the other -/

/-- The order in which the neighbours are listed. -/
def Enumeration.asListed (g : Graph n) : g.Enumeration := ⟨g.neighbours, fun _ => .refl _⟩

/-- One graph comes from another one by removing nodes in a given order, each along its neighbours at
that time. A node may be removed again. -/
inductive RemovesAlong : Graph n → List (Fin n) → Graph n → Prop where
  | done (g : Graph n) : RemovesAlong g [] g
  | step {g h : Graph n} {u : Fin n} {us : List (Fin n)} (order : g.Enumeration)
      (rest : RemovesAlong (g.removeAlong u (order.list u)) us h) : RemovesAlong g (u :: us) h

theorem RemovesAlong.eq_foldl {us : List (Fin n)} (hus : RemovesAlong g us h)
    (hg : g.Shows scopes cut) : h = us.foldl remove g := by
  induction hus generalizing cut with
  | done g => rfl
  | @step g h u us order _ ih =>
    rw [List.foldl_cons, ← hg.removeAlong_eq_remove order u]
    exact ih (hg.removeAlong order u)

theorem Shows.removesAlong_foldl (hg : g.Shows scopes cut) (us : List (Fin n)) :
    RemovesAlong g us (us.foldl Graph.remove g) := by
  induction us generalizing g cut with
  | nil => exact .done g
  | cons u us ih =>
    refine .step (.asListed g) ?_
    rw [hg.removeAlong_eq_remove]
    exact ih (hg.remove u)

/-- The orders of the neighbours make no difference. -/
theorem Shows.removesAlong_iff (hg : g.Shows scopes cut) {us : List (Fin n)} :
    RemovesAlong g us h ↔ h = us.foldl Graph.remove g := by
  constructor
  · exact fun hus => hus.eq_foldl hg
  · rintro rfl
    exact hg.removesAlong_foldl us

/-! ## Section 3: What is left -/

/-- A graph that shows the interaction outside a cut, with all that follows from it: being neighbours
goes both ways and never joins a node to itself, degrees count the interaction, and the nodes of the
cut have no neighbours left. -/
structure Mirrors (g : Graph n) (scopes : List (List Nat)) (cut : List Nat) : Prop extends
    Shows g scopes cut where
  symmetric : g.Symmetric
  irreflexive : ∀ u, u ∉ g.neighbours u
  /-- A degree is the number of variables with which the node interacts. -/
  degree_eq : ∀ u : Fin n, (g.degree u : ℕ∞) = ((interaction scopes cut).neighborSet u).encard
  degree_eq_zero : ∀ u : Fin n, (u : Nat) ∈ cut → g.degree u = 0

theorem Shows.mirrors (hg : g.Shows scopes cut) (hscopes : ∀ scope ∈ scopes, ∀ id ∈ scope, id < n) :
    g.Mirrors scopes cut where
  toShows := hg
  symmetric := hg.symmetric
  irreflexive u hu := (interaction scopes cut).irrefl ((hg.mem_neighbours u u).1 hu)
  degree_eq u := (encard_neighborSet hg hscopes u).symm
  degree_eq_zero _ hu := hg.degree_eq_zero hu

/-- **Neighbours are exact**: scopes over existing nodes have a graph, and whatever nodes are removed
from it, in any order and also repeatedly, neighbours are the different nodes that are left and have
a scope in common, degrees count them, and the nodes marked as removed are those removed so far. In
which order a removal goes through the neighbours does not show. -/
theorem adjacency_exact {scopes : List (List Nat)}
    (hscopes : ∀ scope ∈ scopes, ∀ id ∈ scope, id < n) :
    ∃ g : Graph n, ofScopes n scopes = .ok g ∧ ∀ removals : List (Fin n),
      let h := removals.foldl remove g
      h.Mirrors scopes (removals.map Fin.val) ∧ ∀ h', RemovesAlong g removals h' ↔ h' = h := by
  obtain ⟨g, hok, hg⟩ := exists_ofScopes hscopes
  refine ⟨g, hok, fun removals => ⟨?_, fun h' => hg.removesAlong_iff⟩⟩
  have hleft : (removals.foldl remove g).Shows scopes (removals.map Fin.val) :=
    hg.foldl_remove removals
  exact hleft.mirrors hscopes

/-- A scope that repeats a variable, one that comes again in another order, and a node that is removed
twice. -/
theorem adjacency_exact_repeated :
    let scopes := [[0, 1, 2, 0], [2, 3], [1, 2, 0], [4, 3], [5]]
    (∀ scope ∈ scopes, ∀ id ∈ scope, id < 6) ∧ ∃ g : Graph 6, ofScopes 6 scopes = .ok g ∧
      let h := ((g.remove 2).remove 0).remove 2
      h.Mirrors scopes [2, 0, 2] ∧ ∀ h', RemovesAlong g [2, 0, 2] h' ↔ h' = h := by
  intro scopes
  have hscopes : ∀ scope ∈ scopes, ∀ id ∈ scope, id < 6 := by decide
  obtain ⟨g, hok, hall⟩ := adjacency_exact hscopes
  exact ⟨hscopes, g, hok, hall [2, 0, 2]⟩

end PairedMarkov.Graph
