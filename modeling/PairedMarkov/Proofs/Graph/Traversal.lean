import PairedMarkov.Proofs.Graph.Components

/-!
# Components in any order of the neighbours

The neighbours of a node form a set, and whoever goes through a set meets its elements in some order.
A depth-first traversal marks a node when it is met for the first time and keeps it on a stack until
it is its turn; which node comes next depends on the order of the neighbours. What is reached in the
end does not: it is the set of nodes that a path joins to the start, and a component is listed in
increasing order.

Main statements:
- `Traversal.reaches_finish`: a traversal reaches the nodes joined to its start, each once, for any
  order of the neighbours;
- `componentsIn_eq_components`: so the components do not depend on these orders;
- `components_exact`: what the components of a graph are after any removals.
-/

namespace PairedMarkov.Graph

variable {n : Nat}

/-! ## Section 1: Traversals -/

/-- An order of the neighbours of each node. -/
structure Enumeration (g : Graph n) where
  /-- The neighbours of a node, in this order. -/
  list : Fin n → List (Fin n)
  perm : ∀ u, (list u).Perm (g.neighbours u)

theorem Enumeration.mem_list {g : Graph n} (order : g.Enumeration) {u v : Fin n} :
    v ∈ order.list u ↔ v ∈ g.neighbours u := (order.perm u).mem_iff

/-- A traversal on its way. -/
structure Traversal (n : Nat) where
  /-- The nodes that have been met. -/
  marked : Finset (Fin n)
  /-- Those of them whose turn is still to come. -/
  stack : List (Fin n)
  /-- Those whose turn it has been since the start, the last one first. -/
  component : List (Fin n)

namespace Traversal

/-- Meets a node: it is marked and put on the stack, unless it has been met before. -/
def meet (t : Traversal n) (v : Fin n) : Traversal n :=
  if v ∈ t.marked then t else { t with marked := insert v t.marked, stack := v :: t.stack }

/-- Takes a node into the component and meets the given nodes, one after the other. -/
def visit (t : Traversal n) (u : Fin n) (neighbours : List (Fin n)) : Traversal n :=
  neighbours.foldl meet { t with component := u :: t.component }

/-- What meeting some nodes does: those that are new come onto the stack, each once. -/
theorem exists_foldl_meet (t : Traversal n) (nodes : List (Fin n)) :
    ∃ pushed, nodes.foldl meet t = ⟨t.marked ∪ nodes.toFinset, pushed ++ t.stack, t.component⟩ ∧
      pushed.Nodup ∧ ∀ v, v ∈ pushed ↔ v ∈ nodes ∧ v ∉ t.marked := by
  induction nodes generalizing t with
  | nil => exact ⟨[], by simp, List.nodup_nil, by simp⟩
  | cons v nodes ih =>
    rw [List.foldl_cons, meet]
    split
    · -- the node has been met before, so that nothing is pushed for it
      rename_i hv
      obtain ⟨pushed, hfold, hnodup, hmem⟩ := ih t
      refine ⟨pushed, ?_, hnodup, fun w => ?_⟩
      · rw [hfold, List.toFinset_cons, Finset.union_insert, Finset.insert_eq_of_mem]
        exact Finset.mem_union_left _ hv
      · rw [hmem, List.mem_cons]
        constructor
        · exact fun h => ⟨Or.inr h.1, h.2⟩
        · rintro ⟨rfl | hw, hnew⟩
          · exact absurd hv hnew
          · exact ⟨hw, hnew⟩
    · rename_i hv
      obtain ⟨pushed, hfold, hnodup, hmem⟩ :=
        ih { t with marked := insert v t.marked, stack := v :: t.stack }
      refine ⟨pushed ++ [v], ?_, ?_, fun w => ?_⟩
      · rw [hfold, List.toFinset_cons, Finset.insert_union, Finset.union_insert,
          List.append_assoc, List.singleton_append]
      · -- the node is marked by now, and so it is not pushed again
        refine hnodup.append (List.nodup_singleton v) fun w hw hwv => ?_
        obtain rfl := List.mem_singleton.1 hwv
        exact ((hmem w).1 hw).2 (Finset.mem_insert_self w _)
      · simp only [List.mem_append, hmem, List.mem_cons, Finset.mem_insert]
        by_cases hwv : w = v
        · simp [hwv, hv]
        · simp [hwv]

/-- The steps that a traversal can still take: nodes whose turn is to come, and unmarked nodes. -/
def remaining (t : Traversal n) : Nat := t.stack.length + t.markedᶜ.card

theorem remaining_foldl_meet (t : Traversal n) (nodes : List (Fin n)) :
    (nodes.foldl meet t).remaining = t.remaining := by
  induction nodes generalizing t with
  | nil => rfl
  | cons v nodes ih =>
    rw [List.foldl_cons, ih, meet]
    split
    · rfl
    · rename_i hv
      -- the stack grows by the node that has been marked
      have hmem : v ∈ t.markedᶜ := Finset.mem_compl.2 hv
      have hcard := Finset.card_erase_add_one hmem
      rw [remaining, remaining, Finset.compl_insert, List.length_cons]
      omega

/-- Goes on until the stack is empty. -/
def finish (order : Fin n → List (Fin n)) (t : Traversal n) : Traversal n :=
  match _h : t.stack with
  | [] => t
  | u :: stack => finish order (({ t with stack } : Traversal n).visit u (order u))
termination_by t.remaining
decreasing_by
  rw [visit, remaining_foldl_meet]
  simp only [remaining, _h, List.length_cons]
  omega

/-- The traversal from a node, if some nodes have been met before. -/
def start (met : Finset (Fin n)) (u : Fin n) : Traversal n := ⟨insert u met, [u], []⟩

/-! ## Section 2: What a traversal reaches -/

/-- What a traversal from a node knows of the nodes that it has met since: they are new, there are no
others, each is in one place, and the neighbours of those whose turn it has been are among them. -/
structure Explores (g : Graph n) (met : Finset (Fin n)) (origin : Fin n) (t : Traversal n) :
    Prop where
  mem_marked : ∀ v, v ∈ t.marked ↔ v ∈ met ∨ v ∈ t.stack ++ t.component
  nodup : (t.stack ++ t.component).Nodup
  fresh : ∀ v ∈ t.stack ++ t.component, v ∉ met
  origin_mem : origin ∈ t.stack ++ t.component
  linked : ∀ v ∈ t.stack ++ t.component, g.Linked origin v
  marked_of_neighbour : ∀ u ∈ t.component, ∀ v ∈ g.neighbours u, v ∈ t.marked

variable {g : Graph n} {met : Finset (Fin n)} {origin : Fin n} {t : Traversal n}

theorem explores_start (hnew : origin ∉ met) : Explores g met origin (start met origin) where
  mem_marked v := by simp [start, or_comm]
  nodup := by simp [start]
  fresh v hv := by simpa [start, List.mem_singleton.1 hv] using hnew
  origin_mem := List.mem_singleton_self origin
  linked v hv := List.mem_singleton.1 hv ▸ Relation.ReflTransGen.refl
  marked_of_neighbour u hu := absurd hu List.not_mem_nil

/-- One step: the node on top of the stack goes into the component, and its new neighbours come onto
the stack in any order. -/
theorem Explores.visit (h : Explores g met origin t) (order : g.Enumeration) {u : Fin n}
    {stack : List (Fin n)} (hstack : t.stack = u :: stack) :
    Explores g met origin (({ t with stack } : Traversal n).visit u (order.list u)) := by
  obtain ⟨marked, _, component⟩ := t
  obtain rfl : _ = u :: stack := hstack
  obtain ⟨pushed, hfold, hpushed, hmem⟩ :=
    exists_foldl_meet ⟨marked, stack, u :: component⟩ (order.list u)
  simp only [order.mem_list] at hmem
  -- the nodes of the three lists are those met so far and the new ones
  have hperm : (pushed ++ stack ++ u :: component).Perm (pushed ++ (u :: stack ++ component)) := by
    rw [List.append_assoc]
    exact List.perm_middle.append_left pushed
  have hiff : ∀ v, v ∈ pushed ++ stack ++ u :: component ↔
      v ∈ pushed ∨ v ∈ u :: stack ++ component := fun v => by rw [hperm.mem_iff, List.mem_append]
  have hnew : ∀ v ∈ pushed, v ∉ met ∧ v ∉ u :: stack ++ component := fun v hv =>
    not_or.1 (mt (h.mem_marked v).2 ((hmem v).1 hv).2)
  rw [Traversal.visit, hfold]
  refine ⟨fun v => ?_, ?_, fun v hv => ?_, (hiff _).2 (Or.inr h.origin_mem), fun v hv => ?_,
    fun w hw v hv => ?_⟩
  · simp only [hiff, hmem, Finset.mem_union, List.mem_toFinset, order.mem_list, h.mem_marked]
    tauto
  · exact hperm.nodup_iff.2 (hpushed.append h.nodup fun v hv => (hnew v hv).2)
  · exact ((hiff v).1 hv).elim (fun hv => (hnew v hv).1) (h.fresh v)
  · refine ((hiff v).1 hv).elim (fun hv => ?_) (h.linked v)
    exact (h.linked u List.mem_cons_self).tail ((hmem v).1 hv).1
  · rcases List.mem_cons.1 hw with rfl | hw
    · exact Finset.mem_union_right _ (List.mem_toFinset.2 (order.mem_list.2 hv))
    · exact Finset.mem_union_left _ (h.marked_of_neighbour w hw v hv)

/-- A whole run. -/
theorem Explores.finish (h : Explores g met origin t) (order : g.Enumeration) :
    Explores g met origin (t.finish order.list) ∧ (t.finish order.list).stack = [] := by
  fun_induction Traversal.finish order.list t with
  | case1 t hstack => exact ⟨h, hstack⟩
  | case2 t u stack hstack ih => exact ih (h.visit order hstack)

/-- Edges do not lead out of some nodes. -/
def ClosedSet (g : Graph n) (met : Finset (Fin n)) : Prop :=
  ∀ u ∈ met, ∀ v ∈ g.neighbours u, v ∈ met

/-- **What is reached** from a node are the nodes that a path joins to it. -/
theorem Explores.mem_component_iff (h : Explores g met origin t) (hstack : t.stack = [])
    (hsymm : g.Symmetric) (hmet : ClosedSet g met) (v : Fin n) :
    v ∈ t.component ↔ g.Linked origin v := by
  obtain ⟨marked, _, component⟩ := t
  obtain rfl : _ = [] := hstack
  refine ⟨h.linked v, fun hlink => ?_⟩
  induction hlink with
  | refl => exact h.origin_mem
  | @tail a b _ hedge ih =>
    have hb := (h.mem_marked b).1 (h.marked_of_neighbour a ih b hedge)
    -- an edge back would lead from the nodes met before to a new one
    exact hb.resolve_left fun hb => h.fresh a ih (hmet b hb a (hsymm a b hedge))

/-- What a traversal has done in the end. -/
structure Reaches (t : Traversal n) (g : Graph n) (met : Finset (Fin n)) (origin : Fin n) :
    Prop where
  mem_component : ∀ v, v ∈ t.component ↔ g.Linked origin v
  nodup : t.component.Nodup
  fresh : ∀ v ∈ t.component, v ∉ met
  mem_marked : ∀ v, v ∈ t.marked ↔ v ∈ met ∨ v ∈ t.component
  closed : ClosedSet g t.marked

theorem Reaches.origin_mem (h : t.Reaches g met origin) : origin ∈ t.component :=
  (h.mem_component origin).2 Relation.ReflTransGen.refl

theorem reaches_finish (hsymm : g.Symmetric) (hmet : ClosedSet g met) (hnew : origin ∉ met)
    (order : g.Enumeration) : ((start met origin).finish order.list).Reaches g met origin := by
  obtain ⟨h, hstack⟩ := (explores_start hnew).finish order
  have hmarked := h.mem_marked
  have hnodup := h.nodup
  have hfresh := h.fresh
  rw [hstack, List.nil_append] at hmarked hnodup hfresh
  refine ⟨h.mem_component_iff hstack hsymm hmet, hnodup, hfresh, hmarked, fun u hu v hv => ?_⟩
  rcases (hmarked u).1 hu with hu | hu
  · exact (hmarked v).2 (Or.inl (hmet u hu v hv))
  · exact h.marked_of_neighbour u hu v hv

end Traversal

/-! ## Section 3: The components -/

/-- The components, each found by a traversal from the first node that has not been met. -/
def componentsFrom (order : Fin n → List (Fin n)) (met : Finset (Fin n)) :
    List (Fin n) → List (List (Fin n))
  | [] => []
  | u :: nodes =>
    if u ∈ met then componentsFrom order met nodes
    else
      let t := (Traversal.start met u).finish order
      t.component.mergeSort (fun v w => decide (v ≤ w)) :: componentsFrom order t.marked nodes

/-- The connected components for an order of the neighbours of each node. -/
def componentsIn (g : Graph n) (order : g.Enumeration) : List (List (Fin n)) :=
  componentsFrom order.list ∅ (List.finRange n)

variable {g : Graph n}

section Reaches

variable {met : Finset (Fin n)} {u : Fin n} {t : Traversal n} {nodes : List (Fin n)}
  (h : t.Reaches g met u) (hall : ∀ v, v ∉ met → v ∈ u :: nodes)
  (hnodes : (u :: nodes).Pairwise (· < ·))

include h hall hnodes

/-- A traversal takes what it reaches from the nodes that have not been met, and leaves the rest. -/
theorem Traversal.Reaches.perm : (t.component ++ nodes.filter (· ∉ t.marked)).Perm
    ((u :: nodes).filter (· ∉ met)) := by
  refine (List.perm_ext_iff_of_nodup ?_ (hnodes.nodup.filter _)).2 fun v => ?_
  · refine h.nodup.append (hnodes.tail.nodup.filter _) fun v hv hv' => ?_
    exact of_decide_eq_true (List.mem_filter.1 hv').2 ((h.mem_marked v).2 (Or.inr hv))
  · simp only [List.mem_append, List.mem_filter, decide_eq_true_iff, h.mem_marked, not_or]
    constructor
    · rintro (hv | ⟨hv, hnew, -⟩)
      · exact ⟨hall v (h.fresh v hv), h.fresh v hv⟩
      · exact ⟨List.mem_cons_of_mem u hv, hnew⟩
    · rintro ⟨hv, hnew⟩
      by_cases hc : v ∈ t.component
      · exact Or.inl hc
      · exact Or.inr ⟨(List.mem_cons.1 hv).resolve_left fun hvu => hc (hvu ▸ h.origin_mem), hnew, hc⟩

/-- What one traversal reaches goes in front of the components of the nodes that it leaves. -/
theorem Traversal.Reaches.cons (hsymm : g.Symmetric) {rest : List (List (Fin n))}
    (hrest : AreComponents g.Linked (nodes.filter (· ∉ t.marked)) rest) :
    AreComponents g.Linked ((u :: nodes).filter (· ∉ met))
      (t.component.mergeSort (fun v w => decide (v ≤ w)) :: rest) where
  perm := ((List.mergeSort_perm _ _).append hrest.perm).trans (h.perm hall hnodes)
  mem_iff := by
    refine List.forall_mem_cons.2 ⟨fun v hv w => ?_, hrest.mem_iff⟩
    -- both nodes are joined to the origin
    rw [List.mem_mergeSort, h.mem_component] at hv ⊢
    exact ⟨(hsymm.linked hv).trans, hv.trans⟩
  ne_nil := by
    refine List.forall_mem_cons.2 ⟨?_, hrest.ne_nil⟩
    exact List.ne_nil_of_mem (List.mem_mergeSort.2 h.origin_mem)
  sorted := List.forall_mem_cons.2 ⟨sorted_mergeSort h.nodup, hrest.sorted⟩
  ordered := by
    refine List.pairwise_cons.2
      ⟨fun l hl => ⟨u, List.mem_mergeSort.2 h.origin_mem, fun v hv => ?_⟩, hrest.ordered⟩
    have hv' := hrest.perm.mem_iff.1 (List.mem_flatten_of_mem hl hv)
    exact (List.pairwise_cons.1 hnodes).1 v (List.mem_of_mem_filter hv')

end Reaches

theorem areComponents_componentsFrom (hsymm : g.Symmetric) (order : g.Enumeration)
    {met : Finset (Fin n)} {nodes : List (Fin n)} (hmet : Traversal.ClosedSet g met)
    (hall : ∀ v, v ∉ met → v ∈ nodes) (hnodes : nodes.Pairwise (· < ·)) :
    AreComponents g.Linked (nodes.filter (· ∉ met)) (componentsFrom order.list met nodes) := by
  fun_induction componentsFrom order.list met nodes with
  | case1 met => exact ⟨.refl _, by simp, by simp, by simp, .nil⟩
  | case2 met u nodes hu ih =>
    rw [List.filter_cons_of_neg (by simpa using hu)]
    refine ih hmet (fun v hv => ?_) hnodes.tail
    exact (List.mem_cons.1 (hall v hv)).resolve_left fun h => hv (h ▸ hu)
  | case3 met u nodes hu t ih =>
    have h : t.Reaches g met u := Traversal.reaches_finish hsymm hmet hu order
    refine h.cons hall hnodes hsymm (ih h.closed (fun v hv => ?_) hnodes.tail)
    have hv' := not_or.1 (mt (h.mem_marked v).2 hv)
    exact (List.mem_cons.1 (hall v hv'.1)).resolve_left fun hvu => hv'.2 (hvu ▸ h.origin_mem)

theorem areComponents_componentsIn (hsymm : g.Symmetric) (order : g.Enumeration) :
    AreComponents g.Linked (List.finRange n) (g.componentsIn order) := by
  have hmet : Traversal.ClosedSet g ∅ := fun u hu => absurd hu (Finset.notMem_empty u)
  simpa [componentsIn] using areComponents_componentsFrom hsymm order hmet
    (fun v _ => List.mem_finRange v) (List.pairwise_lt_finRange n)

/-- The order of the neighbours makes no difference. -/
theorem componentsIn_eq_components (hsymm : g.Symmetric) (order : g.Enumeration) :
    g.componentsIn order = g.components :=
  (areComponents_componentsIn hsymm order).unique (areComponents_components hsymm)

/-! ## Section 4: Graphs of scopes -/

/-- **Components are exact**: whatever nodes are removed from a graph of scopes, its connected
components are those of the interaction outside these nodes, and any order of the neighbours gives
the same ones. -/
theorem components_exact {scopes : List (List Nat)} (hok : ofScopes n scopes = .ok g)
    (removals : List (Fin n)) :
    let h := removals.foldl remove g
    h.Shows scopes (removals.map Fin.val) ∧
      AreComponents (fun u v => (interaction scopes (removals.map Fin.val)).Reachable u v)
        (List.finRange n) h.components ∧
      ∀ order : h.Enumeration, h.componentsIn order = h.components := by
  intro h
  have hh : h.Shows scopes (removals.map Fin.val) := (shows_of_ofScopes hok).foldl_remove removals
  have hlinked : ∀ u v, h.Linked u v ↔
      (interaction scopes (removals.map Fin.val)).Reachable u v := fun u v =>
    hh.linked_iff_of_lt fun huv => lt_of_ofScopes hok huv
  exact ⟨hh, (areComponents_components hh.symmetric).congr hlinked,
    componentsIn_eq_components hh.symmetric⟩

/-- A chain of four nodes that loses its second node, twice, beside a pair; a scope of one variable
joins nothing, not even if there is no such node. -/
theorem components_exact_chain :
    let scopes := [[0, 1], [2, 1], [2, 3], [5, 4], [9]]
    ∃ g : Graph 6, ofScopes 6 scopes = .ok g ∧
      let h := (g.remove 1).remove 1
      h.Shows scopes [1, 1] ∧
        AreComponents (fun u v => (interaction scopes [1, 1]).Reachable u v) (List.finRange 6)
          h.components ∧
        ∀ order : h.Enumeration, h.componentsIn order = h.components := by
  let g : Graph 6 := ⟨#v[[1], [2, 0], [3, 1], [2], [5], [4]], .replicate 6 false⟩
  exact ⟨g, rfl, components_exact (g := g) rfl [1, 1]⟩

end PairedMarkov.Graph
