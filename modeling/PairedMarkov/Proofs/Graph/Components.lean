import PairedMarkov.Proofs.Graph.Adjacency
import PairedMarkov.Graph.Components

/-!
# What connected components are

Following edges from a stack splits the nodes into those that are reached and those that are not.
Nothing is lost (`explore_perm`), no edge leads from a reached node to one left unreached
(`explore_separated`), and every reached node can be reached from the stack (`explore_reachable`).
Together these say that the nodes reached from one node are those joined to it by a path.

Main statements, for nodes that edges do not lead out of:
- `componentsAmong_perm`: every node is in exactly one component, exactly once;
- `mem_component_iff`: two nodes are in one component exactly if a path joins them;
- `component_sorted`: components are listed in increasing order.
-/

namespace PairedMarkov.Graph

variable {n : Nat} {g : Graph n}

/-- A path of edges leads from one node to another. -/
def Linked (g : Graph n) : Fin n → Fin n → Prop :=
  Relation.ReflTransGen fun u v => v ∈ g.neighbours u

/-- Edges have no direction. -/
def Symmetric (g : Graph n) : Prop := ∀ u v, v ∈ g.neighbours u → u ∈ g.neighbours v

/-- No edge leads out of some nodes. -/
def Closed (g : Graph n) (nodes : List (Fin n)) : Prop :=
  ∀ u ∈ nodes, ∀ v ∈ g.neighbours u, v ∈ nodes

theorem Symmetric.linked (hg : g.Symmetric) {u v : Fin n} (h : g.Linked u v) : g.Linked v u := by
  have : Std.Symm fun u v => v ∈ g.neighbours u := ⟨hg⟩
  exact Relation.ReflTransGen.stdSymm.symm u v h

/-! ## Section 1: Following edges -/

theorem explore_perm (g : Graph n) (stack unreached : List (Fin n)) :
    ((g.explore stack unreached).1 ++ (g.explore stack unreached).2).Perm (stack ++ unreached) := by
  fun_induction explore g stack unreached with
  | case1 unreached => exact List.Perm.refl _
  | case2 u stack unreached split result ih =>
    -- the neighbours move from the unreached nodes to the stack
    have hsplit : (split.1 ++ split.2).Perm unreached := by
      simp only [split, splitNeighbours_eq]
      exact List.filter_append_perm _ unreached
    refine List.Perm.cons u (ih.trans ?_)
    rw [List.append_assoc]
    exact (List.perm_append_comm_assoc _ _ _).trans (hsplit.append_left stack)

theorem explore_separated {stack unreached : List (Fin n)} {v w : Fin n}
    (hv : v ∈ (g.explore stack unreached).1) (hw : w ∈ (g.explore stack unreached).2) :
    w ∉ g.neighbours v := by
  fun_induction explore g stack unreached with
  | case1 unreached => exact absurd hv List.not_mem_nil
  | case2 u stack unreached split result ih =>
    rcases List.mem_cons.1 hv with rfl | hv
    · -- a neighbour would have been put on the stack, and `w` never was
      have hmem : w ∈ split.2 := (g.explore_left_sublist _ _).mem hw
      simp only [split, splitNeighbours_eq, List.mem_filter] at hmem
      simpa using hmem.2
    · exact ih hv hw

theorem explore_reachable {stack unreached : List (Fin n)} {v : Fin n}
    (hv : v ∈ (g.explore stack unreached).1) : ∃ u ∈ stack, g.Linked u v := by
  fun_induction explore g stack unreached with
  | case1 unreached => exact absurd hv List.not_mem_nil
  | case2 u stack unreached split result ih =>
    rcases List.mem_cons.1 hv with rfl | hv
    · exact ⟨v, List.mem_cons_self, Relation.ReflTransGen.refl⟩
    · obtain ⟨w, hw, hlink⟩ := ih hv
      rcases List.mem_append.1 hw with hw | hw
      · -- `w` was put on the stack because it is a neighbour of `u`
        simp only [split, splitNeighbours_eq, List.mem_filter, List.contains_iff_mem] at hw
        exact ⟨u, List.mem_cons_self, Relation.ReflTransGen.head hw.2 hlink⟩
      · exact ⟨w, List.mem_cons_of_mem u hw, hlink⟩

/-- From one node exactly those nodes are reached that a path joins to it. -/
theorem mem_explore_singleton_iff {u w : Fin n} {nodes : List (Fin n)}
    (hclosed : g.Closed (u :: nodes)) : w ∈ (g.explore [u] nodes).1 ↔ g.Linked u w := by
  constructor
  · intro hw
    obtain ⟨v, hv, hlink⟩ := explore_reachable hw
    exact List.mem_singleton.1 hv ▸ hlink
  · intro hlink
    have hall : ∀ a, a ∈ (g.explore [u] nodes).1 ∨ a ∈ (g.explore [u] nodes).2 ↔
        a ∈ u :: nodes := by
      intro a
      rw [← List.mem_append, (g.explore_perm [u] nodes).mem_iff]
      rfl
    induction hlink with
    | refl =>
      rw [explore]
      exact List.mem_cons_self
    | @tail a b _ hedge ih =>
      -- the path does not leave the nodes, and no edge leads from a reached to an unreached one
      have hb : b ∈ u :: nodes := hclosed a ((hall a).1 (Or.inl ih)) b hedge
      exact ((hall b).2 hb).resolve_right fun hb => explore_separated ih hb hedge

/-- Edges do not lead from the nodes left unreached to others either. -/
theorem Closed.explore_left {u : Fin n} {nodes : List (Fin n)} (hsymm : g.Symmetric)
    (hclosed : g.Closed (u :: nodes)) : g.Closed (g.explore [u] nodes).2 := by
  intro a ha b hedge
  have hmem : b ∈ (g.explore [u] nodes).1 ++ (g.explore [u] nodes).2 := by
    refine (g.explore_perm [u] nodes).mem_iff.2 (hclosed a ?_ b hedge)
    exact List.mem_cons_of_mem u ((g.explore_left_sublist [u] nodes).mem ha)
  rcases List.mem_append.1 hmem with hb | hb
  · -- the edge back would lead from a reached node to an unreached one
    exact absurd (hsymm a b hedge) (explore_separated hb ha)
  · exact hb

/-! ## Section 2: The components among some nodes -/

/-- Every node is in exactly one component, and there exactly once. -/
theorem componentsAmong_perm (g : Graph n) (nodes : List (Fin n)) :
    (g.componentsAmong nodes).flatten.Perm nodes := by
  fun_induction componentsAmong g nodes with
  | case1 => exact List.Perm.refl _
  | case2 u nodes result ih =>
    rw [List.flatten_cons]
    exact ((List.mergeSort_perm _ _).append ih).trans (g.explore_perm [u] nodes)

theorem component_ne_nil {nodes component : List (Fin n)}
    (hc : component ∈ g.componentsAmong nodes) : component ≠ [] := by
  fun_induction componentsAmong g nodes with
  | case1 => exact absurd hc List.not_mem_nil
  | case2 u nodes result ih =>
    rcases List.mem_cons.1 hc with rfl | hc
    · have hu : u ∈ result.1 := by
        simp only [result, explore]
        exact List.mem_cons_self
      exact List.ne_nil_of_mem (List.mem_mergeSort.2 hu)
    · exact ih hc

/-- Sorting does not remove repetitions, but if there are none, then it makes a list increasing. -/
theorem sorted_mergeSort {l : List (Fin n)} (hnodup : l.Nodup) :
    (l.mergeSort fun v w => decide (v ≤ w)).Pairwise (· < ·) := by
  have hsorted : (l.mergeSort fun v w => decide (v ≤ w)).Pairwise fun v w => decide (v ≤ w) :=
    List.pairwise_mergeSort (by simpa using fun _ _ _ => le_trans) (by simpa using le_total) _
  have hnodup' := (List.mergeSort_perm l fun v w => decide (v ≤ w)).nodup_iff.2 hnodup
  exact (hsorted.and hnodup').imp fun h => lt_of_le_of_ne (of_decide_eq_true h.1) h.2

/-- Components are listed in increasing order. -/
theorem component_sorted {nodes component : List (Fin n)} (hnodup : nodes.Nodup)
    (hc : component ∈ g.componentsAmong nodes) : component.Pairwise (· < ·) := by
  fun_induction componentsAmong g nodes with
  | case1 => exact absurd hc List.not_mem_nil
  | case2 u nodes result ih =>
    have hperm : (result.1 ++ result.2).Nodup := (g.explore_perm [u] nodes).nodup_iff.2 hnodup
    rcases List.mem_cons.1 hc with rfl | hc
    · exact sorted_mergeSort (List.nodup_append.1 hperm).1
    · exact ih (List.nodup_append.1 hperm).2.1 hc

/-- Two nodes are in one component exactly if a path joins them. -/
theorem mem_component_iff {nodes component : List (Fin n)} (hsymm : g.Symmetric)
    (hclosed : g.Closed nodes) (hc : component ∈ g.componentsAmong nodes) {v : Fin n}
    (hv : v ∈ component) (w : Fin n) : w ∈ component ↔ g.Linked v w := by
  fun_induction componentsAmong g nodes with
  | case1 => exact absurd hc List.not_mem_nil
  | case2 u nodes result ih =>
    rcases List.mem_cons.1 hc with rfl | hc
    · -- both nodes are joined to the node at which the component was begun
      rw [List.mem_mergeSort, mem_explore_singleton_iff hclosed] at hv ⊢
      exact ⟨(hsymm.linked hv).trans, hv.trans⟩
    · exact ih (hclosed.explore_left hsymm) hc

/-! ## Section 3: Components by themselves -/

/-- A list has a node that comes before all nodes of another one. -/
def Precedes (l l' : List (Fin n)) : Prop := ∃ u ∈ l, ∀ v ∈ l', u < v

instance : Std.Irrefl (Precedes (n := n)) where
  irrefl := fun _ ⟨u, hu, hlt⟩ => lt_irrefl u (hlt u hu)

instance : Std.Antisymm (Precedes (n := n)) where
  antisymm := fun _ _ ⟨u, hu, hlt⟩ ⟨v, hv, hlt'⟩ => absurd (hlt v hv) (hlt' u hu).asymm

/-- The connected components of some nodes under a relation that says which nodes are joined: what
they are, whoever finds them. -/
structure AreComponents (joined : Fin n → Fin n → Prop) (nodes : List (Fin n))
    (lists : List (List (Fin n))) : Prop where
  /-- Every node is in exactly one list, exactly once. -/
  perm : lists.flatten.Perm nodes
  /-- Two nodes are in one list exactly if they are joined. -/
  mem_iff : ∀ l ∈ lists, ∀ u ∈ l, ∀ v, v ∈ l ↔ joined u v
  ne_nil : ∀ l ∈ lists, l ≠ []
  sorted : ∀ l ∈ lists, l.Pairwise (· < ·)
  /-- The lists come in the order of their smallest nodes. -/
  ordered : lists.Pairwise Precedes

section AreComponents

variable {joined : Fin n → Fin n → Prop} {nodes : List (Fin n)} {lists lists' : List (List (Fin n))}

theorem AreComponents.mem_lists (h : AreComponents joined nodes lists)
    (h' : AreComponents joined nodes lists') {l : List (Fin n)} (hl : l ∈ lists) : l ∈ lists' := by
  obtain ⟨u, hu⟩ := List.exists_mem_of_ne_nil l (h.ne_nil l hl)
  have hnode : u ∈ nodes := h.perm.mem_iff.1 (List.mem_flatten_of_mem hl hu)
  obtain ⟨l', hl', hu'⟩ := List.mem_flatten.1 (h'.perm.mem_iff.2 hnode)
  -- both lists hold what is joined to `u`, in increasing order
  have hmem : ∀ v, v ∈ l ↔ v ∈ l' := fun v => by rw [h.mem_iff l hl u hu, h'.mem_iff l' hl' u hu']
  exact (h.sorted l hl).eq_of_mem_iff (h'.sorted l' hl') hmem ▸ hl'

/-- There is only one way to list the components. -/
theorem AreComponents.unique (h : AreComponents joined nodes lists)
    (h' : AreComponents joined nodes lists') : lists = lists' :=
  h.ordered.eq_of_mem_iff h'.ordered fun _ => ⟨h.mem_lists h', h'.mem_lists h⟩

theorem AreComponents.congr {joined' : Fin n → Fin n → Prop} (h : AreComponents joined nodes lists)
    (hjoined : ∀ u v, joined u v ↔ joined' u v) : AreComponents joined' nodes lists where
  perm := h.perm
  mem_iff l hl u hu v := (h.mem_iff l hl u hu v).trans (hjoined u v)
  ne_nil := h.ne_nil
  sorted := h.sorted
  ordered := h.ordered

theorem filter_flatten {test : Fin n → Bool} {keep : List (Fin n) → Bool}
    (hkeep : ∀ l ∈ lists, ∀ u ∈ l, keep l = test u) :
    lists.flatten.filter test = (lists.filter keep).flatten := by
  induction lists with
  | nil => rfl
  | cons l lists ih =>
    obtain ⟨hl, hkeep⟩ := List.forall_mem_cons.1 hkeep
    rw [List.flatten_cons, List.filter_append, ih hkeep, List.filter_cons]
    split
    · rename_i hl'
      rw [List.filter_eq_self.2 fun u hu => (hl u hu).symm.trans hl', List.flatten_cons]
    · rename_i hl'
      rw [List.filter_eq_nil_iff.2 fun u hu => hl u hu ▸ hl', List.nil_append]

/-- The components of some of the nodes, if no component has both nodes of these and others. -/
theorem AreComponents.filter (h : AreComponents joined nodes lists) {test : Fin n → Bool}
    {keep : List (Fin n) → Bool} (hkeep : ∀ l ∈ lists, ∀ u ∈ l, keep l = test u) :
    AreComponents joined (nodes.filter test) (lists.filter keep) where
  perm := filter_flatten hkeep ▸ h.perm.filter test
  mem_iff l hl := h.mem_iff l (List.mem_of_mem_filter hl)
  ne_nil l hl := h.ne_nil l (List.mem_of_mem_filter hl)
  sorted l hl := h.sorted l (List.mem_of_mem_filter hl)
  ordered := h.ordered.filter keep

end AreComponents

/-- The components come in the order of their smallest nodes. -/
theorem componentsAmong_ordered {nodes : List (Fin n)} (hnodes : nodes.Pairwise (· < ·)) :
    (g.componentsAmong nodes).Pairwise Precedes := by
  fun_induction componentsAmong g nodes with
  | case1 => exact List.Pairwise.nil
  | case2 u nodes result ih =>
    obtain ⟨hu, hnodes⟩ := List.pairwise_cons.1 hnodes
    have hleft := g.explore_left_sublist [u] nodes
    refine List.pairwise_cons.2 ⟨fun component hc => ⟨u, ?_, fun v hv => ?_⟩,
      ih (hnodes.sublist hleft)⟩
    · simp only [List.mem_mergeSort, result, explore]
      exact List.mem_cons_self
    · exact hu v (hleft.mem (mem_of_mem_componentsAmong hc hv))

/-- What is computed are the components. -/
theorem areComponents_componentsAmong {nodes : List (Fin n)} (hsymm : g.Symmetric)
    (hclosed : g.Closed nodes) (hnodes : nodes.Pairwise (· < ·)) :
    AreComponents g.Linked nodes (g.componentsAmong nodes) where
  perm := componentsAmong_perm g nodes
  mem_iff _ hc _ hu := mem_component_iff hsymm hclosed hc hu
  ne_nil _ := component_ne_nil
  sorted _ := component_sorted hnodes.nodup
  ordered := componentsAmong_ordered hnodes

theorem areComponents_components (hsymm : g.Symmetric) :
    AreComponents g.Linked (List.finRange n) g.components :=
  areComponents_componentsAmong hsymm (fun _ _ v _ => List.mem_finRange v)
    (List.pairwise_lt_finRange n)

/-! ## Section 4: Paths of an interaction -/

variable {scopes : List (List Nat)} {cut : List Nat}

theorem Shows.symmetric (hg : g.Shows scopes cut) : g.Symmetric := by
  intro u v h
  rw [hg.mem_neighbours] at h ⊢
  exact h.symm

/-- The live nodes are those outside the cut. -/
theorem Shows.mem_live_iff (hg : g.Shows scopes cut) {u : Fin n} : u ∈ g.live ↔ (u : Nat) ∉ cut := by
  rw [mem_live, ← hg.isRemoved, Bool.not_eq_true]

theorem Shows.closed_live (hg : g.Shows scopes cut) : g.Closed g.live := by
  intro u _ v h
  exact hg.mem_live_iff.2 ((hg.mem_neighbours u v).1 h).2.2.1

theorem nodup_live (g : Graph n) : g.live.Nodup := (List.nodup_finRange n).filter _

theorem sorted_live (g : Graph n) : g.live.Pairwise (· < ·) := (List.pairwise_lt_finRange n).filter _

/-- Paths of the graph are those of the interaction, if that joins only nodes of the graph. -/
theorem Shows.linked_iff_of_lt (hg : g.Shows scopes cut)
    (hlt : ∀ {u v}, (interaction scopes cut).Adj u v → v < n) {u v : Fin n} :
    g.Linked u v ↔ (interaction scopes cut).Reachable u v := by
  rw [SimpleGraph.reachable_iff_reflTransGen]
  constructor
  · intro h
    exact Relation.ReflTransGen.lift Fin.val (fun a b h => (hg.mem_neighbours a b).1 h) u v h
  · suffices h : ∀ w : Nat, Relation.ReflTransGen (interaction scopes cut).Adj u w →
        ∃ hw : w < n, g.Linked u ⟨w, hw⟩ from fun hv => (h v hv).2
    intro w hw
    -- every node on the path exists, because an edge leads to it
    induction hw with
    | refl => exact ⟨u.isLt, Relation.ReflTransGen.refl⟩
    | tail _ hedge ih =>
      obtain ⟨ha, hlink⟩ := ih
      exact ⟨hlt hedge, hlink.tail ((hg.mem_neighbours _ _).2 hedge)⟩

theorem Shows.linked_iff (hg : g.Shows scopes cut) (hscopes : ∀ scope ∈ scopes, ∀ id ∈ scope, id < n)
    {u v : Fin n} : g.Linked u v ↔ (interaction scopes cut).Reachable u v := by
  refine hg.linked_iff_of_lt fun h => ?_
  obtain ⟨_, _, _, scope, hscope, _, hv⟩ := h
  exact hscopes scope hscope _ hv

end PairedMarkov.Graph
