import PairedMarkov.Proofs.Checked
import PairedMarkov.Graph.Basic

/-!
# What an interaction graph shows

The lists of neighbours of a graph are compared with a relation that knows nothing of how they are
kept: two variables *interact* if they are different and some scope holds both. Variables of a cut
interact with none.

Main statements: the graph of a list of scopes shows exactly their interaction
(`shows_of_ofScopes`), scopes over existing nodes have a graph (`exists_ofScopes`), and removing a
node turns the interaction into that with the node in the cut (`Shows.remove`). Whatever nodes are
removed, in any order and also repeatedly, the lists of neighbours stay those of the interaction
outside the removed nodes, and their lengths count it (`encard_neighborSet`).
-/

namespace PairedMarkov

/-- The interaction of variables under scopes: two different variables outside the cut are joined if
a scope holds both. -/
def interaction (scopes : List (List Nat)) (cut : List Nat) : SimpleGraph Nat where
  Adj u v := u ≠ v ∧ u ∉ cut ∧ v ∉ cut ∧ ∃ scope ∈ scopes, u ∈ scope ∧ v ∈ scope
  symm := by
    constructor
    rintro u v ⟨hne, hu, hv, scope, hscope, hmem⟩
    exact ⟨hne.symm, hv, hu, scope, hscope, hmem.symm⟩
  loopless := ⟨fun u h => h.1 rfl⟩

namespace Graph

variable {n : Nat}

/-- The graph shows the interaction under some scopes outside a cut, and the nodes of the cut are
the removed ones. -/
structure Shows (g : Graph n) (scopes : List (List Nat)) (cut : List Nat) : Prop where
  mem_neighbours : ∀ u v : Fin n, v ∈ g.neighbours u ↔ (interaction scopes cut).Adj u v
  nodup : ∀ u, (g.neighbours u).Nodup
  isRemoved : ∀ u, g.isRemoved u = true ↔ (u : Nat) ∈ cut

/-! ## Section 1: Joining nodes -/

theorem neighbours_point (g : Graph n) (u v w : Fin n) :
    (g.point u v).neighbours w = if w = u then (g.neighbours u).insert v else g.neighbours w := by
  simp only [neighbours, point, Fin.getElem_fin, Vector.getElem_set, Fin.ext_iff, eq_comm]

theorem mem_neighbours_join (g : Graph n) {u v a b : Fin n} :
    b ∈ (g.join u v).neighbours a ↔
      b ∈ g.neighbours a ∨ (a = u ∧ b = v) ∨ (a = v ∧ b = u) := by
  -- the two ends may be one node, which then becomes its own neighbour
  simp only [join, neighbours_point]
  by_cases hav : a = v <;> by_cases hau : a = u <;> by_cases hvu : v = u <;>
    simp_all [List.mem_insert_iff, or_comm]

theorem nodup_neighbours_join {g : Graph n} (h : ∀ a, (g.neighbours a).Nodup) (u v a : Fin n) :
    ((g.join u v).neighbours a).Nodup := by
  simp only [join, neighbours_point]
  split
  · split
    · exact ((h u).insert).insert
    · exact (h v).insert
  · split
    · exact (h u).insert
    · exact h a

theorem isRemoved_join (g : Graph n) (u v a : Fin n) :
    (g.join u v).isRemoved a = g.isRemoved a := rfl

/-! ## Section 2: Joining scopes -/

theorem node_eq_ok {id : Nat} (h : id < n) : node n id = .ok ⟨id, h⟩ := dif_pos h

theorem node_eq_ok_iff {id : Nat} {u : Fin n} : node n id = .ok u ↔ (u : Nat) = id := by
  unfold node
  split
  · simp [Fin.ext_iff, eq_comm]
  · rename_i hid
    simp only [reduceCtorEq, false_iff]
    exact fun h => hid (h ▸ u.isLt)

/-- What a computation on graphs does to them: it adds the edges of a relation between numbers of
nodes and keeps lists without repetitions and removed nodes. -/
structure Adds (edge : Nat → Nat → Prop) (g h : Graph n) : Prop where
  mem_neighbours : ∀ a b : Fin n, b ∈ h.neighbours a ↔ b ∈ g.neighbours a ∨ edge a b
  nodup : (∀ a, (g.neighbours a).Nodup) → ∀ a, (h.neighbours a).Nodup
  isRemoved : ∀ a, h.isRemoved a = g.isRemoved a
  lt : ∀ a b, edge a b → a < n ∧ b < n

theorem Adds.refl (g : Graph n) : Adds (fun _ _ => False) g g :=
  ⟨fun _ _ => (or_iff_left id).symm, fun h => h, fun _ => rfl, fun _ _ h => h.elim⟩

theorem Adds.trans {edge edge' : Nat → Nat → Prop} {g h k : Graph n} (hgh : Adds edge g h)
    (hhk : Adds edge' h k) : Adds (fun a b => edge a b ∨ edge' a b) g k where
  mem_neighbours a b := by rw [hhk.mem_neighbours, hgh.mem_neighbours, or_assoc]
  nodup hg := hhk.nodup (hgh.nodup hg)
  isRemoved a := (hhk.isRemoved a).trans (hgh.isRemoved a)
  lt a b h := h.elim (hgh.lt a b) (hhk.lt a b)

theorem Adds.congr {edge edge' : Nat → Nat → Prop} {g h : Graph n} (hgh : Adds edge g h)
    (hedge : ∀ a b, edge a b ↔ edge' a b) : Adds edge' g h where
  mem_neighbours a b := by rw [hgh.mem_neighbours, hedge]
  nodup := hgh.nodup
  isRemoved := hgh.isRemoved
  lt a b h := hgh.lt a b ((hedge a b).2 h)

theorem adds_join (g : Graph n) (u v : Fin n) :
    Adds (fun a b => (a = u ∧ b = v) ∨ (a = v ∧ b = u)) g (g.join u v) where
  mem_neighbours a b := by simp only [mem_neighbours_join, Fin.ext_iff]
  nodup h := nodup_neighbours_join h u v
  isRemoved := isRemoved_join g u v
  lt := by
    rintro a b (⟨rfl, rfl⟩ | ⟨rfl, rfl⟩)
    · exact ⟨u.isLt, v.isLt⟩
    · exact ⟨v.isLt, u.isLt⟩

theorem adds_of_joinAll {first : Nat} {g h : Graph n} {ids : List Nat}
    (hok : joinAll first g ids = .ok h) :
    Adds (fun a b => a ≠ b ∧ ((a = first ∧ b ∈ ids) ∨ (b = first ∧ a ∈ ids))) g h := by
  induction ids generalizing g with
  | nil =>
    cases hok
    exact (Adds.refl _).congr fun a b => by simp
  | cons id ids ih =>
    rw [joinAll] at hok
    split at hok
    · -- a variable that the scope repeats is passed by
      refine (ih hok).congr fun a b => ?_
      simp only [List.mem_cons]
      grind
    · obtain ⟨u, hu, hok⟩ := bind_eq_ok_iff.1 hok
      obtain ⟨v, hv, hok⟩ := bind_eq_ok_iff.1 hok
      rw [node_eq_ok_iff] at hu hv
      refine ((adds_join g u v).trans (ih hok)).congr fun a b => ?_
      simp only [List.mem_cons]
      grind

theorem adds_of_joinScope {g h : Graph n} {scope : List Nat} (hok : joinScope g scope = .ok h) :
    Adds (fun a b => a ≠ b ∧ a ∈ scope ∧ b ∈ scope) g h := by
  induction scope generalizing g with
  | nil =>
    cases hok
    exact (Adds.refl _).congr fun a b => by simp
  | cons id scope ih =>
    -- a pair with the first variable is joined now, every other pair later on
    rw [joinScope, bind_eq_ok_iff] at hok
    obtain ⟨k, hall, hok⟩ := hok
    refine ((adds_of_joinAll hall).trans (ih hok)).congr fun a b => ?_
    simp only [List.mem_cons]
    grind

theorem adds_of_foldlM_joinScope {g h : Graph n} {scopes : List (List Nat)}
    (hok : scopes.foldlM joinScope g = .ok h) :
    Adds (fun a b => a ≠ b ∧ ∃ scope ∈ scopes, a ∈ scope ∧ b ∈ scope) g h := by
  induction scopes generalizing g with
  | nil =>
    cases hok
    exact (Adds.refl _).congr fun a b => by simp
  | cons scope scopes ih =>
    rw [List.foldlM_cons, bind_eq_ok_iff] at hok
    obtain ⟨k, hscope, hok⟩ := hok
    refine ((adds_of_joinScope hscope).trans (ih hok)).congr fun a b => ?_
    rw [List.exists_mem_cons_iff, ← and_or_left]

theorem exists_joinAll {first : Nat} (hfirst : first < n) (g : Graph n) {ids : List Nat}
    (hids : ∀ id ∈ ids, id < n) : ∃ h, joinAll first g ids = .ok h := by
  induction ids generalizing g with
  | nil => exact ⟨g, rfl⟩
  | cons id ids ih =>
    obtain ⟨hid, hids⟩ := List.forall_mem_cons.1 hids
    rw [joinAll]
    split
    · exact ih g hids
    · rw [node_eq_ok hfirst, ok_bind, node_eq_ok hid, ok_bind]
      exact ih _ hids

theorem exists_joinScope (g : Graph n) {scope : List Nat} (hscope : ∀ id ∈ scope, id < n) :
    ∃ h, joinScope g scope = .ok h := by
  induction scope generalizing g with
  | nil => exact ⟨g, rfl⟩
  | cons id scope ih =>
    obtain ⟨hid, hscope⟩ := List.forall_mem_cons.1 hscope
    obtain ⟨h, hok⟩ := exists_joinAll hid g hscope
    rw [joinScope, hok, ok_bind]
    exact ih h hscope

/-- The graph of scopes shows their interaction. -/
theorem shows_of_ofScopes {scopes : List (List Nat)} {g : Graph n} (hok : ofScopes n scopes = .ok g) :
    g.Shows scopes [] := by
  have hadds := adds_of_foldlM_joinScope hok
  have hempty : ∀ u, (empty : Graph n).neighbours u = [] := by simp [empty, neighbours]
  refine ⟨fun u v => ?_, hadds.nodup fun u => ?_, fun u => ?_⟩
  · rw [hadds.mem_neighbours, hempty]
    simp [interaction]
  · rw [hempty]
    exact List.nodup_nil
  · rw [hadds.isRemoved]
    simp [empty, Graph.isRemoved]

/-- Scopes that have a graph join only variables that are nodes of it. -/
theorem lt_of_ofScopes {scopes : List (List Nat)} {g : Graph n} (hok : ofScopes n scopes = .ok g)
    {cut : List Nat} {u v : Nat} (huv : (interaction scopes cut).Adj u v) : v < n :=
  ((adds_of_foldlM_joinScope hok).lt u v ⟨huv.1, huv.2.2.2⟩).2

theorem exists_ofScopes {scopes : List (List Nat)}
    (hscopes : ∀ scope ∈ scopes, ∀ id ∈ scope, id < n) :
    ∃ g : Graph n, ofScopes n scopes = .ok g ∧ g.Shows scopes [] := by
  have hstep : ∀ g : Graph n, True → ∀ scope ∈ scopes, ∃ h, joinScope g scope = .ok h ∧ True :=
    fun g _ scope hscope => (exists_joinScope g (hscopes scope hscope)).imp fun _ h => ⟨h, trivial⟩
  obtain ⟨g, hok, -⟩ := exists_foldlM_eq_ok hstep trivial
  exact ⟨g, hok, shows_of_ofScopes hok⟩

/-! ## Section 3: Removing nodes -/

theorem neighbours_remove (g : Graph n) (u v : Fin n) :
    (g.remove u).neighbours v = if v = u then [] else (g.neighbours v).erase u := by
  simp [neighbours, remove]

/-- Removing a node puts it into the cut. -/
theorem Shows.remove {g : Graph n} {scopes : List (List Nat)} {cut : List Nat}
    (hg : g.Shows scopes cut) (u : Fin n) : (g.remove u).Shows scopes (cut ++ [(u : Nat)]) where
  mem_neighbours a b := by
    have hmem := hg.mem_neighbours a b
    rw [neighbours_remove]
    simp only [interaction, List.mem_append, List.mem_singleton] at hmem ⊢
    split
    · simp_all
    · -- lists have no repetitions, so that erasing once is enough
      rw [(hg.nodup a).mem_erase_iff, hmem]
      simp only [Fin.ext_iff, ne_eq] at *
      tauto
  nodup a := by
    rw [neighbours_remove]
    split
    · exact List.nodup_nil
    · exact (hg.nodup a).erase u
  isRemoved a := by
    rw [isRemoved_remove, Bool.or_eq_true, hg.isRemoved, decide_eq_true_iff, List.mem_append,
      List.mem_singleton, Fin.ext_iff, or_comm, eq_comm]

theorem Shows.foldl_remove {g : Graph n} {scopes : List (List Nat)} {cut : List Nat}
    (hg : g.Shows scopes cut) (us : List (Fin n)) :
    (us.foldl Graph.remove g).Shows scopes (cut ++ us.map Fin.val) := by
  induction us generalizing g cut with
  | nil => simpa using hg
  | cons u us ih => simpa using ih (hg.remove u)

/-! ## Section 4: Degrees -/

/-- Nodes that are listed without repetitions are as many as their numbers. -/
theorem encard_eq_length {nodes : List (Fin n)} (hnodup : nodes.Nodup) {s : Set Nat}
    (hs : ∀ v, v ∈ s ↔ v ∈ nodes.map Fin.val) : s.encard = nodes.length := by
  have hset : s = ((nodes.map Fin.val).toFinset : Set Nat) := by
    ext v
    rw [hs, List.coe_toFinset, Set.mem_ofPred_eq]
  have hnumbers : (nodes.map Fin.val).Nodup := (List.nodup_map_iff Fin.val_injective).2 hnodup
  rw [hset, Set.encard_coe_eq_coe_finsetCard, List.toFinset_card_of_nodup hnumbers, List.length_map]

variable {g : Graph n} {scopes : List (List Nat)} {cut : List Nat}

/-- The degree of a node is the number of variables with which it interacts. -/
theorem encard_neighborSet (hg : g.Shows scopes cut)
    (hscopes : ∀ scope ∈ scopes, ∀ id ∈ scope, id < n) (u : Fin n) :
    ((interaction scopes cut).neighborSet u).encard = g.degree u := by
  refine encard_eq_length (hg.nodup u) fun v => ?_
  rw [SimpleGraph.mem_neighborSet, List.mem_map]
  constructor
  · intro h
    -- the variable is in a scope, and therefore a node
    obtain ⟨_, _, _, scope, hscope, _, hv⟩ := id h
    exact ⟨⟨v, hscopes scope hscope v hv⟩, (hg.mem_neighbours u _).2 h, rfl⟩
  · rintro ⟨w, hw, rfl⟩
    exact (hg.mem_neighbours u w).1 hw

/-- The nodes of the cut have lost all their neighbours. -/
theorem Shows.degree_eq_zero (hg : g.Shows scopes cut) {u : Fin n} (hu : (u : Nat) ∈ cut) :
    g.degree u = 0 := by
  rw [degree, List.length_eq_zero_iff, List.eq_nil_iff_forall_not_mem]
  intro v hv
  exact ((hg.mem_neighbours u v).1 hv).2.1 hu

end Graph

end PairedMarkov
