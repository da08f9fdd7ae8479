import PairedMarkov.Proofs.Graph.Components
import PairedMarkov.Proofs.Scores
import PairedMarkov.Decomposition

/-!
# Decompositions separate

Both phases of a decomposition only ever remove live nodes, one after the other. What they leave is
therefore the interaction outside the cut, and the components are its connected components. The
second phase ends when no component is too large, so that the components are small.

Main statement: `Decomposition.ofGraph_separates`, a decomposition shares the variables out to a cut
and to small connected components that no scope joins.
-/

namespace PairedMarkov

/-! ## Section 1: The largest element of a list -/

theorem firstMax_eq_none_iff {α : Type} {key : α → Nat} {l : List α} :
    firstMax key l = none ↔ l = [] := by
  cases l <;> simp [firstMax]

private theorem le_key_foldl_larger {α : Type} (key : α → Nat) (l : List α) (a : α) :
    ∀ b ∈ a :: l, key b ≤ key (l.foldl (fun best b => if key best < key b then b else best) a) := by
  -- on the element kept so far, which every step can only raise
  induction l generalizing a with
  | nil => simp
  | cons c l ih =>
    intro b hb
    rw [List.foldl_cons]
    have hbest := ih (if key a < key c then c else a)
    have hhead := hbest _ List.mem_cons_self
    rcases List.mem_cons.1 hb with rfl | hb
    · exact le_trans (by split <;> omega) hhead
    · rcases List.mem_cons.1 hb with rfl | hb
      · exact le_trans (by split <;> omega) hhead
      · exact hbest b (List.mem_cons_of_mem _ hb)

theorem key_le_of_firstMax {α : Type} {key : α → Nat} {l : List α} {a b : α}
    (h : firstMax key l = some a) (hb : b ∈ l) : key b ≤ key a := by
  cases l with
  | nil => exact absurd hb List.not_mem_nil
  | cons c l =>
    rw [firstMax, Option.some.injEq] at h
    exact h ▸ le_key_foldl_larger key l c b hb

namespace Graph

variable {n : Nat} {g h : Graph n} {scopes : List Scope} {cut : List Nat}

/-! ## Section 2: Removing live nodes one after the other -/

/-- One graph comes from another one by removing live nodes in a given order. -/
inductive Removes : Graph n → List (Fin n) → Graph n → Prop where
  | done (g : Graph n) : Removes g [] g
  | step {g h : Graph n} {u : Fin n} {us : List (Fin n)} (hu : u ∈ g.live)
      (hus : Removes (g.remove u) us h) : Removes g (u :: us) h

theorem Removes.trans {k : Graph n} {us vs : List (Fin n)} (hus : Removes g us h)
    (hvs : Removes h vs k) : Removes g (us ++ vs) k := by
  induction hus with
  | done g => exact hvs
  | step hu _ ih => exact .step hu (ih hvs)

theorem Removes.shows {us : List (Fin n)} (hus : Removes g us h) (hg : g.Shows scopes cut) :
    h.Shows scopes (cut ++ us.map Fin.val) := by
  induction hus generalizing cut with
  | done g => simpa using hg
  | step hu _ ih => simpa using ih (hg.remove _)

/-- No node is removed twice. -/
theorem Removes.nodup {us : List (Fin n)} (hus : Removes g us h) (hg : g.Shows scopes cut)
    (hcut : cut.Nodup) : (cut ++ us.map Fin.val).Nodup := by
  induction hus generalizing cut with
  | done g => simpa using hcut
  | @step g h u us hu _ ih =>
    -- a live node is not in the cut
    have hfresh : (u : Nat) ∉ cut := hg.mem_live_iff.1 hu
    have hnext : (cut ++ [(u : Nat)]).Nodup :=
      List.nodup_append.2 ⟨hcut, List.nodup_singleton _, by
        intro a ha b hb
        rw [List.mem_singleton.1 hb]
        exact ne_of_mem_of_not_mem ha hfresh⟩
    simpa using ih (hg.remove u) hnext

theorem cutDegrees_removes (width : Nat) (g : Graph n) :
    Removes g (g.cutDegrees width).1 (g.cutDegrees width).2 := by
  fun_induction cutDegrees width g with
  | case1 g _ => exact .done g
  | case2 g u degree hmax _ rest ih => exact .step (maxDegree_mem hmax) ih
  | case3 g _ _ _ _ => exact .done g

theorem cutComponents_removes (width : Nat) (g : Graph n) :
    Removes g (g.cutComponents width).1 (g.cutComponents width).2 := by
  fun_induction cutComponents width g with
  | case1 g _ => exact .done g
  | case2 g u hsome rest ih => exact .step (oversized?_mem hsome) ih

/-! ## Section 3: When nothing is too large -/

theorem oversized?_eq_none_iff {width : Nat} :
    g.oversized? width = none ↔ ∀ component ∈ g.liveComponents, component.length ≤ width := by
  unfold oversized?
  cases hmax : firstMax List.length g.liveComponents with
  | none => simp [firstMax_eq_none_iff.1 hmax]
  | some largest =>
    have hmem := firstMax_mem hmax
    -- a component is not empty, so that a largest one that is too large has a node to remove
    have hne : firstMax g.degree largest ≠ none :=
      mt firstMax_eq_none_iff.1 (component_ne_nil hmem)
    simp only [maxDegree, Option.map_map]
    split
    · rename_i hlarge
      simp only [Option.map_eq_none_iff, hne, false_iff, not_forall]
      exact ⟨largest, hmem, Nat.not_le_of_lt hlarge⟩
    · rename_i hsmall
      refine iff_of_true rfl fun component hc => ?_
      exact (key_le_of_firstMax hmax hc).trans (Nat.le_of_not_lt hsmall)

theorem cutComponents_eq_nil_iff {width : Nat} :
    (g.cutComponents width).1 = [] ↔ g.oversized? width = none := by
  unfold cutComponents
  split <;> simp_all

theorem oversized?_cutComponents (width : Nat) (g : Graph n) :
    (g.cutComponents width).2.oversized? width = none := by
  fun_induction cutComponents width g with
  | case1 g hnone => exact hnone
  | case2 g u _ rest ih => exact ih

theorem cutDegrees_eq_nil {width : Nat} (hdegree : ∀ u ∈ g.live, g.degree u < width) :
    g.cutDegrees width = ([], g) := by
  unfold cutDegrees
  split
  · rfl
  · rename_i u degree hmax
    obtain ⟨v, hv, heq⟩ := Option.map_eq_some_iff.1 hmax
    cases heq
    rw [if_neg (Nat.not_le_of_lt (hdegree _ (firstMax_mem hv)))]

/-! ## Section 4: Live components -/

section LiveComponents

variable (hg : g.Shows scopes cut) (hscopes : ∀ scope ∈ scopes, ∀ id ∈ scope, id < n)

include hg hscopes

/-- A live component holds exactly the variables that can be reached from one of its own. -/
theorem mem_liveComponent_iff {component : List (Fin n)} (hc : component ∈ g.liveComponents)
    {u : Nat} (hu : u ∈ component.map Fin.val) (v : Nat) :
    v ∈ component.map Fin.val ↔ (interaction scopes cut).Reachable u v := by
  obtain ⟨u, hmem, rfl⟩ := List.mem_map.1 hu
  have hiff := fun w => (mem_component_iff hg.symmetric hg.closed_live hc hmem w).trans
    (hg.linked_iff hscopes)
  constructor
  · intro hv
    obtain ⟨v, hmem, rfl⟩ := List.mem_map.1 hv
    exact (hiff v).1 hmem
  · intro hv
    have hlt : v < n := by
      -- a path that leaves `u` ends with an edge, and edges join existing variables
      rcases ((SimpleGraph.reachable_iff_reflTransGen _ _).1 hv).cases_tail with rfl | ⟨w, _, hedge⟩
      · exact u.isLt
      · obtain ⟨_, _, _, scope, hscope, _, hv⟩ := hedge
        exact hscopes scope hscope v hv
    exact List.mem_map.2 ⟨⟨v, hlt⟩, (hiff ⟨v, hlt⟩).2 hv, rfl⟩

/-- A live component is as large as the set of variables that can be reached from one of its own. -/
theorem encard_reachable {component : List (Fin n)} (hc : component ∈ g.liveComponents)
    {u : Nat} (hu : u ∈ component.map Fin.val) :
    {v | (interaction scopes cut).Reachable u v}.encard = component.length := by
  have hnodup : component.Nodup := (component_sorted (nodup_live g) hc).nodup
  exact encard_eq_length hnodup fun v => (mem_liveComponent_iff hg hscopes hc hu v).symm

omit hscopes in
/-- A node and its neighbours can be reached from the node. -/
theorem degree_add_one_le_encard (u : Fin n) :
    ((g.degree u + 1 : Nat) : ℕ∞) ≤ {v | (interaction scopes cut).Reachable u v}.encard := by
  -- no node is its own neighbour, and no neighbour is listed twice
  have hnodup : (u :: g.neighbours u).Nodup := by
    refine List.nodup_cons.2 ⟨?_, hg.nodup u⟩
    exact fun h => ((hg.mem_neighbours u u).1 h).ne rfl
  have hcard : {v | v ∈ (u :: g.neighbours u).map Fin.val}.encard = (g.degree u + 1 : Nat) :=
    encard_eq_length hnodup fun _ => Iff.rfl
  rw [← hcard]
  refine Set.encard_le_encard fun v hv => ?_
  obtain ⟨w, hw, rfl⟩ := List.mem_map.1 hv
  rcases List.mem_cons.1 hw with rfl | hw
  · exact SimpleGraph.Reachable.refl _
  · exact ((hg.mem_neighbours u w).1 hw).reachable

omit hscopes in
theorem exists_liveComponent {u : Fin n} (hu : (u : Nat) ∉ cut) :
    ∃ component ∈ g.liveComponents, (u : Nat) ∈ component.map Fin.val := by
  have hmem : u ∈ (g.componentsAmong g.live).flatten :=
    (componentsAmong_perm g g.live).mem_iff.2 (hg.mem_live_iff.2 hu)
  obtain ⟨component, hc, hu⟩ := List.mem_flatten.1 hmem
  exact ⟨component, hc, List.mem_map_of_mem hu⟩

end LiveComponents

end Graph

/-! ## Section 5: Decompositions -/

namespace Decomposition

/-- A decomposition separates `count` variables under some scopes: the variables are shared out to
the cut and to small connected components, and no scope joins two components. -/
structure Separates (d : Decomposition) (width count : Nat) (scopes : List Scope) : Prop where
  /-- Every variable occurs exactly once, in the cut or in one component. -/
  partition : (d.cut ++ d.components.flatten).Perm (List.range count)
  /-- The variables without a component are those of the cut. -/
  componentOf_eq_none : ∀ id < count, d.componentOf id = .ok none ↔ id ∈ d.cut
  /-- The component of any other variable is the one that holds it. -/
  componentOf_eq_some : ∀ id < count, ∀ c,
    d.componentOf id = .ok (some c) ↔ ∃ component, d.components[c]? = some component ∧ id ∈ component
  nonempty : ∀ component ∈ d.components, component ≠ []
  sorted : ∀ component ∈ d.components, component.Pairwise (· < ·)
  small : ∀ component ∈ d.components, component.length ≤ width
  /-- Components are the connected components of the interaction outside the cut. -/
  connected : ∀ component ∈ d.components, ∀ u ∈ component, ∀ v,
    v ∈ component ↔ (interaction scopes d.cut).Reachable u v
  /-- No scope has variables of two components. -/
  separated : ∀ scope ∈ scopes, ∀ u ∈ scope, ∀ v ∈ scope, ∀ c c',
    d.componentOf u = .ok (some c) → d.componentOf v = .ok (some c') → c = c'
  /-- Nothing is cut exactly if all connected components of the whole interaction are small. -/
  cut_eq_nil_iff : d.cut = [] ↔
    ∀ u < count, {v | (interaction scopes []).Reachable u v}.encard ≤ width

/-- Every variable has a known place. -/
theorem Separates.exists_componentOf {d : Decomposition} {width count : Nat} {scopes : List Scope}
    (hd : d.Separates width count scopes) {id : Nat} (hid : id < count) :
    ∃ o, d.componentOf id = .ok o := by
  have hmem : id ∈ d.cut ++ d.components.flatten := hd.partition.mem_iff.2 (List.mem_range.2 hid)
  rcases List.mem_append.1 hmem with hcut | hflat
  · exact ⟨none, (hd.componentOf_eq_none id hid).2 hcut⟩
  · obtain ⟨component, hc, hmem⟩ := List.mem_flatten.1 hflat
    obtain ⟨c, hc⟩ := List.mem_iff_getElem?.1 hc
    exact ⟨some c, (hd.componentOf_eq_some id hid c).2 ⟨component, hc, hmem⟩⟩

variable {n : Nat} {g : Graph n} {scopes : List Scope} (width : Nat)

/-- The graph that is left when a decomposition is finished. -/
def remainder (g : Graph n) : Graph n := ((g.cutDegrees width).2.cutComponents width).2

theorem remainder_removes (g : Graph n) :
    Graph.Removes g ((g.cutDegrees width).1 ++ ((g.cutDegrees width).2.cutComponents width).1)
      (remainder width g) :=
  (Graph.cutDegrees_removes width g).trans (Graph.cutComponents_removes width _)

theorem remainder_shows (hg : g.Shows scopes []) :
    (remainder width g).Shows scopes (ofGraph width g).cut := by
  simpa [ofGraph] using (remainder_removes width g).shows hg

theorem nodup_cut (hg : g.Shows scopes []) : (ofGraph width g).cut.Nodup := by
  simpa [ofGraph] using (remainder_removes width g).nodup hg List.nodup_nil

theorem cut_lt {id : Nat} (hid : id ∈ (ofGraph width g).cut) : id < n := by
  obtain ⟨u, -, rfl⟩ := List.mem_map.1 hid
  exact u.isLt

theorem components_ofGraph (g : Graph n) :
    (ofGraph width g).components = (remainder width g).liveComponents.map (·.map Fin.val) := rfl

theorem flatten_components (g : Graph n) :
    (ofGraph width g).components.flatten.Perm ((remainder width g).live.map Fin.val) := by
  rw [components_ofGraph, ← List.map_flatten]
  exact (Graph.componentsAmong_perm _ _).map Fin.val

/-- Every variable is in the cut or in a component, exactly once. -/
theorem partition_ofGraph (hg : g.Shows scopes []) :
    ((ofGraph width g).cut ++ (ofGraph width g).components.flatten).Perm (List.range n) := by
  have hshows := remainder_shows width hg
  apply ((flatten_components width g).append_left _).trans
  refine (List.perm_ext_iff_of_nodup ?_ List.nodup_range).2 fun id => ?_
  · -- the nodes left in the end are live, and those of the cut are not
    refine List.nodup_append.2 ⟨nodup_cut width hg,
      (List.nodup_map_iff Fin.val_injective).2 (Graph.nodup_live _), ?_⟩
    intro id hid other hother
    obtain ⟨u, hu, rfl⟩ := List.mem_map.1 hother
    exact ne_of_mem_of_not_mem hid (hshows.mem_live_iff.1 hu)
  · rw [List.mem_append, List.mem_range, List.mem_map]
    constructor
    · rintro (hid | ⟨u, -, rfl⟩)
      · exact cut_lt width hid
      · exact u.isLt
    · intro hid
      by_cases hcut : id ∈ (ofGraph width g).cut
      · exact Or.inl hcut
      · exact Or.inr ⟨⟨id, hid⟩, hshows.mem_live_iff.2 hcut, rfl⟩

theorem componentOf_ofGraph (g : Graph n) {id : Nat} (hid : id < n) :
    (ofGraph width g).componentOf id =
      .ok ((ofGraph width g).components.findIdx? fun c => c.contains id) := by
  rw [componentOf, fetch_eq_ok_iff]
  simp [ofGraph, hid]

/-- Among lists without common elements, the first one that holds an element is the only one. -/
private theorem findIdx?_contains_eq_some_iff {lists : List Scope} (hnodup : lists.flatten.Nodup)
    {id c : Nat} : (lists.findIdx? fun l => l.contains id) = some c ↔
      ∃ l, lists[c]? = some l ∧ id ∈ l := by
  have hdisjoint := (List.nodup_flatten.1 hnodup).2
  rw [List.findIdx?_eq_some_iff_getElem]
  constructor
  · rintro ⟨hc, hmem, -⟩
    exact ⟨lists[c], List.getElem?_eq_getElem hc, by simpa using hmem⟩
  · rintro ⟨l, hl, hid⟩
    obtain ⟨hc, rfl⟩ := List.getElem?_eq_some_iff.1 hl
    refine ⟨hc, by simpa using hid, fun c' hc' => ?_⟩
    -- an earlier list with the element would share it with this one
    have := List.pairwise_iff_getElem.1 hdisjoint c' c (by omega) hc hc'
    simpa using fun hid' => this hid' hid

theorem componentOf_eq_some_iff (hg : g.Shows scopes []) {id : Nat} (hid : id < n) (c : Nat) :
    (ofGraph width g).componentOf id = .ok (some c) ↔
      ∃ component, (ofGraph width g).components[c]? = some component ∧ id ∈ component := by
  have hnodup := (partition_ofGraph width hg).nodup_iff.2 List.nodup_range
  rw [componentOf_ofGraph width g hid, Except.ok.injEq,
    findIdx?_contains_eq_some_iff (List.nodup_append.1 hnodup).2.1]

theorem componentOf_eq_none_iff (hg : g.Shows scopes []) {id : Nat} (hid : id < n) :
    (ofGraph width g).componentOf id = .ok none ↔ id ∈ (ofGraph width g).cut := by
  have hpartition := partition_ofGraph width hg
  have hnodup := hpartition.nodup_iff.2 List.nodup_range
  have hmem : id ∈ (ofGraph width g).cut ++ (ofGraph width g).components.flatten :=
    hpartition.mem_iff.2 (List.mem_range.2 hid)
  rw [componentOf_ofGraph width g hid, Except.ok.injEq, List.findIdx?_eq_none_iff]
  constructor
  · -- a variable outside the cut would be found in its component
    intro hout
    refine (List.mem_append.1 hmem).resolve_right fun hflat => ?_
    obtain ⟨component, hc, hid⟩ := List.mem_flatten.1 hflat
    simpa [hid] using hout component hc
  · intro hcut component hc
    have hfresh : id ∉ component := fun hid =>
      (List.nodup_append.1 hnodup).2.2 id hcut id (List.mem_flatten.2 ⟨component, hc, hid⟩) rfl
    simpa using hfresh

/-- No scope has variables of two components. -/
theorem separated_ofGraph (hg : g.Shows scopes []) (hscopes : ∀ scope ∈ scopes, ∀ id ∈ scope, id < n)
    {scope : Scope} (hscope : scope ∈ scopes) {u v c c' : Nat} (hu : u ∈ scope) (hv : v ∈ scope)
    (hcu : (ofGraph width g).componentOf u = .ok (some c))
    (hcv : (ofGraph width g).componentOf v = .ok (some c')) : c = c' := by
  by_cases huv : u = v
  · subst huv
    rw [hcu, Except.ok.injEq, Option.some.injEq] at hcv
    exact hcv
  · have hout : ∀ {w c}, w ∈ scope → (ofGraph width g).componentOf w = .ok (some c) →
        w ∉ (ofGraph width g).cut := by
      intro w c hw hcw hcut
      rw [(componentOf_eq_none_iff width hg (hscopes scope hscope w hw)).2 hcut] at hcw
      cases hcw
    have hedge : (interaction scopes (ofGraph width g).cut).Adj u v :=
      ⟨huv, hout hu hcu, hout hv hcv, scope, hscope, hu, hv⟩
    obtain ⟨component, hcomponent, hmem⟩ :=
      (componentOf_eq_some_iff width hg (hscopes scope hscope u hu) c).1 hcu
    -- the edge keeps `v` in the component of `u`, and `v` has only one component
    obtain ⟨live, hlive, rfl⟩ := List.mem_map.1 (List.mem_of_getElem? hcomponent)
    have hv' := (Graph.mem_liveComponent_iff (remainder_shows width hg) hscopes hlive hmem v).2
      hedge.reachable
    have := (componentOf_eq_some_iff width hg (hscopes scope hscope v hv) c).2 ⟨_, hcomponent, hv'⟩
    rw [this, Except.ok.injEq, Option.some.injEq] at hcv
    exact hcv

/-- Nothing is cut exactly if all connected components are small from the start. -/
theorem cut_ofGraph_eq_nil_iff (hg : g.Shows scopes [])
    (hscopes : ∀ scope ∈ scopes, ∀ id ∈ scope, id < n) :
    (ofGraph width g).cut = [] ↔
      ∀ u < n, {v | (interaction scopes []).Reachable u v}.encard ≤ width := by
  constructor
  · intro hcut u hu
    -- if nothing is cut, then the remainder shows the whole interaction
    have hshows := remainder_shows width hg
    rw [hcut] at hshows
    obtain ⟨component, hc, hmem⟩ :=
      Graph.exists_liveComponent hshows (u := ⟨u, hu⟩) List.not_mem_nil
    rw [Graph.encard_reachable hshows hscopes hc hmem]
    have := Graph.oversized?_eq_none_iff.1 (Graph.oversized?_cutComponents width _) component hc
    exact_mod_cast this
  · intro hsmall
    have hcomponents : g.oversized? width = none := by
      refine Graph.oversized?_eq_none_iff.2 fun component hc => ?_
      obtain ⟨u, hu⟩ := List.exists_mem_of_ne_nil _ (Graph.component_ne_nil hc)
      have := hsmall u u.isLt
      rw [Graph.encard_reachable hg hscopes hc (List.mem_map_of_mem hu)] at this
      exact_mod_cast this
    -- neither phase finds anything: a degree is less than the size of a component
    have hdegree : ∀ u ∈ g.live, g.degree u < width := by
      intro u _
      exact_mod_cast (Graph.degree_add_one_le_encard hg u).trans (hsmall u u.isLt)
    simp [ofGraph, Graph.cutDegrees_eq_nil hdegree, Graph.cutComponents_eq_nil_iff.2 hcomponents]

/-- **A decomposition separates**: the graph of some scopes is taken apart into a cut and small
connected components. -/
theorem ofGraph_separates (hg : g.Shows scopes [])
    (hscopes : ∀ scope ∈ scopes, ∀ id ∈ scope, id < n) :
    (ofGraph width g).Separates width n scopes where
  partition := partition_ofGraph width hg
  componentOf_eq_none _ hid := componentOf_eq_none_iff width hg hid
  componentOf_eq_some _ hid := componentOf_eq_some_iff width hg hid
  nonempty := by
    intro component hc
    obtain ⟨live, hlive, rfl⟩ := List.mem_map.1 hc
    simpa using Graph.component_ne_nil hlive
  sorted := by
    intro component hc
    obtain ⟨live, hlive, rfl⟩ := List.mem_map.1 hc
    exact List.pairwise_map.2 (Graph.component_sorted (Graph.nodup_live _) hlive)
  small := by
    intro component hc
    obtain ⟨live, hlive, rfl⟩ := List.mem_map.1 hc
    rw [List.length_map]
    exact Graph.oversized?_eq_none_iff.1 (Graph.oversized?_cutComponents width _) live hlive
  connected := by
    intro component hc u hu v
    obtain ⟨live, hlive, rfl⟩ := List.mem_map.1 hc
    exact Graph.mem_liveComponent_iff (remainder_shows width hg) hscopes hlive hu v
  separated _ hscope _ hu _ hv _ _ := separated_ofGraph width hg hscopes hscope hu hv
  cut_eq_nil_iff := cut_ofGraph_eq_nil_iff width hg hscopes

variable {W : Type} {width} {d : Decomposition} {p : Problem W}

theorem separates_of_ofProblem (hp : ∀ scope ∈ p.scopes, scope.InRange p.domains)
    (hd : ofProblem p width = .ok d) : d.Separates width p.domains.size p.scopes := by
  obtain ⟨g, hok, hg⟩ := Graph.exists_ofScopes hp
  rw [ofProblem, hok, ok_bind, pure_eq_ok_iff] at hd
  exact hd ▸ ofGraph_separates width hg hp

theorem exists_ofProblem (hp : ∀ scope ∈ p.scopes, scope.InRange p.domains) (width : Nat) :
    ∃ d, ofProblem p width = .ok d := by
  obtain ⟨g, hok, -⟩ := Graph.exists_ofScopes hp
  refine ⟨ofGraph width g, ?_⟩
  rw [ofProblem, hok]
  rfl

/-- **Separation**: over variables in range, a problem has a decomposition of every width, and it
separates the problem. -/
theorem exists_ofProblem_separates (p : Problem W)
    (hp : ∀ scope ∈ p.scopes, scope.InRange p.domains) (width : Nat) :
    ∃ d, ofProblem p width = .ok d ∧ d.Separates width p.domains.size p.scopes := by
  obtain ⟨d, hd⟩ := exists_ofProblem hp width
  exact ⟨d, hd, separates_of_ofProblem hp hd⟩

/-- Separation for a chain of four variables whose factors are spread over both networks. -/
theorem exists_chain_separates :
    let p : Problem Nat :=
      { domains := #[2, 3, 2, 2]
        constraint := ⟨#[⟨[0, 1], #[0, 1, 2, 3, 4, 5]⟩, ⟨[2, 3], #[0, 1, 2, 3]⟩]⟩
        objective := ⟨#[⟨[2, 1], #[0, 1, 2, 3, 4, 5]⟩]⟩ }
    (∀ scope ∈ p.scopes, scope.InRange p.domains) ∧
      ∃ d, ofProblem p 2 = .ok d ∧ d.Separates 2 4 [[0, 1], [2, 3], [2, 1]] := by
  intro p
  have hp : ∀ scope ∈ p.scopes, scope.InRange p.domains := by decide
  exact ⟨hp, exists_ofProblem_separates p hp 2⟩

end Decomposition

end PairedMarkov
