import PairedMarkov.Proofs.Separation

/-!
# The greedy rule

A cut is chosen one variable after the other. Which variable comes next is a property of the
interaction that the variables chosen so far leave: it is the first one of largest degree, as long as
this degree reaches the width, and from then on the first one of largest degree in the first one of
the largest components. Degrees only fall when a variable is removed, so that the first phase never
has to be taken up again.

Main statements:
- `Decomposition.cut_greedy`: the cut of a decomposition is the one that the rule gives;
- `GreedyCut.unique`: there is only one such cut;
- `Decomposition.ofGraph_congr`: hence graphs of the same interaction have the same decomposition.
-/

namespace PairedMarkov

/-! ## Section 1: The rule -/

/-- The first one of the largest elements of a set. -/
structure FirstLargest (s : Set Nat) (key : Nat → ℕ∞) (v : Nat) : Prop where
  mem : v ∈ s
  largest : ∀ u ∈ s, key u ≤ key v
  first : ∀ u ∈ s, key u = key v → v ≤ u

theorem FirstLargest.unique {s : Set Nat} {key : Nat → ℕ∞} {v w : Nat}
    (hv : FirstLargest s key v) (hw : FirstLargest s key w) : v = w := by
  have hkey : key v = key w := le_antisymm (hw.largest v hv.mem) (hv.largest w hw.mem)
  exact le_antisymm (hv.first w hw.mem hkey.symm) (hw.first v hv.mem hkey)

/-- The variable that a graph on some nodes loses next. -/
inductive Chooses (G : SimpleGraph Nat) (nodes : Set Nat) (width v : Nat) : Prop where
  /-- While the degree of some node reaches the width: the first node of largest degree. -/
  | byDegree (hlarge : ∃ u ∈ nodes, width ≤ (G.neighborSet u).encard)
      (hv : FirstLargest nodes (fun u => (G.neighborSet u).encard) v)
  /-- Otherwise, if some component has more nodes than the width: the first node of largest degree in
  the first one of the largest components, which is the component of the node `m`. -/
  | byComponent (hsmall : ∀ u ∈ nodes, (G.neighborSet u).encard < width) {m : Nat}
      (hm : FirstLargest nodes (fun u => {w | G.Reachable u w}.encard) m)
      (hlarge : width < {w | G.Reachable m w}.encard)
      (hv : FirstLargest {w | G.Reachable m w} (fun u => (G.neighborSet u).encard) v)

theorem Chooses.unique {G : SimpleGraph Nat} {nodes : Set Nat} {width v w : Nat}
    (hv : Chooses G nodes width v) (hw : Chooses G nodes width w) : v = w := by
  cases hv with
  | byDegree hlarge hv =>
    obtain ⟨u, hu, hdegree⟩ := hlarge
    cases hw with
    | byDegree _ hw => exact hv.unique hw
    | byComponent hsmall => exact absurd hdegree (hsmall u hu).not_ge
  | byComponent hsmall hm _ hv =>
    cases hw with
    | byDegree hlarge _ =>
      obtain ⟨u, hu, hdegree⟩ := hlarge
      exact absurd hdegree (hsmall u hu).not_ge
    | byComponent _ hm' _ hw =>
      obtain rfl := hm.unique hm'
      exact hv.unique hw

/-- The variables below a bound that are not in a cut. -/
def outside (count : Nat) (cut : List Nat) : Set Nat := {u | u < count ∧ u ∉ cut}

/-- A cut that follows the rule to its end: each place holds what is chosen after the places before
it, and the cut ends where nothing is chosen. -/
def GreedyCut (scopes : List Scope) (count width : Nat) (cut : List Nat) : Prop :=
  ∀ k v, cut[k]? = some v ↔
    Chooses (interaction scopes (cut.take k)) (outside count (cut.take k)) width v

theorem interaction_adj_iff {scopes : List Scope} {cut : List Nat} {u v : Nat} :
    (interaction scopes cut).Adj u v ↔ (interaction scopes []).Adj u v ∧ u ∉ cut ∧ v ∉ cut := by
  simp only [interaction, List.not_mem_nil, not_false_eq_true, true_and]
  constructor
  · rintro ⟨hne, hu, hv, hscope⟩
    exact ⟨⟨hne, hscope⟩, hu, hv⟩
  · rintro ⟨⟨hne, hscope⟩, hu, hv⟩
    exact ⟨hne, hu, hv, hscope⟩

/-- Scopes that join the same variables still do so outside a cut. -/
theorem interaction_congr {scopes scopes' : List Scope}
    (h : interaction scopes [] = interaction scopes' []) (cut : List Nat) :
    interaction scopes cut = interaction scopes' cut := by
  ext u v
  rw [interaction_adj_iff, h, ← interaction_adj_iff]

/-- The rule knows nothing of the scopes but which variables they join, and it leaves no choice. -/
theorem GreedyCut.unique {scopes scopes' : List Scope} {count width : Nat} {cut cut' : List Nat}
    (hcut : GreedyCut scopes count width cut) (hcut' : GreedyCut scopes' count width cut')
    (h : interaction scopes [] = interaction scopes' []) : cut = cut' := by
  -- what is chosen at a place depends on the places before it
  have htake : ∀ k, cut.take k = cut'.take k := by
    intro k
    induction k with
    | zero => rfl
    | succ k ih =>
      have hnext : cut[k]? = cut'[k]? := by
        refine Option.ext fun v => ?_
        rw [hcut k v, hcut' k v, ih, interaction_congr h]
      rw [List.take_add_one, List.take_add_one, ih, hnext]
  have := htake (max cut.length cut'.length)
  rwa [List.take_of_length_le (le_max_left _ _), List.take_of_length_le (le_max_right _ _)] at this

/-! ## Section 2: The first of the largest -/

/-- What comes before the first of the largest elements is smaller. -/
theorem exists_of_firstMax {α : Type} {key : α → Nat} {l : List α} {a : α}
    (h : firstMax key l = some a) :
    ∃ before after, l = before ++ a :: after ∧ ∀ b ∈ before, key b < key a := by
  cases l with
  | nil => exact absurd h (by simp [firstMax])
  | cons c l =>
    rw [firstMax, Option.some.injEq] at h
    -- on the element kept so far
    induction l generalizing c with
    | nil => exact ⟨[], [], by rw [← h]; rfl, by simp⟩
    | cons b l ih =>
      rw [List.foldl_cons] at h
      split at h
      · rename_i hlt
        obtain ⟨before, after, hl, hbefore⟩ := ih b h
        have hb : key b ≤ key a :=
          key_le_of_firstMax (by rw [firstMax, h]) (List.mem_cons_self (l := l))
        exact ⟨c :: before, after, by rw [hl]; rfl, List.forall_mem_cons.2 ⟨by omega, hbefore⟩⟩
      · rename_i hle
        obtain ⟨before, after, hl, hbefore⟩ := ih c h
        cases before with
        | nil =>
          obtain ⟨rfl, -⟩ := List.cons.inj hl
          exact ⟨[], b :: l, rfl, by simp⟩
        | cons c' before =>
          obtain ⟨rfl, rfl⟩ := List.cons.inj hl
          have hc := (List.forall_mem_cons.1 hbefore).1
          exact ⟨c :: b :: before, after, rfl,
            List.forall_mem_cons.2 ⟨hc, List.forall_mem_cons.2
              ⟨by omega, (List.forall_mem_cons.1 hbefore).2⟩⟩⟩

/-- The first of the largest elements comes before the others. -/
theorem eq_or_of_firstMax {α : Type} {key : α → Nat} {r : α → α → Prop} {l : List α} {a b : α}
    (h : firstMax key l = some a) (hl : l.Pairwise r) (hb : b ∈ l) (hkey : key b = key a) :
    b = a ∨ r a b := by
  obtain ⟨before, after, rfl, hbefore⟩ := exists_of_firstMax h
  rcases List.mem_append.1 hb with hb | hb
  · exact absurd hkey (hbefore b hb).ne
  · rcases List.mem_cons.1 hb with rfl | hb
    · exact Or.inl rfl
    · exact Or.inr ((List.pairwise_cons.1 (List.pairwise_append.1 hl).2.1).1 b hb)

namespace Graph

variable {n : Nat} {g : Graph n} {scopes : List Scope} {cut : List Nat} {width : Nat}

/-! ## Section 3: One node after the other -/

/-- The node that goes into the cut next. -/
def next? (width : Nat) (g : Graph n) : Option (Fin n) :=
  match g.maxDegree g.live with
  | none => none
  | some (u, degree) => if width ≤ degree then some u else g.oversized? width

/-- The nodes that both phases remove. -/
def cutNodes (width : Nat) (g : Graph n) : List (Fin n) :=
  (g.cutDegrees width).1 ++ ((g.cutDegrees width).2.cutComponents width).1

theorem degree_remove_le (g : Graph n) (u v : Fin n) : (g.remove u).degree v ≤ g.degree v := by
  rw [degree, degree, neighbours_remove]
  split
  · exact Nat.zero_le _
  · exact List.length_erase_le

theorem maxDegree_eq_some_iff {nodes : List (Fin n)} {u : Fin n} {d : Nat} :
    g.maxDegree nodes = some (u, d) ↔ firstMax g.degree nodes = some u ∧ d = g.degree u := by
  simp only [maxDegree, Option.map_eq_some_iff, Prod.mk.injEq]
  constructor
  · rintro ⟨v, hv, rfl, rfl⟩
    exact ⟨hv, rfl⟩
  · rintro ⟨hu, rfl⟩
    exact ⟨u, hu, rfl, rfl⟩

theorem oversized?_eq_some_iff {u : Fin n} : g.oversized? width = some u ↔
    ∃ component, firstMax List.length g.liveComponents = some component ∧
      width < component.length ∧ firstMax g.degree component = some u := by
  unfold oversized?
  cases firstMax List.length g.liveComponents with
  | none => simp
  | some component =>
    simp only [Option.some.injEq, exists_eq_left']
    split
    · rename_i hlarge
      simp [maxDegree, hlarge]
    · rename_i hsmall
      simp [hsmall]

/-- While some degree reaches the width, the first node of largest degree comes next. -/
theorem next?_eq_firstMax {v : Fin n} (hv : v ∈ g.live) (hlarge : width ≤ g.degree v) :
    ∃ u, firstMax g.degree g.live = some u ∧ width ≤ g.degree u ∧ g.next? width = some u := by
  cases hmax : firstMax g.degree g.live with
  | none => exact absurd hv (firstMax_eq_none_iff.1 hmax ▸ List.not_mem_nil)
  | some u =>
    have hu : width ≤ g.degree u := hlarge.trans (key_le_of_firstMax hmax hv)
    exact ⟨u, rfl, hu, by rw [next?, maxDegree_eq_some_iff.2 ⟨hmax, rfl⟩]; exact if_pos hu⟩

/-- Once all degrees are small, a node of an oversized component comes next. -/
theorem next?_eq_oversized? (hdegree : ∀ u ∈ g.live, g.degree u < width) :
    g.next? width = g.oversized? width := by
  unfold next?
  split
  · rename_i hnone
    -- without live nodes there are no components either
    have hlive : g.live = [] := firstMax_eq_none_iff.1 (Option.map_eq_none_iff.1 hnone)
    simp [oversized?, liveComponents, hlive, componentsAmong, firstMax]
  · rename_i u degree hmax
    obtain ⟨-, rfl⟩ := maxDegree_eq_some_iff.1 hmax
    rw [if_neg (hdegree u (maxDegree_mem hmax)).not_ge]

theorem cutDegrees_eq_cons {u : Fin n} {d : Nat} (hmax : g.maxDegree g.live = some (u, d))
    (hd : width ≤ d) : g.cutDegrees width =
      (u :: ((g.remove u).cutDegrees width).1, ((g.remove u).cutDegrees width).2) := by
  rw [cutDegrees]
  split
  · simp_all
  · rename_i hsome
    rw [hmax] at hsome
    cases hsome
    rw [if_pos hd]

theorem cutComponents_eq_nil (hnone : g.oversized? width = none) :
    g.cutComponents width = ([], g) := by
  rw [cutComponents]
  split
  · rfl
  · simp_all

theorem cutComponents_eq_cons {u : Fin n} (hsome : g.oversized? width = some u) :
    g.cutComponents width =
      (u :: ((g.remove u).cutComponents width).1, ((g.remove u).cutComponents width).2) := by
  rw [cutComponents]
  split
  · simp_all
  · rename_i hsome'
    rw [hsome] at hsome'
    cases hsome'
    rfl

/-- The second phase, once all degrees are small. -/
theorem cutNodes_eq_cutComponents (hdegree : ∀ u ∈ g.live, g.degree u < width) :
    g.cutNodes width = (g.cutComponents width).1 := by
  rw [cutNodes, cutDegrees_eq_nil hdegree, List.nil_append]

/-- Both phases together take one step, and then go on. -/
theorem cutNodes_eq (width : Nat) (g : Graph n) :
    g.cutNodes width =
      match g.next? width with
      | none => []
      | some u => u :: (g.remove u).cutNodes width := by
  by_cases hdegree : ∀ u ∈ g.live, g.degree u < width
  · -- the first phase is over, and removing nodes does not raise degrees
    have hremove : ∀ v, ∀ u ∈ (g.remove v).live, (g.remove v).degree u < width := by
      intro v u hu
      rw [live_remove] at hu
      exact (degree_remove_le g v u).trans_lt (hdegree u (List.mem_of_mem_filter hu))
    rw [next?_eq_oversized? hdegree, cutNodes_eq_cutComponents hdegree]
    cases h : g.oversized? width with
    | none => rw [cutComponents_eq_nil h]
    | some u => simp only [cutComponents_eq_cons h, cutNodes_eq_cutComponents (hremove u)]
  · -- the first phase goes on, as long as there is a node of a great degree
    push Not at hdegree
    obtain ⟨v, hv, hlarge⟩ := hdegree
    obtain ⟨u, hmax, hu, hnext⟩ := next?_eq_firstMax hv hlarge
    rw [hnext, cutNodes, cutDegrees_eq_cons (maxDegree_eq_some_iff.2 ⟨hmax, rfl⟩) hu]
    rfl

/-- The nodes removed are those that come next, again and again. -/
theorem getElem?_cutNodes (width : Nat) (g : Graph n) (k : Nat) :
    (g.cutNodes width)[k]? = (((g.cutNodes width).take k).foldl remove g).next? width := by
  induction k generalizing g with
  | zero =>
    rw [cutNodes_eq]
    cases h : g.next? width <;> simp [h]
  | succ k ih =>
    rw [cutNodes_eq]
    cases h : g.next? width with
    | none => simp [h]
    | some u => simpa using ih (g.remove u)

/-! ## Section 4: What comes next -/

section Next

variable (hg : g.Shows scopes cut) (hscopes : ∀ scope ∈ scopes, ∀ id ∈ scope, id < n)

include hg

theorem mem_outside_iff {u : Nat} : u ∈ outside n cut ↔ ∃ v ∈ g.live, (v : Nat) = u := by
  constructor
  · intro ⟨hlt, hu⟩
    exact ⟨⟨u, hlt⟩, hg.mem_live_iff.2 hu, rfl⟩
  · rintro ⟨v, hv, rfl⟩
    exact ⟨v.isLt, hg.mem_live_iff.1 hv⟩

theorem exists_liveComponent_of_mem_outside {u : Nat} (hu : u ∈ outside n cut) :
    ∃ component ∈ g.liveComponents, u ∈ component.map Fin.val :=
  exists_liveComponent (u := ⟨u, hu.1⟩) hg hu.2

include hscopes

/-- The first of the nodes of largest degree, in a list of nodes in increasing order. -/
theorem firstLargest_degree {nodes : List (Fin n)} (hnodes : nodes.Pairwise (· < ·)) {s : Set Nat}
    (hs : ∀ u, u ∈ s ↔ ∃ v ∈ nodes, (v : Nat) = u) {u : Fin n}
    (hmax : firstMax g.degree nodes = some u) :
    FirstLargest s (fun v => ((interaction scopes cut).neighborSet v).encard) u where
  mem := (hs u).2 ⟨u, firstMax_mem hmax, rfl⟩
  largest v hv := by
    obtain ⟨v, hmem, rfl⟩ := (hs v).1 hv
    rw [encard_neighborSet hg hscopes, encard_neighborSet hg hscopes]
    exact_mod_cast key_le_of_firstMax hmax hmem
  first v hv hkey := by
    obtain ⟨v, hmem, rfl⟩ := (hs v).1 hv
    rw [encard_neighborSet hg hscopes, encard_neighborSet hg hscopes] at hkey
    rcases eq_or_of_firstMax hmax hnodes hmem (by exact_mod_cast hkey) with rfl | hlt
    · exact le_rfl
    · exact hlt.le

theorem size_eq_length {component : List (Fin n)} (hc : component ∈ g.liveComponents) {u : Fin n}
    (hu : u ∈ component) :
    {w | (interaction scopes cut).Reachable u w}.encard = component.length :=
  encard_reachable hg hscopes hc (List.mem_map_of_mem hu)

/-- The first node of the first of the largest live components. -/
theorem exists_firstLargest_size {component : List (Fin n)}
    (hmax : firstMax List.length g.liveComponents = some component) :
    ∃ m ∈ component, FirstLargest (outside n cut)
      (fun u => {w | (interaction scopes cut).Reachable u w}.encard) m := by
  have hcomponents := areComponents_componentsAmong hg.symmetric hg.closed_live (sorted_live g)
  have hc := firstMax_mem hmax
  obtain ⟨m, rest, rfl⟩ := List.exists_cons_of_ne_nil (component_ne_nil hc)
  have hm : m ∈ m :: rest := List.mem_cons_self
  have hfirst : ∀ v ∈ m :: rest, m ≤ v := List.forall_mem_cons.2
    ⟨le_rfl, fun v hv => ((List.pairwise_cons.1 (hcomponents.sorted _ hc)).1 v hv).le⟩
  refine ⟨m, hm, (mem_outside_iff hg).2 ⟨m, mem_of_mem_componentsAmong hc hm, rfl⟩, ?_, ?_⟩
  · intro u hu
    obtain ⟨c, hc', hu⟩ := exists_liveComponent_of_mem_outside hg hu
    obtain ⟨v, hv, rfl⟩ := List.mem_map.1 hu
    rw [size_eq_length hg hscopes hc hm, size_eq_length hg hscopes hc' hv]
    exact_mod_cast key_le_of_firstMax hmax hc'
  · intro u hu hkey
    obtain ⟨c, hc', hu⟩ := exists_liveComponent_of_mem_outside hg hu
    obtain ⟨v, hv, rfl⟩ := List.mem_map.1 hu
    rw [size_eq_length hg hscopes hc hm, size_eq_length hg hscopes hc' hv] at hkey
    -- among the components of that size this one has the smallest node
    rcases eq_or_of_firstMax hmax hcomponents.ordered hc' (by exact_mod_cast hkey) with rfl | hlt
    · exact hfirst v hv
    · obtain ⟨w, hw, hlt⟩ := hlt
      exact (hfirst w hw).trans (hlt v hv).le

/-- A node that comes next is chosen by the rule: by the size of its component if all degrees are
small, and by its degree if not. -/
theorem chooses_of_next? {u : Fin n} (hnext : g.next? width = some u) :
    Chooses (interaction scopes cut) (outside n cut) width u := by
  by_cases hdegree : ∀ v ∈ g.live, g.degree v < width
  · rw [next?_eq_oversized? hdegree, oversized?_eq_some_iff] at hnext
    obtain ⟨component, hlargest, hlarge, hmax⟩ := hnext
    have hc := firstMax_mem hlargest
    obtain ⟨m, hm, hsize⟩ := exists_firstLargest_size hg hscopes hlargest
    refine .byComponent (fun v hv => ?_) hsize ?_ ?_
    · obtain ⟨v, hlive, rfl⟩ := (mem_outside_iff hg).1 hv
      rw [encard_neighborSet hg hscopes]
      exact_mod_cast hdegree v hlive
    · rw [size_eq_length hg hscopes hc hm]
      exact_mod_cast hlarge
    · refine firstLargest_degree hg hscopes (component_sorted (nodup_live g) hc) (fun v => ?_) hmax
      rw [← List.mem_map]
      exact (mem_liveComponent_iff hg hscopes hc (List.mem_map_of_mem hm) v).symm
  · push Not at hdegree
    obtain ⟨v, hv, hlarge⟩ := hdegree
    obtain ⟨w, hmax, -, hnext'⟩ := next?_eq_firstMax hv hlarge
    obtain rfl : w = u := Option.some.inj (hnext'.symm.trans hnext)
    refine .byDegree ⟨v, (mem_outside_iff hg).2 ⟨v, hv, rfl⟩, ?_⟩
      (firstLargest_degree hg hscopes (sorted_live g) (fun u => mem_outside_iff hg) hmax)
    rw [encard_neighborSet hg hscopes]
    exact_mod_cast hlarge

/-- If no node comes next, then the rule chooses none: all degrees and all components are small. -/
theorem not_chooses_of_next? (hnext : g.next? width = none) (v : Nat) :
    ¬ Chooses (interaction scopes cut) (outside n cut) width v := by
  have hdegree : ∀ u ∈ g.live, g.degree u < width := by
    intro u hu
    by_contra hlarge
    obtain ⟨w, -, -, hnext'⟩ := next?_eq_firstMax hu (Nat.le_of_not_lt hlarge)
    exact absurd (hnext.symm.trans hnext') (by simp)
  rw [next?_eq_oversized? hdegree, oversized?_eq_none_iff] at hnext
  rintro (⟨⟨u, hu, hlarge⟩, -⟩ | ⟨-, hm, hlarge, -⟩)
  · obtain ⟨u, hlive, rfl⟩ := (mem_outside_iff hg).1 hu
    rw [encard_neighborSet hg hscopes, Nat.cast_le] at hlarge
    exact absurd (hdegree u hlive) hlarge.not_gt
  · obtain ⟨c, hc, hu⟩ := exists_liveComponent_of_mem_outside hg hm.mem
    rw [encard_reachable hg hscopes hc hu, Nat.cast_lt] at hlarge
    exact absurd (hnext c hc) hlarge.not_ge

/-- What comes next is what the rule chooses. -/
theorem next?_eq_some_iff (v : Nat) : (g.next? width).map Fin.val = some v ↔
    Chooses (interaction scopes cut) (outside n cut) width v := by
  cases hnext : g.next? width with
  | none => simpa using not_chooses_of_next? hg hscopes hnext v
  | some u =>
    have hu := chooses_of_next? hg hscopes hnext
    simp only [Option.map_some, Option.some.injEq]
    exact ⟨fun h => h ▸ hu, hu.unique⟩

end Next

/-- The live components of graphs that show the same interaction. -/
theorem liveComponents_congr {g' : Graph n} {scopes' : List Scope} (hg : g.Shows scopes cut)
    (hg' : g'.Shows scopes' cut) (hscopes : ∀ scope ∈ scopes, ∀ id ∈ scope, id < n)
    (hscopes' : ∀ scope ∈ scopes', ∀ id ∈ scope, id < n)
    (h : interaction scopes cut = interaction scopes' cut) :
    g.liveComponents = g'.liveComponents := by
  have hlive : g.live = g'.live := List.filter_congr fun u _ => by
    rw [Bool.eq_iff_iff.2 ((hg.isRemoved u).trans (hg'.isRemoved u).symm)]
  have hlinked : ∀ u v, g.Linked u v ↔ g'.Linked u v := fun u v => by
    rw [hg.linked_iff hscopes, hg'.linked_iff hscopes', h]
  have hcomponents := areComponents_componentsAmong hg.symmetric hg.closed_live (sorted_live g)
  have hcomponents' := areComponents_componentsAmong hg'.symmetric hg'.closed_live (sorted_live g')
  exact (hcomponents.congr hlinked).unique (hlive ▸ hcomponents')

end Graph

namespace Decomposition

variable {n : Nat} {g : Graph n} {scopes : List Scope} (width : Nat)

/-! ## Section 5: Decompositions -/

theorem cut_eq_cutNodes (g : Graph n) : (ofGraph width g).cut = (g.cutNodes width).map Fin.val := rfl

/-- **The cut is greedy**: it follows the rule from the first place to its end. -/
theorem cut_greedy (hg : g.Shows scopes []) (hscopes : ∀ scope ∈ scopes, ∀ id ∈ scope, id < n) :
    GreedyCut scopes n width (ofGraph width g).cut := by
  intro k v
  have hshows := hg.foldl_remove ((g.cutNodes width).take k)
  rw [List.nil_append] at hshows
  rw [cut_eq_cutNodes, ← List.map_take, ← Graph.next?_eq_some_iff hshows hscopes, List.getElem?_map,
    Graph.getElem?_cutNodes]

/-- The decomposition with a given cut and given components. -/
def assemble (count : Nat) (cut : List Nat) (components : List Scope) : Decomposition where
  width := width
  cut := cut
  components := components
  membership := (Array.range count).map fun id => components.findIdx? fun c => c.contains id

theorem ofGraph_eq_assemble (g : Graph n) : ofGraph width g =
    assemble width n (ofGraph width g).cut (ofGraph width g).components := rfl

/-- **Only the interaction counts**: graphs of the same interaction have the same decomposition. -/
theorem ofGraph_congr {g' : Graph n} {scopes' : List Scope} (hg : g.Shows scopes [])
    (hg' : g'.Shows scopes' []) (hscopes : ∀ scope ∈ scopes, ∀ id ∈ scope, id < n)
    (hscopes' : ∀ scope ∈ scopes', ∀ id ∈ scope, id < n)
    (h : interaction scopes [] = interaction scopes' []) : ofGraph width g = ofGraph width g' := by
  have hcut : (ofGraph width g).cut = (ofGraph width g').cut :=
    (cut_greedy width hg hscopes).unique (cut_greedy width hg' hscopes') h
  have hcomponents : (ofGraph width g).components = (ofGraph width g').components := by
    have hremainder' := remainder_shows width hg'
    rw [← hcut] at hremainder'
    rw [components_ofGraph, components_ofGraph, Graph.liveComponents_congr (remainder_shows width hg)
      hremainder' hscopes hscopes' (interaction_congr h _)]
  rw [ofGraph_eq_assemble, ofGraph_eq_assemble width g', hcut, hcomponents]

end Decomposition

end PairedMarkov
