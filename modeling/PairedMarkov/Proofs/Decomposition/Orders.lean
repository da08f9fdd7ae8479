import PairedMarkov.Proofs.Graph.Removal
import PairedMarkov.Proofs.Decomposition.Greedy

/-!
# Decompositions in any order of the neighbours

A decomposition goes through the neighbours of nodes in two places: to remove a node from the lists
of its neighbours, and to find components. `Decomposes` is a decomposition step by step, in which
these orders are chosen anew each time, and in which removed nodes are found as components of their
own and dropped. None of these choices shows in the result.

Main statements:
- `Decomposition.decomposes_iff`: for any orders there is a decomposition, and it is the same one;
- `Decomposition.exists_ofProblem_greedy`: the decomposition of a problem is the greedy one, and
  depends on nothing but which variables interact.
-/

namespace PairedMarkov

namespace Graph

variable {n : Nat} {g h : Graph n} {scopes : List Scope} {cut : List Nat} {width : Nat}

/-! ## Section 1: Components without artifacts -/

/-- Whether some nodes are what a removed node leaves behind: a component of its own. -/
def isArtifact (g : Graph n) : List (Fin n) → Bool
  | [u] => g.isRemoved u
  | _ => false

/-- The components that have not been removed. -/
def liveComponentsIn (g : Graph n) (order : g.Enumeration) : List (List (Fin n)) :=
  (g.componentsIn order).filter fun component => !g.isArtifact component

/-- No path leads away from a removed node. -/
theorem Shows.eq_of_linked (hg : g.Shows scopes cut) {u v : Fin n} (hu : g.isRemoved u = true)
    (hlink : g.Linked u v) : v = u := by
  rcases hlink.cases_head with rfl | ⟨w, hedge, -⟩
  · rfl
  · exact absurd ((hg.isRemoved u).1 hu) ((hg.mem_neighbours u w).1 hedge).2.1

/-- A component is what a removed node leaves behind exactly if one of its nodes is removed, as no
edge is left at that node. -/
theorem Shows.isArtifact_eq (hg : g.Shows scopes cut) {lists : List (List (Fin n))}
    {nodes : List (Fin n)} (hlists : AreComponents g.Linked nodes lists) {l : List (Fin n)}
    (hl : l ∈ lists) {u : Fin n} (hu : u ∈ l) : g.isArtifact l = g.isRemoved u := by
  cases hremoved : g.isRemoved u with
  | true =>
    have hmem : ∀ v, v ∈ l ↔ v ∈ [u] := fun v => by
      rw [List.mem_singleton]
      constructor
      · exact fun hv => hg.eq_of_linked hremoved ((hlists.mem_iff l hl u hu v).1 hv)
      · rintro rfl
        exact hu
    rw [(hlists.sorted l hl).eq_of_mem_iff (List.pairwise_singleton _ u) hmem]
    exact hremoved
  | false =>
    unfold isArtifact
    split
    · exact List.mem_singleton.1 hu ▸ hremoved
    · rfl

/-- Dropping what removed nodes leave behind gives the components of the live nodes. -/
theorem Shows.liveComponentsIn_eq (hg : g.Shows scopes cut) (order : g.Enumeration) :
    g.liveComponentsIn order = g.liveComponents := by
  have hcomponents := areComponents_componentsIn hg.symmetric order
  have hlive : AreComponents g.Linked g.live (g.liveComponentsIn order) :=
    hcomponents.filter fun l hl u hu => congrArg (!·) (hg.isArtifact_eq hcomponents hl hu)
  exact hlive.unique (areComponents_componentsAmong hg.symmetric hg.closed_live (sorted_live g))

/-! ## Section 2: The two phases in any order -/

/-- The first phase, step by step. -/
inductive CutsDegrees (width : Nat) : Graph n → List (Fin n) → Graph n → Prop where
  | done {g : Graph n} (hsmall : ∀ u d, g.maxDegree g.live = some (u, d) → d < width) :
      CutsDegrees width g [] g
  | step {g h : Graph n} {u : Fin n} {d : Nat} {us : List (Fin n)}
      (hmax : g.maxDegree g.live = some (u, d)) (hd : width ≤ d) (order : g.Enumeration)
      (rest : CutsDegrees width (g.removeAlong u (order.list u)) us h) :
      CutsDegrees width g (u :: us) h

/-- The node of largest degree in the largest of some components, if that has more nodes than the
width. -/
def oversizedOf? (width : Nat) (g : Graph n) (components : List (List (Fin n))) :
    Option (Fin n) :=
  match firstMax List.length components with
  | none => none
  | some component =>
    if width < component.length then (g.maxDegree component).map Prod.fst else none

theorem Shows.oversizedOf?_eq (hg : g.Shows scopes cut) (order : g.Enumeration) :
    g.oversizedOf? width (g.liveComponentsIn order) = g.oversized? width := by
  rw [hg.liveComponentsIn_eq]
  rfl

/-- The second phase, step by step. The components are found again after each removal. -/
inductive CutsComponents (width : Nat) : Graph n → List (Fin n) → Graph n → Prop where
  | done {g : Graph n} (order : g.Enumeration)
      (hsmall : g.oversizedOf? width (g.liveComponentsIn order) = none) :
      CutsComponents width g [] g
  | step {g h : Graph n} {u : Fin n} {us : List (Fin n)} (order : g.Enumeration)
      (hlarge : g.oversizedOf? width (g.liveComponentsIn order) = some u) (order' : g.Enumeration)
      (rest : CutsComponents width (g.removeAlong u (order'.list u)) us h) :
      CutsComponents width g (u :: us) h

theorem CutsDegrees.eq_cutDegrees {us : List (Fin n)} (hus : CutsDegrees width g us h)
    (hg : g.Shows scopes cut) : g.cutDegrees width = (us, h) := by
  induction hus generalizing cut with
  | @done g hsmall =>
    rw [cutDegrees]
    split
    · rfl
    · rename_i u d hmax
      rw [if_neg (hsmall u d hmax).not_ge]
  | @step g h u d us hmax hd order _ ih =>
    rw [hg.removeAlong_eq_remove] at ih
    rw [cutDegrees_eq_cons hmax hd, ih (hg.remove u)]

theorem cutsDegrees_cutDegrees (hg : g.Shows scopes cut) :
    CutsDegrees width g (g.cutDegrees width).1 (g.cutDegrees width).2 := by
  induction g using cutDegrees.induct width generalizing cut with
  | case1 g hnone =>
    rw [cutDegrees_eq_nil fun u hu => absurd hu ?_]
    · exact .done fun u d hmax => absurd (hnone.symm.trans hmax) (by simp)
    · rw [firstMax_eq_none_iff.1 (Option.map_eq_none_iff.1 hnone)]
      exact List.not_mem_nil
  | case2 g u d hmax hd ih =>
    rw [cutDegrees_eq_cons hmax hd]
    refine .step hmax hd (.asListed g) ?_
    rw [hg.removeAlong_eq_remove]
    exact ih (hg.remove u)
  | case3 g u d hmax hd =>
    -- the greatest degree is small, and so are all others
    have hsmall : ∀ v ∈ g.live, g.degree v < width := by
      obtain ⟨hfirst, rfl⟩ := maxDegree_eq_some_iff.1 hmax
      exact fun v hv => (key_le_of_firstMax hfirst hv).trans_lt (Nat.lt_of_not_le hd)
    rw [cutDegrees_eq_nil hsmall]
    refine .done fun u' d' hmax' => ?_
    obtain ⟨-, rfl⟩ := maxDegree_eq_some_iff.1 hmax'
    exact hsmall u' (maxDegree_mem hmax')

theorem CutsComponents.eq_cutComponents {us : List (Fin n)} (hus : CutsComponents width g us h)
    (hg : g.Shows scopes cut) : g.cutComponents width = (us, h) := by
  induction hus generalizing cut with
  | @done g order hsmall =>
    rw [hg.oversizedOf?_eq] at hsmall
    exact cutComponents_eq_nil hsmall
  | @step g h u us order hlarge order' _ ih =>
    rw [hg.oversizedOf?_eq] at hlarge
    rw [hg.removeAlong_eq_remove] at ih
    rw [cutComponents_eq_cons hlarge, ih (hg.remove u)]

theorem cutsComponents_cutComponents (hg : g.Shows scopes cut) :
    CutsComponents width g (g.cutComponents width).1 (g.cutComponents width).2 := by
  induction g using cutComponents.induct width generalizing cut with
  | case1 g hnone =>
    rw [cutComponents_eq_nil hnone]
    exact .done (.asListed g) ((hg.oversizedOf?_eq _).trans hnone)
  | case2 g u hsome ih =>
    rw [cutComponents_eq_cons hsome]
    refine .step (.asListed g) ((hg.oversizedOf?_eq _).trans hsome) (.asListed g) ?_
    rw [hg.removeAlong_eq_remove]
    exact ih (hg.remove u)

end Graph

namespace Decomposition

variable {n : Nat} {g : Graph n} {scopes : List Scope} {width : Nat}

/-! ## Section 3: Decompositions in any order -/

/-- A decomposition, step by step: both phases, and the components of what they leave. -/
inductive Decomposes (width : Nat) (g : Graph n) : Decomposition → Prop where
  | intro {h k : Graph n} {us vs : List (Fin n)} (first : Graph.CutsDegrees width g us h)
      (second : Graph.CutsComponents width h vs k) (order : k.Enumeration) :
      Decomposes width g (assemble width n ((us ++ vs).map Fin.val)
        ((k.liveComponentsIn order).map fun c => c.map Fin.val))

/-- **Orders make no difference**: for any of them there is a decomposition, and it is the same. -/
theorem decomposes_iff (hg : g.Shows scopes []) {d : Decomposition} :
    Decomposes width g d ↔ d = ofGraph width g := by
  have hfirst := (Graph.cutDegrees_removes width g).shows hg
  have hsecond := (Graph.cutComponents_removes width (g.cutDegrees width).2).shows hfirst
  constructor
  · -- each phase ends in the graph that it ends in when run as listed, where the next one begins
    rintro ⟨first, second, order⟩
    have heq := first.eq_cutDegrees hg
    rw [heq] at hfirst hsecond
    have heq' := second.eq_cutComponents hfirst
    rw [heq'] at hsecond
    rw [hsecond.liveComponentsIn_eq, ofGraph, heq, heq']
    rfl
  · rintro rfl
    have first : Graph.CutsDegrees width g _ _ := Graph.cutsDegrees_cutDegrees hg
    have hdecomposes := Decomposes.intro first (Graph.cutsComponents_cutComponents hfirst)
      (.asListed _)
    rw [hsecond.liveComponentsIn_eq] at hdecomposes
    exact hdecomposes

/-- **The decomposition of a problem is the greedy one, and nothing but the interaction counts**: over
variables in range, its cut follows the greedy rule, and any problem with as many variables of which
the same ones interact has the same decomposition, in any order of the neighbours. -/
theorem exists_ofProblem_greedy {W : Type} (p : Problem W)
    (hp : ∀ scope ∈ p.scopes, scope.InRange p.domains) (width : Nat) :
    ∃ d, ofProblem p width = .ok d ∧ GreedyCut p.scopes p.domains.size width d.cut ∧
      ∀ {V : Type} (q : Problem V), (∀ scope ∈ q.scopes, scope.InRange q.domains) →
        q.domains.size = p.domains.size → interaction q.scopes [] = interaction p.scopes [] →
        ofProblem q width = .ok d ∧
          ∃ g, Graph.ofScopes q.domains.size q.scopes = .ok g ∧
            ∀ d', Decomposes width g d' ↔ d' = d := by
  obtain ⟨g, hok, hg⟩ := Graph.exists_ofScopes hp
  refine ⟨ofGraph width g, by rw [ofProblem, hok]; rfl, cut_greedy width hg hp, ?_⟩
  intro V q hq hsize hinteraction
  obtain ⟨g', hok', hg'⟩ := Graph.exists_ofScopes hq
  have hlt : ∀ scope ∈ q.scopes, ∀ id ∈ scope, id < q.domains.size := hq
  -- the graphs have nodes of one type only when the numbers of variables have been identified
  have hgraph : ofGraph width g' = ofGraph width g := by
    revert g'
    rw [hsize] at hlt ⊢
    intro g' hok' hg'
    exact ofGraph_congr width hg' hg hlt hp hinteraction
  refine ⟨by rw [ofProblem, hok', ← hgraph]; rfl, g', hok', fun d' => ?_⟩
  rw [decomposes_iff hg', hgraph]

/-- The same decomposition for a chain whose second factor is a table of another network, and for a
problem in which scopes come in another order, repeat each other and repeat variables. -/
theorem exists_chain_greedy :
    let p : Problem Nat :=
      { domains := #[2, 3, 2, 2]
        constraint := ⟨#[⟨[0, 1], #[0, 1, 2, 3, 4, 5]⟩, ⟨[2, 3], #[0, 1, 2, 3]⟩]⟩
        objective := ⟨#[⟨[2, 1], #[0, 1, 2, 3, 4, 5]⟩]⟩ }
    let q : Problem Int :=
      { domains := #[1, 1, 1, 1]
        constraint := ⟨#[]⟩
        objective := ⟨#[⟨[3, 2], #[0]⟩, ⟨[1, 2, 1], #[0]⟩, ⟨[1, 0], #[0]⟩, ⟨[0, 1], #[0]⟩]⟩ }
    ∃ d, ofProblem p 2 = .ok d ∧ GreedyCut p.scopes 4 2 d.cut ∧
      (∀ scope ∈ q.scopes, scope.InRange q.domains) ∧
      interaction q.scopes [] = interaction p.scopes [] ∧ ofProblem q 2 = .ok d ∧
      ∃ g, Graph.ofScopes 4 q.scopes = .ok g ∧ ∀ d', Decomposes 2 g d' ↔ d' = d := by
  intro p q
  have hp : ∀ scope ∈ p.scopes, scope.InRange p.domains := by decide
  have hq : ∀ scope ∈ q.scopes, scope.InRange q.domains := by decide
  have hinteraction : interaction q.scopes [] = interaction p.scopes [] := by
    ext u v
    simp only [interaction, p, q, Problem.scopes, List.cons_append, List.nil_append, List.map_cons,
      List.map_nil, List.mem_cons, List.not_mem_nil]
    grind
  obtain ⟨d, hd, hcut, hall⟩ := exists_ofProblem_greedy p hp 2
  exact ⟨d, hd, hcut, hq, hinteraction, hall q hq rfl hinteraction⟩

end Decomposition

end PairedMarkov
