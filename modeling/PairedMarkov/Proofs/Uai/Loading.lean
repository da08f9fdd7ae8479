import PairedMarkov.Proofs.Scores
import PairedMarkov.Uai.Load

/-!
# Loaded problems are valid

A reader looks at what it has read before it goes on: a domain without values, a scope with an
unknown or a repeated variable and a table of the wrong size all stop it. So whatever a text holds,
the network that is read from it has factors that fit its variables; and two networks make up a
problem only if they agree on the domains.

Main statements:
- `Uai.gives_readNetwork`: a network that is read fits the domains that are read with it;
- `Uai.loads_loadProblem`: a problem that is loaded is valid, whatever the files hold.
-/

namespace PairedMarkov.Uai

/-! ## Section 1: What readers give -/

namespace Reader

variable {α β : Type}

/-- Everything that a reader gives has a property, from whatever words. -/
def Gives (r : Reader α) (P : α → Prop) : Prop :=
  ∀ words a rest, r.run words = .ok (a, rest) → P a

variable {P : α → Prop} {Q : β → Prop} {r : Reader α} {next : α → Reader β}

theorem gives_true : r.Gives fun _ => True := fun _ _ _ _ => trivial

theorem gives_pure {a : α} (h : P a) : Gives (pure a) P := by
  rintro words a' rest hrun
  obtain ⟨rfl, -⟩ := Prod.mk.inj (Except.ok.inj hrun)
  exact h

theorem gives_fail {e : ReadError} : Gives (fail e) P := fun _ _ _ hrun => nomatch hrun

theorem gives_check {x : Except Fault α} (h : ∀ a, x = .ok a → P a) : Gives (check x) P := by
  intro words a rest hrun
  cases x with
  | ok a' =>
    obtain ⟨rfl, -⟩ := Prod.mk.inj (Except.ok.inj hrun)
    exact h a' rfl
  | error fault => exact nomatch hrun

/-- A sequence: the second reader may use what the first one gives. -/
theorem gives_bind (h : r.Gives P) (hnext : ∀ a, P a → (next a).Gives Q) :
    Gives (r >>= next) Q := by
  intro words b rest hrun
  rw [StateT.run_bind] at hrun
  obtain ⟨⟨a, rest'⟩, hfirst, hsecond⟩ := bind_eq_ok_iff.1 hrun
  exact hnext a (h words a rest' hfirst) rest' b rest hsecond

theorem gives_collect {read : Nat → Reader α} (h : ∀ index, (read index).Gives P) (count : Nat)
    {index : Nat} {done : Array α} (hdone : ∀ a ∈ done, P a) :
    (collect read count index done).Gives fun all => ∀ a ∈ all, P a := by
  -- on the things that are still to be read; those before have the property already
  induction count generalizing index done with
  | zero => exact gives_pure hdone
  | succ count ih =>
    refine gives_bind (h index) fun a ha => ih fun a' ha' => ?_
    rcases Array.mem_push.1 ha' with ha' | rfl
    · exact hdone a' ha'
    · exact ha

/-- All things that are read one after the other have what each of them has. -/
theorem gives_times {read : Nat → Reader α} (h : ∀ index, (read index).Gives P) (count : Nat) :
    (times count read).Gives fun all => ∀ a ∈ all, P a :=
  gives_collect h count (by simp)

end Reader

open Reader

/-! ## Section 2: The sections of a file -/

theorem gives_readDomain (id : Nat) : (readDomain id).Gives (0 < ·) := by
  refine gives_bind gives_true fun size _ => ?_
  split
  · exact gives_fail
  · exact gives_pure (Nat.pos_of_ne_zero (by assumption))

theorem gives_readDomains : readDomains.Gives Domains.Positive :=
  gives_bind gives_true fun count _ =>
    gives_bind gives_true fun _ _ => gives_times gives_readDomain count

/-- A scope of variables below a number, none of them twice. -/
structure ScopeBelow (total : Nat) (scope : Scope) : Prop where
  nodup : scope.Nodup
  lt : ∀ id ∈ scope, id < total

theorem ScopeBelow.concat {total id : Nat} {scope : Scope} (h : ScopeBelow total scope)
    (hlt : id < total) (hnew : id ∉ scope) : ScopeBelow total (scope ++ [id]) := by
  refine ⟨?_, ?_⟩
  · simpa [List.nodup_append, h.nodup] using
      fun other hother => ne_of_mem_of_not_mem hother hnew
  · simpa [or_imp, forall_and] using ⟨h.lt, hlt⟩

theorem gives_readMembers (total factor count : Nat) {scope : Scope} (h : ScopeBelow total scope) :
    (readMembers total factor count scope).Gives (ScopeBelow total) := by
  induction count generalizing scope with
  | zero => exact gives_pure h
  | succ count ih =>
    refine gives_bind gives_true fun id _ => ?_
    split
    · exact gives_fail
    · split
      · exact gives_fail
      · -- the variable exists, and it is none of those before it
        rename_i hexists hnew
        have hnotMem : id ∉ scope := by simpa using hnew
        exact ih (h.concat (Nat.lt_of_not_le hexists) hnotMem)

theorem gives_readScope (total factor : Nat) : (readScope total factor).Gives (ScopeBelow total) :=
  gives_bind gives_true fun count _ => gives_bind gives_true fun _ _ =>
    gives_readMembers total factor count ⟨List.nodup_nil, by simp⟩

theorem gives_readScopes (total : Nat) :
    (readScopes total).Gives fun scopes => ∀ scope ∈ scopes, ScopeBelow total scope :=
  gives_bind gives_true fun count _ => gives_bind gives_true fun _ _ =>
    gives_times (gives_readScope total) count

/-- A factor over one of the scopes that have been read fits the variables. -/
theorem gives_readFactor {domains : Domains} {scopes : Array Scope}
    (h : ∀ scope ∈ scopes, ScopeBelow domains.size scope) (factor : Nat) :
    (readFactor domains scopes factor).Gives (Factor.Valid domains) := by
  have hscope : (check (fetch scopes factor)).Gives (ScopeBelow domains.size) :=
    gives_check fun scope hfetch => h scope (Array.mem_of_getElem? (fetch_eq_ok_iff.1 hfetch))
  refine gives_bind hscope fun scope hscope => gives_bind gives_true fun expected _ =>
    gives_bind gives_true fun declared _ => ?_
  split
  · exact gives_fail
  · refine gives_bind gives_true fun _ _ => gives_bind gives_true fun table _ =>
      gives_check fun f hf => ?_
    -- the table has been counted once more
    obtain ⟨size, hsize, hf⟩ := bind_eq_ok_iff.1 hf
    split at hf
    · rename_i hcount
      cases hf
      exact ⟨hscope.nodup, hscope.lt, hsize.trans (congrArg Except.ok hcount)⟩
    · cases hf

theorem gives_readFactors {domains : Domains} {scopes : Array Scope}
    (h : ∀ scope ∈ scopes, ScopeBelow domains.size scope) :
    (readFactors domains scopes).Gives fun factors => ∀ f ∈ factors, f.Valid domains :=
  gives_bind gives_true fun _ _ => gives_times (gives_readFactor h) scopes.size

/-! ## Section 3: Whole files -/

/-- Domains with values and factors that fit them. -/
structure Fits (network : Domains × Network LogWeight) : Prop where
  positive : network.1.Positive
  factor : ∀ f ∈ network.2.factors, f.Valid network.1

/-- **A network that is read** fits the domains that are read with it. -/
theorem gives_readNetwork : readNetwork.Gives Fits := by
  refine gives_bind gives_true fun first _ => ?_
  split
  · exact gives_fail
  · exact gives_bind gives_readDomains fun domains hdomains =>
      gives_bind (gives_readScopes domains.size) fun scopes hscopes =>
        gives_bind (gives_readFactors hscopes) fun factors hfactors =>
          gives_pure ⟨hdomains, hfactors⟩

variable {content : String} {network : Domains × Network LogWeight}

theorem parse_eq_ok_iff_run :
    parse content = .ok network ↔ ∃ rest, readNetwork.run (Text.words content) = .ok (network, rest) := by
  unfold parse
  cases readNetwork.run (Text.words content) with
  | ok result => simp [Except.map, Prod.ext_iff]
  | error e => simp [Except.map]

theorem parse_eq_error_iff_run {e : Stop ReadError} :
    parse content = .error e ↔ readNetwork.run (Text.words content) = .error e := by
  unfold parse
  cases readNetwork.run (Text.words content) with
  | ok result => simp [Except.map]
  | error e => simp [Except.map]

theorem fits_of_parse (h : parse content = .ok network) : Fits network := by
  obtain ⟨rest, hrun⟩ := parse_eq_ok_iff_run.1 h
  exact gives_readNetwork _ _ _ hrun

/-! ## Section 4: Pairs of files -/

/-- No variable of as many differs exactly if all have the same numbers of values. -/
theorem mismatch?_eq_none_iff {constraint objective : Domains}
    (hcount : constraint.size = objective.size) :
    mismatch? constraint objective = none ↔ constraint = objective := by
  constructor
  · intro hmatch
    refine Array.ext hcount fun id hc ho => ?_
    have hid := List.findSome?_eq_none_iff.1 hmatch id (List.mem_range.2 hc)
    simpa [hc, ho] using hid
  · intro hsame
    simp [mismatch?, hsame]

variable {first second : Domains × Network LogWeight} {p : Problem LogWeight}

/-- Networks make up a problem exactly if they have its variables. -/
theorem pair_eq_ok_iff :
    pair first second = .ok p ↔
      first = (p.domains, p.constraint) ∧ second = (p.domains, p.objective) := by
  obtain ⟨domains, constraint⟩ := first
  obtain ⟨domains', objective⟩ := second
  unfold pair
  constructor
  · intro h
    split at h
    · cases h
    · rename_i hcount
      split at h
      · cases h
      · rename_i hmatch
        have hsame : domains = domains' := (mismatch?_eq_none_iff (not_not.1 hcount)).1 hmatch
        cases h
        exact ⟨rfl, by rw [hsame]⟩
  · intro h
    obtain ⟨hfirst, hsecond⟩ := h
    cases hfirst
    cases hsecond
    simp [(mismatch?_eq_none_iff rfl).2]

/-- Networks that make up a problem have its domains, so what fits them fits the problem. -/
theorem valid_of_pair (hfirst : Fits first) (hsecond : Fits second) (h : pair first second = .ok p) :
    p.Valid := by
  obtain ⟨rfl, rfl⟩ := pair_eq_ok_iff.1 h
  refine ⟨hfirst.positive, fun role => ?_⟩
  cases role with
  | constraint => exact hfirst.factor
  | objective => exact hsecond.factor

/-! ## Section 5: Loading -/

variable {τ α β : Type} {x : ExceptT (Stop LoadError) (StateM τ) α}
  {next : α → ExceptT (Stop LoadError) (StateM τ) β} {w w₁ : τ}

theorem run_bind_of_ok {a : α} (h : x.run.run w = (.ok a, w₁)) :
    (x >>= next).run.run w = (next a).run.run w₁ := by
  rw [ExceptT.run_bind, StateT.run_bind, h]
  rfl

theorem run_bind_of_error {stop : Stop LoadError} (h : x.run.run w = (.error stop, w₁)) :
    (x >>= next).run.run w = (.error stop, w₁) := by
  rw [ExceptT.run_bind, StateT.run_bind, h]
  rfl

/-- Everything that loading gives has a property, whatever the files are. -/
def Loads (x : ExceptT (Stop LoadError) (StateM τ) α) (P : α → Prop) : Prop :=
  ∀ w a w', x.run.run w = (.ok a, w') → P a

variable {P : α → Prop} {Q : β → Prop}

theorem loads_true : Loads x fun _ => True := fun _ _ _ _ => trivial

theorem loads_pure {a : α} (h : P a) :
    Loads (pure a : ExceptT (Stop LoadError) (StateM τ) α) P := by
  intro w a' w' hrun
  obtain ⟨hsame, -⟩ := Prod.mk.inj hrun
  exact Except.ok.inj hsame ▸ h

theorem loads_throw {stop : Stop LoadError} :
    Loads (throw stop : ExceptT (Stop LoadError) (StateM τ) α) P := by
  intro w a w' hrun
  exact nomatch (Prod.mk.inj hrun).1

theorem loads_bind (h : Loads x P) (hnext : ∀ a, P a → Loads (next a) Q) :
    Loads (x >>= next) Q := by
  intro w b w' hrun
  rcases hx : x.run.run w with ⟨result, w₁⟩
  cases result with
  | ok a =>
    rw [run_bind_of_ok hx] at hrun
    exact hnext a (h w a w₁ hx) w₁ b w' hrun
  | error stop =>
    rw [run_bind_of_error hx] at hrun
    exact nomatch (Prod.mk.inj hrun).1

variable {read : String → StateM τ (Except FileError String)}

theorem loads_loadNetwork (path : String) : Loads (loadNetwork read path) Fits := by
  refine loads_bind loads_true fun answer _ => ?_
  cases answer with
  | error reason => exact loads_throw
  | ok content =>
    dsimp only
    split
    · rename_i hparse
      exact loads_pure (fits_of_parse hparse)
    · exact loads_throw
    · exact loads_throw

/-- **A problem that is loaded** is valid, whatever the files hold. -/
theorem loads_loadProblem (constraint objective : String) :
    Loads (loadProblem read constraint objective) Problem.Valid := by
  refine loads_bind (loads_loadNetwork constraint) fun first hfirst =>
    loads_bind (loads_loadNetwork objective) fun second hsecond => ?_
  split
  · rename_i hpair
    exact loads_pure (valid_of_pair hfirst hsecond hpair)
  · exact loads_throw

end PairedMarkov.Uai
