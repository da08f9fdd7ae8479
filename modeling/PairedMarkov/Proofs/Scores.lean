import PairedMarkov.Proofs.Addressing
import PairedMarkov.Proofs.Exact
import PairedMarkov.Problem

/-!
# Scores without checks

A problem is *tabulated* if every variable has a value and every factor has a scope of existing
variables with one entry per joint value. It is *valid* if moreover no scope repeats a variable; this
is what reading a pair of files guarantees. In a tabulated problem no score fails. Here stands what
the scores are: the weight of a factor is the entry at the index of its scope, and a score is the sum
of the weights, taken from the left.

Main statements: `Problem.score_eq_ok` and `Problem.partialScore_eq_ok`; the weight of a factor
depends only on the variables in its scope (`Problem.weight_congr`).
-/

namespace PairedMarkov

variable {W : Type}

/-! ## Section 1: Valid problems -/

/-- A factor with a scope of existing variables and one entry for each of its joint values. -/
structure Factor.Tabulated (domains : Domains) (f : Factor W) : Prop where
  inRange : f.scope.InRange domains
  complete : f.scope.size domains = .ok f.table.size

/-- A problem over variables with values, all of whose factors have existing variables and the right
number of entries. -/
structure Problem.Tabulated (p : Problem W) : Prop where
  positive : p.domains.Positive
  factor : ∀ role, ∀ f ∈ (p.network role).factors, f.Tabulated p.domains

/-- A factor that fits the variables: a repetition-free scope of existing variables, and one entry
for each of its joint values. -/
structure Factor.Valid (domains : Domains) (f : Factor W) : Prop where
  nodup : f.scope.Nodup
  inRange : f.scope.InRange domains
  complete : f.scope.size domains = .ok f.table.size

/-- A problem over variables with values whose factors all fit them. -/
structure Problem.Valid (p : Problem W) : Prop where
  positive : p.domains.Positive
  factor : ∀ role, ∀ f ∈ (p.network role).factors, f.Valid p.domains

theorem Factor.Valid.tabulated {domains : Domains} {f : Factor W} (hf : f.Valid domains) :
    f.Tabulated domains :=
  ⟨hf.inRange, hf.complete⟩

theorem Problem.Valid.tabulated {p : Problem W} (hp : p.Valid) : p.Tabulated :=
  ⟨hp.positive, fun role f hf => (hp.factor role f hf).tabulated⟩

/-- A network as the constraint network of a problem that has no other one. -/
def Network.alone (n : Network W) (domains : Domains) : Problem W := ⟨domains, n, ⟨#[]⟩⟩

/-- A network of factors that fit is valid without another one, as the empty network has nothing to
fit. -/
theorem Network.valid_alone {n : Network W} {domains : Domains} (hd : domains.Positive)
    (hn : ∀ f ∈ n.factors, f.Valid domains) : (n.alone domains).Valid := by
  refine ⟨hd, fun role f hf => ?_⟩
  cases role with
  | constraint => exact hn f hf
  | objective => simp [alone, Problem.network] at hf

/-- The same with an equation that can be tested: results with errors have no test for equality, but
optional numbers do. -/
theorem Factor.tabulated_iff {domains : Domains} {f : Factor W} :
    f.Tabulated domains ↔ f.scope.InRange domains ∧
      (f.scope.size domains).toOption = some f.table.size := by
  constructor
  · rintro ⟨hrange, hcomplete⟩
    exact ⟨hrange, by rw [hcomplete]; rfl⟩
  · rintro ⟨hrange, hcomplete⟩
    refine ⟨hrange, ?_⟩
    cases hsize : f.scope.size domains with
    | ok size =>
      rw [hsize] at hcomplete
      exact congrArg Except.ok (Option.some.inj hcomplete)
    | error e =>
      rw [hsize] at hcomplete
      cases hcomplete

instance (domains : Domains) (f : Factor W) : Decidable (f.Tabulated domains) :=
  decidable_of_iff _ Factor.tabulated_iff.symm

theorem Factor.valid_iff {domains : Domains} {f : Factor W} :
    f.Valid domains ↔ f.scope.Nodup ∧ f.Tabulated domains :=
  ⟨fun h => ⟨h.nodup, h.tabulated⟩, fun h => ⟨h.1, h.2.inRange, h.2.complete⟩⟩

instance (domains : Domains) (f : Factor W) : Decidable (f.Valid domains) :=
  decidable_of_iff _ Factor.valid_iff.symm

instance (domains : Domains) : Decidable domains.Positive :=
  inferInstanceAs (Decidable (∀ size ∈ domains, 0 < size))

/-- A problem has two networks. -/
theorem Role.forall_iff {P : Role → Prop} : (∀ role, P role) ↔ P .constraint ∧ P .objective :=
  ⟨fun h => ⟨h _, h _⟩, fun h role => role.casesOn h.1 h.2⟩

instance (P : Role → Prop) [DecidablePred P] : Decidable (∀ role, P role) :=
  decidable_of_iff _ Role.forall_iff.symm

instance (p : Problem W) : Decidable p.Tabulated :=
  decidable_of_iff
    (p.domains.Positive ∧ ∀ role, ∀ f ∈ (p.network role).factors, f.Tabulated p.domains)
    ⟨fun h => ⟨h.1, h.2⟩, fun h => ⟨h.positive, h.factor⟩⟩

instance (p : Problem W) : Decidable p.Valid :=
  decidable_of_iff
    (p.domains.Positive ∧ ∀ role, ∀ f ∈ (p.network role).factors, f.Valid p.domains)
    ⟨fun h => ⟨h.1, h.2⟩, fun h => ⟨h.positive, h.factor⟩⟩

/-- A scope with a table has no more joint values than a word can count. -/
theorem Factor.Tabulated.capacity_lt {domains : Domains} {f : Factor W} (hf : f.Tabulated domains)
    (hd : domains.Positive) : f.scope.capacity domains < wordLimit :=
  ((Scope.size_eq_ok_iff hd).1 hf.complete).2.1

/-- A table has an entry for each joint value of its scope. -/
theorem Factor.Tabulated.size_table {domains : Domains} {f : Factor W} (hf : f.Tabulated domains)
    (hd : domains.Positive) : f.table.size = f.scope.capacity domains :=
  ((Scope.size_eq_ok_iff hd).1 hf.complete).2.2

/-! ## Section 2: Weights of factors -/

variable [Weight W] {domains : Domains} {x y : Assignment}

/-- The entry that an assignment selects. -/
def Factor.weight (f : Factor W) (domains : Domains) (x : Assignment) : W :=
  f.table.getD (Scope.index domains x f.scope) 0

/-- The value of a factor is found without a fault, and is the entry that the assignment selects. -/
theorem Factor.Tabulated.value_eq_ok {f : Factor W} (hf : f.Tabulated domains)
    (hx : x.Inside domains) : f.value domains x = .ok (f.weight domains x) := by
  -- the address is an index of a joint value, and there are as many entries as joint values
  have hindex : Scope.index domains x f.scope < f.table.size :=
    hf.size_table hx.positive ▸ Scope.index_lt hx f.scope
  rw [Factor.value, Factor.address,
    Scope.address_eq_ok hx hf.inRange (hf.capacity_lt hx.positive), ok_bind, Factor.valueAt,
    fetch_of_lt hindex]
  simp [Factor.weight, hindex]

/-! ## Section 3: Sums -/

/-- The sum of weights, from the left. -/
def Weight.total (weights : List W) : W := weights.foldl (· + ·) Weight.emptySum

namespace Problem

/-- The scope of the factor with a number, empty if there is none. -/
def scopeOf (p : Problem W) (role : Role) (id : Nat) : Scope :=
  (p.network role).factors[id]?.elim [] Factor.scope

omit [Weight W] in
/-- The scopes of a problem are those of the factors of both networks. -/
theorem mem_scopes_iff {p : Problem W} {scope : Scope} :
    scope ∈ p.scopes ↔ ∃ role, ∃ f ∈ (p.network role).factors, f.scope = scope := by
  simp only [scopes, List.mem_map, List.mem_append, Array.mem_toList_iff]
  constructor
  · rintro ⟨f, hf | hf, rfl⟩
    · exact ⟨.constraint, f, hf, rfl⟩
    · exact ⟨.objective, f, hf, rfl⟩
  · rintro ⟨role, f, hf, rfl⟩
    cases role
    · exact ⟨f, Or.inl hf, rfl⟩
    · exact ⟨f, Or.inr hf, rfl⟩

omit [Weight W] in
/-- A factor with a variable is a factor of the problem. -/
theorem scopeOf_mem_scopes {p : Problem W} {role : Role} {id v : Nat} (hv : v ∈ p.scopeOf role id) :
    p.scopeOf role id ∈ p.scopes := by
  unfold scopeOf at *
  cases hf : (p.network role).factors[id]? with
  | none =>
    rw [hf] at hv
    exact absurd hv List.not_mem_nil
  | some f => exact mem_scopes_iff.2 ⟨role, f, Array.mem_of_getElem? hf, rfl⟩

omit [Weight W] in
theorem Tabulated.inRange {p : Problem W} (hp : p.Tabulated) :
    ∀ scope ∈ p.scopes, scope.InRange p.domains := by
  intro scope hscope
  obtain ⟨role, f, hf, rfl⟩ := mem_scopes_iff.1 hscope
  exact (hp.factor role f hf).inRange

omit [Weight W] in
theorem Valid.inRange {p : Problem W} (hp : p.Valid) : ∀ scope ∈ p.scopes, scope.InRange p.domains :=
  hp.tabulated.inRange

/-- The weight of the factor with a number, zero if there is none. -/
def weight (p : Problem W) (role : Role) (x : Assignment) (id : Nat) : W :=
  (p.network role).factors[id]?.elim 0 fun f => f.weight p.domains x

/-- The sum of the weights of the factors with some numbers. -/
def partialTotal (p : Problem W) (role : Role) (x : Assignment) (ids : List Nat) : W :=
  Weight.total (ids.map (p.weight role x))

/-- The numbers of the factors of the network in a role. -/
def factorIds (p : Problem W) (role : Role) : List Nat :=
  List.range (p.network role).factors.size

/-- The sum of the weights of all factors. -/
def total (p : Problem W) (role : Role) (x : Assignment) : W :=
  p.partialTotal role x (p.factorIds role)

variable {p : Problem W} {role : Role}

/-- The weight of a factor depends only on the variables in its scope. -/
theorem weight_congr {id : Nat} (h : ∀ v ∈ p.scopeOf role id, x.valueAt v = y.valueAt v) :
    p.weight role x id = p.weight role y id := by
  unfold weight
  cases hf : (p.network role).factors[id]? with
  | none => rfl
  | some f =>
    -- the entry is that at the index of the scope, which no other variable enters
    simp only [scopeOf, hf, Option.elim_some] at h
    simp only [Option.elim_some, Factor.weight, Scope.index_congr h]

theorem partialTotal_congr {ids : List Nat}
    (h : ∀ id ∈ ids, ∀ v ∈ p.scopeOf role id, x.valueAt v = y.valueAt v) :
    p.partialTotal role x ids = p.partialTotal role y ids := by
  unfold partialTotal
  rw [List.map_congr_left fun id hid => weight_congr (h id hid)]

/-- **The score of some factors** of a tabulated problem is found without a fault, and is the sum of
their weights from the left. -/
theorem partialScore_eq_ok (hp : p.Tabulated) (hx : x.Inside p.domains) {ids : List Nat}
    (hids : ∀ id ∈ ids, id < (p.network role).factors.size) :
    p.partialScore role x ids = .ok (p.partialTotal role x ids) := by
  -- every step of the loop adds the weight of one factor
  have step : ∀ (sum : W), ∀ id ∈ ids,
      (do let f ← fetch (p.network role).factors id
          return sum + (← f.value p.domains x) : Except Fault W) =
        .ok (sum + p.weight role x id) := by
    intro sum id hid
    have hf := hp.factor role _ (Array.getElem_mem (hids id hid))
    rw [fetch_of_lt (hids id hid), ok_bind, hf.value_eq_ok hx]
    simp [weight, hids id hid, pure, Except.pure]
  rw [partialScore, Network.partialScore, foldlM_eq_ok step, partialTotal, Weight.total,
    List.foldl_map]

/-- The weights of all numbers of factors are those of the factors, one after the other. -/
theorem map_weight_factorIds (p : Problem W) (role : Role) (x : Assignment) :
    (p.factorIds role).map (p.weight role x) =
      (p.network role).factors.toList.map fun f => f.weight p.domains x := by
  refine List.ext_getElem (by simp [factorIds]) fun id h _ => ?_
  have hid : id < (p.network role).factors.size := by simpa [factorIds] using h
  simp [factorIds, weight, hid]

/-- **The score of an assignment** is found without a fault in a valid problem, and is the sum of
the weights of all factors from the left. -/
theorem score_eq_ok (hp : p.Valid) (hx : x.Inside p.domains) :
    p.score role x = .ok (p.total role x) := by
  -- this loop goes over the factors themselves, the one of a partial score over their numbers
  have step : ∀ (sum : W), ∀ f ∈ (p.network role).factors.toList,
      (return sum + (← f.value p.domains x) : Except Fault W) =
        .ok (sum + f.weight p.domains x) := by
    intro sum f hf
    rw [(hp.factor role f (Array.mem_toList_iff.1 hf)).tabulated.value_eq_ok hx]
    rfl
  rw [score, Network.score, Network.sum, foldlM_eq_ok step, total, partialTotal, Weight.total,
    map_weight_factorIds, List.foldl_map]

end Problem

/-! ## Section 4: Exact scores -/

section ExactScores

variable {R : Type} [Ring R] [LinearOrder R]

/-- Exact addition is associative, so that the sum from the left is the sum. -/
theorem Weight.total_eq_sum (weights : List (Exact R)) : Weight.total weights = weights.sum :=
  (List.sum_eq_foldl ..).symm

/-- All entries of all tables are numbers. -/
def Problem.Numeric (p : Problem (Exact R)) : Prop :=
  ∀ role, ∀ f ∈ (p.network role).factors, ∀ w ∈ f.table, w.IsNumber

instance (p : Problem (Exact R)) : Decidable p.Numeric :=
  inferInstanceAs (Decidable (∀ role, ∀ f ∈ (p.network role).factors, ∀ w ∈ f.table, w.IsNumber))

namespace Problem

variable {p : Problem (Exact R)} {role : Role}

/-- The constraint score of an assignment is at most the threshold. -/
def Under (p : Problem (Exact R)) (threshold : Exact R) (x : Assignment) : Prop :=
  ∃ score, p.score .constraint x = .ok score ∧ score ≤ threshold

theorem under_iff (hp : p.Valid) {threshold : Exact R} {x : Assignment} (hx : x.Inside p.domains) :
    p.Under threshold x ↔ p.total .constraint x ≤ threshold := by
  rw [Under, score_eq_ok hp hx]
  simp

/-- An exact score does not depend on the order of its factors. -/
theorem partialTotal_perm {ids ids' : List Nat} (h : ids.Perm ids') (x : Assignment) :
    p.partialTotal role x ids = p.partialTotal role x ids' := by
  rw [partialTotal, partialTotal, Weight.total_eq_sum, Weight.total_eq_sum]
  exact (h.map _).sum_eq

theorem partialTotal_append (ids ids' : List Nat) (x : Assignment) :
    p.partialTotal role x (ids ++ ids') =
      p.partialTotal role x ids + p.partialTotal role x ids' := by
  simp only [partialTotal, Weight.total_eq_sum, List.map_append, List.sum_append]

/-- An exact score over some buckets of factors is the sum of the scores over each of them. -/
theorem partialTotal_flatten (buckets : List (List Nat)) (x : Assignment) :
    p.partialTotal role x buckets.flatten = (buckets.map (p.partialTotal role x)).sum := by
  induction buckets with
  | nil => rfl
  | cons ids buckets ih =>
    rw [List.flatten_cons, partialTotal_append, ih, List.map_cons, List.sum_cons]

/-- In a problem of numbers all weights are numbers, those of factors that do not exist included. -/
theorem Numeric.weight (hp : p.Numeric) (role : Role) (x : Assignment) (id : Nat) :
    (p.weight role x id).IsNumber := by
  unfold Problem.weight Factor.weight
  cases hf : (p.network role).factors[id]? with
  | none => exact Exact.isNumber_zero
  | some f =>
    -- past the end of the table stands a zero
    rw [Option.elim_some, Array.getD_eq_getD_getElem?]
    cases hw : f.table[Scope.index p.domains x f.scope]? with
    | none => exact Exact.isNumber_zero
    | some w => exact hp role f (Array.mem_of_getElem? hf) w (Array.mem_of_getElem? hw)

theorem Numeric.partialTotal (hp : p.Numeric) (role : Role) (x : Assignment) (ids : List Nat) :
    (p.partialTotal role x ids).IsNumber := by
  rw [Problem.partialTotal, Weight.total_eq_sum]
  refine Exact.isNumber_sum fun w hw => ?_
  obtain ⟨id, -, rfl⟩ := List.mem_map.1 hw
  exact hp.weight role x id

theorem Numeric.total (hp : p.Numeric) (role : Role) (x : Assignment) :
    (p.total role x).IsNumber :=
  hp.partialTotal role x _

end Problem

end ExactScores

end PairedMarkov
