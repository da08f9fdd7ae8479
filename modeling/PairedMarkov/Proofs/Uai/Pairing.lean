import PairedMarkov.Proofs.Uai.Loading

/-!
# Pairs of files

Two files that can be read make up a problem if each of them holds a network and the networks have the
same variables. Otherwise something is wrong, and often more than one thing. What is said to be wrong is
then the first of four reasons: what is wrong with the text for the constraint network, what is wrong
with the one for the objective network, different numbers of variables, and the first variable that has
different numbers of values in the two networks.

The factors of the objective network have been checked against the variables of their own file, which
are given up in the end. They fit the variables of the problem all the same, because a network is only
taken over if its variables are those of the other one.

Main statements:
- `Uai.pairTexts_eq_ok_iff` and `Uai.pairTexts_eq_error_iff`: which texts make up a problem, and what is
  wrong with those that do not;
- `Uai.loadProblem_outcome`: loading two readable files gives a valid problem or the first reason.
-/

namespace PairedMarkov.Uai

/-! ## Section 1: The first reason -/

/-- Two networks have the same variables: as many, and each with as many values. -/
structure SameVariables (first second : Domains) : Prop where
  count : first.size = second.size
  size : ∀ id (h : id < first.size) (h' : id < second.size), first[id] = second[id]

/-- The first variable that has different numbers of values in two networks, with these numbers. -/
structure FirstDifference (first second : Domains) (id m n : ℕ) : Prop where
  left : first[id]? = some m
  right : second[id]? = some n
  ne : m ≠ n
  before : ∀ j < id, first[j]? = second[j]?

/-- The first reason for which two texts do not make up a problem. Each reason is one only if those
before it do not apply. -/
inductive FirstError (c o : String) : LoadError → Prop
  | constraint {e : ReadError} (h : parse c = .error (.error e)) : FirstError c o (.malformed e)
  | objective {first : Domains × Network LogWeight} {e : ReadError} (hc : parse c = .ok first)
    (h : parse o = .error (.error e)) : FirstError c o (.malformed e)
  | variableCount {first second : Domains × Network LogWeight} (hc : parse c = .ok first)
    (ho : parse o = .ok second) (h : first.1.size ≠ second.1.size) :
    FirstError c o (.variableCount first.1.size second.1.size)
  | domainMismatch {first second : Domains × Network LogWeight} {id m n : ℕ}
    (hc : parse c = .ok first) (ho : parse o = .ok second) (hcount : first.1.size = second.1.size)
    (h : FirstDifference first.1 second.1 id m n) : FirstError c o (.domainMismatch id m n)

/-- Both texts are read as networks over the variables of a problem, which is made of these networks. -/
structure Paired (c o : String) (p : Problem LogWeight) : Prop where
  constraint : parse c = .ok (p.domains, p.constraint)
  objective : parse o = .ok (p.domains, p.objective)

/-! ## Section 2: Pairing networks -/

theorem sameVariables_iff {first second : Domains} : SameVariables first second ↔ first = second := by
  constructor
  · intro h
    exact Array.ext h.count h.size
  · intro h
    subst h
    exact ⟨rfl, fun _ _ _ => rfl⟩

private theorem findSome?_range_eq_some_iff {β : Type} {f : ℕ → Option β} {n : ℕ} {b : β} :
    (List.range n).findSome? f = some b ↔ ∃ i < n, f i = some b ∧ ∀ j < i, f j = none := by
  induction n with
  | zero => simp
  | succ n ih =>
    rw [List.range_succ, List.findSome?_append, Option.or_eq_some_iff, ih,
      List.findSome?_eq_none_iff]
    constructor
    · intro h
      rcases h with h | h
      · obtain ⟨i, hi, hb, hbefore⟩ := h
        exact ⟨i, Nat.lt_succ_of_lt hi, hb, hbefore⟩
      · obtain ⟨hnone, hb⟩ := h
        exact ⟨n, Nat.lt_succ_self n, by simpa using hb, fun j hj => hnone j (List.mem_range.2 hj)⟩
    · intro h
      obtain ⟨i, hi, hb, hbefore⟩ := h
      -- the last number counts only if none before it does
      rcases Nat.lt_succ_iff_lt_or_eq.1 hi with hlt | rfl
      · exact .inl ⟨i, hlt, hb, hbefore⟩
      · exact .inr ⟨fun j hj => hbefore j (List.mem_range.1 hj), by simpa using hb⟩

/-- The mismatch that is found is the first difference. -/
theorem mismatch?_eq_some_iff {first second : Domains} (hcount : first.size = second.size)
    {e : LoadError} :
    mismatch? first second = some e ↔
      ∃ id m n, FirstDifference first second id m n ∧ e = .domainMismatch id m n := by
  unfold mismatch?
  rw [findSome?_range_eq_some_iff]
  constructor
  · intro h
    obtain ⟨id, hid, he, hbefore⟩ := h
    -- both lists of sizes reach as far, and so the entries can be compared
    have hid' : id < second.size := hcount ▸ hid
    have hfound : ¬ first[id] = second[id] ∧ .domainMismatch id first[id] second[id] = e := by
      simpa [hid, hid'] using he
    refine ⟨id, first[id], second[id], ⟨by simp [hid], by simp [hid'], hfound.1, ?_⟩, hfound.2.symm⟩
    intro j hj
    have hfirst : j < first.size := hj.trans hid
    have hsecond : j < second.size := hj.trans hid'
    simpa [hfirst, hsecond] using hbefore j hj
  · intro h
    obtain ⟨id, m, n, hdiffers, rfl⟩ := h
    obtain ⟨hid, hm⟩ := Array.getElem?_eq_some_iff.1 hdiffers.left
    obtain ⟨hid', hn⟩ := Array.getElem?_eq_some_iff.1 hdiffers.right
    refine ⟨id, hid, by simp [hid, hid', hm, hn, hdiffers.ne], fun j hj => ?_⟩
    have hfirst : j < first.size := hj.trans hid
    have hsecond : j < second.size := hj.trans hid'
    simpa [hfirst, hsecond] using hdiffers.before j hj

variable {first second : Domains × Network LogWeight} {p : Problem LogWeight}

/-- What is wrong with two networks is their number of variables or else their first difference. -/
theorem pair_eq_error_iff {e : LoadError} :
    pair first second = .error e ↔
      first.1.size ≠ second.1.size ∧ e = .variableCount first.1.size second.1.size ∨
      first.1.size = second.1.size ∧
        ∃ id m n, FirstDifference first.1 second.1 id m n ∧ e = .domainMismatch id m n := by
  unfold pair
  by_cases hcount : first.1.size = second.1.size
  · rw [if_neg (not_not.2 hcount), ← mismatch?_eq_some_iff hcount]
    cases mismatch? first.1 second.1 with
    | none => simp [hcount]
    | some found => simp [hcount]
  · simp [hcount, eq_comm]

/-! ## Section 3: Pairing texts -/

/-- What loading makes of the texts of two files. -/
def pairTexts (c o : String) : Except (Stop LoadError) (Problem LogWeight) := do
  let first ← (parse c).mapError (Stop.map .malformed)
  let second ← (parse o).mapError (Stop.map .malformed)
  (pair first second).mapError .error

variable {c o : String}

/-- Texts make up a problem exactly if both are networks over its variables. -/
theorem pairTexts_eq_ok_iff : pairTexts c o = .ok p ↔ Paired c o p := by
  unfold pairTexts
  simp only [bind_eq_ok_iff, mapError_eq_ok_iff, pair_eq_ok_iff]
  constructor
  · intro h
    obtain ⟨first, hc, second, ho, rfl, rfl⟩ := h
    exact ⟨hc, ho⟩
  · intro h
    exact ⟨_, h.constraint, _, h.objective, rfl, rfl⟩

/-- If texts do not make up a problem and no reader meets a fault, then the first reason is given. -/
theorem pairTexts_eq_error_iff (hc : ∀ f, parse c ≠ .error (.fault f))
    (ho : ∀ first f, parse c = .ok first → parse o ≠ .error (.fault f)) {stop : Stop LoadError} :
    pairTexts c o = .error stop ↔ ∃ e, stop = .error e ∧ FirstError c o e := by
  unfold pairTexts
  simp only [bind_eq_error_iff, mapError_eq_ok_iff, mapError_eq_error_iff, pair_eq_error_iff]
  constructor
  · intro h
    -- it stops at the first text, at the second one, or at the pair, which needs both
    rcases h with h | h
    · obtain ⟨e, hparse, rfl⟩ := h
      cases e with
      | fault f => exact absurd hparse (hc f)
      | error e => exact ⟨_, rfl, .constraint hparse⟩
    · obtain ⟨first, hfirst, h⟩ := h
      rcases h with h | h
      · obtain ⟨e, hparse, rfl⟩ := h
        cases e with
        | fault f => exact absurd hparse (ho first f hfirst)
        | error e => exact ⟨_, rfl, .objective hfirst hparse⟩
      · obtain ⟨second, hsecond, e, h, rfl⟩ := h
        refine ⟨e, rfl, ?_⟩
        rcases h with h | h
        · obtain ⟨hcount, rfl⟩ := h
          exact .variableCount hfirst hsecond hcount
        · obtain ⟨hcount, id, m, n, hdiffers, rfl⟩ := h
          exact .domainMismatch hfirst hsecond hcount hdiffers
  · intro h
    obtain ⟨e, rfl, h⟩ := h
    cases h with
    | constraint h => exact .inl ⟨_, h, rfl⟩
    | objective hfirst h => exact .inr ⟨_, hfirst, .inl ⟨_, h, rfl⟩⟩
    | variableCount hfirst hsecond h =>
      exact .inr ⟨_, hfirst, .inr ⟨_, hsecond, _, .inl ⟨h, rfl⟩, rfl⟩⟩
    | domainMismatch hfirst hsecond hcount h =>
      exact .inr ⟨_, hfirst, .inr ⟨_, hsecond, _, .inr ⟨hcount, _, _, _, h, rfl⟩, rfl⟩⟩

theorem exists_paired_iff :
    (∃ p, Paired c o p) ↔
      ∃ first second, parse c = .ok first ∧ parse o = .ok second ∧ SameVariables first.1 second.1 := by
  constructor
  · intro h
    obtain ⟨p, hp⟩ := h
    exact ⟨_, _, hp.constraint, hp.objective, sameVariables_iff.2 rfl⟩
  · intro h
    obtain ⟨first, second, hc, ho, hsame⟩ := h
    obtain ⟨domains, constraint⟩ := first
    obtain ⟨domains', objective⟩ := second
    obtain rfl : domains = domains' := sameVariables_iff.1 hsame
    exact ⟨⟨domains, constraint, objective⟩, hc, ho⟩

/-! ## Section 4: Loading readable files -/

/-- What a problem consists of fits together: no scope repeats a variable or has one that does not
exist, each table has one entry for each joint value, and so far every variable has a value of its
domain. -/
structure Consistent (p : Problem LogWeight) : Prop where
  nodup : ∀ role, ∀ f ∈ (p.network role).factors, f.scope.Nodup
  inRange : ∀ role, ∀ f ∈ (p.network role).factors, f.scope.InRange p.domains
  size : ∀ role, ∀ f ∈ (p.network role).factors, f.table.size = f.scope.capacity p.domains
  inside : (Assignment.first p.domains).Inside p.domains

theorem Paired.consistent (h : Paired c o p) : Consistent p := by
  have hp : p.Valid :=
    valid_of_pair (fits_of_parse h.constraint) (fits_of_parse h.objective) (pair_eq_ok_iff.2 ⟨rfl, rfl⟩)
  exact {
    nodup := fun role f hf => (hp.factor role f hf).nodup
    inRange := fun role f hf => (hp.factor role f hf).inRange
    size := fun role f hf => (hp.factor role f hf).tabulated.size_table hp.positive
    inside := Assignment.inside_first hp.positive }

/-- What loading two texts should give: a consistent problem of the two networks if they have the same
variables, and otherwise the first reason why there is none. -/
structure Outcome (c o : String) (result : Except (Stop LoadError) (Problem LogWeight)) : Prop where
  succeeds : (∃ p, result = .ok p) ↔
    ∃ first second, parse c = .ok first ∧ parse o = .ok second ∧ SameVariables first.1 second.1
  problem : ∀ p, result = .ok p → Paired c o p ∧ Consistent p
  reason : ∀ stop, result = .error stop ↔ ∃ e, stop = .error e ∧ FirstError c o e

theorem outcome_pairTexts (hc : ∀ f, parse c ≠ .error (.fault f))
    (ho : ∀ first f, parse c = .ok first → parse o ≠ .error (.fault f)) :
    Outcome c o (pairTexts c o) where
  succeeds := by
    simp only [pairTexts_eq_ok_iff]
    exact exists_paired_iff
  problem p hp := by
    have h := pairTexts_eq_ok_iff.1 hp
    exact ⟨h, h.consistent⟩
  reason _ := pairTexts_eq_error_iff hc ho

section Runs

variable {τ : Type} {read : String → StateM τ (Except FileError String)} {w w₁ w₂ : τ}

/-- Loading a readable file parses its text, and tells an error in it as one of a malformed file. -/
theorem run_loadNetwork {path : String} (hread : (read path).run w = (.ok c, w₁)) :
    (loadNetwork read path).run.run w = ((parse c).mapError (Stop.map .malformed), w₁) := by
  have hlift : (ExceptT.lift (read path) : ExceptT (Stop LoadError) (StateM τ) _).run.run w =
      (.ok (.ok c), w₁) := by
    rw [ExceptT.run_lift, StateT.run_map, hread]
    rfl
  rw [loadNetwork, run_bind_of_ok hlift]
  cases hparse : parse c with
  | ok network =>
    simp only [hparse]
    rfl
  | error stop =>
    cases stop with
    | fault f =>
      simp only [hparse]
      rfl
    | error e =>
      simp only [hparse]
      rfl

/-- The second file is not read if there is something wrong with the text of the first one. -/
theorem exists_run_loadProblem {constraint objective : String}
    (hc : (read constraint).run w = (.ok c, w₁)) (ho : (read objective).run w₁ = (.ok o, w₂)) :
    ∃ w', (loadProblem read constraint objective).run.run w = (pairTexts c o, w') := by
  have hfirst := run_loadNetwork hc
  have hsecond := run_loadNetwork ho
  unfold loadProblem pairTexts
  cases hmapped : (parse c).mapError (Stop.map LoadError.malformed) with
  | error stop =>
    rw [hmapped] at hfirst
    exact ⟨w₁, run_bind_of_error hfirst⟩
  | ok first =>
    rw [hmapped] at hfirst
    refine ⟨w₂, ?_⟩
    rw [run_bind_of_ok hfirst, ok_bind]
    cases hmapped : (parse o).mapError (Stop.map LoadError.malformed) with
    | error stop =>
      rw [hmapped] at hsecond
      exact run_bind_of_error hsecond
    | ok second =>
      rw [hmapped] at hsecond
      rw [run_bind_of_ok hsecond, ok_bind]
      cases pair first second with
      | ok p => rfl
      | error e => rfl

/-- **Loading two readable files** gives a consistent problem exactly if both hold networks and these
have the same variables, and otherwise the first reason why they do not make up a problem. Reading must
not meet a fault; the second text does not matter here if the first one is malformed. -/
theorem loadProblem_outcome {constraint objective : String}
    (hc : (read constraint).run w = (.ok c, w₁)) (ho : (read objective).run w₁ = (.ok o, w₂))
    (hsafe : ∀ f, parse c ≠ .error (.fault f))
    (hsafe' : ∀ first f, parse c = .ok first → parse o ≠ .error (.fault f)) :
    ∃ result w', (loadProblem read constraint objective).run.run w = (result, w') ∧
      Outcome c o result := by
  obtain ⟨w', hrun⟩ := exists_run_loadProblem hc ho
  exact ⟨pairTexts c o, w', hrun, outcome_pairTexts hsafe hsafe'⟩

private theorem exists_parse_eq_ok {domains : Domains}
    (h : (parse c).toOption.map Prod.fst = some domains) : ∃ n, parse c = .ok (domains, n) := by
  cases hparse : parse c with
  | ok network =>
    rw [hparse] at h
    exact ⟨network.2, by rw [← Option.some.inj h]⟩
  | error stop =>
    rw [hparse] at h
    cases h

/-- Two files that make up a problem, and two that first differ in their second variable. -/
theorem loadProblem_two_pairs :
    let read : String → StateM Unit (Except FileError String) := fun path => pure (.ok
      (if path = "c.uai" then "MARKOV 2 2 3 1 2 0 1 6 1 2 3 4 5 6" else
        if path = "o.uai" then "MARKOV 2 2 3 1 1 1 3 1 4 2" else "MARKOV 2 2 4 0"))
    (∃ p w, (loadProblem read "c.uai" "o.uai").run.run () = (.ok p, w) ∧ p.domains = #[2, 3] ∧
      Consistent p) ∧
    ∃ w, (loadProblem read "c.uai" "other.uai").run.run () =
      (.error (.error (.domainMismatch 1 3 4)), w) := by
  intro read
  -- no logarithm is computed here, so of a network only its variables are known
  obtain ⟨n, hn⟩ : ∃ n, parse "MARKOV 2 2 3 1 2 0 1 6 1 2 3 4 5 6" = .ok (#[2, 3], n) :=
    exists_parse_eq_ok (by decide +kernel)
  obtain ⟨n', hn'⟩ : ∃ n, parse "MARKOV 2 2 3 1 1 1 3 1 4 2" = .ok (#[2, 3], n) :=
    exists_parse_eq_ok (by decide +kernel)
  obtain ⟨other, hother⟩ : ∃ n, parse "MARKOV 2 2 4 0" = .ok (#[2, 4], n) :=
    exists_parse_eq_ok (by decide +kernel)
  have hc : (read "c.uai").run () = (.ok "MARKOV 2 2 3 1 2 0 1 6 1 2 3 4 5 6", ()) := rfl
  have ho : (read "o.uai").run () = (.ok "MARKOV 2 2 3 1 1 1 3 1 4 2", ()) := rfl
  have ho' : (read "other.uai").run () = (.ok "MARKOV 2 2 4 0", ()) := rfl
  constructor
  · obtain ⟨result, w, hrun, houtcome⟩ :=
      loadProblem_outcome hc ho (by simp [hn]) (by simp [hn'])
    obtain ⟨p, rfl⟩ := houtcome.succeeds.2 ⟨_, _, hn, hn', sameVariables_iff.2 rfl⟩
    obtain ⟨hpaired, hconsistent⟩ := houtcome.problem p rfl
    have hsame := hpaired.constraint
    rw [hn, Except.ok.injEq] at hsame
    exact ⟨p, w, hrun, (congrArg Prod.fst hsame).symm, hconsistent⟩
  · obtain ⟨result, w, hrun, houtcome⟩ :=
      loadProblem_outcome hc ho' (by simp [hn]) (by simp [hother])
    have hdiffers : FirstDifference #[2, 3] #[2, 4] 1 3 4 := ⟨rfl, rfl, by decide, by decide⟩
    obtain rfl := (houtcome.reason _).2 ⟨_, rfl, .domainMismatch hn hother rfl hdiffers⟩
    exact ⟨w, hrun⟩

end Runs

end PairedMarkov.Uai
