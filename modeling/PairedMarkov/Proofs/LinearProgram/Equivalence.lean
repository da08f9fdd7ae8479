import PairedMarkov.Proofs.LinearProgram.Agreement

/-!
# The linear program of a problem

The program of a problem with a threshold is as good as the problem: the valuations that satisfy it
are those that stand for an assignment under the threshold. If the rows hold, then every table
selects an entry, and these entries agree on all variables; so there is an assignment with just these
values. It takes the value of a variable from the first table that mentions the variable, and zero if
there is none.

Main statement: `LinearProgram.exists_ofProblem_equivalent`.
-/

namespace PairedMarkov

variable {R : Type} [Ring R] [LinearOrder R] {p : Problem (Exact R)} {z : Valuation}
  {sel : Table (Exact R) → Nat}

/-! ## Section 1: From selected entries to an assignment -/

namespace Problem

/-- The selected entries agree on every variable. -/
def Consistent (p : Problem (Exact R)) (sel : Table (Exact R) → Nat) : Prop :=
  ∀ id < p.domains.size, ∀ a ∈ p.tables, ∀ b ∈ p.tables, id ∈ a.factor.scope →
    id ∈ b.factor.scope → LinearProgram.Agree p.domains id sel a b

/-- The assignment that takes the value of a variable from the entry selected in the first table that
mentions it. -/
def decode (p : Problem (Exact R)) (sel : Table (Exact R) → Nat) : Assignment :=
  (Array.range p.domains.size).map fun id =>
    (p.tables.find? fun t => t.factor.mentions id).elim 0 fun t =>
      t.factor.digitAt p.domains id (sel t)

omit [Ring R] [LinearOrder R]

theorem inside_decode (hd : p.domains.Positive) (sel : Table (Exact R) → Nat) :
    (p.decode sel).Inside p.domains := by
  refine Assignment.inside_iff.2 ⟨by simp [decode], fun id hid => ?_⟩
  -- a variable in no factor has its first value
  cases ht : p.tables.find? fun t => t.factor.mentions id with
  | none => simpa [decode, Assignment.valueAt, hid, ht] using hd.sizeAt_pos id
  | some t => simpa [decode, Assignment.valueAt, hid, ht] using t.factor.digitAt_lt hd id (sel t)

/-- If the selected entries agree, then the assignment has the values of all of them. -/
theorem Consistent.valueAt_decode (h : p.Consistent sel) {t : Table (Exact R)} (ht : t ∈ p.tables)
    {id : Nat} (hid : id < p.domains.size) (hmem : id ∈ t.factor.scope) :
    (p.decode sel).valueAt id = t.factor.digitAt p.domains id (sel t) := by
  have hmentions {t : Table (Exact R)} : t.factor.mentions id = true ↔ id ∈ t.factor.scope :=
    List.contains_iff_mem
  cases hfirst : p.tables.find? fun t => t.factor.mentions id with
  | none => exact absurd (hmentions.2 hmem) (List.find?_eq_none.1 hfirst t ht)
  | some t' =>
    -- the value was taken from the first such table, which agrees with this one
    have hmem' := List.find?_some hfirst
    have hvalue : (p.decode sel).valueAt id = t'.factor.digitAt p.domains id (sel t') := by
      simp [decode, Assignment.valueAt, hid, hfirst]
    rw [hvalue]
    exact h id hid t' (List.mem_of_find?_eq_some hfirst) t ht (hmentions.1 hmem') hmem

/-- Valuations that stand for an assignment are those that select entries that agree. -/
theorem exists_standsFor_iff (hp : p.Valid) :
    (∃ x, p.StandsFor z x) ↔ ∃ sel, (∀ t ∈ p.tables, t.Selects z (sel t)) ∧ p.Consistent sel := by
  constructor
  · rintro ⟨x, h⟩
    obtain ⟨hx, hselects⟩ := (standsFor_iff hp).1 h
    -- the digits of the addressed entries are the values of the assignment
    refine ⟨_, hselects, fun id hid a ha b hb hida hidb => ?_⟩
    exact ((hp.factor_of_mem ha).digitAt_index hx hida).trans
      ((hp.factor_of_mem hb).digitAt_index hx hidb).symm
  · rintro ⟨sel, hselects, hconsistent⟩
    -- the decoded assignment has the digits of every selected entry, and so addresses it
    have hx := inside_decode hp.positive sel
    refine ⟨p.decode sel, (standsFor_iff hp).2 ⟨hx, fun t ht => ?_⟩⟩
    have hf := hp.factor_of_mem ht
    rw [hf.index_eq_of_digitAt hx (hselects t ht).lt fun id hid =>
      hconsistent.valueAt_decode ht (hf.inRange id hid) hid]
    exact hselects t ht

end Problem

/-! ## Section 2: The rows together -/

namespace LinearProgram

/-- The row of the constraint network says that the assignment is under the threshold. -/
theorem budget_holds_iff (hp : p.Valid) {x : Assignment} (h : p.StandsFor z x)
    (threshold : Exact R) : (budget p threshold).Holds z ↔ p.Under threshold x := by
  rw [Problem.under_iff hp h.inside, ← h.value_tablesOf hp]
  rfl

/-- A linear program is equivalent to a problem with a threshold. Its variables are those of the
entries of all factors, no two of which share one; it is satisfied by the valuations that stand for an
assignment under the threshold; and its objective is the score that is to be maximised. -/
structure Equivalent (lp : LinearProgram (Exact R)) (p : Problem (Exact R)) (threshold : Exact R) :
    Prop where
  nodup : lp.binaries.Nodup
  /-- The variables are those of the entries of all factors of both networks. -/
  mem_binaries_iff : ∀ name, name ∈ lp.binaries ↔
    ∃ role index f, (p.network role).factors[index]? = some f ∧
      ∃ entry < f.table.size, Table.entryName ⟨role, index, f⟩ entry = name
  /-- Rows and objective are forms over these variables. -/
  named_rows : ∀ row ∈ lp.rows, ∀ term ∈ row.form, term.name ∈ lp.binaries
  named_objective : ∀ term ∈ lp.objective, term.name ∈ lp.binaries
  satisfied_iff : ∀ z, lp.Satisfied z ↔ ∃ x, p.Under threshold x ∧ p.StandsFor z x
  /-- The objective is the objective score. -/
  score_eq : ∀ z x, p.StandsFor z x → p.score .objective x = .ok (lp.objective.value z)
  exists_standsFor : ∀ x, x.Inside p.domains → ∃ z, p.StandsFor z x

omit [Ring R] [LinearOrder R] in
private theorem forall_mem_zipIdx_iff {α : Type} {l : List α} {n : Nat} {Q : α → Prop} :
    (∀ a ∈ l.zipIdx n, Q a.1) ↔ ∀ a ∈ l, Q a := by
  conv_rhs => rw [← List.zipIdx_map_fst n l]
  exact List.forall_mem_map.symm

/-- What holds for the rows holds for the three kinds of rows. -/
private theorem forall_mem_rows_iff {bs : List (Balance (Exact R))} {threshold : Exact R}
    {lp : LinearProgram (Exact R)}
    (hlp : lp.rows = budget p threshold :: p.tables.map Table.choice ++
      (bs.zipIdx (p.tables.length + 1)).map fun (b, position) => b.row position)
    {Q : Row (Exact R) → Prop} {Q' : Balance (Exact R) → Prop}
    (hQ : ∀ b position, Q (b.row position) ↔ Q' b) :
    (∀ row ∈ lp.rows, Q row) ↔
      Q (budget p threshold) ∧ (∀ t ∈ p.tables, Q t.choice) ∧ ∀ b ∈ bs, Q' b := by
  rw [hlp, List.cons_append, List.forall_mem_cons, List.forall_mem_append, List.forall_mem_map,
    List.forall_mem_map]
  simp only [hQ, forall_mem_zipIdx_iff]

variable [IsStrictOrderedRing R]

/-- The rows between tables say that the selected entries agree. -/
theorem says_consistent (hp : p.Valid) :
    Says p.tables p.Consistent (chainsOf p.domains p.tables (List.range p.domains.size)) := by
  refine (says_chainsOf hp.positive _ _).congr fun sel => ?_
  simp only [List.mem_range]
  rfl

/-- The rows together say that there is an assignment under the threshold. -/
private theorem rows_hold_iff (hp : p.Valid) {bs : List (Balance (Exact R))}
    (hbs : Says p.tables p.Consistent bs) (threshold : Exact R) :
    ((budget p threshold).Holds z ∧ (∀ t ∈ p.tables, t.choice.Holds z) ∧
        ∀ b ∈ bs, LinearForm.value z b.form = 0) ↔
      ∃ x, p.Under threshold x ∧ p.StandsFor z x := by
  constructor
  · -- the choice rows select, the balances make the selected entries agree
    rintro ⟨hbudget, hchoice, hbalance⟩
    choose! sel hsel using fun t ht => Table.choice_holds_iff.1 (hchoice t ht)
    obtain ⟨x, hx⟩ := (Problem.exists_standsFor_iff hp).2
      ⟨sel, hsel, (hbs.iff z sel hsel).1 hbalance⟩
    exact ⟨x, (budget_holds_iff hp hx threshold).1 hbudget, hx⟩
  · rintro ⟨x, hunder, hx⟩
    obtain ⟨sel, hsel, hconsistent⟩ := (Problem.exists_standsFor_iff hp).1 ⟨x, hx⟩
    exact ⟨(budget_holds_iff hp hx threshold).2 hunder,
      fun t ht => Table.choice_holds_iff.2 ⟨sel t, hsel t ht⟩, (hbs.iff z sel hsel).2 hconsistent⟩

omit [Ring R] [LinearOrder R] [IsStrictOrderedRing R] in
private theorem tablesOf_named (role : Role) :
    ∀ term ∈ (p.tablesOf role).flatMap Table.value,
      term.name ∈ p.tables.flatMap Table.names := by
  intro term hterm
  obtain ⟨t, ht, hterm⟩ := List.mem_flatMap.1 hterm
  exact List.mem_flatMap.2 ⟨t, Problem.mem_tables_of_mem ht, Table.name_mem_of_mem_value hterm⟩

omit [IsStrictOrderedRing R] in
/-- The rows are over the variables of the entries. -/
private theorem rows_named {bs : List (Balance (Exact R))} (hbs : Says p.tables p.Consistent bs)
    (threshold : Exact R) :
    (∀ term ∈ (budget p threshold).form, term.name ∈ p.tables.flatMap Table.names) ∧
      (∀ t ∈ p.tables, ∀ term ∈ t.choice.form, term.name ∈ p.tables.flatMap Table.names) ∧
      ∀ b ∈ bs, ∀ term ∈ b.form, term.name ∈ p.tables.flatMap Table.names := by
  refine ⟨tablesOf_named .constraint, fun t ht term hterm => ?_, fun b hb term hterm => ?_⟩
  · obtain ⟨name, hname, rfl⟩ := List.mem_map.1 hterm
    exact List.mem_flatMap.2 ⟨t, ht, hname⟩
  · obtain ⟨t, ht, hname⟩ := hbs.named b hb term hterm
    exact List.mem_flatMap.2 ⟨t, ht, hname⟩

/-- **The linear program of a valid problem exists and is equivalent to the problem.** -/
theorem exists_ofProblem_equivalent (hp : p.Valid) (threshold : Exact R) :
    ∃ lp, ofProblem p threshold = .ok lp ∧ lp.Equivalent p threshold := by
  have hsays := says_consistent hp
  refine ⟨_, by rw [ofProblem, chains_tables_eq_ok hp, ok_bind]; rfl, ?_⟩
  exact {
    nodup := p.nodup_names
    mem_binaries_iff := fun _ => Problem.mem_names_iff
    named_rows := (forall_mem_rows_iff rfl fun _ _ => Iff.rfl).2 (rows_named hsays threshold)
    named_objective := tablesOf_named .objective
    satisfied_iff := fun _ =>
      (forall_mem_rows_iff rfl fun _ _ => Iff.rfl).trans (rows_hold_iff hp hsays threshold)
    score_eq := fun z x h => by
      rw [Problem.score_eq_ok hp h.inside, ← h.value_tablesOf hp]
    exists_standsFor := fun _ => Problem.exists_standsFor hp }

/-- Equivalence for a problem whose networks share a variable, with a variable in no factor and a
factor without variables: a valuation stands for the assignment with the best score. -/
theorem exists_shared_equivalent :
    let p : Problem (Exact ℤ) :=
      { domains := #[2, 3, 2]
        constraint := ⟨#[⟨[0, 1], #[.number 0, .number 1, .number 2, .number 3, .number 4,
          .number 5]⟩]⟩
        objective := ⟨#[⟨[1], #[.number 5, .number 9, .number 7]⟩, ⟨[], #[.number 1]⟩]⟩ }
    p.Valid ∧ ∃ lp, ofProblem p (.number 3) = .ok lp ∧ lp.Equivalent p (.number 3) ∧
      ∃ z, p.StandsFor z #[1, 1, 0] ∧ lp.Satisfied z ∧ lp.objective.value z = .number 10 := by
  intro p
  have hp : p.Valid := by decide
  have hx : Assignment.Inside p.domains #[1, 1, 0] := Assignment.inside_iff.2 ⟨rfl, by decide⟩
  have hunder : p.Under (.number 3) #[1, 1, 0] := (Problem.under_iff hp hx).2 (by decide)
  have hscore : p.score .objective #[1, 1, 0] = .ok (.number 10) := by decide
  obtain ⟨lp, hlp, hequivalent⟩ := exists_ofProblem_equivalent hp (.number 3)
  obtain ⟨z, hz⟩ := hequivalent.exists_standsFor _ hx
  refine ⟨hp, lp, hlp, hequivalent, z, hz, (hequivalent.satisfied_iff z).2 ⟨_, hunder, hz⟩, ?_⟩
  have hvalue := hequivalent.score_eq z _ hz
  rw [hscore, Except.ok.injEq] at hvalue
  exact hvalue.symm

end LinearProgram

end PairedMarkov
