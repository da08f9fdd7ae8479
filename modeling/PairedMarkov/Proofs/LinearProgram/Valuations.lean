import PairedMarkov.Proofs.LinearProgram.Names
import PairedMarkov.Proofs.Scores

/-!
# Valuations of a linear program

A valuation gives every variable of a program the value zero or one, which makes its forms weights
and its rows statements. A valuation *selects* an entry of a table if the variable of this entry is
the only one of the table that is one. Then a form over the variables of the table is worth the
coefficient of the selected entry.

Main statements: `Table.choice_holds_iff`, the condition on a single table says that an entry is
selected; `Problem.value_tablesOf`, if the entries of an assignment are selected, then the values of
all tables of a network sum up to the score of the assignment.
-/

namespace PairedMarkov

/-! ## Section 1: Forms, rows and programs -/

/-- The variables that are one; all others are zero. -/
abbrev Valuation := String → Bool

section Meaning

variable {R : Type} [Ring R]

/-- A coefficient counts if its variable is one. -/
def Term.value (z : Valuation) (t : Term (Exact R)) : Exact R :=
  if z t.name then t.coefficient else 0

/-- The sum of the coefficients whose variables are one. -/
def LinearForm.value (z : Valuation) (form : LinearForm (Exact R)) : Exact R :=
  (form.map (Term.value z)).sum

variable [LinearOrder R]

/-- The form of a row compares to the bound as the row says. -/
def Row.Holds (z : Valuation) (row : Row (Exact R)) : Prop :=
  match row.sense with
  | .atMost => row.form.value z ≤ row.bound
  | .equal => row.form.value z = row.bound

/-- Every row of a program holds. -/
def LinearProgram.Satisfied (z : Valuation) (lp : LinearProgram (Exact R)) : Prop :=
  ∀ row ∈ lp.rows, row.Holds z

end Meaning

variable {R : Type} [Ring R] {z : Valuation}

theorem LinearForm.value_append (a b : LinearForm (Exact R)) :
    value z (a ++ b) = value z a + value z b := by
  rw [value, List.map_append, List.sum_append]
  rfl

theorem LinearForm.value_flatMap {α : Type} (l : List α) (f : α → LinearForm (Exact R)) :
    value z (l.flatMap f) = (l.map fun a => value z (f a)).sum := by
  induction l with
  | nil => rfl
  | cons a l ih => rw [List.flatMap_cons, value_append, ih, List.map_cons, List.sum_cons]

/-! ## Section 2: Selected entries -/

/-- A valuation selects an entry of a table: its variable is the only one of the table that is
one. -/
structure Table.Selects {W : Type} (z : Valuation) (t : Table W) (entry : Nat) : Prop where
  lt : entry < t.factor.table.size
  iff : ∀ other < t.factor.table.size, z (t.entryName other) = true ↔ other = entry

namespace Table

variable {t : Table (Exact R)} {entry : Nat}

/-- A form with one coefficient for each of some entries is worth the selected one. -/
theorem Selects.value_map (h : t.Selects z entry) (f : Nat → Exact R) {entries : List Nat}
    (hnodup : entries.Nodup) (hentries : ∀ other ∈ entries, other < t.factor.table.size) :
    LinearForm.value z (entries.map fun other => ⟨t.entryName other, f other⟩) =
      if entry ∈ entries then f entry else 0 := by
  induction entries with
  | nil => rfl
  | cons other entries ih =>
    obtain ⟨hfresh, hnodup⟩ := List.nodup_cons.1 hnodup
    obtain ⟨hother, hentries⟩ := List.forall_mem_cons.1 hentries
    have hhead : z (t.entryName other) = true ↔ other = entry := h.iff other hother
    have htail := ih hnodup hentries
    rw [LinearForm.value] at htail
    rw [LinearForm.value, List.map_cons, List.map_cons, List.sum_cons, htail, Term.value]
    by_cases heq : other = entry
    · -- the selected entry comes once, and no variable after it is one
      subst heq
      rw [if_pos (hhead.2 rfl), if_neg hfresh, if_pos List.mem_cons_self, add_zero]
    · have hmem : entry ∈ other :: entries ↔ entry ∈ entries := by
        rw [List.mem_cons, or_iff_right (Ne.symm heq)]
      rw [if_neg (mt hhead.1 heq), zero_add]
      simp only [hmem]

theorem value_eq_map_range (t : Table (Exact R)) :
    t.value = (List.range t.factor.table.size).map fun entry =>
      ⟨t.entryName entry, t.factor.table.getD entry 0⟩ := by
  refine List.ext_getElem (by simp [value]) fun entry hentry _ => ?_
  have hentry : entry < t.factor.table.size := by simpa [value] using hentry
  simp [value, hentry]

theorem Selects.value (h : t.Selects z entry) :
    LinearForm.value z t.value = t.factor.table.getD entry 0 := by
  rw [value_eq_map_range, h.value_map _ List.nodup_range fun _ => List.mem_range.1,
    if_pos (List.mem_range.2 h.lt)]

variable [LinearOrder R]

/-- With coefficients one, a form counts its variables that are one. -/
private theorem value_ones (names : List String) :
    LinearForm.value z (names.map fun name => (⟨name, 1⟩ : Term (Exact R))) =
      .number ((names.filter z).length : R) := by
  induction names with
  | nil => exact congrArg Exact.number Nat.cast_zero.symm
  | cons name names ih =>
    rw [LinearForm.value] at ih
    rw [LinearForm.value, List.map_cons, List.map_cons, List.sum_cons, ih, Term.value]
    cases hz : z name with
    | false => simp [hz]
    | true =>
      have hsum (n : R) : (1 : Exact R) + .number n = .number (1 + n) := rfl
      simp [hz, hsum, add_comm]

omit [Ring R] [LinearOrder R] in
private theorem filter_names (t : Table (Exact R)) (z : Valuation) :
    t.names.filter z =
      ((List.range t.factor.table.size).filter fun entry => z (t.entryName entry)).map
        t.entryName := by
  rw [names, List.filter_map]
  rfl

/-- **The condition on a table says that one of its entries is selected.** -/
theorem choice_holds_iff [IsStrictOrderedRing R] :
    t.choice.Holds z ↔ ∃ entry, t.Selects z entry := by
  have hone : (1 : Exact R) = .number 1 := rfl
  have hform : t.choice.Holds z ↔
      LinearForm.value z (t.names.map fun name => ⟨name, 1⟩) = (1 : Exact R) := Iff.rfl
  rw [hform]
  constructor
  · intro h
    rw [value_ones, hone, Exact.number_injective.eq_iff, Nat.cast_eq_one, filter_names,
      List.length_map, List.length_eq_one_iff] at h
    obtain ⟨entry, hentry⟩ := h
    -- a sum of zeros and ones is one if exactly one of them is one
    have hmem (other : Nat) :
        other < t.factor.table.size ∧ z (t.entryName other) = true ↔ other = entry := by
      have hiff : other ∈ [entry] ↔ other = entry := List.mem_singleton
      rwa [← hentry, List.mem_filter, List.mem_range] at hiff
    exact ⟨entry, ((hmem entry).2 rfl).1, fun other hother =>
      ⟨fun hz => (hmem other).1 ⟨hother, hz⟩, fun heq => ((hmem other).2 heq).2⟩⟩
  · rintro ⟨entry, h⟩
    rw [names, List.map_map]
    exact (h.value_map (fun _ => 1) List.nodup_range fun _ => List.mem_range.1).trans
      (if_pos (List.mem_range.2 h.lt))

end Table

/-! ## Section 3: Selected assignments -/

namespace Problem

/-- A valuation stands for an assignment: of every factor, exactly the variable of the entry that
the assignment addresses is one. -/
structure StandsFor {W : Type} (p : Problem W) (z : Valuation) (x : Assignment) : Prop where
  inside : x.Inside p.domains
  selects : ∀ role index f, (p.network role).factors[index]? = some f →
    ∀ entry < f.table.size,
      z (Table.entryName ⟨role, index, f⟩ entry) = true ↔ f.address p.domains x = .ok entry

theorem Valid.factor_of_mem {W : Type} {p : Problem W} (hp : p.Valid) {t : Table W}
    (ht : t ∈ p.tables) : t.factor.Valid p.domains :=
  hp.factor _ _ (Array.mem_of_getElem? (mem_tables_iff.1 ht))

variable {p : Problem (Exact R)} {x : Assignment}

omit [Ring R] in
theorem standsFor_iff (hp : p.Valid) :
    p.StandsFor z x ↔ x.Inside p.domains ∧
      ∀ t ∈ p.tables, t.Selects z (Scope.index p.domains x t.factor.scope) := by
  -- an address is the index, since a valid factor has no check that fails
  have haddress (hx : x.Inside p.domains) {t : Table (Exact R)} (ht : t ∈ p.tables) :
      t.factor.address p.domains x = .ok (Scope.index p.domains x t.factor.scope) := by
    have hf := hp.factor_of_mem ht
    exact Scope.address_eq_ok hx hf.inRange (hf.tabulated.capacity_lt hx.positive)
  constructor
  · intro h
    refine ⟨h.inside, fun t ht => ⟨?_, fun entry hentry => ?_⟩⟩
    · rw [(hp.factor_of_mem ht).tabulated.size_table h.inside.positive]
      exact Scope.index_lt h.inside _
    · have := h.selects _ _ _ (mem_tables_iff.1 ht) entry hentry
      rw [haddress h.inside ht, Except.ok.injEq] at this
      exact this.trans eq_comm
  · rintro ⟨hx, h⟩
    refine ⟨hx, fun role index f hf entry hentry => ?_⟩
    have ht : (⟨role, index, f⟩ : Table (Exact R)) ∈ p.tables := mem_tables_iff.2 hf
    rw [haddress hx ht, Except.ok.injEq]
    exact ((h _ ht).iff entry hentry).trans eq_comm

omit [Ring R] in
/-- Every assignment has a valuation that stands for it. -/
theorem exists_standsFor (hp : p.Valid) (hx : x.Inside p.domains) : ∃ z, p.StandsFor z x := by
  let selected (t : Table (Exact R)) : String :=
    t.entryName (Scope.index p.domains x t.factor.scope)
  refine ⟨fun name => (p.tables.map selected).contains name, (standsFor_iff hp).2 ⟨hx, ?_⟩⟩
  intro t ht
  refine ⟨?_, fun other _ => ?_⟩
  · rw [(hp.factor_of_mem ht).tabulated.size_table hx.positive]
    exact Scope.index_lt hx _
  · rw [List.contains_iff_mem, List.mem_map]
    constructor
    · -- only the entry itself has its name
      rintro ⟨t', ht', heq⟩
      obtain ⟨hplace, hentry⟩ := Table.entryName_inj.1 heq
      rw [← hentry, eq_of_place_eq ht' ht hplace]
    · rintro rfl
      exact ⟨t, ht, rfl⟩

variable [LinearOrder R]

/-- **The values of the tables of a network sum up to its score.** -/
theorem StandsFor.value_tablesOf (hp : p.Valid) (h : p.StandsFor z x) (role : Role) :
    LinearForm.value z ((p.tablesOf role).flatMap Table.value) = p.total role x := by
  have hvalue : ∀ t ∈ p.tablesOf role,
      LinearForm.value z t.value = t.factor.weight p.domains x := fun t ht =>
    (((standsFor_iff hp).1 h).2 t (mem_tables_of_mem ht)).value
  rw [LinearForm.value_flatMap, List.map_congr_left hvalue, total, partialTotal,
    map_weight_factorIds, ← map_factor_tablesOf, List.map_map, Weight.total_eq_sum]
  rfl

end Problem

end PairedMarkov
