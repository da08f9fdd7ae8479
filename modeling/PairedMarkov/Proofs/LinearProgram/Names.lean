import PairedMarkov.Proofs.Checked
import PairedMarkov.LinearProgram.Basic

/-!
# The variables of a linear program

Entries are told apart by the names of their variables alone, and a name is put together from the
letter of the network, the number of the factor and the number of the entry. The mark between the
two numbers is no digit, so that a name can be taken apart again.

Main statements: `Table.entryName_inj`, a name belongs to one entry of one table;
`Problem.nodup_names`, no two entries of a problem share a variable.
-/

namespace PairedMarkov

/-! ## Section 1: Names of entries -/

namespace Table

variable {W : Type}

/-- The place of a table in a problem. -/
def place (t : Table W) : Role × Nat := (t.role, t.index)

theorem toList_entryName (t : Table W) (entry : Nat) :
    (t.entryName entry).toList =
      t.role.letter.toList ++ (Nat.toDigits 10 t.index ++ '_' :: Nat.toDigits 10 entry) := by
  have hmark : "_".toList = ['_'] := by decide
  simp [entryName, toString, hmark]

theorem digits_injective {m n : Nat} (h : Nat.toDigits 10 m = Nat.toDigits 10 n) : m = n := by
  simpa using congrArg (fun digits => Nat.ofDigitChars 10 digits 0) h

theorem letter_append_inj {r r' : Role} {l l' : List Char} :
    r.letter.toList ++ l = r'.letter.toList ++ l' ↔ r = r' ∧ l = l' := by
  have hc : Role.constraint.letter.toList = ['c'] := by decide
  have ho : Role.objective.letter.toList = ['o'] := by decide
  cases r <;> cases r' <;> simp [hc, ho]

/-- **A name belongs to one entry of one table.** -/
theorem entryName_inj {a b : Table W} {entry other : Nat} :
    a.entryName entry = b.entryName other ↔ a.place = b.place ∧ entry = other := by
  rw [String.ext_iff, toList_entryName, toList_entryName, letter_append_inj,
    List.append_cons_inj_of_notMem Nat.underscore_not_in_toDigits Nat.underscore_not_in_toDigits,
    place, place, Prod.mk.injEq]
  -- the digits of a number determine it
  constructor
  · rintro ⟨hrole, hindex, -, hentry⟩
    exact ⟨⟨hrole, digits_injective hindex⟩, digits_injective hentry⟩
  · rintro ⟨⟨hrole, hindex⟩, hentry⟩
    rw [hrole, hindex, hentry]
    exact ⟨rfl, rfl, rfl, rfl⟩

theorem mem_names_iff {t : Table W} {name : String} :
    name ∈ t.names ↔ ∃ entry < t.factor.table.size, t.entryName entry = name := by
  simp only [names, List.mem_map, List.mem_range]

theorem name_mem_of_mem_value {t : Table W} {term : Term W} (h : term ∈ t.value) :
    term.name ∈ t.names := by
  obtain ⟨⟨weight, entry⟩, hentry, rfl⟩ := List.mem_map.1 h
  have hlt := List.snd_lt_of_mem_zipIdx hentry
  exact mem_names_iff.2 ⟨entry, by simpa using hlt, rfl⟩

theorem nodup_names (t : Table W) : t.names.Nodup := by
  refine List.Nodup.map (fun entry other h => ?_) List.nodup_range
  exact (entryName_inj.1 h).2

theorem disjoint_names {a b : Table W} (h : a.place ≠ b.place) : a.names.Disjoint b.names := by
  intro name ha hb
  obtain ⟨entry, -, rfl⟩ := mem_names_iff.1 ha
  obtain ⟨other, -, heq⟩ := mem_names_iff.1 hb
  exact h (entryName_inj.1 heq.symm).1

end Table

/-! ## Section 2: The tables of a problem -/

namespace Problem

variable {W : Type} {p : Problem W}

theorem mem_tablesOf_iff {role : Role} {t : Table W} :
    t ∈ p.tablesOf role ↔ t.role = role ∧ (p.network role).factors[t.index]? = some t.factor := by
  simp only [tablesOf, List.mem_map, Prod.exists, List.mk_mem_zipIdx_iff_getElem?,
    Array.getElem?_toList]
  constructor
  · rintro ⟨f, index, hf, rfl⟩
    exact ⟨rfl, hf⟩
  · rintro ⟨rfl, hf⟩
    exact ⟨t.factor, t.index, hf, rfl⟩

/-- The tables of a problem are its factors, each at its place. -/
theorem mem_tables_iff {t : Table W} :
    t ∈ p.tables ↔ (p.network t.role).factors[t.index]? = some t.factor := by
  simp only [tables, List.mem_append, mem_tablesOf_iff]
  constructor
  · rintro (⟨hrole, hf⟩ | ⟨hrole, hf⟩)
    · rwa [hrole]
    · rwa [hrole]
  · intro hf
    cases hrole : t.role with
    | constraint => exact Or.inl ⟨rfl, hrole ▸ hf⟩
    | objective => exact Or.inr ⟨rfl, hrole ▸ hf⟩

theorem mem_tables_of_mem {role : Role} {t : Table W} (ht : t ∈ p.tablesOf role) : t ∈ p.tables := by
  obtain ⟨rfl, hf⟩ := mem_tablesOf_iff.1 ht
  exact mem_tables_iff.2 hf

theorem map_factor_tablesOf (p : Problem W) (role : Role) :
    (p.tablesOf role).map Table.factor = (p.network role).factors.toList := by
  rw [tablesOf, List.map_map]
  exact List.zipIdx_map_fst 0 _

theorem map_place_tablesOf (p : Problem W) (role : Role) :
    (p.tablesOf role).map Table.place =
      (List.range (p.network role).factors.size).map fun index => (role, index) := by
  rw [tablesOf, List.map_map, ← Array.length_toList, List.range_eq_range', ← List.zipIdx_map_snd,
    List.map_map]
  rfl

/-- No two tables of a problem have the same place. -/
theorem nodup_places (p : Problem W) : (p.tables.map Table.place).Nodup := by
  have hinjective (role : Role) : Function.Injective fun index : Nat => (role, index) :=
    Prod.mk_right_injective role
  rw [tables, List.map_append, map_place_tablesOf, map_place_tablesOf]
  apply (List.nodup_range.map (hinjective _)).append (List.nodup_range.map (hinjective _))
  simp [List.Disjoint]

/-- The place of a table determines the table. -/
theorem eq_of_place_eq {a b : Table W} (ha : a ∈ p.tables) (hb : b ∈ p.tables)
    (h : a.place = b.place) : a = b :=
  List.inj_on_of_nodup_map p.nodup_places ha hb h

/-- The variables of a problem are those of the entries of its factors. -/
theorem mem_names_iff {name : String} :
    name ∈ p.tables.flatMap Table.names ↔
      ∃ role index f, (p.network role).factors[index]? = some f ∧
        ∃ entry < f.table.size, Table.entryName ⟨role, index, f⟩ entry = name := by
  simp only [List.mem_flatMap, mem_tables_iff, Table.mem_names_iff]
  constructor
  · rintro ⟨t, ht, hname⟩
    exact ⟨t.role, t.index, t.factor, ht, hname⟩
  · rintro ⟨role, index, f, hf, hname⟩
    exact ⟨⟨role, index, f⟩, hf, hname⟩

/-- **No two entries of a problem share a variable.** -/
theorem nodup_names (p : Problem W) : (p.tables.flatMap Table.names).Nodup := by
  refine List.nodup_flatMap.2 ⟨fun t _ => t.nodup_names, ?_⟩
  exact (List.pairwise_map.1 p.nodup_places).imp Table.disjoint_names

end Problem

end PairedMarkov
