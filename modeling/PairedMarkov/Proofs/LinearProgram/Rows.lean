import PairedMarkov.Proofs.LinearProgram.Agreement
import PairedMarkov.Proofs.Words

/-!
# What the program of a problem is made of

Weights may be of any kind here. The numbers in the program of a problem are the entries of its
factors, the threshold, zero, one and minus one; its names are words that are put together from
letters, digits and marks; and no two of its rows share a name, since a row either is the only one of
its form, or has the place of a table in its name, or its own position.

Main statement: `LinearProgram.exists_ofProblem_legible`.
-/

namespace PairedMarkov

variable {W : Type} {P : W → Prop}

/-! ## Section 1: Legible programs -/

/-- The variables of a form are words, and its coefficients are numbers of a kind. -/
def LinearForm.Legible (P : W → Prop) (form : LinearForm W) : Prop :=
  ∀ term ∈ form, Text.IsWord term.name ∧ P term.coefficient

/-- The name and the variables of a row are words, and its numbers are of a kind. -/
structure Row.Legible (P : W → Prop) (row : Row W) : Prop where
  name : Text.IsWord row.name
  form : row.form.Legible P
  bound : P row.bound

/-- All names of a program are words, and all its numbers are of a kind. -/
structure LinearProgram.Legible (P : W → Prop) (lp : LinearProgram W) : Prop where
  objective : lp.objective.Legible P
  rows : ∀ row ∈ lp.rows, row.Legible P
  binaries : ∀ name ∈ lp.binaries, Text.IsWord name

theorem LinearForm.Legible.append {a b : LinearForm W} (ha : LinearForm.Legible P a)
    (hb : LinearForm.Legible P b) : LinearForm.Legible P (a ++ b) :=
  List.forall_mem_append.2 ⟨ha, hb⟩

/-! ## Section 2: Names -/

theorem not_blank_toDigits (n : Nat) : ∀ c ∈ Nat.toDigits 10 n, Text.isBlank c = false :=
  fun _ hc => Text.isBlank_eq_false_of_isDigit (Nat.isDigit_of_mem_toDigits (by decide) (by decide) hc)

theorem Role.isWord_letter (r : Role) : Text.IsWord r.letter := by
  cases r <;> decide

theorem Table.isWord_entryName (t : Table W) (entry : Nat) : Text.IsWord (t.entryName entry) := by
  have hmark : Text.isBlank '_' = false := by decide
  constructor
  · intro hempty
    have := congrArg String.toList hempty
    simp [toList_entryName] at this
  · rw [toList_entryName]
    simp only [List.forall_mem_append, List.forall_mem_cons]
    exact ⟨(Role.isWord_letter _).2, not_blank_toDigits _, hmark, not_blank_toDigits _⟩

theorem Table.isWord_of_mem_names (t : Table W) {name : String} (h : name ∈ t.names) :
    Text.IsWord name := by
  obtain ⟨entry, -, rfl⟩ := Table.mem_names_iff.1 h
  exact t.isWord_entryName entry

namespace LinearProgram

variable [Weight W]

theorem toList_choice_name (t : Table W) :
    t.choice.name.toList = "one_".toList ++ (t.role.letter.toList ++ Nat.toDigits 10 t.index) := by
  simp [Table.choice, toString]

theorem Balance.toList_row_name (b : Balance W) (position : Nat) :
    (b.row position).name.toList =
      'r' :: (Nat.toDigits 10 position ++ '_' :: 'x' ::
        (Nat.toDigits 10 b.id ++ '_' :: Nat.toDigits 10 b.value)) := by
  simp [row, toString]

theorem isWord_choice_name (t : Table W) : Text.IsWord t.choice.name := by
  have hone : Text.IsWord "one_" := by decide
  have hrest : ∀ c ∈ t.role.letter.toList ++ Nat.toDigits 10 t.index, Text.isBlank c = false :=
    List.forall_mem_append.2 ⟨(Role.isWord_letter _).2, not_blank_toDigits _⟩
  have hname : t.choice.name =
      "one_" ++ String.ofList (t.role.letter.toList ++ Nat.toDigits 10 t.index) := by
    rw [String.ext_iff, toList_choice_name, String.toList_append, String.toList_ofList
      (l := t.role.letter.toList ++ Nat.toDigits 10 t.index)]
  rw [hname]
  exact hone.append (by simpa using hrest)

theorem Balance.isWord_row_name (b : Balance W) (position : Nat) :
    Text.IsWord (b.row position).name := by
  have hletters : Text.isBlank 'r' = false ∧ Text.isBlank '_' = false ∧ Text.isBlank 'x' = false := by
    decide
  constructor
  · intro hempty
    have := congrArg String.toList hempty
    simp [toList_row_name] at this
  · rw [toList_row_name]
    simp only [List.forall_mem_append, List.forall_mem_cons]
    exact ⟨hletters.1, not_blank_toDigits _, hletters.2.1, hletters.2.2, not_blank_toDigits _,
      hletters.2.1, not_blank_toDigits _⟩

/-- The name of the row of a table belongs to its place. -/
theorem place_eq_of_choice_name_eq {a b : Table W} (h : a.choice.name = b.choice.name) :
    a.place = b.place := by
  rw [String.ext_iff, toList_choice_name, toList_choice_name, List.append_cancel_left_eq,
    Table.letter_append_inj] at h
  exact Prod.ext h.1 (Table.digits_injective h.2)

/-- The name of the row of a balance belongs to its position. -/
theorem position_eq_of_row_name_eq {b c : Balance W} {position other : Nat}
    (h : (b.row position).name = (c.row other).name) : position = other := by
  -- the digits before the first mark
  have hdigits (n : Nat) (rest : List Char) :
      (Nat.toDigits 10 n ++ '_' :: rest).takeWhile Char.isDigit = Nat.toDigits 10 n := by
    have hmark : ('_').isDigit = false := by decide
    rw [List.takeWhile_append_of_pos fun c => Nat.isDigit_of_mem_toDigits (by decide) (by decide),
      List.takeWhile_cons_of_neg (by simp [hmark]), List.append_nil]
  rw [String.ext_iff, Balance.toList_row_name, Balance.toList_row_name, List.cons_inj_right] at h
  have hpositions := congrArg (List.takeWhile Char.isDigit) h
  rw [hdigits, hdigits] at hpositions
  exact Table.digits_injective hpositions

/-- **No two rows share a name.** -/
theorem nodup_rowNames (p : Problem W) (threshold : W) (bs : List (Balance W)) (start : Nat) :
    ((budget p threshold :: p.tables.map Table.choice ++
      (bs.zipIdx start).map fun bp => bp.1.row bp.2).map Row.name).Nodup := by
  -- names of different forms have different first letters
  have hchoice (t : Table W) : t.choice.name.toList.head? = some 'o' := by
    rw [toList_choice_name]
    rfl
  have hrow (b : Balance W) (position : Nat) : (b.row position).name.toList.head? = some 'r' := by
    rw [Balance.toList_row_name]
    rfl
  have hbudget : (budget p threshold).name.toList.head? = some 'b' := by
    show "budget".toList.head? = some 'b'
    decide
  have hchoices : (p.tables.map fun t => t.choice.name).Nodup := by
    refine List.pairwise_map.2 ((List.pairwise_map.1 p.nodup_places).imp fun hplace hname => ?_)
    exact hplace (place_eq_of_choice_name_eq hname)
  have hrows : ((bs.zipIdx start).map fun bp => (bp.1.row bp.2).name).Nodup := by
    have hpositions : ((bs.zipIdx start).map Prod.snd).Nodup := by
      rw [List.zipIdx_map_snd]
      exact List.nodup_range'
    refine List.pairwise_map.2 ((List.pairwise_map.1 hpositions).imp fun hposition hname => ?_)
    exact hposition (position_eq_of_row_name_eq hname)
  rw [List.cons_append, List.map_cons, List.map_append, List.map_map, List.map_map, List.nodup_cons,
    List.nodup_append]
  refine ⟨?_, hchoices, hrows, ?_⟩
  · simp only [List.mem_append, List.mem_map, Function.comp_apply]
    rintro (⟨t, -, ht⟩ | ⟨⟨b, position⟩, -, hb⟩)
    · rw [← ht, hchoice] at hbudget
      cases hbudget
    · rw [← hb, hrow] at hbudget
      cases hbudget
  · simp only [List.mem_map, Function.comp_apply]
    rintro _ ⟨t, -, rfl⟩ _ ⟨⟨b, position⟩, -, rfl⟩ hsame
    have hletters := hrow b position
    rw [← hsame, hchoice] at hletters
    cases hletters

/-! ## Section 3: Balances -/

omit [Weight W] in
theorem legible_formAt (t : Table W) (domains : Domains) (id value : Nat) {coefficient : W}
    (hcoefficient : P coefficient) :
    LinearForm.Legible P (t.formAt domains id value coefficient) := by
  intro term hterm
  obtain ⟨hname, rfl⟩ := Table.mem_formAt hterm
  exact ⟨t.isWord_of_mem_names hname, hcoefficient⟩

/-- A balance is made of what two tables select, once with one and once with minus one. -/
theorem legible_of_mem_chainsOf {domains : Domains} {tables : List (Table W)} {ids : List Nat}
    (hone : P 1) (hminusOne : P (-1)) {b : Balance W} (hb : b ∈ chainsOf domains tables ids) :
    b.form.Legible P := by
  obtain ⟨id, value, left, -, right, -, rfl⟩ := exists_of_mem_chainsOf hb
  exact (legible_formAt left domains id value hone).append
    (legible_formAt right domains id value hminusOne)

/-! ## Section 4: Programs of problems -/

variable {p : Problem W} {threshold : W}

omit [Weight W] in
/-- The values of the tables of a network are entries of its factors. -/
theorem legible_tablesOf {role : Role}
    (hentries : ∀ f ∈ (p.network role).factors, ∀ w ∈ f.table, P w) :
    LinearForm.Legible P ((p.tablesOf role).flatMap Table.value) := by
  intro term hterm
  obtain ⟨t, ht, hterm⟩ := List.mem_flatMap.1 hterm
  obtain ⟨⟨weight, entry⟩, hentry, rfl⟩ := List.mem_map.1 hterm
  have hfactor : t.factor ∈ (p.network role).factors :=
    Array.mem_of_getElem? (Problem.mem_tablesOf_iff.1 ht).2
  have hweight : weight ∈ t.factor.table := Array.mem_toList_iff.1 (List.fst_mem_of_mem_zipIdx hentry)
  exact ⟨t.isWord_entryName entry, hentries _ hfactor weight hweight⟩

/-- **The program of a valid problem** exists and is legible, no two of its rows share a name, and
behind the budget the bounds are zero or one. -/
theorem exists_ofProblem_legible (hp : p.Valid)
    (hentries : ∀ role, ∀ f ∈ (p.network role).factors, ∀ w ∈ f.table, P w) (hthreshold : P threshold)
    (hzero : P 0) (hone : P 1) (hminusOne : P (-1)) :
    ∃ lp, ofProblem p threshold = .ok lp ∧ lp.Legible P ∧ (lp.rows.map Row.name).Nodup ∧
      ∃ rest, lp.rows = budget p threshold :: rest ∧
        ∀ row ∈ rest, row.bound = 0 ∨ row.bound = 1 := by
  let bs := chainsOf p.domains p.tables (List.range p.domains.size)
  let rest : List (Row W) := p.tables.map Table.choice ++
    (bs.zipIdx (p.tables.length + 1)).map fun bp => bp.1.row bp.2
  have hbudget : (budget p threshold).Legible P := by
    have hname : Text.IsWord "budget" := by decide
    exact ⟨hname, legible_tablesOf (hentries .constraint), hthreshold⟩
  -- behind the budget there are the rows of tables, with bound one, and of chains, with bound zero
  have hrest : ∀ row ∈ rest, row.Legible P ∧ (row.bound = 0 ∨ row.bound = 1) := by
    refine List.forall_mem_append.2 ⟨List.forall_mem_map.2 fun t _ => ?_,
      List.forall_mem_map.2 fun bp hbp => ?_⟩
    · refine ⟨⟨isWord_choice_name t, List.forall_mem_map.2 fun name hname => ?_, hone⟩, .inr rfl⟩
      exact ⟨t.isWord_of_mem_names hname, hone⟩
    · have hb := List.fst_mem_of_mem_zipIdx hbp
      exact ⟨⟨bp.1.isWord_row_name bp.2, legible_of_mem_chainsOf hone hminusOne hb, hzero⟩, .inl rfl⟩
  refine ⟨_, by rw [ofProblem, chains_tables_eq_ok hp, ok_bind]; rfl, ?_,
    nodup_rowNames p threshold bs _, rest, rfl, fun row hrow => (hrest row hrow).2⟩
  refine ⟨legible_tablesOf (hentries .objective), ?_, fun name hname => ?_⟩
  · exact List.forall_mem_cons.2 ⟨hbudget, fun row hrow => (hrest row hrow).1⟩
  · obtain ⟨t, -, hname⟩ := List.mem_flatMap.1 hname
    exact t.isWord_of_mem_names hname

end LinearProgram

end PairedMarkov
