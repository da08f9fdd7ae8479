import PairedMarkov.Proofs.LinearProgram.Valuations

/-!
# Agreement of selected entries

Each table selects an entry of its own. The rows that compare consecutive tables make these entries
agree: a row is the difference of what two tables select at one value of a variable, and it is zero
if both have this value or neither has. Consecutive agreement on a variable is passed on along the
list of all tables that mention the variable, so that any two of them agree.

The checks of the program are gone through once, for weights of any kind, to find the list of all
balances. What is said of balances elsewhere is said of this list.

Main statements:
- `Factor.Valid.index_eq_of_digitAt`: an entry is the index of an assignment with its digits;
- `LinearProgram.chains_eq_ok`: the list of the balances of a program;
- `LinearProgram.says_chainsOf`: they say that the selected entries agree on all listed variables.
-/

namespace PairedMarkov

/-! ## Section 1: The digits of an entry -/

namespace Factor

variable {W : Type} {f : Factor W} {domains : Domains} {x : Assignment} {id entry : Nat}

/-- The value of a variable in the joint value at an entry. -/
def digitAt (f : Factor W) (domains : Domains) (id entry : Nat) : Nat :=
  (f.scope.write domains entry (Assignment.first domains)).valueAt id

theorem digitAt_lt (hd : domains.Positive) (f : Factor W) (id entry : Nat) :
    f.digitAt domains id entry < domains.sizeAt id :=
  (Scope.inside_write (Assignment.inside_first hd) _ _).valueAt_lt id

private theorem Valid.index_write_first (hf : f.Valid domains) (hd : domains.Positive)
    (hentry : entry < f.table.size) :
    Scope.index domains (f.scope.write domains entry (Assignment.first domains)) f.scope = entry :=
  Scope.index_write (Assignment.inside_first hd) hf.inRange hf.nodup (hf.tabulated.size_table hd ▸ hentry)

/-- Reading a digit gives the value. -/
theorem Valid.digit_eq_ok (hf : f.Valid domains) (hd : domains.Positive) (hid : id ∈ f.scope)
    (hentry : entry < f.table.size) :
    f.digit domains id entry = .ok (some (f.digitAt domains id entry)) := by
  have hread := Scope.digit_index
    (Scope.inside_write (Assignment.inside_first hd) f.scope entry) hf.inRange (hf.tabulated.capacity_lt hd) id
  -- the joint value at the entry is that of an assignment, whose digits are known
  rw [hf.index_write_first hd hentry, if_pos hid] at hread
  exact hread

/-- An entry is the index of every assignment with the digits of the entry. -/
theorem Valid.index_eq_of_digitAt (hf : f.Valid domains) (hx : x.Inside domains)
    (hentry : entry < f.table.size) (h : ∀ id ∈ f.scope, x.valueAt id = f.digitAt domains id entry) :
    Scope.index domains x f.scope = entry :=
  (Scope.index_congr h).trans (hf.index_write_first hx.positive hentry)

/-- The digits of the index of an assignment are its values. -/
theorem Valid.digitAt_index (hf : f.Valid domains) (hx : x.Inside domains) (hid : id ∈ f.scope) :
    f.digitAt domains id (Scope.index domains x f.scope) = x.valueAt id :=
  Scope.valueAt_write_index (Assignment.inside_first hx.positive) hx hf.inRange hf.nodup hid

end Factor

/-! ## Section 2: Entries with a value -/

namespace Table

variable {W : Type} {t : Table W} {domains : Domains} {id value : Nat}

theorem entriesAt_eq_ok (hf : t.factor.Valid domains) (hd : domains.Positive)
    (hid : id ∈ t.factor.scope) (value : Nat) :
    t.entriesAt domains id value =
      .ok ((List.range t.factor.table.size).filter fun entry =>
        t.factor.digitAt domains id entry == value) := by
  refine filterM_eq_ok fun entry hentry => ?_
  rw [hf.digit_eq_ok hd hid (List.mem_range.1 hentry)]
  rfl

/-- The entries at which a variable of the table has a value, all with the same coefficient. -/
def formAt (t : Table W) (domains : Domains) (id value : Nat) (coefficient : W) : LinearForm W :=
  ((List.range t.factor.table.size).filter fun entry =>
    t.factor.digitAt domains id entry == value).map fun entry => ⟨t.entryName entry, coefficient⟩

theorem selectedAt_eq_ok (hf : t.factor.Valid domains) (hd : domains.Positive)
    (hid : id ∈ t.factor.scope) (value : Nat) (coefficient : W) :
    t.selectedAt domains id value coefficient = .ok (t.formAt domains id value coefficient) := by
  rw [selectedAt, entriesAt_eq_ok hf hd hid, ok_bind]
  rfl

theorem mem_formAt {coefficient : W} {term : Term W}
    (h : term ∈ t.formAt domains id value coefficient) :
    term.name ∈ t.names ∧ term.coefficient = coefficient := by
  obtain ⟨entry, hentry, rfl⟩ := List.mem_map.1 h
  exact ⟨mem_names_iff.2 ⟨entry, List.mem_range.1 (List.mem_filter.1 hentry).1, rfl⟩, rfl⟩

/-- What a table selects at a value is the coefficient if the selected entry has the value. -/
theorem Selects.value_formAt {R : Type} [Ring R] {t : Table (Exact R)} {z : Valuation} {entry : Nat}
    (h : t.Selects z entry) (coefficient : Exact R) :
    LinearForm.value z (t.formAt domains id value coefficient) =
      if t.factor.digitAt domains id entry = value then coefficient else 0 := by
  rw [formAt, h.value_map (fun _ => coefficient) (List.nodup_range.filter _) fun _ hentry =>
    List.mem_range.1 (List.mem_filter.1 hentry).1]
  -- the selected entry is one of the table
  simp [h.lt]

end Table

/-! ## Section 3: The list of balances -/

namespace LinearProgram

section Balances

variable {W : Type} [Weight W] {domains : Domains} {id : Nat} {a b : Table W}
  {tables : List (Table W)} {ids : List Nat}

/-- The balance of two tables at a value of a variable. -/
def balanceAt (domains : Domains) (id : Nat) (a b : Table W) (value : Nat) : Balance W where
  id
  value
  form := a.formAt domains id value 1 ++ b.formAt domains id value (-1)

/-- The balances of two tables at all values of a variable. -/
def balancesOf (domains : Domains) (id : Nat) (a b : Table W) : List (Balance W) :=
  (List.range (domains.sizeAt id)).map (balanceAt domains id a b)

/-- The balances of consecutive tables of a list. -/
def chainOf (domains : Domains) (id : Nat) (tables : List (Table W)) : List (Balance W) :=
  tables.consecutivePairs.flatMap fun pair => balancesOf domains id pair.1 pair.2

/-- The balances of consecutive ones among the tables that mention a variable, for the listed
variables. -/
def chainsOf (domains : Domains) (tables : List (Table W)) (ids : List Nat) : List (Balance W) :=
  ids.flatMap fun id => chainOf domains id (tables.filter fun t => t.factor.mentions id)

omit [Weight W] in
theorem mem_filter_mentions_iff {t : Table W} :
    t ∈ tables.filter (fun t => t.factor.mentions id) ↔ t ∈ tables ∧ id ∈ t.factor.scope := by
  rw [List.mem_filter, Factor.mentions, List.contains_iff_mem]

/-- A balance compares two of the tables at a value of a variable. -/
theorem exists_of_mem_chainsOf {balance : Balance W} (h : balance ∈ chainsOf domains tables ids) :
    ∃ id value, ∃ a ∈ tables, ∃ b ∈ tables, balance = balanceAt domains id a b value := by
  obtain ⟨id, -, hchain⟩ := List.mem_flatMap.1 h
  obtain ⟨⟨a, b⟩, hpair, hbalance⟩ := List.mem_flatMap.1 hchain
  obtain ⟨value, -, rfl⟩ := List.mem_map.1 hbalance
  obtain ⟨ha, hb⟩ := List.of_mem_zip hpair
  exact ⟨id, value, a, (mem_filter_mentions_iff.1 ha).1, b,
    (mem_filter_mentions_iff.1 (List.mem_of_mem_tail hb)).1, rfl⟩

section Checks

variable (hd : domains.Positive)

include hd

theorem agreement_eq_ok (ha : a.factor.Valid domains) (hb : b.factor.Valid domains)
    (hida : id ∈ a.factor.scope) (hidb : id ∈ b.factor.scope) (value : Nat) :
    agreement domains a b id value = .ok (balanceAt domains id a b value).form := by
  rw [agreement, Table.selectedAt_eq_ok ha hd hida, ok_bind, Table.selectedAt_eq_ok hb hd hidb,
    ok_bind]
  rfl

theorem balances_eq_ok (hid : id < domains.size) (ha : a.factor.Valid domains)
    (hb : b.factor.Valid domains) (hida : id ∈ a.factor.scope) (hidb : id ∈ b.factor.scope) :
    balances domains id a b = .ok (balancesOf domains id a b) := by
  rw [balances, Domains.fetch_eq_ok hid, ok_bind]
  refine mapM_eq_ok fun value _ => ?_
  rw [agreement_eq_ok hd ha hb hida hidb value]
  rfl

theorem chain_eq_ok (hid : id < domains.size) (hvalid : ∀ t ∈ tables, t.factor.Valid domains)
    (hmentions : ∀ t ∈ tables, id ∈ t.factor.scope) :
    chain domains id tables = .ok (chainOf domains id tables) := by
  induction tables with
  | nil => rfl
  | cons a tables ih =>
    cases tables with
    | nil => rfl
    | cons b tables =>
      obtain ⟨hva, hvrest⟩ := List.forall_mem_cons.1 hvalid
      obtain ⟨hma, hmrest⟩ := List.forall_mem_cons.1 hmentions
      have hfirst : balances domains id a b = .ok (balancesOf domains id a b) :=
        balances_eq_ok hd hid hva (hvrest b List.mem_cons_self) hma (hmrest b List.mem_cons_self)
      rw [chain, hfirst, ok_bind, ih hvrest hmrest]
      rfl

/-- **The balances of a program** are those of consecutive ones among the tables that mention a
variable; no check on the way to them fails. -/
theorem chains_eq_ok (hids : ∀ id ∈ ids, id < domains.size)
    (hvalid : ∀ t ∈ tables, t.factor.Valid domains) :
    chains domains tables ids = .ok (chainsOf domains tables ids) := by
  induction ids with
  | nil => rfl
  | cons id ids ih =>
    obtain ⟨hid, hids⟩ := List.forall_mem_cons.1 hids
    have hfirst : chain domains id (tables.filter fun t => t.factor.mentions id) = _ :=
      chain_eq_ok hd hid (fun t ht => hvalid t (mem_filter_mentions_iff.1 ht).1)
        fun t ht => (mem_filter_mentions_iff.1 ht).2
    rw [chains, hfirst, ok_bind, ih hids]
    rfl

end Checks

/-- The balances between all tables of a valid problem. -/
theorem chains_tables_eq_ok {p : Problem W} (hp : p.Valid) :
    chains p.domains p.tables (List.range p.domains.size) =
      .ok (chainsOf p.domains p.tables (List.range p.domains.size)) :=
  chains_eq_ok hp.positive (fun _ => List.mem_range.1) fun _ => hp.factor_of_mem

end Balances

/-! ## Section 4: What balances say -/

variable {R : Type} [Ring R] {domains : Domains} {id : Nat} {a b : Table (Exact R)}
  {tables : List (Table (Exact R))} {bs : List (Balance (Exact R))} {z : Valuation}
  {sel : Table (Exact R) → Nat} {P Q : (Table (Exact R) → Nat) → Prop}

/-- Balances over the variables of some tables that are all zero exactly if the selected entries
have a property. -/
structure Says (tables : List (Table (Exact R))) (P : (Table (Exact R) → Nat) → Prop)
    (bs : List (Balance (Exact R))) : Prop where
  named : ∀ b ∈ bs, ∀ term ∈ b.form, ∃ t ∈ tables, term.name ∈ t.names
  iff : ∀ z sel, (∀ t ∈ tables, t.Selects z (sel t)) →
    ((∀ b ∈ bs, LinearForm.value z b.form = 0) ↔ P sel)

theorem Says.congr (h : Says tables P bs) (hPQ : ∀ sel, P sel ↔ Q sel) : Says tables Q bs where
  named := h.named
  iff z sel hsel := (h.iff z sel hsel).trans (hPQ sel)

/-- Two tables whose selected entries agree on a variable. -/
def Agree (domains : Domains) (id : Nat) (sel : Table (Exact R) → Nat) (a b : Table (Exact R)) :
    Prop :=
  a.factor.digitAt domains id (sel a) = b.factor.digitAt domains id (sel b)

/-- A relation between consecutive things of a list. -/
private theorem forall_consecutivePairs_iff {α : Type} {r : α → α → Prop} {l : List α} :
    (∀ pair ∈ l.consecutivePairs, r pair.1 pair.2) ↔ l.IsChain r := by
  induction l with
  | nil => simp
  | cons a l ih =>
    cases l with
    | nil => simp [List.consecutivePairs]
    | cons b l =>
      rw [List.isChain_cons_cons, ← ih]
      exact List.forall_mem_cons

omit [Ring R] in
/-- Agreement is passed on along a list. -/
theorem isChain_agree_iff :
    tables.IsChain (Agree domains id sel) ↔
      ∀ a ∈ tables, ∀ b ∈ tables, Agree domains id sel a b := by
  have htrans : IsTrans (Table (Exact R)) (Agree domains id sel) := ⟨fun _ _ _ => Eq.trans⟩
  have hsymm : Std.Symm (Agree domains id sel) := ⟨fun _ _ => Eq.symm⟩
  rw [List.isChain_iff_pairwise]
  exact ⟨List.Pairwise.forall_of_forall fun _ _ => rfl, List.pairwise_of_forall_mem_list⟩

variable [LinearOrder R] [IsStrictOrderedRing R]

/-- The difference of two weights that are zero or one is zero if both are one or both are zero. -/
private theorem sub_indicators_eq_zero_iff (A B : Prop) [Decidable A] [Decidable B] :
    (if A then (1 : Exact R) else 0) + (if B then -1 else 0) = 0 ↔ (A ↔ B) := by
  have hboth : (1 : Exact R) + -1 = 0 := congrArg Exact.number (add_neg_cancel 1)
  have hleft : (1 : Exact R) ≠ 0 := fun h => one_ne_zero (Exact.number_injective h)
  have hright : (-1 : Exact R) ≠ 0 := fun h => neg_ne_zero.2 one_ne_zero (Exact.number_injective h)
  by_cases hA : A
  · by_cases hB : B
    · simp [hA, hB, hboth]
    · simp [hA, hB, hleft]
  · by_cases hB : B
    · simp [hA, hB, hright]
    · simp [hA, hB]

/-- A balance is zero if both tables are on entries with the value or neither is. -/
theorem value_balanceAt_eq_zero_iff {entry other : Nat} (ha : a.Selects z entry)
    (hb : b.Selects z other) (value : Nat) :
    LinearForm.value z (balanceAt domains id a b value).form = 0 ↔
      (a.factor.digitAt domains id entry = value ↔ b.factor.digitAt domains id other = value) := by
  rw [balanceAt, LinearForm.value_append, ha.value_formAt, hb.value_formAt]
  exact sub_indicators_eq_zero_iff _ _

/-- The balances of two tables at all values of a variable say that they agree on it. -/
theorem forall_balancesOf_iff (hd : domains.Positive) (ha : a.Selects z (sel a))
    (hb : b.Selects z (sel b)) :
    (∀ balance ∈ balancesOf domains id a b, LinearForm.value z balance.form = 0) ↔
      Agree domains id sel a b := by
  simp only [balancesOf, List.forall_mem_map, List.mem_range, value_balanceAt_eq_zero_iff ha hb]
  constructor
  · intro h
    -- the value that the first table selects is the one to compare at
    exact ((h _ (a.factor.digitAt_lt hd id (sel a))).1 rfl).symm
  · intro h value _
    rw [h]

/-- The balances of consecutive tables say that all tables of their list agree. -/
theorem forall_chainOf_iff (hd : domains.Positive) (hsel : ∀ t ∈ tables, t.Selects z (sel t)) :
    (∀ balance ∈ chainOf domains id tables, LinearForm.value z balance.form = 0) ↔
      ∀ a ∈ tables, ∀ b ∈ tables, Agree domains id sel a b := by
  rw [chainOf, List.forall_mem_flatMap, ← isChain_agree_iff, ← forall_consecutivePairs_iff]
  refine forall₂_congr fun pair hpair => ?_
  obtain ⟨ha, hb⟩ := List.of_mem_zip hpair
  exact forall_balancesOf_iff hd (hsel _ ha) (hsel _ (List.mem_of_mem_tail hb))

/-- **The balances of a program** say that the selected entries agree on all listed variables. -/
theorem says_chainsOf (hd : domains.Positive) (tables : List (Table (Exact R))) (ids : List Nat) :
    Says tables (fun sel => ∀ id ∈ ids, ∀ a ∈ tables, ∀ b ∈ tables, id ∈ a.factor.scope →
      id ∈ b.factor.scope → Agree domains id sel a b) (chainsOf domains tables ids) where
  named balance hbalance term hterm := by
    obtain ⟨id, value, a, ha, b, hb, rfl⟩ := exists_of_mem_chainsOf hbalance
    rcases List.mem_append.1 hterm with hterm | hterm
    · exact ⟨a, ha, (Table.mem_formAt hterm).1⟩
    · exact ⟨b, hb, (Table.mem_formAt hterm).1⟩
  iff z sel hsel := by
    rw [chainsOf, List.forall_mem_flatMap]
    refine forall₂_congr fun id _ => ?_
    rw [forall_chainOf_iff hd fun t ht => hsel t (mem_filter_mentions_iff.1 ht).1]
    -- the tables that are compared are those of the list that mention the variable
    simp only [mem_filter_mentions_iff]
    exact ⟨fun h a ha b hb hida hidb => h a ⟨ha, hida⟩ b ⟨hb, hidb⟩,
      fun h a ha b hb => h a ha.1 b hb.1 ha.2 hb.2⟩

end LinearProgram

end PairedMarkov
