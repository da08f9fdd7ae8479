import PairedMarkov.Proofs.LogWeight
import PairedMarkov.Proofs.Uai.Loading
import PairedMarkov.Search.Run

/-!
# The grammar of network files

What a file looks like is said here without its reader: which words stand for a number, for a
sequence announced by its length, for a scope, for the table of a scope and for a whole network. The
reader is then shown to take exactly the words of the grammar from the front of a text, and to give
what they stand for. As it never looks ahead, this goes through its combinators one by one, each rule
saying which words a composite takes if it is known which words its parts take.

A file can announce more than memory holds. Then the reader breaks a promise of its own and gives
nothing at all; the grammar does not know of this, so it is one of the outcomes that completeness
leaves.

Main statements:
- `Uai.recognizes_readNetwork`: the words that the reader takes are those of the grammar;
- `Uai.parse_eq_ok_iff`: the texts that are networks, and the networks they are.
-/

namespace PairedMarkov.Uai

/-! ## Section 1: Words and what they stand for -/

/-- A word that is something under a way of reading words. -/
inductive Written {ε α : Type} (convert : String → Except ε α) : α → List String → Prop
  | word {a : α} {w : String} (h : convert w = .ok a) : Written convert a [w]

/-- A word that is a natural number. -/
abbrev Numeral : ℕ → List String → Prop := Written Decimal.natural

/-- A word that is a double. -/
abbrev Amount : Float → List String → Prop := Written Decimal.real

section Sequences

variable {α : Type}

/-- Things one after the other. -/
inductive Sequence (Spells : α → List String → Prop) : List α → List String → Prop
  | nil : Sequence Spells [] []
  | cons {a : α} {as : List α} {u v : List String} (h : Spells a u) (hrest : Sequence Spells as v) :
      Sequence Spells (a :: as) (u ++ v)

/-- How many things there are, and then the things one after the other. -/
inductive Counted (Spells : α → List String → Prop) (as : List α) : List String → Prop
  | mk {u v : List String} (hcount : Numeral as.length u) (hall : Sequence Spells as v) :
      Counted Spells as (u ++ v)

end Sequences

/-- The size of a domain, which has a value. -/
def IsSize (size : Nat) (used : List String) : Prop := 1 ≤ size ∧ Numeral size used

/-- The scope of a factor in a network of `total` variables. -/
def IsScope (total : Nat) (scope : Scope) (used : List String) : Prop :=
  ScopeBelow total scope ∧ Counted Numeral scope used

/-- A weight, which is a number above zero. -/
def IsWeight (x : Float) (used : List String) : Prop := 0 < x ∧ x.isNaN = false ∧ Amount x used

/-- A scope and the weights of its joint values, as a file lists them. -/
structure Table where
  scope : Scope
  weights : List Float

/-- The weights of a table, one for each joint value of its scope. -/
def IsTable (domains : Domains) (t : Table) (used : List String) : Prop :=
  t.weights.length = t.scope.capacity domains ∧ Counted IsWeight t.weights used

/-- What a file lists. -/
structure Content where
  sizes : List Nat
  tables : List Table

/-- The words of a file: all scopes come before the weights of the first of them. -/
inductive IsFile (c : Content) : List String → Prop
  | mk {u v w : List String} (hsizes : Counted IsSize c.sizes u)
      (hscopes : Counted (fun t => IsScope c.sizes.length t.scope) c.tables v)
      (htables : Sequence (IsTable c.sizes.toArray) c.tables w) :
      IsFile c ("MARKOV" :: (u ++ v ++ w))

/-- A network has the variables and the factors that a file lists: every variable with its size and,
when a search begins, at its first value, every factor with its scope and with the logarithms of its
weights. -/
structure Denotes (c : Content) (network : Domains × Network LogWeight) : Prop where
  variable_count : network.1.size = c.sizes.length
  size : ∀ (id size : ℕ), c.sizes[id]? = some size → network.1[id]? = some size
  value : ∀ {σ : Type} (source : σ) (id : ℕ), id < c.sizes.length →
    (Search.State.start (W := LogWeight) network.1 source).assignment[id]? = some 0
  factor_count : network.2.factors.size = c.tables.length
  scope : ∀ (i : ℕ) (f : Factor LogWeight) (t : Table), network.2.factors[i]? = some f →
    c.tables[i]? = some t → f.scope = t.scope
  entry_count : ∀ (i : ℕ) (f : Factor LogWeight) (t : Table), network.2.factors[i]? = some f →
    c.tables[i]? = some t → f.table.size = t.weights.length
  entry : ∀ (i : ℕ) (f : Factor LogWeight) (t : Table), network.2.factors[i]? = some f →
    c.tables[i]? = some t → ∀ (j : ℕ) x, t.weights[j]? = some x → f.valueAt j = .ok (.ofFloat x.log)

/-! ## Section 2: What a file stands for -/

/-- The factor of a table. -/
def Table.factor (t : Table) : Factor LogWeight :=
  ⟨t.scope, (t.weights.map fun x => LogWeight.ofFloat x.log).toArray⟩

/-- The network of a file. -/
def Content.network (c : Content) : Domains × Network LogWeight :=
  (c.sizes.toArray, ⟨(c.tables.map Table.factor).toArray⟩)

/-- The network of a file has what the file lists, as it is put together from just that. -/
theorem denotes_network (c : Content) : Denotes c c.network := by
  have hfactor : ∀ (i : ℕ) f t, c.network.2.factors[i]? = some f → c.tables[i]? = some t →
      f = t.factor := by
    intro i f t hf ht
    simpa [Content.network, ht, eq_comm] using hf
  constructor
  · simp [Content.network]
  · intro id size h
    simpa [Content.network] using h
  · intro _ _ id hid
    exact Assignment.getElem?_first (by simpa [Content.network] using hid)
  · simp [Content.network]
  · intro i f t hf ht
    rw [hfactor i f t hf ht, Table.factor]
  · intro i f t hf ht
    simp [hfactor i f t hf ht, Table.factor]
  · intro i f t hf ht j x hx
    rw [hfactor i f t hf ht, Factor.valueAt, fetch_eq_ok_iff]
    simp [Table.factor, hx]

/-- There is one network that has what a file lists. -/
theorem Denotes.eq_network {c : Content} {network : Domains × Network LogWeight}
    (h : Denotes c network) : network = c.network := by
  have hdomains : network.1 = c.sizes.toArray := by
    refine Array.ext (by simpa using h.variable_count) fun id hid hid' => ?_
    have hsize := h.size id c.sizes[id] (List.getElem?_eq_getElem (by simpa using hid'))
    simpa [hid] using hsize
  have hfactors : network.2.factors = (c.tables.map Table.factor).toArray := by
    refine Array.ext (by simpa using h.factor_count) fun i hi hi' => ?_
    have hf := Array.getElem?_eq_getElem hi
    have hlt : i < c.tables.length := by simpa using hi'
    have ht := List.getElem?_eq_getElem hlt
    -- the scopes are the same, and the tables entry by entry
    have htable : network.2.factors[i].table = (c.tables[i].factor).table := by
      have hcount := h.entry_count i _ _ hf ht
      refine Array.ext (by simpa [Table.factor] using hcount) fun j hj hj' => ?_
      have hentry := h.entry i _ _ hf ht j _ (List.getElem?_eq_getElem (hcount ▸ hj))
      rw [Factor.valueAt, fetch_eq_ok_iff] at hentry
      simpa [hj, Table.factor] using hentry
    have hfactor : network.2.factors[i] = c.tables[i].factor :=
      (Factor.mk.injEq ..).mpr ⟨h.scope i _ _ hf ht, htable⟩
    exact hfactor.trans (by simp)
  exact Prod.ext hdomains (congrArg Network.mk hfactors)

/-! ## Section 3: Readers that take words of a kind -/

namespace Reader

variable {α β : Type}

/-- A reader gives a value exactly if it finds words in front that stand for it, and takes these
words; unless it breaks a promise. -/
structure Recognizes (r : Reader α) (Spells : α → List String → Prop) : Prop where
  sound : ∀ {words a rest}, r.run words = .ok (a, rest) →
    ∃ used, Spells a used ∧ words = used ++ rest
  complete : ∀ {a used}, Spells a used → ∀ rest,
    r.run (used ++ rest) = .ok (a, rest) ∨ ∃ f, r.run (used ++ rest) = .error (.fault f)

variable {r : Reader α} {next : α → Reader β} {F : α → List String → Prop}
  {G : α → β → List String → Prop} {H : β → List String → Prop}

theorem Recognizes.congr {F' : α → List String → Prop} (h : r.Recognizes F)
    (hiff : ∀ a used, F a used ↔ F' a used) : r.Recognizes F' := by
  obtain rfl : F = F' := by
    funext a used
    exact propext (hiff a used)
  exact h

theorem recognizes_pure (a : α) : Recognizes (pure a) fun b used => b = a ∧ used = [] where
  sound hrun := by
    obtain ⟨rfl, rfl⟩ := Prod.mk.inj (Except.ok.inj hrun)
    exact ⟨[], ⟨rfl, rfl⟩, rfl⟩
  complete h rest := by
    obtain ⟨rfl, rfl⟩ := h
    exact .inl rfl

/-- What is refused is refused by the grammar too. -/
theorem recognizes_guard {c : Prop} [Decidable c] {e : ReadError}
    (hrefused : c → ∀ a used, ¬ F a used) (h : ¬ c → r.Recognizes F) :
    Recognizes (if c then fail e else r) F := by
  split
  · rename_i hc
    exact {
      sound := fun hrun => nomatch hrun
      complete := fun ha => (hrefused hc _ _ ha).elim }
  · rename_i hc
    exact h hc

/-- A sequence takes the words of one part and then those of the other. -/
theorem recognizes_bind (h : r.Recognizes F) (hnext : ∀ a u, F a u → (next a).Recognizes (G a)) :
    Recognizes (r >>= next) fun b used => ∃ a u v, F a u ∧ G a b v ∧ used = u ++ v where
  sound hrun := by
    rw [StateT.run_bind] at hrun
    obtain ⟨⟨a, rest'⟩, hfirst, hsecond⟩ := bind_eq_ok_iff.1 hrun
    obtain ⟨u, hu, rfl⟩ := h.sound hfirst
    obtain ⟨v, hv, rfl⟩ := (hnext a u hu).sound hsecond
    exact ⟨u ++ v, ⟨a, u, v, hu, hv, rfl⟩, (List.append_assoc ..).symm⟩
  complete hspells rest := by
    obtain ⟨a, u, v, hu, hv, rfl⟩ := hspells
    rw [List.append_assoc, StateT.run_bind]
    -- a promise may be broken by the first part already
    rcases h.complete hu (v ++ rest) with hfirst | ⟨f, hfirst⟩
    · rw [hfirst, ok_bind]
      exact (hnext a u hu).complete hv rest
    · rw [hfirst]
      exact .inr ⟨f, rfl⟩

/-- A check takes no words. -/
theorem recognizes_check_bind {x : Except Fault α} (h : ∀ a, x = .ok a → (next a).Recognizes H) :
    Recognizes (check x >>= next) H := by
  cases x with
  | ok a => exact h a rfl
  | error f =>
    exact {
      sound := fun hrun => nomatch hrun
      complete := fun _ _ => .inr ⟨f, rfl⟩ }

theorem recognizes_word (part : Part) : (word part).Recognizes fun w used => used = [w] where
  sound {words w rest} hrun := by
    cases words with
    | nil => exact nomatch hrun
    | cons w' words =>
      obtain ⟨rfl, rfl⟩ := Prod.mk.inj (Except.ok.inj hrun)
      exact ⟨[w'], rfl, rfl⟩
  complete h rest := by
    subst h
    exact .inl rfl

/-- A word that is converted, or refused. -/
theorem recognizes_converted {ε : Type} {convert : String → Except ε α} {next : String → Reader α}
    (part : Part) (hok : ∀ w a, convert w = .ok a → next w = pure a)
    (herror : ∀ w e, convert w = .error e → next w = fail (.token w part)) :
    (word part >>= next).Recognizes (Written convert) := by
  have hnext (w : String) : (next w).Recognizes fun a used => convert w = .ok a ∧ used = [] := by
    cases hw : convert w with
    | ok a =>
      rw [hok w a hw]
      exact (recognizes_pure a).congr fun b used => by simp [eq_comm]
    | error e =>
      rw [herror w e hw]
      exact {
        sound := fun hrun => nomatch hrun
        complete := fun h => nomatch h.1 }
  -- what follows the word takes no words itself
  refine (recognizes_bind (recognizes_word part) fun w _ _ => hnext w).congr fun a used => ?_
  refine ⟨fun hread => ?_, fun hspelt => ?_⟩
  · obtain ⟨w, _, _, rfl, ⟨hw, rfl⟩, rfl⟩ := hread
    exact .word hw
  · obtain ⟨hw⟩ := hspelt
    exact ⟨_, _, _, rfl, ⟨hw, rfl⟩, rfl⟩

theorem recognizes_natural (part : Part) : (natural part).Recognizes Numeral :=
  recognizes_converted part (fun w n hw => by simp [hw]) fun w e hw => by simp [hw]

theorem recognizes_real (part : Part) : (real part).Recognizes Amount :=
  recognizes_converted part (fun w x hw => by simp [hw]) fun w e hw => by simp [hw]

/-- Things that are read one after the other, each by a reader that knows its number. -/
theorem recognizes_collect {read : ℕ → Reader α} {Spells : ℕ → α → List String → Prop}
    (h : ∀ index, (read index).Recognizes (Spells index)) (count : ℕ) {index : ℕ} {done : Array α} :
    (collect read count index done).Recognizes fun all used => ∃ as : List α, as.length = count ∧
      Sequence (fun p => Spells p.2 p.1) (as.zipIdx index) used ∧ all = done ++ as.toArray := by
  -- on the things that are still to be read
  induction count generalizing index done with
  | zero =>
    refine (recognizes_pure done).congr fun all used => ?_
    refine ⟨fun hread => ?_, fun hspelt => ?_⟩
    · obtain ⟨rfl, rfl⟩ := hread
      exact ⟨[], rfl, .nil, by simp⟩
    · obtain ⟨as, hlength, hseq, rfl⟩ := hspelt
      obtain rfl := List.eq_nil_of_length_eq_zero hlength
      cases hseq
      simp
  | succ count ih =>
    refine (recognizes_bind (h index) fun a _ _ => ih).congr fun all used => ?_
    refine ⟨fun hread => ?_, fun hspelt => ?_⟩
    · obtain ⟨a, u, v, ha, ⟨as, hlength, hseq, rfl⟩, rfl⟩ := hread
      refine ⟨a :: as, congrArg Nat.succ hlength, ?_, by simp⟩
      rw [List.zipIdx_cons]
      exact .cons ha hseq
    · obtain ⟨as, hlength, hseq, rfl⟩ := hspelt
      obtain ⟨a, as, rfl⟩ := List.exists_cons_of_length_eq_add_one hlength
      rw [List.zipIdx_cons] at hseq
      obtain _ | ⟨ha, hrest⟩ := hseq
      exact ⟨a, _, _, ha, ⟨as, Nat.succ.inj hlength, hrest, by simp⟩, rfl⟩

theorem recognizes_times {read : ℕ → Reader α} {Spells : ℕ → α → List String → Prop}
    (h : ∀ index, (read index).Recognizes (Spells index)) (count : ℕ) :
    (times count read).Recognizes fun all used => all.size = count ∧
      Sequence (fun p => Spells p.2 p.1) all.toList.zipIdx used := by
  refine (recognizes_collect h count).congr fun all used => ?_
  refine ⟨fun hread => ?_, fun hspelt => ?_⟩
  · obtain ⟨as, hlength, hseq, rfl⟩ := hread
    simpa using ⟨hlength, hseq⟩
  · obtain ⟨hsize, hseq⟩ := hspelt
    exact ⟨all.toList, by simpa using hsize, hseq, by simp⟩

end Reader

open Reader

/-! ## Section 4: The sections of a file -/

section Sequences

variable {α β : Type} {Spells : α → List String → Prop} {used : List String}

theorem sequence_map_iff {f : β → α} {bs : List β} :
    Sequence Spells (bs.map f) used ↔ Sequence (fun b => Spells (f b)) bs used := by
  constructor
  · intro h
    induction bs generalizing used with
    | nil =>
      cases h
      exact .nil
    | cons b bs ih =>
      obtain _ | ⟨hb, hrest⟩ := h
      exact .cons hb (ih hrest)
  · intro h
    induction h with
    | nil => exact .nil
    | cons hb _ ih => exact .cons hb ih

theorem Sequence.forall_mem {as : List α} (h : Sequence Spells as used) : ∀ a ∈ as, ∃ u, Spells a u := by
  induction h with
  | nil => simp
  | cons ha _ ih => exact List.forall_mem_cons.2 ⟨⟨_, ha⟩, ih⟩

theorem counted_map_iff {f : β → α} {bs : List β} :
    Counted Spells (bs.map f) used ↔ Counted (fun b => Spells (f b)) bs used := by
  refine ⟨fun hmapped => ?_, fun hcounted => ?_⟩
  · obtain ⟨hcount, hall⟩ := hmapped
    exact .mk (by simpa using hcount) (sequence_map_iff.1 hall)
  · obtain ⟨hcount, hall⟩ := hcounted
    exact .mk (by simpa using hcount) (sequence_map_iff.2 hall)

/-- Where the numbers of things do not matter, they can be left out. -/
theorem sequence_zipIdx_iff {F : α → List String → Prop} {as : List α} :
    Sequence (fun p => F p.1) as.zipIdx used ↔ Sequence F as used := by
  rw [← sequence_map_iff (f := Prod.fst), List.zipIdx_map_fst]

/-- What is spelt may be chosen for each thing apart. -/
theorem sequence_exists_iff {R : α → β → Prop} {Spells : β → List String → Prop} {as : List α} :
    Sequence (fun a u => ∃ b, R a b ∧ Spells b u) as used ↔
      ∃ bs, List.Forall₂ R as bs ∧ Sequence Spells bs used := by
  constructor
  · intro h
    induction h with
    | nil => exact ⟨[], .nil, .nil⟩
    | cons ha _ ih =>
      obtain ⟨b, hab, hb⟩ := ha
      obtain ⟨bs, hall, hbs⟩ := ih
      exact ⟨b :: bs, .cons hab hall, .cons hb hbs⟩
  · rintro ⟨bs, hall, hbs⟩
    induction hall generalizing used with
    | nil =>
      cases hbs
      exact .nil
    | cons hab _ ih =>
      obtain _ | ⟨hb, hrest⟩ := hbs
      exact .cons ⟨_, hab, hb⟩ (ih hrest)

end Sequences

theorem recognizes_readDomain (id : ℕ) : (readDomain id).Recognizes IsSize := by
  -- a domain without values is refused when its number has been read
  have hnext (size : ℕ) : Recognizes (if size = 0 then fail (.emptyDomain id) else pure size)
      fun size' used => 1 ≤ size ∧ size' = size ∧ used = [] := by
    refine recognizes_guard (fun hzero _ _ h => ?_) fun hpos => ?_
    · omega
    · exact (recognizes_pure size).congr fun _ _ => by simp [Nat.one_le_iff_ne_zero, hpos]
  refine (recognizes_bind (recognizes_natural _) fun size _ _ => hnext size).congr fun size used => ?_
  refine ⟨fun hread => ?_, fun hspelt => ?_⟩
  · obtain ⟨_, u, _, hu, ⟨hpos, rfl, rfl⟩, rfl⟩ := hread
    exact ⟨hpos, by simpa using hu⟩
  · obtain ⟨hpos, hu⟩ := hspelt
    exact ⟨size, used, [], hu, ⟨hpos, rfl, rfl⟩, by simp⟩

/-- A count, for which memory is set aside, and that many things. -/
theorem recognizes_counted {α : Type} {read : ℕ → Reader α} {Spells : α → List String → Prop}
    (h : ∀ index, (read index).Recognizes Spells) (part : Part) (bytes : ℕ) :
    Recognizes (do
        let count ← natural part
        check (allocate bytes count)
        times count read)
      fun all used => Counted Spells all.toList used := by
  -- setting memory aside takes no words
  have hnext (count : ℕ) : Recognizes (do
        check (allocate bytes count)
        times count read)
      fun all used => all.size = count ∧ Sequence Spells all.toList used := by
    refine recognizes_check_bind fun _ _ => (recognizes_times h count).congr fun all used => ?_
    rw [sequence_zipIdx_iff]
  refine (recognizes_bind (recognizes_natural part) fun count _ _ => hnext count).congr
    fun all used => ?_
  refine ⟨fun hread => ?_, fun hspelt => ?_⟩
  · obtain ⟨_, u, v, hu, ⟨rfl, hall⟩, rfl⟩ := hread
    exact .mk (by simpa using hu) hall
  · obtain ⟨hu, hall⟩ := hspelt
    exact ⟨_, _, _, hu, ⟨by simp, hall⟩, rfl⟩

theorem recognizes_readDomains :
    readDomains.Recognizes fun domains used => Counted IsSize domains.toList used :=
  recognizes_counted recognizes_readDomain _ _

theorem recognizes_readMembers (total factor count : ℕ) {scope : Scope}
    (h : ScopeBelow total scope) :
    (readMembers total factor count scope).Recognizes fun all used => ScopeBelow total all ∧
      ∃ ids : List ℕ, all = scope ++ ids ∧ ids.length = count ∧ Sequence Numeral ids used := by
  induction count generalizing scope with
  | zero =>
    refine (recognizes_pure scope).congr fun all used => ?_
    refine ⟨fun hread => ?_, fun hspelt => ?_⟩
    · obtain ⟨rfl, rfl⟩ := hread
      exact ⟨h, [], by simp, rfl, .nil⟩
    · obtain ⟨-, ids, rfl, hlength, hids⟩ := hspelt
      obtain rfl := List.eq_nil_of_length_eq_zero hlength
      cases hids
      simp
  | succ count ih =>
    -- the next variable is one of the network and none of those before it
    have hnext (id : ℕ) : Recognizes
        (if total ≤ id then fail (.unknownVariable factor id total)
        else if scope.contains id then fail (.duplicateVariable factor id)
        else readMembers total factor count (scope ++ [id]))
        fun all used => ScopeBelow total all ∧ ∃ ids : List ℕ,
          all = scope ++ id :: ids ∧ ids.length = count ∧ Sequence Numeral ids used := by
      refine recognizes_guard (fun hunknown all used hall => ?_) fun hexists =>
        recognizes_guard (fun hduplicate all used hall => ?_) fun hnew => ?_
      · obtain ⟨hbelow, ids, rfl, -⟩ := hall
        exact Nat.not_lt_of_le hunknown (hbelow.lt id (by simp))
      · obtain ⟨hbelow, ids, rfl, -⟩ := hall
        have hmem : id ∈ scope := by simpa using hduplicate
        exact (List.nodup_append.1 hbelow.nodup).2.2 id hmem id (by simp) rfl
      · have hnotMem : id ∉ scope := by simpa using hnew
        exact (ih (h.concat (Nat.lt_of_not_le hexists) hnotMem)).congr fun all used => by simp
    refine (recognizes_bind (recognizes_natural _) fun id _ _ => hnext id).congr fun all used => ?_
    refine ⟨fun hread => ?_, fun hspelt => ?_⟩
    · obtain ⟨id, u, v, hid, ⟨hbelow, ids, rfl, hlength, hids⟩, rfl⟩ := hread
      exact ⟨hbelow, id :: ids, rfl, congrArg Nat.succ hlength, .cons hid hids⟩
    · obtain ⟨hbelow, ids, rfl, hlength, hids⟩ := hspelt
      obtain ⟨id, ids, rfl⟩ := List.exists_cons_of_length_eq_add_one hlength
      obtain _ | ⟨hid, hrest⟩ := hids
      exact ⟨id, _, _, hid, ⟨hbelow, ids, rfl, Nat.succ.inj hlength, hrest⟩, rfl⟩

theorem recognizes_readScope (total factor : ℕ) :
    (readScope total factor).Recognizes (IsScope total) := by
  have hnext (count : ℕ) : Recognizes (do
        check (allocate memberBytes count)
        readMembers total factor count [])
      fun scope used => ScopeBelow total scope ∧ scope.length = count ∧
        Sequence Numeral scope used :=
    recognizes_check_bind fun _ _ =>
      (recognizes_readMembers total factor count ⟨List.nodup_nil, by simp⟩).congr fun _ _ => by simp
  refine (recognizes_bind (recognizes_natural _) fun count _ _ => hnext count).congr
    fun scope used => ?_
  refine ⟨fun hread => ?_, fun hspelt => ?_⟩
  · obtain ⟨_, u, v, hu, ⟨hbelow, rfl, hall⟩, rfl⟩ := hread
    exact ⟨hbelow, .mk hu hall⟩
  · obtain ⟨hbelow, hu, hall⟩ := hspelt
    exact ⟨_, _, _, hu, ⟨hbelow, rfl, hall⟩, rfl⟩

theorem recognizes_readScopes (total : ℕ) :
    (readScopes total).Recognizes fun scopes used => Counted (IsScope total) scopes.toList used :=
  recognizes_counted (recognizes_readScope total) _ _

theorem recognizes_readEntry (factor entry : ℕ) :
    (readEntry factor entry).Recognizes fun a used =>
      ∃ x : Float, a = .ofFloat x.log ∧ IsWeight x used := by
  -- the reader refuses what is at or below zero or not a number, the grammar takes what is above
  have hnext (x : Float) : Recognizes
      (if x ≤ 0 ∨ x.isNaN then fail (.nonPositiveWeight factor entry x) else pure (.ofFloat x.log))
      fun a used => (0 < x ∧ x.isNaN = false) ∧ a = LogWeight.ofFloat x.log ∧ used = [] := by
    refine recognizes_guard (fun hrefused _ _ h => ?_) fun hpos => ?_
    · obtain ⟨⟨hpos, hnum⟩, -⟩ := h
      obtain hle | hnan := hrefused
      · exact (Double.zero_lt_iff.1 hpos).1 hle
      · exact Bool.false_ne_true (hnum.symm.trans hnan)
    · rw [not_or, Bool.not_eq_true] at hpos
      have hx : 0 < x ∧ x.isNaN = false := ⟨Double.zero_lt_iff.2 hpos, hpos.2⟩
      exact (recognizes_pure _).congr fun _ _ => (and_iff_right hx).symm
  refine (recognizes_bind (recognizes_real _) fun x _ _ => hnext x).congr fun a used => ?_
  refine ⟨fun hread => ?_, fun hspelt => ?_⟩
  · obtain ⟨x, u, _, hu, ⟨⟨hpos, hnum⟩, rfl, rfl⟩, rfl⟩ := hread
    exact ⟨x, rfl, hpos, hnum, by simpa using hu⟩
  · obtain ⟨x, rfl, hpos, hnum, hu⟩ := hspelt
    exact ⟨x, used, [], hu, ⟨⟨hpos, hnum⟩, rfl, rfl⟩, by simp⟩

theorem recognizes_readEntries (factor count : ℕ) :
    (times count (readEntry factor)).Recognizes fun table used => ∃ weights : List Float,
      table = (weights.map fun x => LogWeight.ofFloat x.log).toArray ∧ weights.length = count ∧
        Sequence IsWeight weights used := by
  refine (recognizes_times (recognizes_readEntry factor) count).congr fun table used => ?_
  rw [sequence_zipIdx_iff (F := fun (a : LogWeight) u =>
    ∃ x : Float, a = .ofFloat x.log ∧ IsWeight x u), sequence_exists_iff]
  refine ⟨fun hread => ?_, fun hspelt => ?_⟩
  · obtain ⟨hcount, weights, hlogs, hall⟩ := hread
    -- a logarithm for each weight, so the table is the list of them
    have htable : table.toList = weights.map fun x => LogWeight.ofFloat x.log := by
      rw [← List.forall₂_eq_eq_eq]
      exact List.forall₂_map_right_iff.2 hlogs
    have hlength : weights.length = count := by
      simpa [hcount] using (congrArg List.length htable).symm
    exact ⟨weights, Array.toList_inj.1 htable, hlength, hall⟩
  · obtain ⟨weights, rfl, hlength, hall⟩ := hspelt
    refine ⟨by simpa using hlength, weights, ?_, hall⟩
    exact List.forall₂_map_left_iff.2 (List.forall₂_same.2 fun _ _ => rfl)

variable {domains : Domains} {scopes : Array Scope}

/-- If there is a weight for each joint value, making the factor cannot fail. -/
theorem check_ofTable {scope : Scope} (hsize : scope.size domains = .ok (scope.capacity domains))
    {weights : List Float} (hlength : weights.length = scope.capacity domains) :
    check (Factor.ofTable domains scope (weights.map fun x => LogWeight.ofFloat x.log).toArray) =
      pure (Table.factor ⟨scope, weights⟩) := by
  rw [Factor.ofTable, hsize, ok_bind, if_pos (by simpa using hlength.symm)]
  rfl

/-- The table that is read after its length has been compared with the scope. -/
theorem recognizes_readTable (factor : ℕ) {scope : Scope}
    (hsize : scope.size domains = .ok (scope.capacity domains)) :
    Recognizes (do
        check (allocate Factor.entryBytes (scope.capacity domains))
        let table ← times (scope.capacity domains) (readEntry factor)
        check (Factor.ofTable domains scope table))
      fun f used => ∃ weights : List Float, f = Table.factor ⟨scope, weights⟩ ∧
        weights.length = scope.capacity domains ∧ Sequence IsWeight weights used := by
  have hfactor (table : Array LogWeight) (u : List String)
      (htable : ∃ weights : List Float,
        table = (weights.map fun x => LogWeight.ofFloat x.log).toArray ∧
          weights.length = scope.capacity domains ∧ Sequence IsWeight weights u) :
      Recognizes (check (Factor.ofTable domains scope table))
        fun f used => f = ⟨scope, table⟩ ∧ used = [] := by
    obtain ⟨weights, rfl, hlength, -⟩ := htable
    rw [check_ofTable hsize hlength]
    exact recognizes_pure _
  refine recognizes_check_bind fun _ _ =>
    (recognizes_bind (recognizes_readEntries factor _) hfactor).congr fun f used => ?_
  refine ⟨fun hread => ?_, fun hspelt => ?_⟩
  · obtain ⟨_, u, _, ⟨weights, rfl, hlength, hall⟩, ⟨rfl, rfl⟩, rfl⟩ := hread
    exact ⟨weights, rfl, hlength, by simpa using hall⟩
  · obtain ⟨weights, rfl, hlength, hall⟩ := hspelt
    exact ⟨_, used, [], ⟨weights, rfl, hlength, hall⟩, ⟨rfl, rfl⟩, by simp⟩

/-- A factor takes the words of a table over its scope. -/
theorem recognizes_readFactor (hd : domains.Positive) (factor : ℕ) :
    (readFactor domains scopes factor).Recognizes fun f used => ∃ t : Table,
      (f = t.factor ∧ scopes[factor]? = some t.scope) ∧ IsTable domains t used := by
  refine recognizes_check_bind fun scope hscope => recognizes_check_bind fun expected hexpected => ?_
  rw [fetch_eq_ok_iff] at hscope
  obtain ⟨-, -, rfl⟩ := (Scope.size_eq_ok_iff hd).1 hexpected
  -- the announced number is compared with the scope before any weight is read
  have hnext (declared : ℕ) : Recognizes
      (if declared ≠ scope.capacity domains then
        fail (.entryCount factor declared (scope.capacity domains))
      else do
        check (allocate Factor.entryBytes (scope.capacity domains))
        let table ← times (scope.capacity domains) (readEntry factor)
        check (Factor.ofTable domains scope table))
      fun f used => declared = scope.capacity domains ∧ ∃ weights : List Float,
        f = Table.factor ⟨scope, weights⟩ ∧ weights.length = scope.capacity domains ∧
          Sequence IsWeight weights used := by
    refine recognizes_guard (fun hdiffers _ _ h => hdiffers h.1) fun hsame => ?_
    rw [not_not] at hsame
    exact (recognizes_readTable factor hexpected).congr fun _ _ => (and_iff_right hsame).symm
  refine (recognizes_bind (recognizes_natural _) fun declared _ _ => hnext declared).congr
    fun f used => ?_
  refine ⟨fun hread => ?_, fun hspelt => ?_⟩
  · obtain ⟨_, u, v, hu, ⟨rfl, weights, rfl, hlength, hall⟩, rfl⟩ := hread
    exact ⟨⟨scope, weights⟩, ⟨rfl, hscope⟩, hlength, .mk (hlength ▸ hu) hall⟩
  · obtain ⟨⟨scope', weights⟩, ⟨rfl, hscope'⟩, hlength, hu, hall⟩ := hspelt
    obtain rfl := Option.some.inj (hscope.symm.trans hscope')
    exact ⟨_, _, _, hu, ⟨hlength, weights, rfl, hlength, hall⟩, rfl⟩

/-- The tables come in the order of the scopes. -/
theorem sequence_tables_iff {factors : List (Factor LogWeight)} {used : List String} :
    Sequence (fun p u => ∃ t : Table,
        (p.1 = t.factor ∧ scopes[p.2]? = some t.scope) ∧ IsTable domains t u) factors.zipIdx used ↔
      ∃ ts : List Table, factors = ts.map Table.factor ∧ ts.map Table.scope <+: scopes.toList ∧
        Sequence (IsTable domains) ts used := by
  rw [sequence_exists_iff (R := fun (p : Factor LogWeight × ℕ) (t : Table) =>
    p.1 = t.factor ∧ scopes[p.2]? = some t.scope)]
  refine exists_congr fun ts => ?_
  rw [← and_assoc, and_congr_left_iff]
  refine fun _ => ?_
  rw [List.forall₂_iff_get, List.prefix_iff_getElem?]
  refine ⟨fun hpairs => ?_, fun htables => ?_⟩
  · obtain ⟨hlength, hget⟩ := hpairs
    replace hlength : factors.length = ts.length := by simpa using hlength
    -- factor by factor: made from its table, and with the scope at its place
    refine ⟨List.ext_getElem (by simpa using hlength) fun i hi hi' => ?_, fun i hi => ?_⟩
    · simpa using (hget i (by simpa using hi) (hlength ▸ hi)).1
    · have hits : i < ts.length := by simpa using hi
      simpa using (hget i (by simpa [hlength] using hits) hits).2
  · obtain ⟨rfl, hscopes⟩ := htables
    refine ⟨by simp, fun i hi hi' => ⟨by simp, ?_⟩⟩
    have hscope := hscopes i (by simpa using hi')
    rw [List.getElem_map] at hscope
    simpa using hscope

theorem recognizes_readFactors (hd : domains.Positive) :
    (readFactors domains scopes).Recognizes fun factors used =>
      ∃ ts : List Table, factors = (ts.map Table.factor).toArray ∧
        ts.map Table.scope = scopes.toList ∧ Sequence (IsTable domains) ts used := by
  refine recognizes_check_bind fun _ _ =>
    (recognizes_times (recognizes_readFactor hd) _).congr fun factors used => ?_
  rw [sequence_tables_iff]
  refine ⟨fun hread => ?_, fun hspelt => ?_⟩
  · obtain ⟨hsize, ts, hfactors, hprefix, hseq⟩ := hread
    have hlength : ts.length = scopes.size := by
      simpa [hsize] using (congrArg List.length hfactors).symm
    exact ⟨ts, Array.toList_inj.1 hfactors, hprefix.eq_of_length (by simpa using hlength), hseq⟩
  · obtain ⟨ts, rfl, hscopes, hseq⟩ := hspelt
    have hlength : ts.length = scopes.size := by simpa using congrArg List.length hscopes
    exact ⟨by simpa using hlength, ts, rfl, hscopes ▸ List.prefix_rfl, hseq⟩

/-! ## Section 5: Whole files -/

theorem positive_of_counted {sizes : List ℕ} {used : List String}
    (h : Counted IsSize sizes used) : Domains.Positive sizes.toArray := by
  obtain ⟨-, hall⟩ := h
  intro size hsize
  obtain ⟨u, hpos, -⟩ := hall.forall_mem size (by simpa using hsize)
  exact hpos

/-- **The words that the reader takes** are those of the grammar. -/
theorem recognizes_readNetwork :
    readNetwork.Recognizes fun network used => ∃ c : Content, network = c.network ∧ IsFile c used := by
  have hnext (first : String) : Recognizes
      (if first ≠ magic then fail (.header first)
      else do
        let domains ← readDomains
        let scopes ← readScopes domains.size
        let factors ← readFactors domains scopes
        pure (domains, ⟨factors⟩))
      fun network used => first = magic ∧ ∃ c : Content, network = c.network ∧
        IsFile c (magic :: used) := by
    refine recognizes_guard (fun hother _ _ h => hother h.1) fun hmagic => ?_
    rw [not_not] at hmagic
    -- the sections one after the other; the sizes are known to be positive when the tables come
    refine (recognizes_bind recognizes_readDomains fun domains _ hdomains =>
      recognizes_bind (recognizes_readScopes domains.size) fun scopes _ _ =>
        recognizes_bind (recognizes_readFactors (positive_of_counted hdomains)) fun factors _ _ =>
          recognizes_pure (domains, Network.mk factors)).congr fun network used => ?_
    refine ⟨fun hread => ?_, fun hspelt => ?_⟩
    · obtain ⟨domains, u, _, hsizes, ⟨scopes, v, _, hscopes, ⟨_, w, _, ⟨ts, rfl, hts, htables⟩,
        ⟨rfl, rfl⟩, rfl⟩, rfl⟩, rfl⟩ := hread
      rw [← hts, counted_map_iff] at hscopes
      refine ⟨hmagic, ⟨domains.toList, ts⟩, rfl, ?_⟩
      simpa [magic] using IsFile.mk (c := ⟨domains.toList, ts⟩) hsizes hscopes htables
    · obtain ⟨-, ⟨sizes, ts⟩, rfl, hfile⟩ := hspelt
      rcases hfile with ⟨hsizes, hscopes, htables⟩
      rw [← counted_map_iff] at hscopes
      exact ⟨sizes.toArray, _, _, hsizes, ⟨(ts.map Table.scope).toArray, _, _, hscopes,
        ⟨_, _, _, ⟨ts, rfl, rfl, htables⟩, ⟨rfl, rfl⟩, rfl⟩, rfl⟩, by simp⟩
  refine (recognizes_bind (recognizes_word _) fun first _ _ => hnext first).congr
    fun network used => ?_
  refine ⟨fun hread => ?_, fun hspelt => ?_⟩
  · obtain ⟨first, _, v, rfl, ⟨rfl, c, rfl, hc⟩, rfl⟩ := hread
    exact ⟨c, rfl, hc⟩
  · obtain ⟨c, rfl, hc⟩ := hspelt
    obtain ⟨hsizes, hscopes, htables⟩ := hc
    exact ⟨magic, _, _, rfl, ⟨rfl, c, rfl, .mk hsizes hscopes htables⟩, rfl⟩

variable {content : String} {network : Domains × Network LogWeight}

/-- **The texts that are networks**: unless the text announces more than memory holds, it is read as
a network exactly if its words begin with those of a file, and the network is the one of the file. -/
theorem parse_eq_ok_iff (hsafe : ∀ f, parse content ≠ .error (.fault f))
    (network : Domains × Network LogWeight) :
    parse content = .ok network ↔ ∃ c used rest,
      Text.words content = used ++ rest ∧ IsFile c used ∧ Denotes c network := by
  rw [parse_eq_ok_iff_run]
  refine ⟨fun hread => ?_, fun hspelt => ?_⟩
  · obtain ⟨rest, hrun⟩ := hread
    obtain ⟨used, ⟨c, rfl, hfile⟩, hwords⟩ := recognizes_readNetwork.sound hrun
    exact ⟨c, used, rest, hwords, hfile, denotes_network c⟩
  · obtain ⟨c, used, rest, hwords, hfile, hdenotes⟩ := hspelt
    -- there is only one network with these tables, so it is enough that the reader gives one
    obtain rfl := hdenotes.eq_network
    rw [hwords]
    rcases recognizes_readNetwork.complete ⟨c, rfl, hfile⟩ rest with hrun | ⟨f, hrun⟩
    · exact ⟨rest, hrun⟩
    · refine (hsafe f (parse_eq_error_iff_run.2 ?_)).elim
      rwa [hwords]

/-- A network of two variables, a table over both and what follows it. -/
theorem exists_file_of_two_variables :
    ∃ network, parse "MARKOV 2 2 3 1 2 1 0 6 1 2 3 4 5 6 end" = .ok network ∧ ∃ c used rest,
      Text.words "MARKOV 2 2 3 1 2 1 0 6 1 2 3 4 5 6 end" = used ++ rest ∧ IsFile c used ∧
        Denotes c network := by
  have hok : (parse "MARKOV 2 2 3 1 2 1 0 6 1 2 3 4 5 6 end").toOption.isSome = true := by
    decide +kernel
  cases hparse : parse "MARKOV 2 2 3 1 2 1 0 6 1 2 3 4 5 6 end" with
  | error e => simp [hparse, Except.toOption] at hok
  | ok network => exact ⟨network, rfl, (parse_eq_ok_iff (by simp [hparse]) network).1 hparse⟩

end PairedMarkov.Uai
