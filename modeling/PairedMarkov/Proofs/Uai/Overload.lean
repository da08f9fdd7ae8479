import PairedMarkov.Proofs.Uai.Grammar

/-!
# Files that announce too much

Memory for announced variables, scopes, factors and weights is set aside, and the joint values of a
scope are counted, before the words that they announce have been looked at. So there are texts, and quite short
ones, on which the reader breaks a promise instead of giving a network or an error. They are described
here in the terms of the grammar: a text begins like a network and then announces more than there is
room for.

Main statement: `Uai.faults_parse_iff`, the texts on which the reader breaks a promise, and the two
promises that it can break.
-/

namespace PairedMarkov.Uai

/-! ## Section 1: Announcing too much -/

/-- A number of things that each take some bytes, and too many of them. -/
inductive TooMany (bytes : ℕ) : List String → Prop
  | mk {n : ℕ} {u rest : List String} (hcount : Numeral n u) (hlarge : memoryLimit ≤ bytes * n) :
      TooMany bytes (u ++ rest)

/-- Too many scopes, or a scope with too many variables behind scopes that can be read. -/
inductive ScopeOverload (total : ℕ) : List String → Prop
  | scopes {words : List String} (h : TooMany scopeBytes words) : ScopeOverload total words
  | members {count : ℕ} {scopes : List Scope} {u v words : List String} (hcount : Numeral count u)
      (hscopes : Sequence (IsScope total) scopes v) (hmore : scopes.length < count)
      (h : TooMany memberBytes words) : ScopeOverload total (u ++ (v ++ words))

/-- A scope whose joint values cannot be counted, or one that has so many that there is no room for
their weights. -/
inductive TableOverload (domains : Domains) (scope : Scope) : List String → Prop
  | product {words : List String} (h : wordLimit ≤ scope.capacity domains) :
      TableOverload domains scope words
  | entries {u rest : List String} (hcount : Numeral (scope.capacity domains) u)
      (hlarge : memoryLimit ≤ Factor.entryBytes * scope.capacity domains) :
      TableOverload domains scope (u ++ rest)

/-- A text that begins like a network and then announces too much. The scopes announce the factors over
them. -/
inductive Overload : List String → Prop
  | domains {words : List String} (h : TooMany variableBytes words) : Overload ("MARKOV" :: words)
  | scopes {sizes : List ℕ} {u words : List String} (hsizes : Counted IsSize sizes u)
      (h : ScopeOverload sizes.length words) : Overload ("MARKOV" :: (u ++ words))
  | factors {sizes : List ℕ} {scopes : List Scope} {u v words : List String}
      (hsizes : Counted IsSize sizes u) (hscopes : Counted (IsScope sizes.length) scopes v)
      (hlarge : memoryLimit ≤ factorBytes * scopes.length) :
      Overload ("MARKOV" :: (u ++ (v ++ words)))
  | tables {sizes : List ℕ} {scopes : List Scope} {ts : List Table} {scope : Scope}
      {u v w words : List String} (hsizes : Counted IsSize sizes u)
      (hscopes : Counted (IsScope sizes.length) scopes v)
      (htables : Sequence (IsTable sizes.toArray) ts w) (hbefore : ts.map Table.scope <+: scopes)
      (hscope : scopes[ts.length]? = some scope)
      (h : TableOverload sizes.toArray scope words) : Overload ("MARKOV" :: (u ++ (v ++ (w ++ words))))

/-! ## Section 2: Readers that break promises -/

namespace Reader

variable {α β : Type}

/-- The reader keeps its promises on every text. -/
def Steady (r : Reader α) : Prop := ∀ words f, r.run words ≠ .error (.fault f)

/-- The texts on which a reader breaks a promise; it is one about the room in memory or one about
the product of domain sizes. -/
structure FaultsOn (r : Reader α) (Bad : List String → Prop) : Prop where
  exists_iff : ∀ words, (∃ f, r.run words = .error (.fault f)) ↔ Bad words
  kind : ∀ words f, r.run words = .error (.fault f) → f = .capacityOverflow ∨ f = .productOverflow

variable {r : Reader α} {next : α → Reader β} {F : α → List String → Prop}
  {A B : List String → Prop} {P : α → List String → Prop}

theorem steady_pure (a : α) : (pure a : Reader α).Steady := fun _ _ hrun => nomatch hrun

theorem steady_fail (e : ReadError) : (fail e : Reader α).Steady := fun _ _ hrun => nomatch hrun

theorem steady_bind (h : r.Steady) (hnext : ∀ a, (next a).Steady) : (r >>= next).Steady := by
  intro words f hrun
  rw [StateT.run_bind] at hrun
  cases hfirst : r.run words with
  | error e =>
    rw [hfirst] at hrun
    obtain rfl := Except.error.inj hrun
    exact h words f hfirst
  | ok result =>
    rw [hfirst] at hrun
    exact hnext result.1 result.2 f hrun

theorem steady_word (part : Part) : (word part).Steady := by
  intro words f hrun
  cases words with
  | nil => exact nomatch hrun
  | cons w rest => exact nomatch hrun

theorem steady_natural (part : Part) : (natural part).Steady := by
  refine steady_bind (steady_word part) fun w => ?_
  split
  · exact steady_pure _
  · exact steady_fail _

theorem steady_real (part : Part) : (real part).Steady := by
  refine steady_bind (steady_word part) fun w => ?_
  split
  · exact steady_pure _
  · exact steady_fail _

theorem steady_times {read : ℕ → Reader α} (h : ∀ index, (read index).Steady) (count : ℕ) :
    (times count read).Steady := by
  have hcollect (count index : ℕ) (done : Array α) : (collect read count index done).Steady := by
    induction count generalizing index done with
    | zero => exact steady_pure done
    | succ count ih => exact steady_bind (h index) fun a => ih (index + 1) (done.push a)
  exact hcollect count 0 #[]

theorem Steady.faultsOn (h : r.Steady) : r.FaultsOn fun _ => False where
  exists_iff words := iff_false_intro fun ⟨f, hrun⟩ => h words f hrun
  kind words f hrun := (h words f hrun).elim

theorem FaultsOn.congr (h : r.FaultsOn A) (hiff : ∀ words, A words ↔ B words) : r.FaultsOn B where
  exists_iff words := (h.exists_iff words).trans (hiff words)
  kind := h.kind

/-- The first part breaks a promise, or the second one does behind the words of the first. -/
theorem faultsOn_bind (hwords : r.Recognizes F) (h : r.FaultsOn A)
    (hnext : ∀ a u, F a u → (next a).FaultsOn (P a)) :
    (r >>= next).FaultsOn fun words =>
      A words ∨ ∃ a u rest, F a u ∧ P a rest ∧ words = u ++ rest where
  exists_iff words := by
    rw [StateT.run_bind, ← h.exists_iff words]
    refine ⟨fun hstops => ?_, fun hoverload => ?_⟩
    · obtain ⟨f, hrun⟩ := hstops
      cases hfirst : r.run words with
      | error e =>
        rw [hfirst] at hrun
        obtain rfl := Except.error.inj hrun
        exact .inl ⟨f, rfl⟩
      | ok result =>
        rw [hfirst] at hrun
        obtain ⟨u, hu, rfl⟩ := hwords.sound hfirst
        exact .inr ⟨result.1, u, result.2, hu, ((hnext _ u hu).exists_iff _).1 ⟨f, hrun⟩, rfl⟩
    · obtain ⟨f, hfirst⟩ | ⟨a, u, rest, hu, hbad, rfl⟩ := hoverload
      · rw [hfirst]
        exact ⟨f, rfl⟩
      · -- the first part takes the words that are its own, unless it breaks a promise itself
        rcases hwords.complete hu rest with hfirst | ⟨f, hfirst⟩
        · rw [hfirst]
          exact ((hnext a u hu).exists_iff rest).2 hbad
        · rw [hfirst]
          exact ⟨f, rfl⟩
  kind words f hrun := by
    rw [StateT.run_bind] at hrun
    cases hfirst : r.run words with
    | error e =>
      rw [hfirst] at hrun
      obtain rfl := Except.error.inj hrun
      exact h.kind words f hfirst
    | ok result =>
      rw [hfirst] at hrun
      obtain ⟨u, hu, -⟩ := hwords.sound hfirst
      exact (hnext _ u hu).kind _ f hrun

/-- The case of a first part that keeps its promises. -/
theorem faultsOn_steady_bind (hwords : r.Recognizes F) (h : r.Steady)
    (hnext : ∀ a u, F a u → (next a).FaultsOn (P a)) :
    (r >>= next).FaultsOn fun words => ∃ a u rest, F a u ∧ P a rest ∧ words = u ++ rest :=
  (faultsOn_bind hwords h.faultsOn hnext).congr fun words => by simp

/-- What is refused is refused without breaking a promise. -/
theorem faultsOn_guard {c : Prop} [Decidable c] {e : ReadError} (h : ¬ c → r.FaultsOn A) :
    FaultsOn (if c then fail e else r) fun words => ¬ c ∧ A words := by
  split
  · rename_i hc
    exact (steady_fail e).faultsOn.congr fun words => by simp [hc]
  · rename_i hc
    exact (h hc).congr fun words => by simp [hc]

theorem check_ok_bind (a : α) (next : α → Reader β) : check (.ok a) >>= next = next a := rfl

/-- A check of the one or the other kind comes before the next part. -/
theorem faultsOn_check_bind {x : Except Fault α} {c : Prop}
    (hkind : ∀ f, x = .error f → f = .capacityOverflow ∨ f = .productOverflow)
    (hfails : (∃ f, x = .error f) ↔ c) (hnext : ∀ a, x = .ok a → FaultsOn (next a) B) :
    (check x >>= next).FaultsOn fun words => c ∨ B words := by
  cases x with
  | ok a =>
    have hc : ¬ c := fun h => nomatch hfails.2 h
    exact (hnext a rfl).congr fun words => by simp [hc]
  | error f =>
    refine ⟨fun words => ?_, fun words f' hrun => ?_⟩
    · exact iff_of_true ⟨f, rfl⟩ (.inl (hfails.1 ⟨f, rfl⟩))
    · obtain rfl : f = f' := Stop.fault.inj (Except.error.inj hrun)
      exact hkind f rfl

/-- Memory is set aside before the next part. -/
theorem faultsOn_allocate_bind {bytes count : ℕ} {next : Unit → Reader β}
    (h : (next ()).FaultsOn B) :
    (check (allocate bytes count) >>= next).FaultsOn fun words =>
      memoryLimit ≤ bytes * count ∨ B words := by
  refine faultsOn_check_bind (fun f hf => ?_) ?_ fun _ _ => h
  · unfold allocate at hf
    split at hf
    · cases hf
    · exact .inl (Except.error.inj hf).symm
  · by_cases hroom : bytes * count < memoryLimit
    · simp [allocate, hroom]
    · simpa [allocate, hroom] using Nat.le_of_not_lt hroom

/-- A number is announced, and memory is set aside for that many things. -/
theorem faultsOn_announced {part : Part} {bytes : ℕ} {next : ℕ → Reader β}
    {P : ℕ → List String → Prop} (h : ∀ count, (next count).FaultsOn (P count)) :
    Reader.FaultsOn (do
        let count ← natural part
        check (allocate bytes count)
        next count)
      fun words => TooMany bytes words ∨
        ∃ count u rest, Numeral count u ∧ P count rest ∧ words = u ++ rest := by
  refine (faultsOn_steady_bind (recognizes_natural part) (steady_natural part) fun count _ _ =>
    faultsOn_allocate_bind (h count)).congr fun words => ?_
  refine ⟨fun hstops => ?_, fun hoverload => ?_⟩
  · obtain ⟨count, u, rest, hcount, hlarge | hrest, rfl⟩ := hstops
    · exact .inl (.mk hcount hlarge)
    · exact .inr ⟨count, u, rest, hcount, hrest, rfl⟩
  · obtain ⟨hcount, hlarge⟩ | ⟨count, u, rest, hcount, hrest, rfl⟩ := hoverload
    · exact ⟨_, _, _, hcount, .inl hlarge, rfl⟩
    · exact ⟨count, u, rest, hcount, .inr hrest, rfl⟩

/-- Of things that are read one after the other, one breaks a promise behind those before it. -/
theorem faultsOn_collect {read : ℕ → Reader α} {Spells : ℕ → α → List String → Prop}
    {P : ℕ → List String → Prop} (hwords : ∀ index, (read index).Recognizes (Spells index))
    {count index : ℕ} (h : ∀ i, i < index + count → (read i).FaultsOn (P i)) {done : Array α} :
    (collect read count index done).FaultsOn fun words => ∃ (as : List α) (u rest : List String),
      as.length < count ∧ Sequence (fun p => Spells p.2 p.1) (as.zipIdx index) u ∧
        P (index + as.length) rest ∧ words = u ++ rest := by
  -- on the things that are still to be read: the first of them breaks a promise, or a later one
  induction count generalizing index done with
  | zero => exact (steady_pure done).faultsOn.congr fun words => by simp
  | succ count ih =>
    have hrest (a : α) := @ih (index + 1) (fun i hi => h i (by omega)) (done.push a)
    refine (faultsOn_bind (hwords index) (h index (by omega)) fun a _ _ => hrest a).congr
      fun words => ?_
    refine ⟨fun hstops => ?_, fun hoverload => ?_⟩
    · obtain hfirst | ⟨a, u, _, ha, ⟨as, v, rest, hless, hseq, hbad, rfl⟩, rfl⟩ := hstops
      · exact ⟨[], [], words, by simp, .nil, hfirst, rfl⟩
      · refine ⟨a :: as, u ++ v, rest, by simpa using hless, ?_, ?_, by simp⟩
        · rw [List.zipIdx_cons]
          exact .cons ha hseq
        · rwa [List.length_cons, Nat.add_comm as.length, ← Nat.add_assoc]
    · obtain ⟨as, u, rest, hless, hseq, hbad, rfl⟩ := hoverload
      cases as with
      | nil =>
        cases hseq
        exact .inl hbad
      | cons a as =>
        rw [List.zipIdx_cons] at hseq
        obtain _ | ⟨ha, hseq⟩ := hseq
        rw [List.length_cons, Nat.add_comm as.length, ← Nat.add_assoc] at hbad
        exact .inr ⟨a, _, _, ha, ⟨as, _, rest, by simpa using hless, hseq, hbad, rfl⟩, by simp⟩

end Reader

open Reader

/-! ## Section 3: The sections of a file -/

theorem steady_readDomain (id : ℕ) : (readDomain id).Steady := by
  refine steady_bind (steady_natural _) fun size => ?_
  split
  · exact steady_fail _
  · exact steady_pure _

theorem steady_readMembers (total factor count : ℕ) (scope : Scope) :
    (readMembers total factor count scope).Steady := by
  induction count generalizing scope with
  | zero => exact steady_pure scope
  | succ count ih =>
    refine steady_bind (steady_natural _) fun id => ?_
    split
    · exact steady_fail _
    · split
      · exact steady_fail _
      · exact ih (scope ++ [id])

theorem steady_readEntry (factor entry : ℕ) : (readEntry factor entry).Steady := by
  refine steady_bind (steady_real _) fun x => ?_
  split
  · exact steady_fail _
  · exact steady_pure _

theorem faultsOn_readDomains : readDomains.FaultsOn (TooMany variableBytes) :=
  (faultsOn_announced fun count => (steady_times steady_readDomain count).faultsOn).congr
    fun words => by simp

theorem faultsOn_readScope (total factor : ℕ) :
    (readScope total factor).FaultsOn (TooMany memberBytes) :=
  (faultsOn_announced fun count => (steady_readMembers total factor count []).faultsOn).congr
    fun words => by simp

theorem faultsOn_readScopes (total : ℕ) : (readScopes total).FaultsOn (ScopeOverload total) := by
  refine (faultsOn_announced fun count => faultsOn_collect (recognizes_readScope total)
    fun i _ => faultsOn_readScope total i).congr fun words => ?_
  refine ⟨fun hstops => ?_, fun hoverload => ?_⟩
  · obtain hmany | ⟨count, u, _, hcount, ⟨as, v, rest, hless, hseq, hbad, rfl⟩, rfl⟩ := hstops
    · exact .scopes hmany
    · exact .members hcount (sequence_zipIdx_iff.1 hseq) hless hbad
  · obtain hmany | ⟨hcount, hscopes, hmore, hbad⟩ := hoverload
    · exact .inl hmany
    · exact .inr ⟨_, _, _, hcount,
        ⟨_, _, _, hmore, sequence_zipIdx_iff.2 hscopes, hbad, rfl⟩, rfl⟩

variable {domains : Domains} {scopes : Array Scope}

/-- Counting the joint values of a scope in range fails only because there are too many. -/
theorem eq_productOverflow_of_size {scope : Scope} (hrange : scope.InRange domains) {f : Fault}
    (h : scope.size domains = .error f) : f = .productOverflow := by
  have hfold (scope : Scope) (hrange : scope.InRange domains) (product : ℕ)
      (h : scope.foldlM (fun product id => do mulWords product (← fetch domains id)) product =
        .error f) : f = .productOverflow := by
    induction scope generalizing product with
    | nil => exact nomatch h
    | cons id scope ih =>
      rw [Scope.inRange_cons] at hrange
      rw [List.foldlM_cons, Domains.fetch_eq_ok hrange.1, ok_bind, mulWords] at h
      split at h
      · exact ih hrange.2 _ h
      · exact (Except.error.inj h).symm
  exact hfold scope hrange 1 h

/-- For the entries there is room, or there is not; nothing else can break a promise. -/
theorem faultsOn_readTable (factor : ℕ) {scope : Scope}
    (hsize : scope.size domains = .ok (scope.capacity domains)) :
    FaultsOn (do
        check (allocate Factor.entryBytes (scope.capacity domains))
        let table ← times (scope.capacity domains) (readEntry factor)
        check (Factor.ofTable domains scope table))
      fun _ => memoryLimit ≤ Factor.entryBytes * scope.capacity domains := by
  have hfactor (table : Array LogWeight) (u : List String)
      (htable : ∃ weights : List Float,
        table = (weights.map fun x => LogWeight.ofFloat x.log).toArray ∧
          weights.length = scope.capacity domains ∧ Sequence IsWeight weights u) :
      (check (Factor.ofTable domains scope table)).FaultsOn fun _ => False := by
    -- as many weights have been read as the scope has joint values
    obtain ⟨weights, rfl, hlength, -⟩ := htable
    rw [check_ofTable hsize hlength]
    exact (steady_pure _).faultsOn
  exact (faultsOn_allocate_bind (faultsOn_steady_bind (recognizes_readEntries factor _)
    (steady_times (steady_readEntry factor) _) hfactor)).congr fun words => by simp

theorem exists_size_eq_error_iff (hd : domains.Positive) {scope : Scope}
    (hrange : scope.InRange domains) :
    (∃ f, scope.size domains = .error f) ↔ wordLimit ≤ scope.capacity domains := by
  cases hsize : scope.size domains with
  | ok n =>
    have hword := ((Scope.size_eq_ok_iff hd).1 hsize).2.1
    simp [Nat.not_le_of_lt hword]
  | error f =>
    refine iff_of_true ⟨f, rfl⟩ (Nat.le_of_not_lt fun hword => ?_)
    rw [(Scope.size_eq_ok_iff hd).2 ⟨hrange, hword, rfl⟩] at hsize
    cases hsize

/-- The joint values of the scope are counted first; the announced number is compared with them
before memory is set aside. -/
theorem faultsOn_readFactor (hd : domains.Positive)
    (hscopes : ∀ scope ∈ scopes, ScopeBelow domains.size scope) {factor : ℕ}
    (hfactor : factor < scopes.size) :
    (readFactor domains scopes factor).FaultsOn (TableOverload domains scopes[factor]) := by
  have hrange : Scope.InRange domains scopes[factor] :=
    (hscopes _ (Array.getElem_mem hfactor)).lt
  have hentries (expected : ℕ) (hexpected : Scope.size domains scopes[factor] = .ok expected) :
      FaultsOn (do
          let declared ← natural .entryCount
          if declared ≠ expected then fail (.entryCount factor declared expected)
          else do
            check (allocate Factor.entryBytes expected)
            let table ← times expected (readEntry factor)
            check (Factor.ofTable domains scopes[factor] table))
        fun words => ∃ declared u rest, Numeral declared u ∧
          (¬ declared ≠ Scope.capacity domains scopes[factor] ∧
            memoryLimit ≤ Factor.entryBytes * Scope.capacity domains scopes[factor]) ∧
              words = u ++ rest := by
    -- what is expected is the number of joint values
    obtain ⟨-, -, rfl⟩ := (Scope.size_eq_ok_iff hd).1 hexpected
    exact faultsOn_steady_bind (recognizes_natural _) (steady_natural _) fun declared _ _ =>
      faultsOn_guard fun _ => faultsOn_readTable factor hexpected
  rw [readFactor, fetch_of_lt hfactor, check_ok_bind]
  refine (faultsOn_check_bind (fun f hf => .inr (eq_productOverflow_of_size hrange hf))
    (exists_size_eq_error_iff hd hrange) hentries).congr fun words => ?_
  refine ⟨fun hstops => ?_, fun hoverload => ?_⟩
  · obtain hproduct | ⟨declared, u, rest, hcount, ⟨hsame, hlarge⟩, rfl⟩ := hstops
    · exact .product hproduct
    · rw [not_not] at hsame
      exact .entries (hsame ▸ hcount) hlarge
  · obtain hproduct | ⟨hcount, hlarge⟩ := hoverload
    · exact .inl hproduct
    · exact .inr ⟨_, _, _, hcount, ⟨not_not.2 rfl, hlarge⟩, rfl⟩

/-- Reading factors breaks a promise before the first one, if there are too many of them, or at a
table when those of the scopes before it have been read. -/
theorem faultsOn_readFactors (hd : domains.Positive)
    (hscopes : ∀ scope ∈ scopes, ScopeBelow domains.size scope) :
    (readFactors domains scopes).FaultsOn fun words => memoryLimit ≤ factorBytes * scopes.size ∨
      ∃ (ts : List Table) (scope : Scope) (u rest : List String),
        ts.map Table.scope <+: scopes.toList ∧ scopes[ts.length]? = some scope ∧
          Sequence (IsTable domains) ts u ∧ TableOverload domains scope rest ∧ words = u ++ rest := by
  have hfactor (i : ℕ) (hi : i < 0 + scopes.size) : (readFactor domains scopes i).FaultsOn
      fun words => ∃ scope, scopes[i]? = some scope ∧ TableOverload domains scope words := by
    rw [Nat.zero_add] at hi
    exact (faultsOn_readFactor hd hscopes hi).congr fun words => by simp [hi]
  refine faultsOn_allocate_bind
    ((faultsOn_collect (recognizes_readFactor hd) hfactor).congr fun words => ?_)
  refine ⟨fun hstops => ?_, fun hoverload => ?_⟩
  · obtain ⟨factors, u, rest, -, hseq, ⟨scope, hscope, hbad⟩, rfl⟩ := hstops
    obtain ⟨ts, rfl, hbefore, htables⟩ := sequence_tables_iff.1 hseq
    rw [Nat.zero_add, List.length_map] at hscope
    exact ⟨ts, scope, u, rest, hbefore, hscope, htables, hbad, rfl⟩
  · obtain ⟨ts, scope, u, rest, hbefore, hscope, htables, hbad, rfl⟩ := hoverload
    refine ⟨ts.map Table.factor, u, rest, ?_, sequence_tables_iff.2 ⟨ts, rfl, hbefore, htables⟩,
      ⟨scope, by simpa using hscope, hbad⟩, rfl⟩
    rw [List.length_map]
    exact (Array.getElem?_eq_some_iff.1 hscope).1

/-! ## Section 4: Whole files -/

theorem scopeBelow_of_counted {total : ℕ} {used : List String}
    (h : Counted (IsScope total) scopes.toList used) : ∀ scope ∈ scopes, ScopeBelow total scope := by
  obtain ⟨-, hall⟩ := h
  intro scope hscope
  obtain ⟨u, hbelow, -⟩ := hall.forall_mem scope (Array.mem_toList_iff.2 hscope)
  exact hbelow

/-- Behind the first word a promise is broken by a section of the file, each one behind the words of
those before it. -/
theorem faultsOn_readSections : FaultsOn (do
      let domains ← readDomains
      let scopes ← readScopes domains.size
      let factors ← readFactors domains scopes
      pure (domains, Network.mk factors))
    fun words => Overload ("MARKOV" :: words) := by
  refine (faultsOn_bind recognizes_readDomains faultsOn_readDomains fun domains _ hdomains =>
    faultsOn_bind (recognizes_readScopes _) (faultsOn_readScopes _) fun scopes _ hscopes =>
      faultsOn_bind (recognizes_readFactors (positive_of_counted hdomains))
        (faultsOn_readFactors (positive_of_counted hdomains) (scopeBelow_of_counted hscopes))
          fun factors _ _ => (steady_pure _).faultsOn).congr fun words => ?_
  constructor
  · -- the cases are nested as the sections are, and making the result breaks no promise
    rintro (hmany | ⟨domains, u, _, hsizes, hrest, rfl⟩)
    · exact .domains hmany
    obtain hscopes | ⟨scopes, v, _, hscopes, hrest, rfl⟩ := hrest
    · exact .scopes hsizes hscopes
    obtain (hlarge | ⟨ts, scope, w, rest, hbefore, hscope, htables, hbad, rfl⟩) | ⟨_, _, _, _, hnone, _⟩ :=
      hrest
    · exact .factors hsizes hscopes hlarge
    · exact .tables hsizes hscopes htables hbefore (by simpa using hscope) hbad
    · exact hnone.elim
  · intro h
    cases h with
    | domains hmany => exact .inl hmany
    | scopes hsizes hscopes => exact .inr ⟨_, _, _, hsizes, .inl hscopes, rfl⟩
    | @factors sizes scopes u v rest hsizes hscopes hlarge =>
      exact .inr ⟨sizes.toArray, u, _, hsizes, .inr ⟨scopes.toArray, v, _, hscopes,
        .inl (.inl hlarge), rfl⟩, rfl⟩
    | @tables sizes scopes ts scope u v w rest hsizes hscopes htables hbefore hscope hbad =>
      refine .inr ⟨sizes.toArray, u, _, hsizes, .inr ⟨scopes.toArray, v, _, hscopes,
        .inl (.inr ⟨ts, scope, w, rest, hbefore, by simpa using hscope, htables, hbad, rfl⟩), rfl⟩,
        rfl⟩

theorem faultsOn_readNetwork : readNetwork.FaultsOn Overload := by
  refine (faultsOn_steady_bind (recognizes_word _) (steady_word _) fun first _ _ =>
    faultsOn_guard fun _ => faultsOn_readSections).congr fun words => ?_
  constructor
  · rintro ⟨first, _, rest, rfl, ⟨hmagic, hbad⟩, rfl⟩
    rw [not_not] at hmagic
    subst hmagic
    exact hbad
  · intro h
    -- an overload of each kind begins with the magic word
    have hmagic : ∃ rest, words = magic :: rest := by
      cases h <;> exact ⟨_, rfl⟩
    obtain ⟨rest, rfl⟩ := hmagic
    exact ⟨magic, [magic], rest, rfl, ⟨not_not.2 rfl, h⟩, rfl⟩

/-- **The texts on which the reader breaks a promise** are those that announce too much, and the
promise is about the room in memory or about the product of domain sizes. On all other texts there
is a network or an error. -/
theorem faults_parse_iff (content : String) :
    ((∃ f, parse content = .error (.fault f)) ↔ Overload (Text.words content)) ∧
      ∀ f, parse content = .error (.fault f) → f = .capacityOverflow ∨ f = .productOverflow := by
  simp only [parse_eq_error_iff_run]
  exact ⟨faultsOn_readNetwork.exists_iff _, faultsOn_readNetwork.kind _⟩

/-- The number of variables alone is too much for memory. -/
theorem parse_too_many_variables :
    parse "MARKOV 18446744073709551615" = .error (.fault .capacityOverflow) := by
  rw [parse_eq_error_iff_run]
  rfl

end PairedMarkov.Uai
