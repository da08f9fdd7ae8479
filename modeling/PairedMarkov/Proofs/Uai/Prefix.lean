import PairedMarkov.Proofs.Uai.Grammar
import PairedMarkov.Proofs.Words

/-!
# Files are read from front to back

The reader goes through the words of a text once. What it makes of the words that it has taken never
depends on those behind them, so as soon as it has come to an outcome, further words do not change it;
and if it has found a network, then it has needed each of the words it took. The only outcome that
further words can change is that the text ends inside a section.

This too goes through the combinators of the reader one by one. It is stated for lists of words: how
the words are set apart in a text makes no difference, and any words can be those of a text.

Main statements:
- `Uai.forward_readNetwork`: further words are left over, unless those before them were too few;
- `Uai.exists_reads`: outcomes stay when words are added, and a network needs all the words it takes.
-/

namespace PairedMarkov

namespace Uai

/-! ## Section 1: Readers that go forward -/

namespace Reader

variable {α β : Type}

/-- Words behind those of a text are left over, whatever the outcome; unless the text ends inside a
section. -/
def Forward (r : Reader α) : Prop := ∀ words more : List String,
  (∃ part, r.run words = .error (.error (.truncated part))) ∨
    r.run (words ++ more) = (r.run words).map fun (a, rest) => (a, rest ++ more)

variable {r : Reader α} {next : α → Reader β}

theorem forward_pure (a : α) : (pure a : Reader α).Forward := fun _ _ => .inr rfl

theorem forward_fail (e : ReadError) : (fail e : Reader α).Forward := fun _ _ => .inr rfl

theorem forward_check (x : Except Fault α) : (check x).Forward := by
  intro words more
  cases x with
  | ok a => exact .inr rfl
  | error f => exact .inr rfl

/-- The second part finds the further words behind those that the first one has left over. -/
theorem forward_bind (h : r.Forward) (hnext : ∀ a, (next a).Forward) : (r >>= next).Forward := by
  intro words more
  rw [StateT.run_bind, StateT.run_bind]
  rcases h words more with ⟨part, hfirst⟩ | hfirst
  · rw [hfirst]
    exact .inl ⟨part, rfl⟩
  · rw [hfirst]
    cases r.run words with
    | error stop => exact .inr rfl
    | ok result =>
      obtain ⟨a, rest⟩ := result
      exact hnext a rest more

theorem forward_word (part : Part) : (word part).Forward := by
  intro words more
  cases words with
  | nil => exact .inl ⟨part, rfl⟩
  | cons w rest => exact .inr rfl

theorem forward_natural (part : Part) : (natural part).Forward := by
  refine forward_bind (forward_word part) fun w => ?_
  split
  · exact forward_pure _
  · exact forward_fail _

theorem forward_real (part : Part) : (real part).Forward := by
  refine forward_bind (forward_word part) fun w => ?_
  split
  · exact forward_pure _
  · exact forward_fail _

theorem forward_collect {read : ℕ → Reader α} (h : ∀ index, (read index).Forward)
    (count index : ℕ) (done : Array α) : (collect read count index done).Forward := by
  -- on the things that are still to be read, however many an earlier word has announced
  induction count generalizing index done with
  | zero => exact forward_pure done
  | succ count ih => exact forward_bind (h index) fun a => ih (index + 1) (done.push a)

theorem forward_times {read : ℕ → Reader α} (h : ∀ index, (read index).Forward) (count : ℕ) :
    (times count read).Forward :=
  forward_collect h count 0 #[]

/-- A reader that goes forward needs every word that it takes. -/
theorem Forward.truncated_of_lt (h : r.Forward) {used rest : List String} {a : α}
    (hrun : r.run (used ++ rest) = .ok (a, rest)) {k : ℕ} (hk : k < used.length) :
    ∃ part, r.run (used.take k) = .error (.error (.truncated part)) := by
  rcases h (used.take k) (used.drop k ++ rest) with htruncated | hsame
  · exact htruncated
  · rw [← List.append_assoc, List.take_append_drop, hrun] at hsame
    cases hfewer : r.run (used.take k) with
    | error stop =>
      rw [hfewer] at hsame
      exact nomatch hsame
    | ok result =>
      -- the words behind the first `k` would be left over, but the reader has taken some of them
      rw [hfewer] at hsame
      have hrest := congrArg List.length (Prod.mk.inj (Except.ok.inj hsame)).2
      simp only [List.length_append, List.length_drop] at hrest
      omega

end Reader

open Reader

/-! ## Section 2: The sections of a file -/

theorem forward_readDomain (id : ℕ) : (readDomain id).Forward := by
  refine forward_bind (forward_natural _) fun size => ?_
  split
  · exact forward_fail _
  · exact forward_pure _

theorem forward_readDomains : readDomains.Forward :=
  forward_bind (forward_natural _) fun count =>
    forward_bind (forward_check _) fun _ => forward_times forward_readDomain count

theorem forward_readMembers (total factor count : ℕ) (scope : Scope) :
    (readMembers total factor count scope).Forward := by
  induction count generalizing scope with
  | zero => exact forward_pure scope
  | succ count ih =>
    refine forward_bind (forward_natural _) fun id => ?_
    split
    · exact forward_fail _
    · split
      · exact forward_fail _
      · exact ih (scope ++ [id])

theorem forward_readScope (total factor : ℕ) : (readScope total factor).Forward :=
  forward_bind (forward_natural _) fun count =>
    forward_bind (forward_check _) fun _ => forward_readMembers total factor count []

theorem forward_readScopes (total : ℕ) : (readScopes total).Forward :=
  forward_bind (forward_natural _) fun count =>
    forward_bind (forward_check _) fun _ => forward_times (forward_readScope total) count

theorem forward_readEntry (factor entry : ℕ) : (readEntry factor entry).Forward := by
  refine forward_bind (forward_real _) fun x => ?_
  split
  · exact forward_fail _
  · exact forward_pure _

/-- The checks of a table come between its words, but they look only at words before them. -/
theorem forward_readFactor (domains : Domains) (scopes : Array Scope) (factor : ℕ) :
    (readFactor domains scopes factor).Forward := by
  refine forward_bind (forward_check _) fun scope => forward_bind (forward_check _) fun expected =>
    forward_bind (forward_natural _) fun declared => ?_
  split
  · exact forward_fail _
  · exact forward_bind (forward_check _) fun _ =>
      forward_bind (forward_times (forward_readEntry factor) expected) fun _ => forward_check _

theorem forward_readFactors (domains : Domains) (scopes : Array Scope) :
    (readFactors domains scopes).Forward :=
  forward_bind (forward_check _) fun _ => forward_times (forward_readFactor domains scopes) _

/-- **Further words are left over** by the reader of networks, unless those before them end inside a
section. -/
theorem forward_readNetwork : readNetwork.Forward := by
  refine forward_bind (forward_word _) fun first => ?_
  split
  · exact forward_fail _
  · exact forward_bind forward_readDomains fun domains =>
      forward_bind (forward_readScopes domains.size) fun scopes =>
        forward_bind (forward_readFactors domains scopes) fun _ => forward_pure _

/-! ## Section 3: Texts -/

/-- What is made of a text with these words, however they are set apart. -/
structure Reads (ws : List String)
    (outcome : Except (Stop ReadError) (Domains × Network LogWeight)) : Prop where
  exists_text : ∃ text, Text.words text = ws
  parse_eq : ∀ text, Text.words text = ws → parse text = outcome

theorem reads_run (ws : List String) (hws : ∀ w ∈ ws, Text.IsWord w) :
    Reads ws ((readNetwork.run ws).map Prod.fst) where
  exists_text := Text.exists_words_eq_iff.2 hws
  parse_eq text htext := by rw [parse, htext]

/-- **One pass over the words**: an outcome, be it a network, an error or a broken promise, stays the
same whatever words are added, unless it is that the text ends too soon; and the words that a network
takes are all needed, the text ends too soon at each place before the last of them. -/
theorem exists_reads (ws : List String) (hws : ∀ w ∈ ws, Text.IsWord w) : ∃ outcome,
    Reads ws outcome ∧
      ((∀ part, outcome ≠ .error (.error (.truncated part))) →
        ∀ more, (∀ w ∈ more, Text.IsWord w) → Reads (ws ++ more) outcome) ∧
      ∀ network, outcome = .ok network → ∃ used rest, ws = used ++ rest ∧
        readNetwork.run ws = .ok (network, rest) ∧
        ∀ k < used.length, ∃ part, Reads (used.take k) (.error (.error (.truncated part))) := by
  refine ⟨_, reads_run ws hws, fun hends more hmore => ?_, fun network hnetwork => ?_⟩
  · have hadded := reads_run (ws ++ more)
      fun w hw => (List.mem_append.1 hw).elim (hws w) (hmore w)
    rcases forward_readNetwork ws more with ⟨part, hpart⟩ | hsame
    · exact (hends part (by rw [hpart]; rfl)).elim
    · rw [hsame] at hadded
      cases hrun : readNetwork.run ws <;> simpa only [hrun, Except.map] using hadded
  · obtain ⟨⟨_, rest⟩, hrun, rfl⟩ : ∃ result, readNetwork.run ws = .ok result ∧
        result.1 = network := by
      cases hrun : readNetwork.run ws with
      | error stop => simp [hrun, Except.map] at hnetwork
      | ok result => exact ⟨result, rfl, by simpa [hrun, Except.map] using hnetwork⟩
    -- the words that were taken are those the grammar gives to the network
    obtain ⟨used, -, rfl⟩ := recognizes_readNetwork.sound hrun
    refine ⟨used, rest, rfl, hrun, fun k hk => ?_⟩
    obtain ⟨part, hpart⟩ := forward_readNetwork.truncated_of_lt hrun hk
    have hfewer := reads_run (used.take k)
      fun w hw => hws w (List.mem_append_left _ (List.mem_of_mem_take hw))
    rw [hpart] at hfewer
    exact ⟨part, hfewer⟩

/-- A network of two variables, a table over both and what follows it. -/
theorem exists_reads_two_variables : ∃ network,
    (∀ more, (∀ w ∈ more, Text.IsWord w) →
      Reads (Text.words "MARKOV 2 2 3 1 2 1 0 6 1 2 3 4 5 6 end" ++ more) (.ok network)) ∧
    ∀ k < 15, ∃ part, Reads ((Text.words "MARKOV 2 2 3 1 2 1 0 6 1 2 3 4 5 6 end").take k)
      (.error (.error (.truncated part))) := by
  obtain ⟨outcome, hreads, hmore, hneeds⟩ :=
    exists_reads (Text.words "MARKOV 2 2 3 1 2 1 0 6 1 2 3 4 5 6 end")
      (Text.exists_words_eq_iff.1 ⟨_, rfl⟩)
  have hok : (parse "MARKOV 2 2 3 1 2 1 0 6 1 2 3 4 5 6 end").toOption.isSome = true := by
    decide +kernel
  have hrest : (readNetwork.run (Text.words "MARKOV 2 2 3 1 2 1 0 6 1 2 3 4 5 6 end")).toOption.map
      (fun result => result.2.length) = some 1 := by decide +kernel
  have hcount : (Text.words "MARKOV 2 2 3 1 2 1 0 6 1 2 3 4 5 6 end").length = 16 := by
    decide +kernel
  rw [hreads.parse_eq _ rfl] at hok
  cases outcome with
  | error stop => simp [Except.toOption] at hok
  | ok network =>
    refine ⟨network, hmore (by simp), fun k hk => ?_⟩
    obtain ⟨used, rest, hall, hrun, hfewer⟩ := hneeds network rfl
    simp only [hrun, Except.toOption, Option.map_some, Option.some.injEq] at hrest
    have hused : used.length = 15 := by
      rw [hall, List.length_append] at hcount
      omega
    rw [hall, List.take_append_of_le_length (by omega)]
    exact hfewer k (hused ▸ hk)

end Uai

end PairedMarkov
