import PairedMarkov.Proofs.Quantiles
import PairedMarkov.Proofs.Scores

/-!
# Sampled scores

Sampling gives all variables random values, again and again, in the same assignment. What it draws can
be said without this assignment: an assignment is drawn by drawing one number below the size of each
domain, and many are drawn one after the other, each from what the one before has left of the source.

The scores that come out of sampling are those of the assignments drawn, put in order. Their quantiles
are some of them, again in order, from the least one to the greatest.

Main statements:
- `Assignment.randomizeAll_eq_ok`: giving all variables random values draws an assignment;
- `Sample.draw_eq_ok`: the loop takes the scores of the assignments drawn;
- `Sample.ofNetwork_faithful`: sampling never fails, and neither do the quantiles of a sample.
-/

namespace PairedMarkov

variable {σ : Type} [Random.Source σ]

/-! ## Section 1: What is drawn -/

/-- One number below each bound, drawn one after the other. -/
def Random.belowAll : List ℕ → σ → List ℕ × σ
  | [], source => ([], source)
  | bound :: bounds, source =>
    let drawn := below bound source
    let others := belowAll bounds drawn.2
    (drawn.1 :: others.1, others.2)

/-- As many assignments as asked for, drawn one after the other. -/
def Assignment.drawn (domains : Domains) : ℕ → σ → List Assignment × σ
  | 0, source => ([], source)
  | count + 1, source =>
    let values := Random.belowAll domains.toList source
    let others := drawn domains count values.2
    (values.1.toArray :: others.1, others.2)

theorem Random.belowAll_lt {bounds : List ℕ} (h : ∀ bound ∈ bounds, 0 < bound) (source : σ) :
    List.Forall₂ (· < ·) (belowAll bounds source).1 bounds := by
  induction bounds generalizing source with
  | nil => exact List.Forall₂.nil
  | cons bound bounds ih =>
    obtain ⟨hbound, hbounds⟩ := List.forall_mem_cons.1 h
    exact List.Forall₂.cons (below_lt hbound source) (ih hbounds _)

namespace Assignment

variable {domains : Domains}

theorem inside_belowAll (hd : domains.Positive) (source : σ) :
    Inside domains (Random.belowAll domains.toList source).1.toArray := by
  have hlt := Random.belowAll_lt (fun size hsize => hd size (Array.mem_toList_iff.1 hsize)) source
  refine ⟨by simpa using hlt.length_eq, fun id hid hid' => ?_⟩
  simpa using hlt.get hid hid'

theorem length_drawn (domains : Domains) (count : ℕ) (source : σ) :
    (drawn domains count source).1.length = count := by
  induction count generalizing source with
  | zero => rfl
  | succ count ih => exact congrArg (· + 1) (ih _)

theorem inside_of_mem_drawn (hd : domains.Positive) {count : ℕ} {source : σ} {x : Assignment}
    (hx : x ∈ (drawn domains count source).1) : x.Inside domains := by
  induction count generalizing source with
  | zero => exact absurd hx List.not_mem_nil
  | succ count ih =>
    rcases List.mem_cons.1 hx with rfl | hx
    · exact inside_belowAll hd source
    · exact ih hx

/-- The variable behind those in `before` is given a random value. -/
theorem randomize_append {before bounds done rest : List ℕ} {bound old : ℕ} (hbound : 0 < bound)
    (hdone : done.length = before.length) (source : σ) :
    randomize (before ++ bound :: bounds).toArray (done ++ old :: rest).toArray source before.length =
      .ok ((done ++ (Random.below bound source).1 :: rest).toArray, (Random.below bound source).2) := by
  have hlt := Random.below_lt hbound source
  have hfetch : fetch (before ++ bound :: bounds).toArray before.length = .ok bound :=
    fetch_eq_ok_iff.2 (by simp)
  rw [randomize, hfetch, ok_bind, Random.draw, if_pos hbound, ok_bind]
  -- of the number drawn, only its bound matters from here on
  generalize Random.below bound source = drawn at hlt
  obtain ⟨value, source'⟩ := drawn
  have hset : set (before ++ bound :: bounds).toArray (done ++ old :: rest).toArray before.length value =
      .ok (done ++ value :: rest).toArray := by
    rw [set, hfetch, ok_bind, if_pos hlt, ← hdone]
    simp
  dsimp only
  rw [hset, ok_bind]
  rfl

/-- The variables behind those in `before` are given random values, `bounds` being their sizes. -/
theorem randomizeAll_append {before bounds done rest : List ℕ} (hbounds : ∀ bound ∈ bounds, 0 < bound)
    (hdone : done.length = before.length) (hrest : rest.length = bounds.length) (source : σ) :
    randomizeAll (before ++ bounds).toArray (done ++ rest).toArray source
        (List.range' before.length bounds.length) =
      .ok ((done ++ (Random.belowAll bounds source).1).toArray, (Random.belowAll bounds source).2) := by
  -- on the variables that still have no value; each step moves one of them to those before
  induction bounds generalizing before done rest source with
  | nil =>
    obtain rfl : rest = [] := List.eq_nil_of_length_eq_zero hrest
    rfl
  | cons bound bounds ih =>
    obtain ⟨hbound, hbounds⟩ := List.forall_mem_cons.1 hbounds
    cases rest with
    | nil => cases hrest
    | cons old rest =>
      have hrest : rest.length = bounds.length := Nat.succ.inj hrest
      have hothers : randomizeAll (before ++ [bound] ++ bounds).toArray
          (done ++ [(Random.below bound source).1] ++ rest).toArray (Random.below bound source).2
          (List.range' (before ++ [bound]).length bounds.length) = _ :=
        ih hbounds (by simp [hdone]) hrest _
      -- the first step, and then the others as a loop of their own
      rw [randomizeAll, List.length_cons, List.range'_succ, List.foldlM_cons,
        randomize_append hbound hdone source, ok_bind]
      simpa [randomizeAll, Random.belowAll] using hothers

/-- **Giving all variables random values** draws an assignment, whatever the values were. -/
theorem randomizeAll_eq_ok (hd : domains.Positive) {x : Assignment} (hx : x.size = domains.size)
    (source : σ) :
    x.randomizeAll domains source (List.range domains.size) =
      .ok ((Random.belowAll domains.toList source).1.toArray,
        (Random.belowAll domains.toList source).2) := by
  have hall : randomizeAll ([] ++ domains.toList).toArray ([] ++ x.toList).toArray source
      (List.range' 0 domains.toList.length) = _ :=
    randomizeAll_append (fun size hsize => hd size (Array.mem_toList_iff.1 hsize)) rfl hx source
  simpa [List.range_eq_range'] using hall

end Assignment

/-! ## Section 2: The scores of what is drawn -/

namespace Sample

variable {W : Type} [Weight W] {domains : Domains} {n : Network W}

/-- The loop takes the scores of the assignments that are drawn. -/
theorem draw_eq_ok {score : Assignment → W} (hd : domains.Positive)
    (hscore : ∀ x : Assignment, x.Inside domains → n.score domains x = .ok (score x))
    (count : ℕ) (scores : Array W) {x : Assignment} (hx : x.size = domains.size) (source : σ) :
    draw domains n count scores x source =
      .ok (scores ++ ((Assignment.drawn domains count source).1.map score).toArray,
        (Assignment.drawn domains count source).1.getLastD x,
        (Assignment.drawn domains count source).2) := by
  induction count generalizing scores x source with
  | zero => simp [draw, Assignment.drawn]
  | succ count ih =>
    have hinside := Assignment.inside_belowAll hd source
    rw [draw, Assignment.randomizeAll_eq_ok hd hx, ok_bind]
    dsimp only
    rw [hscore _ hinside, ok_bind, ih _ hinside.size_eq]
    simp only [Assignment.drawn, List.map_cons, List.getLastD_cons]
    simp

/-- What a sample should be: the scores of as many assignments as asked for, in order, and behind them
the assignment and the source that are left in the end. -/
structure Faithful (domains : Domains) (n : Network W) (count : ℕ) (source : σ)
    (sample : Sample W σ) : Prop where
  drawn : (Assignment.drawn domains count source).1.length = count
  inside : ∀ x ∈ (Assignment.drawn domains count source).1, x.Inside domains
  length : sample.scores.length = count
  sorted : sample.scores.Pairwise Weight.NotAfter
  perm : ∃ scores, (Assignment.drawn domains count source).1.mapM (n.score domains) = .ok scores ∧
    sample.scores.Perm scores
  last : (Assignment.drawn domains count source).1.getLast? = some sample.last
  source : sample.source = (Assignment.drawn domains count source).2

theorem exists_ofNetwork {proper : W → Prop} (hW : Weight.OrderedOn W proper) (hd : domains.Positive)
    (hn : ∀ f ∈ n.factors, f.Valid domains) {count : ℕ} (hcount : 1 ≤ count)
    (hroom : scoreBytes * count < memoryLimit) (source : σ) :
    ∃ sample, ofNetwork domains n count source = .ok sample ∧
      Faithful domains n count source sample := by
  have hinside : ∀ x ∈ (Assignment.drawn domains count source).1, x.Inside domains :=
    fun x hx => Assignment.inside_of_mem_drawn hd hx
  have hlength := Assignment.length_drawn domains count source
  -- inside its domains no assignment makes scoring fail
  have hscore : ∀ x : Assignment, x.Inside domains →
      n.score domains x = .ok ((n.alone domains).total .constraint x) := by
    intro x hx
    show (n.alone domains).score .constraint x = _
    exact Problem.score_eq_ok (Network.valid_alone hd hn) hx
  have hdraw := draw_eq_ok hd hscore count #[] (Assignment.inside_first hd).size_eq source
  have hmapM := mapM_eq_ok fun x hx => hscore x (hinside x hx)
  unfold ofNetwork
  rw [allocate, if_pos hroom, ok_bind, hdraw, ok_bind]
  refine ⟨_, rfl, ?_⟩
  exact {
    drawn := hlength
    inside := hinside
    length := by simp [hlength]
    sorted := hW.pairwise_mergeSort _
    perm := ⟨_, hmapM, by simpa using List.mergeSort_perm _ _⟩
    last := by
      -- something has been drawn
      have hne : (Assignment.drawn domains count source).1 ≠ [] := by
        intro hnil
        rw [hnil] at hlength
        exact absurd hlength.symm (Nat.ne_of_gt hcount)
      obtain ⟨last, hlast⟩ := Option.ne_none_iff_exists'.1 (mt List.getLast?_eq_none_iff.1 hne)
      simp [List.getLastD_eq_getLast?, hlast]
    source := rfl }

/-- **Sampling is faithful**: for each number of samples that there is room for, and whatever the source
gives, the scores of so many assignments are taken and put in order. Their quantiles are found as well:
each of them is the score of an assignment that has been drawn, and they go from the least score to the
greatest. -/
theorem ofNetwork_faithful {n : Network LogWeight} (hd : domains.Positive)
    (hn : ∀ f ∈ n.factors, f.Valid domains) {count : ℕ} (hcount : 1 ≤ count) (hcount' : count ≤ 2 ^ 59)
    (source : σ) :
    ∃ sample qs, ofNetwork domains n count source = .ok sample ∧
      Faithful domains n count source sample ∧
      quantiles sample.scores.toArray = .ok qs ∧ Summary Weight.NotAfter sample.scores qs ∧
      ∀ q ∈ qs, ∃ x ∈ (Assignment.drawn domains count source).1, n.score domains x = .ok q := by
  have hroom : scoreBytes * count < memoryLimit := by
    simp only [scoreBytes, memoryLimit, wordLimit, UInt64.size]
    omega
  obtain ⟨sample, hsample, hfaithful⟩ := exists_ofNetwork LogWeight.orderedOn hd hn hcount hroom source
  have hsize : sample.scores.toArray.size = count := hfaithful.length
  have hne : 0 < sample.scores.toArray.size := hsize ▸ hcount
  have hword : quantileParts * sample.scores.toArray.size < wordLimit := by
    simp only [hsize, quantileParts, wordLimit, UInt64.size]
    omega
  obtain ⟨qs, hqs⟩ := (exists_quantiles_iff hne).2 hword
  have hsummary := summary_of_quantiles (LogWeight.orderedOn.ascending hfaithful.sorted) hne hqs
  refine ⟨sample, qs, hsample, hfaithful, hqs, hsummary, fun q hq => ?_⟩
  -- a quantile is a score of the sample, and so one of those before they were put in order
  obtain ⟨scores, hscores, hperm⟩ := hfaithful.perm
  exact exists_of_mem_mapM hscores (hperm.mem_iff.1 (hsummary.mem q hq))

/-- Four samples from one factor over both variables, drawn from an arithmetic progression of words. -/
theorem ofNetwork_four_faithful :
    let domains : Domains := #[2, 3]
    let w := LogWeight.ofFloat
    let n : Network LogWeight := ⟨#[⟨[0, 1], #[w 1, w (-2), w 0.5, w 0.5, w 4, w 0]⟩]⟩
    let source : Random.Progression := ⟨0x1234567890abcdef, 0x3333333333333333⟩
    domains.Positive ∧ (∀ f ∈ n.factors, f.Valid domains) ∧
      ∃ sample qs, ofNetwork domains n 4 source = .ok sample ∧ Faithful domains n 4 source sample ∧
        quantiles sample.scores.toArray = .ok qs ∧ Summary Weight.NotAfter sample.scores qs ∧
        ∀ q ∈ qs, ∃ x ∈ (Assignment.drawn domains 4 source).1, n.score domains x = .ok q := by
  intro domains w n source
  have hd : domains.Positive := by decide
  have hn : ∀ f ∈ n.factors, f.Valid domains := by decide
  exact ⟨hd, hn, ofNetwork_faithful hd hn (by decide) (by decide) source⟩

end Sample

end PairedMarkov
