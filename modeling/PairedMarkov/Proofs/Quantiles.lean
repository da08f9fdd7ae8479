import PairedMarkov.Proofs.Checked
import PairedMarkov.Proofs.LogWeight
import PairedMarkov.Quantiles

/-!
# The rank of a quantile

In a sorted list the entries that are at most some score come first, and so do those below it. The
score of rank `k` therefore has at least `k` scores that are at most itself, and fewer than `k` below
it. This holds for every order in which the list is sorted: that of sorting, which places all scores,
and the comparisons of scores, as long as these are numbers.

A quantile of `i` twentieths should have at least `i` twentieths of the scores at or below it, and at
most as many below it. The rank that is taken is rounded down, so the second part always holds but the
first one only up to a part of a score. It holds exactly if the next score, whose rank is rounded up, is
no greater: in particular if the parts come out even.

Main statements:
- `quantiles_eq_ok_iff`: which scores are reported, and for how many scores;
- `Ascending.ranked`: how many scores are at most the one of a rank, and how many are below it;
- `summary_of_quantiles`: what is reported goes from the least score to the greatest;
- `quantiles_ranked`: the scores that are reported have the rank of their quantile, rounded down.
-/

namespace PairedMarkov

/-! ## Section 1: Counting in sorted lists -/

/-- If a property is passed on to all entries before, then the entries that have it come first, and
counting them tells how far they go. -/
theorem lt_countP_iff {α : Type} {p : α → Bool} {l : List α}
    (h : l.Pairwise fun a b => p b = true → p a = true) {k : ℕ} {a : α} (ha : l[k]? = some a) :
    k < l.countP p ↔ p a = true := by
  induction l generalizing k with
  | nil => simp at ha
  | cons b l ih =>
    obtain ⟨hb, hrest⟩ := List.pairwise_cons.1 h
    by_cases hp : p b = true
    · rw [List.countP_cons_of_pos hp]
      cases k with
      | zero =>
        obtain rfl : b = a := by simpa using ha
        simp [hp]
      | succ k =>
        rw [Nat.succ_lt_succ_iff]
        exact ih hrest (by simpa using ha)
    · -- no entry behind `b` has the property
      have hnone : l.countP p = 0 :=
        List.countP_eq_zero.2 fun c hc hpc => hp (hb c hc hpc)
      have hpa : ¬ p a = true := by
        rcases List.mem_cons.1 (List.mem_of_getElem? ha) with rfl | hmem
        · exact hp
        · exact fun hpa => hp (hb a hmem hpa)
      simp [List.countP_cons_of_neg hp, hnone, hpa]

/-! ## Section 2: Ranks and quantiles -/

variable {W : Type}

section Ranks

variable (le lt : W → W → Prop) [DecidableRel le] [DecidableRel lt]

/-- A quantile of `i` twentieths of some scores: at least so many of them are at most `q`, and at most
so many of them below `q`. -/
structure IsQuantile (scores : List W) (i : ℕ) (q : W) : Prop where
  reached : i * scores.length ≤ quantileParts * scores.countP fun s => le s q
  below : quantileParts * (scores.countP fun s => lt s q) ≤ i * scores.length

/-- The rank of the quantile of `i` twentieths among `n` scores, from one on. -/
def quantileRank (n i : ℕ) : ℕ := max (i * n / quantileParts) 1

/-- A score at the rank of the quantile of `i` twentieths. It is this quantile exactly if it reaches the
score at the rank that is rounded up. -/
structure Ranked (scores : List W) (i : ℕ) (q : W) : Prop where
  reached : quantileRank scores.length i ≤ scores.countP fun s => le s q
  below : quantileParts * (scores.countP fun s => lt s q) ≤ i * scores.length
  isQuantile_iff : IsQuantile le lt scores i q ↔
    ∃ next, scores[(i * scores.length) ⌈/⌉ quantileParts - 1]? = some next ∧ le next q
  isQuantile_of_dvd : quantileParts ∣ i * scores.length → IsQuantile le lt scores i q

/-- Scores that increase in an order, which is reflexive on them. -/
structure Ascending (scores : List W) : Prop where
  sorted : scores.Pairwise le
  refl : ∀ s ∈ scores, le s s
  trans : ∀ {a b c : W}, le a b → le b c → le a c
  irrefl : ∀ a : W, ¬ lt a a
  lt_of_le_of_lt : ∀ {a b c : W}, le a b → lt b c → lt a c

end Ranks

theorem quantileRank_pos (n i : ℕ) : 0 < quantileRank n i := Nat.le_max_right ..

theorem quantileRank_sub_one_le (n i : ℕ) : quantileRank n i - 1 ≤ i * n / quantileParts := by
  unfold quantileRank
  generalize i * n / quantileParts = parts
  omega

theorem quantileRank_mono {i j : ℕ} (n : ℕ) (h : i ≤ j) : quantileRank n i ≤ quantileRank n j :=
  max_le_max_right 1 (Nat.div_le_div_right (Nat.mul_le_mul_right n h))

theorem quantileRank_zero (n : ℕ) : quantileRank n 0 = 1 := by
  simp [quantileRank]

theorem quantileRank_parts {n : ℕ} (hn : 0 < n) : quantileRank n quantileParts = n := by
  rw [quantileRank, Nat.mul_div_cancel_left n (by decide), Nat.max_eq_left hn]

theorem quantileRank_le {n i : ℕ} (hn : 0 < n) (hi : i ≤ quantileParts) : quantileRank n i ≤ n := by
  have hparts : i * n / quantileParts ≤ n :=
    Nat.div_le_of_le_mul (Nat.mul_le_mul_right n hi)
  exact Nat.max_le.2 ⟨hparts, hn⟩

namespace Ascending

variable {le lt : W → W → Prop} {scores : List W} (h : Ascending le lt scores) {k i : ℕ} {a q : W}

include h

/-- Scores at increasing places increase. -/
theorem le_of_place_le {j : ℕ} {b : W} (ha : scores[j]? = some a) (hb : scores[k]? = some b)
    (hjk : j ≤ k) : le a b := by
  rcases Nat.eq_or_lt_of_le hjk with rfl | hlt
  · obtain rfl := Option.some.inj (ha.symm.trans hb)
    exact h.refl a (List.mem_of_getElem? ha)
  · obtain ⟨hj, rfl⟩ := List.getElem?_eq_some_iff.1 ha
    obtain ⟨hk, rfl⟩ := List.getElem?_eq_some_iff.1 hb
    exact List.pairwise_iff_getElem.1 h.sorted j k hj hk hlt

section AtMost

variable [DecidableRel le]

theorem lt_countP_le_iff (ha : scores[k]? = some a) :
    k < (scores.countP fun s => le s q) ↔ le a q := by
  have hpassed : scores.Pairwise fun a b => decide (le b q) = true → decide (le a q) = true :=
    h.sorted.imp fun hle hq => decide_eq_true (h.trans hle (of_decide_eq_true hq))
  simpa using lt_countP_iff hpassed ha

theorem rank_le_countP (hq : scores[quantileRank scores.length i - 1]? = some q) :
    quantileRank scores.length i ≤ scores.countP fun s => le s q := by
  -- the score itself is one of those that are at most itself
  have hlt := (h.lt_countP_le_iff hq).2 (h.refl q (List.mem_of_getElem? hq))
  have hpos := quantileRank_pos scores.length i
  omega

/-- Enough scores are at most `q` exactly if the one at the rank rounded up is. -/
theorem reached_iff (hlength : 0 < scores.length) (hi : 1 ≤ i) (hi' : i ≤ quantileParts) :
    (i * scores.length ≤ quantileParts * scores.countP fun s => le s q) ↔
      ∃ next, scores[(i * scores.length) ⌈/⌉ quantileParts - 1]? = some next ∧ le next q := by
  have hparts : 0 < quantileParts := by decide
  -- there is a score at the rank rounded up: the rank is neither zero nor behind the last one
  have hle : (i * scores.length) ⌈/⌉ quantileParts ≤ scores.length :=
    (ceilDiv_le_iff_le_mul hparts).2 (Nat.mul_le_mul_right _ hi')
  have hpos : 0 < (i * scores.length) ⌈/⌉ quantileParts := by
    apply Nat.pos_of_ne_zero
    intro hzero
    have hnone := (ceilDiv_le_iff_le_mul hparts).1 hzero.le
    exact absurd hnone (Nat.not_le_of_lt (Nat.mul_pos hi hlength))
  rw [← smul_eq_mul quantileParts, ← ceilDiv_le_iff_le_smul hparts]
  generalize (i * scores.length) ⌈/⌉ quantileParts = rank at hle hpos ⊢
  have hnext : scores[rank - 1]? = some scores[rank - 1] := List.getElem?_eq_getElem (by omega)
  have hcount := h.lt_countP_le_iff hnext (q := q)
  rw [hnext]
  constructor
  · intro hrank
    exact ⟨_, rfl, hcount.1 (by omega)⟩
  · intro hreached
    obtain ⟨next, hsome, hle⟩ := hreached
    obtain rfl := Option.some.inj hsome
    have hlt := hcount.2 hle
    omega

end AtMost

section Below

variable [DecidableRel lt]

theorem lt_countP_lt_iff (ha : scores[k]? = some a) :
    k < (scores.countP fun s => lt s q) ↔ lt a q := by
  have hpassed : scores.Pairwise fun a b => decide (lt b q) = true → decide (lt a q) = true :=
    h.sorted.imp fun hle hq => decide_eq_true (h.lt_of_le_of_lt hle (of_decide_eq_true hq))
  simpa using lt_countP_iff hpassed ha

theorem countP_lt_le (hq : scores[quantileRank scores.length i - 1]? = some q) :
    quantileParts * (scores.countP fun s => lt s q) ≤ i * scores.length := by
  -- and none of those below itself, nor is anything behind it
  have hnotLt := mt (h.lt_countP_lt_iff hq).1 (h.irrefl q)
  calc quantileParts * (scores.countP fun s => lt s q)
      ≤ quantileParts * (i * scores.length / quantileParts) :=
        Nat.mul_le_mul_left _ ((Nat.le_of_not_lt hnotLt).trans (quantileRank_sub_one_le ..))
    _ ≤ i * scores.length := Nat.mul_div_le ..

end Below

/-- **The score of a rank** has at least so many scores that are at most itself, and fewer below it. -/
theorem ranked [DecidableRel le] [DecidableRel lt] (hi : 1 ≤ i) (hi' : i ≤ quantileParts)
    (hq : scores[quantileRank scores.length i - 1]? = some q) : Ranked le lt scores i q := by
  have hlength : 0 < scores.length := Nat.zero_lt_of_lt (List.getElem?_eq_some_iff.1 hq).1
  have hreached := h.rank_le_countP hq
  have hbelow := h.countP_lt_le hq
  refine ⟨hreached, hbelow, ?_, fun hdvd => ⟨?_, hbelow⟩⟩
  · rw [← h.reached_iff hlength hi hi']
    exact ⟨fun hquantile => hquantile.reached, fun henough => ⟨henough, hbelow⟩⟩
  · -- nothing is lost in the division
    calc i * scores.length
        = quantileParts * (i * scores.length / quantileParts) := (Nat.mul_div_cancel' hdvd).symm
      _ ≤ quantileParts * scores.countP fun s => le s q :=
        Nat.mul_le_mul_left _ ((Nat.le_max_left ..).trans hreached)

end Ascending

/-! ## Section 3: The orders of scores -/

/-- The order of sorting, as a relation. -/
def Weight.NotAfter [Weight W] (a b : W) : Prop := Weight.sortsBefore a b = true

/-- The strict order of sorting. -/
def Weight.Before [Weight W] (a b : W) : Prop := ¬ Weight.NotAfter b a

instance [Weight W] : DecidableRel (Weight.NotAfter (W := W)) := fun a b =>
  inferInstanceAs (Decidable (Weight.sortsBefore a b = true))

instance [Weight W] : DecidableRel (Weight.Before (W := W)) := fun a b =>
  inferInstanceAs (Decidable (¬ Weight.NotAfter b a))

theorem Weight.OrderedOn.pairwise_mergeSort [Weight W] {proper : W → Prop}
    (hW : Weight.OrderedOn W proper) (scores : List W) :
    (scores.mergeSort Weight.sortsBefore).Pairwise Weight.NotAfter := by
  have htrans : ∀ a b c : W, Weight.sortsBefore a b = true → Weight.sortsBefore b c = true →
      Weight.sortsBefore a c = true := fun _ _ _ => hW.sortsBefore_trans
  exact List.pairwise_mergeSort htrans hW.sortsBefore_total scores

theorem Weight.OrderedOn.ascending [Weight W] {proper : W → Prop} (hW : Weight.OrderedOn W proper)
    {scores : List W} (h : scores.Pairwise Weight.NotAfter) :
    Ascending Weight.NotAfter Weight.Before scores := by
  have hrefl : ∀ a : W, Weight.NotAfter a a := fun a => by
    simpa [Weight.NotAfter] using hW.sortsBefore_total a a
  exact {
    sorted := h
    refl := fun s _ => hrefl s
    trans := hW.sortsBefore_trans
    irrefl := fun a hbefore => hbefore (hrefl a)
    lt_of_le_of_lt := fun hab hbc hca => hbc (hW.sortsBefore_trans hca hab) }

theorem LogWeight.ascending {scores : List LogWeight} (h : scores.Pairwise (· ≤ ·))
    (hnumbers : ∀ s ∈ scores, s.value.isNaN = false) :
    Ascending (· ≤ ·) (· < ·) scores where
  sorted := h
  refl s hs := orderedOn.le_refl (hnumbers s hs)
  trans := LogWeight.le_trans
  irrefl _ hlt := not_beq_of_lt hlt (beq_self_of_lt hlt)
  lt_of_le_of_lt := LogWeight.lt_of_le_of_lt

/-! ## Section 4: The quantiles that are reported -/

variable {sorted : Array W} {qs : List W}

/-- The score at the rank of the quantile of `i` parts. -/
def quantileScore (sorted : Array W) (hne : 0 < sorted.size) (i : ℕ) : W :=
  sorted.getD (quantileRank sorted.size i - 1) sorted[0]

theorem getElem?_quantileScore (hne : 0 < sorted.size) {i : ℕ} (hi : i ≤ quantileParts) :
    sorted.toList[quantileRank sorted.size i - 1]? = some (quantileScore sorted hne i) := by
  have hrank := quantileRank_le hne hi
  have hpos := quantileRank_pos sorted.size i
  have hlt : quantileRank sorted.size i - 1 < sorted.size := by omega
  simp [quantileScore, hlt]

theorem quantile_eq_ok_iff (hne : 0 < sorted.size) {i : ℕ} (hi : i ≤ quantileParts) {q : W} :
    quantile sorted i = .ok q ↔ i * sorted.size < wordLimit ∧ q = quantileScore sorted hne i := by
  unfold quantile quantilePosition mulWords
  by_cases hword : i * sorted.size < wordLimit
  · have hposition : max (i * sorted.size / quantileParts) 1 - 1 = quantileRank sorted.size i - 1 := rfl
    simp only [hword, if_true, true_and, ok_bind, pure, Except.pure, hposition]
    rw [fetch_eq_ok_iff, ← Array.getElem?_toList, getElem?_quantileScore hne hi, Option.some_inj, eq_comm]
  · simp [hword, bind, Except.bind]

/-- The least score is the quantile of no parts. -/
theorem quantiles_eq_mapM (hne : 0 < sorted.size) :
    quantiles sorted = (List.range (quantileParts + 1)).mapM (quantile sorted) := by
  have hleast : quantile sorted 0 = fetch sorted 0 := by
    simp [quantile, quantilePosition, mulWords, wordLimit, UInt64.size]
  have hnonempty : ¬ sorted.isEmpty = true := by
    simpa [Array.isEmpty_iff_size_eq_zero] using hne.ne'
  rw [quantiles, if_neg hnonempty, List.range_eq_range', List.range'_succ, List.mapM_cons, hleast]

/-- **The scores that are reported** are those at the ranks of the quantiles, and they are reported as
long as no product with a number of parts overflows. -/
theorem quantiles_eq_ok_iff (hne : 0 < sorted.size) :
    quantiles sorted = .ok qs ↔ quantileParts * sorted.size < wordLimit ∧
      qs = (List.range (quantileParts + 1)).map (quantileScore sorted hne) := by
  have hsteps : ∀ i ∈ List.range (quantileParts + 1), ∀ q,
      quantile sorted i = .ok q ↔ i * sorted.size < wordLimit ∧ q = quantileScore sorted hne i :=
    fun i hi q => quantile_eq_ok_iff hne (Nat.le_of_lt_succ (List.mem_range.1 hi))
  rw [quantiles_eq_mapM hne, mapM_eq_ok_iff hsteps]
  refine and_congr_left fun _ => ?_
  constructor
  · intro hall
    exact hall quantileParts List.self_mem_range_succ
  · -- the last product is the largest
    intro hword i hi
    have hle : i ≤ quantileParts := Nat.le_of_lt_succ (List.mem_range.1 hi)
    exact (Nat.mul_le_mul_right _ hle).trans_lt hword

theorem exists_quantiles_iff (hne : 0 < sorted.size) :
    (∃ qs, quantiles sorted = .ok qs) ↔ quantileParts * sorted.size < wordLimit := by
  simp [quantiles_eq_ok_iff hne]

/-- What is reported about scores: some of them, in order, from the least one to the greatest. -/
structure Summary (le : W → W → Prop) (scores qs : List W) : Prop where
  length : qs.length = quantileParts + 1
  sorted : qs.Pairwise le
  mem : ∀ q ∈ qs, q ∈ scores
  least : ∃ q, qs.head? = some q ∧ ∀ s ∈ scores, le q s
  greatest : ∃ q, qs.getLast? = some q ∧ ∀ s ∈ scores, le s q

section Summaries

variable {le lt : W → W → Prop}

/-- Scores at ranks of a sorted list are in its order; the first of them has the least rank and the
last one the greatest. -/
theorem summary_of_quantiles (h : Ascending le lt sorted.toList) (hne : 0 < sorted.size)
    (hqs : quantiles sorted = .ok qs) : Summary le sorted.toList qs := by
  obtain ⟨-, rfl⟩ := (quantiles_eq_ok_iff hne).1 hqs
  -- all that follows compares places in the sorted list
  have hscore : ∀ i ≤ quantileParts,
      sorted.toList[quantileRank sorted.size i - 1]? = some (quantileScore sorted hne i) :=
    fun i hi => getElem?_quantileScore hne hi
  exact {
    length := by simp
    sorted := by
      apply List.pairwise_map.2
      apply List.pairwise_lt_range.imp_of_mem
      intro i j _ hj hij
      have hj' : j ≤ quantileParts := Nat.le_of_lt_succ (List.mem_range.1 hj)
      exact h.le_of_place_le (hscore i (hij.le.trans hj')) (hscore j hj')
        (Nat.sub_le_sub_right (quantileRank_mono _ hij.le) 1)
    mem := by
      intro q hq
      obtain ⟨i, hi, rfl⟩ := List.mem_map.1 hq
      exact List.mem_of_getElem? (hscore i (Nat.le_of_lt_succ (List.mem_range.1 hi)))
    least := by
      refine ⟨quantileScore sorted hne 0, rfl, fun s hs => ?_⟩
      obtain ⟨k, hk⟩ := List.getElem?_of_mem hs
      apply h.le_of_place_le (hscore 0 (Nat.zero_le _)) hk
      simp [quantileRank_zero]
    greatest := by
      refine ⟨quantileScore sorted hne quantileParts, by simp [List.range_succ], fun s hs => ?_⟩
      obtain ⟨k, hk⟩ := List.getElem?_of_mem hs
      have hlt : k < sorted.size := by simpa using (List.getElem?_eq_some_iff.1 hk).1
      apply h.le_of_place_le hk (hscore quantileParts le_rfl)
      rw [quantileRank_parts hne]
      exact Nat.le_sub_one_of_lt hlt }

end Summaries

/-- **The quantiles that are reported** have the ranks of quantiles, rounded down: in the order of
sorting whatever the scores are, and in their own order if all of them are numbers. -/
theorem quantiles_ranked {sorted : Array LogWeight} (hne : 0 < sorted.size) :
    ((∃ qs, quantiles sorted = .ok qs) ↔ quantileParts * sorted.size < wordLimit) ∧
    ∀ qs, quantiles sorted = .ok qs → ∀ i, 1 ≤ i → i ≤ quantileParts → ∃ q, qs[i]? = some q ∧
      (sorted.toList.Pairwise Weight.NotAfter →
        Ranked Weight.NotAfter Weight.Before sorted.toList i q) ∧
      (sorted.toList.Pairwise (· ≤ ·) → (∀ s ∈ sorted, s.value.isNaN = false) →
        Ranked (· ≤ ·) (· < ·) sorted.toList i q) := by
  refine ⟨exists_quantiles_iff hne, fun qs hqs i hi hi' => ?_⟩
  obtain ⟨-, rfl⟩ := (quantiles_eq_ok_iff hne).1 hqs
  have hq : sorted.toList[quantileRank sorted.toList.length i - 1]? =
      some (quantileScore sorted hne i) := getElem?_quantileScore hne hi'
  refine ⟨quantileScore sorted hne i, by simp [Nat.lt_succ_of_le hi'], fun hsorted => ?_,
    fun hsorted hnumbers => ?_⟩
  · exact (LogWeight.orderedOn.ascending hsorted).ranked hi hi' hq
  · have hnumbers : ∀ s ∈ sorted.toList, s.value.isNaN = false := fun s hs =>
      hnumbers s (Array.mem_toList_iff.1 hs)
    exact (LogWeight.ascending hsorted hnumbers).ranked hi hi' hq

/-- Four numbers, two of them equal. -/
theorem quantiles_ranked_four :
    let w := LogWeight.ofFloat
    let sorted := #[w (-1), w 0.5, w 0.5, w 3]
    0 < sorted.size ∧ ∃ qs, quantiles sorted = .ok qs ∧
      ∀ i, 1 ≤ i → i ≤ quantileParts → ∃ q, qs[i]? = some q ∧
        Ranked Weight.NotAfter Weight.Before sorted.toList i q ∧
        Ranked (· ≤ ·) (· < ·) sorted.toList i q := by
  intro w sorted
  have hne : 0 < sorted.size := by decide
  obtain ⟨hexists, hranked⟩ := quantiles_ranked hne
  obtain ⟨qs, hqs⟩ := hexists.2 (by decide)
  refine ⟨hne, qs, hqs, fun i hi hi' => ?_⟩
  obtain ⟨q, hq, hsorting, hnumbers⟩ := hranked qs hqs i hi hi'
  exact ⟨q, hq, hsorting (by decide), hnumbers (by decide) (by decide)⟩

/-- Of three scores the half quantile should be the second one, but the first one is reported: only one
of the three is at most as large. -/
theorem quantiles_round_down :
    let w := LogWeight.ofFloat
    ∃ qs, quantiles #[w 1, w 2, w 3] = .ok qs ∧ qs[10]? = some (w 1) ∧
      [w 1, w 2, w 3].Pairwise (· ≤ ·) ∧ [w 1, w 2, w 3].Pairwise Weight.NotAfter ∧
      ¬ IsQuantile (· ≤ ·) (· < ·) [w 1, w 2, w 3] 10 (w 1) ∧
      ¬ IsQuantile Weight.NotAfter Weight.Before [w 1, w 2, w 3] 10 (w 1) := by
  intro w
  have hne : 0 < #[w 1, w 2, w 3].size := by decide
  refine ⟨_, (quantiles_eq_ok_iff hne).2 ⟨by decide, rfl⟩, ?_, by decide, by decide, ?_, ?_⟩
  · simp [quantileScore, quantileRank, quantileParts]
  · intro h
    exact absurd h.reached (by decide)
  · intro h
    exact absurd h.reached (by decide)

end PairedMarkov
