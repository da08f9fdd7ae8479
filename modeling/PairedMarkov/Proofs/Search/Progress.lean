import PairedMarkov.Proofs.LogWeight
import PairedMarkov.Proofs.Search.Course

/-!
# The progress of a search

The best assignment of a search changes at two places of each iteration, and only for one with a larger
objective score. So the records that a search writes tell its whole story: their scores never
decrease, the last one is the score of the answer, and the first one with that score was written at the
width of the answer. A search up to a larger width begins with the same records and goes on from there.

No law of arithmetic is used, only the order of doubles.

Main statement: `Search.search_progresses`.
-/

namespace PairedMarkov.Search

variable {σ : Type}

/-! ## Section 1: One iteration -/

/-- From a standing to a later one at a width, the best assignment has stayed, or one with a larger
objective score has taken its place. -/
inductive Improves (width : ℕ) (v v' : Standing LogWeight σ) : Prop
  | stays (hbest : v'.best = v.best) (hfound : v'.found = v.found) (hwidth : v'.width = v.width)
  | rises (hbest : v.best < v'.best) (hfound : v'.found.isSome = true) (hwidth : v'.width = width)

variable {width : ℕ} {v v₁ v' : Standing LogWeight σ}

theorem Improves.trans (h : Improves width v v₁) (h' : Improves width v₁ v') :
    Improves width v v' := by
  cases h with
  | stays hbest hfound hwidth =>
    cases h' with
    | stays hbest' hfound' hwidth' =>
      exact .stays (hbest'.trans hbest) (hfound'.trans hfound) (hwidth'.trans hwidth)
    | rises hbest' hfound' hwidth' => exact .rises (hbest ▸ hbest') hfound' hwidth'
  | rises hbest hfound hwidth =>
    cases h' with
    | stays hbest' hfound' hwidth' =>
      exact .rises (hbest' ▸ hbest) (hfound' ▸ hfound) (hwidth'.trans hwidth)
    | rises hbest' hfound' hwidth' => exact .rises (LogWeight.lt_trans hbest hbest') hfound' hwidth'

theorem improves_offer (v : Standing LogWeight σ) (reaches : Option LogWeight) :
    Improves width v (v.offer width reaches) := by
  cases reaches with
  | none => exact .stays rfl rfl rfl
  | some objective =>
    rw [Standing.offer]
    split
    · next hbetter => exact .rises hbetter rfl rfl
    · exact .stays rfl rfl rfl

theorem improves_place_offer (v : Standing LogWeight σ) (x : Assignment) (source : σ)
    (reaches : Option LogWeight) : Improves width v ((v.place x source).offer width reaches) := by
  have hplace : Improves width v (v.place x source) := .stays rfl rfl rfl
  exact hplace.trans (improves_offer (v.place x source) reaches)

variable {terrain : Terrain LogWeight} {effort : Effort} {d : Decomposition} {b : Buckets}
  {aggregates aggregates' : List (Aggregate LogWeight)}

theorem improves_iterate [Random.Source σ]
    (h : Standing.iterate terrain effort width d b aggregates v = .ok (aggregates', v')) :
    Improves width v v' := by
  obtain ⟨⟨change, x, source⟩, -, hfilling⟩ := bind_eq_ok_iff.1 h
  obtain ⟨f, -, hresult⟩ := bind_eq_ok_iff.1 hfilling
  cases hresult
  exact (improves_place_offer v x source _).trans (improves_place_offer _ _ _ _)

/-! ## Section 2: The records tell the story -/

/-- What the records that a search has written say about its best assignment. -/
structure Chronicle (records : List (Progress LogWeight)) (v : Standing LogWeight σ) : Prop where
  number : (v.best == v.best) = true
  sorted : records.Pairwise fun r r' => r.best ≤ r'.best
  bounded : ∀ r ∈ records, r.best ≤ v.best
  last : ∀ r ∈ records.getLast?, r.best = v.best
  first : v.found.isSome = true →
    ∃ r, records.find? (·.best == v.best) = some r ∧ r.width = v.width

variable {records later : List (Progress LogWeight)} {widths : List ℕ} {count : ℕ}

theorem Chronicle.start (domains : Domains) (source : σ) :
    Chronicle [] (State.start domains source : State LogWeight σ).standing where
  number := by
    show (Weight.lowest == (Weight.lowest : LogWeight)) = true
    decide
  sorted := .nil
  bounded := by simp
  last := by simp
  first := by intro h; cases h

/-- Another record after an iteration. -/
theorem Chronicle.write (h : Chronicle records v) (himproves : Improves width v v') :
    Chronicle (records ++ [v'.record terrain width]) v' := by
  have hrecord : (v'.record terrain width).best = v'.best := rfl
  -- all scores before are at or below the one that is written
  have hwritten : (v'.best == v'.best) = true ∧ ∀ r ∈ records, r.best ≤ v'.best := by
    cases himproves with
    | stays hbest =>
      rw [hbest]
      exact ⟨h.number, h.bounded⟩
    | rises hbest =>
      refine ⟨LogWeight.beq_self_of_lt hbest, fun r hr => ?_⟩
      exact LogWeight.le_of_lt (LogWeight.lt_of_le_of_lt (h.bounded r hr) hbest)
  refine ⟨hwritten.1, ?_, ?_, ?_, fun hfound => ?_⟩
  · refine List.pairwise_append.2 ⟨h.sorted, List.pairwise_singleton _ _, fun r hr r' hr' => ?_⟩
    rw [List.mem_singleton.1 hr']
    exact hwritten.2 r hr
  · intro r hr
    rcases List.mem_append.1 hr with hold | hnew
    · exact hwritten.2 r hold
    · rw [List.mem_singleton.1 hnew]
      exact LogWeight.le_self_of_beq hwritten.1
  · intro r hr
    rw [List.getLast?_concat] at hr
    cases hr
    rfl
  · rw [List.find?_append]
    cases himproves with
    | stays hbest hsame hwidth =>
      obtain ⟨r, hr, hrwidth⟩ := h.first (hsame ▸ hfound)
      rw [hbest, hr, hwidth]
      exact ⟨r, rfl, hrwidth⟩
    | rises hbest _ hwidth =>
      have hnone : records.find? (·.best == v'.best) = none := by
        refine List.find?_eq_none.2 fun r hr => ?_
        exact LogWeight.not_beq_of_lt (LogWeight.lt_of_le_of_lt (h.bounded r hr) hbest)
      refine ⟨v'.record terrain width, ?_, hwidth.symm⟩
      rw [hnone, Option.none_or, List.find?_singleton, hrecord, if_pos hwritten.1]

/-- A part of a search has gone on with the records, one for each of the widths. -/
structure Advances (records : List (Progress LogWeight)) (widths : List ℕ)
    (later : List (Progress LogWeight)) (v v' : Standing LogWeight σ) : Prop where
  chronicle : Chronicle (records ++ later) v'
  widths : later.map (·.width) = widths
  grows : v.best ≤ v'.best

theorem Advances.refl (h : Chronicle records v) : Advances records [] [] v v where
  chronicle := by rwa [List.append_nil]
  widths := rfl
  grows := LogWeight.le_self_of_beq h.number

theorem Advances.trans {widths' : List ℕ} {later' : List (Progress LogWeight)}
    (h : Advances records widths later v v₁) (h' : Advances (records ++ later) widths' later' v₁ v') :
    Advances records (widths ++ widths') (later ++ later') v v' where
  chronicle := by
    rw [← List.append_assoc]
    exact h'.chronicle
  widths := by rw [List.map_append, h.widths, h'.widths]
  grows := LogWeight.le_trans h.grows h'.grows

variable [Random.Source σ]

theorem advances_iterate (h : Chronicle records v)
    (hrun : Standing.iterate terrain effort width d b aggregates v = .ok (aggregates', v')) :
    Advances records [width] [v'.record terrain width] v v' where
  chronicle := h.write (improves_iterate hrun)
  widths := rfl
  grows := by
    cases improves_iterate hrun with
    | stays hbest =>
      rw [hbest]
      exact LogWeight.le_self_of_beq h.number
    | rises hbest => exact LogWeight.le_of_lt hbest

theorem advances_iterations (h : Chronicle records v)
    (hrun : Standing.iterations terrain effort width d b count aggregates v = .ok (later, v')) :
    Advances records (List.replicate count width) later v v' := by
  induction count generalizing records aggregates v later with
  | zero =>
    cases hrun
    exact .refl h
  | succ count ih =>
    obtain ⟨⟨aggregates', v₁⟩, hiterate, hrest⟩ := bind_eq_ok_iff.1 hrun
    obtain ⟨⟨later', last⟩, hlater, hresult⟩ := bind_eq_ok_iff.1 hrest
    cases hresult
    have hfirst := advances_iterate h hiterate
    exact hfirst.trans (ih hfirst.chronicle hlater)

theorem advances_openWidth {opened : Decomposition × Buckets × List (Aggregate LogWeight)}
    (h : Chronicle records v) (hrun : Standing.openWidth terrain width v = .ok (opened, v')) :
    Advances records [] [] v v' := by
  obtain ⟨d, -, hrun⟩ := bind_eq_ok_iff.1 hrun
  obtain ⟨b, -, hrun⟩ := bind_eq_ok_iff.1 hrun
  obtain ⟨⟨x, source⟩, -, hrun⟩ := bind_eq_ok_iff.1 hrun
  obtain ⟨aggregates, -, hresult⟩ := bind_eq_ok_iff.1 hrun
  cases hresult
  -- the values and the source do not matter
  have hplaced : Chronicle records (v.place x source) :=
    ⟨h.number, h.sorted, h.bounded, h.last, h.first⟩
  exact ⟨(Advances.refl hplaced).chronicle, rfl, LogWeight.le_self_of_beq h.number⟩

theorem advances_atWidths (h : Chronicle records v)
    (hrun : Standing.atWidths terrain effort count widths v = .ok (later, v')) :
    Advances records (widths.flatMap (List.replicate count)) later v v' := by
  induction widths generalizing records v later with
  | nil =>
    cases hrun
    exact .refl h
  | cons width widths ih =>
    obtain ⟨⟨first, v₁⟩, hwidth, hrest⟩ := bind_eq_ok_iff.1 hrun
    obtain ⟨⟨⟨d, b, aggregates⟩, v₀⟩, hopen, hiterations⟩ := bind_eq_ok_iff.1 hwidth
    obtain ⟨⟨later', last⟩, hlater, hresult⟩ := bind_eq_ok_iff.1 hrest
    cases hresult
    have hopened := advances_openWidth h hopen
    have hfirst := hopened.trans (advances_iterations hopened.chronicle hiterations)
    exact hfirst.trans (ih hfirst.chronicle hlater)

/-! ## Section 3: Searches -/

/-- Up to a larger width there are the same widths first. -/
theorem Parameters.oddWidths_prefix {W : Type} (parameters : Parameters W) {maxWidth : ℕ}
    (h : parameters.maxWidth ≤ maxWidth) :
    parameters.oddWidths <+: { parameters with maxWidth }.oddWidths := by
  obtain ⟨k, hk⟩ := Nat.exists_eq_add_of_le (Nat.div_le_div_right (c := 2) (Nat.succ_le_succ h))
  have hrange : List.range ((parameters.maxWidth + 1) / 2) <+: List.range ((maxWidth + 1) / 2) := by
    rw [hk, List.range_add]
    exact List.prefix_append _ _
  exact hrange.map _

open Journal (surroundings)

/-- A search comes to its end with an answer and a journal: it began in the start state, its clock never
went back and never kept it from an iteration, and there was room for all records. -/
inductive Completes (p : Problem LogWeight) (parameters : Parameters LogWeight) (source : σ)
    (e : Explanation LogWeight) (j : Journal LogWeight) : Prop
  | mk {t : Setup LogWeight} {clock : ℕ → Duration} {s : State LogWeight σ}
    (hsetup : Setup.ofProblem p parameters = .ok t) (hclock : Monotone clock)
    (hunhurried : Unhurried surroundings t (State.start p.domains source) { clock })
    (hrun : Journal.runSearch t (State.start p.domains source) { clock } = (.ok e, s, j)) :
    Completes p parameters source e j

variable {p : Problem LogWeight} {parameters : Parameters LogWeight} {source : σ}
  {e : Explanation LogWeight} {j : Journal LogWeight} {m : ℕ}

/-- A search that comes to its end has followed a course that no clock enters: its records without
their times, and its answer, are those of the course. -/
theorem Completes.exists_course (h : Completes p parameters source e j)
    (hcap : parameters.maxIterations = some m) (hinterval : parameters.interval = 0) :
    ∃ terrain v, Terrain.ofProblem p parameters.threshold = .ok terrain ∧
      Standing.atWidths terrain parameters.effort m parameters.oddWidths
        (State.start p.domains source).standing = .ok (j.untimed, v) ∧
      e.objective = v.best ∧ e.assignment = v.found ∧ e.width = v.width := by
  obtain @⟨t, clock, s, hsetup, hclock, hunhurried, hrun⟩ := h
  obtain ⟨terrain, hterrain, hpure⟩ := bind_eq_ok_iff.1 hsetup
  cases hpure
  have hthreshold : terrain.threshold = parameters.threshold := by
    obtain ⟨_, -, hrest⟩ := bind_eq_ok_iff.1 hterrain
    obtain ⟨_, -, hpure⟩ := bind_eq_ok_iff.1 hrest
    cases hpure
    rfl
  have hends : (search surroundings ⟨terrain, parameters⟩).runOn (State.start p.domains source)
      { clock } = ((.ok e, s), j) := Journal.runSearch_eq_iff.1 hrun
  obtain ⟨widths, records, v, hwidths, hcourse, hrecords, hanswer⟩ :=
    gives_search ⟨hinterval, hthreshold⟩ hunhurried rfl hclock _ _ _ hends
  have hm : parameters.iterationCap = m := by rw [Parameters.iterationCap, hcap, Option.getD_some]
  rw [Parameters.eq_oddWidths_of_widths hwidths, hm] at hcourse
  obtain rfl : j.untimed = records := hrecords
  exact ⟨terrain, v, hterrain, hcourse, hanswer⟩

/-- **Progress is monotone and searches extend.** There are records of each iteration at each width in
turn, with scores that never decrease, from the first one with the score of the answer, at the width of
the answer, up to the last one. The search up to a larger width begins with the same records, whatever
its clock shows, and its answer is at least as good. -/
theorem search_progresses (hcap : parameters.maxIterations = some m) (hinterval : parameters.interval = 0)
    (h : Completes p parameters source e j) :
    (j.records.toList.map (·.width) = parameters.oddWidths.flatMap (List.replicate m) ∧
      j.records.toList.Pairwise (fun r r' => r.best ≤ r'.best) ∧
      (∀ r ∈ j.records.toList.getLast?, r.best = e.objective) ∧
      (e.assignment.isSome = true →
        ∃ r, j.records.toList.find? (·.best == e.objective) = some r ∧ r.width = e.width)) ∧
    ∀ {maxWidth : ℕ} {e' : Explanation LogWeight} {j' : Journal LogWeight},
      parameters.maxWidth ≤ maxWidth →
      Completes p { parameters with maxWidth } source e' j' →
        j.untimed <+: j'.untimed ∧ e.objective ≤ e'.objective := by
  obtain ⟨terrain, v, hterrain, hcourse, hobjective, hassignment, hwidth⟩ :=
    h.exists_course hcap hinterval
  have hadvances := advances_atWidths (Chronicle.start p.domains source) hcourse
  have hchronicle : Chronicle (j.records.toList.map Progress.untimed) v := hadvances.chronicle
  refine ⟨⟨?_, ?_, fun r hr => ?_, fun hfound => ?_⟩, fun {maxWidth e' j'} hle h' => ?_⟩
  · rw [← hadvances.widths, Journal.untimed, List.map_map]
    rfl
  · exact (List.pairwise_map (f := Progress.untimed)).1 hchronicle.sorted
  · rw [hobjective]
    refine hchronicle.last r.untimed ?_
    rw [List.getLast?_map, hr]
    rfl
  · obtain ⟨r, hr, hrwidth⟩ := hchronicle.first (hassignment ▸ hfound)
    rw [List.find?_map] at hr
    obtain ⟨r₀, hr₀, rfl⟩ := Option.map_eq_some_iff.1 hr
    rw [hobjective, hwidth]
    exact ⟨r₀, hr₀, hrwidth⟩
  · obtain ⟨terrain', v', hterrain', hcourse', hobjective', -⟩ := h'.exists_course hcap hinterval
    obtain rfl := Except.ok.inj (hterrain.symm.trans hterrain')
    obtain ⟨more, hmore⟩ := parameters.oddWidths_prefix hle
    -- the longer search goes through the same widths first, with the same course
    rw [← hmore, Standing.atWidths_append] at hcourse'
    obtain ⟨⟨records, v₁⟩, hfirst, hrest⟩ := bind_eq_ok_iff.1 hcourse'
    obtain ⟨⟨later, v₂⟩, hlater, hresult⟩ := bind_eq_ok_iff.1 hrest
    cases hcourse.symm.trans hfirst
    have hgrows := (advances_atWidths hadvances.chronicle hlater).grows
    obtain ⟨hrecords, hlast⟩ := Prod.mk.inj (Except.ok.inj hresult)
    rw [hobjective, hobjective', ← hrecords, ← hlast]
    exact ⟨List.prefix_append _ _, hgrows⟩

/-- Two iterations at the only width. -/
theorem search_progresses_twice :
    let p : Problem LogWeight :=
      { domains := #[2, 1]
        constraint := ⟨#[⟨[0, 1], #[.ofFloat 0.0, .ofFloat 5.0]⟩]⟩
        objective := ⟨#[⟨[0], #[.ofFloat 3.0, .ofFloat 1.0]⟩]⟩ }
    let parameters : Parameters LogWeight :=
      { maxWidth := 1, threshold := .ofFloat 1.0, interval := 0, maxIterations := some 2 }
    parameters.maxIterations = some 2 ∧ parameters.interval = 0 ∧
      ∃ (e : Explanation LogWeight) (j : Journal LogWeight),
        Completes p parameters (⟨3, 5⟩ : Random.Progression) e j ∧ e.assignment.isSome = true ∧
        j.records.toList.map (·.width) = [1, 1] ∧
        ∃ r, j.records.toList.find? (·.best == e.objective) = some r ∧ r.width = e.width := by
  intro p parameters
  have hruns : (match Setup.ofProblem p parameters with
      | .ok t =>
        match Journal.runSearch t (State.start p.domains (⟨3, 5⟩ : Random.Progression))
          { clock := fun _ => 0 } with
        | (.ok e, _, _) => e.assignment.isSome
        | _ => false
      | .error _ => false) = true := by decide +kernel
  have hodd : parameters.oddWidths.flatMap (List.replicate 2) = [1, 1] := by decide
  split at hruns
  · rename_i t hsetup
    split at hruns
    · rename_i e s j hsearch
      have hlate : ∀ _ : ℕ, 0 < t.parameters.timePerWidth := by
        obtain ⟨terrain, -, hpure⟩ := bind_eq_ok_iff.1 hsetup
        cases hpure
        intro _
        show 0 < Duration.ofSeconds 1200
        decide
      have hcompletes := Completes.mk hsetup monotone_const (unhurried_of_clock_lt hlate) hsearch
      obtain ⟨⟨hwidths, -, -, hfirst⟩, -⟩ := search_progresses rfl rfl hcompletes
      exact ⟨rfl, rfl, e, j, hcompletes, hruns, hwidths.trans hodd, hfirst hruns⟩
    · cases hruns
  · cases hruns

end PairedMarkov.Search
