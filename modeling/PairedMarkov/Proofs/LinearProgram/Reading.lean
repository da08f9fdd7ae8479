import PairedMarkov.Proofs.LinearProgram.Numbers
import PairedMarkov.Proofs.LinearProgram.Rows

/-!
# The text of a linear program read back

The text of a program has one line for each heading, row and variable, and the words of a row say
what it is: its name with a colon, a coefficient and a name for each term, the comparison and the
bound. Reading by this layout gives a program with rational numbers. It has the same rows, names,
comparisons and variables in the same order, whatever the program is, as long as its names are words.

The numbers are not the same. Coefficients differ by less than a billionth. A bound that is almost
whole is written as a signed word, so that a bound beyond the range of these is read back as the first
or the last of them. A threshold can be such a bound.

Main statements:
- `LinearProgram.exists_read_text`, what is read back from the text of any legible program;
- `LinearProgram.exists_read_problem`, the program of a valid problem with numbers as entries: all its
  numbers are read back within a billionth exactly if the threshold is in the range of signed words.
-/

namespace PairedMarkov

namespace LinearProgram

/-! ## Section 1: The layout -/

/-- The lines of a text; what stands behind the last line break is one too. -/
def lines (s : String) : List String := (s.toList.splitOn '\n').map String.ofList

/-- The lines before a heading, and those behind it. -/
def upTo (heading : String) : List String → Option (List String × List String)
  | [] => none
  | line :: rest =>
    if line = heading then some ([], rest)
    else (upTo heading rest).map fun (above, below) => (line :: above, below)

/-- Terms are a coefficient and a name each. -/
def readTerms : List String → Option (LinearForm ℚ)
  | [] => some []
  | coefficient :: name :: words => do
    let q ← Decimal.number? coefficient
    return ⟨name, q⟩ :: (← readTerms words)
  | [_] => none

/-- A form is made of terms; a zero without a name is the form that has none. -/
def readForm : List String → Option (LinearForm ℚ)
  | [constant] => if Decimal.number? constant = some 0 then some [] else none
  | words => readTerms words

/-- How the sides of a row are compared. -/
def readSense (word : String) : Option Sense :=
  if word = "<=" then some .atMost else if word = "=" then some .equal else none

/-- A name with a colon behind it. -/
def readLabel (word : String) : Option String :=
  match word.toList.reverse with
  | ':' :: name => some (String.ofList name.reverse)
  | _ => none

/-- A row is a name, a form, a comparison and a bound. -/
def readRow (line : String) : Option (Row ℚ) :=
  match Text.words line with
  | [] => none
  | label :: words =>
    match words.reverse with
    | bound :: sense :: form => do
      return {
        name := ← readLabel label
        form := ← readForm form.reverse
        sense := ← readSense sense
        bound := ← Decimal.number? bound }
    | _ => none

/-- The objective is a name and a form. -/
def readObjective (line : String) : Option (LinearForm ℚ) :=
  match Text.words line with
  | [] => none
  | label :: words => if label = "obj:" then readForm words else none

/-- A variable is a name alone. -/
def readName (line : String) : Option String :=
  match Text.words line with
  | [name] => some name
  | _ => none

/-- The program that a text stands for. -/
def read (text : String) : Option (LinearProgram ℚ) := do
  let (before, rest) ← upTo "Maximize" (lines text)
  let (objective, rest) ← upTo "Subject To" rest
  let (rows, rest) ← upTo "Binary" rest
  let (names, rest) ← upTo "End" rest
  if before = [] ∧ objective.length = 1 ∧ rest = [""] then
    return {
      objective := (← objective.mapM readObjective).flatten
      rows := ← rows.mapM readRow
      binaries := ← names.mapM readName }
  else none

/-! ## Section 2: What is read back -/

/-- A number that is read back differs from what it was by less than a billionth. -/
def Near (x : LogWeight) (q : ℚ) : Prop := |q - Double.exact x.value| < 1 / 10 ^ 9

/-- The variable is the same, and the coefficient near to what it was. -/
structure TermReadAs (t : Term LogWeight) (t' : Term ℚ) : Prop where
  name : t'.name = t.name
  coefficient : Near t.coefficient t'.coefficient

/-- The name, the comparison and the variables are the same and in order, and the bound is near to the
nearest number in the range of signed words. -/
structure RowReadAs (row : Row LogWeight) (row' : Row ℚ) : Prop where
  name : row'.name = row.name
  form : List.Forall₂ TermReadAs row.form row'.form
  sense : row'.sense = row.sense
  bound : |row'.bound - saturated (Double.exact row.bound.value)| < 1 / 10 ^ 9

/-- The rows and variables are the same and in order. -/
structure ReadAs (lp : LinearProgram LogWeight) (lp' : LinearProgram ℚ) : Prop where
  objective : List.Forall₂ TermReadAs lp.objective lp'.objective
  rows : List.Forall₂ RowReadAs lp.rows lp'.rows
  binaries : lp'.binaries = lp.binaries

/-! ## Section 3: The words of a line -/

/-- The words of a form. -/
def formWords (form : LinearForm LogWeight) : List String :=
  if form.isEmpty then ["+0"] else form.flatMap fun t => [coefficientText t.coefficient, t.name]

/-- The words of a row. -/
def rowWords (row : Row LogWeight) : List String :=
  (row.name ++ ":") :: (formWords row.form ++ [row.sense.text, boundText row.bound])

/-- Parts with a blank between them and one before them. -/
theorem space_append_intercalate {parts : List String} (h : parts ≠ []) :
    " " ++ " ".intercalate parts = String.join (parts.map (" " ++ ·)) := by
  induction parts with
  | nil => exact absurd rfl h
  | cons part parts ih =>
    cases parts with
    | nil => simp
    | cons next parts =>
      rw [String.intercalate_cons_cons, List.map_cons, String.join_cons, ← ih (by simp)]
      simp [String.append_assoc]

theorem join_termTexts (form : LinearForm LogWeight) :
    String.join ((form.map Term.text).map (" " ++ ·)) =
      Text.spaced (form.flatMap fun t => [coefficientText t.coefficient, t.name]) := by
  induction form with
  | nil => rfl
  | cons t form ih =>
    rw [List.map_cons, List.map_cons, String.join_cons, ih, List.flatMap_cons, Text.spaced_append,
      Text.spaced_cons, Text.spaced_cons, Text.spaced_nil]
    simp [Term.text, toString, String.append_assoc]

theorem space_append_formText (form : LinearForm LogWeight) :
    " " ++ LinearForm.text form = Text.spaced (formWords form) := by
  rw [LinearForm.text, formWords]
  split
  · rfl
  · rename_i hne
    rw [space_append_intercalate (by simpa using hne), join_termTexts]

theorem rowText_eq (row : Row LogWeight) : row.text = Text.spaced (rowWords row) ++ "\n" := by
  rw [rowWords, Text.spaced_cons, Text.spaced_append, ← space_append_formText, Text.spaced_cons,
    Text.spaced_cons, Text.spaced_nil]
  have hcolon (s : String) : ":" ++ (" " ++ s) = ": " ++ s := by
    rw [← String.append_assoc]
    rfl
  simp [Row.text, toString, hcolon, String.append_assoc]

/-- The lines of the text of a program. -/
def textLines (lp : LinearProgram LogWeight) : List String :=
  "Maximize" :: Text.spaced ("obj:" :: formWords lp.objective) :: "Subject To" ::
    (lp.rows.map (fun row => Text.spaced (rowWords row)) ++ "Binary" ::
      (lp.binaries.map (fun name => Text.spaced [name]) ++ ["End"]))

/-- The text of a program is its lines, each with a line break behind it. -/
theorem text_eq (lp : LinearProgram LogWeight) :
    lp.text = String.join ((textLines lp).map (· ++ "\n")) := by
  have hobjective : Text.spaced ("obj:" :: formWords lp.objective) =
      " obj: " ++ LinearForm.text lp.objective := by
    rw [Text.spaced_cons, ← space_append_formText]
    simp [← String.append_assoc]
  have hrows : lp.rows.map Row.text = lp.rows.map fun row => Text.spaced (rowWords row) ++ "\n" :=
    List.map_congr_left fun row _ => rowText_eq row
  have hbinaries : (lp.binaries.map fun name => s!" {name}\n") =
      lp.binaries.map fun name => Text.spaced [name] ++ "\n" := by
    refine List.map_congr_left fun name _ => ?_
    rw [Text.spaced_cons, Text.spaced_nil, String.append_empty]
    rfl
  have hheading : "Maximize\n obj: " = "Maximize" ++ ("\n" ++ " obj: ") := rfl
  have htext : lp.text = "Maximize\n obj: " ++ LinearForm.text lp.objective ++ "\n" ++
      ("Subject To" ++ "\n") ++ String.join (lp.rows.map Row.text) ++ ("Binary" ++ "\n") ++
      String.join (lp.binaries.map fun name => s!" {name}\n") ++ ("End" ++ "\n") := rfl
  rw [htext, hheading, hrows, hbinaries, textLines, hobjective]
  simp only [List.map_cons, List.map_append, List.map_map, Function.comp_def, List.map_nil,
    String.join_cons, String.join_append, String.join_nil, String.append_assoc, String.append_empty]

/-! ## Section 4: Lines -/

/-- Breaking at line breaks undoes joining lines; behind the last break there is an empty line. -/
theorem lines_join {ls : List String} (h : ∀ l ∈ ls, '\n' ∉ l.toList) :
    lines (String.join (ls.map (· ++ "\n"))) = ls ++ [""] := by
  induction ls with
  | nil => rfl
  | cons l ls ih =>
    obtain ⟨hl, hls⟩ := List.forall_mem_cons.1 h
    have ih := ih hls
    rw [lines] at ih
    have hbreak : ∀ c ∈ l.toList, (c == '\n') = false := by
      intro c hc
      simpa using fun heq : c = '\n' => hl (heq ▸ hc)
    have hsplit : (String.join ((l :: ls).map (· ++ "\n"))).toList =
        l.toList ++ '\n' :: (String.join (ls.map (· ++ "\n"))).toList := by
      rw [List.map_cons, String.join_cons, String.toList_append, String.toList_append,
        List.append_assoc]
      rfl
    -- the first break is the one behind the first line
    rw [lines, hsplit, List.splitOn, List.splitOnP_append_cons_of_forall_mem hbreak _ (by decide),
      List.map_cons, String.ofList_toList]
    exact congrArg (l :: ·) ih

theorem upTo_append {heading : String} {above below : List String} (h : heading ∉ above) :
    upTo heading (above ++ heading :: below) = some (above, below) := by
  induction above with
  | nil => simp [upTo]
  | cons line above ih =>
    obtain ⟨hne, habove⟩ := List.ne_and_not_mem_of_not_mem_cons h
    rw [List.cons_append, upTo, if_neg (Ne.symm hne), ih habove, Option.map_some]

theorem break_notMem_spaced {ws : List String} (h : ∀ w ∈ ws, Text.IsWord w) :
    '\n' ∉ (Text.spaced ws).toList := by
  intro hmem
  rcases Text.mem_toList_spaced h hmem with hspace | hblank
  · exact absurd hspace (by decide)
  · exact absurd hblank (by decide)

/-- A line of words begins with a blank, and no heading does. -/
theorem heading_notMem_map {α : Type} {heading : String} (h : heading.toList.head? ≠ some ' ')
    (first : α → String) (others : α → List String) (l : List α) :
    heading ∉ l.map fun a => Text.spaced (first a :: others a) := by
  rw [List.mem_map]
  rintro ⟨a, -, rfl⟩
  rw [Text.toList_spaced] at h
  exact h rfl

/-- Each section of a text is read for itself. -/
theorem read_eq {text line : String} {rowLines nameLines : List String}
    (hlines : lines text = [] ++ "Maximize" :: ([line] ++ "Subject To" ::
      (rowLines ++ "Binary" :: (nameLines ++ "End" :: [""]))))
    (hline : "Subject To" ∉ [line]) (hrowLines : "Binary" ∉ rowLines)
    (hnameLines : "End" ∉ nameLines) {objective : LinearForm ℚ} {rows : List (Row ℚ)}
    {names : List String} (hobjective : readObjective line = some objective)
    (hrows : rowLines.mapM readRow = some rows) (hnames : nameLines.mapM readName = some names) :
    read text = some ⟨objective, rows, names⟩ := by
  rw [read, hlines, upTo_append List.not_mem_nil]
  dsimp only [Option.bind_eq_bind, Option.bind_some]
  rw [upTo_append hline]
  dsimp only [Option.bind_some]
  rw [upTo_append hrowLines]
  dsimp only [Option.bind_some]
  rw [upTo_append hnameLines]
  dsimp only [Option.bind_some]
  rw [if_pos ⟨rfl, rfl, rfl⟩, List.mapM_cons, List.mapM_nil, hobjective, hrows, hnames]
  simp

/-! ## Section 5: A line at a time -/

theorem exists_mapM {α β : Type} {f : α → Option β} {R : α → β → Prop} {l : List α}
    (h : ∀ a ∈ l, ∃ b, f a = some b ∧ R a b) :
    ∃ bs, l.mapM f = some bs ∧ List.Forall₂ R l bs := by
  induction l with
  | nil => exact ⟨[], rfl, .nil⟩
  | cons a l ih =>
    obtain ⟨⟨b, hb, hab⟩, hl⟩ := List.forall_mem_cons.1 h
    obtain ⟨bs, hbs, hall⟩ := ih hl
    exact ⟨b :: bs, by rw [List.mapM_cons, hb, hbs]; rfl, .cons hab hall⟩

/-- A number that is not infinite. -/
abbrev Finite (x : LogWeight) : Prop := x.value.isFinite = true

variable {form : LinearForm LogWeight} {row : Row LogWeight} {lp : LinearProgram LogWeight}

theorem isWord_of_mem_formWords (h : form.Legible Finite) : ∀ w ∈ formWords form, Text.IsWord w := by
  have hzero : Text.IsWord "+0" := by decide
  rw [formWords]
  split
  · simpa using hzero
  · intro w hw
    obtain ⟨t, ht, hw⟩ := List.mem_flatMap.1 hw
    obtain ⟨hname, hfinite⟩ := h t ht
    obtain ⟨q, hq, -⟩ := exists_reads_coefficientText hfinite
    simp only [List.mem_cons, List.not_mem_nil, or_false] at hw
    rcases hw with rfl | rfl
    · exact hq.isWord
    · exact hname

theorem isWord_of_mem_rowWords (h : row.Legible Finite) : ∀ w ∈ rowWords row, Text.IsWord w := by
  obtain ⟨q, hq, -⟩ := exists_reads_boundText h.bound
  have hsense : Text.IsWord row.sense.text := by
    cases row.sense <;> decide
  have hcolon : ∀ c ∈ ":".toList, Text.isBlank c = false := by
    simp [Text.isBlank, Text.blankRanges]
  simp only [rowWords, List.forall_mem_cons, List.forall_mem_append]
  exact ⟨h.name.append hcolon, isWord_of_mem_formWords h.form, hsense, hq.isWord, by simp⟩

/-- Terms are read one by one, two words each. -/
theorem exists_readTerms (h : form.Legible Finite) :
    ∃ form', readTerms (form.flatMap fun t => [coefficientText t.coefficient, t.name]) = some form' ∧
      List.Forall₂ TermReadAs form form' := by
  induction form with
  | nil => exact ⟨[], rfl, .nil⟩
  | cons t form ih =>
    obtain ⟨⟨-, hfinite⟩, hform⟩ := List.forall_mem_cons.1 h
    obtain ⟨q, hq, hnear⟩ := exists_reads_coefficientText hfinite
    obtain ⟨form', hread, hsame⟩ := ih hform
    refine ⟨⟨t.name, q⟩ :: form', ?_, .cons ⟨rfl, hnear⟩ hsame⟩
    rw [List.flatMap_cons, List.cons_append, List.singleton_append, readTerms, hq.number, hread]
    rfl

theorem exists_readForm (h : form.Legible Finite) :
    ∃ form', readForm (formWords form) = some form' ∧ List.Forall₂ TermReadAs form form' := by
  cases form with
  | nil =>
    have hzero : Decimal.Reads "+0" ((0 : ℕ) : ℚ) := (Decimal.numeral_toString 0).reads_plus
    exact ⟨[], if_pos (by rw [hzero.number, Nat.cast_zero]), .nil⟩
  | cons t form =>
    -- there are two words at least, so that they are not a constant
    obtain ⟨form', hread, hsame⟩ := exists_readTerms h
    exact ⟨form', hread, hsame⟩

theorem readLabel_append (name : String) : readLabel (name ++ ":") = some name := by
  rw [readLabel, String.toList_append, List.reverse_append]
  simp

theorem readSense_text (s : Sense) : readSense s.text = some s := by
  cases s <;> decide

theorem exists_readRow (h : row.Legible Finite) :
    ∃ row', readRow (Text.spaced (rowWords row)) = some row' ∧ RowReadAs row row' := by
  obtain ⟨q, hq, hnear⟩ := exists_reads_boundText h.bound
  obtain ⟨form', hread, hsame⟩ := exists_readForm h.form
  refine ⟨⟨row.name, form', row.sense, q⟩, ?_, ⟨rfl, hsame, rfl, hnear⟩⟩
  rw [readRow, Text.words_spaced (isWord_of_mem_rowWords h), rowWords]
  dsimp only
  rw [List.reverse_append]
  simp [readLabel_append, readSense_text, hread, hq.number]

theorem exists_readObjective (h : form.Legible Finite) :
    ∃ form', readObjective (Text.spaced ("obj:" :: formWords form)) = some form' ∧
      List.Forall₂ TermReadAs form form' := by
  have hlabel : Text.IsWord "obj:" := by decide
  obtain ⟨form', hread, hsame⟩ := exists_readForm h
  refine ⟨form', ?_, hsame⟩
  rw [readObjective,
    Text.words_spaced (List.forall_mem_cons.2 ⟨hlabel, isWord_of_mem_formWords h⟩)]
  exact (if_pos rfl).trans hread

theorem readName_spaced {name : String} (h : Text.IsWord name) :
    readName (Text.spaced [name]) = some name := by
  rw [readName, Text.words_spaced (List.forall_mem_singleton.2 h)]

/-! ## Section 6: The whole text -/

theorem break_notMem_textLines (h : lp.Legible Finite) :
    ∀ line ∈ textLines lp, '\n' ∉ line.toList := by
  have hlabel : Text.IsWord "obj:" := by decide
  have hheading : '\n' ∉ "Maximize".toList ∧ '\n' ∉ "Subject To".toList ∧ '\n' ∉ "Binary".toList ∧
      '\n' ∉ "End".toList := by decide
  have hobjective : ∀ w ∈ "obj:" :: formWords lp.objective, Text.IsWord w :=
    List.forall_mem_cons.2 ⟨hlabel, isWord_of_mem_formWords h.objective⟩
  simp only [textLines, List.forall_mem_cons, List.forall_mem_append, List.forall_mem_map]
  refine ⟨hheading.1, break_notMem_spaced hobjective, hheading.2.1, fun row hrow => ?_,
    hheading.2.2.1, fun name hname => ?_, hheading.2.2.2, by simp⟩
  · exact break_notMem_spaced (isWord_of_mem_rowWords (h.rows row hrow))
  · exact break_notMem_spaced (List.forall_mem_singleton.2 (h.binaries name hname))

theorem lines_text (h : lp.Legible Finite) : lines lp.text = [] ++ "Maximize" ::
    ([Text.spaced ("obj:" :: formWords lp.objective)] ++ "Subject To" ::
      (lp.rows.map (fun row => Text.spaced (rowWords row)) ++ "Binary" ::
        (lp.binaries.map (fun name => Text.spaced [name]) ++ "End" :: [""]))) := by
  rw [text_eq, lines_join (break_notMem_textLines h), textLines]
  simp only [List.cons_append, List.append_assoc, List.nil_append]

theorem exists_mapM_readRow {rows : List (Row LogWeight)} (h : ∀ row ∈ rows, row.Legible Finite) :
    ∃ rows', (rows.map fun row => Text.spaced (rowWords row)).mapM readRow = some rows' ∧
      List.Forall₂ RowReadAs rows rows' := by
  rw [List.mapM_map, Function.comp_def]
  exact exists_mapM fun row hrow => exists_readRow (h row hrow)

theorem mapM_readName {names : List String} (h : ∀ name ∈ names, Text.IsWord name) :
    (names.map fun name => Text.spaced [name]).mapM readName = some names := by
  induction names with
  | nil => rfl
  | cons name names ih =>
    obtain ⟨hname, hnames⟩ := List.forall_mem_cons.1 h
    rw [List.map_cons, List.mapM_cons, readName_spaced hname, ih hnames]
    rfl

/-- **What is read back** from the text of a program whose names are words and whose numbers are
finite. -/
theorem exists_read_text (h : lp.Legible Finite) : ∃ lp', read lp.text = some lp' ∧ ReadAs lp lp' := by
  obtain ⟨objective, hobjective, hsameObjective⟩ := exists_readObjective h.objective
  obtain ⟨rows, hrows, hsameRows⟩ := exists_mapM_readRow h.rows
  have hline : "Subject To" ∉ [Text.spaced ("obj:" :: formWords lp.objective)] :=
    heading_notMem_map (by decide) (fun _ => "obj:") formWords [lp.objective]
  have hrowLines : "Binary" ∉ lp.rows.map fun row => Text.spaced (rowWords row) :=
    heading_notMem_map (by decide) _ _ lp.rows
  have hnameLines : "End" ∉ lp.binaries.map fun name => Text.spaced [name] :=
    heading_notMem_map (by decide) id (fun _ => []) lp.binaries
  refine ⟨⟨objective, rows, lp.binaries⟩, ?_, ⟨hsameObjective, hsameRows, rfl⟩⟩
  exact read_eq (lines_text h) hline hrowLines hnameLines hobjective hrows (mapM_readName h.binaries)

/-! ## Section 7: Programs of problems -/

theorem exact_zero : Double.exact (0 : LogWeight).value = 0 := rfl

theorem exact_one : Double.exact (1 : LogWeight).value = 1 := by
  have hunpack : (1 : LogWeight).value.toModel.unpack =
      .finite .positive (2 ^ 52) (-52) (by decide) := rfl
  rw [Double.exact_eq hunpack]
  norm_num [Double.signed]

theorem near_iff {row : Row LogWeight} {row' : Row ℚ} (h : RowReadAs row row') :
    Near row.bound row'.bound ↔
      -2 ^ 63 ≤ Double.exact row.bound.value ∧ Double.exact row.bound.value < 2 ^ 63 :=
  near_iff_of_near_saturated h.bound

theorem forall₂_near {rows : List (Row LogWeight)} {rows' : List (Row ℚ)}
    (h : List.Forall₂ RowReadAs rows rows') (hrows : ∀ row ∈ rows, row.bound = 0 ∨ row.bound = 1) :
    List.Forall₂ (fun row row' => Near row.bound row'.bound) rows rows' := by
  induction h with
  | nil => exact .nil
  | cons hrow h ih =>
    obtain ⟨hbound, hrows⟩ := List.forall_mem_cons.1 hrows
    refine .cons ((near_iff hrow).2 ?_) (ih hrows)
    rcases hbound with hbound | hbound
    · rw [hbound, exact_zero]
      norm_num
    · rw [hbound, exact_one]
      norm_num

variable {p : Problem LogWeight} {threshold : LogWeight}

/-- Zero and one are in the range, so that the threshold decides. -/
theorem forall₂_near_iff {rest : List (Row LogWeight)} {rows' : List (Row ℚ)}
    (hrest : ∀ row ∈ rest, row.bound = 0 ∨ row.bound = 1)
    (h : List.Forall₂ RowReadAs (budget p threshold :: rest) rows') :
    List.Forall₂ (fun row row' => Near row.bound row'.bound) (budget p threshold :: rest) rows' ↔
      -2 ^ 63 ≤ Double.exact threshold.value ∧ Double.exact threshold.value < 2 ^ 63 := by
  obtain ⟨row', rows', hrow, hrows, rfl⟩ := List.forall₂_cons_left_iff.1 h
  rw [List.forall₂_cons, and_iff_left (forall₂_near hrows hrest)]
  exact near_iff hrow

/-- The program of a valid problem can be read back. -/
theorem exists_ofProblem_read (hp : p.Valid)
    (hentries : ∀ role, ∀ f ∈ (p.network role).factors, ∀ w ∈ f.table, w.value.isFinite = true)
    (hthreshold : threshold.value.isFinite = true) :
    ∃ lp lp', ofProblem p threshold = .ok lp ∧ (lp.rows.map Row.name).Nodup ∧
      read lp.text = some lp' ∧ ReadAs lp lp' ∧
      ∃ rest, lp.rows = budget p threshold :: rest ∧
        ∀ row ∈ rest, row.bound = 0 ∨ row.bound = 1 := by
  obtain ⟨lp, hlp, hlegible, hnodup, hrest⟩ :=
    exists_ofProblem_legible (P := Finite) hp hentries hthreshold (by decide) (by decide) (by decide)
  obtain ⟨lp', hread, hsame⟩ := exists_read_text hlegible
  exact ⟨lp, lp', hlp, hnodup, hread, hsame, hrest⟩

/-- **The text of a program says what the program says**, but for a threshold beyond the range of
signed words. If the entries of a valid problem and the threshold are finite, then reading the text of
the program gives the same rows, terms, comparisons and variables in the same order, no two rows share
a name, and coefficients are read back within a billionth; and the bounds are, too, exactly if the
threshold is in the range. -/
theorem exists_read_problem (hp : p.Valid)
    (hentries : ∀ role, ∀ f ∈ (p.network role).factors, ∀ w ∈ f.table, w.value.isFinite = true)
    (hthreshold : threshold.value.isFinite = true) :
    ∃ lp lp', ofProblem p threshold = .ok lp ∧ (lp.rows.map Row.name).Nodup ∧
      read lp.text = some lp' ∧ ReadAs lp lp' ∧
      (List.Forall₂ (fun row row' => Near row.bound row'.bound) lp.rows lp'.rows ↔
        -2 ^ 63 ≤ Double.exact threshold.value ∧ Double.exact threshold.value < 2 ^ 63) := by
  obtain ⟨lp, lp', hlp, hnodup, hread, hsame, rest, hrows, hrest⟩ :=
    exists_ofProblem_read hp hentries hthreshold
  refine ⟨lp, lp', hlp, hnodup, hread, hsame, ?_⟩
  have hsameRows := hsame.rows
  rw [hrows] at hsameRows ⊢
  exact forall₂_near_iff hrest hsameRows

/-- A problem whose networks share a variable: its program has rows of all kinds, and the threshold is
in the range. -/
theorem exists_read_shared :
    let p : Problem LogWeight :=
      { domains := #[2]
        constraint := ⟨#[⟨[0], #[.ofFloat 0.25, .ofFloat (-3.0)]⟩]⟩
        objective := ⟨#[⟨[0], #[.ofFloat 1.0, .ofFloat 0.0]⟩]⟩ }
    p.Valid ∧ ∃ lp lp', ofProblem p (.ofFloat 2.5) = .ok lp ∧ (lp.rows.map Row.name).Nodup ∧
      read lp.text = some lp' ∧ ReadAs lp lp' ∧
      List.Forall₂ (fun row row' => Near row.bound row'.bound) lp.rows lp'.rows := by
  intro p
  have hp : p.Valid := by decide
  have hentries : ∀ role, ∀ f ∈ (p.network role).factors, ∀ w ∈ f.table,
      w.value.isFinite = true := by
    intro role
    cases role <;> decide
  have hfinite : (LogWeight.ofFloat 2.5).value.isFinite = true := by decide
  have hunpack : (LogWeight.ofFloat 2.5).value.toModel.unpack =
      .finite .positive 5629499534213120 (-51) (by decide) := by rfl
  have hvalue : Double.exact (LogWeight.ofFloat 2.5).value = 5 / 2 := by
    rw [Double.exact_eq hunpack]
    norm_num [Double.signed]
  obtain ⟨lp, lp', hlp, hnodup, hread, hsame, hiff⟩ :=
    exists_read_problem hp hentries hfinite
  rw [hvalue] at hiff
  exact ⟨hp, lp, lp', hlp, hnodup, hread, hsame, hiff.2 ⟨by norm_num, by norm_num⟩⟩

/-- The threshold `10 ^ 19`, which is beyond the range of signed words, is not what is read back. -/
theorem exists_read_beyond_range :
    let p : Problem LogWeight :=
      { domains := #[1]
        constraint := ⟨#[⟨[0], #[.ofFloat 0.0]⟩]⟩
        objective := ⟨#[]⟩ }
    p.Valid ∧ ∃ lp lp', ofProblem p (.ofFloat 1e19) = .ok lp ∧
      read lp.text = some lp' ∧ ReadAs lp lp' ∧
      ¬ List.Forall₂ (fun row row' => Near row.bound row'.bound) lp.rows lp'.rows := by
  intro p
  have hp : p.Valid := by decide
  have hentries : ∀ role, ∀ f ∈ (p.network role).factors, ∀ w ∈ f.table,
      w.value.isFinite = true := by
    intro role
    cases role <;> decide
  have hfinite : (LogWeight.ofFloat 1e19).value.isFinite = true := by decide
  have hunpack : (LogWeight.ofFloat 1e19).value.toModel.unpack =
      .finite .positive 4882812500000000 11 (by decide) := by rfl
  have hvalue : Double.exact (LogWeight.ofFloat 1e19).value = 10 ^ 19 := by
    rw [Double.exact_eq hunpack]
    norm_num [Double.signed]
  obtain ⟨lp, lp', hlp, -, hread, hsame, rest, hrows, hrest⟩ :=
    exists_ofProblem_read hp hentries hfinite
  refine ⟨hp, lp, lp', hlp, hread, hsame, ?_⟩
  have hsameRows := hsame.rows
  rw [hrows] at hsameRows ⊢
  rw [forall₂_near_iff hrest hsameRows, hvalue]
  norm_num

end LinearProgram

end PairedMarkov
