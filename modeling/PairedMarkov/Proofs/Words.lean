import PairedMarkov.Text.Blank

/-!
# Texts made of words

A word is what can come out of a text when it is taken apart at its blanks. Words with a blank before
each of them come out again.

Main statement: `Text.words_spaced`; so any words are those of a text, `Text.exists_words_eq_iff`.
-/

namespace PairedMarkov.Text

/-- A word is not empty and holds no blank. -/
def IsWord (w : String) : Prop := w ≠ "" ∧ ∀ c ∈ w.toList, isBlank c = false

instance (w : String) : Decidable (IsWord w) :=
  decidable_of_iff (w ≠ "" ∧ w.toList.all (fun c => !isBlank c) = true) (by simp [IsWord])

/-- Words with a blank before each of them. -/
def spaced (ws : List String) : String := String.ofList (ws.flatMap fun w => ' ' :: w.toList)

/-- The characters between the blanks and the end of the first half of a byte are not blank. -/
theorem isBlank_eq_false {c : Char} (hlow : 0x20 < c.toNat) (hhigh : c.toNat < 0x7f) :
    isBlank c = false := by
  simp only [isBlank, blankRanges, List.any_cons, List.any_nil, Bool.or_false, Bool.or_eq_false_iff,
    Bool.and_eq_false_iff, decide_eq_false_iff_not]
  omega

theorem isBlank_eq_false_of_isDigit {c : Char} (h : c.isDigit = true) : isBlank c = false := by
  have hrange : 48 ≤ c.toNat ∧ c.toNat ≤ 57 := by
    simpa [Char.isDigit, UInt32.le_iff_toNat_le] using h
  exact isBlank_eq_false (by omega) (by omega)

theorem IsWord.append {w : String} (h : IsWord w) {s : String}
    (hs : ∀ c ∈ s.toList, isBlank c = false) : IsWord (w ++ s) := by
  refine ⟨fun hempty => h.1 (String.append_eq_empty_iff.1 hempty).1, ?_⟩
  rw [String.toList_append]
  exact List.forall_mem_append.2 ⟨h.2, hs⟩

variable {ws : List String}

theorem toList_spaced (ws : List String) :
    (spaced ws).toList = ws.flatMap fun w => ' ' :: w.toList :=
  String.toList_ofList

theorem spaced_nil : spaced [] = "" := rfl

theorem spaced_cons (w : String) (ws : List String) : spaced (w :: ws) = " " ++ w ++ spaced ws := by
  rw [String.ext_iff, String.toList_append, String.toList_append, toList_spaced, toList_spaced]
  simp

theorem spaced_append (ws ws' : List String) : spaced (ws ++ ws') = spaced ws ++ spaced ws' := by
  rw [String.ext_iff, String.toList_append, toList_spaced, toList_spaced, toList_spaced,
    List.flatMap_append]

theorem foldr_push_of_not_blank {cs : List Char} (h : ∀ c ∈ cs, isBlank c = false) (p : Pieces) :
    cs.foldr Pieces.push p = ⟨cs ++ p.front, p.words⟩ := by
  induction cs with
  | nil => rfl
  | cons c cs ih =>
    rw [List.forall_mem_cons] at h
    rw [List.foldr_cons, ih h.2, Pieces.push, if_neg (by simp [h.1]), List.cons_append]

/-- A blank closes the word behind it. -/
theorem foldr_push_spaced (h : ∀ w ∈ ws, IsWord w) :
    (spaced ws).toList.foldr Pieces.push ⟨[], []⟩ = ⟨[], ws.map String.toList⟩ := by
  rw [toList_spaced]
  induction ws with
  | nil => rfl
  | cons w ws ih =>
    rw [List.forall_mem_cons] at h
    obtain ⟨⟨hne, hblank⟩, hws⟩ := h
    have hspace : isBlank ' ' = true := by decide
    rw [List.flatMap_cons, List.foldr_append, ih hws, List.foldr_cons,
      foldr_push_of_not_blank hblank, List.append_nil, Pieces.push, if_pos hspace, Pieces.close,
      if_neg (by simpa using hne), List.map_cons]

/-- **Words with a blank before each of them** are the words of what they make up. -/
theorem words_spaced (h : ∀ w ∈ ws, IsWord w) : words (spaced ws) = ws := by
  rw [words, wordsOf, foldr_push_spaced h, Pieces.close, if_pos rfl, List.map_map]
  simp [Function.comp_def]

/-- Blanks alone part the words. -/
theorem mem_toList_spaced (h : ∀ w ∈ ws, IsWord w) {c : Char} (hc : c ∈ (spaced ws).toList) :
    c = ' ' ∨ isBlank c = false := by
  rw [toList_spaced] at hc
  obtain ⟨w, hw, hc⟩ := List.mem_flatMap.1 hc
  exact (List.mem_cons.1 hc).imp_right ((h w hw).2 c)

/-- Any words are the words of a text, and nothing else is. -/
theorem exists_words_eq_iff : (∃ text, words text = ws) ↔ ∀ w ∈ ws, IsWord w := by
  constructor
  · rintro ⟨text, rfl⟩ w hw
    obtain ⟨cs, hcs, rfl⟩ := List.mem_map.1 hw
    obtain ⟨hne, hblank⟩ := mem_wordsOf hcs
    exact ⟨by simpa using hne, by simpa using hblank⟩
  · exact fun h => ⟨spaced ws, words_spaced h⟩

end PairedMarkov.Text
