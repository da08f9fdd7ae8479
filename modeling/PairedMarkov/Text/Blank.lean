/-!
# Blanks and words

The words of a text are its longest runs of characters that are not blank. Blank are exactly the
characters with the Unicode property White_Space. Main statements: no word is empty and no word
holds a blank.
-/

namespace PairedMarkov.Text

/-! ## Section 1: Blanks -/

/-- The ranges of the blank characters, both ends included. -/
def blankRanges : List (Nat × Nat) :=
  [(0x9, 0xd), (0x20, 0x20), (0x85, 0x85), (0xa0, 0xa0), (0x1680, 0x1680), (0x2000, 0x200a),
    (0x2028, 0x2029), (0x202f, 0x202f), (0x205f, 0x205f), (0x3000, 0x3000)]

/-- Whether a character separates words. -/
def isBlank (c : Char) : Bool :=
  blankRanges.any fun (first, last) => first ≤ c.toNat && c.toNat ≤ last

/-! ## Section 2: Words -/

/-- A word under construction and the words behind it. -/
structure Pieces where
  /-- The characters up to the next blank. -/
  front : List Char
  /-- The words behind that blank. -/
  words : List (List Char)

/-- The front as a word, unless it is empty. -/
def Pieces.close (p : Pieces) : List (List Char) :=
  if p.front = [] then p.words else p.front :: p.words

/-- Puts one more character before the pieces. -/
def Pieces.push (c : Char) (p : Pieces) : Pieces :=
  if isBlank c then ⟨[], p.close⟩ else ⟨c :: p.front, p.words⟩

/-- The words of a list of characters. -/
def wordsOf (cs : List Char) : List (List Char) :=
  (cs.foldr Pieces.push ⟨[], []⟩).close

/-- The words of a text. -/
def words (s : String) : List String :=
  (wordsOf s.toList).map String.ofList

/-! ## Section 3: What words look like -/

/-- The characters of a piece are not blank, and its words are proper words. -/
private def Pieces.Proper (p : Pieces) : Prop :=
  (∀ c ∈ p.front, isBlank c = false) ∧ ∀ w ∈ p.words, w ≠ [] ∧ ∀ c ∈ w, isBlank c = false

private theorem Pieces.Proper.close {p : Pieces} (h : p.Proper) :
    ∀ w ∈ p.close, w ≠ [] ∧ ∀ c ∈ w, isBlank c = false := by
  intro w hw
  unfold Pieces.close at hw
  split at hw
  · exact h.2 w hw
  · rcases List.mem_cons.1 hw with rfl | hw
    · exact ⟨by assumption, h.1⟩
    · exact h.2 w hw

private theorem Pieces.Proper.push {p : Pieces} (h : p.Proper) (c : Char) : (p.push c).Proper := by
  unfold Pieces.push
  split
  · exact ⟨by simp, h.close⟩
  · rename_i hc
    refine ⟨fun d hd => ?_, h.2⟩
    rcases List.mem_cons.1 hd with rfl | hd
    · simpa using hc
    · exact h.1 d hd

private theorem proper_pieces (cs : List Char) : (cs.foldr Pieces.push ⟨[], []⟩).Proper := by
  induction cs with
  | nil => exact ⟨by simp, by simp⟩
  | cons c cs ih => exact ih.push c

/-- Words are not empty and hold no blank. -/
theorem mem_wordsOf {cs w : List Char} (h : w ∈ wordsOf cs) :
    w ≠ [] ∧ ∀ c ∈ w, isBlank c = false :=
  (proper_pieces cs).close w h

end PairedMarkov.Text
