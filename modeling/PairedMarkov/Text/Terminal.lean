/-!
# Text on a terminal

A terminal shows the characters of a text one after the other, except those that are meant for
itself. Of the controls it shows those that only move on: the tab and the ends of lines and pages.
An escape begins a sequence, which is hidden. The character behind the escape tells where it ends:

* behind an opening bracket come numbers, and the first character from `@` on is the last one;
* a closing bracket begins a message, which goes on up to a bell;
* `X`, `^` and `_` begin a message, which goes on up to the byte `9C`;
* `P` begins a heading, and a message as behind `X` follows it. The heading has at most one of the
  characters from `<` to `?`, then numbers, which digits, colons and semicolons make, then marks,
  which stand before `0`. The first character that does not go on like this is its last one;
* a character before `0` announces another one, of which the same holds;
* any other character is the last one.

A control that moves on ends a sequence, but not a heading or a message, and is shown. The other
controls and the characters outside ASCII are hidden in a sequence and change nothing, but for the
byte `9C`, which can be one of the bytes of such a character.
-/

namespace PairedMarkov.Text

/-! ## Section 1: One character -/

/-- Where in a heading a terminal stands. -/
inductive Heading where
  /-- At its start. -/
  | start
  /-- In its numbers. -/
  | numbers
  /-- In its marks. -/
  | marks
  deriving DecidableEq, Repr

/-- Where in a text a terminal stands. -/
inductive Screen where
  /-- Outside of sequences, where characters are shown. -/
  | text
  /-- Right behind an escape. -/
  | escape
  /-- Behind an escape and a character that announces the last one. -/
  | announced
  /-- In the numbers of a sequence with a bracket. -/
  | numbers
  /-- In the heading of a message. -/
  | heading (place : Heading)
  /-- In a message to the terminal, which a bell ends if `bell`, and else the byte `9C`. -/
  | message (bell : Bool)
  deriving DecidableEq, Repr

/-- Whether a control only moves on: the tab, the line feed, the form feed, the carriage return. -/
def movesOn (c : Char) : Bool := c = '\t' || c = '\n' || c = '\x0c' || c = '\r'

/-- Whether a character is a control: it stands before the space, or is the last one of ASCII. -/
def isControl (c : Char) : Bool := c < ' ' || c = '\x7f'

/-- Whether a character is in ASCII and no control. -/
def isPlain (c : Char) : Bool := c < '\x7f' && !isControl c

/-- Whether a character ends a message that goes on up to a bell, or else up to the byte `9C`. -/
def endsMessage (bell : Bool) (c : Char) : Bool :=
  if bell then c = '\x07' else (String.utf8EncodeChar c).contains 0x9c

/-- Where a terminal stands behind a plain character of a heading. -/
def Heading.follow (place : Heading) (c : Char) : Screen :=
  if c < '0' then .heading .marks
  else if c < '<' ∧ place ≠ .marks then .heading .numbers
  else if c < '@' ∧ place = .start then .heading .numbers
  else .message false

/-- Where a terminal stands behind a plain character. -/
def Screen.follow : Screen → Char → Screen
  | .text, _ => .text
  | .escape, c =>
    if c = '[' then .numbers
    else if c = ']' then .message true
    else if c = 'P' then .heading .start
    else if c = 'X' ∨ c = '^' ∨ c = '_' then .message false
    else if c < '0' then .announced
    else .text
  | .announced, c => if c < '0' then .announced else .text
  | .numbers, c => if c < '@' then .numbers else .text
  | .heading place, c => place.follow c
  | .message bell, _ => .message bell

/-- Where a terminal stands behind a character, and whether it shows the character. -/
def Screen.step (s : Screen) (c : Char) : Screen × Bool :=
  if c = '\x1b' then (.escape, false)
  else if c = '\x18' ∨ c = '\x1a' then (.text, false)
  else
    match s with
    | .text => (.text, movesOn c || !isControl c)
    | .message bell => (if endsMessage bell c then .text else s, false)
    | .heading _ => (if isPlain c then s.follow c else s, false)
    | s => if movesOn c then (.text, true) else (if isPlain c then s.follow c else s, false)

/-! ## Section 2: A text -/

/-- The characters that a terminal shows. -/
def Screen.shown : Screen → List Char → List Char
  | _, [] => []
  | s, c :: rest =>
    let (next, visible) := s.step c
    if visible then c :: next.shown rest else next.shown rest

/-- What a terminal shows of a text. -/
def shown (s : String) : String := String.ofList (Screen.text.shown s.toList)

/-! ## Section 3: What is shown -/

/-- Outside of sequences a terminal shows what is no control. -/
theorem Screen.step_text {c : Char} (h : isControl c = false) :
    Screen.text.step c = (.text, true) := by
  have escape : c ≠ '\x1b' := by rintro rfl; revert h; decide
  have cancel : ¬ (c = '\x18' ∨ c = '\x1a') := by rintro (rfl | rfl) <;> revert h <;> decide
  simp [Screen.step, escape, cancel, h]

/-- A text without controls is shown as it is. -/
theorem Screen.shown_text {cs : List Char} (h : ∀ c ∈ cs, isControl c = false) :
    Screen.text.shown cs = cs := by
  induction cs with
  | nil => rfl
  | cons c rest ih =>
    obtain ⟨hc, hrest⟩ := List.forall_mem_cons.1 h
    simp [Screen.shown, Screen.step_text hc, ih hrest]

end PairedMarkov.Text
