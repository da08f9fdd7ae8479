import PairedMarkov.Fault

/-!
# Sources of randomness

Everything random is drawn from a source of 64-bit words. A source is any type with a step that
gives the next word and the source left after it; nothing is assumed about the words.

`below` draws a number under a bound without bias: the high half of `word * bound` is the answer,
unless the low half falls in the last, incomplete part of the range of words, in which case another
word is taken. There is no number under a bound of zero; asking for one, by `draw`, is a fault.

Refusing has no end for a source that only ever gives words to refuse. So that a draw ends for every
source, at most `patience` words are refused here, and the one behind them is answered whatever it
is: this is not the draw described above, which would go on. Section 5 has that draw, as a judgement
(`Accepts`), and `below_eq_iff` tells the two to be the same for every source that gives a word to
accept within patience.
-/

namespace PairedMarkov.Random

/-! ## Section 1: Words -/

/-- A state from which words can be drawn one after the other. -/
class Source (σ : Type) where
  /-- The next word, and the source after it. -/
  next : σ → UInt64 × σ

/-- The source whose words go up by a fixed step. -/
structure Progression where
  /-- The next word. -/
  word : UInt64
  /-- The difference between two words. -/
  step : UInt64

instance : Source Progression where
  next s := (s.word, { s with word := s.word + s.step })

/-! ## Section 2: A number below a bound -/

/-- How many words a draw may refuse. Drawing itself sets no such number; this one is beyond what a
run can take. -/
def patience : Nat := UInt64.size / 4

/-- The largest low half that is accepted: the bound, scaled by a power of two to the full width
of a word, less one. -/
def acceptance (bound : Nat) : Nat :=
  bound * Nat.pow 2 (63 - bound.log2) - 1

/-- The number below a bound that a word stands for, unless the word is refused. For a bound of at
most half the width the product is formed from the halves of the word, and only its upper three
quarters are looked at; the lowest quarter cannot decide. -/
def accepted? (bound : Nat) (word : UInt64) : Option Nat :=
  if bound < UInt32.size then
    let upper := (word >>> 32).toNat * bound + word.toUInt32.toNat * bound / UInt32.size
    if (upper % UInt32.size) >>> (31 - bound.log2) ≤ bound - 1 then some (upper / UInt32.size)
    else none
  else
    let product := word.toNat * bound
    if product % UInt64.size ≤ acceptance bound then some (product / UInt64.size) else none

/-- Takes words until one is accepted, refusing at most `refusals` of them. The word behind these is
not put to the test. -/
def belowWithin {σ : Type} [Source σ] (bound : Nat) : Nat → σ → Nat × σ
  | 0, s =>
    let (word, s) := Source.next s
    (word.toNat * bound / UInt64.size, s)
  | refusals + 1, s =>
    let (word, s) := Source.next s
    match accepted? bound word with
    | some n => (n, s)
    | none => belowWithin bound refusals s

/-- A number below a positive bound, drawn with `patience`. -/
def below {σ : Type} [Source σ] (bound : Nat) (s : σ) : Nat × σ :=
  belowWithin bound patience s

/-- A number below a bound, if there is one. -/
def draw {σ : Type} [Source σ] (bound : Nat) (s : σ) : Except Fault (Nat × σ) :=
  if 0 < bound then .ok (below bound s) else .error .emptyRange

/-! ## Section 3: An event of one chance in ten -/

/-- The number of words on which the event happens: a tenth of all, rounded to a double. -/
def tenth : UInt64 := 1844674407370955264

/-- Whether an event of one chance in ten happens. -/
def oneInTen {σ : Type} [Source σ] (s : σ) : Bool × σ :=
  let (word, s) := Source.next s
  (word < tenth, s)

/-! ## Section 4: Draws stay below their bound -/

private theorem toNat_halves (word : UInt64) :
    word.toNat = (word >>> 32).toNat * UInt32.size + word.toUInt32.toNat := by
  rw [UInt64.toNat_shiftRight, UInt64.toNat_toUInt32]
  simp only [UInt64.reduceToNat, Nat.reduceMod, Nat.shiftRight_eq_div_pow, UInt32.size]
  omega

/-- Both ways of forming the product agree. -/
theorem accepted?_eq {bound : Nat} (h : 0 < bound) (word : UInt64) :
    accepted? bound word =
      if word.toNat * bound % UInt64.size ≤ acceptance bound then
        some (word.toNat * bound / UInt64.size)
      else none := by
  unfold accepted?
  split
  · rename_i hb
    have upper : (word >>> 32).toNat * bound + word.toUInt32.toNat * bound / UInt32.size =
        word.toNat * bound / UInt32.size := by
      rw [toNat_halves word, Nat.add_mul, Nat.mul_right_comm,
        Nat.add_comm (_ * UInt32.size) (_ * bound),
        Nat.add_mul_div_right _ _ (by decide : 0 < UInt32.size), Nat.add_comm]
    have log : bound.log2 ≤ 31 := by
      have hb : bound < 2 ^ 32 := hb
      have := (Nat.log2_lt (Nat.pos_iff_ne_zero.1 h)).2 hb
      omega
    have power : Nat.pow 2 (63 - bound.log2) = UInt32.size * Nat.pow 2 (31 - bound.log2) := by
      have split : 63 - bound.log2 = 32 + (31 - bound.log2) := by omega
      rw [split]
      exact Nat.pow_add 2 32 _
    have rest : (word.toNat * bound / UInt32.size % UInt32.size) >>> (31 - bound.log2) =
        word.toNat * bound % UInt64.size / Nat.pow 2 (63 - bound.log2) := by
      rw [Nat.shiftRight_eq_div_pow, power, ← Nat.div_div_eq_div_mul]
      refine congrArg (· / Nat.pow 2 (31 - bound.log2)) ?_
      simp only [UInt32.size, UInt64.size]
      omega
    have high : word.toNat * bound / UInt32.size / UInt32.size =
        word.toNat * bound / UInt64.size := by
      simp only [UInt32.size, UInt64.size]
      omega
    have positive : 0 < Nat.pow 2 (63 - bound.log2) := Nat.two_pow_pos _
    have accept : word.toNat * bound % UInt64.size / Nat.pow 2 (63 - bound.log2) ≤ bound - 1 ↔
        word.toNat * bound % UInt64.size ≤ acceptance bound := by
      rw [← Nat.lt_iff_le_pred h, Nat.div_lt_iff_lt_mul positive,
        Nat.lt_iff_le_pred (Nat.mul_pos h positive)]
      rfl
    simp only [upper, rest, high, accept]
  · rfl

private theorem high_lt {bound : Nat} (h : 0 < bound) (word : UInt64) :
    word.toNat * bound / UInt64.size < bound :=
  Nat.div_lt_of_lt_mul (Nat.mul_lt_mul_of_pos_right word.toNat_lt h)

theorem belowWithin_lt {σ : Type} [Source σ] {bound : Nat} (h : 0 < bound) (refusals : Nat)
    (s : σ) : (belowWithin bound refusals s).1 < bound := by
  induction refusals generalizing s with
  | zero => exact high_lt h _
  | succ refusals ih =>
    unfold belowWithin
    simp only [accepted?_eq h]
    split
    · rename_i found
      split at found
      · exact Option.some.inj found ▸ high_lt h _
      · exact absurd found (by simp)
    · exact ih _

theorem below_lt {σ : Type} [Source σ] {bound : Nat} (h : 0 < bound) (s : σ) :
    (below bound s).1 < bound :=
  belowWithin_lt h patience s

/-- Below a positive bound a number is drawn, and no other. -/
theorem exists_draw {σ : Type} [Source σ] {bound : Nat} (h : 0 < bound) (s : σ) :
    ∃ n s', draw bound s = .ok (n, s') ∧ n < bound := by
  have hlt := below_lt h s
  rw [draw, if_pos h]
  generalize below bound s = drawn at hlt ⊢
  obtain ⟨n, s'⟩ := drawn
  exact ⟨n, s', rfl, hlt⟩

/-! ## Section 5: Drawing without end -/

section Endless

variable {σ : Type} [Source σ] {bound : Nat} {s : σ} {drawn drawn' : Nat × σ}

/-- What a draw gives that never runs out of patience: the number that the first accepted word stands
for and the source behind this word, with the count of the words refused before it. -/
inductive Accepts (bound : Nat) : Nat → σ → Nat × σ → Prop
  | now {s : σ} {n : Nat} (h : accepted? bound (Source.next s).1 = some n) :
      Accepts bound 0 s (n, (Source.next s).2)
  | later {refused : Nat} {s : σ} {drawn : Nat × σ}
      (h : accepted? bound (Source.next s).1 = none)
      (rest : Accepts bound refused (Source.next s).2 drawn) :
      Accepts bound (refused + 1) s drawn

theorem Accepts.unique {refused refused' : Nat} (h : Accepts bound refused s drawn)
    (h' : Accepts bound refused' s drawn') : drawn = drawn' := by
  induction h generalizing refused' with
  | now hfirst =>
    cases h' with
    | now hfirst' => rw [Option.some.inj (hfirst.symm.trans hfirst')]
    | later hrefused' => simp [hfirst] at hrefused'
  | later hrefused _ ih =>
    cases h' with
    | now hfirst' => simp [hrefused] at hfirst'
    | later _ hrest' => exact ih hrest'

/-- Patience for as many words as are refused is enough, and more of it changes nothing. -/
theorem belowWithin_eq (hbound : 0 < bound) {refused refusals : Nat}
    (h : Accepts bound refused s drawn) (hle : refused ≤ refusals) :
    belowWithin bound refusals s = drawn := by
  induction h generalizing refusals with
  | now hfirst =>
    cases refusals with
    | zero =>
      -- the last word is not tested, but what it stands for does not depend on the test
      rw [accepted?_eq hbound] at hfirst
      split at hfirst
      · rw [← Option.some.inj hfirst]
        rfl
      · cases hfirst
    | succ refusals => simp only [belowWithin, hfirst]
  | later hrefused _ ih =>
    cases refusals with
    | zero => cases hle
    | succ refusals =>
      simp only [belowWithin, hrefused]
      exact ih (Nat.le_of_succ_le_succ hle)

/-- **A draw is the draw without end** for every source that gives a word to accept before patience
runs out: the number that its first accepted word stands for. -/
theorem below_eq_iff (hbound : 0 < bound)
    (hpatience : ∃ refused ≤ patience, ∃ drawn, Accepts bound refused s drawn) :
    below bound s = drawn ↔ ∃ refused, Accepts bound refused s drawn := by
  obtain ⟨refused, hle, first, hfirst⟩ := hpatience
  have hbelow : below bound s = first := belowWithin_eq hbound hfirst hle
  rw [hbelow]
  refine ⟨fun heq => heq ▸ ⟨refused, hfirst⟩, fun haccepts => ?_⟩
  obtain ⟨_, hdrawn⟩ := haccepts
  exact hfirst.unique hdrawn

end Endless

end PairedMarkov.Random
