import PairedMarkov.Random.Source

/-!
# The ChaCha source

The stream cipher ChaCha with twelve rounds, used as a source of words. A 64-bit seed is stretched
to the eight words of the key by a linear congruential generator with a permuted output. Block
after block, the cipher then turns the key and a block counter into sixteen 32-bit words, which are
handed out in pairs, the first of a pair being the low half.
-/

namespace PairedMarkov.Random

/-! ## Section 1: From a seed to a key -/

/-- One step of the generator that stretches a seed. -/
def stretch (state : UInt64) : UInt64 :=
  state * 6364136223846793005 + 11634580027462260723

/-- The output for a state: its high bits folded together and rotated by the highest ones. -/
def permuted (state : UInt64) : UInt32 :=
  let folded := (((state >>> 18) ^^^ state) >>> 27).toUInt32
  let turn := (state >>> 59).toUInt32
  (folded >>> turn) ||| (folded <<< ((32 - turn) % 32))

/-- The words of a key. -/
structure Key where
  (k0 k1 k2 k3 k4 k5 k6 k7 : UInt32)

/-- The key of a seed: the outputs for the first eight states after it. -/
def Key.ofSeed (seed : UInt64) : Key :=
  let output (i : Nat) : UInt32 := permuted (Nat.repeat stretch (i + 1) seed)
  ⟨output 0, output 1, output 2, output 3, output 4, output 5, output 6, output 7⟩

/-! ## Section 2: One block -/

/-- The sixteen words that a block works on: a square of four rows of four, row after row. -/
structure Square where
  (x0 x1 x2 x3 x4 x5 x6 x7 x8 x9 x10 x11 x12 x13 x14 x15 : UInt32)

/-- Four words of the square, one from each row. -/
structure Quarter where
  (a b c d : UInt32)

/-- A word rotated to the left. -/
@[inline] def rotate (word : UInt32) (bits : UInt32) : UInt32 :=
  (word <<< bits) ||| (word >>> (32 - bits))

/-- Mixes four words. -/
@[inline] def quarterRound (a b c d : UInt32) : Quarter :=
  let a := a + b
  let d := rotate (d ^^^ a) 16
  let c := c + d
  let b := rotate (b ^^^ c) 12
  let a := a + b
  let d := rotate (d ^^^ a) 8
  let c := c + d
  let b := rotate (b ^^^ c) 7
  ⟨a, b, c, d⟩

namespace Square

/-- Mixes the columns of the square, then its diagonals. -/
def doubleRound (s : Square) : Square :=
  let p := quarterRound s.x0 s.x4 s.x8 s.x12
  let q := quarterRound s.x1 s.x5 s.x9 s.x13
  let r := quarterRound s.x2 s.x6 s.x10 s.x14
  let t := quarterRound s.x3 s.x7 s.x11 s.x15
  let u := quarterRound p.a q.b r.c t.d
  let v := quarterRound q.a r.b t.c p.d
  let w := quarterRound r.a t.b p.c q.d
  let z := quarterRound t.a p.b q.c r.d
  ⟨u.a, v.a, w.a, z.a, z.b, u.b, v.b, w.b, w.c, z.c, u.c, v.c, v.d, w.d, z.d, u.d⟩

/-- The square at the start of a block: four constants, the key, the counter and two zeros. -/
def start (key : Key) (counter : UInt64) : Square :=
  ⟨0x61707865, 0x3320646e, 0x79622d32, 0x6b206574,
    key.k0, key.k1, key.k2, key.k3, key.k4, key.k5, key.k6, key.k7,
    counter.toUInt32, (counter >>> 32).toUInt32, 0, 0⟩

/-- The sums of the words of two squares, in pairs of which the first is the low half. -/
def sumPairs (s t : Square) : List UInt64 :=
  let pair (low high : UInt32) : UInt64 := low.toUInt64 ||| (high.toUInt64 <<< 32)
  [pair (s.x0 + t.x0) (s.x1 + t.x1), pair (s.x2 + t.x2) (s.x3 + t.x3),
    pair (s.x4 + t.x4) (s.x5 + t.x5), pair (s.x6 + t.x6) (s.x7 + t.x7),
    pair (s.x8 + t.x8) (s.x9 + t.x9), pair (s.x10 + t.x10) (s.x11 + t.x11),
    pair (s.x12 + t.x12) (s.x13 + t.x13), pair (s.x14 + t.x14) (s.x15 + t.x15)]

end Square

/-- The words of one block: six double rounds, added to the square they started from. -/
def blockWords (key : Key) (counter : UInt64) : List UInt64 :=
  let start := Square.start key counter
  start.sumPairs (Nat.repeat Square.doubleRound 6 start)

/-! ## Section 3: The stream -/

/-- The position in the stream of one key. -/
structure ChaCha where
  /-- The key. -/
  key : Key
  /-- The number of the next block. -/
  counter : UInt64
  /-- What is left of the blocks before it. -/
  pending : List UInt64

/-- The start of the stream of a seed. -/
def ChaCha.ofSeed (seed : UInt64) : ChaCha where
  key := Key.ofSeed seed
  counter := 0
  pending := []

/-- The next word: what is left of the last block, or the first word of the next one. -/
def ChaCha.next (s : ChaCha) : UInt64 × ChaCha :=
  match s.pending with
  | word :: rest => (word, { s with pending := rest })
  | [] =>
    let words := blockWords s.key s.counter
    (words.headD 0, { s with counter := s.counter + 1, pending := words.tail })

instance : Source ChaCha := ⟨ChaCha.next⟩

end PairedMarkov.Random
