import PairedMarkov.LogWeight
import PairedMarkov.Proofs.Weight

/-!
# The order of doubles

Doubles are compared by their sign, their exponent and their mantissa, one after the other. So all
of them but the ones that are not a number have a place in a linear order, and comparing doubles is
comparing places: the strict order is transitive and irreflexive although no law of arithmetic
holds, and whatever compares as larger than something equals itself.

Sorting does not look at places but at words. The two agree on numbers, because a word without its
sign is an exponent followed by a mantissa, and so increases with the place.

Main statements: `lt_iff_place` and its siblings for doubles; `LogWeight.lt_of_le_of_lt` and
`LogWeight.le_trans` for log-weights; `LogWeight.le_of_orderKey_le` and `LogWeight.orderedOn` for
the order of sorting; `IsBottom.add` and `IsBottom.sub` for sums that nothing leads up from.
-/

namespace PairedMarkov

namespace Double

open Float.Model

/-! ## Section 1: Places -/

/-- The place of an unpacked double among all of them: its class between the two infinities, then
the exponent, then the mantissa. What is not a number has no place. -/
def placeOf : UnpackedFloat → Option (ℤ ×ₗ ℤ ×ₗ ℤ)
  | .notANumber => none
  | .infinity .negative => some (toLex (-2, toLex (0, 0)))
  | .finite .negative m e _ => some (toLex (-1, toLex (-e, -m)))
  | .zero _ => some (toLex (0, toLex (0, 0)))
  | .finite .positive m e _ => some (toLex (1, toLex (e, m)))
  | .infinity .positive => some (toLex (2, toLex (0, 0)))

private theorem compare_cast (m n : ℕ) : compare (m : ℤ) (n : ℤ) = compare m n := by
  simp only [LinearOrder.compare_eq_compareOfLessAndEq, compareOfLessAndEq, Nat.cast_lt,
    Nat.cast_inj]

/-- Signs turn the order over. -/
private theorem compare_neg (a b : ℤ) : compare (-a) (-b) = (compare a b).swap := by
  have hswap : (compare a b).swap = compare b a := Std.OrientedCmp.eq_swap.symm
  rw [hswap]
  simp only [LinearOrder.compare_eq_compareOfLessAndEq, compareOfLessAndEq, neg_lt_neg_iff,
    neg_inj, eq_comm]

private theorem compare_toLex {α β : Type} [Ord α] [Ord β] (a a' : α) (b b' : β) :
    compare (toLex (a, b)) (toLex (a', b')) = (compare a a').then (compare b b') := rfl

private theorem isLE_compare_iff {α : Type} [LinearOrder α] (a b : α) :
    (compare a b).isLE = true ↔ a ≤ b := Std.LawfulBCmp.isLE_iff_le

/-- Comparing doubles is comparing their places. -/
theorem compare_eq_place (a b : UnpackedFloat) :
    a.compare b = (placeOf a).bind fun i => (placeOf b).map fun j => compare i j := by
  cases a with
  | notANumber => cases b <;> rfl
  | infinity s =>
    cases b with
    | notANumber => cases s <;> rfl
    | infinity s' => cases s <;> cases s' <;> rfl
    | zero s' => cases s <;> cases s' <;> rfl
    | finite s' m' e' h' => cases s <;> cases s' <;> rfl
  | zero s =>
    cases b with
    | notANumber => rfl
    | infinity s' => cases s' <;> rfl
    | zero s' => rfl
    | finite s' m' e' h' => cases s' <;> rfl
  | finite s m e h =>
    cases b with
    | notANumber => cases s <;> rfl
    | infinity s' => cases s <;> cases s' <;> rfl
    | zero s' => cases s <;> rfl
    | finite s' m' e' h' =>
      -- only numbers of one sign come down to exponents and mantissas
      cases s <;> cases s'
      · simp [UnpackedFloat.compare, placeOf, compare_toLex, compare_neg, compare_cast,
          Ordering.swap_then]
      · rfl
      · rfl
      · simp [UnpackedFloat.compare, placeOf, compare_toLex, compare_cast]

/-- The place of a double. -/
def place (x : Float) : Option (ℤ ×ₗ ℤ ×ₗ ℤ) := placeOf x.toModel.unpack

/-- A double is below another one exactly if both have places and these are so. -/
theorem lt_iff_place {x y : Float} : x < y ↔ ∃ i j, place x = some i ∧ place y = some j ∧ i < j := by
  have hlt : x < y ↔ x.toModel.unpack.compare y.toModel.unpack = some .lt := by
    show decide (x.toModel.unpack.lt y.toModel.unpack = true) = true ↔ _
    simp [UnpackedFloat.lt]
  rw [hlt, compare_eq_place]
  simp [place, Option.bind_eq_some_iff, compare_lt_iff_lt]

theorem le_iff_place {x y : Float} : x ≤ y ↔ ∃ i j, place x = some i ∧ place y = some j ∧ i ≤ j := by
  have hle : x ≤ y ↔ ∃ o, x.toModel.unpack.compare y.toModel.unpack = some o ∧ o.isLE = true := by
    show decide (x.toModel.unpack.le y.toModel.unpack = true) = true ↔ _
    rw [decide_eq_true_eq, UnpackedFloat.le, Option.any_eq_true]
  rw [hle, compare_eq_place]
  -- without a place on either side nothing is compared, and both sides are false
  cases hx : placeOf x.toModel.unpack with
  | none => simp [place, hx]
  | some i =>
    cases hy : placeOf y.toModel.unpack with
    | none => simp [place, hy]
    | some j => simpa [place, hx, hy] using isLE_compare_iff i j

theorem beq_iff_place {x y : Float} : (x == y) = true ↔ ∃ i, place x = some i ∧ place y = some i := by
  have hbeq : (x == y) = true ↔ x.toModel.unpack.compare y.toModel.unpack = some .eq := by
    show x.toModel.unpack.beq y.toModel.unpack = true ↔ _
    simp [UnpackedFloat.beq]
  rw [hbeq, compare_eq_place]
  simp [place, Option.bind_eq_some_iff, compare_eq_iff_eq]

/-- The doubles without a place are those that are not a number. -/
theorem isNaN_iff_place {x : Float} : x.isNaN = true ↔ place x = none := by
  show x.toModel.unpack.isNaN = true ↔ placeOf x.toModel.unpack = none
  cases x.toModel.unpack with
  | notANumber => simp [UnpackedFloat.isNaN, placeOf]
  | infinity s => cases s <;> simp [UnpackedFloat.isNaN, placeOf]
  | zero s => simp [UnpackedFloat.isNaN, placeOf]
  | finite s m e h => cases s <;> simp [UnpackedFloat.isNaN, placeOf]

/-- A double is above zero exactly if it is a number that is not at or below zero. -/
theorem zero_lt_iff {x : Float} : 0 < x ↔ ¬ x ≤ 0 ∧ x.isNaN = false := by
  have hzero : place 0 = some (toLex (0, toLex (0, 0))) := by decide
  rw [lt_iff_place, le_iff_place, ← Bool.not_eq_true, isNaN_iff_place]
  -- for a number this is the linear order of places
  cases hx : place x with
  | none => simp
  | some i => simp [hzero]

/-! ## Section 2: Places from bits

A double is a sign bit, eleven bits for the exponent and fifty-two for the mantissa. Without the
sign, a larger word stands for a larger number, up to the word of infinity; the words above it are
not numbers. The sign turns the order over.
-/

/-- The place of a double without its sign, by its other bits. -/
def placeOfBits (bits : ℕ) : ℤ ×ₗ ℤ ×ₗ ℤ :=
  if bits / 2 ^ 52 = 2047 then toLex (2, toLex (0, 0))
  else if bits / 2 ^ 52 = 0 then
    if bits % 2 ^ 52 = 0 then toLex (0, toLex (0, 0))
    else toLex (1, toLex (-1074, (bits % 2 ^ 52 : ℕ)))
  else toLex (1, toLex ((bits / 2 ^ 52 : ℕ) - 1075, (2 ^ 52 + bits % 2 ^ 52 : ℕ)))

/-- The place of a double with a sign. -/
def withSign (s : UnpackedFloat.Sign) (i : ℤ ×ₗ ℤ ×ₗ ℤ) : ℤ ×ₗ ℤ ×ₗ ℤ :=
  match s with
  | .negative => -i
  | .positive => i

theorem placeOf_infinity (s : UnpackedFloat.Sign) :
    placeOf (.infinity s) = some (withSign s (toLex (2, toLex (0, 0)))) := by
  cases s <;> rfl

theorem placeOf_zero (s : UnpackedFloat.Sign) :
    placeOf (.zero s) = some (withSign s (toLex (0, toLex (0, 0)))) := by
  cases s <;> rfl

theorem placeOf_finite (s : UnpackedFloat.Sign) (m : ℕ) (e : ℤ) (h : 0 < m) :
    placeOf (.finite s m e h) = some (withSign s (toLex (1, toLex (e, m)))) := by
  cases s <;> rfl

section Fields

variable (b : BitVec 64)

/-- The exponent of a word of 64 bits. -/
private abbrev exponentOf : BitVec 11 := @UnpackedFloat.unpackExponent Format.binary64 b

/-- The mantissa of a word of 64 bits. -/
private abbrev mantissaOf : BitVec 52 := @UnpackedFloat.unpackMantissa Format.binary64 b

/-- The exponent stands behind the sign, and the mantissa behind the exponent. -/
private theorem toNat_exponentOf : (exponentOf b).toNat = b.toNat % 2 ^ 63 / 2 ^ 52 := by
  simp [UnpackedFloat.unpackExponent, BitVec.extractLsb, BitVec.extractLsb',
    Nat.shiftRight_eq_div_pow]
  omega

private theorem toNat_mantissaOf : (mantissaOf b).toNat = b.toNat % 2 ^ 63 % 2 ^ 52 := by
  simp [UnpackedFloat.unpackMantissa, BitVec.extractLsb, BitVec.extractLsb']

/-- The sign that a word begins with. -/
def signOf : UnpackedFloat.Sign := if b.toNat < 2 ^ 63 then .positive else .negative

/-- The sign is the first bit. -/
private theorem sign_unpackSign :
    UnpackedFloat.Sign.ofBitVec (@UnpackedFloat.unpackSign Format.binary64 b) =
      signOf b := by
  have hsign : @UnpackedFloat.unpackSign Format.binary64 b =
      if b.toNat < 2 ^ 63 then 0#1 else 1#1 := by
    apply BitVec.eq_of_toNat_eq
    have := b.isLt
    simp [UnpackedFloat.unpackSign, BitVec.extractLsb, BitVec.extractLsb',
      Nat.shiftRight_eq_div_pow]
    split <;> simp <;> omega
  rw [hsign, signOf]
  split <;> rfl

/-- In front of the mantissa stands a one that the word does not have. -/
private theorem toNat_one_append (m : BitVec 52) : (1#1 ++ m).toNat = 2 ^ 52 + m.toNat := by
  rw [BitVec.toNat_append, ← Nat.shiftLeft_add_eq_or_of_lt m.isLt]
  simp

/-- The sign and the other bits of a number give its place. -/
theorem placeOf_unpack {i : ℤ ×ₗ ℤ ×ₗ ℤ}
    (h : placeOf (UnpackedFloat.unpack Format.binary64 b) = some i) :
    b.toNat % 2 ^ 63 ≤ 2047 * 2 ^ 52 ∧ i = withSign (signOf b) (placeOfBits (b.toNat % 2 ^ 63)) := by
  have hexponent := toNat_exponentOf b
  have hmantissa := toNat_mantissaOf b
  rw [UnpackedFloat.unpack, sign_unpackSign] at h
  dsimp only at h
  rw [placeOfBits, ← hexponent, ← hmantissa]
  -- by the exponent: all ones, all zeros, or anything else
  split at h
  · rename_i hmax
    split at h
    · rename_i hzero
      rw [placeOf_infinity, Option.some.injEq] at h
      have hmax : (exponentOf b).toNat = 2047 := congrArg BitVec.toNat hmax
      have hzero : (mantissaOf b).toNat = 0 := congrArg BitVec.toNat hzero
      rw [if_pos hmax]
      exact ⟨by omega, h.symm⟩
    · cases h
  · rename_i hmax
    have hmax : (exponentOf b).toNat ≠ 2047 := fun h => hmax (BitVec.eq_of_toNat_eq h)
    rw [if_neg hmax]
    split at h
    · rename_i hmin
      have hmin : (exponentOf b).toNat = 0 := congrArg BitVec.toNat hmin
      rw [if_pos hmin]
      split at h
      · rename_i hzero
        have hzero : (mantissaOf b).toNat = 0 := congrArg BitVec.toNat hzero
        rw [placeOf_zero, Option.some.injEq] at h
        rw [if_pos hzero]
        exact ⟨by omega, h.symm⟩
      · rename_i hzero
        have hzero : (mantissaOf b).toNat ≠ 0 := fun h => hzero (BitVec.eq_of_toNat_eq h)
        rw [placeOf_finite, hmin, Option.some.injEq] at h
        rw [if_neg hzero]
        exact ⟨by omega, h.symm⟩
    · rename_i hmin
      have hmin : (exponentOf b).toNat ≠ 0 := fun h => hmin (BitVec.eq_of_toNat_eq h)
      rw [placeOf_finite, toNat_one_append, Option.some.injEq] at h
      rw [if_neg hmin]
      exact ⟨by omega, h.symm⟩

end Fields

private theorem toLex_le_toLex_iff {a b c a' b' c' : ℤ} :
    (toLex (a, toLex (b, c)) : ℤ ×ₗ ℤ ×ₗ ℤ) ≤ toLex (a', toLex (b', c')) ↔
      a < a' ∨ a = a' ∧ (b < b' ∨ b = b' ∧ c ≤ c') := by
  simp [Prod.Lex.toLex_le_toLex]

/-- Larger words without a sign stand for larger numbers. -/
theorem placeOfBits_mono {a b : ℕ} (h : a ≤ b) (hb : b ≤ 2047 * 2 ^ 52) :
    placeOfBits a ≤ placeOfBits b := by
  have ha := Nat.div_add_mod a (2 ^ 52)
  have hb' := Nat.div_add_mod b (2 ^ 52)
  have hma := Nat.mod_lt a (show 2 ^ 52 > 0 by decide)
  have hmb := Nat.mod_lt b (show 2 ^ 52 > 0 by decide)
  unfold placeOfBits
  -- with exponents and mantissas as numbers of their own every pair of cases is linear
  generalize a / 2 ^ 52 = ea at *
  generalize a % 2 ^ 52 = ma at *
  generalize b / 2 ^ 52 = eb at *
  generalize b % 2 ^ 52 = mb at *
  split_ifs <;> rw [toLex_le_toLex_iff] <;> omega

/-- A number has a place, which its bits give. -/
theorem place_of_isNaN_eq_false {x : Float} (h : x.isNaN = false) :
    x.toBits.toNat % 2 ^ 63 ≤ 2047 * 2 ^ 52 ∧
      place x = some (withSign (signOf x.toBits.toBitVec) (placeOfBits (x.toBits.toNat % 2 ^ 63))) := by
  cases hplace : place x with
  | none =>
    rw [isNaN_iff_place.2 hplace] at h
    cases h
  | some i =>
    obtain ⟨hle, rfl⟩ := placeOf_unpack x.toBits.toBitVec hplace
    exact ⟨hle, rfl⟩

end Double

/-! ## Section 3: Comparing log-weights -/

namespace LogWeight

open Double

variable {a b c : LogWeight}

theorem lt_iff : a < b ↔ ∃ i j, place a.value = some i ∧ place b.value = some j ∧ i < j :=
  lt_iff_place

theorem le_iff : a ≤ b ↔ ∃ i j, place a.value = some i ∧ place b.value = some j ∧ i ≤ j :=
  le_iff_place

theorem beq_iff : (a == b) = true ↔ ∃ i, place a.value = some i ∧ place b.value = some i :=
  beq_iff_place

theorem le_of_lt (h : a < b) : a ≤ b := by
  obtain ⟨i, j, hi, hj, hlt⟩ := lt_iff.1 h
  exact le_iff.2 ⟨i, j, hi, hj, hlt.le⟩

/-- The order is transitive, as weights that are not numbers compare with nothing. -/
theorem lt_of_le_of_lt (hab : a ≤ b) (hbc : b < c) : a < c := by
  obtain ⟨i, j, hi, hj, hij⟩ := le_iff.1 hab
  obtain ⟨j', k, hj', hk, hjk⟩ := lt_iff.1 hbc
  -- the weight in the middle has one place
  obtain rfl := Option.some.inj (hj.symm.trans hj')
  exact lt_iff.2 ⟨i, k, hi, hk, hij.trans_lt hjk⟩

theorem lt_trans (hab : a < b) (hbc : b < c) : a < c := lt_of_le_of_lt (le_of_lt hab) hbc

theorem le_trans (hab : a ≤ b) (hbc : b ≤ c) : a ≤ c := by
  obtain ⟨i, j, hi, hj, hij⟩ := le_iff.1 hab
  obtain ⟨j', k, hj', hk, hjk⟩ := le_iff.1 hbc
  obtain rfl := Option.some.inj (hj.symm.trans hj')
  exact le_iff.2 ⟨i, k, hi, hk, hij.trans hjk⟩

/-- What is equal to itself is a number, and at most itself. -/
theorem le_self_of_beq (h : (a == a) = true) : a ≤ a := by
  obtain ⟨i, hi, -⟩ := beq_iff.1 h
  exact le_iff.2 ⟨i, i, hi, hi, le_rfl⟩

/-- What is above something equals itself, and so is a number. -/
theorem beq_self_of_lt (h : a < b) : (b == b) = true := by
  obtain ⟨i, j, hi, hj, hlt⟩ := lt_iff.1 h
  exact beq_iff.2 ⟨j, hj, hj⟩

theorem not_beq_of_lt (h : a < b) : ¬ (a == b) = true := by
  intro hbeq
  obtain ⟨i, j, hi, hj, hlt⟩ := lt_iff.1 h
  obtain ⟨k, hk, hk'⟩ := beq_iff.1 hbeq
  obtain rfl := Option.some.inj (hi.symm.trans hk)
  obtain rfl := Option.some.inj (hj.symm.trans hk')
  exact hlt.false

/-! ## Section 4: The order of sorting -/

/-- The key of a number: the bits of a positive one, moved up by half of all words, and those of a
negative one, counted down from there. -/
theorem toNat_orderKey (h : a.value.isNaN = false) :
    a.orderKey.toNat = if a.value.toBits.toNat < 2 ^ 63 then a.value.toBits.toNat + 2 ^ 63
      else 2 ^ 64 - 1 - a.value.toBits.toNat := by
  have hsign : ¬ a.isNegativeNaN = true := fun hneg => by
    rw [a.isNaN_of_isNegativeNaN hneg] at h
    cases h
  have hlt := a.value.toBits.toNat_lt
  have hword : (0x8000000000000000 : UInt64).toNat = 2 ^ 63 := rfl
  have hlast : (0xffffffffffffffff : UInt64).toNat = 2 ^ 64 - 1 := rfl
  rw [orderKey, if_neg hsign]
  split
  · -- without its sign a word is below the half, so that the sum is a word
    rename_i hpositive
    rw [UInt64.lt_iff_toNat_lt, hword] at hpositive
    rw [if_pos hpositive, UInt64.toNat_add, hword]
    exact Nat.mod_eq_of_lt (by omega)
  · rename_i hnegative
    rw [UInt64.lt_iff_toNat_lt, hword] at hnegative
    rw [if_neg hnegative, UInt64.toNat_sub_of_le, hlast]
    rw [UInt64.le_iff_toNat_le, hlast]
    omega

/-- **Sorting numbers** puts them in their order. -/
theorem le_of_orderKey_le (ha : a.value.isNaN = false) (hb : b.value.isNaN = false)
    (h : a.orderKey ≤ b.orderKey) : a ≤ b := by
  obtain ⟨hla, hpa⟩ := place_of_isNaN_eq_false ha
  obtain ⟨hlb, hpb⟩ := place_of_isNaN_eq_false hb
  rw [UInt64.le_iff_toNat_le, toNat_orderKey ha, toNat_orderKey hb] at h
  refine le_iff.2 ⟨_, _, hpa, hpb, ?_⟩
  have ha' := a.value.toBits.toNat_lt
  have hb' := b.value.toBits.toNat_lt
  have hzero : placeOfBits 0 = 0 := by decide
  simp only [signOf, UInt64.toNat_toBitVec]
  generalize a.value.toBits.toNat = m at *
  generalize b.value.toBits.toNat = n at *
  -- by the two signs; a negative number has its bits turned over
  split at h <;> split at h
  · rw [if_pos ‹_›, if_pos ‹_›]
    exact placeOfBits_mono (by omega) hlb
  · -- no positive number has a key below that of a negative one
    omega
  · -- a negative number is at most zero, and a positive one at least
    rw [if_neg ‹_›, if_pos ‹_›]
    have hm := placeOfBits_mono (Nat.zero_le (m % 2 ^ 63)) hla
    have hn := placeOfBits_mono (Nat.zero_le (n % 2 ^ 63)) hlb
    rw [hzero] at hm hn
    exact (neg_nonpos.2 hm).trans hn
  · rw [if_neg ‹_›, if_neg ‹_›]
    exact neg_le_neg (placeOfBits_mono (by omega) hla)

/-- Numbers in double precision are in a linear order up to the sign of zero, which only sorting
tells apart. -/
theorem orderedOn : Weight.OrderedOn LogWeight fun a => a.value.isNaN = false where
  le_refl {a} ha := by
    obtain ⟨-, hplace⟩ := place_of_isNaN_eq_false ha
    exact le_iff.2 ⟨_, _, hplace, hplace, le_rfl⟩
  le_of_lt := le_of_lt
  le_of_not_lt {a b} ha hb h := by
    obtain ⟨-, hpa⟩ := place_of_isNaN_eq_false ha
    obtain ⟨-, hpb⟩ := place_of_isNaN_eq_false hb
    exact le_iff.2 ⟨_, _, hpb, hpa, not_lt.1 fun hlt => h (lt_iff.2 ⟨_, _, hpa, hpb, hlt⟩)⟩
  lt_of_le_of_lt := lt_of_le_of_lt
  le_of_sortsBefore ha hb h := le_of_orderKey_le ha hb (of_decide_eq_true h)
  sortsBefore_trans h h' :=
    decide_eq_true (UInt64.le_trans (of_decide_eq_true h) (of_decide_eq_true h'))
  sortsBefore_total a b := by
    simpa [Weight.sortsBefore] using UInt64.le_total a.orderKey b.orderKey

end LogWeight

/-! ## Section 5: Sums at the bottom

Nothing is below negative infinity, and nothing below what is not a number. Adding to such a double
or taking away from it gives another one.
-/

namespace Double

open Float.Model

variable {u : UnpackedFloat} {x : Float}

/-- An unpacked double that none is below. -/
def Bottom (u : UnpackedFloat) : Prop := u = .notANumber ∨ u = .infinity .negative

/-- A sum is at the bottom if its first part is. -/
private theorem Bottom.add (hu : Bottom u) (v : UnpackedFloat) :
    Bottom (UnpackedFloat.add .binary64 u v) := by
  rcases hu with rfl | rfl
  · exact .inl (by simp [UnpackedFloat.add])
  · -- the other infinity alone makes a difference
    cases v with
    | infinity s => cases s <;> simp [Bottom, UnpackedFloat.add]
    | _ => simp [Bottom, UnpackedFloat.add]

private theorem Bottom.sub (hu : Bottom u) (v : UnpackedFloat) :
    Bottom (UnpackedFloat.sub .binary64 u v) := by
  rcases hu with rfl | rfl
  · exact .inl (by simp [UnpackedFloat.sub])
  · cases v with
    | infinity s =>
      cases s
      · exact .inl rfl
      · exact .inr rfl
    | _ => simp [Bottom, UnpackedFloat.sub]

/-- Being written into a word does not change what is at the bottom. -/
private theorem Bottom.repack (hu : Bottom u) :
    Bottom (UnpackedFloat.unpack .binary64 (UnpackedFloat.pack .binary64 u)) := by
  rcases hu with rfl | rfl
  · exact .inl rfl
  · exact .inr rfl

/-- A double that none is below. -/
def IsBottom (x : Float) : Prop := Bottom x.toModel.unpack

theorem IsBottom.add (hx : IsBottom x) (y : Float) : IsBottom (x + y) :=
  (Bottom.add hx y.toModel.unpack).repack

theorem IsBottom.sub (hx : IsBottom x) (y : Float) : IsBottom (x - y) :=
  (Bottom.sub hx y.toModel.unpack).repack

private theorem isNaN_iff_unpack : x.isNaN = true ↔ x.toModel.unpack = .notANumber := by
  show x.toModel.unpack.isNaN = true ↔ _
  cases x.toModel.unpack <;> simp [UnpackedFloat.isNaN]

theorem isNaN_add (hx : x.isNaN = true) (y : Float) : (x + y).isNaN = true := by
  rw [isNaN_iff_unpack] at hx ⊢
  -- doubles are added as unpacked ones, and packed again
  change UnpackedFloat.unpack .binary64 (UnpackedFloat.pack .binary64
    (UnpackedFloat.add .binary64 x.toModel.unpack y.toModel.unpack)) = _
  rw [hx, UnpackedFloat.add]
  rfl

theorem isNaN_sub (hx : x.isNaN = true) (y : Float) : (x - y).isNaN = true := by
  rw [isNaN_iff_unpack] at hx ⊢
  change UnpackedFloat.unpack .binary64 (UnpackedFloat.pack .binary64
    (UnpackedFloat.sub .binary64 x.toModel.unpack y.toModel.unpack)) = _
  rw [hx, UnpackedFloat.sub]
  rfl

/-- The place of negative infinity is the least one. -/
theorem bottom_le_placeOf {i : ℤ ×ₗ ℤ ×ₗ ℤ} (h : placeOf u = some i) :
    toLex (-2, toLex (0, 0)) ≤ i := by
  cases u with
  | notANumber => cases h
  | infinity s => cases s <;> cases h <;> decide
  | zero s =>
    cases h
    decide
  | finite s m e hm => cases s <;> cases h <;> simp [Prod.Lex.toLex_le_toLex]

/-- A double at the bottom has no place, or the least one. -/
theorem isBottom_iff_place : IsBottom x ↔ ∀ i, place x = some i → i = toLex (-2, toLex (0, 0)) := by
  rw [IsBottom, Bottom, place]
  cases x.toModel.unpack with
  | notANumber => simp [placeOf]
  | infinity s => cases s <;> simp [placeOf]
  | zero s => simp [placeOf]
  | finite s m e hm => cases s <;> simp [placeOf]

end Double

namespace LogWeight

open Double

variable {a b : LogWeight}

/-- Nothing is below a weight at the bottom. -/
theorem not_isBottom_of_lt (h : a < b) : ¬ IsBottom b.value := by
  obtain ⟨i, j, hi, hj, hlt⟩ := lt_iff.1 h
  intro hb
  rw [isBottom_iff_place.1 hb j hj] at hlt
  exact absurd (bottom_le_placeOf hi) (not_le.2 hlt)

/-- What equals the lowest weight is at the bottom. -/
theorem isBottom_of_beq_lowest (h : (a == Weight.lowest) = true) : IsBottom a.value := by
  obtain ⟨i, hi, hlowest⟩ := beq_iff.1 h
  rw [isBottom_iff_place]
  intro j hj
  obtain rfl := Option.some.inj (hi.symm.trans hj)
  exact (Option.some.inj hlowest).symm

end LogWeight

end PairedMarkov
