import PairedMarkov.LinearProgram.Text
import PairedMarkov.Proofs.Decimal

/-!
# The numbers in the text of a linear program

A coefficient is read back within a billionth of what it was. A bound is brought into the range of
signed words first if it is almost whole, and is read back within a billionth of the nearest number in
that range. A double that is not almost whole is small, so this is true of every bound.

Main statements: `LinearProgram.exists_reads_coefficientText` and
`LinearProgram.exists_reads_boundText`, what is read back; `LinearProgram.near_iff_of_near_saturated`,
which bounds are near to what is read back.
-/

namespace PairedMarkov.LinearProgram

open Decimal Float.Model

/-! ## Section 1: Signed words -/

variable {x : LogWeight} {q : ℚ}

/-- The nearest number within the range of signed words. -/
def saturated (q : ℚ) : ℚ := max (-2 ^ 63) (min q (2 ^ 63 - 1))

theorem abs_saturated_sub_le (a b : ℚ) : |saturated a - saturated b| ≤ |a - b| := by
  rw [saturated, saturated, max_comm, max_comm (-2 ^ 63)]
  exact (abs_max_sub_max_le_abs _ _ _).trans (abs_inf_sub_inf_le_abs _ _ _)

theorem saturated_eq_self (hlow : -2 ^ 63 ≤ q) (hhigh : q ≤ 2 ^ 63 - 1) : saturated q = q := by
  rw [saturated, min_eq_left hhigh, max_eq_right hlow]

theorem saturated_natCast (n : ℕ) : saturated n = (min n (UInt64.size / 2 - 1) : ℕ) := by
  have hbound : ((UInt64.size / 2 - 1 : ℕ) : ℚ) = 2 ^ 63 - 1 := by norm_num [UInt64.size]
  have hpos : (0 : ℚ) ≤ min (n : ℚ) (2 ^ 63 - 1) := le_min n.cast_nonneg (by norm_num)
  rw [Nat.cast_min, hbound, saturated, max_eq_right (le_trans (by norm_num) hpos)]

theorem saturated_neg_natCast (n : ℕ) : saturated (-n) = -(min n (UInt64.size / 2) : ℕ) := by
  have hbound : ((UInt64.size / 2 : ℕ) : ℚ) = 2 ^ 63 := by norm_num [UInt64.size]
  have hneg : (-n : ℚ) ≤ 2 ^ 63 - 1 := (neg_nonpos.2 n.cast_nonneg).trans (by norm_num)
  rw [Nat.cast_min, hbound, saturated, min_eq_left hneg, max_neg_neg, min_comm]

theorem reads_zero : Reads "0" 0 := by
  have hzero : Reads "0" ((0 : ℕ) : ℚ) := (numeral_toString 0).reads
  rwa [Nat.cast_zero] at hzero

/-- A whole number is written as the nearest signed word. -/
theorem reads_wholeText (sign : UnpackedFloat.Sign) (n : ℕ) :
    Reads (wholeText sign n) (saturated (Double.signed sign n)) := by
  cases sign with
  | positive =>
    rw [Double.signed, saturated_natCast]
    cases n with
    | zero => simpa [wholeText] using reads_zero
    | succ n => exact (numeral_toString _).reads
  | negative =>
    rw [Double.signed, saturated_neg_natCast]
    cases n with
    | zero => simpa [wholeText] using reads_zero
    | succ n => exact (numeral_toString _).reads_minus

/-! ## Section 2: Coefficients and bounds -/

/-- **A coefficient that is read back** is near to what it was. -/
theorem exists_reads_coefficientText (hx : x.value.isFinite = true) :
    ∃ q, Reads (coefficientText x) q ∧ |q - Double.exact x.value| < 1 / 10 ^ 9 := by
  have hone : Reads "+1" ((1 : ℕ) : ℚ) := (numeral_toString 1).reads_plus
  have hminusOne : Reads "-1" (-((1 : ℕ) : ℚ)) := (numeral_toString 1).reads_minus
  rw [Nat.cast_one] at hone hminusOne
  have hfixed : ∃ q, Reads (signedFixed places x.value) q ∧
      |q - Double.exact x.value| < 1 / 10 ^ 9 := by
    obtain ⟨q, hreads, hq⟩ := exists_reads_signedFixed hx (show 0 < places by decide)
    exact ⟨q, hreads, hq.trans_lt (by norm_num [places])⟩
  unfold coefficientText
  split
  · rename_i sign m e hm hunpack
    split
    · -- almost one is written as one, with the sign in front
      rename_i hnear
      rw [isNear_iff, Nat.cast_one, abs_sub_comm, ← Double.abs_signed_sub_signed sign] at hnear
      refine ⟨Double.signed sign 1, ?_, ?_⟩
      · cases sign with
        | positive => exact hone
        | negative => exact hminusOne
      · rw [Double.exact_eq hunpack]
        exact hnear.trans (by norm_num [unitPlaces])
    · exact hfixed
  · exact hfixed

/-- **A bound that is read back** is near to the nearest number in the range of signed words. -/
theorem exists_reads_boundText (hx : x.value.isFinite = true) :
    ∃ q, Reads (boundText x) q ∧ |q - saturated (Double.exact x.value)| < 1 / 10 ^ 9 := by
  have hfinite : x.value.toModel.unpack.isFinite = true := hx
  rw [boundText]
  cases hunpack : x.value.toModel.unpack with
  | notANumber => simp [hunpack, UnpackedFloat.isFinite] at hfinite
  | infinity sign => simp [hunpack, UnpackedFloat.isFinite] at hfinite
  | zero sign =>
    have hzero : saturated 0 = 0 := saturated_eq_self (by norm_num) (by norm_num)
    refine ⟨0, reads_zero, ?_⟩
    rw [Double.exact, hunpack, hzero]
    norm_num
  | finite sign m e hm =>
    dsimp only
    split
    · -- bringing both numbers into the range brings them no further apart
      rename_i hnear
      refine ⟨_, reads_wholeText _ _, ?_⟩
      rw [isNear_iff, abs_sub_comm, ← Double.abs_signed_sub_signed sign,
        ← Double.exact_eq hunpack] at hnear
      exact (abs_saturated_sub_le _ _).trans_lt hnear
    · -- only small numbers are not almost whole, and they are in the range
      rename_i hfar
      have hsmall := abs_lt.1 (Double.abs_exact_lt hunpack (neg_of_not_isNear hfar))
      obtain ⟨q, hreads, hq⟩ := exists_reads_fixed hx (show 0 < places by decide)
      refine ⟨q, hreads, ?_⟩
      rw [saturated_eq_self (by linarith) (by linarith)]
      exact hq.trans_lt (by norm_num [places])

/-- No double lies between a signed word and the next number that is none. -/
theorem exact_mem_range_or_far (x : Float) :
    -2 ^ 63 ≤ Double.exact x ∧ Double.exact x ≤ 2 ^ 63 - 1 ∨
      Double.exact x ≤ -2 ^ 63 - 1 ∨ 2 ^ 63 ≤ Double.exact x := by
  rcases Double.exists_exact_eq_or_abs_lt x with ⟨n, hn⟩ | hsmall
  · have hwhole : -2 ^ 63 ≤ n ∧ n ≤ 2 ^ 63 - 1 ∨ n ≤ -2 ^ 63 - 1 ∨ 2 ^ 63 ≤ n := by omega
    rw [hn]
    exact_mod_cast hwhole
  · have hsmall := abs_lt.1 hsmall
    exact .inl ⟨by linarith, by linarith⟩

/-- **The bounds that are kept** are those in the range of signed words. -/
theorem near_iff_of_near_saturated {x : Float}
    (h : |q - saturated (Double.exact x)| < 1 / 10 ^ 9) :
    |q - Double.exact x| < 1 / 10 ^ 9 ↔ -2 ^ 63 ≤ Double.exact x ∧ Double.exact x < 2 ^ 63 := by
  rcases exact_mem_range_or_far x with ⟨hlow, hhigh⟩ | hfar
  · rw [saturated_eq_self hlow hhigh] at h
    exact iff_of_true h ⟨hlow, by linarith⟩
  · have hsaturated : -2 ^ 63 ≤ saturated (Double.exact x) ∧
        saturated (Double.exact x) ≤ 2 ^ 63 - 1 :=
      ⟨le_max_left _ _, max_le (by norm_num) (min_le_right _ _)⟩
    refine iff_of_false (fun hnear => ?_) fun hrange => ?_
    · -- what is read back would be near to two numbers that are not near to each other
      have h := abs_lt.1 h
      have hnear := abs_lt.1 hnear
      rcases hfar with hfar | hfar <;> linarith
    · rcases hfar with hfar | hfar <;> linarith

end PairedMarkov.LinearProgram
