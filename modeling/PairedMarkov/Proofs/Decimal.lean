import PairedMarkov.Decimal.Text
import PairedMarkov.Proofs.LogWeight
import PairedMarkov.Proofs.Words

/-!
# Decimals of doubles

A double that is finite stands for a rational number, and so does a decimal that is read without
rounding. Writing a double with a set number of places and reading what was written gives a number
that is at most half of the last place away.

All of this is arithmetic of whole numbers on the side of the text, and of rational numbers on the side
of what the text means; the two meet in the numerator and the denominator of `m * 2 ^ e`.

Main statements:
- `Double.exists_exact_eq_or_abs_lt`: a double is whole or small;
- `Decimal.isNear_iff` and `Decimal.abs_roundPlaces_sub_le`: what the tests and the rounding in whole
  numbers mean;
- `Decimal.numeral_pointed`: the digits with a point are read as the number that was written;
- `Decimal.exists_reads_fixed` and `Decimal.exists_reads_signedFixed`: the number that is read.
-/

namespace PairedMarkov

open Float.Model

/-! ## Section 1: The exact value of a double -/

namespace Double

/-- A number with a sign. -/
def signed : UnpackedFloat.Sign → ℚ → ℚ
  | .negative, q => -q
  | .positive, q => q

/-- The number that a double stands for; zero if it stands for none. -/
def exact (x : Float) : ℚ :=
  match x.toModel.unpack with
  | .finite sign m e _ => signed sign (m * 2 ^ e)
  | _ => 0

theorem exact_eq {x : Float} {s : UnpackedFloat.Sign} {m : ℕ} {e : ℤ} {h : 0 < m}
    (hx : x.toModel.unpack = .finite s m e h) : exact x = signed s (m * 2 ^ e) := by
  rw [exact, hx]

theorem abs_signed_sub_signed (s : UnpackedFloat.Sign) (a b : ℚ) :
    |signed s a - signed s b| = |a - b| := by
  cases s with
  | negative => rw [signed, signed, neg_sub_neg, abs_sub_comm]
  | positive => rfl

theorem abs_signed (s : UnpackedFloat.Sign) (q : ℚ) : |signed s q| = |q| := by
  cases s with
  | negative => exact abs_neg q
  | positive => rfl

/-- A double has fifty-three binary places. -/
theorem mantissa_lt {b : BitVec 64} {s : UnpackedFloat.Sign} {m : ℕ} {e : ℤ} {h : 0 < m}
    (hb : UnpackedFloat.unpack .binary64 b = .finite s m e h) : m < 2 ^ 53 := by
  rw [UnpackedFloat.unpack] at hb
  dsimp only at hb
  -- by the exponent, as in the definition; the first place is written or not
  split at hb
  · split at hb <;> cases hb
  · split at hb
    · split at hb
      · cases hb
      · cases hb
        exact (BitVec.isLt _).trans (by decide)
    · cases hb
      exact BitVec.isLt _

/-- With places behind the point, few are left before it. -/
theorem abs_exact_lt {x : Float} {s : UnpackedFloat.Sign} {m : ℕ} {e : ℤ} {h : 0 < m}
    (hx : x.toModel.unpack = .finite s m e h) (he : e < 0) : |exact x| < 2 ^ 52 := by
  have hm : (m : ℚ) < 2 ^ 53 := by exact_mod_cast mantissa_lt hx
  have hhalf : (2 : ℚ) ^ e ≤ 2 ^ (-1 : ℤ) := zpow_le_zpow_right₀ one_le_two (by omega)
  rw [exact_eq hx]
  calc |signed s (m * 2 ^ e)| = m * 2 ^ e := by rw [abs_signed, abs_of_nonneg (by positivity)]
    _ ≤ m * 2 ^ (-1 : ℤ) := mul_le_mul_of_nonneg_left hhalf m.cast_nonneg
    _ < 2 ^ 53 * 2 ^ (-1 : ℤ) := mul_lt_mul_of_pos_right hm (by positivity)
    _ = 2 ^ 52 := by norm_num

/-- A double is whole or small. -/
theorem exists_exact_eq_or_abs_lt (x : Float) : (∃ n : ℤ, exact x = n) ∨ |exact x| < 2 ^ 52 := by
  cases hx : x.toModel.unpack with
  | finite s m e h =>
    by_cases he : e < 0
    · exact .inr (abs_exact_lt hx he)
    · obtain ⟨k, rfl⟩ := Int.eq_ofNat_of_zero_le (not_lt.1 he)
      left
      rw [exact_eq hx]
      cases s with
      | negative => exact ⟨-(m * 2 ^ k), by simp [signed]⟩
      | positive => exact ⟨m * 2 ^ k, by simp [signed]⟩
  | _ => exact .inl ⟨0, by rw [exact, hx, Int.cast_zero]⟩

end Double

/-! ## Section 2: Rounding -/

namespace Decimal

variable {places m : ℕ} {e : ℤ} {whole : ℕ}

theorem cast_distance (a b : ℕ) : (distance a b : ℚ) = |(a : ℚ) - b| := by
  rw [distance]
  rcases le_total a b with h | h
  · have hq : (a : ℚ) ≤ b := Nat.cast_le.2 h
    rw [Nat.sub_eq_zero_of_le h, zero_add, Nat.cast_sub h, abs_of_nonpos (sub_nonpos.2 hq), neg_sub]
  · have hq : (b : ℚ) ≤ a := Nat.cast_le.2 h
    rw [Nat.sub_eq_zero_of_le h, add_zero, Nat.cast_sub h, abs_of_nonneg (sub_nonneg.2 hq)]

theorem binaryDenominator_pos (e : ℤ) : (0 : ℚ) < binaryDenominator e := by
  rw [binaryDenominator, Nat.pow_eq]
  positivity

theorem numerator_div_denominator (m : ℕ) (e : ℤ) :
    (binaryNumerator m e : ℚ) / binaryDenominator e = m * 2 ^ e := by
  rw [binaryNumerator, binaryDenominator, Nat.pow_eq, Nat.pow_eq]
  rcases le_total 0 e with h | h
  · obtain ⟨n, rfl⟩ := Int.eq_ofNat_of_zero_le h
    simp
  · obtain ⟨n, hn⟩ := Int.eq_ofNat_of_zero_le (neg_nonneg.2 h)
    obtain rfl : e = -n := by omega
    simp [div_eq_mul_inv]

/-- Being near in whole numbers is being near. -/
theorem isNear_iff : isNear places m e whole = true ↔ |(m : ℚ) * 2 ^ e - whole| < 1 / 10 ^ places := by
  have hpos := binaryDenominator_pos e
  have hdiff : (m : ℚ) * 2 ^ e - whole =
      ((binaryNumerator m e : ℕ) - (whole * binaryDenominator e : ℕ) : ℚ) / binaryDenominator e := by
    rw [sub_div, numerator_div_denominator, Nat.cast_mul, mul_div_cancel_right₀ _ hpos.ne']
  rw [hdiff, abs_div, abs_of_pos hpos, ← cast_distance, div_lt_div_iff₀ hpos (by positivity), isNear,
    decide_eq_true_iff, Nat.pow_eq, ← Nat.cast_lt (α := ℚ), one_mul]
  push_cast
  rw [mul_comm]

/-- A number that is not almost whole has places behind the point. -/
theorem neg_of_not_isNear (h : ¬ isNear places m e (nearestWhole m e) = true) : e < 0 := by
  by_contra hneg
  have hden : binaryDenominator e = 1 := by
    rw [binaryDenominator, Int.toNat_eq_zero.2 (by omega), Nat.pow_eq, pow_zero]
  have hwhole : nearestWhole m e = binaryNumerator m e := by
    rw [nearestWhole, hden]
    omega
  exact h (by simp [isNear, distance, hwhole, hden])

/-- Rounding goes at most half a step. -/
theorem two_mul_distance_roundToEven_le (a : ℕ) {b : ℕ} (hb : 0 < b) :
    2 * distance (roundToEven a b * b) a ≤ b := by
  have hrest : a % b < b := Nat.mod_lt a hb
  have hsplit : a / b * b + a % b = a := Nat.div_add_mod' a b
  have hupper : (a / b + 1) * b = a / b * b + b := Nat.succ_mul _ _
  unfold roundToEven distance
  dsimp only
  split_ifs
  · omega
  · rw [hupper]
    omega
  · -- a tie goes down or up
    rcases Nat.mod_two_eq_zero_or_one (a / b) with hparity | hparity
    · rw [hparity, add_zero]
      omega
    · rw [hparity, hupper]
      omega

/-- **Places that are cut off** are less than half of the last one that is kept. -/
theorem abs_roundPlaces_sub_le (places m : ℕ) (e : ℤ) :
    |(roundPlaces places m e : ℚ) / 10 ^ places - m * 2 ^ e| ≤ 1 / 2 / 10 ^ places := by
  have hpos := binaryDenominator_pos e
  have hround := two_mul_distance_roundToEven_le (binaryNumerator m e * Nat.pow 10 places)
    (Nat.cast_pos.1 hpos)
  rw [← Nat.cast_le (α := ℚ), Nat.cast_mul, cast_distance, Nat.pow_eq] at hround
  push_cast at hround
  have hdiff : (roundPlaces places m e : ℚ) / 10 ^ places - m * 2 ^ e =
      (roundPlaces places m e * binaryDenominator e - binaryNumerator m e * 10 ^ places) /
        (binaryDenominator e * 10 ^ places) := by
    rw [← numerator_div_denominator]
    field_simp
  rw [hdiff, abs_div, abs_of_pos (by positivity : (0 : ℚ) < binaryDenominator e * 10 ^ places),
    div_le_div_iff₀ (by positivity) (by positivity)]
  have hscaled := mul_le_mul_of_nonneg_right hround (by positivity : (0 : ℚ) ≤ 10 ^ places)
  rw [roundPlaces, Nat.pow_eq]
  linarith

/-! ## Section 3: Decimals and their values -/

/-- The number of a decimal. -/
def Written.value (d : Written) : ℚ := d.coefficient * 10 ^ d.exponent

/-- The number that a text with an optional sign stands for. -/
def number? (s : String) : Option ℚ :=
  let (negative, digits) := Decimal.signed s.toList
  (written? digits).map fun d => if negative then -d.value else d.value

/-- A text without a sign that stands for a number. -/
structure Numeral (s : String) (q : ℚ) : Prop where
  value : (written? s.toList).map Written.value = some q
  chars : ∀ c ∈ s.toList, c.isDigit = true ∨ c = '.'
  nonempty : s ≠ ""

/-- A text that is a word and stands for a number. -/
structure Reads (s : String) (q : ℚ) : Prop where
  isWord : Text.IsWord s
  number : number? s = some q

variable {whole after cs : List Char} {s : String} {q : ℚ}

theorem written?_of_digits (hne : cs ≠ []) (hdigits : ∀ c ∈ cs, c.isDigit = true) :
    written? cs = some ⟨digitsValue cs, 0⟩ := by
  rw [written?, List.takeWhile_eq_self_iff.2 hdigits, List.dropWhile_eq_nil_iff.2 hdigits]
  simp [hne, exponent?]

theorem written?_of_point (hne : after ≠ []) (hwhole : ∀ c ∈ whole, c.isDigit = true)
    (hafter : ∀ c ∈ after, c.isDigit = true) :
    written? (whole ++ '.' :: after) = some ⟨digitsValue (whole ++ after), -after.length⟩ := by
  have hpoint : ('.').isDigit = false := by decide
  rw [written?, List.takeWhile_append_of_pos hwhole, List.dropWhile_append_of_pos hwhole,
    List.takeWhile_cons_of_neg (by simp [hpoint]), List.dropWhile_cons_of_neg (by simp [hpoint]),
    List.append_nil]
  simp [List.takeWhile_eq_self_iff.2 hafter, List.dropWhile_eq_nil_iff.2 hafter, hne, exponent?]

/-- The digits of a number after any zeros stand for it. -/
theorem digitsValue_zeros (zeros n : ℕ) :
    digitsValue (List.replicate zeros '0' ++ Nat.toDigits 10 n) = n := by
  have hzeros : digitsValue (List.replicate zeros '0') = 0 := by
    induction zeros with
    | zero => rfl
    | succ zeros ih => rwa [List.replicate_succ]
  rw [digitsValue, List.foldl_append, ← digitsValue, hzeros]
  exact Nat.ofDigitChars_toDigits (by decide) (by decide)

theorem numeral_toString (n : ℕ) : Numeral (toString n) n := by
  have hdigit : ∀ c ∈ Nat.toDigits 10 n, c.isDigit = true :=
    fun c => Nat.isDigit_of_mem_toDigits (by decide) (by decide)
  have hvalue : digitsValue (Nat.toDigits 10 n) = n := digitsValue_zeros 0 n
  rw [Nat.toString_eq_ofList_toDigits]
  exact {
    value := by
      simp [written?_of_digits Nat.toDigits_ne_nil hdigit, hvalue, Written.value]
    chars := fun c hc => .inl (hdigit c (by simpa using hc))
    nonempty := by simp }

/-- **A number with a point** stands for the count of its last places. -/
theorem numeral_pointed (n : ℕ) {places : ℕ} (hplaces : 0 < places) :
    Numeral (pointed n places) (n / 10 ^ places) := by
  -- zeros in front make sure that there is a digit before the point
  let padded := List.replicate (places + 1 - (Nat.toDigits 10 n).length) '0' ++ Nat.toDigits 10 n
  let whole := padded.take (padded.length - places)
  let after := padded.drop (padded.length - places)
  have htext : (pointed n places).toList = whole ++ '.' :: after := by
    rw [pointed, if_neg hplaces.ne']
    exact String.toList_ofList
  have hdigit : ∀ c ∈ padded, c.isDigit = true := by
    intro c hc
    rcases List.mem_append.1 hc with hc | hc
    · rw [List.eq_of_mem_replicate hc]
      decide
    · exact Nat.isDigit_of_mem_toDigits (by decide) (by decide) hc
  have hwhole : ∀ c ∈ whole, c.isDigit = true := fun c hc => hdigit c (List.mem_of_mem_take hc)
  have hafter : ∀ c ∈ after, c.isDigit = true := fun c hc => hdigit c (List.mem_of_mem_drop hc)
  have hlength : after.length = places := by
    simp only [after, padded, List.length_drop, List.length_append, List.length_replicate]
    omega
  have hne : after ≠ [] := by
    rw [← List.length_pos_iff, hlength]
    exact hplaces
  -- without the point the two parts are the padded digits again
  have hvalue : digitsValue (whole ++ after) = n := by
    rw [List.take_append_drop]
    exact digitsValue_zeros _ n
  exact {
    value := by
      rw [htext, written?_of_point hne hwhole hafter, hvalue, hlength, Option.map_some,
        Written.value, zpow_neg, zpow_natCast, div_eq_mul_inv]
    chars := by
      rw [htext]
      simp only [List.mem_append, List.mem_cons]
      rintro c (hc | rfl | hc)
      · exact .inl (hwhole c hc)
      · exact .inr rfl
      · exact .inl (hafter c hc)
    nonempty := fun hempty => by simp [hempty] at htext }

theorem Numeral.not_blank (h : Numeral s q) : ∀ c ∈ s.toList, Text.isBlank c = false := by
  intro c hc
  rcases h.chars c hc with hdigit | rfl
  · exact Text.isBlank_eq_false_of_isDigit hdigit
  · decide

theorem Numeral.reads (h : Numeral s q) : Reads s q where
  isWord := ⟨h.nonempty, h.not_blank⟩
  number := by
    have hsign : Decimal.signed s.toList = (false, s.toList) := by
      have hchars := h.chars
      unfold Decimal.signed
      split <;> simp_all
    simpa [number?, hsign] using h.value

theorem Numeral.reads_plus (h : Numeral s q) : Reads ("+" ++ s) q where
  isWord := by
    have hsign : Text.IsWord "+" := by decide
    exact hsign.append h.not_blank
  number := by simpa [number?, Decimal.signed] using h.value

theorem Numeral.reads_minus (h : Numeral s q) : Reads ("-" ++ s) (-q) where
  isWord := by
    have hsign : Text.IsWord "-" := by decide
    exact hsign.append h.not_blank
  number := by
    obtain ⟨d, hd, rfl⟩ := Option.map_eq_some_iff.1 h.value
    simp [number?, Decimal.signed, hd]

theorem Numeral.not_startsWith_minus (h : Numeral s q) : ¬ s.startsWith "-" = true := by
  rw [String.startsWith_string_iff]
  intro hprefix
  have hmem : '-' ∈ s.toList := hprefix.subset (by decide)
  rcases h.chars _ hmem with hdigit | hpoint
  · exact absurd hdigit (by decide)
  · exact absurd hpoint (by decide)

/-! ## Section 4: Numbers with places -/

variable {places : ℕ} {x : Float}

/-- **A fixed number of places** is a sign and a number that is half of the last place away. -/
theorem exists_numeral_fixed (hx : x.isFinite = true) (hplaces : 0 < places) :
    ∃ sign t q, fixed places x = minus sign ++ t ∧ Numeral t q ∧
      |Double.signed sign q - Double.exact x| ≤ 1 / 2 / 10 ^ places := by
  have hfinite : x.toModel.unpack.isFinite = true := hx
  rw [fixed, Double.exact]
  cases hunpack : x.toModel.unpack with
  | notANumber => simp [hunpack, UnpackedFloat.isFinite] at hfinite
  | infinity sign => simp [hunpack, UnpackedFloat.isFinite] at hfinite
  | zero sign =>
    refine ⟨sign, _, _, rfl, numeral_pointed 0 hplaces, ?_⟩
    have hzero : Double.signed sign (((0 : ℕ) : ℚ) / 10 ^ places) = 0 := by
      cases sign <;> simp [Double.signed]
    rw [hzero, sub_zero, abs_zero]
    positivity
  | finite sign m e hm =>
    refine ⟨sign, _, _, rfl, numeral_pointed (roundPlaces places m e) hplaces, ?_⟩
    rw [Double.abs_signed_sub_signed]
    exact abs_roundPlaces_sub_le places m e

theorem exists_reads_fixed (hx : x.isFinite = true) (hplaces : 0 < places) :
    ∃ q, Reads (fixed places x) q ∧ |q - Double.exact x| ≤ 1 / 2 / 10 ^ places := by
  obtain ⟨sign, t, q, htext, ht, hq⟩ := exists_numeral_fixed hx hplaces
  refine ⟨_, ?_, hq⟩
  rw [htext]
  cases sign with
  | negative => exact ht.reads_minus
  | positive => simpa [minus, Double.signed] using ht.reads

theorem exists_reads_signedFixed (hx : x.isFinite = true) (hplaces : 0 < places) :
    ∃ q, Reads (signedFixed places x) q ∧ |q - Double.exact x| ≤ 1 / 2 / 10 ^ places := by
  have hnumber : ¬ x.isNaN = true := by
    have hfinite : x.toModel.unpack.isFinite = true := hx
    show ¬ x.toModel.unpack.isNaN = true
    cases hunpack : x.toModel.unpack <;> simp_all [UnpackedFloat.isFinite, UnpackedFloat.isNaN]
  obtain ⟨sign, t, q, htext, ht, hq⟩ := exists_numeral_fixed hx hplaces
  refine ⟨_, ?_, hq⟩
  rw [signedFixed, htext]
  cases sign with
  | negative =>
    rw [if_pos (.inr (String.startsWith_string_iff.2 (by simp [minus])))]
    exact ht.reads_minus
  | positive =>
    have hminus : minus .positive ++ t = t := by simp [minus]
    rw [hminus, if_neg (not_or.2 ⟨hnumber, ht.not_startsWith_minus⟩)]
    exact ht.reads_plus

end Decimal

end PairedMarkov
