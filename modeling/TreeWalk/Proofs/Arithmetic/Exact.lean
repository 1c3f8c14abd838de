import Mathlib.Data.Rat.Floor
import Mathlib.Tactic.FieldSimp
import Mathlib.Tactic.Linarith
import TreeWalk.Arithmetic.Stepwise
import TreeWalk.Proofs.Arithmetic

/-!
# Integer operators are exact or refuse

An operator on two 64-bit integers gives the integer that it gives on unbounded integers, and if
that has more than 64 bits the operator refuses.  It refuses nothing else but zero divisors
(`integers_exact_or_refused`).

## The two ways to compute

That a result is exact is seen from `Arithmetic`, which computes on unbounded integers, up to what
is not computed there: powers that are bound to be too large, and powers of zero, one and minus one.
That nothing overflows *on the way* cannot be seen there.  `Stepwise` takes the operators apart into
machine steps, of which some are not checked, and `Stepwise.onInts_eq` says that none of these is
ever given operands that it cannot take.

## The one quotient that does not fit

Dividing the smallest integer by minus one negates it, and there is no such integer.  All other
quotients fit, since a divisor of at least two in magnitude takes away half of the dividend, which
leaves room for the correction by one.
-/

namespace TreeWalk

/-! ## Quotients and remainders -/

section Quotients

variable {a b n : Int}

/-- The remainder that belongs to the quotient below is smaller than the divisor and has its
sign. -/
theorem fmod_spec (a : Int) (hb : b ≠ 0) :
    (0 < b ∧ 0 ≤ a.fmod b ∧ a.fmod b < b) ∨ (b < 0 ∧ b < a.fmod b ∧ a.fmod b ≤ 0) := by
  obtain hb | hb := Int.lt_or_gt_of_ne hb
  · have hnonneg := Int.emod_nonneg a hb.ne
    have hlt := Int.emod_lt a hb.ne
    refine Or.inr ⟨hb, ?_⟩
    rw [Int.fmod_eq_emod]
    split_ifs with hdvd
    · rw [Int.emod_eq_zero_of_dvd (hdvd.resolve_left hb.not_ge)]
      omega
    · have hne : a % b ≠ 0 := fun h => hdvd (Or.inr (Int.dvd_of_emod_eq_zero h))
      omega
  · exact Or.inl ⟨hb, Int.fmod_nonneg_of_pos a hb, Int.fmod_lt_of_pos a hb⟩

/-- The quotient below is the greatest integer that does not exceed the quotient. -/
theorem fdiv_eq_floor (a : Int) (hb : b ≠ 0) : a.fdiv b = ⌊(a : ℚ) / b⌋ := by
  have hsum : ((a.fdiv b : ℚ) * b + a.fmod b) = a := by
    exact_mod_cast Int.fdiv_mul_add_fmod a b
  have hne : (b : ℚ) ≠ 0 := by exact_mod_cast hb
  have hquotient : (a : ℚ) / b = a.fdiv b + (a.fmod b : ℚ) / b := by
    rw [← hsum]
    field_simp
  have hfraction : 0 ≤ (a.fmod b : ℚ) / b ∧ (a.fmod b : ℚ) / b < 1 := by
    obtain ⟨hpos, hnonneg, hlt⟩ | ⟨hneg, hgt, hnonpos⟩ := fmod_spec a hb
    · rw [div_lt_one (by exact_mod_cast hpos)]
      exact ⟨div_nonneg (by exact_mod_cast hnonneg) (by exact_mod_cast hpos.le),
        by exact_mod_cast hlt⟩
    · rw [div_lt_one_of_neg (by exact_mod_cast hneg)]
      exact ⟨div_nonneg_of_nonpos (by exact_mod_cast hnonpos) (by exact_mod_cast hneg.le),
        by exact_mod_cast hgt⟩
  symm
  rw [Int.floor_eq_iff, hquotient]
  exact ⟨le_add_of_nonneg_right hfraction.1, by linarith [hfraction.2]⟩

/-- A remainder that is cut off at zero has the sign of the dividend. -/
theorem tmod_neg_iff (h : a.tmod b ≠ 0) : a.tmod b < 0 ↔ a < 0 := by
  have hsign := Int.sign_tmod a b
  rw [if_neg fun hdvd => h (Int.tmod_eq_zero_of_dvd hdvd)] at hsign
  rw [← Int.sign_eq_neg_one_iff_neg, hsign, Int.sign_eq_neg_one_iff_neg]

/-- The quotient below, got from the quotient that is cut off at zero. -/
theorem fdiv_eq_of_tdiv (hb : b ≠ 0) :
    a.fdiv b = if a.tmod b ≠ 0 ∧ ¬ (a < 0 ↔ b < 0) then a.tdiv b - 1 else a.tdiv b := by
  have hdvd : b ∣ a ↔ a.tmod b = 0 := Int.dvd_iff_tmod_eq_zero
  rw [Int.fdiv_eq_tdiv]
  obtain hb | hb := Int.lt_or_gt_of_ne hb
  · rw [Int.sign_eq_neg_one_of_neg hb]
    split_ifs <;> omega
  · rw [Int.sign_eq_one_of_pos hb]
    split_ifs <;> omega

/-- The remainder with the sign of the divisor, got from the remainder with the sign of the
dividend. -/
theorem fmod_eq_of_tmod (a b : Int) :
    a.fmod b = if a.tmod b ≠ 0 ∧ ¬ (a.tmod b < 0 ↔ b < 0) then a.tmod b + b else a.tmod b := by
  have hdvd : b ∣ a ↔ a.tmod b = 0 := Int.dvd_iff_tmod_eq_zero
  have hsign : a.tmod b ≠ 0 → (a.tmod b < 0 ↔ a < 0) := tmod_neg_iff
  rw [Int.fmod_eq_tmod]
  split_ifs <;> omega

end Quotients

/-! ## What fits -/

section Fits

variable {a b n : Int}

/-- The range of 64-bit integers. -/
theorem fitsInt64_iff : FitsInt64 n ↔ -9223372036854775808 ≤ n ∧ n ≤ 9223372036854775807 := Iff.rfl

theorem toInt_ofInt_of_fits (h : FitsInt64 n) : (Int64.ofInt n).toInt = n := by
  rw [fitsInt64_iff] at h
  exact Int64.toInt_ofInt_of_le (by omega) (by omega)

/-- A divisor of at least two in magnitude takes away at least half of the dividend. -/
theorem natAbs_tdiv_le_half (a : Int) (hb : 2 ≤ b.natAbs) : (a.tdiv b).natAbs ≤ a.natAbs / 2 := by
  rw [Int.natAbs_tdiv]
  exact Nat.div_le_div_left hb (by decide)

/-- A quotient that is cut off at zero fits unless the smallest integer is negated. -/
theorem fits_tdiv_iff (ha : FitsInt64 a) (hb : b ≠ 0) :
    FitsInt64 (a.tdiv b) ↔ ¬ (a = -9223372036854775808 ∧ b = -1) := by
  rw [fitsInt64_iff] at ha ⊢
  obtain rfl | rfl | htwo : b = 1 ∨ b = -1 ∨ 2 ≤ b.natAbs := by omega
  · rw [Int.tdiv_one]
    omega
  · rw [Int.tdiv_neg, Int.tdiv_one]
    omega
  · have hle := natAbs_tdiv_le_half a htwo
    omega

/-- A quotient below fits unless the smallest integer is negated.  Where it is not the quotient
that is cut off at zero, there is a remainder, so the divisor is at least two in magnitude. -/
theorem fits_fdiv_iff (ha : FitsInt64 a) (hb : b ≠ 0) :
    FitsInt64 (a.fdiv b) ↔ ¬ (a = -9223372036854775808 ∧ b = -1) := by
  rw [fdiv_eq_of_tdiv hb]
  split_ifs with h
  · obtain rfl | rfl | htwo : b = 1 ∨ b = -1 ∨ 2 ≤ b.natAbs := by omega
    · exact absurd (Int.tmod_one a) h.1
    · exact absurd (Int.tmod_eq_zero_of_dvd (Int.neg_dvd.mpr (one_dvd a))) h.1
    · have hle := natAbs_tdiv_le_half a htwo
      rw [fitsInt64_iff] at ha ⊢
      omega
  · exact fits_tdiv_iff ha hb

/-- A remainder with the sign of the divisor fits. -/
theorem fits_fmod (a : Int) (hb : FitsInt64 b) (hne : b ≠ 0) : FitsInt64 (a.fmod b) := by
  have hspec := fmod_spec a hne
  rw [fitsInt64_iff] at hb ⊢
  omega

/-- A power of a base of at least two in magnitude does not fit if the exponent is at least
sixty-four. -/
theorem not_fits_pow {e : Nat} (ha : 2 ≤ a.natAbs) (he : 64 ≤ e) : ¬ FitsInt64 (a ^ e) := by
  have hpow : 2 ^ 64 ≤ (a ^ e).natAbs := by
    rw [Int.natAbs_pow]
    exact (Nat.pow_le_pow_left ha 64).trans (Nat.pow_le_pow_right (by omega) he)
  rw [fitsInt64_iff]
  omega

/-- A power of a base below two in magnitude is told from the parity of the exponent. -/
theorem pow_of_small {e : Nat} (ha : a.natAbs < 2) (he : e ≠ 0) :
    a ^ e = if e % 2 = 0 then a * a else a := by
  obtain rfl | rfl | rfl : a = 0 ∨ a = 1 ∨ a = -1 := by omega
  · rw [zero_pow he]
    split_ifs <;> rfl
  · rw [one_pow]
    split_ifs <;> rfl
  · split_ifs with heven
    · rw [Even.neg_one_pow (Nat.even_iff.mpr heven)]
      rfl
    · rw [Odd.neg_one_pow (Nat.not_even_iff_odd.mp (mt Nat.even_iff.mp heven))]

end Fits

/-! ## 64-bit integers as integers -/

section Words

variable {a b : Int64}

theorem toInt_ne (h : a ≠ b) : a.toInt ≠ b.toInt := mt Int64.toInt_inj.mp h

theorem toInt_neg_iff : a < 0 ↔ a.toInt < 0 := Int64.lt_iff_toInt_lt

/-- The smallest integer divided by minus one, as integers. -/
theorem minValue_iff : (a = Int64.minValue ∧ b = -1) ↔
    (a.toInt = -9223372036854775808 ∧ b.toInt = -1) := by
  rw [← Int64.toInt_inj, ← Int64.toInt_inj]
  exact Iff.rfl

end Words

/-! ## Steps -/

namespace Stepwise

variable {a b : Int64}

theorem fit?_of_fits {n : Int} (h : FitsInt64 n) : fit? n = some (Int64.ofInt n) := if_pos h

theorem fit?_of_not_fits {n : Int} (h : ¬ FitsInt64 n) : fit? n = none := if_neg h

/-- A checked result is the exact result or an overflow. -/
theorem result_fit? (operation : IntOperation) (n : Int) :
    result operation (fit? n) = Arithmetic.checked operation n := by
  by_cases h : FitsInt64 n
  · rw [fit?_of_fits h, Arithmetic.checked_of_fits h]
    rfl
  · rw [fit?_of_not_fits h, Arithmetic.checked_of_not_fits h]
    rfl

theorem remainder_eq (hb : b ≠ 0) (h : ¬ (a = Int64.minValue ∧ b = -1)) :
    remainder a b = .ok (a % b) := by
  unfold remainder
  rw [if_neg hb, if_neg h]

/-- Whether the quotient has to be corrected. -/
theorem mod_ne_zero_iff : a % b ≠ 0 ↔ a.toInt.tmod b.toInt ≠ 0 := by
  rw [← Int64.toInt_mod, ← Int64.toInt_zero, ne_eq, ne_eq, Int64.toInt_inj]

/-- **Floor division takes no step that fails**, and its result is the quotient below. -/
theorem floorQuotient_eq (hb : b ≠ 0) :
    floorQuotient a b = .ok (fit? (a.toInt.fdiv b.toInt)) := by
  have hne : b.toInt ≠ 0 := toInt_ne hb
  have hfits := fits_tdiv_iff (fitsInt64_toInt a) hne
  unfold floorQuotient checkedQuotient
  rw [if_neg hb]
  by_cases h : a = Int64.minValue ∧ b = -1
  · have hfloor := fits_fdiv_iff (fitsInt64_toInt a) hne
    rw [fit?_of_not_fits (hfits.not.mpr (not_not.mpr (minValue_iff.mp h))),
      fit?_of_not_fits (hfloor.not.mpr (not_not.mpr (minValue_iff.mp h)))]
  · have hquotient := hfits.mpr (minValue_iff.not.mp h)
    rw [fit?_of_fits hquotient, fdiv_eq_of_tdiv hne]
    dsimp only
    rw [remainder_eq hb h]
    show (if a % b ≠ 0 ∧ ¬ (a < 0 ↔ b < 0) then Except.ok _ else Except.ok _) = _
    simp only [mod_ne_zero_iff, toInt_neg_iff, toInt_ofInt_of_fits hquotient]
    split_ifs
    · rfl
    · rw [fit?_of_fits hquotient]

/-- **The remainder takes no step that fails**: where the divisor is added, the signs differ. -/
theorem floorRemainder_eq (hb : b ≠ 0) :
    floorRemainder a b = .ok (Int64.ofInt (a.toInt.fmod b.toInt)) := by
  have hfits := fits_fmod a.toInt (fitsInt64_toInt b) (toInt_ne hb)
  have hmod : (a % b).toInt = a.toInt.tmod b.toInt := Int64.toInt_mod a b
  rw [fmod_eq_of_tmod] at hfits ⊢
  unfold floorRemainder wrappingRemainder
  rw [if_neg hb]
  show (if a % b ≠ 0 ∧ ¬ (a % b < 0 ↔ b < 0) then sum (a % b) b else Except.ok (a % b)) = _
  simp only [mod_ne_zero_iff, toInt_neg_iff, hmod] at hfits ⊢
  split_ifs with h
  · rw [if_pos h] at hfits
    unfold sum
    rw [hmod, fit?_of_fits hfits]
  · rw [← hmod, Int64.ofInt_toInt]

end Stepwise

namespace Arithmetic

/-- The power is what is computed, by however few multiplications. -/
theorem naturalPower_eq (a : Int) (e : Nat) :
    naturalPower a e = checked .exponentiation (a ^ e) := by
  unfold naturalPower
  split_ifs with hlarge htwo hzero heven
  · rw [checked_of_not_fits (not_fits_pow hlarge.1 hlarge.2)]
  · rfl
  · rw [hzero, pow_zero]
  · rw [pow_of_small (by omega) hzero, if_pos heven]
  · rw [pow_of_small (by omega) hzero, if_neg heven]

end Arithmetic

namespace Stepwise

variable {a b : Int64}

/-- An exponent of more than 32 bits is not zero. -/
theorem toNat_ne_zero (h : ¬ b.toInt < UInt32.size) : b.toInt.toNat ≠ 0 := by
  have hsize : (0 : Int) < UInt32.size := by decide
  omega

/-- **A power takes no step that fails**, and its result is exact. -/
theorem naturalPower_eq (hb : 0 ≤ b.toInt) :
    naturalPower a b = .ok (fit? (a.toInt ^ b.toInt.toNat)) := by
  unfold naturalPower
  split_ifs with hsmall hunit hminus
  · rfl
  · have hself : a.toInt ^ b.toInt.toNat = a.toInt := by
      rw [pow_of_small (by obtain rfl | rfl := hunit <;> decide) (toNat_ne_zero hsmall)]
      obtain rfl | rfl := hunit <;> split_ifs <;> rfl
    rw [hself, fit?_of_fits (fitsInt64_toInt a), Int64.ofInt_toInt]
  · subst hminus
    have heven : b % 2 = 0 ↔ b.toInt.toNat % 2 = 0 := by
      rw [← Int64.toInt_inj, Int64.toInt_mod]
      show b.toInt.tmod 2 = 0 ↔ _
      rw [Int.tmod_eq_emod_of_nonneg hb]
      omega
    have hremainder : remainder b 2 = .ok (b % 2) :=
      remainder_eq (by decide) fun h => absurd h.2 (by decide)
    rw [hremainder, pow_of_small (a := (-1 : Int64).toInt) (by decide) (toNat_ne_zero hsmall)]
    show Except.ok (some (if b % 2 = 0 then (1 : Int64) else -1)) = _
    simp only [heven]
    split_ifs <;> rfl
  · obtain ⟨hzero, hone⟩ := not_or.mp hunit
    have hzero : a.toInt ≠ 0 := toInt_ne hzero
    have hone : a.toInt ≠ 1 := toInt_ne hone
    have hminus : a.toInt ≠ -1 := toInt_ne hminus
    have hsize : (64 : Int) ≤ UInt32.size := by decide
    rw [fit?_of_not_fits (not_fits_pow (by omega) (by omega))]

/-- **Nothing overflows on the way.**  Taken apart into machine steps, no operator on integers is
stopped by a step that overflows unchecked or divides by zero, and its result is the same. -/
theorem onInts_eq (op : BinaryOp) (a b : Int64) :
    onInts op a b = .ok (Arithmetic.onInts op a b) := by
  cases op with
  | add | sub | mul => exact congrArg Except.ok (result_fit? _ _)
  | div =>
    simp only [onInts, Arithmetic.onInts]
    split_ifs <;> rfl
  | floorDiv =>
    simp only [onInts, Arithmetic.onInts]
    split_ifs with hb
    · rfl
    · rw [floorQuotient_eq hb, ← result_fit?]
      rfl
  | mod =>
    simp only [onInts, Arithmetic.onInts]
    split_ifs with hb
    · rfl
    · rw [floorRemainder_eq hb]
      rfl
  | pow =>
    simp only [onInts, Arithmetic.onInts, Arithmetic.power, toInt_neg_iff]
    by_cases hb : b.toInt < 0
    · rw [if_pos hb, if_neg hb.not_ge]
      split_ifs <;> rfl
    · rw [if_neg hb, if_pos (not_lt.mp hb), naturalPower_eq (not_lt.mp hb),
        Arithmetic.naturalPower_eq, ← result_fit?]
      rfl
  | lt | gt | ge | le =>
    simp only [onInts, Arithmetic.onInts, Int64.lt_iff_toInt_lt, Int64.le_iff_toInt_le]
  | eq => rfl

end Stepwise

namespace Arithmetic

/-! ## Results -/

/-- A result is the given integer, if this is a 64-bit integer, and an overflow otherwise. -/
def IsExact (operation : IntOperation) (n : Int) (r : Except EvalError Value) : Prop :=
  if FitsInt64 n then ∃ m : Int64, m.toInt = n ∧ r = .ok (.int m)
  else r = .error (.integerOverflow operation)

theorem isExact_checked (operation : IntOperation) (n : Int) :
    IsExact operation n (checked operation n) := by
  unfold IsExact
  split_ifs with h
  · exact ⟨Int64.ofInt n, toInt_ofInt_of_fits h, checked_of_fits h⟩
  · exact checked_of_not_fits h

/-- What a quotient and a remainder have to be.  They are refused for a zero divisor alone.
Otherwise the quotient is the greatest integer that is not above the exact quotient, and the
remainder is what is missing, is smaller than the divisor and has its sign. -/
def IsFloorDivision (a b : Int64) (quotient remainder : Except EvalError Value) : Prop :=
  if b = 0 then
    quotient = .error (.divisionByZero .floorDivision) ∧
      remainder = .error (.divisionByZero .modulo)
  else ∃ q r : Int, q = ⌊(a.toInt : ℚ) / b.toInt⌋ ∧ q * b.toInt + r = a.toInt ∧
    r.natAbs < b.toInt.natAbs ∧ (r = 0 ∨ r.sign = b.toInt.sign) ∧
    IsExact .floorDivision q quotient ∧ (FitsInt64 q ↔ ¬ (a = Int64.minValue ∧ b = -1)) ∧
    ∃ m : Int64, m.toInt = r ∧ remainder = .ok (.int m)

/-- What a power has to be.  It is exact if the exponent is not negative.  Otherwise it is a float,
and refused for the base zero alone. -/
def IsPower (a b : Int64) (r : Except EvalError Value) : Prop :=
  if b < 0 then
    if a = 0 then r = .error (.divisionByZero .negativePower) else ∃ x, r = .ok (.float x)
  else IsExact .exponentiation (a.toInt ^ b.toInt.toNat) r

theorem isFloorDivision_onInts (a b : Int64) :
    IsFloorDivision a b (onInts .floorDiv a b) (onInts .mod a b) := by
  unfold IsFloorDivision
  split_ifs with hb
  · exact ⟨if_pos hb, if_pos hb⟩
  · have hne : b.toInt ≠ 0 := toInt_ne hb
    have hspec := fmod_spec a.toInt hne
    have hsign : a.toInt.fmod b.toInt = 0 ∨ (a.toInt.fmod b.toInt).sign = b.toInt.sign := by
      obtain ⟨hpos, hnonneg, -⟩ | ⟨hneg, -, hnonpos⟩ := hspec
      · refine hnonneg.eq_or_lt.imp Eq.symm fun h => ?_
        rw [Int.sign_eq_one_of_pos h, Int.sign_eq_one_of_pos hpos]
      · refine hnonpos.eq_or_lt.imp id fun h => ?_
        rw [Int.sign_eq_neg_one_of_neg h, Int.sign_eq_neg_one_of_neg hneg]
    have hquotient : onInts .floorDiv a b = checked .floorDivision (a.toInt.fdiv b.toInt) :=
      if_neg hb
    refine ⟨a.toInt.fdiv b.toInt, a.toInt.fmod b.toInt, fdiv_eq_floor a.toInt hne,
      Int.fdiv_mul_add_fmod a.toInt b.toInt, by omega, hsign, ?_, ?_, ?_⟩
    · rw [hquotient]
      exact isExact_checked .floorDivision _
    · rw [fits_fdiv_iff (fitsInt64_toInt a) hne, minValue_iff]
    · exact ⟨_, toInt_ofInt_of_fits (fits_fmod a.toInt (fitsInt64_toInt b) hne), if_neg hb⟩

theorem isPower_onInts (a b : Int64) : IsPower a b (onInts .pow a b) := by
  unfold IsPower
  simp only [onInts, power, toInt_neg_iff]
  by_cases hb : b.toInt < 0
  · rw [if_pos hb, if_neg hb.not_ge]
    split_ifs
    · rfl
    · exact ⟨_, rfl⟩
  · rw [if_neg hb, if_pos (not_lt.mp hb), naturalPower_eq]
    exact isExact_checked .exponentiation _

/-- **Integer operators are exact or refuse.**  Sums, differences and products are exact or
overflow.  Quotients and remainders are refused for a zero divisor alone, and of the others only the
quotient of the smallest integer by minus one overflows, where the remainder is zero.  A power is
exact or overflows if its exponent is not negative, and is refused for the base zero or is a float
if it is.  Taken apart into machine steps, no operator comes to a step that cannot be taken. -/
theorem integers_exact_or_refused (a b : Int64) :
    IsExact .addition (a.toInt + b.toInt) (binary .add (.int a) (.int b)) ∧
    IsExact .subtraction (a.toInt - b.toInt) (binary .sub (.int a) (.int b)) ∧
    IsExact .multiplication (a.toInt * b.toInt) (binary .mul (.int a) (.int b)) ∧
    IsFloorDivision a b (binary .floorDiv (.int a) (.int b)) (binary .mod (.int a) (.int b)) ∧
    binary .mod (.int Int64.minValue) (.int (-1)) = .ok (.int 0) ∧
    IsPower a b (binary .pow (.int a) (.int b)) ∧
    ∀ op, Stepwise.onInts op a b = .ok (binary op (.int a) (.int b)) :=
  ⟨isExact_checked .addition _, isExact_checked .subtraction _, isExact_checked .multiplication _,
    isFloorDivision_onInts a b, by decide, isPower_onInts a b, fun op => Stepwise.onInts_eq op a b⟩

/-- The smallest integer is a power, and the largest exponents are no obstacle to small bases. -/
example : binary .pow (.int (-2)) (.int 63) = .ok (.int Int64.minValue) ∧
    binary .pow (.int (-1)) (.int Int64.maxValue) = .ok (.int (-1)) := by decide

end Arithmetic

end TreeWalk
