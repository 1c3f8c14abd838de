import TreeWalk.Proofs.Decimal.Interval
import TreeWalk.Proofs.Printing

/-!
# The text of a value tells the value

Two values that are printed alike are the same value, unless they are floats that are no numbers
(`text_faithful`).

A float is printed with a point or with letters, and an integer with neither, so the kinds are
told apart.  What is printed for a finite float is some decimal in the interval of the float,
whether that is the value itself or the shortest decimal (`contains_floatDecimal`).  Its digits
tell its value, and since the intervals of two floats have nothing in common, the value tells the
float.  So it does not matter which of several decimals in the interval is printed.

## Whole floats

A whole float is printed digit by digit, with a point and a zero behind.  A float with a
fractional part must not look like that, whatever digits are chosen for it.  It does not, since a
text that ends in a point and a zero is the text of an integer, and there is none in the interval.
-/

namespace TreeWalk

namespace Decimal

variable {d e : Decimal}

/-- All digits over as many tens as there are digits behind the point are the value. -/
theorem toRat_eq (d : Decimal) :
    d.toRat = Nat.ofDigitChars 10 (d.whole ++ d.fraction) 0 / 10 ^ d.fraction.length := by
  obtain ⟨k, hk, hdigits⟩ := d.ofDigitChars_pointed
  have hexponent : d.exponent = (k : ℤ) - (d.fraction.length : ℤ) := by omega
  rw [hdigits, toRat, hexponent, zpow_sub₀ (by norm_num), zpow_natCast, zpow_natCast, Nat.pow_eq]
  push_cast
  ring

/-- What is written with a point tells its value. -/
theorem toRat_eq_of_pointed_eq (h : d.pointed = e.pointed) : d.toRat = e.toRat := by
  obtain ⟨hwhole, hfraction⟩ := eq_of_pointed_eq h
  rw [toRat_eq d, toRat_eq e, hwhole, hfraction]

/-- A decimal is whole if there is nothing but a zero behind the point. -/
theorem exists_natCast_of_fraction_eq (h : d.fraction = ['0']) : ∃ n : ℕ, d.toRat = n := by
  refine ⟨Nat.ofDigitChars 10 d.whole 0, ?_⟩
  have hzero : Nat.ofDigitChars 10 ['0'] (Nat.ofDigitChars 10 d.whole 0) =
      10 * Nat.ofDigitChars 10 d.whole 0 := Nat.ofDigitChars_cons
  rw [toRat_eq, h, Nat.ofDigitChars_append, hzero, List.length_singleton, pow_one,
    div_eq_iff (by norm_num)]
  push_cast
  ring

/-- An integer with a point. -/
theorem pointed_natCast (n : ℕ) : (⟨n, 0⟩ : Decimal).pointed = digitChars n ++ ['.', '0'] := by
  rw [← positional_append_eq_pointed]
  simp [positional, zeros]

end Decimal

namespace Value

variable {x y : Float} {p : Parts} {n : ℕ} {c : Char}

/-! ## Decimals of floats -/

theorem whole?_of_mantissa_eq_zero (h : p.mantissa = 0) : Binary64.whole? p = some 0 := by
  rw [Decimal.whole?_eq_some_iff, Parts.magnitude, h, Nat.cast_zero, zero_mul]

/-- A whole float is printed as the integer that it is. -/
theorem floatDecimal_of_whole? (h : Binary64.whole? p = some n) : floatDecimal p = ⟨n, 0⟩ := by
  unfold floatDecimal Style.decimal
  split
  · rename_i hzero
    cases h.symm.trans (whole?_of_mantissa_eq_zero hzero)
    rfl
  · rw [h]
    rfl

/-- Any other float is printed as the shortest decimal. -/
theorem floatDecimal_of_not_whole (h : Binary64.whole? p = none) :
    floatDecimal p = Decimal.shortest .up p := by
  unfold floatDecimal Style.decimal
  split
  · rename_i hzero
    cases h.symm.trans (whole?_of_mantissa_eq_zero hzero)
  · rw [h]
    rfl

/-- What is printed for a finite float lies in its interval. -/
theorem contains_floatDecimal (p : Parts) :
    (Decimal.Interval.ofParts p).Contains (floatDecimal p).toRat := by
  cases hwhole : Binary64.whole? p with
  | some n =>
    rw [floatDecimal_of_whole? hwhole, Decimal.toRat_natCast,
      ← Decimal.whole?_eq_some_iff.mp hwhole]
    exact Decimal.Interval.contains_magnitude p
  | none =>
    rw [floatDecimal_of_not_whole hwhole]
    exact Decimal.contains_shortest .up p

/-- A float with a fractional part is not printed with a zero alone behind the point. -/
theorem fraction_floatDecimal_ne (h : Binary64.whole? p = none) :
    (floatDecimal p).fraction ≠ ['0'] := by
  intro hzero
  obtain ⟨n, hn⟩ := Decimal.exists_natCast_of_fraction_eq hzero
  have hcontains := contains_floatDecimal p
  rw [hn] at hcontains
  obtain ⟨m, hm⟩ := Decimal.exists_whole_of_contains hcontains
  cases h.symm.trans hm

/-! ## Signs -/

/-- The characters of a sign. -/
def signChars (negative : Bool) : List Char := if negative then ['-'] else []

/-- A sign is told from what stands behind it. -/
theorem eq_of_signChars_append_eq {s t : Bool} {a b : List Char} (ha : '-' ∉ a) (hb : '-' ∉ b)
    (h : signChars s ++ a = signChars t ++ b) : s = t ∧ a = b := by
  cases s with
  | false =>
    cases t with
    | false => exact ⟨rfl, h⟩
    | true =>
      have hmem : '-' ∈ a := by
        rw [show a = '-' :: b from h]
        exact List.mem_cons_self
      exact absurd hmem ha
  | true =>
    cases t with
    | false =>
      have hmem : '-' ∈ b := by
        rw [show b = '-' :: a from h.symm]
        exact List.mem_cons_self
      exact absurd hmem hb
    | true => exact ⟨rfl, (List.cons.inj h).2⟩

theorem eq_of_mem_signChars {s : Bool} (h : c ∈ signChars s) : c = '-' := by
  cases s with
  | false => cases h
  | true => exact List.mem_singleton.mp h

theorem sign_not_mem_pointed (d : Decimal) : '-' ∉ d.pointed := fun h => by
  rcases Decimal.isDigit_or_eq_of_mem_pointed h with h | h <;> cases h

/-! ## Texts -/

theorem toList_text_int (n : Int64) :
    (int n).text.toList = signChars (n.toInt < 0) ++ Nat.toDigits 10 n.toInt.natAbs := by
  show n.toInt.repr.toList = _
  rw [Int.repr_eq_if]
  by_cases hn : 0 ≤ n.toInt
  · have hnat : n.toInt.natAbs = n.toInt.toNat := by omega
    have hsign : decide (n.toInt < 0) = false := decide_eq_false (by omega)
    rw [if_pos hn, hsign, hnat, Nat.toList_repr]
    rfl
  · have hnat : n.toInt.natAbs = (-n.toInt).toNat := by omega
    have hsign : decide (n.toInt < 0) = true := decide_eq_true (by omega)
    rw [if_neg hn, hsign, hnat, String.toList_append, Nat.toList_repr]
    rfl

theorem isNaN_eq_false_of_isFinite (hx : Binary64.isFinite x = true) : x.isNaN = false := by
  refine Bool.eq_false_iff.mpr fun hnan => ?_
  obtain ⟨hfull, -⟩ := Binary64.isNaN_iff.mp hnan
  rw [Binary64.isFinite, hfull] at hx
  cases hx

theorem text_of_isNaN (hx : x.isNaN = true) : (float x).text = "nan" := if_pos hx

theorem toList_text_of_isFinite (hx : Binary64.isFinite x = true) :
    (float x).text.toList =
      signChars (Binary64.signBit x) ++ (floatDecimal (Binary64.parts x)).pointed := by
  show (floatStyle.write x).toList = _
  unfold Style.write
  rw [if_neg (Bool.eq_false_iff.mp (isNaN_eq_false_of_isFinite hx)), String.toList_ofList,
    if_pos hx, magnitude_eq_pointed]
  rfl

theorem toList_text_of_not_isFinite (hx : x.isNaN = false) (hx' : Binary64.isFinite x = false) :
    (float x).text.toList = signChars (Binary64.signBit x) ++ "inf".toList := by
  show (floatStyle.write x).toList = _
  unfold Style.write
  rw [if_neg (Bool.eq_false_iff.mp hx), String.toList_ofList,
    if_neg (Bool.eq_false_iff.mp hx')]
  rfl

/-! ## What the text tells -/

theorem eq_of_text_int_eq {m n : Int64} (h : (int m).text = (int n).text) : m = n := by
  have hdigits {k : ℕ} : '-' ∉ Nat.toDigits 10 k := fun hmem => by
    cases Decimal.isDigit_of_mem_digitChars hmem
  have hlist := congrArg String.toList h
  rw [toList_text_int, toList_text_int] at hlist
  obtain ⟨hsign, hlist⟩ := eq_of_signChars_append_eq hdigits hdigits hlist
  have habs := congrArg (Nat.ofDigitChars 10 · 0) hlist
  rw [Nat.ofDigitChars_ten_toDigits, Nat.ofDigitChars_ten_toDigits] at habs
  rw [decide_eq_decide] at hsign
  exact Int64.toInt_inj.mp (by omega)

/-- The text of a finite float tells the float. -/
theorem eq_of_text_eq_of_isFinite (hx : Binary64.isFinite x = true)
    (hy : Binary64.isFinite y = true) (h : (float x).text = (float y).text) : x = y := by
  have hlist := congrArg String.toList h
  rw [toList_text_of_isFinite hx, toList_text_of_isFinite hy] at hlist
  obtain ⟨hsign, hpointed⟩ :=
    eq_of_signChars_append_eq (sign_not_mem_pointed _) (sign_not_mem_pointed _) hlist
  have hvalue := Decimal.toRat_eq_of_pointed_eq hpointed
  obtain ⟨hmantissa, hexponent⟩ := Decimal.Interval.unique_of_contains
    (Binary64.canonical_parts x) (Binary64.canonical_parts y)
    (contains_floatDecimal (Binary64.parts x)) (hvalue ▸ contains_floatDecimal (Binary64.parts y))
  exact Binary64.eq_of_parts_eq hsign hmantissa hexponent

theorem point_mem_text (hx : Binary64.isFinite x = true) : '.' ∈ (float x).text.toList := by
  rw [toList_text_of_isFinite hx]
  exact List.mem_append_right _ (List.mem_append_right _ List.mem_cons_self)

/-- The point, or the letters of a float that is not finite. -/
theorem exists_mem_text_float (x : Float) :
    ∃ c ∈ (float x).text.toList, c.isDigit = false ∧ c ≠ '-' := by
  cases hnan : x.isNaN with
  | true =>
    rw [text_of_isNaN hnan]
    exact ⟨'n', by decide, by decide, by decide⟩
  | false =>
    cases hfinite : Binary64.isFinite x with
    | true => exact ⟨'.', point_mem_text hfinite, by decide, by decide⟩
    | false =>
      rw [toList_text_of_not_isFinite hnan hfinite]
      exact ⟨'i', List.mem_append_right _ (by decide), by decide, by decide⟩

theorem text_int_ne_text_float (n : Int64) (x : Float) : (int n).text ≠ (float x).text := by
  intro h
  obtain ⟨c, hc, hdigit, hsign⟩ := exists_mem_text_float x
  rw [← h] at hc
  rcases isDigit_or_eq_of_mem_repr hc with h | h
  · cases h.symm.trans hdigit
  · exact hsign h

/-- The characters of a finite float. -/
theorem mem_text_of_isFinite (hx : Binary64.isFinite x = true) (hc : c ∈ (float x).text.toList) :
    c = '-' ∨ c.isDigit = true ∨ c = '.' := by
  rw [toList_text_of_isFinite hx] at hc
  rcases List.mem_append.mp hc with hc | hc
  · exact Or.inl (eq_of_mem_signChars hc)
  · exact Or.inr (Decimal.isDigit_or_eq_of_mem_pointed hc)

/-- Only `None` has a capital letter. -/
theorem capital_not_mem_text {v : Value} (hv : v ≠ nil) : 'N' ∉ v.text.toList := by
  intro h
  cases v with
  | int n => rcases isDigit_or_eq_of_mem_repr h with h | h <;> cases h
  | float x =>
    cases hnan : x.isNaN with
    | true =>
      rw [text_of_isNaN hnan] at h
      exact absurd h (by decide)
    | false =>
      cases hfinite : Binary64.isFinite x with
      | true => rcases mem_text_of_isFinite hfinite h with h | h | h <;> cases h
      | false =>
        rw [toList_text_of_not_isFinite hnan hfinite] at h
        rcases List.mem_append.mp h with h | h
        · cases eq_of_mem_signChars h
        · exact absurd h (by decide)
  | nil => exact hv rfl

/-- A value is a float that is no number. -/
def isNaN : Value → Bool
  | float x => x.isNaN
  | _ => false

theorem eq_of_text_float_eq (hx : x.isNaN = false) (hy : y.isNaN = false)
    (h : (float x).text = (float y).text) : x = y := by
  have hinf {a b : Float} (ha : Binary64.isFinite a = true) (hb : b.isNaN = false)
      (hb' : Binary64.isFinite b = false) : (float a).text ≠ (float b).text := by
    intro h
    have hpoint := point_mem_text ha
    rw [h, toList_text_of_not_isFinite hb hb'] at hpoint
    rcases List.mem_append.mp hpoint with hpoint | hpoint
    · cases eq_of_mem_signChars hpoint
    · exact absurd hpoint (by decide)
  cases hfx : Binary64.isFinite x with
  | true =>
    cases hfy : Binary64.isFinite y with
    | true => exact eq_of_text_eq_of_isFinite hfx hfy h
    | false => exact absurd h (hinf hfx hy hfy)
  | false =>
    cases hfy : Binary64.isFinite y with
    | true => exact absurd h.symm (hinf hfy hx hfx)
    | false =>
      have hlist := congrArg String.toList h
      rw [toList_text_of_not_isFinite hx hfx, toList_text_of_not_isFinite hy hfy] at hlist
      obtain ⟨hsign, -⟩ := eq_of_signChars_append_eq (by decide) (by decide) hlist
      exact Binary64.eq_of_not_isFinite hx hy hfx hfy hsign

/-- Values that are printed alike are the same, up to floats that are no numbers. -/
theorem eq_of_text_eq {v w : Value} (hv : v.isNaN = false) (hw : w.isNaN = false)
    (h : v.text = w.text) : v = w := by
  have hnil {u : Value} (hu : u.text = nil.text) : u = nil := by
    by_contra hne
    exact capital_not_mem_text hne (hu ▸ by decide)
  cases v with
  | int m =>
    cases w with
    | int n => rw [eq_of_text_int_eq h]
    | float y => exact absurd h (text_int_ne_text_float m y)
    | nil => exact hnil h
  | float x =>
    cases w with
    | int n => exact absurd h.symm (text_int_ne_text_float n x)
    | float y => rw [eq_of_text_float_eq hv hw h]
    | nil => exact hnil h
  | nil => exact (hnil h.symm).symm

/-! ## Finite floats -/

/-- A whole float is printed as an integer with a point and a zero behind. -/
theorem text_of_magnitude_eq (hx : Binary64.isFinite x = true)
    (h : (Binary64.parts x).magnitude = n) :
    (float x).text = (if Binary64.signBit x then "-" else "") ++ toString n ++ ".0" := by
  rw [← String.toList_inj, toList_text_of_isFinite hx,
    floatDecimal_of_whole? (Decimal.whole?_eq_some_iff.mpr h), Decimal.pointed_natCast,
    String.toList_append, String.toList_append, List.append_assoc]
  have hdigits : (toString n).toList = Decimal.digitChars n := Nat.toList_repr
  rw [hdigits]
  congr 1
  cases Binary64.signBit x <;> rfl

/-- A float with a fractional part does not end in a point and a zero. -/
theorem not_suffix_text_of_magnitude_ne (hx : Binary64.isFinite x = true)
    (h : ∀ n : ℕ, (Binary64.parts x).magnitude ≠ n) : ¬ ['.', '0'] <:+ (float x).text.toList := by
  rintro ⟨front, hfront⟩
  rw [toList_text_of_isFinite hx, Decimal.pointed, ← List.append_assoc] at hfront
  have hpoint :
      '.' ∉ signChars (Binary64.signBit x) ++ (floatDecimal (Binary64.parts x)).whole := by
    intro hmem
    rcases List.mem_append.mp hmem with hmem | hmem
    · cases eq_of_mem_signChars hmem
    · exact Decimal.point_not_mem_whole _ hmem
  obtain ⟨-, -, hfraction⟩ := (List.append_cons_inj_of_notMem hpoint
    (Decimal.point_not_mem_fraction _)).mp hfront.symm
  refine fraction_floatDecimal_ne ?_ hfraction
  refine Option.eq_none_iff_forall_ne_some.mpr fun n hn => ?_
  exact h n (Decimal.whole?_eq_some_iff.mp hn)

/-- **The text of a value tells the value.**  Values that are printed alike are of the same kind
and are the same integer or the same float, bit by bit, unless they are floats that are no
numbers.  A finite float is printed with a point and without an exponent.  If it is whole, it is
printed as the integer that it is, with its sign in front and a point and a zero behind, and if
it is not, then no point and zero alone stand behind.  No integer is printed like a float. -/
theorem text_faithful :
    (∀ v w : Value, v.isNaN = false → w.isNaN = false → v.text = w.text → v = w) ∧
    (∀ x : Float, Binary64.isFinite x = true →
      ('.' ∈ (float x).text.toList ∧ 'e' ∉ (float x).text.toList ∧
        'E' ∉ (float x).text.toList) ∧
      (∀ n : ℕ, (Binary64.parts x).magnitude = n →
        (float x).text = (if Binary64.signBit x then "-" else "") ++ toString n ++ ".0") ∧
      ((∀ n : ℕ, (Binary64.parts x).magnitude ≠ n) → ¬ ['.', '0'] <:+ (float x).text.toList)) ∧
    ∀ (n : Int64) (x : Float), (int n).text ≠ (float x).text := by
  refine ⟨fun v w => eq_of_text_eq, fun x hx => ⟨⟨point_mem_text hx, ?_, ?_⟩, fun n => ?_, ?_⟩,
    text_int_ne_text_float⟩
  · intro h
    rcases mem_text_of_isFinite hx h with h | h | h <;> cases h
  · intro h
    rcases mem_text_of_isFinite hx h with h | h | h <;> cases h
  · exact text_of_magnitude_eq hx
  · exact not_suffix_text_of_magnitude_ne hx

/-- The double next to a tenth. -/
def tenth : Float := .ofBits 0x3FB999999999999A

/-- The double next to the twenty-third power of ten, which is whole. -/
def nearPowerOfTen : Float := .ofBits 0x44B52D02C7E14AF6

/-- The two zeros are told apart, a tenth does not look whole, and the double next to the power
of ten is printed with every digit of its own value. -/
theorem text_faithful_doubles :
    (float (.ofBits 0)).text ≠ (float (.ofBits 0x8000000000000000)).text ∧
      Binary64.isFinite tenth = true ∧ (∀ n : ℕ, (Binary64.parts tenth).magnitude ≠ n) ∧
      ¬ ['.', '0'] <:+ (float tenth).text.toList ∧
      Binary64.isFinite nearPowerOfTen = true ∧
      (Binary64.parts nearPowerOfTen).magnitude = (99999999999999991611392 : ℕ) ∧
      (float nearPowerOfTen).text = "99999999999999991611392.0" := by
  obtain ⟨hsame, hfinite, -⟩ := text_faithful
  have htenth : Binary64.whole? (Binary64.parts tenth) = none := by decide +kernel
  have hpower : Binary64.whole? (Binary64.parts nearPowerOfTen) = some 99999999999999991611392 := by
    decide +kernel
  have hfraction : ∀ n : ℕ, (Binary64.parts tenth).magnitude ≠ n := by
    intro n hn
    cases htenth.symm.trans (Decimal.whole?_eq_some_iff.mpr hn)
  have hwhole := Decimal.whole?_eq_some_iff.mp hpower
  obtain ⟨-, -, hends⟩ := hfinite tenth (by decide +kernel)
  obtain ⟨-, hdigits, -⟩ := hfinite nearPowerOfTen (by decide +kernel)
  refine ⟨fun h => ?_, by decide +kernel, hfraction, hends hfraction, by decide +kernel, hwhole,
    (hdigits _ hwhole).trans (by decide +kernel)⟩
  have hzeros := hsame _ _ (by decide +kernel) (by decide +kernel) h
  exact absurd hzeros (by decide +kernel)

end Value

end TreeWalk
