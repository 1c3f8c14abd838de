import Mathlib.Algebra.Order.Field.Power
import Mathlib.Algebra.Order.Ring.Rat
import Mathlib.Data.Rat.Cast.Order
import Mathlib.Tactic.FieldSimp
import Mathlib.Tactic.Linarith
import Mathlib.Tactic.Positivity
import Mathlib.Tactic.Ring
import TreeWalk.Decimal.Shortest
import TreeWalk.Proofs.Binary64

/-!
# Decimals in the interval of a double

The search for the shortest decimal of a double looks at rulers, on which everything is a
natural number.  What it finds lies in the interval of the reals that round to the double
(`contains_shortest`): each decimal it may answer with was found inside on a ruler, or is the
value itself, and to cut zeros off changes no value.

The intervals of two doubles have no point in common (`Interval.unique_of_contains`).  Two that
lie side by side touch at an end, halfway between the values.  If the doubles have the same power
of two, then their significands are neighbours and one of them is odd; and if they have not, then
the smaller one has the largest significand, which is odd.  So one of the intervals lacks its
ends.

A double with a fractional part has no integer in its interval (`exists_whole_of_contains`),
because it is a multiple of a power of two below one, and so are the integers.
-/

namespace TreeWalk

/-- The value of finite parts without their sign. -/
def Parts.magnitude (p : Parts) : ℚ := p.mantissa * 2 ^ p.exponent

namespace Decimal

/-- The value of a decimal. -/
def toRat (d : Decimal) : ℚ := d.digits * 10 ^ d.exponent

variable {i : Interval} {p q : Parts} {d : Decimal} {tie : Tie} {r : ℚ} {n : ℕ} {grid : ℤ}

theorem toRat_natCast (n : ℕ) : (⟨n, 0⟩ : Decimal).toRat = n := by
  unfold toRat
  rw [zpow_zero, mul_one]

/-- A power with the exponent cut off at zero. -/
theorem pow_toNat_eq {b : ℚ} (hb : b ≠ 0) (z : ℤ) : b ^ z.toNat = b ^ z * b ^ (-z).toNat := by
  have hz : (z.toNat : ℤ) = z + ((-z).toNat : ℤ) := by omega
  rw [← zpow_natCast, ← zpow_natCast, ← zpow_add₀ hb, hz]

/-! ## Rulers -/

namespace Interval

/-- The number that is so many units of an interval. -/
def point (i : Interval) (a : ℕ) : ℚ := a * 2 ^ i.scale

/-- A number lies in an interval. -/
def Contains (i : Interval) (r : ℚ) : Prop :=
  if i.closed then i.point i.low ≤ r ∧ r ≤ i.point i.high
  else i.point i.low < r ∧ r < i.point i.high

/-- What is brought to a ruler is multiplied by the same positive number. -/
theorem exists_factor (i : Interval) (grid : ℤ) :
    ∃ c : ℚ, 0 < c ∧
      (∀ a : ℕ, ((a * (Nat.pow 2 i.scale.toNat * Nat.pow 10 (-grid).toNat) : ℕ) : ℚ) =
        i.point a * c) ∧
      ∀ n : ℕ, ((n * (i.ruler grid).unit : ℕ) : ℚ) = (⟨n, grid⟩ : Decimal).toRat * c := by
  refine ⟨2 ^ (-i.scale).toNat * 10 ^ (-grid).toNat, by positivity, fun a => ?_, fun n => ?_⟩
  · have htwo := pow_toNat_eq (b := 2) (by norm_num) i.scale
    simp only [Nat.pow_eq, point]
    push_cast
    rw [htwo]
    ring
  · have hten := pow_toNat_eq (b := 10) (by norm_num) grid
    simp only [Nat.pow_eq, toRat, ruler]
    push_cast
    rw [hten]
    ring

/-- A multiple on a ruler is found inside exactly if the decimal lies in the interval. -/
theorem holds_ruler_iff :
    (i.ruler grid).holds n = true ↔ i.Contains (⟨n, grid⟩ : Decimal).toRat := by
  obtain ⟨c, hc, hpoint, hgrid⟩ := i.exists_factor grid
  have hlow : ((i.ruler grid).low : ℚ) = i.point i.low * c := hpoint i.low
  have hhigh : ((i.ruler grid).high : ℚ) = i.point i.high * c := hpoint i.high
  have hn := hgrid n
  unfold Ruler.holds Contains
  show (if i.closed = true then _ else _) = true ↔ _
  by_cases hclosed : i.closed = true
  · rw [if_pos hclosed, if_pos hclosed, Bool.and_eq_true, decide_eq_true_iff, decide_eq_true_iff,
      ← Nat.cast_le (α := ℚ), ← Nat.cast_le (α := ℚ), hlow, hhigh, hn,
      mul_le_mul_iff_of_pos_right hc, mul_le_mul_iff_of_pos_right hc]
  · rw [if_neg hclosed, if_neg hclosed, Bool.and_eq_true, decide_eq_true_iff, decide_eq_true_iff,
      ← Nat.cast_lt (α := ℚ), ← Nat.cast_lt (α := ℚ), hlow, hhigh, hn,
      mul_lt_mul_iff_of_pos_right hc, mul_lt_mul_iff_of_pos_right hc]

end Interval

theorem Ruler.le_of_holds {r : Ruler} (h : r.holds n = true) :
    r.low ≤ n * r.unit ∧ n * r.unit ≤ r.high := by
  unfold Ruler.holds at h
  split at h
  · simpa using h
  · rw [Bool.and_eq_true, decide_eq_true_iff, decide_eq_true_iff] at h
    exact ⟨h.1.le, h.2.le⟩

/-- The multiple that is chosen on a ruler is found inside. -/
theorem Ruler.holds_of_nearest? {r : Ruler} (h : r.nearest? tie = some n) : r.holds n = true := by
  unfold Ruler.nearest? at h
  dsimp only at h
  cases hbelow : r.holds r.below <;> cases habove : r.holds (r.below + 1) <;>
    rw [hbelow, habove] at h <;> dsimp only at h
  · cases h
  · cases h
    exact habove
  · cases h
    exact hbelow
  · cases h
    split
    · exact habove
    · exact hbelow

/-! ## The search -/

theorem toRat_exact (i : Interval) : (exact i).toRat = i.point i.value := by
  unfold exact toRat Interval.point
  split
  · rename_i hscale
    obtain ⟨k, hk⟩ := Int.eq_ofNat_of_zero_le hscale
    rw [hk]
    simp
  · rename_i hscale
    obtain ⟨k, hk⟩ := Int.eq_ofNat_of_zero_le (a := -i.scale) (by omega)
    have hscale : i.scale = -(k : ℤ) := by omega
    rw [hscale]
    simp only [neg_neg, Int.toNat_natCast, Nat.pow_eq, zpow_neg, zpow_natCast]
    push_cast
    rw [show (10 : ℚ) = 2 * 5 by norm_num, mul_pow]
    field_simp

theorem toRat_trim (fuel : ℕ) (d : Decimal) : (trim fuel d).toRat = d.toRat := by
  induction fuel generalizing d with
  | zero => rfl
  | succ fuel ih =>
    rw [trim]
    split
    · rename_i hzero
      rw [ih]
      have hdigits : d.digits = d.digits / 10 * 10 := by omega
      unfold toRat
      dsimp only
      rw [zpow_add₀ (by norm_num), zpow_one]
      nth_rewrite 2 [hdigits]
      push_cast
      ring
    · rfl

/-- Whatever the grids are, the search finds a decimal in the interval, if the value lies
in it. -/
theorem contains_search (h : i.Contains (i.point i.value)) (grids : List ℤ) :
    i.Contains (i.search tie grids).toRat := by
  induction grids with
  | nil =>
    rw [Interval.search, toRat_exact]
    exact h
  | cons grid rest ih =>
    rw [Interval.search]
    cases hn : (i.ruler grid).nearest? tie with
    | none => exact ih
    | some n => exact Interval.holds_ruler_iff.mp (Ruler.holds_of_nearest? hn)

/-! ## The intervals of doubles -/

namespace Interval

theorem point_le_point_iff {a b : ℕ} : i.point a ≤ i.point b ↔ a ≤ b := by
  have hunit : (0 : ℚ) < 2 ^ i.scale := by positivity
  unfold point
  rw [mul_le_mul_iff_of_pos_right hunit, Nat.cast_le]

theorem point_lt_point_iff {a b : ℕ} : i.point a < i.point b ↔ a < b :=
  lt_iff_lt_of_le_iff_le point_le_point_iff

theorem Contains.low_le (h : i.Contains r) : i.point i.low ≤ r := by
  unfold Contains at h
  split at h
  · exact h.1
  · exact h.1.le

theorem Contains.le_high (h : i.Contains r) : r ≤ i.point i.high := by
  unfold Contains at h
  split at h
  · exact h.2
  · exact h.2.le

theorem Contains.lt_of_not_closed (h : i.Contains r) (hi : i.closed ≠ true) :
    i.point i.low < r ∧ r < i.point i.high := by
  rwa [Contains, if_neg hi] at h

theorem closed_ofParts : (ofParts p).closed = true ↔ p.mantissa % 2 = 0 := decide_eq_true_iff

theorem point_value (p : Parts) : (ofParts p).point (ofParts p).value = p.magnitude := by
  unfold point ofParts Parts.magnitude
  rw [zpow_sub₀ (by norm_num)]
  push_cast
  ring

/-- The value of a double lies in its interval. -/
theorem contains_magnitude (p : Parts) : (ofParts p).Contains p.magnitude := by
  rw [← point_value]
  unfold Contains
  have hlow : (ofParts p).low ≤ (ofParts p).value := by
    unfold ofParts
    dsimp only
    split <;> omega
  split
  · exact ⟨point_le_point_iff.mpr hlow, point_le_point_iff.mpr (Nat.le_add_right _ 2)⟩
  · rename_i hodd
    rw [closed_ofParts] at hodd
    have hlt : (ofParts p).low < (ofParts p).value := by
      unfold ofParts
      dsimp only
      split <;> omega
    exact ⟨point_lt_point_iff.mpr hlt, point_lt_point_iff.mpr (Nat.lt_add_of_pos_right two_pos)⟩

/-- A point in the units of a double with a larger power of two. -/
theorem point_of_exponent_eq {k : ℕ} (he : q.exponent = p.exponent + k) (a : ℕ) :
    (ofParts q).point a = (ofParts p).point (a * 2 ^ k) := by
  unfold point ofParts
  dsimp only
  rw [he, show p.exponent + (k : ℤ) - 2 = k + (p.exponent - 2) by ring, zpow_add₀ (by norm_num),
    zpow_natCast]
  push_cast
  ring

/-- The interval of a smaller double ends where that of a larger one begins, or before it.  If
both have their ends, then it ends before it. -/
theorem high_le_low (hp : p.Canonical) (hq : q.Canonical) {k : ℕ}
    (he : q.exponent = p.exponent + k) (hm : k = 0 → p.mantissa < q.mantissa) :
    (ofParts p).high ≤ (ofParts q).low * 2 ^ k ∧
      ((ofParts p).closed = true → (ofParts q).closed = true →
        (ofParts p).high < (ofParts q).low * 2 ^ k) := by
  rw [closed_ofParts, closed_ofParts]
  have hmantissa := hp.mantissa_lt
  have hexponent := hp.exponent_ge
  cases k with
  | zero =>
    have hlt := hm rfl
    simp only [ofParts, Nat.pow_eq]
    split <;> omega
  | succ k =>
    have hnormal : 2 ^ 52 ≤ q.mantissa := hq.normal.resolve_left (by omega)
    have htwo : (ofParts q).low * 2 ≤ (ofParts q).low * 2 ^ (k + 1) :=
      Nat.mul_le_mul_left _ (Nat.le_self_pow (Nat.succ_ne_zero k) 2)
    refine ⟨Nat.le_trans ?_ htwo, fun heven _ => Nat.lt_of_lt_of_le ?_ htwo⟩
    all_goals
      simp only [ofParts, Nat.pow_eq]
      norm_num at hmantissa hnormal ⊢
      split <;> omega

theorem not_contains_of_lt (hp : p.Canonical) (hq : q.Canonical) {k : ℕ}
    (he : q.exponent = p.exponent + k) (hm : k = 0 → p.mantissa < q.mantissa)
    (h : (ofParts p).Contains r) : ¬ (ofParts q).Contains r := by
  intro h'
  obtain ⟨hle, hlt⟩ := high_le_low hp hq he hm
  have hpoint := point_of_exponent_eq he (ofParts q).low
  rw [← point_le_point_iff (i := ofParts p), ← hpoint] at hle
  rw [← point_lt_point_iff (i := ofParts p), ← hpoint] at hlt
  have hhigh := h.le_high
  have hlow := h'.low_le
  by_cases hcp : (ofParts p).closed = true
  · by_cases hcq : (ofParts q).closed = true
    · linarith [hlt hcp hcq]
    · linarith [(h'.lt_of_not_closed hcq).1]
  · linarith [(h.lt_of_not_closed hcp).2]

/-- **The intervals of two doubles have no number in common.** -/
theorem unique_of_contains (hp : p.Canonical) (hq : q.Canonical) (h : (ofParts p).Contains r)
    (h' : (ofParts q).Contains r) : p.mantissa = q.mantissa ∧ p.exponent = q.exponent := by
  rcases lt_trichotomy p.exponent q.exponent with hlt | heq | hgt
  · obtain ⟨k, hk⟩ := Int.le.dest hlt.le
    exact absurd h' (not_contains_of_lt hp hq hk.symm (by omega) h)
  · rcases lt_trichotomy p.mantissa q.mantissa with hlt | hm | hgt
    · exact absurd h' (not_contains_of_lt hp hq (k := 0) (by simpa using heq.symm) (fun _ => hlt) h)
    · exact ⟨hm, heq⟩
    · exact absurd h (not_contains_of_lt hq hp (k := 0) (by simpa using heq) (fun _ => hgt) h')
  · obtain ⟨k, hk⟩ := Int.le.dest hgt.le
    exact absurd h (not_contains_of_lt hq hp hk.symm (by omega) h')

end Interval

/-- **The shortest decimal of a double rounds to the double.** -/
theorem contains_shortest (tie : Tie) (p : Parts) :
    (Interval.ofParts p).Contains (shortest tie p).toRat := by
  unfold shortest
  dsimp only
  rw [toRat_trim]
  refine contains_search ?_ _
  rw [Interval.point_value]
  exact Interval.contains_magnitude p

/-! ## Whole doubles -/

/-- Which integer a whole double is. -/
theorem whole?_eq_some_iff : Binary64.whole? p = some n ↔ p.magnitude = n := by
  unfold Binary64.whole? Parts.magnitude
  simp only [Nat.pow_eq]
  split
  · rename_i hexponent
    obtain ⟨k, hk⟩ := Int.eq_ofNat_of_zero_le hexponent
    rw [hk, Option.some_inj, Int.toNat_natCast, zpow_natCast]
    norm_cast
  · rename_i hexponent
    obtain ⟨k, hk⟩ := Int.eq_ofNat_of_zero_le (a := -p.exponent) (by omega)
    have hexponent : p.exponent = -(k : ℤ) := by omega
    have hpos : 0 < 2 ^ k := by positivity
    rw [hk, hexponent, Int.toNat_natCast, zpow_neg, zpow_natCast, ← div_eq_mul_inv,
      div_eq_iff (by positivity)]
    norm_cast
    constructor
    · intro h
      split at h
      · rename_i hmod
        rw [← Option.some.inj h, Nat.div_mul_cancel (Nat.dvd_of_mod_eq_zero hmod)]
      · cases h
    · intro h
      rw [h, if_pos (Nat.mul_mod_left n _), Nat.mul_div_cancel n hpos]

/-- If an integer lies in the interval of a double, then the double is whole. -/
theorem exists_whole_of_contains (h : (Interval.ofParts p).Contains n) :
    ∃ m, Binary64.whole? p = some m := by
  by_cases hexponent : 0 ≤ p.exponent
  · exact ⟨_, if_pos hexponent⟩
  · rw [← toRat_natCast, ← Interval.holds_ruler_iff] at h
    obtain ⟨hlow, hhigh⟩ := Ruler.le_of_holds h
    obtain ⟨k, hk⟩ := Int.eq_ofNat_of_zero_le (a := -p.exponent) (by omega)
    have hup : (p.exponent - 2).toNat = 0 := by omega
    have hdown : (-(p.exponent - 2)).toNat = k + 2 := by omega
    simp only [Interval.ruler, Interval.ofParts, hup, hdown, Nat.pow_eq, pow_add, pow_zero,
      Int.toNat_zero, neg_zero, mul_one] at hlow hhigh
    -- the integer is a multiple of four units, and the only one in the interval is the value
    have hmantissa : p.mantissa = n * 2 ^ k := by
      have hfour : n * (2 ^ k * 2 ^ 2) = 4 * (n * 2 ^ k) := by ring
      rw [hfour] at hlow hhigh
      generalize n * 2 ^ k = multiple at hlow hhigh ⊢
      split at hlow <;> omega
    refine ⟨n, whole?_eq_some_iff.mpr ?_⟩
    have hexponent : p.exponent = -(k : ℤ) := by omega
    unfold Parts.magnitude
    rw [hmantissa, hexponent, zpow_neg, zpow_natCast]
    push_cast
    field_simp

end Decimal

end TreeWalk
