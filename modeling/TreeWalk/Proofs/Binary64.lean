import Mathlib.Tactic.NormNum
import TreeWalk.Binary64

/-!
# Doubles and their parts

A double is its 64 bits, and these are a sign, an exponent field and a fraction (`bits_eq`).  So
a finite double is known when its parts are (`eq_of_parts_eq`), and an infinite one when its sign
is (`eq_of_not_isFinite`).

Not every pair of a significand and a power of two is a reading of a double.  The significand has
fifty-three bits, or fewer and then the power is the smallest one.  These are the *canonical*
parts, and no two of them have the same value.
-/

namespace TreeWalk

/-- Parts that are read off the bits of a finite double. -/
structure Parts.Canonical (p : Parts) : Prop where
  /-- The significand has at most fifty-three bits. -/
  mantissa_lt : p.mantissa < 2 ^ 53
  /-- No power of two is smaller than that of the smallest double. -/
  exponent_ge : -1074 ≤ p.exponent
  /-- The significand has fifty-three bits, except with the smallest power of two. -/
  normal : p.exponent = -1074 ∨ 2 ^ 52 ≤ p.mantissa

namespace Binary64

open Float.Model.UnpackedFloat

variable {x y : Float}

theorem bits_lt (x : Float) : bits x < 2 ^ 64 := x.toBits.toNat_lt

theorem eq_of_bits_eq (h : bits x = bits y) : x = y := by
  have hbits : x.toModel.toBits = y.toModel.toBits := UInt64.toNat_inj.mp h
  obtain ⟨⟨b, hb⟩⟩ := x
  obtain ⟨⟨c, hc⟩⟩ := y
  cases hbits
  rfl

theorem fraction_lt (x : Float) : fraction x < 2 ^ 52 := Nat.mod_lt _ (by decide)

/-- The bits of a double from its fields. -/
theorem bits_eq (x : Float) :
    bits x = (if signBit x then 2 ^ 63 else 0) + biased x * 2 ^ 52 + fraction x := by
  have hlt := bits_lt x
  simp only [signBit, biased, fraction, beq_iff_eq, Nat.pow_eq]
  norm_num at hlt ⊢
  split <;> omega

/-- A double is determined by its three fields. -/
theorem eq_of_fields_eq (hs : signBit x = signBit y) (hb : biased x = biased y)
    (hf : fraction x = fraction y) : x = y := by
  refine eq_of_bits_eq ?_
  rw [bits_eq, bits_eq, hs, hb, hf]

/-! ## Finite doubles -/

theorem canonical_parts (x : Float) : (parts x).Canonical where
  mantissa_lt := by
    have hf := fraction_lt x
    simp only [parts, Nat.pow_eq]
    norm_num at hf ⊢
    split <;> omega
  exponent_ge := by
    unfold parts
    dsimp only
    split <;> omega
  normal := by
    unfold parts
    dsimp only
    split
    · exact Or.inl rfl
    · exact Or.inr (Nat.le_add_right _ _)

/-- A double is determined by its parts. -/
theorem eq_of_parts_eq (hs : signBit x = signBit y) (hm : (parts x).mantissa = (parts y).mantissa)
    (he : (parts x).exponent = (parts y).exponent) : x = y := by
  have hx := fraction_lt x
  have hy := fraction_lt y
  simp only [parts, Nat.pow_eq] at hm he
  norm_num at hx hy hm
  -- the significand tells whether the leading one is there, and so the cases agree
  have hfields : biased x = biased y ∧ fraction x = fraction y := by
    split at hm
    · rename_i hbx
      split at hm
      · rename_i hby
        exact ⟨hbx.trans hby.symm, hm⟩
      · omega
    · rename_i hbx
      split at hm
      · omega
      · rename_i hby
        rw [if_neg hbx, if_neg hby] at he
        omega
  exact eq_of_fields_eq hs hfields.1 hfields.2

/-! ## Other doubles -/

/-- A double is no number if the exponent field is full and the fraction is not zero. -/
theorem isNaN_iff : x.isNaN = true ↔ biased x = 2047 ∧ fraction x ≠ 0 := by
  have hb : (@unpackExponent .binary64 x.toBits.toBitVec).toNat = biased x := by
    simp [unpackExponent, biased, bits, Nat.shiftRight_eq_div_pow]
  have hf : (@unpackMantissa .binary64 x.toBits.toBitVec).toNat = fraction x := by
    simp [unpackMantissa, fraction, bits]
  have hfull : @unpackExponent .binary64 x.toBits.toBitVec = -1#11 ↔
      biased x = 2047 := by
    rw [← hb, ← BitVec.toNat_inj]
    rfl
  have hzero : @unpackMantissa .binary64 x.toBits.toBitVec = 0#52 ↔
      fraction x = 0 := by
    rw [← hf, ← BitVec.toNat_inj]
    rfl
  rw [← hfull, Ne, ← hzero]
  show (unpack .binary64 x.toBits.toBitVec).isNaN = true ↔ _
  unfold unpack
  dsimp only
  by_cases he : @unpackExponent .binary64 x.toBits.toBitVec = -1#11
  · rw [if_pos he]
    by_cases hm : @unpackMantissa .binary64 x.toBits.toBitVec = 0#52
    · rw [if_pos hm]
      exact ⟨fun h => absurd h Bool.false_ne_true, fun h => absurd hm h.2⟩
    · rw [if_neg hm]
      exact ⟨fun _ => ⟨he, hm⟩, fun _ => rfl⟩
  · -- the other readings are zeros and numbers
    rw [if_neg he]
    refine ⟨fun h => absurd h ?_, fun h => absurd h.1 he⟩
    by_cases hz : @unpackExponent .binary64 x.toBits.toBitVec = 0#11
    · rw [if_pos hz]
      by_cases hm : @unpackMantissa .binary64 x.toBits.toBitVec = 0#52
      · rw [dif_pos hm]
        exact Bool.false_ne_true
      · rw [dif_neg hm]
        exact Bool.false_ne_true
    · rw [if_neg hz]
      exact Bool.false_ne_true

/-- An infinite double is determined by its sign. -/
theorem eq_of_not_isFinite (hx : x.isNaN = false) (hy : y.isNaN = false)
    (hx' : isFinite x = false) (hy' : isFinite y = false) (hs : signBit x = signBit y) : x = y := by
  have hinf {z : Float} (hz : z.isNaN = false) (hz' : isFinite z = false) :
      biased z = 2047 ∧ fraction z = 0 := by
    have hb : biased z = 2047 := by simpa [isFinite] using hz'
    refine ⟨hb, ?_⟩
    by_contra hf
    rw [isNaN_iff.mpr ⟨hb, hf⟩] at hz
    cases hz
  obtain ⟨hbx, hfx⟩ := hinf hx hx'
  obtain ⟨hby, hfy⟩ := hinf hy hy'
  exact eq_of_fields_eq hs (hbx.trans hby.symm) (hfx.trans hfy.symm)

end Binary64

end TreeWalk
