import Mathlib.Data.List.Basic
import TreeWalk.Decimal.Style

/-!
# Decimals with a point

A decimal that is written without an exponent and with a point is two rows of digits, one on each
side of the point (`Decimal.whole` and `Decimal.fraction`).  There is no other point, so the text
tells the two rows (`eq_of_pointed_eq`).  The number that all the digits make together is that of
the digits of the decimal, moved by as many places as there are behind the point
(`ofDigitChars_pointed`).
-/

namespace TreeWalk

namespace Decimal

variable {d e : Decimal} {c : Char}

/-- The digits of a decimal before the point. -/
def whole (d : Decimal) : List Char :=
  let ds := digitChars d.digits
  let point : Int := ds.length + d.exponent
  if 0 ≤ d.exponent then ds ++ zeros d.exponent.toNat
  else if 0 < point then ds.take point.toNat
  else ['0']

/-- The digits of a decimal behind the point, where there is at least one. -/
def fraction (d : Decimal) : List Char :=
  let ds := digitChars d.digits
  let point : Int := ds.length + d.exponent
  if 0 ≤ d.exponent then ['0']
  else if 0 < point then ds.drop point.toNat
  else zeros (-point).toNat ++ ds

/-- A decimal written with a point and at least one digit on each side of it. -/
def pointed (d : Decimal) : List Char := d.whole ++ '.' :: d.fraction

theorem positional_append_eq_pointed (d : Decimal) :
    d.positional ++ (if 0 ≤ d.exponent then ['.', '0'] else []) = d.pointed := by
  unfold positional pointed whole fraction
  dsimp only
  split
  · rfl
  · rw [List.append_nil]
    split
    · rfl
    · rfl

theorem isDigit_of_mem_digitChars {n : Nat} (h : c ∈ digitChars n) : c.isDigit = true :=
  Nat.isDigit_of_mem_toDigits (by decide) (Nat.le_refl 10) h

theorem isDigit_of_mem_zeros {n : Nat} (h : c ∈ zeros n) : c.isDigit = true :=
  List.eq_of_mem_replicate h ▸ rfl

theorem isDigit_of_mem_whole (h : c ∈ d.whole) : c.isDigit = true := by
  unfold whole at h
  dsimp only at h
  split at h
  · rcases List.mem_append.mp h with h | h
    · exact isDigit_of_mem_digitChars h
    · exact isDigit_of_mem_zeros h
  · split at h
    · exact isDigit_of_mem_digitChars (List.mem_of_mem_take h)
    · exact List.mem_singleton.mp h ▸ rfl

theorem isDigit_of_mem_fraction (h : c ∈ d.fraction) : c.isDigit = true := by
  unfold fraction at h
  dsimp only at h
  split at h
  · exact List.mem_singleton.mp h ▸ rfl
  · split at h
    · exact isDigit_of_mem_digitChars (List.mem_of_mem_drop h)
    · rcases List.mem_append.mp h with h | h
      · exact isDigit_of_mem_zeros h
      · exact isDigit_of_mem_digitChars h

theorem point_not_mem_whole (d : Decimal) : '.' ∉ d.whole := fun h => by
  cases isDigit_of_mem_whole h

theorem point_not_mem_fraction (d : Decimal) : '.' ∉ d.fraction := fun h => by
  cases isDigit_of_mem_fraction h

theorem isDigit_or_eq_of_mem_pointed (h : c ∈ d.pointed) : c.isDigit = true ∨ c = '.' := by
  rcases List.mem_append.mp h with h | h
  · exact Or.inl (isDigit_of_mem_whole h)
  · rcases List.mem_cons.mp h with h | h
    · exact Or.inr h
    · exact Or.inl (isDigit_of_mem_fraction h)

/-- What is written with a point tells the digits before and behind it. -/
theorem eq_of_pointed_eq {before behind : List Char} (h : d.pointed = before ++ '.' :: behind) :
    d.whole = before ∧ d.fraction = behind := by
  obtain ⟨hwhole, -, hfraction⟩ := (List.append_cons_inj_of_notMem (point_not_mem_whole d)
    (point_not_mem_fraction d)).mp h
  exact ⟨hwhole, hfraction⟩

/-! ## Numbers -/

theorem ofDigitChars_digitChars (n : Nat) : Nat.ofDigitChars 10 (digitChars n) 0 = n :=
  Nat.ofDigitChars_toDigits (by decide) (Nat.le_refl 10)

theorem length_zeros (n : Nat) : (zeros n).length = n := List.length_replicate

/-- The number that is made of all digits. -/
theorem ofDigitChars_pointed (d : Decimal) :
    ∃ k : Nat, (d.fraction.length : Int) + d.exponent = k ∧
      Nat.ofDigitChars 10 (d.whole ++ d.fraction) 0 = d.digits * Nat.pow 10 k := by
  unfold whole fraction
  dsimp only
  split
  · rename_i hexponent
    obtain ⟨k, hk⟩ := Int.eq_ofNat_of_zero_le hexponent
    refine ⟨k + 1, ?_, ?_⟩
    · rw [hk]
      exact Int.add_comm 1 k
    · rw [hk, Int.toNat_natCast, List.append_assoc, Nat.ofDigitChars_append,
        ofDigitChars_digitChars, zeros, ← List.replicate_succ', Nat.ofDigitChars_replicate_zero,
        Nat.mul_comm, Nat.pow_eq]
  · rename_i hexponent
    split
    · rename_i hpoint
      refine ⟨0, ?_, ?_⟩
      · rw [List.length_drop]
        omega
      · rw [List.take_append_drop, ofDigitChars_digitChars, Nat.pow_eq, Nat.pow_zero, Nat.mul_one]
    · rename_i hpoint
      refine ⟨0, ?_, ?_⟩
      · rw [List.length_append, length_zeros]
        omega
      · rw [List.singleton_append, zeros, ← List.cons_append, ← List.replicate_succ,
          Nat.ofDigitChars_append, Nat.ofDigitChars_replicate_zero, Nat.mul_zero,
          ofDigitChars_digitChars, Nat.pow_eq, Nat.pow_zero, Nat.mul_one]

end Decimal

end TreeWalk
