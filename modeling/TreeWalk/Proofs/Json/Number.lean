import TreeWalk.Json.Shape
import TreeWalk.Proofs.Json.Ahead

/-!
# Numbers are read up to where they end

A reader of a number looks at the text behind it to find its end, but at no more than the next
character.  So a number that is read from a text of its own is read alike where something follows
that cannot belong to it (`number_append`), and it is enough to know what single tokens are read
as: a float by what it is to be spelled as, and an integer by its digits (`number_integerToken`).
-/

namespace TreeWalk

namespace Json

variable {cs rest more : List Char} {c : Char} {limits : Limits} {t : Token}

/-- The value of an exponent behind its sign. -/
def signedExponent (negative : Bool) : List Char → Except Error ((Bool × Nat) × List Char)
  | [] => .error .valueEnded
  | c :: rest =>
    match digit? c with
    | none => .error .invalidNumber
    | some d => .ok ((negative, (digitsValue d rest).1), (digitsValue d rest).2)

theorem exponent_cons (c : Char) (cs : List Char) :
    exponent (c :: cs) =
      if c = '-' then signedExponent true cs
      else if c = '+' then signedExponent false cs
      else signedExponent false (c :: cs) := by
  unfold exponent
  dsimp only
  by_cases hminus : c = '-'
  · rw [if_pos hminus, if_pos hminus]
    rfl
  · rw [if_neg hminus, if_neg hminus]
    by_cases hplus : c = '+'
    · rw [if_pos hplus, if_pos hplus]
      rfl
    · rw [if_neg hplus, if_neg hplus]
      rfl

/-! ## The end of a number -/

section Ends

variable (hd : Delimited rest)

include hd

/-- What stands behind a number is no part of a number. -/
theorem head_of_delimited (h : rest = c :: more) :
    digit? c = none ∧ (c == '.') = false ∧ (c == 'e' || c == 'E') = false := by
  rcases hd c (h ▸ rfl) with hc | hc
  · simp only [isBlank, Bool.or_eq_true, beq_iff_eq] at hc
    rcases hc with ((rfl | rfl) | rfl) | rfl <;> decide
  · simp only [List.mem_cons, List.not_mem_nil, or_false] at hc
    rcases hc with rfl | rfl | rfl <;> decide

theorem startsWithDigit_append (cs : List Char) :
    startsWithDigit (cs ++ rest) = startsWithDigit cs := by
  cases cs with
  | nil =>
    cases hrest : rest with
    | nil => rfl
    | cons c more => exact congrArg Option.isSome (head_of_delimited hd hrest).1
  | cons c cs => rfl

theorem startsWithPoint_append (cs : List Char) :
    startsWithPoint (cs ++ rest) = startsWithPoint cs := by
  cases cs with
  | nil =>
    cases hrest : rest with
    | nil => rfl
    | cons c more => exact (head_of_delimited hd hrest).2.1
  | cons c cs => rfl

theorem startsWithExponent_append (cs : List Char) :
    startsWithExponent (cs ++ rest) = startsWithExponent cs := by
  cases cs with
  | nil =>
    cases hrest : rest with
    | nil => rfl
    | cons c more => exact (head_of_delimited hd hrest).2.2
  | cons c cs => rfl

/-! ## Runs of digits -/

theorem countDigits_append (n : Nat) (cs : List Char) :
    countDigits n (cs ++ rest) = ((countDigits n cs).1, (countDigits n cs).2 ++ rest) := by
  induction cs generalizing n with
  | nil =>
    cases hrest : rest with
    | nil => rfl
    | cons c more =>
      simp only [List.nil_append, countDigits, (head_of_delimited hd hrest).1, Option.isSome_none,
        Bool.false_eq_true, if_false]
  | cons c cs ih =>
    rw [List.cons_append, countDigits, countDigits]
    by_cases hc : (digit? c).isSome = true
    · rw [if_pos hc, if_pos hc, ih]
    · rw [if_neg hc, if_neg hc]
      rfl

theorem collect_append (significand kept : Nat) (cs : List Char) :
    collect significand kept (cs ++ rest) =
      ((collect significand kept cs).1, (collect significand kept cs).2 ++ rest) := by
  induction cs generalizing significand kept with
  | nil =>
    cases hrest : rest with
    | nil => rfl
    | cons c more => simp only [List.nil_append, collect, (head_of_delimited hd hrest).1]
  | cons c cs ih =>
    rw [List.cons_append, collect, collect]
    cases digit? c with
    | none => rfl
    | some d =>
      dsimp only
      by_cases hfits : significand * 10 + d < UInt64.size
      · rw [if_pos hfits, if_pos hfits, ih]
      · rw [if_neg hfits, if_neg hfits, countDigits_append hd]

theorem digitsValue_append (n : Nat) (cs : List Char) :
    digitsValue n (cs ++ rest) = ((digitsValue n cs).1, (digitsValue n cs).2 ++ rest) := by
  induction cs generalizing n with
  | nil =>
    cases hrest : rest with
    | nil => rfl
    | cons c more => simp only [List.nil_append, digitsValue, (head_of_delimited hd hrest).1]
  | cons c cs ih =>
    rw [List.cons_append, digitsValue, digitsValue]
    cases digit? c with
    | none => rfl
    | some d => exact ih (n * 10 + d)

/-! ## The parts of a number -/

theorem signedExponent_append (negative : Bool) {r : Bool × Nat}
    (h : signedExponent negative cs = .ok (r, more)) :
    signedExponent negative (cs ++ rest) = .ok (r, more ++ rest) := by
  cases cs with
  | nil => cases h
  | cons c cs =>
    unfold signedExponent at h ⊢
    rw [List.cons_append]
    dsimp only at h ⊢
    cases hc : digit? c with
    | none =>
      rw [hc] at h
      cases h
    | some d =>
      rw [hc] at h
      cases h
      dsimp only
      rw [digitsValue_append hd]

theorem exponent_append {r : Bool × Nat} (h : exponent cs = .ok (r, more)) :
    exponent (cs ++ rest) = .ok (r, more ++ rest) := by
  cases cs with
  | nil => cases h
  | cons c cs =>
    rw [List.cons_append]
    rw [exponent_cons] at h ⊢
    by_cases hminus : c = '-'
    · rw [if_pos hminus] at h ⊢
      exact signedExponent_append hd true h
    · rw [if_neg hminus] at h ⊢
      by_cases hplus : c = '+'
      · rw [if_pos hplus] at h ⊢
        exact signedExponent_append hd false h
      · rw [if_neg hplus] at h ⊢
        exact signedExponent_append hd false h

theorem floatRest_append {negative : Bool} {significand : Nat} {start : Int} {x : Float}
    (h : floatRest negative significand start cs = .ok (x, more)) :
    floatRest negative significand start (cs ++ rest) = .ok (x, more ++ rest) := by
  unfold floatRest at h ⊢
  rw [startsWithExponent_append hd]
  by_cases he : startsWithExponent cs = true
  · rw [if_pos he] at h ⊢
    cases cs with
    | nil => cases he
    | cons c cs =>
      rw [List.cons_append, List.drop_one, List.tail_cons]
      rw [List.drop_one, List.tail_cons] at h
      split at h
      · cases h
      · next negativeExponent n left hexp =>
        rw [exponent_append hd hexp]
        dsimp only
        split at h
        · cases h
        · cases h
          rfl
  · rw [if_neg he] at h ⊢
    split at h
    · cases h
    · cases h
      rfl

theorem fraction_append {negative : Bool} {significand : Nat} {start : Int} {x : Float}
    (h : fraction negative significand start cs = .ok (x, more)) :
    fraction negative significand start (cs ++ rest) = .ok (x, more ++ rest) := by
  unfold fraction at h ⊢
  rw [startsWithDigit_append hd]
  by_cases hdigit : startsWithDigit cs = true
  · rw [if_pos hdigit] at h ⊢
    rw [collect_append hd]
    exact floatRest_append hd h
  · rw [if_neg hdigit] at h
    cases cs <;> cases h

theorem afterInteger_append {negative : Bool} {ds : Digits} {n : Number}
    (h : afterInteger negative ds cs = .ok (n, more)) :
    afterInteger negative ds (cs ++ rest) = .ok (n, more ++ rest) := by
  unfold afterInteger at h ⊢
  rw [startsWithPoint_append hd, startsWithExponent_append hd]
  dsimp only at h ⊢
  by_cases hint : (ds.dropped = 0 && !startsWithPoint cs && !startsWithExponent cs) = true
  · rw [if_pos hint] at h ⊢
    cases h
    rfl
  · rw [if_neg hint] at h ⊢
    by_cases hpoint : startsWithPoint cs = true
    · rw [if_pos hpoint] at h ⊢
      cases cs with
      | nil => cases hpoint
      | cons c cs =>
        rw [List.cons_append, List.drop_one, List.tail_cons]
        rw [List.drop_one, List.tail_cons] at h
        split at h
        · cases h
        · next x left hx =>
          cases h
          rw [fraction_append hd hx]
    · rw [if_neg hpoint] at h ⊢
      split at h
      · cases h
      · next x left hx =>
        cases h
        rw [floatRest_append hd hx]

theorem unsignedNumber_append {negative : Bool} {n : Number}
    (h : unsignedNumber negative cs = .ok (n, more)) :
    unsignedNumber negative (cs ++ rest) = .ok (n, more ++ rest) := by
  cases cs with
  | nil => cases h
  | cons c cs =>
    unfold unsignedNumber at h ⊢
    rw [List.cons_append]
    dsimp only at h ⊢
    cases hc : digit? c with
    | none =>
      rw [hc] at h
      cases h
    | some d =>
      rw [hc] at h
      dsimp only at h ⊢
      by_cases hzero : d = 0
      · rw [if_pos hzero] at h ⊢
        rw [startsWithDigit_append hd]
        by_cases hdigit : startsWithDigit cs = true
        · rw [if_pos hdigit] at h
          cases h
        · rw [if_neg hdigit] at h ⊢
          exact afterInteger_append hd h
      · rw [if_neg hzero] at h ⊢
        rw [collect_append hd]
        exact afterInteger_append hd h

/-- **A number that is read from a text of its own is read alike where something follows.** -/
theorem number_append {n : Number} (h : number limits cs = .ok (n, more)) :
    number limits (cs ++ rest) = .ok (n, more ++ rest) := by
  cases cs with
  | nil => cases h
  | cons c cs =>
    unfold number at h ⊢
    rw [List.cons_append]
    dsimp only at h ⊢
    by_cases hminus : c = '-'
    · rw [if_pos hminus] at h ⊢
      exact unsignedNumber_append hd h
    · rw [if_neg hminus] at h ⊢
      exact unsignedNumber_append hd h

end Ends

/-! ## Integers -/

theorem digit?_digitChar : ∀ d < 10, digit? (Nat.digitChar d) = some d := by decide

theorem le_digitsValue (n : Nat) (cs : List Char) : n ≤ (digitsValue n cs).1 := by
  induction cs generalizing n with
  | nil => exact Nat.le_refl n
  | cons c cs ih =>
    unfold digitsValue
    cases digit? c with
    | none => exact Nat.le_refl n
    | some d =>
      have hle := ih (n * 10 + d)
      show n ≤ (digitsValue (n * 10 + d) cs).1
      omega

/-- Digits whose value fits into a significand are all collected. -/
theorem collect_of_digitsValue {n v : Nat} (h : digitsValue n cs = (v, [])) (hv : v < UInt64.size)
    (kept : Nat) : collect n kept cs = (⟨v, kept + cs.length, 0⟩, []) := by
  induction cs generalizing n kept with
  | nil =>
    cases h
    rfl
  | cons c cs ih =>
    unfold digitsValue at h
    unfold collect
    cases hc : digit? c with
    | none =>
      rw [hc] at h
      cases h
    | some d =>
      rw [hc] at h
      dsimp only at h ⊢
      have hle := le_digitsValue (n * 10 + d) cs
      rw [h] at hle
      rw [if_pos (Nat.lt_of_le_of_lt hle hv), ih h (kept + 1), List.length_cons, Nat.add_assoc,
        Nat.add_comm 1]

theorem digitsValue_concat {n v d : Nat} (h : digitsValue n cs = (v, [])) (hc : digit? c = some d) :
    digitsValue n (cs ++ [c]) = (v * 10 + d, []) := by
  induction cs generalizing n with
  | nil =>
    cases h
    simp only [List.nil_append, digitsValue, hc]
  | cons b cs ih =>
    rw [List.cons_append]
    unfold digitsValue at h ⊢
    cases hb : digit? b with
    | none =>
      rw [hb] at h
      cases h
    | some e =>
      rw [hb] at h
      exact ih h

/-- The digits of a number have it as their value. -/
theorem digitsValue_toDigits (n : Nat) : digitsValue 0 (Nat.toDigits 10 n) = (n, []) := by
  induction n using Nat.strongRecOn with
  | ind n ih =>
    by_cases hn : n < 10
    · rw [Nat.toDigits_of_lt_base hn]
      simp only [digitsValue, digit?_digitChar n hn, Nat.zero_mul, Nat.zero_add]
    · have hdigit := digit?_digitChar (n % 10) (Nat.mod_lt n (by decide))
      rw [Nat.toDigits_of_base_le (by decide) (Nat.le_of_not_lt hn),
        digitsValue_concat (ih (n / 10) (by omega)) hdigit, Nat.div_add_mod']

/-- The first digit of a number, which is not zero unless the number is. -/
theorem exists_head_toDigits (n : Nat) :
    ∃ c d ds, Nat.toDigits 10 n = c :: ds ∧ digit? c = some d ∧ (n ≠ 0 → d ≠ 0) := by
  induction n using Nat.strongRecOn with
  | ind n ih =>
    by_cases hn : n < 10
    · exact ⟨_, n, [], Nat.toDigits_of_lt_base hn, digit?_digitChar n hn, id⟩
    · obtain ⟨c, d, ds, hds, hc, hd⟩ := ih (n / 10) (by omega)
      rw [Nat.toDigits_of_base_le (by decide) (Nat.le_of_not_lt hn), hds]
      exact ⟨c, d, _, rfl, hc, fun _ => hd (by omega)⟩

/-- The digits of a number are read as the number. -/
theorem unsignedNumber_toDigits (negative : Bool) {n : Nat} (hn : n < UInt64.size) :
    unsignedNumber negative (Nat.toDigits 10 n) = .ok (integer negative n, []) := by
  by_cases hzero : n = 0
  · rw [hzero]
    rfl
  · obtain ⟨c, d, ds, hds, hc, hd⟩ := exists_head_toDigits n
    have hvalue := digitsValue_toDigits n
    rw [hds] at hvalue ⊢
    simp only [digitsValue, hc, Nat.zero_mul, Nat.zero_add] at hvalue
    unfold unsignedNumber
    dsimp only
    rw [hc]
    dsimp only
    rw [if_neg (hd hzero), collect_of_digitsValue hvalue hn]
    rfl

/-- The number that an integer is read as. -/
def ofInt64 (n : Int64) : Number :=
  if n.toInt < 0 then .negative n else .natural n.toInt.natAbs

/-- **An integer is read as itself**, over the full range. -/
theorem number_integerToken (n : Int64) (limits : Limits) :
    number limits (integerToken n.toInt) = .ok (ofInt64 n, []) := by
  have hlow := n.le_toInt
  have hhigh := n.toInt_lt
  have hpow : Nat.pow 2 63 = 9223372036854775808 := rfl
  have hfits : n.toInt.natAbs < UInt64.size := by
    show _ < 18446744073709551616
    omega
  unfold integerToken ofInt64
  by_cases hneg : n.toInt < 0
  · have hint : integer true n.toInt.natAbs = .negative n := by
      unfold integer
      rw [if_pos rfl, if_pos (by omega), Int.ofNat_natAbs_of_nonpos (by omega), Int.neg_neg,
        Int64.ofInt_toInt]
    rw [if_pos hneg, if_pos hneg, number, if_pos rfl, unsignedNumber_toDigits true hfits, hint]
  · obtain ⟨c, d, ds, hds, hc, -⟩ := exists_head_toDigits n.toInt.natAbs
    have hminus : c ≠ '-' := by
      rintro rfl
      cases hc
    have hread := unsignedNumber_toDigits false hfits
    rw [if_neg hneg, if_neg hneg]
    rw [hds] at hread ⊢
    rw [number, if_neg hminus, hread]
    rfl

/-! ## Tokens -/

/-- A number that is read begins with a minus sign or a digit. -/
theorem exists_head_of_number {n : Number} (h : number limits t = .ok (n, more)) :
    ∃ c cs, t = c :: cs ∧ (c = '-' ∨ (digit? c).isSome = true) := by
  cases t with
  | nil => cases h
  | cons c cs =>
    refine ⟨c, cs, rfl, ?_⟩
    unfold number at h
    dsimp only at h
    by_cases hminus : c = '-'
    · exact Or.inl hminus
    · rw [if_neg hminus] at h
      unfold unsignedNumber at h
      dsimp only at h
      cases hc : digit? c with
      | none =>
        rw [hc] at h
        cases h
      | some d => exact Or.inr rfl

theorem not_blank_of_number (h : c = '-' ∨ (digit? c).isSome = true) : isBlank c = false := by
  rw [Bool.eq_false_iff]
  intro hblank
  simp only [isBlank, Bool.or_eq_true, beq_iff_eq] at hblank
  rcases hblank with ((rfl | rfl) | rfl) | rfl <;> revert h <;> decide

/-- A number begins as an item of a container does. -/
theorem beginsItem_of_number (h : c = '-' ∨ (digit? c).isSome = true) : BeginsItem [c :: cs] := by
  refine ⟨c, cs, [], rfl, not_blank_of_number h, ?_, ?_⟩
  · rintro rfl
    revert h
    decide
  · rintro rfl
    revert h
    decide

/-- A token that is read as a number is taken as the number. -/
theorem takes_numeral {n : Number} (h : ∀ limits, number limits t = .ok (n, []))
    (expected : String) (room : Nat) : Takes (numeral expected) n room [t] := by
  intro rounds text rest hahead hrest _
  obtain ⟨c, cs, rfl, hc⟩ := exists_head_of_number (h ⟨room + 1, rounds⟩)
  obtain ⟨mid, htext, hmid⟩ := hahead.skipBlank_eq (not_blank_of_number hc)
  obtain rfl := ahead_nil_iff.mp hmid
  unfold numeral
  rw [htext]
  dsimp only
  rw [if_pos hc, ← List.cons_append, number_append hrest (h _)]
  rfl

/-- An integer is taken from its token. -/
theorem takes_int64 (n : Int64) (room : Nat) : Takes int64 n room [integerToken n.toInt] := by
  intro rounds text rest hahead hrest hrounds
  have hhigh := n.toInt_lt
  have hpow : Nat.pow 2 63 = 9223372036854775808 := rfl
  unfold int64
  rw [Reader.bind_apply, takes_numeral (number_integerToken n) _ room hahead hrest hrounds]
  unfold ofInt64
  dsimp only
  by_cases hneg : n.toInt < 0
  · rw [if_pos hneg]
    rfl
  · have hnat : Int64.ofNat n.toInt.natAbs = n := by
      rw [← Int64.ofInt_eq_ofNat, Int.natAbs_of_nonneg (by omega), Int64.ofInt_toInt]
    rw [if_neg hneg]
    dsimp only
    rw [if_pos (by omega), hnat]
    rfl

theorem isSome_digit?_of_isDigit (h : c.isDigit = true) : (digit? c).isSome = true := by
  have hrange : '0' ≤ c ∧ c ≤ '9' := by
    simpa [Char.isDigit, Char.le_def] using h
  rw [digit?, if_pos hrange, Option.isSome_some]

theorem exists_head_of_isNumber (h : IsNumber t) :
    ∃ c cs, t = c :: cs ∧ (c = '-' ∨ (digit? c).isSome = true) := by
  obtain ⟨sign, whole, fraction, exponent, hsign, ⟨⟨hne, hdigits⟩, -⟩, -, -, rfl⟩ := h
  rcases hsign with rfl | rfl
  · obtain ⟨c, cs, rfl⟩ := List.exists_cons_of_ne_nil hne
    exact ⟨c, _, rfl, Or.inr (isSome_digit?_of_isDigit (hdigits c (List.mem_cons_self ..)))⟩
  · exact ⟨'-', _, rfl, Or.inl rfl⟩

/-- The float that a number is taken for. -/
theorem exists_number_of_float64 {x : Float} (hnumber : IsNumber t)
    (h : float64 limits t = .ok (x, [])) :
    ∃ n, number limits t = .ok (n, []) ∧
      x = match n with
        | .natural m => m.toUInt64.toFloat
        | .negative m => Binary64.ofInt64 m
        | .float y => y := by
  obtain ⟨c, cs, rfl, hc⟩ := exists_head_of_isNumber hnumber
  unfold float64 at h
  rw [Reader.bind_apply, numeral, skipBlank_cons (not_blank_of_number hc)] at h
  dsimp only at h
  rw [if_pos hc] at h
  cases hn : number limits (c :: cs) with
  | error e =>
    rw [hn] at h
    cases h
  | ok r =>
    obtain ⟨n, left⟩ := r
    rw [hn] at h
    cases n <;> cases h <;> exact ⟨_, rfl, rfl⟩

/-- A float is taken from every token that is read as it. -/
theorem takes_float64 {x : Float} (hnumber : IsNumber t)
    (h : ∀ limits, float64 limits t = .ok (x, [])) (room : Nat) : Takes float64 x room [t] := by
  intro rounds text rest hahead hrest hrounds
  obtain ⟨n, hn, rfl⟩ := exists_number_of_float64 hnumber (h ⟨room + 1, rounds⟩)
  unfold float64
  rw [Reader.bind_apply, takes_numeral (fun _ => hn) _ room hahead hrest hrounds]
  cases n <;> rfl

end Json

end TreeWalk
