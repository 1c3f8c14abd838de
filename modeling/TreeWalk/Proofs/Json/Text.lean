import TreeWalk.Json.Text
import TreeWalk.Proofs.Json.Ahead

/-!
# Every spelling of a string is read as the string

A character of a string may be written as it is, by a letter behind a backslash, or by the numbers
of its units, and each of these is read as the character.  A character beyond the basic plane has
two units, the first of which tells the reader to expect the second, and no other character has a
unit that could be taken for one of them.

A string that is skipped may also hold halves of pairs.
-/

namespace TreeWalk

namespace Json

variable {n : Nat} {digits rest text : List Char} {c : Char} {s : List Char} {limits : Limits}

/-! ## Units -/

/-- Four digits are read as the unit that they spell. -/
theorem hexUnit_of_spells (h : SpellsUnit n digits) (rest : List Char) :
    hexUnit (digits ++ rest) = .ok (n, rest) := by
  obtain ⟨a, b, c, d, hdigits, rfl⟩ := h
  simp only [List.map_eq_cons_iff, List.map_eq_nil_iff] at hdigits
  obtain ⟨w, _, rfl, ha, x, _, rfl, hb, y, _, rfl, hc, z, _, rfl, hd, rfl⟩ := hdigits
  simp only [List.cons_append, List.nil_append, hexUnit, ha, hb, hc, hd]

/-- A character is no half of a pair. -/
theorem not_surrogate (c : Char) : ¬ (0xd800 ≤ c.toNat ∧ c.toNat ≤ 0xdfff) := by
  rintro ⟨hlow, hhigh⟩
  rcases c.valid with h | ⟨h, -⟩
  · exact absurd hlow (by simpa using h)
  · exact absurd hhigh (by simpa using h)

theorem toNat_lt (c : Char) : c.toNat < 0x110000 := by
  rcases c.valid with h | ⟨-, h⟩
  · exact Nat.lt_trans h (by decide)
  · exact h

theorem isTrailing_eq_false (h : n < 0xdc00 ∨ 0xdfff < n) : isTrailing n = false := by
  unfold isTrailing
  rcases h with h | h
  · rw [decide_eq_false (by omega), Bool.false_and]
  · rw [decide_eq_false (p := n ≤ 0xdfff) (by omega), Bool.and_false]

theorem isLeading_eq_false (h : n < 0xd800 ∨ 0xdbff < n) : isLeading n = false := by
  unfold isLeading
  rcases h with h | h
  · rw [decide_eq_false (by omega), Bool.false_and]
  · rw [decide_eq_false (p := n ≤ 0xdbff) (by omega), Bool.and_false]

/-- A character of one unit is read from the unit. -/
theorem numberedEscape_of_single (h : SpellsUnit c.toNat digits) (rest : List Char) :
    numberedEscape (digits ++ rest) = .ok (c, rest) := by
  have hc := not_surrogate c
  unfold numberedEscape
  rw [hexUnit_of_spells h]
  dsimp only
  rw [isTrailing_eq_false (by omega), isLeading_eq_false (by omega), Char.ofNat_toNat]
  rfl

/-- The units of a pair are put together to the character that they were taken from. -/
theorem ofPair_units (h : 0x10000 ≤ c.toNat) :
    ofPair (0xd800 + (c.toNat - 0x10000) / 0x400) (0xdc00 + (c.toNat - 0x10000) % 0x400) = c := by
  have hparts := Nat.div_add_mod (c.toNat - 0x10000) 0x400
  unfold ofPair
  rw [Nat.add_sub_cancel_left, Nat.add_sub_cancel_left, Nat.mul_comm, hparts,
    Nat.sub_add_cancel h, Char.ofNat_toNat]

/-- A character of two units is read from both. -/
theorem numberedEscape_of_pair (h : 0x10000 ≤ c.toNat) {more : List Char}
    (hleading : SpellsUnit (0xd800 + (c.toNat - 0x10000) / 0x400) digits)
    (htrailing : SpellsUnit (0xdc00 + (c.toNat - 0x10000) % 0x400) more) (rest : List Char) :
    numberedEscape (digits ++ '\\' :: 'u' :: (more ++ rest)) = .ok (c, rest) := by
  have hlt := toNat_lt c
  have hlead : isLeading (0xd800 + (c.toNat - 0x10000) / 0x400) = true := by
    unfold isLeading
    rw [decide_eq_true (by omega), decide_eq_true (by omega), Bool.and_self]
  have htrail : isTrailing (0xdc00 + (c.toNat - 0x10000) % 0x400) = true := by
    unfold isTrailing
    rw [decide_eq_true (by omega), decide_eq_true (by omega), Bool.and_self]
  unfold numberedEscape
  rw [hexUnit_of_spells hleading]
  dsimp only
  rw [isTrailing_eq_false (by omega), hlead]
  simp only [Bool.false_eq_true, if_false, if_true, trailingUnit]
  rw [hexUnit_of_spells htrailing]
  dsimp only
  rw [htrail, ofPair_units h]
  rfl

/-! ## Characters -/

theorem spellsUnits_single (h : SpellsUnits [n] text) :
    ∃ digits, SpellsUnit n digits ∧ text = '\\' :: 'u' :: digits := by
  cases h with
  | cons hunit hnil =>
    cases hnil
    exact ⟨_, hunit, List.append_nil _⟩

theorem spellsUnits_pair {m : Nat} (h : SpellsUnits [n, m] text) :
    ∃ digits more, SpellsUnit n digits ∧ SpellsUnit m more ∧
      text = '\\' :: 'u' :: (digits ++ '\\' :: 'u' :: more) := by
  cases h with
  | cons hunit hrest =>
    obtain ⟨more, hmore, rfl⟩ := spellsUnits_single hrest
    exact ⟨_, more, hunit, hmore, rfl⟩

/-- A character that is escaped is read behind the backslash. -/
theorem escaped_of_units (h : SpellsUnits (units c) text) (rest : List Char) :
    ∃ more, text = '\\' :: more ∧ escaped (more ++ rest) = .ok (c, rest) := by
  have hletter : letterEscape? 'u' = none := by decide
  unfold units at h
  by_cases hc : c.toNat < 0x10000
  · rw [if_pos hc] at h
    obtain ⟨digits, hunit, rfl⟩ := spellsUnits_single h
    refine ⟨_, rfl, ?_⟩
    rw [List.cons_append, escaped, hletter]
    exact numberedEscape_of_single hunit rest
  · rw [if_neg hc] at h
    obtain ⟨digits, more, hleading, htrailing, rfl⟩ := spellsUnits_pair h
    refine ⟨_, rfl, ?_⟩
    simp only [List.cons_append, List.append_assoc, escaped, hletter]
    exact numberedEscape_of_pair (Nat.le_of_not_lt hc) hleading htrailing rest

/-- Every way to write a character is read as the character, in one round. -/
theorem stringRest_of_spells (h : SpellsChar c text) (rounds : Nat) (before rest : List Char) :
    stringRest (rounds + 1) before (text ++ rest) = stringRest rounds (c :: before) rest := by
  cases h with
  | plain hplain =>
    obtain ⟨hspace, hquote, hslash⟩ := hplain
    rw [List.singleton_append, stringRest, if_neg hquote, if_neg hslash,
      if_neg (Char.not_lt.mpr hspace)]
  | letter hl =>
    simp only [List.cons_append, List.nil_append]
    rw [stringRest, if_neg (by decide), if_pos rfl, escaped, hl]
  | numbered hunits =>
    obtain ⟨more, rfl, hmore⟩ := escaped_of_units hunits rest
    rw [List.cons_append, stringRest, if_neg (by decide), if_pos rfl, hmore]

theorem SpellsChar.length_pos (h : SpellsChar c text) : 0 < text.length := by
  cases h with
  | plain _ => exact Nat.one_pos
  | letter _ => exact Nat.succ_pos _
  | numbered hunits =>
    obtain ⟨more, rfl, -⟩ := escaped_of_units hunits []
    exact Nat.succ_pos _

/-! ## Strings -/

/-- The characters of a string are read up to the closing quote. -/
theorem stringRest_eq (h : SpellsChars s text) (rest : List Char) {rounds : Nat}
    (hrounds : text.length < rounds) (before : List Char) :
    stringRest rounds before (text ++ '"' :: rest) =
      .ok (String.ofList (before.reverse ++ s), rest) := by
  induction h generalizing rounds before with
  | nil =>
    obtain ⟨k, rfl⟩ := Nat.exists_eq_add_of_lt hrounds
    rw [List.nil_append, stringRest, if_pos rfl, List.append_nil]
  | @cons c s first cs hc _ ih =>
    rw [List.length_append] at hrounds
    have hpos := hc.length_pos
    obtain ⟨k, rfl⟩ : ∃ k, rounds = k + 1 := ⟨rounds - 1, by omega⟩
    rw [List.append_assoc, stringRest_of_spells hc, ih (by omega) (c :: before),
      List.reverse_cons, List.append_assoc, List.singleton_append]

/-- A string is read behind its opening quote. -/
theorem stringBody_eq {x : String} {cs : List Char} (h : SpellsChars x.toList cs)
    (hrounds : cs.length < limits.rounds) (rest : List Char) :
    stringBody limits (cs ++ '"' :: rest) = .ok (x, rest) := by
  unfold stringBody
  rw [stringRest_eq h rest hrounds, List.reverse_nil, List.nil_append, String.ofList_toList]

/-! ## Strings as they are -/

/-- A string between quotes, as it is. -/
def quoted (s : String) : Token := '"' :: s.toList ++ ['"']

instance (c : Char) : Decidable (IsPlain c) := inferInstanceAs (Decidable (_ ∧ _))

theorem spellsChars_self {cs : List Char} (h : ∀ c ∈ cs, IsPlain c) : SpellsChars cs cs := by
  induction cs with
  | nil => exact .nil
  | cons c cs ih =>
    obtain ⟨hc, hcs⟩ := List.forall_mem_cons.mp h
    exact .cons (.plain hc) (ih hcs)

/-- A string without a character that must be escaped may be written as it is. -/
theorem spellsString_quoted {s : String} (h : s.toList.all (decide <| IsPlain ·) = true) :
    SpellsString s (quoted s) :=
  ⟨s.toList, spellsChars_self fun c hc => of_decide_eq_true (List.all_eq_true.mp h c hc), rfl⟩

/-! ## Strings that are skipped -/

/-- A part of a string is skipped in one round. -/
theorem skipStringRest_of_part (h : IsStringPart text) (rounds : Nat) (rest : List Char) :
    skipStringRest (rounds + 1) (text ++ rest) = skipStringRest rounds rest := by
  cases h with
  | plain hplain =>
    obtain ⟨hspace, hquote, hslash⟩ := hplain
    rw [List.singleton_append, skipStringRest, if_neg hquote, if_neg hslash,
      if_neg (Char.not_lt.mpr hspace)]
  | @letter l hl =>
    obtain ⟨d, hd⟩ := Option.isSome_iff_exists.mp hl
    simp only [List.cons_append, List.nil_append]
    rw [skipStringRest, if_neg (by decide), if_pos rfl, skipEscaped, hd]
  | @numbered n digits hunit =>
    have hletter : letterEscape? 'u' = none := by decide
    simp only [List.cons_append]
    rw [skipStringRest, if_neg (by decide), if_pos rfl, skipEscaped, hletter]
    dsimp only
    rw [if_pos rfl, hexUnit_of_spells hunit]

theorem IsStringPart.length_pos (h : IsStringPart text) : 0 < text.length := by
  cases h <;> exact Nat.succ_pos _

/-- The parts of a string are skipped up to the closing quote. -/
theorem skipStringRest_eq {parts : List (List Char)} (h : ∀ p ∈ parts, IsStringPart p)
    {rounds : Nat} (hrounds : parts.flatten.length < rounds) (rest : List Char) :
    skipStringRest rounds (parts.flatten ++ '"' :: rest) = .ok rest := by
  induction parts generalizing rounds with
  | nil =>
    obtain ⟨k, rfl⟩ := Nat.exists_eq_add_of_lt hrounds
    rw [List.flatten_nil, List.nil_append, skipStringRest, if_pos rfl]
  | cons p parts ih =>
    obtain ⟨hp, hparts⟩ := List.forall_mem_cons.mp h
    rw [List.flatten_cons, List.length_append] at hrounds
    have hpos := hp.length_pos
    obtain ⟨k, rfl⟩ : ∃ k, rounds = k + 1 := ⟨rounds - 1, by omega⟩
    rw [List.flatten_cons, List.append_assoc, skipStringRest_of_part hp]
    exact ih hparts (by omega)

end Json

end TreeWalk
