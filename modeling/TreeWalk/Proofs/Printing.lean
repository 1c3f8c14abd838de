import Mathlib.Data.List.Induction
import TreeWalk.Printer
import TreeWalk.Proofs.Decimal.Pointed
import TreeWalk.Value.Text

/-!
# What is printed, and how it is read

A program prints the texts of values, and an empty line where there is no value.  The text of a
value is made of few characters: digits, a sign, a point, and the letters of `None`, `nan` and
`inf` (`Value.isTextChar_of_mem_text`).  There is no line break among them, so whoever reads the
output line by line finds as many lines as were printed, and the same ones
(`Printer.splitLines_join`).

## Floats

A float that is printed may be very large or very small, and its digits come out of a search for
the shortest decimal.  Which digits these are does not matter here, and neither does how many
there are: a decimal with a point has digits and the point, whatever the decimal is.  It does
matter that no float is printed with an exponent (`Value.magnitude_eq_pointed`), since the text
would have another letter.
-/

namespace TreeWalk

namespace Printer

variable {line : List Char} {lines : List String}

/-- Print lines one after another. -/
def printAll (p : Printer) (lines : List String) : Printer := lines.foldl println p

@[simp] theorem printAll_nil (p : Printer) : p.printAll [] = p := rfl

theorem printAll_append (p : Printer) (lines more : List String) :
    p.printAll (lines ++ more) = (p.printAll lines).printAll more := List.foldl_append

theorem printAll_concat (p : Printer) (lines : List String) (line : String) :
    p.printAll (lines ++ [line]) = (p.printAll lines).println line := p.printAll_append lines [line]

/-- A buffer tells which lines were printed. -/
theorem printAll_buffer (kept : Array String) (lines : List String) :
    (buffer kept).printAll lines = buffer (kept ++ lines) := by
  induction lines generalizing kept with
  | nil => rw [printAll_nil, Array.appendList_nil]
  | cons line rest ih =>
    show (buffer (kept.push line)).printAll rest = _
    rw [ih, Array.appendList_cons]

/-- A console shows the lines that were printed. -/
theorem printAll_console (lines : List String) :
    (console #[]).printAll lines = console lines.toArray := by
  induction lines using List.reverseRecOn with
  | nil => rfl
  | append_singleton lines line ih =>
    rw [printAll_concat, ih]
    show console (lines.toArray.push line) = _
    rw [List.push_toArray]

/-! ## Reading line by line -/

theorem toList_join (lines : List String) :
    (join lines.toArray).toList = lines.flatMap fun line => line.toList ++ ['\n'] := by
  induction lines using List.reverseRecOn with
  | nil => rfl
  | append_singleton lines line ih =>
    rw [← List.push_toArray, join_push, String.toList_append, String.toList_append, ih,
      List.flatMap_append, List.append_assoc, List.flatMap_cons, List.flatMap_nil, List.append_nil]
    rfl

theorem dropReturn_of_not_mem (h : '\r' ∉ line) : dropReturn line = line :=
  if_neg fun hlast => h (List.mem_of_getLast? hlast)

/-- What has no line feed is read into the current line. -/
theorem splitLines_append_of_not_mem (h : '\n' ∉ line) (current rest : List Char) :
    splitLines current (line ++ rest) = splitLines (line.reverse ++ current) rest := by
  induction line generalizing current with
  | nil => rfl
  | cons c line ih =>
    have hc : c ≠ '\n' := fun e => h (e ▸ List.mem_cons_self)
    have hline : '\n' ∉ line := fun hmem => h (List.mem_cons_of_mem c hmem)
    rw [List.cons_append, splitLines, if_neg hc, ih hline, List.reverse_cons, List.append_assoc]
    rfl

/-- Lines without line breaks are read as they were printed. -/
theorem splitLines_join (h : ∀ line ∈ lines, '\n' ∉ line.toList ∧ '\r' ∉ line.toList) :
    splitLines [] (join lines.toArray).toList = lines.map String.toList := by
  rw [toList_join]
  induction lines with
  | nil => rfl
  | cons line lines ih =>
    obtain ⟨hfeed, hreturn⟩ := h line List.mem_cons_self
    have hlines := ih fun l hl => h l (List.mem_cons_of_mem line hl)
    rw [List.flatMap_cons, List.append_assoc, splitLines_append_of_not_mem hfeed, List.append_nil,
      List.singleton_append, splitLines, if_pos rfl, List.reverse_reverse,
      dropReturn_of_not_mem hreturn, hlines, List.map_cons]

end Printer

/-! ## The characters of values -/

namespace Value

/-- The characters of values that are no digits. -/
def textSigns : List Char :=
  ['-', '.'] ++ "None".toList ++ floatStyle.notANumber.toList ++ floatStyle.infinity.toList

/-- The characters that the texts of values are made of. -/
def IsTextChar (c : Char) : Prop := c.isDigit = true ∨ c ∈ textSigns
  deriving Decidable

variable {c : Char}

/-- An integer has digits and perhaps a sign. -/
theorem isDigit_or_eq_of_mem_repr {n : Int} (h : c ∈ n.repr.toList) :
    c.isDigit = true ∨ c = '-' := by
  have hdigits {m : Nat} (hc : c ∈ m.repr.toList) : c.isDigit = true := by
    rw [Nat.toList_repr] at hc
    exact Nat.isDigit_of_mem_toDigits (by decide) (Nat.le_refl 10) hc
  rw [Int.repr_eq_if] at h
  split at h
  · exact .inl (hdigits h)
  · rw [String.toList_append] at h
    rcases List.mem_append.mp h with h | h
    · exact .inr (List.mem_singleton.mp h)
    · exact .inl (hdigits h)

/-- The decimal that is printed for a finite double, without its sign. -/
def floatDecimal (p : Parts) : Decimal :=
  if p.mantissa = 0 then ⟨0, 0⟩ else floatStyle.decimal p

/-- A finite double is printed with a point, and never with an exponent. -/
theorem magnitude_eq_pointed (p : Parts) :
    floatStyle.magnitude p = (floatDecimal p).pointed := by
  rw [← Decimal.positional_append_eq_pointed]
  unfold Style.magnitude floatDecimal
  dsimp only
  generalize (if p.mantissa = 0 then (⟨0, 0⟩ : Decimal) else floatStyle.decimal p) = d
  rw [if_pos (show floatStyle.isPositional d = true from rfl)]
  congr 1
  simp [floatStyle]

theorem isTextChar_of_mem_write {x : Float} (h : c ∈ (floatStyle.write x).toList) :
    IsTextChar c := by
  unfold Style.write at h
  dsimp only at h
  split at h
  · exact .inr (List.mem_append_left _ (List.mem_append_right _ h))
  · rw [String.toList_ofList] at h
    rcases List.mem_append.mp h with hsign | hbody
    · split at hsign
      · exact .inr (List.mem_singleton.mp hsign ▸ by decide)
      · cases hsign
    · split at hbody
      · rw [magnitude_eq_pointed] at hbody
        exact (Decimal.isDigit_or_eq_of_mem_pointed hbody).imp_right (by rintro rfl; decide)
      · exact .inr (List.mem_append_right _ hbody)

/-- The text of a value has digits, signs and a few letters. -/
theorem isTextChar_of_mem_text {v : Value} (h : c ∈ v.text.toList) : IsTextChar c := by
  cases v with
  | int n => exact (isDigit_or_eq_of_mem_repr h).imp_right (by rintro rfl; decide)
  | float x => exact isTextChar_of_mem_write h
  | nil => exact .inr (List.mem_append_left _ (List.mem_append_left _ (List.mem_append_right _ h)))

end Value

/-! ## The lines of a program -/

/-- What a program prints: an empty line, or the text of a value. -/
def Printed (line : String) : Prop := line = "" ∨ ∃ v : Value, line = v.text

namespace Printed

variable {line : String}

theorem isTextChar (h : Printed line) {c : Char} (hc : c ∈ line.toList) : Value.IsTextChar c := by
  rcases h with rfl | ⟨v, rfl⟩
  · cases hc
  · exact Value.isTextChar_of_mem_text hc

/-- A character that no value has is in no line of a program. -/
theorem not_mem (h : Printed line) {c : Char} (hc : ¬ Value.IsTextChar c) : c ∉ line.toList :=
  fun hmem => hc (h.isTextChar hmem)

/-- What a program prints has no line breaks of its own. -/
theorem not_mem_breaks (h : Printed line) : '\n' ∉ line.toList ∧ '\r' ∉ line.toList :=
  ⟨h.not_mem (by decide), h.not_mem (by decide)⟩

end Printed

/-- What a program has printed is read back line by line. -/
theorem Printer.read_join {lines : List String} (h : ∀ line ∈ lines, Printed line) :
    (splitLines [] (join lines.toArray).toList).map String.ofList = lines := by
  rw [splitLines_join fun line hline => (h line hline).not_mem_breaks, List.map_map]
  exact List.map_id'' (fun line => String.ofList_toList) lines

end TreeWalk
