import Mathlib.Data.List.Forall2
import TreeWalk.Name

/-!
# Tables of names are bijections

A table of names says everything twice: its strings say what a name stands for, and its
index says which name a string has.  `NameTable.Consistent` states that the two agree, and
the main statements are that naming a string keeps them in agreement and that no name ever
changes what it stands for.

Evaluation compares names and never looks at strings, so it is the injectivity of
`NameTable.Consistent.eq_iff` that lets two names be told apart by what they stand for.
-/

namespace TreeWalk

namespace NameTable

variable {t u v : NameTable} {n m : Name} {s r : String}

/-- A name stands for a string. -/
def Holds (t : NameTable) (n : Name) (s : String) : Prop := t.strings[n.index]? = some s

/-- The index finds a name exactly for the string that the name stands for. -/
def Consistent (t : NameTable) : Prop := ∀ n s, t.find? s = some n ↔ t.Holds n s

/-- Every name of the first table stands for the same string in the second. -/
def Grows (t u : NameTable) : Prop := ∀ ⦃n s⦄, t.Holds n s → u.Holds n s

theorem Grows.refl (t : NameTable) : t.Grows t := fun _ _ h => h

theorem Grows.trans (htu : t.Grows u) (huv : u.Grows v) : t.Grows v :=
  fun _ _ h => huv (htu h)

/-! ## Looking names up -/

theorem Holds.index_lt (h : t.Holds n s) : n.index < t.size := by
  obtain ⟨hn, -⟩ := Array.getElem?_eq_some_iff.mp h
  exact hn

/-- A name stands for the string that is found when it is looked up. -/
theorem Holds.lookup_eq (h : t.Holds n s) : t.lookup n = s := by
  unfold lookup
  rw [h]
  rfl

/-- A name stands for one string only. -/
theorem Holds.string_eq (h : t.Holds n s) (h' : t.Holds n r) : s = r :=
  h.lookup_eq.symm.trans h'.lookup_eq

/-- **Names are equal exactly if they stand for equal strings.** -/
theorem Consistent.eq_iff (ht : t.Consistent) (hn : t.Holds n s) (hm : t.Holds m r) :
    n = m ↔ s = r := by
  constructor
  · rintro rfl
    exact hn.string_eq hm
  · rintro rfl
    have hf := (ht n s).mpr hn
    rw [(ht m s).mpr hm] at hf
    exact (Option.some.inj hf).symm

/-! ## Naming strings -/

/-- A fresh table knows the empty string alone. -/
theorem consistent_fresh : fresh.Consistent := by
  intro n s
  have hf : fresh.find? s = if "" = s then some Name.empty else none := by
    simp [find?, fresh, Std.ExtTreeMap.getElem?_insert]
  have hh : fresh.Holds n s ↔ n.index = 0 ∧ "" = s := by
    unfold Holds fresh
    rcases n with ⟨_ | i⟩ <;> simp
  rw [hf, hh]
  rcases n with ⟨i⟩
  by_cases hs : "" = s <;> simp [hs, Name.empty, eq_comm]

theorem holds_append_iff :
    (t.append s).2.Holds n r ↔ (n.index = t.size ∧ s = r) ∨ t.Holds n r := by
  unfold Holds append size
  rw [Array.getElem?_push]
  by_cases hn : n.index = t.strings.size
  · simp [hn]
  · simp [hn]

/-- A string that is appended leaves the other names as they are. -/
theorem grows_append (t : NameTable) (s : String) : t.Grows (t.append s).2 :=
  fun _ _ h => holds_append_iff.mpr (Or.inr h)

theorem find?_append :
    (t.append s).2.find? r = if s = r then some ⟨t.size⟩ else t.find? r := by
  simp [find?, append, Std.ExtTreeMap.getElem?_insert]

/-- Appending a new string keeps the index in agreement with the strings. -/
theorem consistent_append (ht : t.Consistent) (hs : t.find? s = none) :
    (t.append s).2.Consistent := by
  intro n r
  rw [find?_append, holds_append_iff]
  by_cases hr : s = r
  · subst hr
    have hold : ¬ t.Holds n s := by
      intro h
      rw [(ht n s).mpr h] at hs
      cases hs
    rcases n with ⟨i⟩
    simp [hold, eq_comm]
  · simp only [hr, if_false, and_false, false_or]
    exact ht n r

theorem consistent_intern (ht : t.Consistent) (s : String) : (t.intern s).2.Consistent := by
  cases hs : t.find? s with
  | some n => rw [intern_of_find?_eq_some hs]; exact ht
  | none => rw [intern_of_find?_eq_none hs]; exact consistent_append ht hs

theorem grows_intern (t : NameTable) (s : String) : t.Grows (t.intern s).2 := by
  cases hs : t.find? s with
  | some n => rw [intern_of_find?_eq_some hs]; exact Grows.refl t
  | none => rw [intern_of_find?_eq_none hs]; exact grows_append t s

/-- The name that a string is given stands for it. -/
theorem holds_intern (ht : t.Consistent) (s : String) :
    (t.intern s).2.Holds (t.intern s).1 s := by
  cases hs : t.find? s with
  | some n => rw [intern_of_find?_eq_some hs]; exact (ht n s).mp hs
  | none =>
    rw [intern_of_find?_eq_none hs]
    exact holds_append_iff.mpr (Or.inl ⟨rfl, rfl⟩)

/-! ## Naming lists of strings -/

theorem consistent_internAll (ht : t.Consistent) (ss : List String) :
    (t.internAll ss).2.Consistent := by
  induction ss generalizing t with
  | nil => exact ht
  | cons s rest ih => exact ih (consistent_intern ht s)

theorem grows_internAll (t : NameTable) (ss : List String) : t.Grows (t.internAll ss).2 := by
  induction ss generalizing t with
  | nil => exact Grows.refl t
  | cons s rest ih => exact (grows_intern t s).trans (ih (t.intern s).2)

/-- The names of a list stand for its strings, one by one. -/
theorem holds_internAll (ht : t.Consistent) (ss : List String) :
    List.Forall₂ (t.internAll ss).2.Holds (t.internAll ss).1 ss := by
  induction ss generalizing t with
  | nil => exact List.Forall₂.nil
  | cons s rest ih =>
    have hrest := ih (consistent_intern ht s)
    exact List.Forall₂.cons (grows_internAll _ rest (holds_intern ht s)) hrest

end NameTable

end TreeWalk
