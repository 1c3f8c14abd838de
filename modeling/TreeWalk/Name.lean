import Std.Data.ExtTreeMap

/-!
# Names

Identifiers are compared far more often than they are printed, so a program holds
each of them once, in a `NameTable`, and refers to it by a number, its `Name`.
The table is a list of the distinct strings met so far together with the index
from a string back to its number.  The empty string is always there, under the
name `Name.empty`.

## What a table promises

Strings are numbered in the order of their first appearance and never move:
`NameTable.intern` either finds the number of a string or appends the string at
the end.  Asking for the string of a number that was never given out answers with
the empty string.

`NameTable.intern` always has a number for a new string, and `NameTable.tryIntern` has one as
long as it is not larger than a name can carry on a machine.  A program whose names do not fit
is given up there (`NameTable.Fits`).
-/

namespace TreeWalk

/-- An identifier, as its number in a table of names. -/
structure Name where
  /-- The position of the string in its table. -/
  index : Nat
  deriving DecidableEq, Repr

namespace Name

/-- The name of the empty string in every table. -/
def empty : Name := ⟨0⟩

instance : Inhabited Name := ⟨empty⟩

/-- A name as listings show it. -/
def text (n : Name) : String := s!"Name({n.index})"

/-- Names are ordered by their numbers. -/
instance : Ord Name := ⟨compareOn index⟩

instance : Std.TransOrd Name :=
  inferInstanceAs (Std.TransCmp (compareOn index))

instance : Std.LawfulEqOrd Name where
  eq_of_compare {a b} h := by
    have hi : a.index = b.index := Std.LawfulEqOrd.eq_of_compare h
    cases a
    cases b
    exact congrArg mk hi

end Name

/-- Why a string could not be given a name. -/
inductive NameError where
  /-- The table already holds as many strings as a name can number. -/
  | full (count : Nat)
  deriving DecidableEq, Repr

namespace NameError

/-- The largest number that a name can carry. -/
def maxIndex : Nat := UInt32.size - 1

/-- The wording of a failure to name a string. -/
def message : NameError → String
  | full count => s!"interner exceeded capacity: {count} strings, max is {maxIndex}"

end NameError

/-- The distinct identifiers of a program, numbered in order of appearance. -/
structure NameTable where
  /-- The strings, each at the position that is its name. -/
  strings : Array String
  /-- The name of each string that has one. -/
  names : Std.ExtTreeMap String Name

namespace NameTable

/-- A table that holds the empty string alone. -/
def fresh : NameTable where
  strings := #[""]
  names := (∅ : Std.ExtTreeMap String Name).insert "" Name.empty

instance : Inhabited NameTable := ⟨fresh⟩

/-- The number of strings held, the empty string included. -/
def size (t : NameTable) : Nat := t.strings.size

/-- The name of a string, if the string is in the table. -/
def find? (t : NameTable) (s : String) : Option Name := t.names[s]?

/-- The string behind a name, or the empty string for a name never given out. -/
def lookup (t : NameTable) (n : Name) : String := t.strings[n.index]?.getD ""

/-- Append a string that the table does not hold yet. -/
def append (t : NameTable) (s : String) : Name × NameTable :=
  (⟨t.size⟩, ⟨t.strings.push s, t.names.insert s ⟨t.size⟩⟩)

/-- The name of a string, which is appended if it is new. -/
def intern (t : NameTable) (s : String) : Name × NameTable :=
  match t.find? s with
  | some n => (n, t)
  | none => t.append s

/-- Like `intern`, but a new string is refused once the next number would be larger
than a name can carry. -/
def tryIntern (t : NameTable) (s : String) : Except NameError (Name × NameTable) :=
  match t.find? s with
  | some n => .ok (n, t)
  | none => if t.size ≤ NameError.maxIndex then .ok (t.append s) else .error (.full t.size)

/-- Name each string of a list, from left to right. -/
def internAll (t : NameTable) : List String → List Name × NameTable
  | [] => ([], t)
  | s :: rest =>
    let (n, t) := t.intern s
    let (ns, t) := t.internAll rest
    (n :: ns, t)

@[simp] theorem internAll_nil (t : NameTable) : t.internAll [] = ([], t) := rfl

theorem internAll_cons (t : NameTable) (s : String) (rest : List String) :
    t.internAll (s :: rest) =
      ((t.intern s).1 :: ((t.intern s).2.internAll rest).1, ((t.intern s).2.internAll rest).2) :=
  rfl

/-- The string of the empty name is empty in a fresh table. -/
@[simp] theorem lookup_fresh_empty : fresh.lookup Name.empty = "" := rfl

theorem intern_of_find?_eq_some {t : NameTable} {s : String} {n : Name}
    (h : t.find? s = some n) : t.intern s = (n, t) := by
  simp [intern, h]

theorem intern_of_find?_eq_none {t : NameTable} {s : String}
    (h : t.find? s = none) : t.intern s = t.append s := by
  simp [intern, h]

end NameTable

end TreeWalk
