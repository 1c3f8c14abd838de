/-!
# Values

A program computes with three kinds of value: machine integers, double-precision
floats, and the one value `nil`, written `None`.  There are no booleans: a
comparison answers with the integer `1` or `0`, and `truthy` says which values
count as true.

Values are immutable and carry no identity, so equality of values is equality of
Lean terms.  The comparison *of the language* is a different thing, because a
float that is not a number differs from itself and the two zeros agree;
`Value.agrees` is that comparison.
-/

namespace TreeWalk

/-- The kinds of value, as error messages name them. -/
inductive ValueKind where
  | int
  | float
  | nil
  deriving DecidableEq, Repr

namespace ValueKind

/-- The name of a kind in an error message. -/
def name : ValueKind → String
  | int => "int"
  | float => "float"
  | nil => "NoneType"

end ValueKind

/-- A runtime value. -/
inductive Value where
  /-- A 64-bit integer. -/
  | int (n : Int64)
  /-- A double-precision float. -/
  | float (x : Float)
  /-- The value of everything that has no value of its own, written `None`. -/
  | nil
  deriving DecidableEq

namespace Value

instance : Inhabited Value := ⟨nil⟩

/-- The kind of a value. -/
def kind : Value → ValueKind
  | int _ => .int
  | float _ => .float
  | nil => .nil

@[simp] theorem kind_int (n : Int64) : (int n).kind = .int := rfl

@[simp] theorem kind_float (x : Float) : (float x).kind = .float := rfl

@[simp] theorem kind_nil : nil.kind = .nil := rfl

/-- The answer of a comparison: `1` for true and `0` for false. -/
def ofBool (b : Bool) : Value := int (if b then 1 else 0)

/-- Numbers are false only when they are zero, and `nil` is always false.  A float
that is not a number is true, since it differs from zero. -/
def truthy : Value → Bool
  | int n => n != 0
  | float x => x != 0
  | nil => false

@[simp] theorem truthy_nil : nil.truthy = false := rfl

@[simp] theorem truthy_ofBool (b : Bool) : (ofBool b).truthy = b := by
  cases b <;> rfl

/-- Whether a value is `nil`. -/
def isNil : Value → Bool
  | nil => true
  | _ => false

/-- Two values agree when they are of one kind and equal as numbers of that kind.
An integer never agrees with a float here: widening is the operators' business. -/
def agrees : Value → Value → Bool
  | int a, int b => a == b
  | float x, float y => x == y
  | nil, nil => true
  | _, _ => false

end Value

end TreeWalk
