import TreeWalk.EvalError
import TreeWalk.Binary64

/-!
# Arithmetic

Two integers give an integer, computed exactly and refused when it does not fit,
except that true division and negative powers give floats.  If either operand is a
float, the other is widened to the nearest double and the operation is that of
doubles.  Comparisons answer with `1` or `0`, and `nil` is no operand at all.

## Integers

Every integer operation is computed on unbounded integers first and checked against
the 64-bit range afterwards, so there is nothing to overflow on the way.  Floor
division rounds to the quotient below, and the remainder that belongs to it has the
sign of the divisor.  A power is not computed when it is bound to be too large: a
base of at least two in magnitude cannot be raised to the sixty-fourth power or
beyond, and the smaller bases need no multiplication.

## Floats

Zero divisors are refused for floats too, instead of giving infinities.  Apart from
that the operations are those of the machine; the remainder is brought to the sign
of the divisor by adding the divisor and taking the remainder again.
-/

namespace TreeWalk

/-- Whether an integer is a 64-bit integer. -/
def FitsInt64 (n : Int) : Prop := Int64.minValue.toInt ≤ n ∧ n ≤ Int64.maxValue.toInt

instance (n : Int) : Decidable (FitsInt64 n) := inferInstanceAs (Decidable (_ ∧ _))

theorem fitsInt64_toInt (n : Int64) : FitsInt64 n.toInt :=
  ⟨n.minValue_le_toInt, n.toInt_le⟩

namespace Arithmetic

/-- The integer value of an exact result, or an overflow. -/
def checked (operation : IntOperation) (n : Int) : Except EvalError Value :=
  if FitsInt64 n then .ok (.int (Int64.ofInt n)) else .error (.integerOverflow operation)

theorem checked_of_fits {operation : IntOperation} {n : Int} (h : FitsInt64 n) :
    checked operation n = .ok (.int (Int64.ofInt n)) := if_pos h

theorem checked_of_not_fits {operation : IntOperation} {n : Int} (h : ¬ FitsInt64 n) :
    checked operation n = .error (.integerOverflow operation) := if_neg h

/-- A power with a natural exponent.  Where the base is at least two in magnitude and
the exponent at least sixty-four the power does not fit, and it is not computed. -/
def naturalPower (base : Int) (exponent : Nat) : Except EvalError Value :=
  if 2 ≤ base.natAbs ∧ 64 ≤ exponent then .error (.integerOverflow .exponentiation)
  else if 2 ≤ base.natAbs then checked .exponentiation (Int.pow base exponent)
  else if exponent = 0 then checked .exponentiation 1
  else if exponent % 2 = 0 then checked .exponentiation (base * base)
  else checked .exponentiation base

/-- An integer power.  A negative exponent leads to floats. -/
def power (a b : Int64) : Except EvalError Value :=
  if 0 ≤ b.toInt then naturalPower a.toInt b.toInt.toNat
  else if a = 0 then .error (.divisionByZero .negativePower)
  else .ok (.float (Float.pow (Binary64.ofInt64 a) (Binary64.ofInt64 b)))

/-- A binary operation on two integers. -/
def onInts (op : BinaryOp) (a b : Int64) : Except EvalError Value :=
  match op with
  | .add => checked .addition (a.toInt + b.toInt)
  | .sub => checked .subtraction (a.toInt - b.toInt)
  | .mul => checked .multiplication (a.toInt * b.toInt)
  | .div =>
    if b = 0 then .error (.divisionByZero .division)
    else .ok (.float (Binary64.ofInt64 a / Binary64.ofInt64 b))
  | .floorDiv =>
    if b = 0 then .error (.divisionByZero .floorDivision)
    else checked .floorDivision (a.toInt.fdiv b.toInt)
  | .mod =>
    if b = 0 then .error (.divisionByZero .modulo)
    else .ok (.int (Int64.ofInt (a.toInt.fmod b.toInt)))
  | .pow => power a b
  | .lt => .ok (.ofBool (a.toInt < b.toInt))
  | .gt => .ok (.ofBool (b.toInt < a.toInt))
  | .eq => .ok (.ofBool (a = b))
  | .ge => .ok (.ofBool (b.toInt ≤ a.toInt))
  | .le => .ok (.ofBool (a.toInt ≤ b.toInt))

/-- A binary operation on two floats. -/
def onFloats (op : BinaryOp) (a b : Float) : Except EvalError Value :=
  match op with
  | .add => .ok (.float (a + b))
  | .sub => .ok (.float (a - b))
  | .mul => .ok (.float (a * b))
  | .div =>
    if b == 0 then .error (.divisionByZero .division) else .ok (.float (a / b))
  | .floorDiv =>
    if b == 0 then .error (.divisionByZero .floorDivision)
    else .ok (.float (Float.floor (a / b)))
  | .mod =>
    if b == 0 then .error (.divisionByZero .modulo)
    else .ok (.float (Binary64.remainder (Binary64.remainder a b + b) b))
  | .pow =>
    if a == 0 && b < 0 then .error (.divisionByZero .negativePower)
    else .ok (.float (Float.pow a b))
  | .lt => .ok (.ofBool (a < b))
  | .gt => .ok (.ofBool (b < a))
  | .eq => .ok (.ofBool (a == b))
  | .ge => .ok (.ofBool (b ≤ a))
  | .le => .ok (.ofBool (a ≤ b))

/-- A binary operation on any two values. -/
def binary (op : BinaryOp) : Value → Value → Except EvalError Value
  | .int a, .int b => onInts op a b
  | .float a, .float b => onFloats op a b
  | .int a, .float b => onFloats op (Binary64.ofInt64 a) b
  | .float a, .int b => onFloats op a (Binary64.ofInt64 b)
  | left, right => .error (.typeMismatch op.symbol (.binary left.kind right.kind))

/-- A unary operation.  Only negation computes anything: the other two operators give a
number back as it is. -/
def unary (op : UnaryOp) (operand : Value) : Except EvalError Value :=
  match operand, op with
  | .nil, _ => .error (.typeMismatch op.symbol (.unary operand.kind))
  | .int n, .neg => checked .negation (-n.toInt)
  | .float x, .neg => .ok (.float (-x))
  | v, _ => .ok v

end Arithmetic

end TreeWalk
