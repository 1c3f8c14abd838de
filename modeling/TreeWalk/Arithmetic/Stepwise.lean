import TreeWalk.Arithmetic

/-!
# Integer operators step by step

`Arithmetic` computes on unbounded integers and looks at the result afterwards.  A machine
has 64 bits at every step, and here each operator on integers is taken apart into steps
of that kind.

A *checked* step answers with nothing when its exact result is no 64-bit integer.  Other
steps rely on it that nothing of the sort happens, and if it does all the same, or if the
divisor is zero, the operator has no answer but a `Fault`.

## Floor division from division

Machines cut quotients off at zero.  The quotient below and the remainder with the sign of
the divisor are got from there by one step of correction, which is due if there is a
remainder and the signs differ.

## Powers

An exponent of more than 32 bits is not multiplied out.  It leaves the bases that it can
be told for without computing anything, which are zero, one and minus one.
-/

namespace TreeWalk

namespace Stepwise

/-- What a machine must not be asked for. -/
inductive Fault where
  /-- The result of a step that is not checked has more than 64 bits. -/
  | overflow
  /-- A division by zero. -/
  | zeroDivisor
  deriving DecidableEq, Repr

/-! ## Steps -/

/-- The exact result of a checked step, if it is a 64-bit integer. -/
def fit? (n : Int) : Option Int64 := if FitsInt64 n then some (Int64.ofInt n) else none

/-- The quotient that is cut off at zero, checked. -/
def checkedQuotient (a b : Int64) : Option Int64 :=
  if b = 0 then none else fit? (a.toInt.tdiv b.toInt)

/-- A sum, unchecked. -/
def sum (a b : Int64) : Except Fault Int64 :=
  match fit? (a.toInt + b.toInt) with
  | some c => .ok c
  | none => .error .overflow

/-- The remainder that has the sign of the dividend.  The division that it belongs to is
unchecked. -/
def remainder (a b : Int64) : Except Fault Int64 :=
  if b = 0 then .error .zeroDivisor
  else if a = Int64.minValue ∧ b = -1 then .error .overflow
  else .ok (a % b)

/-- The remainder that has the sign of the dividend, whether or not the quotient fits. -/
def wrappingRemainder (a b : Int64) : Except Fault Int64 :=
  if b = 0 then .error .zeroDivisor else .ok (a % b)

/-! ## Operators -/

/-- The quotient below. -/
def floorQuotient (a b : Int64) : Except Fault (Option Int64) :=
  match checkedQuotient a b with
  | none => .ok none
  | some q => do
    let r ← remainder a b
    if r ≠ 0 ∧ ¬ (a < 0 ↔ b < 0) then return fit? (q.toInt - 1)
    else return some q

/-- The remainder that has the sign of the divisor. -/
def floorRemainder (a b : Int64) : Except Fault Int64 := do
  let r ← wrappingRemainder a b
  if r ≠ 0 ∧ ¬ (r < 0 ↔ b < 0) then sum r b else return r

/-- A power with an exponent that is not negative. -/
def naturalPower (a b : Int64) : Except Fault (Option Int64) :=
  if b.toInt < UInt32.size then .ok (fit? (Int.pow a.toInt b.toInt.toNat))
  else if a = 0 ∨ a = 1 then .ok (some a)
  else if a = -1 then do
    let r ← remainder b 2
    return some (if r = 0 then 1 else -1)
  else .ok none

/-- The value of a checked result, or an overflow. -/
def result (operation : IntOperation) : Option Int64 → Except EvalError Value
  | some n => .ok (.int n)
  | none => .error (.integerOverflow operation)

/-- A binary operation on two integers. -/
def onInts (op : BinaryOp) (a b : Int64) : Except Fault (Except EvalError Value) :=
  match op with
  | .add => .ok (result .addition (fit? (a.toInt + b.toInt)))
  | .sub => .ok (result .subtraction (fit? (a.toInt - b.toInt)))
  | .mul => .ok (result .multiplication (fit? (a.toInt * b.toInt)))
  | .div =>
    if b = 0 then .ok (.error (.divisionByZero .division))
    else .ok (.ok (.float (Binary64.ofInt64 a / Binary64.ofInt64 b)))
  | .floorDiv =>
    if b = 0 then .ok (.error (.divisionByZero .floorDivision))
    else do return result .floorDivision (← floorQuotient a b)
  | .mod =>
    if b = 0 then .ok (.error (.divisionByZero .modulo))
    else do return .ok (.int (← floorRemainder a b))
  | .pow =>
    if b < 0 then
      if a = 0 then .ok (.error (.divisionByZero .negativePower))
      else .ok (.ok (.float (Float.pow (Binary64.ofInt64 a) (Binary64.ofInt64 b))))
    else do return result .exponentiation (← naturalPower a b)
  | .lt => .ok (.ok (.ofBool (a < b)))
  | .gt => .ok (.ok (.ofBool (b < a)))
  | .eq => .ok (.ok (.ofBool (a = b)))
  | .ge => .ok (.ok (.ofBool (b ≤ a)))
  | .le => .ok (.ok (.ofBool (a ≤ b)))

end Stepwise

end TreeWalk
