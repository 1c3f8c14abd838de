import Mathlib.Tactic.Common
import TreeWalk.Arithmetic

/-!
# What operators fail with

An operator that has found its operands fails for one of three reasons: it does not take
operands of these kinds, it would divide by zero, or its result does not fit.  `OfOperation` says
so of an error.  Errors of these kinds are not about the shape of a program, and no identifier
occurs in them.

The error also tells which operator it was.  A division by zero and an overflow belong to one
operator each, and operands are rejected under the symbol of the operator, so `OfBinary` and
`OfUnary` are about one operator, and the failures of all operators are read off them.
-/

namespace TreeWalk

/-- The operator that divides by zero in this way. -/
def ZeroDivision.operator : ZeroDivision → BinaryOp
  | division => .div
  | floorDivision => .floorDiv
  | modulo => .mod
  | negativePower => .pow

/-- The operator between two operands whose result does not fit. -/
def IntOperation.operator? : IntOperation → Option BinaryOp
  | addition => some .add
  | subtraction => some .sub
  | multiplication => some .mul
  | floorDivision => some .floorDiv
  | exponentiation => some .pow
  | negation => none

/-- The errors that operators raise whose operands have values. -/
def EvalError.OfOperation : EvalError → Prop
  | typeMismatch _ (.binary _ _) => True
  | typeMismatch _ (.unary _) => True
  | divisionByZero _ => True
  | integerOverflow _ => True
  | _ => False

/-- The errors that an operator raises between two operands that have values. -/
def EvalError.OfBinary (op : BinaryOp) : EvalError → Prop
  | typeMismatch symbol (.binary _ _) => symbol = op.symbol
  | divisionByZero cause => cause.operator = op
  | integerOverflow operation => operation.operator? = some op
  | _ => False

/-- The errors that an operator raises before an operand that has a value. -/
def EvalError.OfUnary (op : UnaryOp) : EvalError → Prop
  | typeMismatch symbol (.unary _) => symbol = op.symbol
  | integerOverflow operation => operation = .negation ∧ op = .neg
  | _ => False

theorem EvalError.OfBinary.ofOperation {op : BinaryOp} {e : EvalError} (h : e.OfBinary op) :
    e.OfOperation := by
  cases e with
  | typeMismatch symbol operands =>
    cases operands with
    | binary left right => trivial
    | unary operand => cases h
    | missing => cases h
  | divisionByZero cause => trivial
  | integerOverflow operation => trivial
  | _ => cases h

theorem EvalError.OfUnary.ofOperation {op : UnaryOp} {e : EvalError} (h : e.OfUnary op) :
    e.OfOperation := by
  cases e with
  | typeMismatch symbol operands =>
    cases operands with
    | binary left right => cases h
    | unary operand => trivial
    | missing => cases h
  | integerOverflow operation => trivial
  | _ => cases h

namespace Arithmetic

variable {op : BinaryOp} {e : EvalError}

theorem eq_of_checked {operation : IntOperation} {n : Int} (h : checked operation n = .error e) :
    e = .integerOverflow operation := by
  unfold checked at h
  split at h
  · cases h
  · cases h
    rfl

theorem eq_of_naturalPower {base : Int} {exponent : Nat}
    (h : naturalPower base exponent = .error e) : e = .integerOverflow .exponentiation := by
  unfold naturalPower at h
  split_ifs at h
  · cases h
    rfl
  all_goals exact eq_of_checked h

theorem ofBinary_of_power {a b : Int64} (h : power a b = .error e) : e.OfBinary .pow := by
  unfold power at h
  split_ifs at h
  · obtain rfl := eq_of_naturalPower h
    rfl
  · cases h
    rfl

theorem ofBinary_of_onInts {a b : Int64} (h : onInts op a b = .error e) : e.OfBinary op := by
  cases op with
  | add | sub | mul =>
    obtain rfl := eq_of_checked h
    rfl
  | div | mod =>
    simp only [onInts] at h
    split_ifs at h
    cases h
    rfl
  | floorDiv =>
    simp only [onInts] at h
    split_ifs at h
    · cases h
      rfl
    · obtain rfl := eq_of_checked h
      rfl
  | pow => exact ofBinary_of_power h
  | lt | gt | eq | ge | le => cases h

theorem ofBinary_of_onFloats {a b : Float} (h : onFloats op a b = .error e) : e.OfBinary op := by
  cases op with
  | div | floorDiv | mod | pow =>
    simp only [onFloats] at h
    split_ifs at h
    cases h
    rfl
  | _ => cases h

/-- The failures of a binary operator. -/
theorem ofBinary_of_binary {v w : Value} (h : binary op v w = .error e) : e.OfBinary op := by
  unfold binary at h
  split at h
  · exact ofBinary_of_onInts h
  · exact ofBinary_of_onFloats h
  · exact ofBinary_of_onFloats h
  · exact ofBinary_of_onFloats h
  · cases h
    rfl

/-- The failures of a unary operator. -/
theorem ofUnary_of_unary {op : UnaryOp} {v : Value} (h : unary op v = .error e) :
    e.OfUnary op := by
  unfold unary at h
  split at h
  · cases h
    rfl
  · obtain rfl := eq_of_checked h
    exact ⟨rfl, rfl⟩
  · cases h
  · cases h

/-- The failures of binary operators. -/
theorem ofOperation_of_binary {v w : Value} (h : binary op v w = .error e) : e.OfOperation :=
  (ofBinary_of_binary h).ofOperation

/-- The failures of unary operators. -/
theorem ofOperation_of_unary {op : UnaryOp} {v : Value} (h : unary op v = .error e) :
    e.OfOperation := (ofUnary_of_unary h).ofOperation

end Arithmetic

end TreeWalk
