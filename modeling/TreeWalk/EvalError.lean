import TreeWalk.Value
import TreeWalk.Node

/-!
# What evaluation fails with

An `EvalError` is a cause, with what identifies it, and `EvalError.message` is the
one place where causes are put into words.  The wording borrows the exception names
that users of the language know.

## Malformed nodes

A tree that was read from a program file has the shape that the evaluator expects.
A tree that an embedder builds node by node need not have it, and even a well-shaped
tree may use a statement, which has no value, where a value is needed.  `Defect` is
the list of such complaints.
-/

namespace TreeWalk

/-- Why a division-like operation hit zero. -/
inductive ZeroDivision where
  | division
  | floorDivision
  | modulo
  | negativePower
  deriving DecidableEq, Repr

namespace ZeroDivision

/-- The wording of a division by zero. -/
def phrase : ZeroDivision → String
  | division => "division by zero"
  | floorDivision => "integer division by zero"
  | modulo => "modulo by zero"
  | negativePower => "0 cannot be raised to a negative power"

end ZeroDivision

/-- The integer operations whose result may not fit. -/
inductive IntOperation where
  | addition
  | subtraction
  | multiplication
  | floorDivision
  | exponentiation
  | negation
  deriving DecidableEq, Repr

namespace IntOperation

/-- The name of an operation in a message about overflow. -/
def phrase : IntOperation → String
  | addition => "addition"
  | subtraction => "subtraction"
  | multiplication => "multiplication"
  | floorDivision => "floor division"
  | exponentiation => "exponentiation"
  | negation => "negation"

end IntOperation

/-- The operands that an operator rejected. -/
inductive OperandTypes where
  /-- A binary operator rejected its two operands. -/
  | binary (left right : ValueKind)
  /-- A unary operator rejected its operand. -/
  | unary (operand : ValueKind)
  /-- An operand had no value at all. -/
  | missing
  deriving DecidableEq, Repr

/-- The places outside operators where a value is required. -/
inductive Slot where
  | assignedValue
  | printArgument
  | ifCondition
  /-- An argument of a call, counted from zero. -/
  | argument (position : Nat) (callee : String)
  deriving DecidableEq, Repr

namespace Slot

/-- The name of a place in an error message, where arguments count from one. -/
def phrase : Slot → String
  | assignedValue => "assigned value"
  | printArgument => "print argument"
  | ifCondition => "if condition"
  | argument position callee => s!"argument {position + 1} of {callee}()"

end Slot

/-- What is wrong with a node that cannot be evaluated. -/
inductive Defect where
  /-- An operator with this symbol has an empty operand. -/
  | emptyOperand (symbol : String)
  /-- A required child is the empty node. -/
  | emptySlot (slot : Slot)
  /-- A required child evaluated to no value. -/
  | noValue (slot : Slot)
  /-- The target of an assignment is no identifier. -/
  | badTarget (found : NodeKind)
  /-- The arguments of a call are no parameter list. -/
  | badArguments (found : NodeKind)
  /-- The parameters of a function are no parameter list. -/
  | badParameters (found : NodeKind)
  /-- A declared parameter is no identifier. -/
  | badParameter (found : NodeKind)
  /-- A defect in the words of whoever found it. -/
  | described (detail : String)
  deriving DecidableEq, Repr

namespace Defect

/-- The wording of a defect. -/
def detail : Defect → String
  | emptyOperand symbol => s!"operand of '{symbol}' is empty"
  | emptySlot slot => s!"{slot.phrase} is empty"
  | noValue slot => s!"{slot.phrase} produced no value"
  | badTarget found => s!"cannot assign to {found.name}"
  | badArguments found => s!"argument list must be a parameter list, found {found.name}"
  | badParameters found => s!"parameter list must be a parameter list, found {found.name}"
  | badParameter found => s!"parameter must be an identifier, found {found.name}"
  | described detail => detail

end Defect

/-- Why an evaluation failed. -/
inductive EvalError where
  /-- No active frame binds the identifier. -/
  | nameNotDefined (name : String)
  /-- The running block assigns the identifier, but has not done so yet. -/
  | localVariableUnbound (name : String)
  /-- The operator with this symbol does not take these operands. -/
  | typeMismatch (symbol : String) (operands : OperandTypes)
  | divisionByZero (cause : ZeroDivision)
  | integerOverflow (operation : IntOperation)
  /-- A call has another number of arguments than the function has parameters. -/
  | arityMismatch (name : String) (expected got : Nat)
  /-- A call would need more frames than the limit allows. -/
  | recursionLimitExceeded (limit : Nat)
  | malformedNode (defect : Defect)
  deriving DecidableEq, Repr

namespace EvalError

/-- The wording of an error. -/
def message : EvalError → String
  | nameNotDefined name => s!"NameError: name '{name}' is not defined"
  | localVariableUnbound name =>
    s!"UnboundLocalError: local variable '{name}' referenced before assignment"
  | typeMismatch symbol (.binary left right) =>
    s!"TypeError: unsupported operand type(s) for {symbol}: '{left.name}' and '{right.name}'"
  | typeMismatch symbol (.unary operand) =>
    s!"TypeError: bad operand type for unary {symbol}: '{operand.name}'"
  | typeMismatch symbol .missing => s!"TypeError: operand of '{symbol}' produced no value"
  | divisionByZero cause => s!"ZeroDivisionError: {cause.phrase}"
  | integerOverflow operation => s!"OverflowError: integer overflow in {operation.phrase}"
  | arityMismatch name expected got =>
    let noun := if expected = 1 then "argument" else "arguments"
    s!"TypeError: {name}() takes exactly {expected} {noun} ({got} given)"
  | recursionLimitExceeded limit =>
    s!"RecursionError: maximum recursion depth exceeded (limit: {limit})"
  | malformedNode defect => s!"MalformedNode: {defect.detail}"

end EvalError

end TreeWalk
