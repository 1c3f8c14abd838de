import TreeWalk.Arithmetic
import TreeWalk.Direct.State
import TreeWalk.Program
import TreeWalk.Value.Text

/-!
# Direct evaluation: rules

The meaning of a program, said on its tree.  `evaluate` is recursive on the tree and
takes the one thing that a tree does not bound as a parameter: how a call runs the body
of the function it calls, an `Entry`.  `evaluateWithin` supplies it, by recursion on the
number of frames that may still be pushed, so evaluation needs no other bound.

The order of evaluation, the marking of names ahead of a block, the value left behind by
a `return` and the steps of a call are those of the evaluation of nodes.
-/

namespace TreeWalk

namespace Direct

/-- How a body is run, given the values of the parameters of its function. -/
abbrev Entry : Type := List (String × Value) → Tree → Eval Value

/-- The result of an operation that needs no state. -/
def ofExcept {α : Type} : Except EvalError α → Eval α
  | .ok a => pure a
  | .error e => throw e

/-- The value of an operand. -/
def operand (symbol : String) (flow : Flow) : Eval Value :=
  match flow.value? with
  | some v => pure v
  | none => throw (.typeMismatch symbol .missing)

/-- The value of a child that must have one. -/
def required (slot : Slot) (flow : Flow) : Eval Value :=
  match flow.value? with
  | some v => pure v
  | none => throw (.malformedNode (.noValue slot))

/-- Print one line. -/
def emit (line : String) : Eval Unit :=
  modify fun s => { s with printer := s.printer.println line }

/-- Reading a variable. -/
def ident (name : String) : Eval Flow := do
  match (← get).find? name with
  | some (.bound v) => pure (.normal (some v))
  | some .unbound => throw (.localVariableUnbound name)
  | none => throw (.nameNotDefined name)

/-- Mark the identifier that a statement assigns, if it is an assignment. -/
def markAssigned : Tree → Eval Unit
  | .assign target _ => modify (·.onTop (·.markUnbound target))
  | _ => pure ()

/-- Leave the value of a `return` in the frame. -/
def leave (v : Value) : Eval Flow := do
  modify (·.onTop fun f => { f with returned := some v })
  return .ret v

mutual

/-- The evaluation of a tree. -/
def evaluate (binding : ResultBinding) (enter : Entry) : Tree → Eval Flow
  | .ident name => ident name
  | .int n => return .normal (some (.int n))
  | .float x => return .normal (some (.float x.value))
  | .nil => return .normal (some .nil)
  | .unary op a => do
    let v ← operand op.symbol (← evaluate binding enter a)
    return .normal (some (← ofExcept (Arithmetic.unary op v)))
  | .binary op a b => do
    let v ← operand op.symbol (← evaluate binding enter a)
    let w ← operand op.symbol (← evaluate binding enter b)
    return .normal (some (← ofExcept (Arithmetic.binary op v w)))
  | .assign target value => do
    let v ← required .assignedValue (← evaluate binding enter value)
    modify (·.onTop (·.bind target v))
    return .normal (some v)
  | .print none => do
    emit ""
    return .normal none
  | .print (some argument) => do
    let v ← required .printArgument (← evaluate binding enter argument)
    emit v.text
    return .normal none
  | .cond test thenBranch elseBranch => do
    let v ← required .ifCondition (← evaluate binding enter test)
    if v.truthy then evaluate binding enter thenBranch
    else evaluateElse binding enter elseBranch
  | .suite statements => do
    statements.forM markAssigned
    evaluateStatements binding enter statements
  | .funcDef name params body => do
    modify (·.onTop (·.define name params body))
    return .normal none
  | .call callee args => do
    match (← get).function? callee with
    | none => throw (.nameNotDefined callee)
    | some body =>
      let bindings ← match (← get).params? callee with
        | none => pure []
        | some params => do
          let values ← evaluateArgs binding enter callee args
          if params.length = values.length then pure (params.zip values)
          else throw (.arityMismatch callee params.length values.length)
      let result ← enter bindings body
      if binding = .enabled then modify (·.onTop (·.bind callee result))
      return .normal (some result)
  | .ret none => leave .nil
  | .ret (some value) => do
    let flow ← evaluate binding enter value
    leave (flow.value?.getD .nil)

/-- The evaluation of the second branch of a choice. -/
def evaluateElse (binding : ResultBinding) (enter : Entry) : Option Tree → Eval Flow
  | none => return .normal none
  | some t => evaluate binding enter t

/-- The evaluation of statements in order, up to the first that returns. -/
def evaluateStatements (binding : ResultBinding) (enter : Entry) : List Tree → Eval Flow
  | [] => return .normal none
  | t :: rest => do
    match ← evaluate binding enter t with
    | .ret v => return .ret v
    | .normal _ => evaluateStatements binding enter rest

/-- The values of arguments from left to right, the first of which has the given
position. -/
def evaluateArguments (binding : ResultBinding) (enter : Entry) (callee : String) :
    Nat → List Tree → Eval (List Value)
  | _, [] => return []
  | position, t :: rest => do
    let v ← required (.argument position callee) (← evaluate binding enter t)
    return v :: (← evaluateArguments binding enter callee (position + 1) rest)

/-- The values of arguments, of which there are none if the call has no list. -/
def evaluateArgs (binding : ResultBinding) (enter : Entry) (callee : String) :
    Option (List Tree) → Eval (List Value)
  | none => return []
  | some ts => evaluateArguments binding enter callee 0 ts

end

/-- Refuse to run a body, because the limit is reached. -/
def refuse (limit : Nat) : Entry := fun _ _ => throw (.recursionLimitExceeded limit)

/-- Run a body in a frame of its own.  The call yields the value left in the frame, or
`nil` if there is none.  The frame is popped whether or not the body failed. -/
def inFrame (body : Tree → Eval Flow) : Entry := fun bindings t s =>
  match body t (s.push (Frame.fresh.bindAll bindings)) with
  | .ok _ s => .ok (s.top.returned.getD .nil) s.pop
  | .error e s => .error e s.pop

/-- The evaluation of a tree when so many more frames may be pushed. -/
def evaluateWithin (settings : Settings) : Nat → Tree → Eval Flow
  | 0 => evaluate settings.resultBinding (refuse settings.limit)
  | frames + 1 => evaluate settings.resultBinding (inFrame (evaluateWithin settings frames))

/-- How the run of a program looks from outside: its value or its error, and what was
printed. -/
def run (t : Tree) (settings : Settings) (printer : Printer) :
    Except EvalError (Option Value) × Printer :=
  match evaluateWithin settings settings.limit t (.fresh printer) with
  | .ok flow s => (.ok flow.value?, s.printer)
  | .error e s => (.error e, s.printer)

end Direct

end TreeWalk
