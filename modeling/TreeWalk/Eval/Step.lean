import TreeWalk.Eval
import TreeWalk.Arithmetic
import TreeWalk.Value.Text

/-!
# Evaluating nodes

Each kind of node has a rule, and each rule is a function of `rec`, the evaluation of
the node's children.  `step` is the choice among the rules, and `eval` ties the knot
under a bound on how deeply evaluations nest.

## Blocks

Before the first statement of a block runs, every name that one of its own statements
assigns is marked as unbound, so reading such a name ahead of its assignment fails
instead of finding an outer binding.  Nested blocks mark their own names when they run.

## Calls

The arguments of a function that declares parameters are evaluated in the caller's
frame and counted before the callee's frame exists.  A function without a parameter
list ignores its arguments altogether.  The value of a `return` is taken out of the
frame before the frame is popped, and popping happens whether or not the body failed.

## The bound

A body is entered at most once for each frame that the limit allows, and within one
frame a node is evaluated only inside nodes that have it below them.  Nested
evaluations are therefore at most as many as there are frames times nodes, and
`fuel` is that number.
-/

namespace TreeWalk

namespace Eval

/-- The evaluation of an operand down to its value. -/
def operand (ctx : Context) (rec : NodeId → Eval Flow) (symbol : String) (id : NodeId) :
    Eval Value := do
  if ctx.nodes.isEmpty id then
    malformed (.emptyOperand symbol)
  else
    match (← rec id).value? with
    | some v => value v
    | none => fail (.typeMismatch symbol .missing)

/-- The evaluation of a child that must have a value. -/
def required (ctx : Context) (rec : NodeId → Eval Flow) (slot : Slot) (id : NodeId) :
    Eval ValueId := do
  if ctx.nodes.isEmpty id then
    malformed (.emptySlot slot)
  else
    match (← rec id).value? with
    | some v => pure v
    | none => malformed (.noValue slot)

/-- Reading a variable. -/
def ident (ctx : Context) (name : Name) : Eval Flow := do
  match (← state).env.resolve name with
  | .ok id => pure (.normal (some id))
  | .error .notDefined => fail (.nameNotDefined (ctx.names.lookup name))
  | .error .unbound => fail (.localVariableUnbound (ctx.names.lookup name))

/-- An operator on one operand. -/
def unary (ctx : Context) (rec : NodeId → Eval Flow) (op : UnaryOp) (id : NodeId) :
    Eval Flow := do
  let v ← operand ctx rec op.symbol id
  produce (← ofExcept (Arithmetic.unary op v))

/-- An operator on two operands, the left one first. -/
def binary (ctx : Context) (rec : NodeId → Eval Flow) (op : BinaryOp) (left right : NodeId) :
    Eval Flow := do
  let a ← operand ctx rec op.symbol left
  let b ← operand ctx rec op.symbol right
  produce (← ofExcept (Arithmetic.binary op a b))

/-- An assignment, whose value is the value assigned. -/
def assign (ctx : Context) (rec : NodeId → Eval Flow) (target id : NodeId) : Eval Flow := do
  match ← node ctx target with
  | .ident name =>
    let v ← required ctx rec .assignedValue id
    modifyEnv (·.bind name v)
    pure (.normal (some v))
  | other => malformed (.badTarget other.kind)

/-- A line of output. -/
def print (ctx : Context) (rec : NodeId → Eval Flow) (id : NodeId) : Eval Flow := do
  if ctx.nodes.isEmpty id then
    emit ""
  else
    let v ← required ctx rec .printArgument id
    emit (← value v).text
  pure (.normal none)

/-- A choice. -/
def cond (ctx : Context) (rec : NodeId → Eval Flow) (test thenBranch elseBranch : NodeId) :
    Eval Flow := do
  let v ← value (← required ctx rec .ifCondition test)
  if v.truthy then rec thenBranch else rec elseBranch

/-- Mark every name that one of the statements assigns. -/
def markAssigned (ctx : Context) : List NodeId → Eval Unit
  | [] => pure ()
  | id :: rest => do
    match ← node ctx id with
    | .assign target _ =>
      match ← node ctx target with
      | .ident name => modifyEnv (·.markUnbound name)
      | _ => pure ()
    | _ => pure ()
    markAssigned ctx rest

/-- Statements in order, up to the first that returns. -/
def statements (rec : NodeId → Eval Flow) : List NodeId → Eval Flow
  | [] => pure (.normal none)
  | id :: rest => do
    match ← rec id with
    | .ret v => pure (.ret v)
    | .normal _ => statements rec rest

/-- A block. -/
def suite (ctx : Context) (rec : NodeId → Eval Flow) (r : NodeRange) : Eval Flow := do
  let ids ← items ctx r
  markAssigned ctx ids
  statements rec ids

/-- A function definition.  A parameter list that the frame had for the name is replaced
or forgotten. -/
def funcDef (ctx : Context) (name : Name) (params body : NodeId) : Eval Flow := do
  match ← node ctx params with
  | .empty => modifyEnv fun env => (env.bindFunction name body).clearParams name
  | _ => modifyEnv fun env => (env.bindFunction name body).bindParams name params
  pure (.normal none)

/-- The items of a parameter list, where the empty node is a list without items. -/
def listItems (ctx : Context) (defect : NodeKind → Defect) (id : NodeId) :
    Eval (List NodeId) := do
  match ← node ctx id with
  | .empty => pure []
  | .paramList r => items ctx r
  | other => malformed (defect other.kind)

/-- The names that identifiers stand for. -/
def identNames (ctx : Context) : List NodeId → Eval (List Name)
  | [] => pure []
  | id :: rest => do
    match ← node ctx id with
    | .ident name => return name :: (← identNames ctx rest)
    | other => malformed (.badParameter other.kind)

/-- The names that a parameter list declares. -/
def paramNames (ctx : Context) (list : NodeId) : Eval (List Name) := do
  identNames ctx (← listItems ctx .badParameters list)

/-- The values of arguments from left to right, the first of which has the given
position. -/
def argumentValues (ctx : Context) (rec : NodeId → Eval Flow) (callee : String) :
    Nat → List NodeId → Eval (List ValueId)
  | _, [] => pure []
  | position, id :: rest => do
    let v ← required ctx rec (.argument position callee) id
    return v :: (← argumentValues ctx rec callee (position + 1) rest)

/-- The parameters of the function to be called, and the values of the arguments, as
many as there are parameters.  Without a parameter list there is nothing to bind and
nothing is evaluated. -/
def arguments (ctx : Context) (rec : NodeId → Eval Flow) (callee : Name) (args : NodeId) :
    Eval (List Name × List ValueId) := do
  match (← state).env.resolveParams callee with
  | none => pure ([], [])
  | some list =>
    let params ← paramNames ctx list
    let name := ctx.names.lookup callee
    let values ← argumentValues ctx rec name 0 (← listItems ctx .badArguments args)
    if params.length = values.length then pure (params, values)
    else fail (.arityMismatch name params.length values.length)

/-- Evaluate a body in a frame of its own, in which the parameters are bound, and yield
the value it returned, if it returned one.  The frame is popped in any case. -/
def inFrame (params : List Name) (values : List ValueId) (body : Eval Flow) :
    Eval (Option ValueId) := fun s =>
  match s.env.push with
  | .error e => .failed e s
  | .ok env =>
    match body { s with env := env.bindAll params values, peak := max s.peak env.depth } with
    | .done _ s => .done s.env.top.returned { s with env := s.env.pop }
    | .failed e s => .failed e { s with env := s.env.pop }
    | .dangling => .dangling
    | .exhausted => .exhausted
    | .full s => .full s

/-- A call.  A body that does not return yields `nil`, and the result may be bound to
the name of the function in the caller's frame. -/
def call (ctx : Context) (rec : NodeId → Eval Flow) (callee : Name) (args : NodeId) :
    Eval Flow := do
  match (← state).env.resolveFunction callee with
  | none => fail (.nameNotDefined (ctx.names.lookup callee))
  | some body =>
    let (params, values) ← arguments ctx rec callee args
    let result := (← inFrame params values (rec body)).getD .nil
    if ctx.resultBinding = .enabled then modifyEnv (·.bind callee result)
    pure (.normal (some result))

/-- A return, which also leaves its value in the frame. -/
def ret (ctx : Context) (rec : NodeId → Eval Flow) (id : NodeId) : Eval Flow := do
  let v ← if ctx.nodes.isEmpty id then pure ValueId.nil
    else do pure ((← rec id).value?.getD .nil)
  modifyEnv (·.signalReturn v)
  pure (.ret v)

/-- The rule for each kind of node. -/
def step (ctx : Context) (rec : NodeId → Eval Flow) (id : NodeId) : Eval Flow := do
  match ← node ctx id with
  | .empty => pure (.normal none)
  | .paramList _ => pure (.normal none)
  | .ident name => ident ctx name
  | .int n => produce (.int n)
  | .float x => produce (.float x.value)
  | .nil => pure (.normal (some .nil))
  | .unary op operand => unary ctx rec op operand
  | .binary op left right => binary ctx rec op left right
  | .assign target value => assign ctx rec target value
  | .print argument => print ctx rec argument
  | .cond test thenBranch elseBranch => cond ctx rec test thenBranch elseBranch
  | .suite r => suite ctx rec r
  | .funcDef name params body => funcDef ctx name params body
  | .call callee args => call ctx rec callee args
  | .ret value => ret ctx rec value

/-- The evaluation of a node with at most `fuel` evaluations nested in one another. -/
def nested (ctx : Context) : Nat → NodeId → Eval Flow
  | 0, _ => fun _ => .exhausted
  | fuel + 1, id => step ctx (nested ctx fuel) id

/-- How many evaluations may nest: one for each node in each frame. -/
def fuel (ctx : Context) (limit : Nat) : Nat := (limit + 1) * ctx.nodes.size + 1

end Eval

/-- The evaluation of a node. -/
def eval (ctx : Context) (id : NodeId) : Eval Flow := fun s =>
  Eval.nested ctx (Eval.fuel ctx s.env.limit) id s

end TreeWalk
