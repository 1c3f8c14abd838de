import TreeWalk.Eval.Step

/-!
# Interpreters

An interpreter is a program together with the state of its runs.  Running it again
continues with the same globals, functions and values, and a run that fails leaves
the environment with the global frame on top.

## Bounds

The bound of `eval` is enough for every node of a store whose nodes come after what they refer
to.  Elsewhere nodes may have themselves below them, and an evaluation that ends may nest more
deeply.  So there are runs under any bound, `Eval.runWithin`, and `State.Arrived` are the
states in which an interpreter can be, however deep its evaluations nest.
-/

namespace TreeWalk

namespace Eval

/-- The value behind the result of a node, if the node has one. -/
def result (flow : Flow) : Eval (Option Value) :=
  match flow.value? with
  | none => pure none
  | some id => do return some (← value id)

/-- What a run makes of the evaluation of its root: it yields the value, and after a failure
every frame above the global one is gone. -/
def finish : Outcome Flow → Outcome (Option Value)
  | .done flow s => result flow s
  | .failed e s => .failed e { s with env := s.env.unwind }
  | .dangling => .dangling
  | .exhausted => .exhausted
  | .full s => .full s

/-- Evaluate a root and yield its value. -/
def run (ctx : Context) (root : NodeId) : Eval (Option Value) := fun s =>
  finish (eval ctx root s)

/-- A run in which at most `fuel` evaluations nest in one another. -/
def runWithin (ctx : Context) (fuel : Nat) (root : NodeId) : Eval (Option Value) := fun s =>
  finish (nested ctx fuel root s)

end Eval

namespace State

/-- The states in which an interpreter can be: it begins in a fresh state and goes on with
whatever a run or an evaluation leaves behind, whether that went through or failed. -/
inductive Reached (ctx : Context) (limit : Nat) (printer : Printer) : State → Prop where
  | fresh : Reached ctx limit printer (State.fresh limit printer)
  | run {s s' : State} (root : NodeId) :
    Reached ctx limit printer s → (Eval.run ctx root s).state? = some s' →
    Reached ctx limit printer s'
  | eval {s s' : State} (id : NodeId) :
    Reached ctx limit printer s → (eval ctx id s).state? = some s' →
    Reached ctx limit printer s'

/-- The states in which an interpreter can be, however deep its evaluations nest. -/
inductive Arrived (ctx : Context) (limit : Nat) (printer : Printer) : State → Prop where
  | fresh : Arrived ctx limit printer (State.fresh limit printer)
  | run {s t : State} (fuel : Nat) (root : NodeId) :
    Arrived ctx limit printer s → (Eval.runWithin ctx fuel root s).state? = some t →
    Arrived ctx limit printer t
  | eval {s t : State} (fuel : Nat) (id : NodeId) :
    Arrived ctx limit printer s → (Eval.nested ctx fuel id s).state? = some t →
    Arrived ctx limit printer t

/-- The value that a name is bound to, as seen from the top frame. -/
def lookup (s : State) (ctx : Context) (name : String) : Option Value := do
  let n ← ctx.names.find? name
  match s.env.resolve n with
  | .ok id => s.values.get? id
  | .error _ => none

end State

end TreeWalk
