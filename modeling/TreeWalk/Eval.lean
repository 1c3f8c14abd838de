import TreeWalk.Env
import TreeWalk.NodeStore
import TreeWalk.Printer

/-!
# Evaluations

An `Eval α` is a piece of evaluation that works on the state of a run and, if all
goes well, yields an `α`.  The state is the environment, the values produced so far,
the printer, and the greatest depth that calls have reached.

## Outcomes

A failed evaluation has a state too: whatever was printed, bound or stored before the
failure stays, and a call that fails on the way out still pops its frame.  Three more
outcomes belong to the evaluator and not to the language.  An evaluation is
*dangling* when it asks for a node, a list or a value that does not exist, and it is
*exhausted* when its bound on nested evaluations was too small.  Neither happens to a
program that was read from a file.  It is *full* when there is no handle left for a value
that it stores.  Nothing defined here has this outcome, for here a store takes any number of
values; a machine whose handles have a fixed width is in `TreeWalk.Machine`.
-/

namespace TreeWalk

/-- Whether the result of a call is bound to the name of the function. -/
inductive ResultBinding where
  | enabled
  | disabled
  deriving DecidableEq, Repr

/-- What evaluation reads and never changes. -/
structure Context where
  /-- The identifiers of the program. -/
  names : NameTable
  /-- The nodes of the program. -/
  nodes : NodeStore
  /-- Whether calls bind their results. -/
  resultBinding : ResultBinding

/-- What evaluation changes. -/
structure State where
  /-- The frames. -/
  env : Env
  /-- The values produced so far. -/
  values : ValueStore
  /-- Where lines are printed. -/
  printer : Printer
  /-- The greatest depth reached so far, which is the smallest limit that would not have
  stopped the run. -/
  peak : Nat

namespace State

/-- The state in which a run begins. -/
def fresh (limit : Nat) (printer : Printer) : State := ⟨.fresh limit, .fresh, printer, 0⟩

end State

/-- What the evaluation of a node yields. -/
inductive Flow where
  /-- Evaluation went through; statements and definitions have no value. -/
  | normal (value : Option ValueId)
  /-- A `return` was met, and the enclosing blocks stop up to the call. -/
  | ret (value : ValueId)
  deriving DecidableEq, Repr

namespace Flow

/-- The value of a node, whichever way evaluation went. -/
def value? : Flow → Option ValueId
  | normal v => v
  | ret v => some v

@[simp] theorem value?_normal (v : Option ValueId) : (normal v).value? = v := rfl

@[simp] theorem value?_ret (v : ValueId) : (ret v).value? = some v := rfl

end Flow

/-- How an evaluation ends. -/
inductive Outcome (α : Type) where
  | done (a : α) (s : State)
  | failed (e : EvalError) (s : State)
  /-- Something was asked for that is not in its store. -/
  | dangling
  /-- The bound on nested evaluations was reached. -/
  | exhausted
  /-- There was no handle left for a value, and evaluation was given up. -/
  | full (s : State)

namespace Outcome

/-- The state that an evaluation leaves behind, if it ends. -/
def state? {α : Type} : Outcome α → Option State
  | done _ s => some s
  | failed _ s => some s
  | dangling => none
  | exhausted => none
  | full _ => none

/-- How an evaluation that ends looks from outside: its value or its error, and what was
printed. -/
def ending? {α : Type} : Outcome α → Option (Except EvalError α × Printer)
  | done a s => some (.ok a, s.printer)
  | failed e s => some (.error e, s.printer)
  | dangling => none
  | exhausted => none
  | full _ => none

end Outcome

/-- A piece of evaluation. -/
def Eval (α : Type) : Type := State → Outcome α

namespace Eval

variable {α β : Type}

/-- Yield a value and leave the state alone. -/
@[inline] protected def pure (a : α) : Eval α := fun s => .done a s

/-- One piece of evaluation after another.  The second is not reached unless the first
is done. -/
@[inline] protected def bind (m : Eval α) (f : α → Eval β) : Eval β := fun s =>
  match m s with
  | .done a s => f a s
  | .failed e s => .failed e s
  | .dangling => .dangling
  | .exhausted => .exhausted
  | .full s => .full s

@[always_inline] instance : Monad Eval where
  pure := Eval.pure
  bind := Eval.bind

theorem pure_apply (a : α) (s : State) : (pure a : Eval α) s = .done a s := rfl

theorem bind_apply (m : Eval α) (f : α → Eval β) (s : State) :
    (m >>= f) s =
      match m s with
      | .done a s => f a s
      | .failed e s => .failed e s
      | .dangling => .dangling
      | .exhausted => .exhausted
      | .full s => .full s := rfl

instance : LawfulMonad Eval :=
  LawfulMonad.mk' Eval
    (fun x => by
      funext s
      change (x >>= fun a => pure a) s = x s
      rw [bind_apply]
      cases x s <;> rfl)
    (fun _ _ => rfl)
    (fun x f g => by
      funext s
      simp only [bind_apply]
      cases x s <;> rfl)

/-- Fail. -/
def fail (e : EvalError) : Eval α := fun s => .failed e s

/-- Complain about a node. -/
def malformed (d : Defect) : Eval α := fail (.malformedNode d)

/-- Ask for something that does not exist. -/
def dangling : Eval α := fun _ => .dangling

/-- The present state. -/
def state : Eval State := fun s => .done s s

theorem state_bind (f : State → Eval α) (s : State) : (state >>= f) s = f s s := rfl

/-- Change the environment. -/
def modifyEnv (f : Env → Env) : Eval Unit := fun s => .done () { s with env := f s.env }

/-- Print one line. -/
def emit (line : String) : Eval Unit := fun s =>
  .done () { s with printer := s.printer.println line }

/-- The value behind a handle. -/
def value (id : ValueId) : Eval Value := fun s =>
  match s.values.get? id with
  | some v => .done v s
  | none => .dangling

/-- Store a value and yield it. -/
def produce (v : Value) : Eval Flow := fun s =>
  let stored := s.values.alloc v
  .done (.normal (some stored.1)) { s with values := stored.2 }

/-- The result of an operation that needs no state. -/
def ofExcept : Except EvalError α → Eval α
  | .ok a => pure a
  | .error e => fail e

/-- A node of the program. -/
def node (ctx : Context) (id : NodeId) : Eval Node :=
  match ctx.nodes.get? id with
  | some n => pure n
  | none => dangling

/-- The items of a list of the program. -/
def items (ctx : Context) (r : NodeRange) : Eval (List NodeId) :=
  match ctx.nodes.list? r with
  | some ids => pure ids
  | none => dangling

end Eval

end TreeWalk
