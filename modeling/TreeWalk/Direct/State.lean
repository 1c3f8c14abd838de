import TreeWalk.EvalError
import TreeWalk.Printer
import TreeWalk.Tree
import Std.Data.ExtTreeMap

/-!
# Direct evaluation: states

A program can be evaluated on its tree as it stands.  Frames then bind strings instead
of names, hold values instead of handles, and hold the bodies of functions as trees, so
a state refers to nothing outside itself.  The rules of resolution are the same: the
nearest frame that mentions an identifier decides, and a frame that only marks it as
unbound makes resolution fail there.

An evaluation either ends with a result or fails, and has a state in both cases, so
`Direct.Eval` is the standard monad of state and errors.  How many frames there may be
is no part of the state: it is what evaluation recurses on.
-/

namespace TreeWalk

namespace Direct

/-- What a frame knows of an identifier. -/
inductive Binding where
  | bound (v : Value)
  /-- Assigned by the running block, but not yet. -/
  | unbound
  deriving DecidableEq

/-- What one call, or the program as a whole, has bound. -/
structure Frame where
  /-- Values and unbound markers. -/
  values : Std.ExtTreeMap String Binding
  /-- Function bodies. -/
  functions : Std.ExtTreeMap String Tree
  /-- Parameters of functions that declare a list of them. -/
  params : Std.ExtTreeMap String (List String)
  /-- The value of the `return` that ended the frame's body. -/
  returned : Option Value

namespace Frame

/-- A frame without bindings. -/
def fresh : Frame := ⟨∅, ∅, ∅, none⟩

instance : Inhabited Frame := ⟨fresh⟩

/-- Bind a value, in place of any marker. -/
def bind (f : Frame) (name : String) (v : Value) : Frame :=
  { f with values := f.values.insert name (.bound v) }

/-- Mark an identifier as unbound, in place of any value. -/
def markUnbound (f : Frame) (name : String) : Frame :=
  { f with values := f.values.insert name .unbound }

/-- Bind a function.  A parameter list that the frame had for the identifier is replaced
or forgotten. -/
def define (f : Frame) (name : String) (params : Option (List String)) (body : Tree) : Frame :=
  { f with
    functions := f.functions.insert name body
    params :=
      match params with
      | none => f.params.erase name
      | some ps => f.params.insert name ps }

/-- Bind values to identifiers from left to right. -/
def bindAll (f : Frame) (bindings : List (String × Value)) : Frame :=
  bindings.foldl (fun f b => f.bind b.1 b.2) f

end Frame

/-- What direct evaluation changes. -/
structure State where
  /-- The frame in which bindings are made. -/
  top : Frame
  /-- The frames below, from the caller's down to the global one. -/
  below : List Frame
  /-- Where lines are printed. -/
  printer : Printer

namespace State

/-- The state in which a run begins. -/
def fresh (printer : Printer) : State := ⟨.fresh, [], printer⟩

/-- All frames, the top one first. -/
def frames (s : State) : List Frame := s.top :: s.below

/-- Push a frame. -/
def push (s : State) (f : Frame) : State := { s with top := f, below := s.top :: s.below }

/-- Pop the top frame.  The global frame stays. -/
def pop (s : State) : State :=
  match s.below with
  | [] => s
  | caller :: rest => { s with top := caller, below := rest }

/-- What the nearest frame that mentions an identifier knows of it. -/
def find? (s : State) (name : String) : Option Binding :=
  s.frames.findSome? (·.values[name]?)

/-- The body of the function that an identifier refers to. -/
def function? (s : State) (name : String) : Option Tree :=
  s.frames.findSome? (·.functions[name]?)

/-- The parameters declared for an identifier. -/
def params? (s : State) (name : String) : Option (List String) :=
  s.frames.findSome? (·.params[name]?)

/-- Change the top frame. -/
def onTop (s : State) (f : Frame → Frame) : State := { s with top := f s.top }

@[simp] theorem pop_push (s : State) (f : Frame) : (s.push f).pop = s := rfl

@[simp] theorem frames_push (s : State) (f : Frame) : (s.push f).frames = f :: s.frames := rfl

end State

/-- What the evaluation of a tree yields. -/
inductive Flow where
  /-- Evaluation went through; statements and definitions have no value. -/
  | normal (value : Option Value)
  /-- A `return` was met, and the enclosing blocks stop up to the call. -/
  | ret (value : Value)
  deriving DecidableEq

namespace Flow

/-- The value of a tree, whichever way evaluation went. -/
def value? : Flow → Option Value
  | normal v => v
  | ret v => some v

@[simp] theorem value?_normal (v : Option Value) : (normal v).value? = v := rfl

@[simp] theorem value?_ret (v : Value) : (ret v).value? = some v := rfl

end Flow

/-- A piece of direct evaluation. -/
abbrev Eval (α : Type) : Type := EStateM EvalError State α

end Direct

end TreeWalk
