import TreeWalk.EvalError
import TreeWalk.ValueStore

/-!
# Environments

An environment is a stack of frames.  The global frame lies at the bottom and is
never popped; every call pushes a frame of its own and pops it again.  A frame binds
values, function bodies and parameter lists to names, in three maps that know
nothing of each other, and it has a slot for the value of a `return`.

## Resolution

Names are resolved along the stack, from the top frame downwards, so a function sees
the bindings of whoever called it.  A frame may also mark a name as *unbound*: the
running block assigns the name, but has not done so yet.  The nearest frame that
mentions a name decides, and if it only marks the name, resolution fails there.

## Shape

The top frame and the frames below it are kept apart, so that an environment always
has a top frame and the depth is the number of frames below.  Writing changes the top
frame only.
-/

namespace TreeWalk

/-- What a frame knows of a value name. -/
inductive Binding where
  | bound (id : ValueId)
  /-- Assigned by the running block, but not yet. -/
  | unbound
  deriving DecidableEq, Repr

/-- Why a name could not be resolved to a value. -/
inductive ResolveError where
  /-- No frame mentions the name. -/
  | notDefined
  /-- The nearest frame that mentions the name marks it as unbound. -/
  | unbound
  deriving DecidableEq, Repr

/-- What one call, or the program as a whole, has bound. -/
structure Frame where
  /-- Values and unbound markers. -/
  values : Std.ExtTreeMap Name Binding
  /-- Function bodies. -/
  functions : Std.ExtTreeMap Name NodeId
  /-- Parameter lists of functions that declare one. -/
  params : Std.ExtTreeMap Name NodeId
  /-- The value of the `return` that ended the frame's body. -/
  returned : Option ValueId

namespace Frame

/-- A frame without bindings. -/
def fresh : Frame := ⟨∅, ∅, ∅, none⟩

instance : Inhabited Frame := ⟨fresh⟩

/-- Bind a value, in place of any marker. -/
def bind (f : Frame) (name : Name) (id : ValueId) : Frame :=
  { f with values := f.values.insert name (.bound id) }

/-- Mark a name as unbound, in place of any value. -/
def markUnbound (f : Frame) (name : Name) : Frame :=
  { f with values := f.values.insert name .unbound }

/-- Bind a function body. -/
def bindFunction (f : Frame) (name : Name) (body : NodeId) : Frame :=
  { f with functions := f.functions.insert name body }

/-- Bind a parameter list. -/
def bindParams (f : Frame) (name : Name) (list : NodeId) : Frame :=
  { f with params := f.params.insert name list }

/-- Forget a parameter list. -/
def clearParams (f : Frame) (name : Name) : Frame :=
  { f with params := f.params.erase name }

/-- Record the value of a `return`. -/
def signalReturn (f : Frame) (id : ValueId) : Frame :=
  { f with returned := some id }

/-- Clear the value of a `return`. -/
def clearReturn (f : Frame) : Frame :=
  { f with returned := none }

end Frame

/-- A stack of frames, and the number of frames it may hold above the global one. -/
structure Env where
  /-- The frame in which bindings are made. -/
  top : Frame
  /-- The frames below, from the caller's down to the global one. -/
  below : List Frame
  /-- How many frames there may be above the global one. -/
  limit : Nat

namespace Env

/-- The limit that applies unless another one is chosen. -/
def defaultLimit : Nat := 1000

/-- The environment of a program that is about to start. -/
def fresh (limit : Nat) : Env := ⟨.fresh, [], limit⟩

instance : Inhabited Env := ⟨fresh defaultLimit⟩

/-- The number of frames above the global one. -/
def depth (env : Env) : Nat := env.below.length

/-- All frames, the top one first. -/
def frames (env : Env) : List Frame := env.top :: env.below

/-- Push a frame, unless the limit is reached. -/
def push (env : Env) : Except EvalError Env :=
  if env.depth < env.limit then .ok { env with top := .fresh, below := env.top :: env.below }
  else .error (.recursionLimitExceeded env.limit)

/-- Pop the top frame.  The global frame stays. -/
def pop (env : Env) : Env :=
  match env.below with
  | [] => env
  | caller :: rest => { env with top := caller, below := rest }

/-- Pop every frame above the global one. -/
def unwind (env : Env) : Env :=
  { env with top := env.frames.getLast (List.cons_ne_nil _ _), below := [] }

/-- The value that the nearest frame mentioning a name has for it. -/
def resolveIn (name : Name) : List Frame → Except ResolveError ValueId
  | [] => .error .notDefined
  | f :: rest =>
    match f.values[name]? with
    | some (.bound id) => .ok id
    | some .unbound => .error .unbound
    | none => resolveIn name rest

/-- The value bound to a name, as seen from the top frame. -/
def resolve (env : Env) (name : Name) : Except ResolveError ValueId :=
  resolveIn name env.frames

/-- The body of the function that a name refers to. -/
def resolveFunction (env : Env) (name : Name) : Option NodeId :=
  env.frames.findSome? (·.functions[name]?)

/-- The parameter list declared for a name. -/
def resolveParams (env : Env) (name : Name) : Option NodeId :=
  env.frames.findSome? (·.params[name]?)

/-- What the top frame knows of a value name. -/
def local? (env : Env) (name : Name) : Option Binding := env.top.values[name]?

/-- Bind a value in the top frame. -/
def bind (env : Env) (name : Name) (id : ValueId) : Env :=
  { env with top := env.top.bind name id }

/-- Bind values to names in the top frame, pair by pair. -/
def bindAll (env : Env) : List Name → List ValueId → Env
  | name :: names, id :: ids => (env.bind name id).bindAll names ids
  | _, _ => env

/-- Mark a name as unbound in the top frame. -/
def markUnbound (env : Env) (name : Name) : Env :=
  { env with top := env.top.markUnbound name }

/-- Bind a function body in the top frame. -/
def bindFunction (env : Env) (name : Name) (body : NodeId) : Env :=
  { env with top := env.top.bindFunction name body }

/-- Bind a parameter list in the top frame. -/
def bindParams (env : Env) (name : Name) (list : NodeId) : Env :=
  { env with top := env.top.bindParams name list }

/-- Forget the parameter list that the top frame has for a name.  Lists in the frames
below stay visible. -/
def clearParams (env : Env) (name : Name) : Env :=
  { env with top := env.top.clearParams name }

/-- Record the value of a `return` in the top frame. -/
def signalReturn (env : Env) (id : ValueId) : Env :=
  { env with top := env.top.signalReturn id }

/-- Whether the top frame has the value of a `return`. -/
def hasReturned (env : Env) : Bool := env.top.returned.isSome

/-- Take the value of a `return` out of the top frame. -/
def takeReturned (env : Env) : Option ValueId × Env :=
  (env.top.returned, { env with top := env.top.clearReturn })

@[simp] theorem depth_fresh (limit : Nat) : (fresh limit).depth = 0 := rfl

@[simp] theorem depth_unwind (env : Env) : env.unwind.depth = 0 := rfl

@[simp] theorem limit_pop (env : Env) : env.pop.limit = env.limit := by
  unfold pop
  split <;> rfl

end Env

end TreeWalk
