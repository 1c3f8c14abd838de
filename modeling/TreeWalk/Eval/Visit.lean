import TreeWalk.Eval.Step

/-!
# What an evaluation visits

Evaluating a node asks for evaluations of other nodes, each in the state that the ones
before it have left behind.  `visits` lists what the rule of a node asks for, in order,
and `trail` lists everything that is evaluated on the way, each evaluation after those
it asked for.  An evaluation that fails asks for nothing behind the failure.

Statements about what happens in the course of a run are statements about its trail.
-/

namespace TreeWalk

/-- The evaluation of a node in a state. -/
abbrev Visit : Type := NodeId × State

namespace Eval

/-- What comes after a piece of evaluation, if that is done. -/
def afterDone {α : Type} : Outcome α → (α → State → List Visit) → List Visit
  | .done a s, next => next a s
  | _, _ => []

/-- The visit to a child, unless the child is absent. -/
def childVisit (ctx : Context) (id : NodeId) (s : State) : List Visit :=
  if ctx.nodes.isEmpty id then [] else [(id, s)]

/-- The visits to statements in order, up to the first that returns or fails. -/
def statementVisits (rec : NodeId → Eval Flow) : List NodeId → State → List Visit
  | [], _ => []
  | id :: rest, s =>
    (id, s) :: afterDone (rec id s) fun flow s =>
      match flow with
      | .ret _ => []
      | .normal _ => statementVisits rec rest s

/-- The visits to arguments in order, up to the first that fails or has no value. -/
def argumentVisits (ctx : Context) (rec : NodeId → Eval Flow) (callee : String) :
    Nat → List NodeId → State → List Visit
  | _, [], _ => []
  | position, id :: rest, s =>
    childVisit ctx id s ++
      afterDone (required ctx rec (.argument position callee) id s) fun _ s =>
        argumentVisits ctx rec callee (position + 1) rest s

/-- The visits to the arguments of a call, if its function declares parameters. -/
def callArgumentVisits (ctx : Context) (rec : NodeId → Eval Flow) (callee : Name) (args : NodeId)
    (s : State) : List Visit :=
  match s.env.resolveParams callee with
  | none => []
  | some list =>
    afterDone ((do
      let _ ← paramNames ctx list
      listItems ctx .badArguments args) s) fun ids s =>
        argumentVisits ctx rec (ctx.names.lookup callee) 0 ids s

/-- The visit to the body of a function, if there may be a frame for it. -/
def bodyVisit (params : List Name) (values : List ValueId) (body : NodeId) (s : State) :
    List Visit :=
  match s.env.push with
  | .error _ => []
  | .ok env => [(body, { s with env := env.bindAll params values, peak := max s.peak env.depth })]

/-- The visits of a call. -/
def callVisits (ctx : Context) (rec : NodeId → Eval Flow) (callee : Name) (args : NodeId)
    (s : State) : List Visit :=
  match s.env.resolveFunction callee with
  | none => []
  | some body =>
    callArgumentVisits ctx rec callee args s ++
      afterDone (arguments ctx rec callee args s) fun bindings s =>
        bodyVisit bindings.1 bindings.2 body s

/-- What the rule of a node asks for. -/
def visits (ctx : Context) (rec : NodeId → Eval Flow) (id : NodeId) (s : State) : List Visit :=
  match ctx.nodes.get? id with
  | some (.unary _ a) => childVisit ctx a s
  | some (.binary op a b) =>
    childVisit ctx a s ++ afterDone (operand ctx rec op.symbol a s) fun _ s => childVisit ctx b s
  | some (.assign target a) =>
    match ctx.nodes.get? target with
    | some (.ident _) => childVisit ctx a s
    | _ => []
  | some (.print a) => childVisit ctx a s
  | some (.cond test thenBranch elseBranch) =>
    childVisit ctx test s ++
      afterDone ((do value (← required ctx rec .ifCondition test)) s) fun v s =>
        [(if v.truthy then thenBranch else elseBranch, s)]
  | some (.suite r) =>
    afterDone ((do
      let ids ← items ctx r
      markAssigned ctx ids
      return ids) s) fun ids s => statementVisits rec ids s
  | some (.call callee args) => callVisits ctx rec callee args s
  | some (.ret a) => childVisit ctx a s
  | _ => []

/-- Everything that is evaluated on the way to the end of an evaluation, and the evaluation
itself, with at most `fuel` evaluations nested in one another. -/
def nestedTrail (ctx : Context) : Nat → NodeId → State → List Visit
  | 0, _, _ => []
  | fuel + 1, id, s =>
    (visits ctx (nested ctx fuel) id s).flatMap (fun v => nestedTrail ctx fuel v.1 v.2) ++ [(id, s)]

end Eval

/-- Everything that is evaluated in the course of an evaluation, in the order in which it
ends. -/
def trail (ctx : Context) (id : NodeId) (s : State) : List Visit :=
  Eval.nestedTrail ctx (Eval.fuel ctx s.env.limit) id s

end TreeWalk
