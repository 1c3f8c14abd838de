import Mathlib.Tactic.Common
import TreeWalk.Eval.Step
import TreeWalk.Proofs.Values

/-!
# Unfolding evaluation

`Eval.step` looks a node up and chooses the rule for it.  Here the choice is a function of
the node, `Eval.rule`, so that a proof can go through the kinds of node without going
through the ways in which a lookup fails.  The other lemmas carry out single pieces of
evaluation whose result is known.
-/

namespace TreeWalk

/-- An evaluation that looks failed from outside has failed. -/
theorem Outcome.exists_failed_of_ending? {α : Type} {o : Outcome α} {e : EvalError}
    {printer : Printer} (h : o.ending? = some (.error e, printer)) : ∃ s, o = .failed e s := by
  cases o with
  | failed e' s =>
    cases h
    exact ⟨s, rfl⟩
  | _ => cases h

/-- An evaluation that looks done from outside is done. -/
theorem Outcome.exists_done_of_ending? {α : Type} {o : Outcome α} {a : α} {printer : Printer}
    (h : o.ending? = some (.ok a, printer)) : ∃ s, o = .done a s := by
  cases o with
  | done b s =>
    cases h
    exact ⟨s, rfl⟩
  | _ => cases h

namespace Eval

variable {α : Type} {ctx : Context} {rec : NodeId → Eval Flow} {s : State} {id : NodeId}

/-- The rule for a node. -/
def rule (ctx : Context) (rec : NodeId → Eval Flow) : Node → Eval Flow
  | .empty => pure (.normal none)
  | .paramList _ => pure (.normal none)
  | .ident name => ident ctx name
  | .int n => produce (.int n)
  | .float x => produce (.float x.value)
  | .nil => pure (.normal (some .nil))
  | .unary op operand => unary ctx rec op operand
  | .binary op left right => binary ctx rec op left right
  | .assign target value => assign ctx rec target value
  | .print argument => print ctx rec argument
  | .cond test thenBranch elseBranch => cond ctx rec test thenBranch elseBranch
  | .suite r => suite ctx rec r
  | .funcDef name params body => funcDef ctx name params body
  | .call callee args => call ctx rec callee args
  | .ret value => ret ctx rec value

theorem step_eq (ctx : Context) (rec : NodeId → Eval Flow) (id : NodeId) :
    step ctx rec id = node ctx id >>= rule ctx rec := rfl

theorem node_of_get? {n : Node} (h : ctx.nodes.get? id = some n) : node ctx id = pure n := by
  unfold node
  rw [h]

theorem items_of_list? {r : NodeRange} {ids : List NodeId} (h : ctx.nodes.list? r = some ids) :
    items ctx r = pure ids := by
  unfold items
  rw [h]

/-- A node that is there is evaluated by its rule. -/
theorem step_of_get? {n : Node} (h : ctx.nodes.get? id = some n) :
    step ctx rec id = rule ctx rec n := by
  rw [step_eq, node_of_get? h, pure_bind]

/-- Something that is bounded by the fuel has an evaluation of its own. -/
theorem nested_of_lt {fuel n : Nat} (h : n < fuel) :
    ∃ k, fuel = k + 1 ∧ ∀ id, nested ctx fuel id = step ctx (nested ctx k) id := by
  obtain ⟨k, rfl⟩ : ∃ k, fuel = k + 1 := ⟨fuel - 1, by omega⟩
  exact ⟨k, rfl, fun _ => rfl⟩

/-- The value of a handle that belongs to a value. -/
theorem value_of_holds {i : ValueId} {v : Value} (h : s.values.Holds i v) :
    value i s = .done v s := by
  unfold value
  rw [show s.values.get? i = some v from h]

theorem value_bind {i : ValueId} {v : Value} (h : s.values.Holds i v) (f : Value → Eval α) :
    (value i >>= f) s = f v s := by
  rw [bind_apply, value_of_holds h]

/-- A child that is there and must have a value. -/
theorem required_of_not_isEmpty (h : ctx.nodes.isEmpty id = false) (slot : Slot) :
    required ctx rec slot id = rec id >>= fun flow =>
      match flow.value? with
      | some v => pure v
      | none => malformed (.noValue slot) := by
  unfold required
  rw [h]
  rfl

/-- An operand that is there. -/
theorem operand_of_not_isEmpty (h : ctx.nodes.isEmpty id = false) (symbol : String) :
    operand ctx rec symbol id = rec id >>= fun flow =>
      match flow.value? with
      | some v => value v
      | none => fail (.typeMismatch symbol .missing) := by
  unfold operand
  rw [h]
  rfl

/-- Printing a child that is there. -/
theorem print_of_not_isEmpty (h : ctx.nodes.isEmpty id = false) :
    print ctx rec id = (required ctx rec .printArgument id >>= value) >>= fun v =>
      emit v.text >>= fun _ => pure (.normal none) := by
  unfold print
  rw [h, bind_assoc]
  rfl

/-- Returning the value of a child that is there. -/
theorem ret_of_not_isEmpty (h : ctx.nodes.isEmpty id = false) :
    ret ctx rec id = rec id >>= fun flow =>
      modifyEnv (·.signalReturn (flow.value?.getD .nil)) >>= fun _ =>
        pure (.ret (flow.value?.getD .nil)) := by
  unfold ret
  rw [h]
  rfl

/-- A block marks the names that it assigns and then runs. -/
theorem suite_eq (ctx : Context) (rec : NodeId → Eval Flow) (r : NodeRange) :
    suite ctx rec r =
      (do let ids ← items ctx r; markAssigned ctx ids; return ids) >>= statements rec := by
  unfold suite
  simp only [bind_assoc, pure_bind]

/-- A statement that is no assignment marks nothing. -/
theorem markAssigned_cons_of_ne {n : Node} (h : ctx.nodes.get? id = some n)
    (hk : n.kind ≠ .assignment) (rest : List NodeId) :
    markAssigned ctx (id :: rest) = markAssigned ctx rest := by
  rw [markAssigned, node_of_get? h, pure_bind]
  cases n with
  | assign target value => exact absurd rfl hk
  | _ => rfl

/-- An assignment marks its target. -/
theorem markAssigned_cons_assign {target value : NodeId} {name : Name}
    (h : ctx.nodes.get? id = some (.assign target value))
    (ht : ctx.nodes.get? target = some (.ident name)) (rest : List NodeId) :
    markAssigned ctx (id :: rest) =
      modifyEnv (·.markUnbound name) >>= fun _ => markAssigned ctx rest := by
  simp only [markAssigned, node_of_get? h, node_of_get? ht, pure_bind]

end Eval

end TreeWalk
