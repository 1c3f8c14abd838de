import TreeWalk.Proofs.Eval.Abreast
import TreeWalk.Proofs.Eval.Calls

/-!
# A rule stops with its visits

No rule goes on behind something that it asked for and that was not done, and none takes a failure
for an answer.  So as soon as one of its visits fails, the rule fails with the same error; and if a
visit dangles, is exhausted or is given up, then so is the rule.  What becomes of a rule in this way
is `Outcome.PassesOn`, and the main statement, `stopsBy_step`, is that each visit is done or passes
on to the rule.

It is used in both directions.  A rule that is done has done all it visited (`StopsBy.done`), and a
rule is given up or dangles with any of its visits (`StopsBy.full` and `StopsBy.dangling`).
-/

namespace TreeWalk

/-- The second outcome is not done, for the reason for which the first is not. -/
inductive Outcome.PassesOn {α β : Type} : Outcome α → Outcome β → Prop where
  /-- Frames are given back on the way out, so the states may differ. -/
  | failed {e : EvalError} {s t : State} : PassesOn (.failed e s) (.failed e t)
  | dangling : PassesOn .dangling .dangling
  | exhausted : PassesOn .exhausted .exhausted
  | full {s : State} : PassesOn (.full s) (.full s)

theorem Outcome.done_or_passesOn {α : Type} (o : Outcome α) :
    (∃ a s, o = .done a s) ∨ o.PassesOn o := by
  cases o with
  | done a s => exact Or.inl ⟨a, s, rfl⟩
  | failed e s => exact Or.inr .failed
  | dangling => exact Or.inr .dangling
  | exhausted => exact Or.inr .exhausted
  | full s => exact Or.inr .full

namespace Eval

variable {α β : Type} {ctx : Context} {rec : NodeId → Eval Flow} {s t : State} {v : Visit}
  {vs : List Visit} {id : NodeId}

/-- What comes after a piece that is not done is not reached. -/
theorem passesOn_bind {o : Outcome Flow} {m : Eval α} (h : o.PassesOn (m s)) (f : α → Eval β) :
    o.PassesOn ((m >>= f) s) := by
  rw [bind_apply]
  generalize m s = p at h ⊢
  cases h with
  | failed => exact .failed
  | dangling => exact .dangling
  | exhausted => exact .exhausted
  | full => exact .full

/-- Each of the given visits is done, or a piece of evaluation is not done for the same reason. -/
def StopsBy (rec : NodeId → Eval Flow) (m : Eval α) (s : State) (vs : List Visit) : Prop :=
  ∀ v ∈ vs, (∃ flow t, rec v.1 v.2 = .done flow t) ∨ (rec v.1 v.2).PassesOn (m s)

namespace StopsBy

variable {m : Eval α}

/-- A piece that is done has done what it visited. -/
theorem done {a : α} (h : StopsBy rec m s vs) (hm : m s = .done a t) (hv : v ∈ vs) :
    ∃ flow u, rec v.1 v.2 = .done flow u := by
  refine (h v hv).resolve_right fun hpasses => ?_
  rw [hm] at hpasses
  generalize rec v.1 v.2 = o at hpasses
  cases hpasses

/-- A piece dangles with its visits. -/
theorem dangling (h : StopsBy rec m s vs) (hv : v ∈ vs) (hvisit : rec v.1 v.2 = .dangling) :
    m s = .dangling := by
  have hv := h v hv
  rw [hvisit] at hv
  generalize m s = o at hv ⊢
  rcases hv with ⟨_, _, hdone⟩ | hpasses
  · cases hdone
  · cases hpasses with
    | dangling => rfl

/-- A piece is given up with its visits. -/
theorem full (h : StopsBy rec m s vs) (hv : v ∈ vs) (hvisit : rec v.1 v.2 = .full t) :
    m s = .full t := by
  have hv := h v hv
  rw [hvisit] at hv
  generalize m s = o at hv ⊢
  rcases hv with ⟨_, _, hdone⟩ | hpasses
  · cases hdone
  · cases hpasses with
    | full => rfl

/-- Two pieces in a row. -/
theorem bind {f : α → Eval β} {next : α → State → List Visit} (hm : StopsBy rec m s vs)
    (hf : ∀ a t, m s = .done a t → StopsBy rec (f a) t (next a t)) :
    StopsBy rec (m >>= f) s (vs ++ afterDone (m s) next) := by
  intro v hv
  rcases List.mem_append.mp hv with hv | hv
  · exact (hm v hv).imp_right fun h => passesOn_bind h f
  · rw [bind_apply]
    cases ht : m s with
    | done a t =>
      rw [ht] at hv
      exact hf a t ht v hv
    | _ =>
      rw [ht] at hv
      cases hv

/-- The second piece visits nothing. -/
theorem bind_end (hm : StopsBy rec m s vs) (f : α → Eval β) : StopsBy rec (m >>= f) s vs :=
  fun v hv => (hm v hv).imp_right fun h => passesOn_bind h f

end StopsBy

theorem stopsBy_nil (m : Eval α) (s : State) : StopsBy rec m s [] := List.forall_mem_nil _

theorem stopsBy_rec (id : NodeId) (s : State) : StopsBy rec (rec id) s [(id, s)] :=
  List.forall_mem_singleton.mpr (rec id s).done_or_passesOn

/-- The first piece visits nothing. -/
theorem StopsBy.of_done {m : Eval α} {f : α → Eval β} {next : α → State → List Visit}
    (hf : ∀ a t, m s = .done a t → StopsBy rec (f a) t (next a t)) :
    StopsBy rec (m >>= f) s (afterDone (m s) next) := (stopsBy_nil m s).bind hf

theorem afterDone_bind (m : Eval α) (f : α → Eval β) (s : State)
    (next : β → State → List Visit) :
    afterDone ((m >>= f) s) next = afterDone (m s) fun a t => afterDone (f a t) next := by
  rw [bind_apply]
  cases m s <;> rfl

theorem stopsBy_required (slot : Slot) (a : NodeId) (s : State) :
    StopsBy rec (required ctx rec slot a) s (childVisit ctx a s) := by
  unfold childVisit required
  by_cases he : ctx.nodes.isEmpty a = true
  · rw [if_pos he, if_pos he]
    exact stopsBy_nil _ s
  · rw [if_neg he, if_neg he]
    exact (stopsBy_rec a s).bind_end _

theorem stopsBy_operand (symbol : String) (a : NodeId) (s : State) :
    StopsBy rec (operand ctx rec symbol a) s (childVisit ctx a s) := by
  unfold childVisit operand
  by_cases he : ctx.nodes.isEmpty a = true
  · rw [if_pos he, if_pos he]
    exact stopsBy_nil _ s
  · rw [if_neg he, if_neg he]
    exact (stopsBy_rec a s).bind_end _

theorem stopsBy_assign (target a : NodeId) (s : State) :
    StopsBy rec (assign ctx rec target a) s
      (match ctx.nodes.get? target with
        | some (.ident _) => childVisit ctx a s
        | _ => []) := by
  unfold assign
  cases ht : ctx.nodes.get? target with
  | none => exact stopsBy_nil _ s
  | some m =>
    rw [node_of_get? ht, pure_bind]
    cases m with
    | ident name => exact (stopsBy_required _ a s).bind_end _
    | _ => exact stopsBy_nil _ s

theorem stopsBy_print (a : NodeId) (s : State) :
    StopsBy rec (print ctx rec a) s (childVisit ctx a s) := by
  by_cases he : ctx.nodes.isEmpty a = true
  · have hnil : childVisit ctx a s = [] := if_pos he
    rw [hnil]
    exact stopsBy_nil _ s
  · rw [print_of_not_isEmpty (Bool.eq_false_iff.mpr he)]
    exact ((stopsBy_required _ a s).bind_end _).bind_end _

theorem stopsBy_ret (a : NodeId) (s : State) :
    StopsBy rec (ret ctx rec a) s (childVisit ctx a s) := by
  unfold childVisit
  by_cases he : ctx.nodes.isEmpty a = true
  · rw [if_pos he]
    exact stopsBy_nil _ s
  · rw [if_neg he, ret_of_not_isEmpty (Bool.eq_false_iff.mpr he)]
    exact (stopsBy_rec a s).bind_end _

theorem stopsBy_cond (test thenBranch elseBranch : NodeId) (s : State) :
    StopsBy rec (cond ctx rec test thenBranch elseBranch) s
      (childVisit ctx test s ++
        afterDone ((do value (← required ctx rec .ifCondition test)) s) fun v s =>
          [(if v.truthy then thenBranch else elseBranch, s)]) := by
  unfold cond
  rw [← bind_assoc]
  refine ((stopsBy_required _ test s).bind_end _).bind fun v t _ => ?_
  by_cases hv : v.truthy = true
  · rw [if_pos hv, if_pos hv]
    exact stopsBy_rec thenBranch t
  · rw [if_neg hv, if_neg hv]
    exact stopsBy_rec elseBranch t

theorem stopsBy_statements (ids : List NodeId) (s : State) :
    StopsBy rec (statements rec ids) s (statementVisits rec ids s) := by
  induction ids generalizing s with
  | nil => exact stopsBy_nil _ s
  | cons id rest ih =>
    refine (stopsBy_rec id s).bind fun flow t _ => ?_
    cases flow with
    | ret v => exact stopsBy_nil _ t
    | normal v => exact ih t

theorem stopsBy_suite (r : NodeRange) (s : State) :
    StopsBy rec (suite ctx rec r) s
      (afterDone ((do
        let ids ← items ctx r
        markAssigned ctx ids
        return ids) s) fun ids s => statementVisits rec ids s) := by
  rw [suite_eq]
  exact .of_done fun ids t _ => stopsBy_statements ids t

theorem stopsBy_argumentValues (callee : String) (position : Nat) (ids : List NodeId)
    (s : State) :
    StopsBy rec (argumentValues ctx rec callee position ids) s
      (argumentVisits ctx rec callee position ids s) := by
  induction ids generalizing position s with
  | nil => exact stopsBy_nil _ s
  | cons id rest ih =>
    refine (stopsBy_required _ id s).bind fun v t _ => ?_
    exact (ih (position + 1) t).bind_end _

theorem stopsBy_arguments (callee : Name) (args : NodeId) (s : State) :
    StopsBy rec (arguments ctx rec callee args) s
      (callArgumentVisits ctx rec callee args s) := by
  unfold callArgumentVisits
  cases hl : s.env.resolveParams callee with
  | none => exact stopsBy_nil _ s
  | some list =>
    intro v hv
    unfold arguments
    rw [state_bind, hl]
    dsimp only at hv ⊢
    rw [afterDone_bind] at hv
    refine StopsBy.of_done (fun params t _ => .of_done fun ids t' _ => ?_) v hv
    exact (stopsBy_argumentValues (ctx.names.lookup callee) 0 ids t').bind_end _

/-- What a body that is not done passes on goes through the frame. -/
theorem done_or_passesOn_leave (o : Outcome Flow) :
    (∃ flow t, o = .done flow t) ∨ o.PassesOn (leave o) := by
  cases o with
  | done flow t => exact Or.inl ⟨flow, t, rfl⟩
  | failed e t => exact Or.inr .failed
  | dangling => exact Or.inr .dangling
  | exhausted => exact Or.inr .exhausted
  | full t => exact Or.inr .full

theorem stopsBy_inFrame (params : List Name) (values : List ValueId) (body : NodeId)
    (s : State) :
    StopsBy rec (inFrame params values (rec body)) s (bodyVisit params values body s) := by
  unfold bodyVisit
  cases hpush : s.env.push with
  | error e => exact stopsBy_nil _ s
  | ok env =>
    refine List.forall_mem_singleton.mpr ?_
    rw [inFrame_of_push hpush]
    exact done_or_passesOn_leave _

theorem stopsBy_call (callee : Name) (args : NodeId) (s : State) :
    StopsBy rec (call ctx rec callee args) s (callVisits ctx rec callee args s) := by
  unfold callVisits
  cases hb : s.env.resolveFunction callee with
  | none => exact stopsBy_nil _ s
  | some body =>
    have hwith : StopsBy rec (callWith ctx rec callee body (arguments ctx rec callee args)) s _ :=
      (stopsBy_arguments callee args s).bind fun bindings t _ =>
        (stopsBy_inFrame bindings.1 bindings.2 body t).bind_end _
    intro v hv
    rw [call_eq_callWith hb]
    exact hwith v hv

/-- **A rule stops with its visits.** -/
theorem stopsBy_step (ctx : Context) (rec : NodeId → Eval Flow) (id : NodeId) (s : State) :
    StopsBy rec (step ctx rec id) s (visits ctx rec id s) := by
  unfold visits
  cases hn : ctx.nodes.get? id with
  | none => exact stopsBy_nil _ s
  | some n =>
    rw [step_of_get? hn]
    cases n with
    | unary op a => exact (stopsBy_operand _ a s).bind_end _
    | binary op a b =>
      exact (stopsBy_operand _ a s).bind fun v t _ => (stopsBy_operand _ b t).bind_end _
    | assign target a => exact stopsBy_assign target a s
    | print a => exact stopsBy_print a s
    | cond a b c => exact stopsBy_cond a b c s
    | suite r => exact stopsBy_suite r s
    | call callee args => exact stopsBy_call callee args s
    | ret a => exact stopsBy_ret a s
    | _ => exact stopsBy_nil _ s

end Eval

end TreeWalk
