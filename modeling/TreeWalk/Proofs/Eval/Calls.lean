import TreeWalk.Proofs.Eval.Fuel
import TreeWalk.Proofs.Eval.Returns

/-!
# Calls

A call resolves its name, settles what to bind to which parameters, evaluates the body in a
frame of its own, and may bind the result.  `callWith` is what is left of a call when the
function is known, with what is to be bound still open, and the lemmas here tell what came
before if it is done or has failed.
-/

namespace TreeWalk

namespace Eval

variable {ctx : Context} {rec : NodeId → Eval Flow} {s t : State} {id body : NodeId}

/-! ## Frames of their own -/

/-- The body of a call that is done was evaluated in a frame of its own, and was done. -/
theorem inFrame_done {params : List Name} {values : List ValueId} {body : Eval Flow}
    {r : Option ValueId} (h : inFrame params values body s = .done r t) :
    ∃ env flow u, s.env.push = .ok env ∧ body (entered s env params values) = .done flow u ∧
      r = u.env.top.returned ∧ t = left u := by
  unfold inFrame at h
  cases hpush : s.env.push with
  | error e =>
    rw [hpush] at h
    cases h
  | ok env =>
    rw [hpush] at h
    dsimp only at h
    refine ⟨env, ?_⟩
    unfold entered
    generalize body _ = o at h ⊢
    cases o with
    | done flow u =>
      cases h
      exact ⟨flow, u, rfl, rfl, rfl, rfl⟩
    | _ => cases h

/-- A body that fails in a frame of its own fails, or there is no frame for it. -/
theorem inFrame_failed {names : List Name} {values : List ValueId} {m : Eval Flow} {e : EvalError}
    (h : inFrame names values m s = .failed e t) :
    s.env.limit ≤ s.env.depth ∧ e = .recursionLimitExceeded s.env.limit ∧ t = s ∨
      ∃ env u, s.env.push = .ok env ∧ m (entered s env names values) = .failed e u ∧
        t = left u := by
  unfold inFrame at h
  cases hpush : s.env.push with
  | error e' =>
    rw [hpush] at h
    cases h
    by_cases hlt : s.env.depth < s.env.limit
    · cases hpush.symm.trans (if_pos hlt)
    · have hle : s.env.limit ≤ s.env.depth := Nat.not_lt.mp hlt
      cases hpush.symm.trans (Env.push_of_le hle)
      exact Or.inl ⟨hle, rfl, rfl⟩
  | ok env =>
    rw [hpush] at h
    dsimp only at h
    refine Or.inr ⟨env, ?_⟩
    unfold entered
    generalize m _ = o at h ⊢
    cases o with
    | failed e' u =>
      cases h
      exact ⟨u, rfl, rfl, rfl⟩
    | _ => cases h

/-! ## After the function is known -/

/-- A call of a body, once it is settled what to bind. -/
def callWith (ctx : Context) (rec : NodeId → Eval Flow) (callee : Name) (body : NodeId)
    (bindings : Eval (List Name × List ValueId)) : Eval Flow := do
  let (params, values) ← bindings
  let result := (← inFrame params values (rec body)).getD .nil
  if ctx.resultBinding = .enabled then modifyEnv (·.bind callee result)
  pure (.normal (some result))

theorem call_eq_callWith {callee : Name} {args : NodeId}
    (hb : s.env.resolveFunction callee = some body) :
    call ctx rec callee args s =
      callWith ctx rec callee body (arguments ctx rec callee args) s := by
  unfold call callWith
  rw [state_bind, hb]

/-- What is left of a call depends only on what there is to bind. -/
theorem callWith_congr {callee : Name} {m m' : Eval (List Name × List ValueId)} (h : m s = m' t) :
    callWith ctx rec callee body m s = callWith ctx rec callee body m' t := by
  unfold callWith
  rw [bind_apply, bind_apply, h]

theorem call_of_no_function {callee : Name} {args : NodeId}
    (hb : s.env.resolveFunction callee = none) :
    call ctx rec callee args s = .failed (.nameNotDefined (ctx.names.lookup callee)) s := by
  unfold call
  rw [state_bind, hb]
  rfl

/-- A call that is done has evaluated the body to an end, and yields what the slot of the
frame held then. -/
theorem callWith_done {callee : Name} {m : Eval (List Name × List ValueId)} {flow : Flow}
    (h : callWith ctx rec callee body m s = .done flow t) :
    ∃ names values u env bodyFlow w, m s = .done (names, values) u ∧ u.env.push = .ok env ∧
      rec body (entered u env names values) = .done bodyFlow w ∧
      flow = .normal (some (w.env.top.returned.getD .nil)) := by
  obtain ⟨⟨names, values⟩, u, hu, h⟩ := done_bind h
  obtain ⟨r, w', hin, h⟩ := done_bind h
  obtain ⟨env, bodyFlow, w, hpush, hw, rfl, -⟩ := inFrame_done hin
  refine ⟨names, values, u, env, bodyFlow, w, hu, hpush, hw, ?_⟩
  by_cases hr : ctx.resultBinding = .enabled
  · rw [if_pos hr] at h
    cases h
    rfl
  · rw [if_neg hr] at h
    cases h
    rfl

/-- A call that has settled what to bind fails only if its body does. -/
theorem callWith_failed {callee : Name} {names : List Name} {values : List ValueId} {e : EvalError}
    (h : callWith ctx rec callee body (pure (names, values)) s = .failed e t) :
    e = .recursionLimitExceeded s.env.limit ∨
      ∃ w ∈ bodyVisit names values body s, ∃ u, rec w.1 w.2 = .failed e u := by
  unfold callWith at h
  rw [pure_bind] at h
  dsimp only at h
  rw [bind_apply] at h
  generalize hin : inFrame names values (rec body) s = o at h
  cases o with
  | failed e' u =>
    cases h
    refine (inFrame_failed hin).imp (fun hlimit => hlimit.2.1) ?_
    rintro ⟨env, u, hpush, hu, -⟩
    refine ⟨(body, entered s env names values), ?_, u, hu⟩
    unfold bodyVisit
    rw [hpush]
    exact List.mem_singleton_self _
  | done r u =>
    dsimp only at h
    by_cases hr : ctx.resultBinding = .enabled
    · rw [if_pos hr] at h
      cases h
    · rw [if_neg hr] at h
      cases h
  | _ => cases h

/-! ## Evaluating a call -/

theorem eval_call {callee : Name} {args : NodeId} (hend : (eval ctx id s).state? = some t)
    (hn : ctx.nodes.get? id = some (.call callee args))
    (hb : s.env.resolveFunction callee = some body) :
    eval ctx id s =
      callWith ctx (eval ctx) callee body (arguments ctx (eval ctx) callee args) s := by
  rw [eval_eq_step hend, step_of_get? hn, rule, call_eq_callWith hb]

/-- A call of something that is no function fails. -/
theorem exists_body_of_call_done {callee : Name} {args : NodeId} {flow : Flow}
    (hn : ctx.nodes.get? id = some (.call callee args)) (h : eval ctx id s = .done flow t) :
    ∃ body, s.env.resolveFunction callee = some body := by
  cases hb : s.env.resolveFunction callee with
  | some body => exact ⟨body, rfl⟩
  | none =>
    have hend : (eval ctx id s).state? = some t := state?_of_done h
    rw [eval_eq_step hend, step_of_get? hn, rule, call_of_no_function hb] at h
    cases h

/-- The body is the last thing that a call visits. -/
theorem getLast?_callVisits {callee : Name} {args body : NodeId} {params : List Name}
    {values : List ValueId} {u : State} {env : Env}
    (hbody : s.env.resolveFunction callee = some body)
    (hargs : arguments ctx rec callee args s = .done (params, values) u)
    (hpush : u.env.push = .ok env) :
    (callVisits ctx rec callee args s).getLast? = some (body, entered u env params values) := by
  unfold callVisits
  rw [hbody]
  dsimp only
  rw [hargs]
  unfold afterDone bodyVisit
  dsimp only
  rw [hpush, List.getLast?_append]
  rfl

/-- Arguments leave the frames alone. -/
theorem keepsFrames_arguments {callee : Name} {args : NodeId}
    (h : (arguments ctx (eval ctx) callee args s).state? = some t) : KeepsFrames s t := by
  have hthreads : Threads ctx (eval ctx) (.call callee args) s s _ t :=
    traces_arguments callee args h
  exact kept_keepsFrames.threads (fun _ _ _ hend => kept_keepsFrames.eval hend) hthreads

end Eval

end TreeWalk
