import TreeWalk.Proofs.Eval.Calls

/-!
# What a call leaves behind

A call goes through three stages, and the environment can change in two of them.  The arguments
are evaluated in the frame of the caller, and may assign variables and define functions there.
The body runs in a frame of its own, which is popped however the body ends.  The result may be
bound in the frame of the caller.

So everything that a call does to the environment it has done when its arguments are
evaluated, but for the binding of the result.  `afterArguments` is the state at that time, and
`Footprint` says that a call has the environment of that state when it fails, and that
environment with the result bound, or as it is, when it is done.

## Why the body leaves no trace

A body may define functions, assign the names of its caller, return from anywhere and fail at
any depth.  All of this happens in the frame on top, and frames below are never written
(`KeepsFrames`).  Popping therefore finds the environment in which the frame was pushed.
-/

namespace TreeWalk

namespace Eval

variable {ctx : Context} {rec : NodeId → Eval Flow} {s t u : State} {id body : NodeId}
  {fuel : Nat} {callee : Name} {args : NodeId}

/-! ## After the arguments -/

/-- The state in which a call is when its arguments were evaluated, to the end or up to a
failure.  It is the state in which the call was made if there is nothing to evaluate: if there
is no function, or a function without a parameter list. -/
def afterArguments (ctx : Context) (rec : NodeId → Eval Flow) (callee : Name) (args : NodeId)
    (s : State) : Option State :=
  match s.env.resolveFunction callee, s.env.resolveParams callee with
  | some _, some list =>
    ((do
      let _ ← paramNames ctx list
      let ids ← listItems ctx .badArguments args
      argumentValues ctx rec (ctx.names.lookup callee) 0 ids) s).state?
  | _, _ => some s

/-- Settling what to bind ends when the arguments were evaluated. -/
theorem afterArguments_eq (hb : s.env.resolveFunction callee = some body)
    (h : (arguments ctx rec callee args s).state? = some u) :
    afterArguments ctx rec callee args s = some u := by
  unfold arguments at h
  rw [state_bind] at h
  unfold afterArguments
  rw [hb]
  cases hl : s.env.resolveParams callee with
  | none =>
    rw [hl] at h
    exact h
  | some list =>
    rw [hl] at h
    dsimp only at h ⊢
    rw [bind_apply]
    rcases state?_bind h with ⟨e, he⟩ | ⟨params, t, hparams, h⟩
    · rw [he]
      rfl
    · rw [hparams]
      dsimp only
      rw [bind_apply]
      rcases state?_bind h with ⟨e, he⟩ | ⟨ids, t', hids, h⟩
      · rw [he]
        rfl
      · rw [hids]
        dsimp only
        rcases state?_bind h with ⟨e, he⟩ | ⟨values, w, hvalues, h⟩
        · exact state?_of_failed he
        · rw [state?_of_done hvalues, ← h]
          -- what comes after the values does not change the state
          by_cases hlen : params.length = values.length
          · rw [if_pos hlen]
            rfl
          · rw [if_neg hlen]
            rfl

/-! ## The body -/

/-- A body leaves the environment in which its frame was pushed. -/
theorem env_eq_of_inFrame {params : List Name} {values : List ValueId}
    (hrec : ∀ s t, (rec body s).state? = some t → KeepsFrames s t)
    (h : (inFrame params values (rec body) s).state? = some t) : t.env = s.env := by
  cases hin : inFrame params values (rec body) s with
  | done r t' =>
    rw [hin] at h
    obtain ⟨env, flow, u, hpush, hu, -, rfl⟩ := inFrame_done hin
    cases h
    exact left_env_eq hpush (hrec _ _ (state?_of_done hu))
  | failed e t' =>
    rw [hin] at h
    rcases inFrame_failed hin with ⟨-, -, rfl⟩ | ⟨env, u, hpush, hu, rfl⟩
    · cases h
      rfl
    · cases h
      exact left_env_eq hpush (hrec _ _ (state?_of_failed hu))
  | dangling =>
    rw [hin] at h
    cases h
  | exhausted =>
    rw [hin] at h
    cases h
  | full _ =>
    rw [hin] at h
    cases h

/-! ## The footprint -/

/-- What a call does to the environment after its arguments, which left the state `s₁`. -/
structure Footprint (ctx : Context) (callee : Name) (s₁ : State) (o : Outcome Flow) : Prop where
  /-- A call that fails leaves the environment as it was after the arguments. -/
  failed : ∀ e t, o = .failed e t → t.env = s₁.env
  /-- A call that is done binds its result, and does nothing else. -/
  enabled : ctx.resultBinding = .enabled → ∀ flow t, o = .done flow t →
    ∃ v, flow = .normal (some v) ∧ t.env = s₁.env.bind callee v
  /-- Where results are not bound, a call that is done does nothing at all. -/
  disabled : ctx.resultBinding = .disabled → ∀ flow t, o = .done flow t →
    (∃ v, flow = .normal (some v)) ∧ t.env = s₁.env

/-- A call leaves the slot, the functions and the parameter lists of the caller alone. -/
theorem Footprint.top_eq {s₁ : State} {o : Outcome Flow} (h : Footprint ctx callee s₁ o)
    (hend : o.state? = some t) :
    t.env.top.returned = s₁.env.top.returned ∧ t.env.top.functions = s₁.env.top.functions ∧
      t.env.top.params = s₁.env.top.params := by
  suffices henv : t.env = s₁.env ∨ ∃ v, t.env = s₁.env.bind callee v by
    rcases henv with henv | ⟨v, henv⟩ <;> rw [henv] <;> exact ⟨rfl, rfl, rfl⟩
  cases o with
  | failed e t' =>
    cases hend
    exact Or.inl (h.failed e t rfl)
  | done flow t' =>
    cases hend
    cases hr : ctx.resultBinding with
    | enabled =>
      obtain ⟨v, -, henv⟩ := h.enabled hr flow t rfl
      exact Or.inr ⟨v, henv⟩
    | disabled => exact Or.inl (h.disabled hr flow t rfl).2
  | dangling => cases hend
  | exhausted => cases hend
  | full _ => cases hend

theorem footprint_of_failed {s₁ u : State} (e : EvalError) (h : u.env = s₁.env) :
    Footprint ctx callee s₁ (.failed e u) where
  failed _ _ he := by
    cases he
    exact h
  enabled _ _ _ he := by cases he
  disabled _ _ _ he := by cases he

/-- Once it is settled what to bind, a call has nothing but its result to bind. -/
theorem footprint_bind {params : List Name} {values : List ValueId}
    (hrec : ∀ s t, (rec body s).state? = some t → KeepsFrames s t) :
    Footprint ctx callee s (callWith ctx rec callee body (pure (params, values)) s) := by
  unfold callWith
  rw [pure_bind]
  dsimp only
  rw [bind_apply]
  cases hin : inFrame params values (rec body) s with
  | done r u =>
    have henv : u.env = s.env := env_eq_of_inFrame hrec (state?_of_done hin)
    dsimp only
    refine ⟨fun e t h => ?_, fun hr flow t h => ?_, fun hr flow t h => ?_⟩
    · split at h <;> cases h
    · rw [if_pos hr] at h
      cases h
      exact ⟨r.getD .nil, rfl, congrArg (·.bind callee (r.getD .nil)) henv⟩
    · rw [if_neg (by rw [hr]; nofun)] at h
      cases h
      exact ⟨⟨_, rfl⟩, henv⟩
  | failed e u =>
    exact footprint_of_failed e (env_eq_of_inFrame hrec (state?_of_failed hin))
  | dangling =>
    refine ⟨fun _ _ h => ?_, fun _ _ _ h => ?_, fun _ _ _ h => ?_⟩ <;> cases h
  | exhausted =>
    refine ⟨fun _ _ h => ?_, fun _ _ _ h => ?_, fun _ _ _ h => ?_⟩ <;> cases h
  | full _ =>
    refine ⟨fun _ _ h => ?_, fun _ _ _ h => ?_, fun _ _ _ h => ?_⟩ <;> cases h

/-- A call that ends came to a state after its arguments, and goes on from there. -/
theorem exists_footprint (hrec : ∀ id s t, (rec id s).state? = some t → KeepsFrames s t)
    (hend : (call ctx rec callee args s).state? = some t) :
    ∃ s₁, afterArguments ctx rec callee args s = some s₁ ∧
      Footprint ctx callee s₁ (call ctx rec callee args s) := by
  cases hb : s.env.resolveFunction callee with
  | none =>
    refine ⟨s, ?_, ?_⟩
    · unfold afterArguments
      rw [hb]
    · rw [call_of_no_function hb]
      exact footprint_of_failed _ rfl
  | some body =>
    rw [call_eq_callWith hb] at hend ⊢
    cases hargs : arguments ctx rec callee args s with
    | done bindings u =>
      refine ⟨u, afterArguments_eq hb (state?_of_done hargs), ?_⟩
      have hwith : callWith ctx rec callee body (arguments ctx rec callee args) s =
          callWith ctx rec callee body (pure (bindings.1, bindings.2)) u := callWith_congr hargs
      rw [hwith]
      exact footprint_bind (hrec body)
    | failed e u =>
      refine ⟨u, afterArguments_eq hb (state?_of_failed hargs), ?_⟩
      have hwith : callWith ctx rec callee body (arguments ctx rec callee args) s =
          callWith ctx rec callee body (fail e) u := callWith_congr hargs
      rw [hwith]
      exact footprint_of_failed e rfl
    | _ =>
      unfold callWith at hend
      rw [bind_apply, hargs] at hend
      cases hend

/-- A call whose parameter list is malformed fails as soon as it looks at the list. -/
theorem call_of_paramNames_failed {list : NodeId} {e : EvalError}
    (hb : s.env.resolveFunction callee = some body) (hl : s.env.resolveParams callee = some list)
    (h : paramNames ctx list s = .failed e u) : call ctx rec callee args s = .failed e u := by
  rw [call_eq_callWith hb]
  unfold callWith arguments
  rw [bind_apply, state_bind, hl]
  dsimp only
  rw [bind_apply, h]

/-- **What a call leaves behind.**  A call of anything, in any state, that ends under any bound
came to a state in which its arguments were evaluated.  It leaves the environment of that
state if it fails, whatever it fails with and however deep below.  If it is done, it leaves
that environment with its result bound, or just as it is where results are not bound.  The slot,
the functions and the parameter lists of the caller are in any case those of that state. -/
theorem call_footprint (hn : ctx.nodes.get? id = some (.call callee args))
    (hend : (nested ctx (fuel + 1) id s).state? = some t) :
    ∃ s₁, afterArguments ctx (nested ctx fuel) callee args s = some s₁ ∧
      (s.env.resolveParams callee = none → s₁ = s) ∧
      (s.env.resolveFunction callee = none → t.env = s.env) ∧
      (∀ list e u, s.env.resolveParams callee = some list →
        paramNames ctx list s = .failed e u → t.env = s.env) ∧
      Footprint ctx callee s₁ (nested ctx (fuel + 1) id s) ∧
      t.env.top.returned = s₁.env.top.returned ∧ t.env.top.functions = s₁.env.top.functions ∧
      t.env.top.params = s₁.env.top.params := by
  have hcall : nested ctx (fuel + 1) id s = call ctx (nested ctx fuel) callee args s := by
    rw [nested, step_of_get? hn, rule]
  rw [hcall] at hend ⊢
  have hrec : ∀ id s t, (nested ctx fuel id s).state? = some t → KeepsFrames s t :=
    fun _ _ _ h => kept_keepsFrames.nested h
  obtain ⟨s₁, hs₁, hfoot⟩ := exists_footprint hrec hend
  have hundefined (hb : s.env.resolveFunction callee = none) : t.env = s.env := by
    rw [call_of_no_function hb] at hend
    cases hend
    rfl
  refine ⟨s₁, hs₁, fun hl => ?_, hundefined, fun list e u hl hfail => ?_, hfoot, hfoot.top_eq hend⟩
  · unfold afterArguments at hs₁
    rw [hl] at hs₁
    cases hb : s.env.resolveFunction callee <;> rw [hb] at hs₁ <;> exact (Option.some.inj hs₁).symm
  · cases hb : s.env.resolveFunction callee with
    | none => exact hundefined hb
    | some body =>
      rw [call_of_paramNames_failed hb hl hfail] at hend
      cases hend
      rw [quiet_paramNames list (state?_of_failed hfail)]

/-- A function of one argument, which returns it, and two calls of it.  Both assign a variable
in their arguments, and the second has one argument too many. -/
def assigningCalls : Context where
  names := ⟨#["", "f", "a", "x"], ∅⟩
  nodes := ⟨#[.empty, .ident ⟨2⟩, .paramList ⟨0, 1⟩, .ret ⟨1⟩, .funcDef ⟨1⟩ ⟨2⟩ ⟨3⟩, .ident ⟨3⟩,
    .int 5, .assign ⟨5⟩ ⟨6⟩, .paramList ⟨1, 1⟩, .call ⟨1⟩ ⟨8⟩, .paramList ⟨1, 2⟩, .call ⟨1⟩ ⟨10⟩],
    #[⟨1⟩, ⟨7⟩, ⟨6⟩]⟩
  resultBinding := .enabled

/-- The state in which the function of `assigningCalls` is defined. -/
def withFunction : State :=
  { State.fresh 1 .silent with
    env := ((Env.fresh 1).bindFunction ⟨1⟩ ⟨3⟩).bindParams ⟨1⟩ ⟨2⟩ }

/-- The first call binds the variable and its result, and the second one the variable alone,
since it fails behind its arguments. -/
theorem call_footprint_assigningCalls :
    ∃ t u s₁ s₂, eval assigningCalls ⟨9⟩ withFunction = .done (.normal (some ⟨1⟩)) t ∧
      afterArguments assigningCalls (nested assigningCalls 24) ⟨1⟩ ⟨8⟩ withFunction = some s₁ ∧
      s₁.env = withFunction.env.bind ⟨3⟩ ⟨1⟩ ∧ t.env = s₁.env.bind ⟨1⟩ ⟨1⟩ ∧
      eval assigningCalls ⟨11⟩ withFunction = .failed (.arityMismatch "f" 1 2) u ∧
      afterArguments assigningCalls (nested assigningCalls 24) ⟨1⟩ ⟨10⟩ withFunction = some s₂ ∧
      s₂.env = withFunction.env.bind ⟨3⟩ ⟨1⟩ ∧ u.env = s₂.env := by
  obtain ⟨t, ht⟩ : ∃ t, eval assigningCalls ⟨9⟩ withFunction =
      .done (.normal (some ⟨1⟩)) t := ⟨_, rfl⟩
  obtain ⟨u, hu⟩ : ∃ u, eval assigningCalls ⟨11⟩ withFunction =
      .failed (.arityMismatch "f" 1 2) u := ⟨_, rfl⟩
  have hfirst : (nested assigningCalls (24 + 1) ⟨9⟩ withFunction).state? = some t :=
    state?_of_done ht
  have hsecond : (nested assigningCalls (24 + 1) ⟨11⟩ withFunction).state? = some u :=
    state?_of_failed hu
  obtain ⟨s₁, hs₁, -, -, -, hdone, -⟩ := call_footprint rfl hfirst
  obtain ⟨s₂, hs₂, -, -, -, hfailed, -⟩ := call_footprint rfl hsecond
  obtain ⟨v, hv, hbound⟩ := hdone.enabled rfl _ t ht
  cases hv
  refine ⟨t, u, s₁, s₂, ht, hs₁, ?_, hbound, hu, hs₂, ?_, hfailed.failed _ u hu⟩
  · cases hs₁
    rfl
  · cases hs₂
    rfl

end Eval

end TreeWalk
