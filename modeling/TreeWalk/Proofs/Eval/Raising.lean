import TreeWalk.Proofs.Eval.Calls

/-!
# Where an error is raised

No rule handles the failure of a visit: a call pops the frame and passes the failure on, and
all other rules pass it on as it is.  So an evaluation that fails does so because of a single
node.  `Raises` lists what each kind of node complains about by itself, and the error of a
failed evaluation was raised by a node on its trail, in the state in which the node was
visited (`exists_raises`).

## Reading errors off the nodes

Whoever wants to know which errors a program can fail with need not follow evaluation.  It is
enough to know something of every visit, such as what the node stands for or what the frames
hold, and to go through the few ways in which a node with that property raises an error.
-/

namespace TreeWalk

/-- The places in which a node has a child that must have a value. -/
inductive Place where
  /-- An operand of the operator with this symbol. -/
  | operand (symbol : String)
  | slot (slot : Slot)

namespace Place

/-- What is wrong with a place in which there is no child. -/
def emptyError : Place → EvalError
  | operand symbol => .malformedNode (.emptyOperand symbol)
  | slot s => .malformedNode (.emptySlot s)

/-- What is wrong with a place whose child has no value. -/
def missingError : Place → EvalError
  | operand symbol => .typeMismatch symbol .missing
  | slot s => .malformedNode (.noValue s)

end Place

namespace Eval

variable {α β : Type} {ctx : Context} {s t u : State} {vs : List Visit} {id : NodeId} {n : Node}
  {e : EvalError} {R : EvalError → Prop}

/-- A node has a child that must have a value.  A `print` may go without. -/
inductive Needs (ctx : Context) : Node → Place → NodeId → Prop where
  | unary {op : UnaryOp} {a : NodeId} : Needs ctx (.unary op a) (.operand op.symbol) a
  | left {op : BinaryOp} {a b : NodeId} : Needs ctx (.binary op a b) (.operand op.symbol) a
  | right {op : BinaryOp} {a b : NodeId} : Needs ctx (.binary op a b) (.operand op.symbol) b
  | assigned {target a : NodeId} : Needs ctx (.assign target a) (.slot .assignedValue) a
  | printed {a : NodeId} :
    ctx.nodes.isEmpty a = false → Needs ctx (.print a) (.slot .printArgument) a
  | condition {a b c : NodeId} : Needs ctx (.cond a b c) (.slot .ifCondition) a
  | argument {callee : Name} {args a : NodeId} {k : Nat} :
    (ctx.asked (.call callee args))[k]? = some a →
    Needs ctx (.call callee args) (.slot (.argument k (ctx.names.lookup callee))) a

/-- The errors that a node raises by itself when it is evaluated in a state. -/
inductive Raises (ctx : Context) : Node → State → EvalError → Prop where
  /-- A variable is not there. -/
  | notDefined {name : Name} {s : State} :
    s.env.resolve name = .error .notDefined →
    Raises ctx (.ident name) s (.nameNotDefined (ctx.names.lookup name))
  /-- A variable is read ahead of its assignment. -/
  | unbound {name : Name} {s : State} :
    s.env.resolve name = .error .unbound →
    Raises ctx (.ident name) s (.localVariableUnbound (ctx.names.lookup name))
  /-- A child that must have a value is absent. -/
  | empty {n : Node} {s : State} {place : Place} {a : NodeId} :
    Needs ctx n place a → ctx.nodes.isEmpty a = true → Raises ctx n s place.emptyError
  /-- A child that must have a value was evaluated and has none. -/
  | missing {n : Node} {s t u : State} {place : Place} {a : NodeId} {flow : Flow} :
    Needs ctx n place a → eval ctx a t = .done flow u → flow.value? = none →
    Raises ctx n s place.missingError
  /-- An operator does not take its operand. -/
  | unary {op : UnaryOp} {a : NodeId} {s : State} {v : Value} {e : EvalError} :
    Arithmetic.unary op v = .error e → Raises ctx (.unary op a) s e
  /-- An operator does not take its operands. -/
  | binary {op : BinaryOp} {a b : NodeId} {s : State} {v w : Value} {e : EvalError} :
    Arithmetic.binary op v w = .error e → Raises ctx (.binary op a b) s e
  /-- What is assigned to is no identifier. -/
  | target {target a : NodeId} {s : State} {m : Node} :
    ctx.nodes.get? target = some m → m.kind ≠ .identifier →
    Raises ctx (.assign target a) s (.malformedNode (.badTarget m.kind))
  /-- What is called is no function. -/
  | callee {callee : Name} {args : NodeId} {s : State} :
    s.env.resolveFunction callee = none →
    Raises ctx (.call callee args) s (.nameNotDefined (ctx.names.lookup callee))
  /-- The parameters of a function are no list of identifiers. -/
  | parameters {callee : Name} {args list : NodeId} {s t : State} {e : EvalError} :
    s.env.resolveParams callee = some list → paramNames ctx list s = .failed e t →
    Raises ctx (.call callee args) s e
  /-- The arguments of a call are no list. -/
  | arguments {callee : Name} {args : NodeId} {s t : State} {e : EvalError} :
    listItems ctx .badArguments args s = .failed e t → Raises ctx (.call callee args) s e
  /-- There are not as many arguments as parameters. -/
  | arity {callee : Name} {args list : NodeId} {s t : State} {params : List Name} :
    s.env.resolveParams callee = some list → paramNames ctx list s = .done params t →
    params.length ≠ (ctx.asked (.call callee args)).length →
    Raises ctx (.call callee args) s (.arityMismatch (ctx.names.lookup callee) params.length
      (ctx.asked (.call callee args)).length)
  /-- There is no frame for the body. -/
  | limit {callee : Name} {args : NodeId} {s : State} :
    s.env.limit ≤ s.env.depth →
    Raises ctx (.call callee args) s (.recursionLimitExceeded s.env.limit)

/-! ## Pieces of evaluation -/

/-- If a piece of evaluation fails, then with an error of the given kind or with the error of
one of the given visits. -/
def FailsBy (ctx : Context) (R : EvalError → Prop) (m : Eval α) (s : State) (vs : List Visit) :
    Prop :=
  ∀ ⦃e t⦄, m s = .failed e t → R e ∨ ∃ v ∈ vs, ∃ u, eval ctx v.1 v.2 = .failed e u

/-- A piece of evaluation that does not fail. -/
def Smooth (m : Eval α) : Prop := ∀ ⦃s e t⦄, m s ≠ .failed e t

/-- Two pieces in a row fail when the first fails or when the second fails. -/
theorem failed_bind {m : Eval α} {f : α → Eval β} (h : (m >>= f) s = .failed e u) :
    m s = .failed e u ∨ ∃ a t, m s = .done a t ∧ f a t = .failed e u := by
  rw [bind_apply] at h
  cases hm : m s with
  | done a t =>
    rw [hm] at h
    exact Or.inr ⟨a, t, rfl, h⟩
  | failed e' t =>
    rw [hm] at h
    cases h
    exact Or.inl rfl
  | dangling =>
    rw [hm] at h
    cases h
  | exhausted =>
    rw [hm] at h
    cases h
  | full _ =>
    rw [hm] at h
    cases h

theorem FailsBy.bind {m : Eval α} {f : α → Eval β} {next : α → State → List Visit}
    (hm : FailsBy ctx R m s vs)
    (hf : ∀ a t, m s = .done a t → FailsBy ctx R (f a) t (next a t)) :
    FailsBy ctx R (m >>= f) s (vs ++ afterDone (m s) next) := by
  intro e u hu
  rcases failed_bind hu with he | ⟨a, t, ht, hu⟩
  · rcases hm he with hR | ⟨v, hv, hfail⟩
    · exact Or.inl hR
    · exact Or.inr ⟨v, List.mem_append_left _ hv, hfail⟩
  · rw [ht]
    rcases hf a t ht hu with hR | ⟨v, hv, hfail⟩
    · exact Or.inl hR
    · exact Or.inr ⟨v, List.mem_append_right _ hv, hfail⟩

/-- The second piece visits nothing. -/
theorem FailsBy.bind_end {m : Eval α} {f : α → Eval β} (hm : FailsBy ctx R m s vs)
    (hf : ∀ a t, m s = .done a t → FailsBy ctx R (f a) t []) :
    FailsBy ctx R (m >>= f) s vs := by
  have h := hm.bind hf
  have hnil : afterDone (m s) (fun _ _ => []) = [] := by cases m s <;> rfl
  rwa [hnil, List.append_nil] at h

theorem Smooth.failsBy {m : Eval α} (h : Smooth m) (s : State) : FailsBy ctx R m s vs :=
  fun _ _ he => (h he).elim

theorem Smooth.bind {m : Eval α} {f : α → Eval β} (hm : Smooth m) (hf : ∀ a, Smooth (f a)) :
    Smooth (m >>= f) := by
  intro s e u hu
  rcases failed_bind hu with he | ⟨a, t, -, he⟩
  · exact hm he
  · exact hf a he

theorem smooth_pure (a : α) : Smooth (pure a : Eval α) := by
  intro s e t h
  cases h

theorem smooth_modifyEnv (f : Env → Env) : Smooth (modifyEnv f) := by
  intro s e t h
  cases h

theorem smooth_emit (line : String) : Smooth (emit line) := by
  intro s e t h
  cases h

theorem smooth_produce (v : Value) : Smooth (produce v) := by
  intro s e t h
  cases h

theorem smooth_dangling : Smooth (dangling : Eval α) := by
  intro s e t h
  cases h

theorem smooth_value (i : ValueId) : Smooth (value i) := by
  intro s e t h
  unfold value at h
  cases hv : s.values.get? i with
  | none =>
    rw [hv] at h
    cases h
  | some v =>
    rw [hv] at h
    cases h

theorem smooth_node (id : NodeId) : Smooth (node ctx id) := by
  unfold node
  cases ctx.nodes.get? id with
  | none => exact smooth_dangling
  | some n => exact smooth_pure n

theorem smooth_items (r : NodeRange) : Smooth (items ctx r) := by
  unfold items
  cases ctx.nodes.list? r with
  | none => exact smooth_dangling
  | some ids => exact smooth_pure ids

theorem smooth_markAssigned (ids : List NodeId) : Smooth (markAssigned ctx ids) := by
  induction ids with
  | nil => exact smooth_pure ()
  | cons id rest ih =>
    refine (smooth_node id).bind fun m => ?_
    cases m with
    | assign target value =>
      refine (smooth_node target).bind fun m' => ?_
      cases m' with
      | ident name => exact (smooth_modifyEnv _).bind fun _ => ih
      | _ => exact ih
    | _ => exact ih

theorem failsBy_fail (h : R e) (s : State) : FailsBy ctx R (fail e : Eval α) s vs := by
  rintro e' t he
  cases he
  exact Or.inl h

theorem failsBy_eval (id : NodeId) (s : State) : FailsBy ctx R (eval ctx id) s [(id, s)] :=
  fun _ t he => Or.inr ⟨_, List.mem_singleton_self _, t, he⟩

theorem failsBy_required {place : Slot} {a : NodeId} (s₀ : State)
    (h : Needs ctx n (.slot place) a) (s : State) :
    FailsBy ctx (Raises ctx n s₀) (required ctx (eval ctx) place a) s (childVisit ctx a s) := by
  unfold childVisit required
  by_cases he : ctx.nodes.isEmpty a = true
  · rw [if_pos he, if_pos he]
    exact failsBy_fail (.empty h he) s
  · rw [if_neg he, if_neg he]
    refine (failsBy_eval a s).bind_end fun flow t hflow => ?_
    cases hv : flow.value? with
    | none => exact failsBy_fail (.missing h hflow hv) t
    | some v => exact (smooth_pure v).failsBy t

theorem failsBy_operand {symbol : String} {a : NodeId} (s₀ : State)
    (h : Needs ctx n (.operand symbol) a) (s : State) :
    FailsBy ctx (Raises ctx n s₀) (operand ctx (eval ctx) symbol a) s (childVisit ctx a s) := by
  unfold childVisit operand
  by_cases he : ctx.nodes.isEmpty a = true
  · rw [if_pos he, if_pos he]
    exact failsBy_fail (.empty h he) s
  · rw [if_neg he, if_neg he]
    refine (failsBy_eval a s).bind_end fun flow t hflow => ?_
    cases hv : flow.value? with
    | none => exact failsBy_fail (.missing h hflow hv) t
    | some v => exact (smooth_value v).failsBy t

theorem failsBy_ofExcept {r : Except EvalError α} (h : ∀ e, r = .error e → R e) (s : State) :
    FailsBy ctx R (ofExcept r) s vs := by
  cases r with
  | ok a => exact (smooth_pure a).failsBy s
  | error e => exact failsBy_fail (h e rfl) s

/-! ## Rules -/

theorem failsBy_ident (name : Name) (s : State) :
    FailsBy ctx (Raises ctx (.ident name) s) (ident ctx name) s [] := by
  intro e t he
  unfold ident at he
  rw [state_bind] at he
  cases hr : s.env.resolve name with
  | ok id =>
    rw [hr] at he
    cases he
  | error cause =>
    rw [hr] at he
    cases cause with
    | notDefined =>
      cases he
      exact Or.inl (.notDefined hr)
    | unbound =>
      cases he
      exact Or.inl (.unbound hr)

theorem failsBy_unary (op : UnaryOp) (a : NodeId) (s : State) :
    FailsBy ctx (Raises ctx (.unary op a) s) (unary ctx (eval ctx) op a) s
      (childVisit ctx a s) := by
  refine (failsBy_operand s .unary s).bind_end fun v t _ => ?_
  refine (failsBy_ofExcept (fun e he => .unary he) t).bind_end fun w u _ => ?_
  exact (smooth_produce w).failsBy u

theorem failsBy_binary (op : BinaryOp) (a b : NodeId) (s : State) :
    FailsBy ctx (Raises ctx (.binary op a b) s) (binary ctx (eval ctx) op a b) s
      (childVisit ctx a s ++
        afterDone (operand ctx (eval ctx) op.symbol a s) fun _ s => childVisit ctx b s) := by
  refine (failsBy_operand s .left s).bind fun v t _ => ?_
  refine (failsBy_operand s .right t).bind_end fun w u _ => ?_
  refine (failsBy_ofExcept (fun e he => .binary he) u).bind_end fun r u' _ => ?_
  exact (smooth_produce r).failsBy u'

theorem failsBy_assign (target a : NodeId) (s : State) :
    FailsBy ctx (Raises ctx (.assign target a) s) (assign ctx (eval ctx) target a) s
      (match ctx.nodes.get? target with
        | some (.ident _) => childVisit ctx a s
        | _ => []) := by
  unfold assign node
  cases ht : ctx.nodes.get? target with
  | none => exact smooth_dangling.failsBy s
  | some m =>
    rw [pure_bind]
    cases m with
    | ident name =>
      refine (failsBy_required s .assigned s).bind_end fun v t _ => ?_
      exact ((smooth_modifyEnv _).bind fun _ => smooth_pure _).failsBy t
    | _ => exact failsBy_fail (.target ht nofun) s

theorem failsBy_print (a : NodeId) (s : State) :
    FailsBy ctx (Raises ctx (.print a) s) (print ctx (eval ctx) a) s (childVisit ctx a s) := by
  by_cases he : ctx.nodes.isEmpty a = true
  · unfold print
    rw [if_pos he]
    exact ((smooth_emit "").bind fun _ => smooth_pure _).failsBy s
  · have hpresent := Bool.eq_false_iff.mpr he
    rw [print_of_not_isEmpty hpresent, bind_assoc]
    refine (failsBy_required s (.printed hpresent) s).bind_end fun v t _ => ?_
    exact ((smooth_value v).bind fun _ => (smooth_emit _).bind fun _ => smooth_pure _).failsBy t

theorem failsBy_cond (test thenBranch elseBranch : NodeId) (s : State) :
    FailsBy ctx (Raises ctx (.cond test thenBranch elseBranch) s)
      (cond ctx (eval ctx) test thenBranch elseBranch) s
      (childVisit ctx test s ++
        afterDone ((do value (← required ctx (eval ctx) .ifCondition test)) s) fun v s =>
          [(if v.truthy then thenBranch else elseBranch, s)]) := by
  unfold cond
  rw [← bind_assoc]
  refine ((failsBy_required s .condition s).bind_end fun v t _ =>
    (smooth_value v).failsBy t).bind fun v t _ => ?_
  by_cases hv : v.truthy = true
  · rw [if_pos hv, if_pos hv]
    exact failsBy_eval thenBranch t
  · rw [if_neg hv, if_neg hv]
    exact failsBy_eval elseBranch t

theorem failsBy_statements (ids : List NodeId) (s : State) :
    FailsBy ctx R (statements (eval ctx) ids) s (statementVisits (eval ctx) ids s) := by
  induction ids generalizing s with
  | nil => exact (smooth_pure _).failsBy s
  | cons id rest ih =>
    refine (failsBy_eval id s).bind fun flow t _ => ?_
    cases flow with
    | ret v => exact (smooth_pure _).failsBy t
    | normal v => exact ih t

theorem failsBy_suite (r : NodeRange) (s : State) :
    FailsBy ctx R (suite ctx (eval ctx) r) s
      (afterDone ((do
        let ids ← items ctx r
        markAssigned ctx ids
        return ids) s) fun ids s => statementVisits (eval ctx) ids s) := by
  rw [suite_eq]
  have hmark : Smooth (do let ids ← items ctx r; markAssigned ctx ids; return ids : Eval _) :=
    (smooth_items r).bind fun ids => (smooth_markAssigned ids).bind fun _ => smooth_pure ids
  have hnone : FailsBy ctx R _ s [] := hmark.failsBy s
  exact hnone.bind fun ids t _ => failsBy_statements ids t

theorem smooth_funcDef (name : Name) (params body : NodeId) :
    Smooth (funcDef ctx name params body) := by
  refine (smooth_node params).bind fun m => ?_
  cases m <;> exact (smooth_modifyEnv _).bind fun _ => smooth_pure _

theorem failsBy_ret (a : NodeId) (s : State) :
    FailsBy ctx R (ret ctx (eval ctx) a) s (childVisit ctx a s) := by
  by_cases he : ctx.nodes.isEmpty a = true
  · unfold ret
    rw [if_pos he, pure_bind]
    exact ((smooth_modifyEnv _).bind fun _ => smooth_pure _).failsBy s
  · have hvisit : childVisit ctx a s = [(a, s)] := if_neg he
    rw [ret_of_not_isEmpty (Bool.eq_false_iff.mpr he), hvisit]
    refine (failsBy_eval a s).bind_end fun flow t _ => ?_
    exact ((smooth_modifyEnv _).bind fun _ => smooth_pure _).failsBy t

/-! ## Calls -/

theorem length_argumentValues {rec : NodeId → Eval Flow} {callee : String} {ids : List NodeId}
    {position : Nat} {values : List ValueId}
    (h : argumentValues ctx rec callee position ids s = .done values t) :
    values.length = ids.length := by
  induction ids generalizing position s values t with
  | nil =>
    cases h
    rfl
  | cons id rest ih =>
    obtain ⟨v, u, -, h⟩ := done_bind h
    obtain ⟨values', u', hrest, h⟩ := done_bind h
    cases h
    rw [List.length_cons, ih hrest, List.length_cons]

theorem failsBy_argumentValues {callee : String} {ids : List NodeId} {position : Nat} (s₀ : State)
    (h : ∀ k a, ids[k]? = some a → Needs ctx n (.slot (.argument (position + k) callee)) a)
    (s : State) :
    FailsBy ctx (Raises ctx n s₀) (argumentValues ctx (eval ctx) callee position ids) s
      (argumentVisits ctx (eval ctx) callee position ids s) := by
  induction ids generalizing position s with
  | nil => exact (smooth_pure _).failsBy s
  | cons id rest ih =>
    refine (failsBy_required s₀ (h 0 id rfl) s).bind fun v t _ => ?_
    refine (ih (fun k a hk => ?_) t).bind_end fun values u _ => (smooth_pure _).failsBy u
    rw [Nat.add_assoc, Nat.add_comm 1 k]
    exact h (k + 1) a hk

theorem failsBy_arguments (callee : Name) (args : NodeId) (s : State) :
    FailsBy ctx (Raises ctx (.call callee args) s) (arguments ctx (eval ctx) callee args) s
      (callArgumentVisits ctx (eval ctx) callee args s) := by
  intro e u hu
  unfold arguments at hu
  rw [state_bind] at hu
  unfold callArgumentVisits
  cases hl : s.env.resolveParams callee with
  | none =>
    rw [hl] at hu
    cases hu
  | some list =>
    rw [hl] at hu
    dsimp only at hu ⊢
    rw [bind_apply]
    rcases failed_bind hu with he | ⟨params, t, hp, hrest⟩
    · exact Or.inl (.parameters hl he)
    · obtain rfl : t = s := quiet_paramNames list (state?_of_done hp)
      rw [hp]
      dsimp only
      rcases failed_bind hrest with he | ⟨ids, t', hi, hend⟩
      · exact Or.inl (.arguments he)
      · obtain rfl : t' = t := quiet_listItems _ args (state?_of_done hi)
        rw [hi]
        have hasked : ctx.asked (.call callee args) = ids := asked_call_eq hi
        have hneeds : ∀ k a, ids[k]? = some a → Needs ctx (.call callee args)
            (.slot (.argument (0 + k) (ctx.names.lookup callee))) a := by
          intro k a hk
          rw [Nat.zero_add]
          exact .argument (hasked.symm ▸ hk)
        refine (failsBy_argumentValues t' hneeds t').bind_end (fun values w hvalues => ?_) hend
        by_cases hlen : params.length = values.length
        · rw [if_pos hlen]
          exact (smooth_pure _).failsBy w
        · rw [if_neg hlen, length_argumentValues hvalues, ← hasked]
          refine failsBy_fail (.arity hl hp ?_) w
          rwa [hasked, ← length_argumentValues hvalues]

theorem failsBy_inFrame {callee : Name} {args : NodeId} {s₀ : State} (hs : KeepsFrames s₀ s)
    (params : List Name) (values : List ValueId) (body : NodeId) :
    FailsBy ctx (Raises ctx (.call callee args) s₀) (inFrame params values (eval ctx body)) s
      (bodyVisit params values body s) := by
  intro e t he
  rcases inFrame_failed he with ⟨hle, rfl, -⟩ | ⟨env, u, hpush, hu, -⟩
  · rw [hs.limit_eq]
    refine Or.inl (.limit ?_)
    rwa [hs.limit_eq, hs.depth_eq] at hle
  · unfold bodyVisit
    rw [hpush]
    exact Or.inr ⟨_, List.mem_singleton_self _, u, hu⟩

theorem failsBy_call (callee : Name) (args : NodeId) (s : State) :
    FailsBy ctx (Raises ctx (.call callee args) s) (call ctx (eval ctx) callee args) s
      (callVisits ctx (eval ctx) callee args s) := by
  intro e u hu
  unfold call at hu
  rw [state_bind] at hu
  unfold callVisits
  cases hb : s.env.resolveFunction callee with
  | none =>
    rw [hb] at hu
    exact failsBy_fail (.callee hb) s hu
  | some body =>
    rw [hb] at hu
    refine (failsBy_arguments callee args s).bind (fun bindings t ht => ?_) hu
    have hkeeps : KeepsFrames s t := keepsFrames_arguments (state?_of_done ht)
    refine (failsBy_inFrame hkeeps _ _ body).bind_end fun r t' _ => ?_
    dsimp only
    by_cases hbind : ctx.resultBinding = .enabled
    · rw [if_pos hbind]
      exact ((smooth_modifyEnv _).bind fun _ => smooth_pure _).failsBy t'
    · rw [if_neg hbind]
      exact (smooth_pure _).failsBy t'

/-! ## Evaluations -/

/-- **What a rule fails with.**  A rule that fails passes the error of a visit on, or its node
raises the error. -/
theorem failsBy_step (hn : ctx.nodes.get? id = some n) (s : State) :
    FailsBy ctx (Raises ctx n s) (step ctx (eval ctx) id) s (visits ctx (eval ctx) id s) := by
  unfold visits
  rw [step_of_get? hn, hn]
  cases n with
  | empty => exact (smooth_pure _).failsBy s
  | ident name => exact failsBy_ident name s
  | int n => exact (smooth_produce _).failsBy s
  | float x => exact (smooth_produce _).failsBy s
  | nil => exact (smooth_pure _).failsBy s
  | unary op a => exact failsBy_unary op a s
  | binary op a b => exact failsBy_binary op a b s
  | assign target a => exact failsBy_assign target a s
  | print a => exact failsBy_print a s
  | cond a b c => exact failsBy_cond a b c s
  | suite r => exact failsBy_suite r s
  | funcDef name params body => exact (smooth_funcDef name params body).failsBy s
  | call callee args => exact failsBy_call callee args s
  | ret a => exact failsBy_ret a s
  | paramList r => exact (smooth_pure _).failsBy s

/-- **Every error is raised by a node.**  If an evaluation fails, then the error was raised by
something on its trail, in the state in which it was visited. -/
theorem exists_raises (h : eval ctx id s = .failed e t) :
    ∃ v ∈ trail ctx id s, ∃ n, ctx.nodes.get? v.1 = some n ∧ Raises ctx n v.2 e := by
  have hend : (eval ctx id s).state? = some t := state?_of_failed h
  revert h
  refine eval_induction (P := fun id s t => eval ctx id s = .failed e t →
    ∃ v ∈ trail ctx id s, ∃ n, ctx.nodes.get? v.1 = some n ∧ Raises ctx n v.2 e)
    (fun id s t hend ih h => ?_) hend
  obtain ⟨n, -, hn, -, -⟩ := exists_threads hend
  rw [trail_eq hend]
  rw [eval_eq_step hend] at h
  rcases failsBy_step hn s h with hraise | ⟨v, hv, u, hu⟩
  · exact ⟨(id, s), List.mem_append_right _ (List.mem_singleton_self _), n, hn, hraise⟩
  · obtain ⟨w, hw, hraise⟩ := ih v hv u (state?_of_failed hu) hu
    exact ⟨w, List.mem_append_left _ (List.mem_flatMap.mpr ⟨v, hv, hw⟩), hraise⟩

end Eval

end TreeWalk
