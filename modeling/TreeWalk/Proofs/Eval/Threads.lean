import TreeWalk.Eval.Visit.Locality
import TreeWalk.Proofs.Eval.Rules

/-!
# How a rule gets from one state to another

What a rule does to the state is a sequence of visits with changes of its own in between:
it stores values, binds and marks names, and defines functions.  `Threads` says that two
states are joined by such a sequence, and the main statement, `runs_step`, that the
visits of the sequence are those that `visits` lists.  Printing a line and leaving the
value of a `return` happen only when everything else is done, so they are not among the
changes but in `Closes`.

## Why this is said once

A statement about the states before and after an evaluation is true of every evaluation as
soon as it is true of each single change, of the way into a body and out of it, and of the
visits.  Whoever proves one argues about `Threads` and need not look at the rules.

Nothing is said about an evaluation that does not end.  One that fails ends too, and its
last state is joined to the first in the same way.
-/

namespace TreeWalk

/-- The nodes that the rule of a node may visit in the frame in which it runs. -/
def Context.asked (ctx : Context) : Node → List NodeId
  | .unary _ a => [a]
  | .binary _ a b => [a, b]
  | .assign _ a => [a]
  | .print a => [a]
  | .cond a b c => [a, b, c]
  | .suite r => (ctx.nodes.list? r).getD []
  | .call _ args =>
    match ctx.nodes.get? args with
    | some (.paramList r) => (ctx.nodes.list? r).getD []
    | _ => []
  | .ret a => [a]
  | _ => []

namespace Eval

variable {α β : Type} {ctx : Context} {rec : NodeId → Eval Flow} {s₀ s t u : State}
  {vs ws : List Visit} {n : Node}

/-- A change that the rule of a node makes by itself. -/
inductive Change (ctx : Context) : Node → State → State → Prop where
  /-- A value is stored. -/
  | alloc {n : Node} (s : State) (v : Value) :
    Change ctx n s { s with values := (s.values.alloc v).2 }
  /-- A variable is assigned. -/
  | assign (s : State) {target a : NodeId} {name : Name} (id : ValueId) :
    ctx.nodes.get? target = some (.ident name) →
    Change ctx (.assign target a) s { s with env := s.env.bind name id }
  /-- The result of a call is bound to the name of the function. -/
  | result (s : State) {callee : Name} {args : NodeId} (id : ValueId) :
    ctx.resultBinding = .enabled →
    Change ctx (.call callee args) s { s with env := s.env.bind callee id }
  /-- A name that a statement of a block assigns is marked as unbound. -/
  | mark (s : State) {r : NodeRange} {ids : List NodeId} {i target a : NodeId} {name : Name} :
    ctx.nodes.list? r = some ids → i ∈ ids → ctx.nodes.get? i = some (.assign target a) →
    ctx.nodes.get? target = some (.ident name) →
    Change ctx (.suite r) s { s with env := s.env.markUnbound name }
  /-- A function with a parameter list is defined. -/
  | defineWith (s : State) {name : Name} {params body : NodeId} {m : Node} :
    ctx.nodes.get? params = some m → m ≠ .empty →
    Change ctx (.funcDef name params body) s
      { s with env := (s.env.bindFunction name body).bindParams name params }
  /-- A function without a parameter list is defined. -/
  | defineWithout (s : State) {name : Name} {params body : NodeId} :
    ctx.nodes.get? params = some .empty →
    Change ctx (.funcDef name params body) s
      { s with env := (s.env.bindFunction name body).clearParams name }

/-- The state in which a body is visited. -/
def entered (s : State) (env : Env) (params : List Name) (values : List ValueId) : State :=
  { s with env := env.bindAll params values, peak := max s.peak env.depth }

/-- The state after a call whose body ended in the given state. -/
def left (s : State) : State := { s with env := s.env.pop }

/-- In the course of the rule of the node `n`, which began in the state `s₀`, two states are
joined by changes and visits. -/
inductive Threads (ctx : Context) (rec : NodeId → Eval Flow) (n : Node) (s₀ : State) :
    State → List Visit → State → Prop where
  | refl (s : State) : Threads ctx rec n s₀ s [] s
  /-- A change comes first. -/
  | change {s t u : State} {vs : List Visit} :
    Change ctx n s t → Threads ctx rec n s₀ t vs u → Threads ctx rec n s₀ s vs u
  /-- A visit in the same frame comes first. -/
  | visit {s t u : State} {vs : List Visit} {id : NodeId} :
    id ∈ ctx.asked n → (rec id s).state? = some t → Threads ctx rec n s₀ t vs u →
    Threads ctx rec n s₀ s ((id, s) :: vs) u
  /-- A visit to the body of the function that is called comes first. -/
  | enter {s t u : State} {vs : List Visit} {callee : Name} {args body : NodeId} {env : Env}
    {params : List Name} {values : List ValueId} :
    n = .call callee args → s₀.env.resolveFunction callee = some body →
    s.env.push = .ok env → (rec body (entered s env params values)).state? = some t →
    Threads ctx rec n s₀ (left t) vs u →
    Threads ctx rec n s₀ s ((body, entered s env params values) :: vs) u

/-- One sequence after another. -/
theorem Threads.append (h : Threads ctx rec n s₀ s vs t) (h' : Threads ctx rec n s₀ t ws u) :
    Threads ctx rec n s₀ s (vs ++ ws) u := by
  induction h with
  | refl s => exact h'
  | change hc _ ih => exact .change hc (ih h')
  | visit hid hrec _ ih => exact .visit hid hrec (ih h')
  | enter hn hb hpush hrec _ ih => exact .enter hn hb hpush hrec (ih h')

theorem threads_change (h : Change ctx n s t) : Threads ctx rec n s₀ s [] t := .change h (.refl t)

theorem threads_visit {id : NodeId} (hid : id ∈ ctx.asked n) (h : (rec id s).state? = some t) :
    Threads ctx rec n s₀ s [(id, s)] t := .visit hid h (.refl t)

/-! ## Pieces of evaluation -/

/-- If a piece of evaluation ends, its last state is joined to the first by the given
visits. -/
def Traces (ctx : Context) (rec : NodeId → Eval Flow) (n : Node) (s₀ : State) (m : Eval α)
    (s : State) (vs : List Visit) : Prop :=
  ∀ ⦃t⦄, (m s).state? = some t → Threads ctx rec n s₀ s vs t

/-- A piece of evaluation that leaves the state alone. -/
def Quiet (m : Eval α) : Prop := ∀ ⦃s t⦄, (m s).state? = some t → t = s

theorem state?_of_done {m : Eval α} {a : α} (h : m s = .done a t) : (m s).state? = some t :=
  congrArg Outcome.state? h

theorem state?_of_failed {m : Eval α} {e : EvalError} (h : m s = .failed e t) :
    (m s).state? = some t := congrArg Outcome.state? h

/-- Two pieces in a row end when the first fails or when the second ends. -/
theorem state?_bind {m : Eval α} {f : α → Eval β} (h : ((m >>= f) s).state? = some u) :
    (∃ e, m s = .failed e u) ∨ ∃ a t, m s = .done a t ∧ (f a t).state? = some u := by
  rw [bind_apply] at h
  cases hm : m s with
  | done a t =>
    rw [hm] at h
    exact Or.inr ⟨a, t, rfl, h⟩
  | failed e t =>
    rw [hm] at h
    obtain rfl : t = u := Option.some.inj h
    exact Or.inl ⟨e, rfl⟩
  | dangling =>
    rw [hm] at h
    cases h
  | exhausted =>
    rw [hm] at h
    cases h
  | full _ =>
    rw [hm] at h
    cases h

/-- The first of two pieces that are done in a row is done. -/
theorem done_bind {m : Eval α} {f : α → Eval β} {b : β} (h : (m >>= f) s = .done b u) :
    ∃ a t, m s = .done a t ∧ f a t = .done b u := by
  rw [bind_apply] at h
  cases hm : m s with
  | done a t =>
    rw [hm] at h
    exact ⟨a, t, rfl, h⟩
  | failed e t =>
    rw [hm] at h
    cases h
  | dangling =>
    rw [hm] at h
    cases h
  | exhausted =>
    rw [hm] at h
    cases h
  | full _ =>
    rw [hm] at h
    cases h

theorem Quiet.traces {m : Eval α} (h : Quiet m) (s : State) : Traces ctx rec n s₀ m s [] := by
  intro t ht
  rw [h ht]
  exact .refl s

theorem Traces.bind {m : Eval α} {f : α → Eval β} {next : α → State → List Visit}
    (hm : Traces ctx rec n s₀ m s vs)
    (hf : ∀ a t, m s = .done a t → Traces ctx rec n s₀ (f a) t (next a t)) :
    Traces ctx rec n s₀ (m >>= f) s (vs ++ afterDone (m s) next) := by
  intro u hu
  rcases state?_bind hu with ⟨e, he⟩ | ⟨a, t, ht, hu⟩
  · rw [he]
    exact (hm (state?_of_failed he)).append (.refl u)
  · rw [ht]
    exact (hm (state?_of_done ht)).append (hf a t ht hu)

/-- The second piece visits nothing. -/
theorem Traces.bind_end {m : Eval α} {f : α → Eval β} (hm : Traces ctx rec n s₀ m s vs)
    (hf : ∀ a t, m s = .done a t → Traces ctx rec n s₀ (f a) t []) :
    Traces ctx rec n s₀ (m >>= f) s vs := by
  have h := hm.bind hf
  have hnil : afterDone (m s) (fun _ _ => []) = [] := by cases m s <;> rfl
  rwa [hnil, List.append_nil] at h

theorem quiet_pure (a : α) : Quiet (pure a : Eval α) := fun _ _ h => (Option.some.inj h).symm

theorem quiet_fail (e : EvalError) : Quiet (fail e : Eval α) :=
  fun _ _ h => (Option.some.inj h).symm

theorem quiet_dangling : Quiet (dangling : Eval α) := by
  intro s t h
  cases h

theorem Quiet.bind {m : Eval α} {f : α → Eval β} (hm : Quiet m) (hf : ∀ a, Quiet (f a)) :
    Quiet (m >>= f) := by
  intro s u hu
  rcases state?_bind hu with ⟨e, he⟩ | ⟨a, t, ht, hend⟩
  · exact hm (state?_of_failed he)
  · obtain rfl : t = s := hm (state?_of_done ht)
    exact hf a hend

theorem quiet_value (i : ValueId) : Quiet (value i) := by
  intro s t h
  unfold value at h
  cases hv : s.values.get? i with
  | none =>
    rw [hv] at h
    cases h
  | some v =>
    rw [hv] at h
    exact (Option.some.inj h).symm

theorem quiet_ofExcept (r : Except EvalError α) : Quiet (ofExcept r) := by
  cases r with
  | ok a => exact quiet_pure a
  | error e => exact quiet_fail e

theorem quiet_node (id : NodeId) : Quiet (node ctx id) := by
  unfold node
  cases ctx.nodes.get? id with
  | none => exact quiet_dangling
  | some n => exact quiet_pure n

theorem quiet_items (r : NodeRange) : Quiet (items ctx r) := by
  unfold items
  cases ctx.nodes.list? r with
  | none => exact quiet_dangling
  | some ids => exact quiet_pure ids

theorem quiet_listItems (defect : NodeKind → Defect) (id : NodeId) :
    Quiet (listItems ctx defect id) := by
  refine (quiet_node id).bind fun n => ?_
  cases n with
  | empty => exact quiet_pure []
  | paramList r => exact quiet_items r
  | _ => exact quiet_fail _

theorem quiet_identNames (ids : List NodeId) : Quiet (identNames ctx ids) := by
  induction ids with
  | nil => exact quiet_pure []
  | cons id rest ih =>
    refine (quiet_node id).bind fun n => ?_
    cases n with
    | ident name => exact ih.bind fun _ => quiet_pure _
    | _ => exact quiet_fail _

theorem quiet_paramNames (list : NodeId) : Quiet (paramNames ctx list) :=
  (quiet_listItems _ list).bind quiet_identNames

theorem traces_modifyEnv {f : Env → Env} (h : Change ctx n s { s with env := f s.env }) :
    Traces ctx rec n s₀ (modifyEnv f) s [] := by
  intro t ht
  obtain rfl : { s with env := f s.env } = t := Option.some.inj ht
  exact threads_change h

theorem traces_produce (v : Value) : Traces ctx rec n s₀ (produce v) s [] := by
  intro t ht
  obtain rfl := Option.some.inj ht
  exact threads_change (.alloc s v)

theorem traces_rec {id : NodeId} (hid : id ∈ ctx.asked n) :
    Traces ctx rec n s₀ (rec id) s [(id, s)] :=
  fun _ ht => threads_visit hid ht

theorem traces_required {id : NodeId} (hid : id ∈ ctx.asked n) (slot : Slot) :
    Traces ctx rec n s₀ (required ctx rec slot id) s (childVisit ctx id s) := by
  unfold childVisit required
  by_cases he : ctx.nodes.isEmpty id = true
  · rw [if_pos he, if_pos he]
    exact (quiet_fail _).traces s
  · rw [if_neg he, if_neg he]
    refine (traces_rec hid).bind_end fun flow t _ => ?_
    cases flow.value? with
    | none => exact (quiet_fail _).traces t
    | some v => exact (quiet_pure v).traces t

theorem traces_operand {id : NodeId} (hid : id ∈ ctx.asked n) (symbol : String) :
    Traces ctx rec n s₀ (operand ctx rec symbol id) s (childVisit ctx id s) := by
  unfold childVisit operand
  by_cases he : ctx.nodes.isEmpty id = true
  · rw [if_pos he, if_pos he]
    exact (quiet_fail _).traces s
  · rw [if_neg he, if_neg he]
    refine (traces_rec hid).bind_end fun flow t _ => ?_
    cases flow.value? with
    | none => exact (quiet_fail _).traces t
    | some v => exact (quiet_value v).traces t

theorem get?_of_node {id : NodeId} {m : Node} (h : node ctx id s = .done m t) :
    ctx.nodes.get? id = some m := by
  unfold node at h
  cases hm : ctx.nodes.get? id with
  | none =>
    rw [hm] at h
    cases h
  | some m' =>
    rw [hm] at h
    cases h
    rfl

theorem traces_markAssigned {r : NodeRange} {all ids : List NodeId}
    (hr : ctx.nodes.list? r = some all) (hids : ∀ i ∈ ids, i ∈ all) :
    Traces ctx rec (.suite r) s₀ (markAssigned ctx ids) s [] := by
  induction ids generalizing s with
  | nil => exact (quiet_pure ()).traces s
  | cons id rest ih =>
    refine ((quiet_node id).traces s).bind_end fun m t hm => ?_
    cases m with
    | assign target value =>
      refine ((quiet_node target).traces t).bind_end fun m' u hm' => ?_
      cases m' with
      | ident name =>
        have hmark : Change ctx (.suite r) u { u with env := u.env.markUnbound name } :=
          .mark u hr (hids id (List.mem_cons_self ..)) (get?_of_node hm) (get?_of_node hm')
        exact (traces_modifyEnv hmark).bind_end fun _ _ _ => ih fun i hi =>
          hids i (List.mem_cons_of_mem _ hi)
      | _ => exact ih fun i hi => hids i (List.mem_cons_of_mem _ hi)
    | _ => exact ih fun i hi => hids i (List.mem_cons_of_mem _ hi)

theorem traces_statements {ids : List NodeId} (hids : ∀ i ∈ ids, i ∈ ctx.asked n) :
    Traces ctx rec n s₀ (statements rec ids) s (statementVisits rec ids s) := by
  induction ids generalizing s with
  | nil => exact (quiet_pure _).traces s
  | cons id rest ih =>
    refine (traces_rec (hids id (List.mem_cons_self ..))).bind fun flow t _ => ?_
    cases flow with
    | ret v => exact (quiet_pure _).traces t
    | normal v => exact ih fun i hi => hids i (List.mem_cons_of_mem _ hi)

theorem traces_argumentValues {callee : String} {ids : List NodeId} {position : Nat}
    (hids : ∀ i ∈ ids, i ∈ ctx.asked n) :
    Traces ctx rec n s₀ (argumentValues ctx rec callee position ids) s
      (argumentVisits ctx rec callee position ids s) := by
  induction ids generalizing s position with
  | nil => exact (quiet_pure _).traces s
  | cons id rest ih =>
    refine (traces_required (hids id (List.mem_cons_self ..)) _).bind fun v t _ => ?_
    refine (ih fun i hi => hids i (List.mem_cons_of_mem _ hi)).bind_end fun _ u _ => ?_
    exact (quiet_pure _).traces u

/-! ## Calls -/

/-- What a call asks for are the items of its arguments. -/
theorem asked_call_eq {callee : Name} {args : NodeId} {ids : List NodeId}
    (h : listItems ctx .badArguments args s = .done ids t) :
    ctx.asked (.call callee args) = ids := by
  unfold listItems node at h
  cases ha : ctx.nodes.get? args with
  | none =>
    rw [ha] at h
    cases h
  | some m =>
    rw [ha, pure_bind] at h
    cases m with
    | empty =>
      cases h
      simp only [Context.asked, ha]
    | paramList r =>
      unfold items at h
      cases hr : ctx.nodes.list? r with
      | none =>
        simp only [hr] at h
        cases h
      | some is =>
        simp only [hr] at h
        cases h
        simp only [Context.asked, ha, hr, Option.getD_some]
    | _ => cases h

/-- The items of the arguments of a call are asked for by the call. -/
theorem mem_asked_call {callee : Name} {args : NodeId} {ids : List NodeId}
    (h : listItems ctx .badArguments args s = .done ids t) {i : NodeId} (hi : i ∈ ids) :
    i ∈ ctx.asked (.call callee args) := by
  rw [asked_call_eq h]
  exact hi

theorem traces_arguments (callee : Name) (args : NodeId) :
    Traces ctx rec (.call callee args) s₀ (arguments ctx rec callee args) s
      (callArgumentVisits ctx rec callee args s) := by
  intro u hu
  unfold arguments at hu
  rw [state_bind] at hu
  unfold callArgumentVisits
  cases hl : s.env.resolveParams callee with
  | none =>
    rw [hl] at hu
    exact (quiet_pure _).traces s hu
  | some list =>
    rw [hl] at hu
    dsimp only at hu ⊢
    rw [bind_apply]
    rcases state?_bind hu with ⟨e, he⟩ | ⟨params, t, hp, hrest⟩
    · rw [he]
      exact (quiet_paramNames list).traces s (state?_of_failed he)
    · obtain rfl : t = s := quiet_paramNames list (state?_of_done hp)
      rw [hp]
      dsimp only
      rcases state?_bind hrest with ⟨e, he⟩ | ⟨ids, t', hi, hend⟩
      · rw [he]
        exact (quiet_listItems _ args).traces t (state?_of_failed he)
      · obtain rfl : t' = t := quiet_listItems _ args (state?_of_done hi)
        rw [hi]
        have hasked : ∀ i ∈ ids, i ∈ ctx.asked (.call callee args) := fun i => mem_asked_call hi
        refine (traces_argumentValues hasked).bind_end (fun values t _ => ?_) hend
        by_cases hlen : params.length = values.length
        · rw [if_pos hlen]
          exact (quiet_pure _).traces t
        · rw [if_neg hlen]
          exact (quiet_fail _).traces t

theorem traces_inFrame {callee : Name} {args body : NodeId} {params : List Name}
    {values : List ValueId} (hbody : s₀.env.resolveFunction callee = some body) :
    Traces ctx rec (.call callee args) s₀ (inFrame params values (rec body)) s
      (bodyVisit params values body s) := by
  intro t ht
  unfold bodyVisit
  unfold inFrame at ht
  cases hpush : s.env.push with
  | error e =>
    rw [hpush] at ht
    obtain rfl : s = t := Option.some.inj ht
    exact .refl s
  | ok env =>
    rw [hpush] at ht
    dsimp only at ht ⊢
    cases hb : rec body
      { s with env := env.bindAll params values, peak := max s.peak env.depth } with
    | done flow u =>
      have hend : (rec body (entered s env params values)).state? = some u := state?_of_done hb
      rw [hb] at ht
      obtain rfl : left u = t := Option.some.inj ht
      exact .enter rfl hbody hpush hend (.refl _)
    | failed e u =>
      have hend : (rec body (entered s env params values)).state? = some u := state?_of_failed hb
      rw [hb] at ht
      obtain rfl : left u = t := Option.some.inj ht
      exact .enter rfl hbody hpush hend (.refl _)
    | dangling =>
      rw [hb] at ht
      cases ht
    | exhausted =>
      rw [hb] at ht
      cases ht
    | full _ =>
      rw [hb] at ht
      cases ht

theorem traces_call (callee : Name) (args : NodeId) :
    Traces ctx rec (.call callee args) s (call ctx rec callee args) s
      (callVisits ctx rec callee args s) := by
  intro u hu
  unfold call at hu
  rw [state_bind] at hu
  unfold callVisits
  cases hb : s.env.resolveFunction callee with
  | none =>
    rw [hb] at hu
    exact (quiet_fail _).traces s hu
  | some body =>
    rw [hb] at hu
    refine (traces_arguments callee args).bind (fun bindings t _ => ?_) hu
    refine (traces_inFrame hb).bind_end fun r t _ => ?_
    dsimp only
    by_cases hbind : ctx.resultBinding = .enabled
    · rw [if_pos hbind]
      refine (traces_modifyEnv (.result t _ hbind)).bind_end fun _ t _ => ?_
      exact (quiet_pure _).traces t
    · rw [if_neg hbind]
      exact (quiet_pure _).traces t

/-! ## Rules -/

/-- What is left to be done when everything is visited: a `print` prints its line, and a
`return` leaves its value in the frame.  Other nodes, and those that fail, leave the state as
it is. -/
inductive Closes : Node → State → Outcome Flow → Prop where
  /-- Nothing is left to be done. -/
  | same {n : Node} {t : State} {flow : Flow} :
    n.kind ≠ .print → n.kind ≠ .ret → Closes n t (.done flow t)
  /-- A failure comes before what is left to be done. -/
  | failed {n : Node} {t : State} (e : EvalError) : Closes n t (.failed e t)
  /-- A line is printed. -/
  | print {a : NodeId} {t : State} (line : String) :
    Closes (.print a) t (.done (.normal none) { t with printer := t.printer.println line })
  /-- The value of a `return` is left. -/
  | ret {a : NodeId} {t : State} (v : ValueId) :
    Closes (.ret a) t (.done (.ret v) { t with env := t.env.signalReturn v })

/-- The rule of a node, up to what is left to be done. -/
def Runs (ctx : Context) (rec : NodeId → Eval Flow) (n : Node) (s : State) (vs : List Visit)
    (o : Outcome Flow) : Prop :=
  ∀ ⦃u⦄, o.state? = some u → ∃ t, Threads ctx rec n s s vs t ∧ Closes n t o

theorem Traces.runs {n : Node} {m : Eval Flow} (h : Traces ctx rec n s m s vs)
    (hp : n.kind ≠ .print) (hr : n.kind ≠ .ret) : Runs ctx rec n s vs (m s) := by
  intro u hu
  refine ⟨u, h hu, ?_⟩
  cases hm : m s with
  | done flow t =>
    rw [hm] at hu
    obtain rfl : t = u := Option.some.inj hu
    exact .same hp hr
  | failed e t =>
    rw [hm] at hu
    obtain rfl : t = u := Option.some.inj hu
    exact .failed e
  | dangling =>
    rw [hm] at hu
    cases hu
  | exhausted =>
    rw [hm] at hu
    cases hu
  | full _ =>
    rw [hm] at hu
    cases hu

theorem runs_print (a : NodeId) :
    Runs ctx rec (.print a) s (childVisit ctx a s) (print ctx rec a s) := by
  intro u hu
  by_cases he : ctx.nodes.isEmpty a = true
  · have hnil : childVisit ctx a s = [] := if_pos he
    unfold print
    rw [if_pos he, hnil]
    exact ⟨s, .refl s, .print ""⟩
  · rw [print_of_not_isEmpty (Bool.eq_false_iff.mpr he)] at hu ⊢
    have hline : Traces ctx rec (.print a) s
        (required ctx rec .printArgument a >>= value) s (childVisit ctx a s) :=
      (traces_required (List.mem_singleton_self a) _).bind_end fun v t _ => (quiet_value v).traces t
    rw [bind_apply]
    rcases state?_bind hu with ⟨e, hm⟩ | ⟨v, t, hm, -⟩
    · rw [hm]
      exact ⟨u, hline (state?_of_failed hm), .failed e⟩
    · rw [hm]
      exact ⟨t, hline (state?_of_done hm), .print v.text⟩

theorem runs_ret (a : NodeId) :
    Runs ctx rec (.ret a) s (childVisit ctx a s) (ret ctx rec a s) := by
  intro u hu
  by_cases he : ctx.nodes.isEmpty a = true
  · have hnil : childVisit ctx a s = [] := if_pos he
    unfold ret
    rw [if_pos he, hnil]
    exact ⟨s, .refl s, .ret ValueId.nil⟩
  · have hvisit : childVisit ctx a s = [(a, s)] := if_neg he
    rw [ret_of_not_isEmpty (Bool.eq_false_iff.mpr he)] at hu ⊢
    have hrec : Traces ctx rec (.ret a) s (rec a) s [(a, s)] :=
      traces_rec (List.mem_singleton_self a)
    rw [bind_apply, hvisit]
    rcases state?_bind hu with ⟨e, hm⟩ | ⟨flow, t, hm, -⟩
    · rw [hm]
      exact ⟨u, hrec (state?_of_failed hm), .failed e⟩
    · rw [hm]
      exact ⟨t, hrec (state?_of_done hm), .ret _⟩

theorem traces_assign (target a : NodeId) :
    Traces ctx rec (.assign target a) s₀ (assign ctx rec target a) s
      (match ctx.nodes.get? target with
        | some (.ident _) => childVisit ctx a s
        | _ => []) := by
  unfold assign node
  cases ht : ctx.nodes.get? target with
  | none => exact quiet_dangling.traces s
  | some m =>
    rw [pure_bind]
    cases m with
    | ident name =>
      refine (traces_required (List.mem_singleton_self a) _).bind_end fun v t _ => ?_
      refine (traces_modifyEnv (.assign t v ht)).bind_end fun _ t _ => ?_
      exact (quiet_pure _).traces t
    | _ => exact (quiet_fail _).traces s

theorem traces_cond (test thenBranch elseBranch : NodeId) :
    Traces ctx rec (.cond test thenBranch elseBranch) s₀ (cond ctx rec test thenBranch elseBranch) s
      (childVisit ctx test s ++
        afterDone ((do value (← required ctx rec .ifCondition test)) s) fun v s =>
          [(if v.truthy then thenBranch else elseBranch, s)]) := by
  unfold cond
  rw [← bind_assoc]
  refine ((traces_required (by simp [Context.asked]) _).bind_end fun v t _ =>
    (quiet_value v).traces t).bind fun v t _ => ?_
  by_cases hv : v.truthy = true
  · rw [if_pos hv, if_pos hv]
    exact traces_rec (by simp [Context.asked])
  · rw [if_neg hv, if_neg hv]
    exact traces_rec (by simp [Context.asked])

theorem list?_of_items {r : NodeRange} {ids : List NodeId} (h : items ctx r s = .done ids t) :
    ctx.nodes.list? r = some ids := by
  unfold items at h
  cases hr : ctx.nodes.list? r with
  | none =>
    rw [hr] at h
    cases h
  | some is =>
    rw [hr] at h
    cases h
    rfl

/-- The statements that were marked are those of the list. -/
theorem list?_of_marked {r : NodeRange} {ids : List NodeId}
    (h : (do
      let ids ← items ctx r
      markAssigned ctx ids
      return ids : Eval _) s = .done ids t) : ctx.nodes.list? r = some ids := by
  obtain ⟨is, u, hi, hm⟩ := done_bind h
  obtain ⟨-, u', -, hp⟩ := done_bind hm
  cases hp
  exact list?_of_items hi

theorem traces_suite (r : NodeRange) :
    Traces ctx rec (.suite r) s₀ (suite ctx rec r) s
      (afterDone ((do
        let ids ← items ctx r
        markAssigned ctx ids
        return ids) s) fun ids s => statementVisits rec ids s) := by
  rw [suite_eq]
  have hmark : Traces ctx rec (.suite r) s₀ (do
      let ids ← items ctx r
      markAssigned ctx ids
      return ids) s [] := by
    refine ((quiet_items r).traces s).bind_end fun ids t hids => ?_
    refine (traces_markAssigned (list?_of_items hids) fun i hi => hi).bind_end fun _ u _ => ?_
    exact (quiet_pure ids).traces u
  refine hmark.bind fun ids t ht => traces_statements fun i hi => ?_
  have hlist : ctx.nodes.list? r = some ids := list?_of_marked ht
  show i ∈ (ctx.nodes.list? r).getD []
  rw [hlist]
  exact hi

theorem traces_funcDef (name : Name) (params body : NodeId) :
    Traces ctx rec (.funcDef name params body) s₀ (funcDef ctx name params body) s [] := by
  unfold funcDef node
  cases hp : ctx.nodes.get? params with
  | none => exact quiet_dangling.traces s
  | some m =>
    rw [pure_bind]
    cases m with
    | empty =>
      refine (traces_modifyEnv (.defineWithout s hp)).bind_end fun _ t _ => ?_
      exact (quiet_pure _).traces t
    | _ =>
      refine (traces_modifyEnv (.defineWith s hp (by simp))).bind_end fun _ t _ => ?_
      exact (quiet_pure _).traces t

theorem quiet_ident (name : Name) : Quiet (ident ctx name) := by
  intro s t h
  unfold ident at h
  rw [state_bind] at h
  cases hr : s.env.resolve name with
  | ok id =>
    rw [hr] at h
    exact (Option.some.inj h).symm
  | error e =>
    rw [hr] at h
    cases e <;> exact (Option.some.inj h).symm

theorem traces_unary (op : UnaryOp) (a : NodeId) :
    Traces ctx rec (.unary op a) s₀ (unary ctx rec op a) s (childVisit ctx a s) := by
  refine (traces_operand (List.mem_singleton_self a) _).bind_end fun v t _ => ?_
  refine ((quiet_ofExcept _).traces t).bind_end fun w u _ => ?_
  exact traces_produce w

theorem traces_binary (op : BinaryOp) (a b : NodeId) :
    Traces ctx rec (.binary op a b) s₀ (binary ctx rec op a b) s
      (childVisit ctx a s ++
        afterDone (operand ctx rec op.symbol a s) fun _ s => childVisit ctx b s) := by
  refine (traces_operand (List.mem_cons_self ..) _).bind fun v t _ => ?_
  refine (traces_operand (by simp [Context.asked]) _).bind_end fun w u _ => ?_
  refine ((quiet_ofExcept _).traces u).bind_end fun r u _ => ?_
  exact traces_produce r

/-- **What a rule does.**  An evaluation of a node that ends is joined by a thread of its
visits to the state in which the node closes. -/
theorem runs_step {id : NodeId} {n : Node} (h : ctx.nodes.get? id = some n) (s : State) :
    Runs ctx rec n s (visits ctx rec id s) (step ctx rec id s) := by
  unfold visits
  rw [step_of_get? h, h]
  cases n with
  | empty => exact ((quiet_pure _).traces s).runs nofun nofun
  | ident name => exact ((quiet_ident name).traces s).runs nofun nofun
  | int n => exact (traces_produce _).runs nofun nofun
  | float x => exact (traces_produce _).runs nofun nofun
  | nil => exact ((quiet_pure _).traces s).runs nofun nofun
  | unary op a => exact (traces_unary op a).runs nofun nofun
  | binary op a b => exact (traces_binary op a b).runs nofun nofun
  | assign target a => exact (traces_assign target a).runs nofun nofun
  | print a => exact runs_print a
  | cond a b c => exact (traces_cond a b c).runs nofun nofun
  | suite r => exact (traces_suite r).runs nofun nofun
  | funcDef name params body => exact (traces_funcDef name params body).runs nofun nofun
  | call callee args => exact (traces_call callee args).runs nofun nofun
  | ret a => exact runs_ret a
  | paramList r => exact ((quiet_pure _).traces s).runs nofun nofun

end Eval

end TreeWalk
