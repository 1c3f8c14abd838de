import TreeWalk.Eval.Visit

/-!
# Evaluation is local to its visits

`visits` claims to list everything that the rule of a node asks for.  The main statement
here, `step_congr`, says that it leaves nothing out: a rule comes to the same under any
two ways to evaluate nodes that agree at the visits of its node.  Each part of a rule has
a lemma of its own, and `bind_congr_done` puts them together.
-/

namespace TreeWalk

namespace Eval

variable {ctx : Context} {rec rec' : NodeId → Eval Flow}

/-- Two ways to evaluate nodes agree at each of a list of visits. -/
def AgreeAt (rec rec' : NodeId → Eval Flow) (vs : List Visit) : Prop :=
  ∀ v ∈ vs, rec' v.1 v.2 = rec v.1 v.2

/-- Agreement at two lists of visits, one after the other. -/
theorem agreeAt_append {vs ws : List Visit} :
    AgreeAt rec rec' (vs ++ ws) ↔ AgreeAt rec rec' vs ∧ AgreeAt rec rec' ws :=
  List.forall_mem_append

/-- Agreement at a first visit and at the others. -/
theorem agreeAt_cons {v : Visit} {vs : List Visit} :
    AgreeAt rec rec' (v :: vs) ↔ rec' v.1 v.2 = rec v.1 v.2 ∧ AgreeAt rec rec' vs :=
  List.forall_mem_cons

/-- A child that must have a value is evaluated at its own visit. -/
theorem required_congr {slot : Slot} {id : NodeId} {s : State}
    (h : AgreeAt rec rec' (childVisit ctx id s)) :
    required ctx rec' slot id s = required ctx rec slot id s := by
  unfold childVisit at h
  unfold required
  split at h
  · rename_i he
    simp only [he, if_true]
  · rename_i he
    simp only [he, if_false, bind_apply, (agreeAt_cons.1 h).1, Bool.false_eq_true]

/-- An operand is evaluated at its own visit. -/
theorem operand_congr {symbol : String} {id : NodeId} {s : State}
    (h : AgreeAt rec rec' (childVisit ctx id s)) :
    operand ctx rec' symbol id s = operand ctx rec symbol id s := by
  unfold childVisit at h
  unfold operand
  split at h
  · rename_i he
    simp only [he, if_true]
  · rename_i he
    simp only [he, if_false, bind_apply, (agreeAt_cons.1 h).1, Bool.false_eq_true]

/-- Two pieces of evaluation in a row agree if the first ones agree and the second ones
agree behind whatever the first ones are done with. -/
theorem bind_congr_done {α β : Type} {m m' : Eval α} {f f' : α → Eval β} {s : State}
    (hm : m' s = m s) (hf : ∀ a t, m s = .done a t → f' a t = f a t) :
    (m' >>= f') s = (m >>= f) s := by
  rw [bind_apply, bind_apply, hm]
  cases h : m s with
  | done a t => exact hf a t h
  | failed e t => rfl
  | dangling => rfl
  | exhausted => rfl
  | full _ => rfl

theorem afterDone_done {α : Type} {o : Outcome α} {next : α → State → List Visit} {a : α}
    {t : State} (h : o = .done a t) : afterDone o next = next a t := by rw [h]; rfl

/-- Statements are evaluated at their visits. -/
theorem statements_congr {ids : List NodeId} {s : State}
    (h : AgreeAt rec rec' (statementVisits rec ids s)) :
    statements rec' ids s = statements rec ids s := by
  induction ids generalizing s with
  | nil => rfl
  | cons id rest ih =>
    rw [statementVisits] at h
    obtain ⟨h₁, h₂⟩ := agreeAt_cons.1 h
    refine bind_congr_done h₁ fun flow t ht => ?_
    rw [afterDone_done ht] at h₂
    cases flow with
    | ret v => rfl
    | normal v => exact ih h₂

/-- Arguments are evaluated at their visits. -/
theorem argumentValues_congr {callee : String} {ids : List NodeId} {position : Nat} {s : State}
    (h : AgreeAt rec rec' (argumentVisits ctx rec callee position ids s)) :
    argumentValues ctx rec' callee position ids s =
      argumentValues ctx rec callee position ids s := by
  induction ids generalizing position s with
  | nil => rfl
  | cons id rest ih =>
    rw [argumentVisits] at h
    obtain ⟨h₁, h₂⟩ := agreeAt_append.1 h
    refine bind_congr_done (required_congr h₁) fun v t ht => ?_
    rw [afterDone_done ht] at h₂
    refine bind_congr_done (ih h₂) fun _ _ _ => rfl

/-- What a call binds depends on the visits to its arguments. -/
theorem arguments_congr {callee : Name} {args : NodeId} {s : State}
    (h : AgreeAt rec rec' (callArgumentVisits ctx rec callee args s)) :
    arguments ctx rec' callee args s = arguments ctx rec callee args s := by
  unfold callArgumentVisits at h
  unfold arguments
  rw [state_bind, state_bind]
  cases hl : s.env.resolveParams callee with
  | none => rfl
  | some list =>
    rw [hl] at h
    refine bind_congr_done rfl fun ps t hp => ?_
    refine bind_congr_done rfl fun ids u hi => ?_
    refine bind_congr_done (argumentValues_congr ?_) fun _ _ _ => rfl
    have hd : (do
        let _ ← paramNames ctx list
        listItems ctx .badArguments args : Eval _) s = .done ids u := by
      rw [bind_apply, hp]
      exact hi
    simpa only [afterDone_done hd] using h

/-- What a body returns depends on the visit to it. -/
theorem inFrame_congr {params : List Name} {values : List ValueId} {body : NodeId} {s : State}
    (h : AgreeAt rec rec' (bodyVisit params values body s)) :
    inFrame params values (rec' body) s = inFrame params values (rec body) s := by
  unfold bodyVisit at h
  unfold inFrame
  cases he : s.env.push with
  | error e => rfl
  | ok env =>
    rw [he] at h
    simp only [(agreeAt_cons.1 h).1]

theorem call_congr {callee : Name} {args : NodeId} {s : State}
    (h : AgreeAt rec rec' (callVisits ctx rec callee args s)) :
    call ctx rec' callee args s = call ctx rec callee args s := by
  unfold callVisits at h
  unfold call
  rw [state_bind, state_bind]
  cases hb : s.env.resolveFunction callee with
  | none => rfl
  | some body =>
    rw [hb] at h
    obtain ⟨h₁, h₂⟩ := agreeAt_append.1 h
    refine bind_congr_done (arguments_congr h₁) fun bindings t ht => ?_
    rw [afterDone_done ht] at h₂
    exact bind_congr_done (inFrame_congr h₂) fun _ _ _ => rfl

theorem print_congr {id : NodeId} {s : State} (h : AgreeAt rec rec' (childVisit ctx id s)) :
    print ctx rec' id s = print ctx rec id s := by
  unfold print
  split
  · rfl
  · exact bind_congr_done (required_congr h) fun _ _ _ => rfl

theorem ret_congr {id : NodeId} {s : State} (h : AgreeAt rec rec' (childVisit ctx id s)) :
    ret ctx rec' id s = ret ctx rec id s := by
  unfold childVisit at h
  unfold ret
  split at h
  · rename_i he
    simp only [he, if_true]
  · rename_i he
    simp only [he, if_false, bind_apply, (agreeAt_cons.1 h).1, Bool.false_eq_true]

theorem cond_congr {test thenBranch elseBranch : NodeId} {s : State}
    (h : AgreeAt rec rec' (childVisit ctx test s ++
      afterDone ((do value (← required ctx rec .ifCondition test)) s) fun v s =>
        [(if v.truthy then thenBranch else elseBranch, s)])) :
    cond ctx rec' test thenBranch elseBranch s = cond ctx rec test thenBranch elseBranch s := by
  obtain ⟨h₁, h₂⟩ := agreeAt_append.1 h
  refine bind_congr_done (required_congr h₁) fun v t ht => bind_congr_done rfl fun w u hu => ?_
  have hd : (do value (← required ctx rec .ifCondition test) : Eval _) s = .done w u := by
    rw [bind_apply, ht]
    exact hu
  rw [afterDone_done hd] at h₂
  have hw := (agreeAt_cons.1 h₂).1
  cases hb : w.truthy <;> simpa [hb] using hw

/-- What the rule of a node comes to depends on nothing but the visits of the node. -/
theorem step_congr {id : NodeId} {s : State} (h : AgreeAt rec rec' (visits ctx rec id s)) :
    step ctx rec' id s = step ctx rec id s := by
  unfold visits at h
  unfold step
  refine bind_congr_done rfl fun n t hn => ?_
  unfold node at hn
  cases hg : ctx.nodes.get? id with
  | none => rw [hg] at hn; cases hn
  | some m =>
    rw [hg] at h hn
    cases hn
    cases n with
    | unary op a => exact bind_congr_done (operand_congr h) fun _ _ _ => rfl
    | binary op a b =>
      obtain ⟨h₁, h₂⟩ := agreeAt_append.1 h
      refine bind_congr_done (operand_congr h₁) fun v t ht => ?_
      rw [afterDone_done ht] at h₂
      exact bind_congr_done (operand_congr h₂) fun _ _ _ => rfl
    | assign target a =>
      refine bind_congr_done rfl fun n t hn => ?_
      unfold node at hn
      cases hg : ctx.nodes.get? target with
      | none => rw [hg] at hn; cases hn
      | some m =>
        rw [hg] at hn
        cases hn
        cases n with
        | ident name =>
          simp only [hg] at h
          exact bind_congr_done (required_congr h) fun _ _ _ => rfl
        | _ => rfl
    | print a => exact print_congr h
    | cond test thenBranch elseBranch => exact cond_congr h
    | suite r =>
      refine bind_congr_done rfl fun ids t hi => bind_congr_done rfl fun _ u hm => ?_
      have hd : (do
          let ids ← items ctx r
          markAssigned ctx ids
          return ids : Eval _) s = .done ids u := by
        simp only [bind_apply, hi, hm, pure_apply]
      exact statements_congr (by simpa only [afterDone_done hd] using h)
    | call callee args => exact call_congr h
    | ret a => exact ret_congr h
    | _ => rfl
end Eval

end TreeWalk
