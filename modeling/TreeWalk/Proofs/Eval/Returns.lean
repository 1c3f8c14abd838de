import TreeWalk.Proofs.Eval.Fuel

/-!
# The value of a return

A return is reported twice.  The flow of its evaluation is `Flow.ret`, which stops the
blocks around it, and its value is left in the slot of the frame, which is all that a call
looks at when the body has ended.

The two agree when the flow of a body is a return (`returned_of_ret`).  They need not agree
otherwise: a return may stand where a value is wanted, and whoever wants the value takes it
and goes on.  What the slot holds in the end is therefore the value of the *last* return
that was evaluated to its end in the frame (`returned_eq`), whatever the flow.
-/

namespace TreeWalk

namespace Eval

variable {α β : Type} {ctx : Context} {rec : NodeId → Eval Flow} {s₀ s t u : State}
  {vs : List Visit} {id : NodeId} {n : Node} {fuel : Nat}

/-! ## The slot of the top frame -/

/-- A change leaves the depth and the slot of the top frame alone. -/
theorem returned_of_change (h : Change ctx n s t) : t.env.top.returned = s.env.top.returned := by
  cases h <;> rfl

theorem top_bindAll_returned (env : Env) (names : List Name) (ids : List ValueId) :
    (env.bindAll names ids).top.returned = env.top.returned := by
  induction names generalizing env ids with
  | nil => rfl
  | cons n ns ih =>
    cases ids with
    | nil => rfl
    | cons i is => exact ih (env.bind n i) is

/-- The slot of a frame that was just pushed is empty. -/
theorem returned_entered {env : Env} (hpush : s.env.push = .ok env) (params : List Name)
    (values : List ValueId) : (entered s env params values).env.top.returned = none := by
  obtain ⟨-, rfl⟩ := Env.push_eq_ok_iff.mp hpush
  exact top_bindAll_returned _ params values

/-- The visits of a thread are made in the frame of its first state, by a node that asks for
them, or above it. -/
theorem Threads.asked_or_above (h : Threads ctx rec n s₀ s vs u)
    (hrec : ∀ v ∈ vs, ∀ t, (rec v.1 v.2).state? = some t → KeepsFrames v.2 t) :
    ∀ v ∈ vs, v.1 ∈ ctx.asked n ∧ v.2.env.depth = s.env.depth ∨
      s.env.depth < v.2.env.depth := by
  induction h with
  | refl s =>
    intro v hv
    cases hv
  | change hc _ ih =>
    rw [(keepsFrames_change hc).depth_eq] at ih
    exact ih hrec
  | @visit s t u vs id hid hend _ ih =>
    have hkept := hrec (id, s) (List.mem_cons_self ..) t hend
    rw [hkept.depth_eq] at ih
    exact List.forall_mem_cons.mpr
      ⟨Or.inl ⟨hid, rfl⟩, ih fun v hv => hrec v (List.mem_cons_of_mem _ hv)⟩
  | @enter s t u vs callee args body env params values _ _ hpush hend _ ih =>
    have hkept := hrec (body, entered s env params values) (List.mem_cons_self ..) t hend
    rw [left_env_eq hpush hkept] at ih
    refine List.forall_mem_cons.mpr
      ⟨Or.inr ?_, ih fun v hv => hrec v (List.mem_cons_of_mem _ hv)⟩
    rw [depth_entered hpush]
    exact Nat.lt_succ_self _

theorem Threads.depth_le (h : Threads ctx rec n s₀ s vs u)
    (hrec : ∀ v ∈ vs, ∀ t, (rec v.1 v.2).state? = some t → KeepsFrames v.2 t) :
    ∀ v ∈ vs, s.env.depth ≤ v.2.env.depth := by
  intro v hv
  rcases h.asked_or_above hrec v hv with hsame | habove
  · exact Nat.le_of_eq hsame.2.symm
  · exact Nat.le_of_lt habove

/-- A node that is no call visits only what it asks for. -/
theorem Threads.mem_asked (h : Threads ctx rec n s₀ s vs u) (hn : n.kind ≠ .call) :
    ∀ v ∈ vs, v.1 ∈ ctx.asked n := by
  induction h with
  | refl s => exact List.forall_mem_nil _
  | change _ _ ih => exact ih
  | visit hid _ _ ih => exact List.forall_mem_cons.mpr ⟨hid, ih⟩
  | enter hcall => exact absurd (congrArg Node.kind hcall) hn

/-- What is on a trail is evaluated in the frame in which the trail begins or above it. -/
theorem depth_le_of_mem_nestedTrail {v : Visit} (h : (nested ctx fuel id s).state? = some t)
    (hv : v ∈ nestedTrail ctx fuel id s) : s.env.depth ≤ v.2.env.depth := by
  induction fuel generalizing id s t with
  | zero => cases h
  | succ fuel ih =>
    obtain ⟨n, hn⟩ := exists_node_of_ends h
    obtain ⟨u, hu, -⟩ := runs_step hn s h
    rcases List.mem_append.mp hv with hv | hv
    · obtain ⟨w, hw, hvw⟩ := List.mem_flatMap.mp hv
      obtain ⟨t, ht⟩ := hu.ends w hw
      have hle := hu.depth_le (fun _ _ _ => kept_keepsFrames.nested) w hw
      exact Nat.le_trans hle (ih ht hvw)
    · obtain rfl := List.mem_singleton.mp hv
      exact Nat.le_refl _

/-- The value of a `return` that `rec` evaluates to its end with so many frames below. -/
def returnedBy (ctx : Context) (rec : NodeId → Eval Flow) (depth : Nat) (v : Visit) :
    Option ValueId :=
  if v.2.env.depth = depth then
    match ctx.nodes.get? v.1, rec v.1 v.2 with
    | some (.ret _), .done (.ret i) _ => some i
    | _, _ => none
  else none

/-- The value of a `return` that is evaluated to its end with so many frames below. -/
def returnedAt (ctx : Context) (depth : Nat) (v : Visit) : Option ValueId :=
  if v.2.env.depth = depth then
    match ctx.nodes.get? v.1, eval ctx v.1 v.2 with
    | some (.ret _), .done (.ret i) _ => some i
    | _, _ => none
  else none

/-- The value of the last `return` that an evaluation brings to its end in its own frame. -/
def lastReturn (ctx : Context) (id : NodeId) (s : State) : Option ValueId :=
  ((trail ctx id s).filterMap (returnedAt ctx s.env.depth)).getLast?

/-- Nothing is returned to a frame in the course of what runs above it. -/
theorem filterMap_returnedBy_of_lt {depth : Nat} (h : (nested ctx fuel id s).state? = some t)
    (hlt : depth < s.env.depth) :
    (nestedTrail ctx fuel id s).filterMap (returnedBy ctx rec depth) = [] := by
  refine List.filterMap_eq_nil_iff.mpr fun v hv => if_neg ?_
  have hle := depth_le_of_mem_nestedTrail h hv
  omega

/-- In the course of a thread the slot takes the value of each return of its visits. -/
theorem Threads.returned_eq (h : Threads ctx (nested ctx fuel) n s₀ s vs u)
    (hrec : ∀ v ∈ vs, ∀ t, (nested ctx fuel v.1 v.2).state? = some t →
      t.env.top.returned = ((nestedTrail ctx fuel v.1 v.2).filterMap
        (returnedBy ctx rec v.2.env.depth)).getLast?.or v.2.env.top.returned) :
    u.env.top.returned =
      ((vs.flatMap fun v => nestedTrail ctx fuel v.1 v.2).filterMap
        (returnedBy ctx rec s.env.depth)).getLast?.or s.env.top.returned := by
  induction h with
  | refl s => rfl
  | @change s t u vs hc _ ih =>
    rw [ih hrec, (keepsFrames_change hc).depth_eq, returned_of_change hc]
  | @visit s t u vs id _ hend _ ih =>
    have hfirst := hrec (id, s) (List.mem_cons_self ..) t hend
    rw [ih fun v hv => hrec v (List.mem_cons_of_mem _ hv), hfirst,
      (kept_keepsFrames.nested hend).depth_eq, List.flatMap_cons, List.filterMap_append,
      List.getLast?_append, Option.or_assoc]
  | @enter s t u vs callee args body env params values _ _ hpush hend _ ih =>
    have hlt : s.env.depth < (entered s env params values).env.depth := by
      rw [depth_entered hpush]
      exact Nat.lt_succ_self _
    rw [ih fun v hv => hrec v (List.mem_cons_of_mem _ hv),
      left_env_eq hpush (kept_keepsFrames.nested hend), List.flatMap_cons, List.filterMap_append,
      filterMap_returnedBy_of_lt hend hlt, List.nil_append]

/-- A node that closes leaves its value in the slot if it is a `return` that went through. -/
theorem Closes.returned_eq (h : Closes n u (rec id s)) (hn : ctx.nodes.get? id = some n)
    (hend : (rec id s).state? = some t) :
    t.env.top.returned = (returnedBy ctx rec s.env.depth (id, s)).or u.env.top.returned := by
  unfold returnedBy
  rw [if_pos rfl]
  dsimp only
  rw [hn]
  generalize rec id s = o at h hend
  cases h with
  | same hp hr =>
    obtain rfl : u = t := Option.some.inj hend
    cases n with
    | ret a => exact absurd rfl hr
    | _ => rfl
  | failed e =>
    obtain rfl : u = t := Option.some.inj hend
    cases n <;> rfl
  | print line =>
    obtain rfl := Option.some.inj hend
    rfl
  | ret v =>
    obtain rfl := Option.some.inj hend
    rfl

theorem getLast?_filterMap_singleton (f : α → Option β) (a : α) :
    ([a].filterMap f).getLast? = f a := by
  rw [List.filterMap_cons]
  cases f a <;> rfl

/-- **What the slot holds.**  After an evaluation the slot of the top frame holds the value
of the last return that was brought to its end in that frame, or what it held before.  This is
so under every bound, and the returns come to the same under every larger one. -/
theorem nested_returned_eq {m : Nat} (h : (nested ctx fuel id s).state? = some t)
    (hle : fuel ≤ m) :
    t.env.top.returned = ((nestedTrail ctx fuel id s).filterMap
      (returnedBy ctx (nested ctx m) s.env.depth)).getLast?.or s.env.top.returned := by
  induction fuel generalizing id s t with
  | zero => cases h
  | succ fuel ih =>
    obtain ⟨n, hn⟩ := exists_node_of_ends h
    obtain ⟨u, hu, hclose⟩ := runs_step hn s h
    have hvisits := hu.returned_eq fun v _ t ht => ih ht (Nat.le_of_succ_le hle)
    have hmono : nested ctx m id s = nested ctx (fuel + 1) id s := nested_mono h hle
    have hclosed : Closes n u (nested ctx m id s) := by
      rw [hmono]
      exact hclose
    have hend : (nested ctx m id s).state? = some t := by rw [hmono, h]
    rw [hclosed.returned_eq hn hend, hvisits, nestedTrail, List.filterMap_append,
      List.getLast?_append, getLast?_filterMap_singleton, Option.or_assoc]

/-- What the slot holds after an evaluation under its own bound. -/
theorem returned_eq (h : (eval ctx id s).state? = some t) :
    t.env.top.returned = (lastReturn ctx id s).or s.env.top.returned := by
  have hlast : (trail ctx id s).filterMap (returnedAt ctx s.env.depth) =
      (trail ctx id s).filterMap
        (returnedBy ctx (nested ctx (Eval.fuel ctx s.env.limit)) s.env.depth) := by
    refine List.filterMap_congr fun v hv => ?_
    obtain ⟨-, hlimit⟩ := (invariant_limit s.env.limit).trail h trivial rfl v hv
    unfold returnedAt returnedBy eval
    rw [hlimit]
  unfold lastReturn
  rw [hlast]
  exact nested_returned_eq h (Nat.le_refl _)

/-! ## Where the flow of a return comes from -/

/-- A piece of evaluation whose flow is never a return. -/
def Straight (m : Eval Flow) : Prop := ∀ ⦃s t v⦄, m s ≠ .done (.ret v) t

theorem straight_pure (o : Option ValueId) : Straight (pure (.normal o)) := by
  intro s t v h
  cases h

theorem straight_fail (e : EvalError) : Straight (fail e) := by
  intro s t v h
  cases h

theorem straight_produce (v : Value) : Straight (produce v) := by
  intro s t w h
  cases h

theorem straight_bind {m : Eval α} {f : α → Eval Flow} (h : ∀ a, Straight (f a)) :
    Straight (m >>= f) := by
  intro s u v hu
  obtain ⟨a, t, -, hf⟩ := done_bind hu
  exact h a hf

theorem straight_ident (name : Name) : Straight (ident ctx name) := by
  refine straight_bind fun s => ?_
  cases s.env.resolve name with
  | ok id => exact straight_pure _
  | error e => cases e <;> exact straight_fail _

theorem straight_assign (target a : NodeId) : Straight (assign ctx rec target a) := by
  refine straight_bind fun m => ?_
  cases m with
  | ident name => exact straight_bind fun v => straight_bind fun _ => straight_pure _
  | _ => exact straight_fail _

theorem straight_print (a : NodeId) : Straight (print ctx rec a) := by
  by_cases he : ctx.nodes.isEmpty a = true
  · unfold print
    rw [if_pos he]
    exact straight_bind fun _ => straight_pure _
  · rw [print_of_not_isEmpty (Bool.eq_false_iff.mpr he)]
    exact straight_bind fun _ => straight_bind fun _ => straight_pure _

theorem straight_funcDef (name : Name) (params body : NodeId) :
    Straight (funcDef ctx name params body) := by
  refine straight_bind fun m => ?_
  cases m <;> exact straight_bind fun _ => straight_pure _

theorem straight_call (callee : Name) (args : NodeId) : Straight (call ctx rec callee args) := by
  refine straight_bind fun s => ?_
  cases s.env.resolveFunction callee with
  | none => exact straight_fail _
  | some body =>
    refine straight_bind fun bindings => straight_bind fun r => ?_
    dsimp only
    by_cases hb : ctx.resultBinding = .enabled
    · rw [if_pos hb]
      exact straight_bind fun _ => straight_pure _
    · rw [if_neg hb]
      exact straight_pure _

/-- Statements return exactly if one of them does. -/
theorem statements_eq_ret_iff {ids : List NodeId} {v : ValueId} :
    statements rec ids s = .done (.ret v) t ↔
      ∃ w ∈ statementVisits rec ids s, rec w.1 w.2 = .done (.ret v) t := by
  induction ids generalizing s with
  | nil =>
    constructor
    · intro h
      cases h
    · rintro ⟨w, hw, -⟩
      cases hw
  | cons id rest ih =>
    rw [statements, statementVisits, bind_apply]
    cases hr : rec id s with
    | done flow u =>
      cases flow with
      | ret i =>
        constructor
        · intro h
          cases h
          exact ⟨(id, s), List.mem_cons_self .., hr⟩
        · rintro ⟨w, hw, he⟩
          obtain rfl : w = (id, s) := List.mem_singleton.mp hw
          exact hr.symm.trans he
      | normal o =>
        constructor
        · intro h
          obtain ⟨w, hw, he⟩ := ih.mp h
          exact ⟨w, List.mem_cons_of_mem _ hw, he⟩
        · rintro ⟨w, hw, he⟩
          rcases List.mem_cons.mp hw with rfl | hw
          · rw [hr] at he
            cases he
          · exact ih.mpr ⟨w, hw, he⟩
    | _ =>
      constructor
      · intro h
        cases h
      · rintro ⟨w, hw, he⟩
        obtain rfl : w = (id, s) := List.mem_singleton.mp hw
        rw [hr] at he
        cases he

/-- A block returns exactly if one of its statements does. -/
theorem suite_eq_ret_iff {r : NodeRange} {v : ValueId}
    (hn : ctx.nodes.get? id = some (.suite r)) :
    step ctx rec id s = .done (.ret v) t ↔
      ∃ w ∈ visits ctx rec id s, rec w.1 w.2 = .done (.ret v) t := by
  unfold visits
  rw [step_of_get? hn, hn, rule, suite_eq, bind_apply]
  dsimp only
  generalize (do let ids ← items ctx r; markAssigned ctx ids; return ids : Eval _) s = o
  cases o with
  | done ids u => exact statements_eq_ret_iff
  | _ =>
    constructor
    · intro h
      cases h
    · rintro ⟨w, hw, -⟩
      cases hw

/-- A choice comes to what the branch comes to that is taken. -/
theorem cond_visits {a b c : NodeId} (hn : ctx.nodes.get? id = some (.cond a b c)) {w : Visit}
    (hw : w ∈ visits ctx rec id s) :
    w = (a, s) ∨ (w.1 = b ∨ w.1 = c) ∧ step ctx rec id s = rec w.1 w.2 := by
  unfold visits at hw
  rw [hn] at hw
  rw [step_of_get? hn, rule, cond, ← bind_assoc, bind_apply]
  rcases List.mem_append.mp hw with hw | hw
  · left
    unfold childVisit at hw
    by_cases he : ctx.nodes.isEmpty a = true
    · rw [if_pos he] at hw
      cases hw
    · rw [if_neg he] at hw
      exact List.mem_singleton.mp hw
  · right
    generalize (required ctx rec .ifCondition a >>= value) s = o at hw ⊢
    cases o with
    | done v u =>
      obtain rfl := List.mem_singleton.mp hw
      dsimp only
      by_cases hv : v.truthy = true
      · rw [if_pos hv, if_pos hv]
        exact ⟨Or.inl rfl, rfl⟩
      · rw [if_neg hv, if_neg hv]
        exact ⟨Or.inr rfl, rfl⟩
    | _ => cases hw

/-- A choice that returns has a branch that returns. -/
theorem exists_of_cond_eq_ret {a b c : NodeId} {v : ValueId}
    (hn : ctx.nodes.get? id = some (.cond a b c)) (h : step ctx rec id s = .done (.ret v) t) :
    ∃ w ∈ visits ctx rec id s, (w.1 = b ∨ w.1 = c) ∧ rec w.1 w.2 = .done (.ret v) t := by
  rw [step_of_get? hn, rule, cond, ← bind_assoc] at h
  obtain ⟨i, u, hi, hbranch⟩ := done_bind h
  unfold visits
  rw [hn]
  dsimp only
  rw [hi]
  refine ⟨_, List.mem_append_right _ (List.mem_singleton_self _), ?_⟩
  by_cases hv : i.truthy = true
  · rw [if_pos hv] at hbranch ⊢
    exact ⟨Or.inl rfl, hbranch⟩
  · rw [if_neg hv] at hbranch ⊢
    exact ⟨Or.inr rfl, hbranch⟩

/-- The flow of most nodes is never a return. -/
theorem straight_rule (hc : n.kind ≠ .conditional) (hs : n.kind ≠ .suite) (hr : n.kind ≠ .ret) :
    Straight (rule ctx rec n) := by
  cases n with
  | empty => exact straight_pure _
  | ident name => exact straight_ident name
  | int n => exact straight_produce _
  | float x => exact straight_produce _
  | nil => exact straight_pure _
  | unary op a => exact straight_bind fun v => straight_bind fun w => straight_produce w
  | binary op a b =>
    exact straight_bind fun v => straight_bind fun w => straight_bind fun r => straight_produce r
  | assign target a => exact straight_assign target a
  | print a => exact straight_print a
  | cond a b c => exact absurd rfl hc
  | suite r => exact absurd rfl hs
  | funcDef name params body => exact straight_funcDef name params body
  | call callee args => exact straight_call callee args
  | ret a => exact absurd rfl hr
  | paramList r => exact straight_pure _

/-- A return that is not the node itself is one of the statements of a block or the branch of a
choice that is taken. -/
theorem exists_visit_of_ret {v : ValueId} (hn : ctx.nodes.get? id = some n) (hr : n.kind ≠ .ret)
    (h : step ctx rec id s = .done (.ret v) t) :
    n.kind ≠ .call ∧ ∃ w ∈ visits ctx rec id s, rec w.1 w.2 = .done (.ret v) t := by
  by_cases hs : n.kind = .suite
  · cases n with
    | suite r => exact ⟨nofun, (suite_eq_ret_iff hn).mp h⟩
    | _ => cases hs
  · by_cases hc : n.kind = .conditional
    · cases n with
      | cond a b c =>
        obtain ⟨w, hw, -, he⟩ := exists_of_cond_eq_ret hn h
        exact ⟨nofun, w, hw, he⟩
      | _ => cases hc
    · rw [step_of_get? hn] at h
      exact (straight_rule hc hs hr h).elim

/-- **The two reports of a return agree.**  If the flow of an evaluation is a return, then the
slot of the top frame holds its value. -/
theorem nested_returned_of_ret {v : ValueId} (h : nested ctx fuel id s = .done (.ret v) t) :
    t.env.top.returned = some v := by
  induction fuel generalizing id s t with
  | zero => cases h
  | succ fuel ih =>
    have hend : (step ctx (nested ctx fuel) id s).state? = some t := state?_of_done h
    obtain ⟨n, hn⟩ := exists_node_of_ends hend
    have hstep : step ctx (nested ctx fuel) id s = .done (.ret v) t := h
    by_cases hr : n.kind = .ret
    · obtain ⟨u, -, hclose⟩ := runs_step hn s hend
      rw [hstep] at hclose
      cases hclose with
      | same _ hne => exact absurd hr hne
      | ret v => rfl
    · obtain ⟨-, w, -, he⟩ := exists_visit_of_ret hn hr hstep
      exact ih he

theorem returned_of_ret {v : ValueId} (h : eval ctx id s = .done (.ret v) t) :
    t.env.top.returned = some v := nested_returned_of_ret h

end Eval

end TreeWalk
