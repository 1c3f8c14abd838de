import TreeWalk.Proofs.Course
import TreeWalk.Proofs.Eval.Calls
import TreeWalk.Proofs.Eval.Standing

/-!
# The parameter list of a call

A frame keeps the bodies and the parameter lists of its functions in two maps, and a call
looks for the body and for the list along the stack, each on its own.

## What keeps the two together

A definition writes the body, and next to it either writes its list or removes the list that
the frame had.  Nothing else touches the two maps.  So in every frame the two are in step
(`InStep`): what a frame knows of a name it knows from one definition.

The nearest frame that has the body therefore has the list of the same definition, if that
declares one, and no frame nearer to the top has a list at all.  If the definition declares
none, the search goes on below: lists in lower frames stay visible, even though the function
to which they belong is hidden (`shadowedList`).
-/

namespace TreeWalk

namespace Eval

variable {ctx : Context} {rec : NodeId → Eval Flow} {s t : State} {id list body : NodeId}
  {name : Name} {params : Option (List String)} {f g : Frame}

/-! ## Definitions and frames -/

/-- A node that defines a function, with a list of parameters if there is one. -/
structure Defines (ctx : Context) (id : NodeId) (name : Name) (list body : NodeId)
    (params : Option (List String)) : Prop where
  /-- The node of the definition. -/
  node : ctx.nodes.get? id = some (.funcDef name list body)
  /-- The node of the list stands for the parameters, or is the empty node. -/
  params : ctx.layout.HoldsParams list params
  /-- The body is there. -/
  body : ∃ tr, ctx.layout.Holds tr body

/-- What a frame knows of a function is what one definition says of it. -/
def InStep (ctx : Context) (f : Frame) : Prop :=
  ∀ name : Name, f.functions[name]? = none ∧ f.params[name]? = none ∨
    ∃ id list body params, Defines ctx id name list body params ∧
      f.functions[name]? = some body ∧ f.params[name]? = params.map fun _ => list

/-- A node that defines a function and stands for a tree has what a definition needs. -/
theorem exists_defines (hp : Stands ctx id)
    (hn : ctx.nodes.get? id = some (.funcDef name list body)) :
    ∃ params, Defines ctx id name list body params := by
  obtain ⟨o, ho⟩ := hp
  obtain ⟨tr, rfl, htr, hkind⟩ := exists_tree_of_ne_empty ho hn nofun
  cases tr with
  | funcDef _ params trBody =>
    obtain ⟨_, _, _, hk, -, hparams, hbody⟩ := htr
    cases hn.symm.trans hk
    exact ⟨params, hn, hparams, trBody, hbody⟩
  | _ => cases hkind

/-- A frame stays in step if a definition settles one name and leaves the others alone. -/
theorem InStep.define (hf : InStep ctx f) (hd : Defines ctx id name list body params)
    (hbody : g.functions = f.functions.insert name body)
    (hlist : g.params[name]? = params.map fun _ => list)
    (hother : ∀ other ≠ name, g.params[other]? = f.params[other]?) : InStep ctx g := by
  intro other
  rw [hbody, Std.ExtTreeMap.getElem?_insert]
  by_cases he : other = name
  · subst he
    rw [if_pos (by simp)]
    exact Or.inr ⟨id, list, body, params, hd, rfl, hlist⟩
  · rw [if_neg (by simpa using fun h : name = other => he h.symm), hother other he]
    exact hf other

/-- A frame that is in step and has a body has it from a definition. -/
theorem InStep.exists_defines (hf : InStep ctx f) (h : f.functions[name]? = some body) :
    ∃ id list params, Defines ctx id name list body params ∧
      f.params[name]? = params.map fun _ => list := by
  rcases hf name with ⟨hnone, -⟩ | ⟨id, list, body', params, hd, hbody, hlist⟩
  · cases hnone.symm.trans h
  · obtain rfl : body' = body := Option.some.inj (hbody.symm.trans h)
    exact ⟨id, list, params, hd, hlist⟩

/-- Bodies and lists are in step in every frame of a run. -/
theorem frameInvariant_inStep : FrameInvariant ctx (Stands ctx) (InStep ctx) where
  asked := Stands.of_mem_asked
  body := by
    intro f name body hf hb
    obtain ⟨id, list, params, hd, -⟩ := hf.exists_defines hb
    obtain ⟨tr, htr⟩ := hd.body
    exact ⟨some tr, htr⟩
  fresh := fun name => Or.inl ⟨Std.ExtTreeMap.getElem?_empty, Std.ExtTreeMap.getElem?_empty⟩
  bind _ _ hf := hf
  markUnbound _ hf := hf
  signal _ hf := hf
  defineWith := by
    intro f id name list body m hp hn hlist hne hf
    obtain ⟨params, hd⟩ := exists_defines hp hn
    refine hf.define hd rfl ?_ ?_
    · cases params with
      | none => exact absurd (Option.some.inj (hlist.symm.trans hd.params)) hne
      | some ps => exact Std.ExtTreeMap.getElem?_insert_self
    · intro other hother
      refine Std.ExtTreeMap.getElem?_insert.trans (if_neg ?_)
      simpa using fun h : name = other => hother h.symm
  defineWithout := by
    intro f id name list body hp hn hlist hf
    obtain ⟨params, hd⟩ := exists_defines hp hn
    refine hf.define hd rfl ?_ ?_
    · cases params with
      | none => exact Std.ExtTreeMap.getElem?_erase_self
      | some ps =>
        obtain ⟨r, ids, hr, -⟩ := hd.params
        cases hlist.symm.trans hr
    · intro other hother
      refine Std.ExtTreeMap.getElem?_erase.trans (if_neg ?_)
      simpa using fun h : name = other => hother h.symm

/-! ## Resolution -/

theorem InStep.params_eq_none (hf : InStep ctx f) (h : f.functions[name]? = none) :
    f.params[name]? = none := by
  rcases hf name with ⟨-, hnone⟩ | ⟨id, list, body, params, -, hbody, -⟩
  · exact hnone
  · cases h.symm.trans hbody

/-- A list that a frame in step has is the list of a definition. -/
theorem InStep.exists_defines_of_params (hf : InStep ctx f) (h : f.params[name]? = some list) :
    ∃ id body ps, Defines ctx id name list body (some ps) := by
  rcases hf name with ⟨-, hnone⟩ | ⟨id, list', body, params, hd, -, hlist⟩
  · cases hnone.symm.trans h
  · cases params with
    | none => cases hlist.symm.trans h
    | some ps =>
      obtain rfl : list' = list := Option.some.inj (hlist.symm.trans h)
      exact ⟨id, body, ps, hd⟩

/-- The list of a name is that of the definition of its body, or what the frames below that
of the definition have. -/
theorem resolveParams_eq (h : ∀ f ∈ s.env.frames, InStep ctx f)
    (hb : s.env.resolveFunction name = some body) :
    ∃ above f below id list params, s.env.frames = above ++ f :: below ∧
      (∀ g ∈ above, g.functions[name]? = none) ∧ f.functions[name]? = some body ∧
      Defines ctx id name list body params ∧
      s.env.resolveParams name =
        (params.map fun _ => list).or (below.findSome? (·.params[name]?)) := by
  obtain ⟨above, f, below, hframes, hf, habove⟩ := List.findSome?_eq_some_iff.mp hb
  rw [hframes] at h
  have hstep : InStep ctx f := h f (by simp)
  obtain ⟨id, list, params, hd, hlist⟩ := hstep.exists_defines hf
  refine ⟨above, f, below, id, list, params, hframes, habove, hf, hd, ?_⟩
  -- a frame without the function has no list of that name either
  have hnone : above.findSome? (·.params[name]?) = none := by
    refine List.findSome?_eq_none_iff.mpr fun g hg => ?_
    exact (h g (List.mem_append_left _ hg)).params_eq_none (habove g hg)
  unfold Env.resolveParams
  rw [hframes, List.findSome?_append, hnone, Option.none_or, List.findSome?_cons, hlist]
  cases params <;> rfl

/-! ## Calls -/

/-- The values of arguments for parameters of given names, as many as there are names. -/
def argumentsFor (ctx : Context) (rec : NodeId → Eval Flow) (callee : Name) (args : NodeId)
    (names : List Name) : Eval (List Name × List ValueId) := do
  let name := ctx.names.lookup callee
  let values ← argumentValues ctx rec name 0 (← listItems ctx .badArguments args)
  if names.length = values.length then pure (names, values)
  else fail (.arityMismatch name names.length values.length)

/-- The parameters of a call are those that the list declares. -/
theorem arguments_eq {callee : Name} {args : NodeId} {ps : List String}
    (hl : s.env.resolveParams callee = some list) (hp : ctx.layout.HoldsParams list (some ps)) :
    ∃ names, List.Forall₂ ctx.names.Holds names ps ∧
      arguments ctx rec callee args s = argumentsFor ctx rec callee args names s := by
  obtain ⟨names, hnames, hps⟩ := Direct.paramNames_of_holds hp
  refine ⟨names, hps, ?_⟩
  unfold arguments argumentsFor
  rw [state_bind, hl]
  dsimp only
  rw [hnames, pure_bind]

theorem arguments_eq_nil {callee : Name} {args : NodeId}
    (hl : s.env.resolveParams callee = none) :
    arguments ctx rec callee args s = .done ([], []) s := by
  unfold arguments
  rw [state_bind, hl]
  rfl

/-- A call checks its arguments against the given parameters and binds them to these. -/
def BindsTo (ctx : Context) (callee : Name) (args body : NodeId) (ps : List String) (v : Visit) :
    Prop :=
  ∃ names, List.Forall₂ ctx.names.Holds names ps ∧
    eval ctx v.1 v.2 =
      callWith ctx (eval ctx) callee body (argumentsFor ctx (eval ctx) callee args names) v.2

/-- A call does nothing with its arguments.  It evaluates the body and nothing else, binds
nothing, and does not fail unless there is no frame for the body or the body fails. -/
structure IgnoresArguments (ctx : Context) (callee : Name) (body : NodeId) (v : Visit) : Prop where
  /-- Nothing is bound. -/
  eval_eq : eval ctx v.1 v.2 = callWith ctx (eval ctx) callee body (pure ([], [])) v.2
  /-- The body is all that is visited. -/
  visits_eq : visits ctx (eval ctx) v.1 v.2 = bodyVisit [] [] body v.2
  /-- What makes the call fail. -/
  failed : ∀ e t, eval ctx v.1 v.2 = .failed e t →
    e = .recursionLimitExceeded v.2.env.limit ∨
      ∃ w ∈ visits ctx (eval ctx) v.1 v.2, ∃ u, eval ctx w.1 w.2 = .failed e u

theorem bindsTo_of_resolveParams {callee : Name} {args : NodeId} {ps : List String}
    (hend : (eval ctx id s).state? = some t) (hn : ctx.nodes.get? id = some (.call callee args))
    (hb : s.env.resolveFunction callee = some body) (hl : s.env.resolveParams callee = some list)
    (hp : ctx.layout.HoldsParams list (some ps)) : BindsTo ctx callee args body ps (id, s) := by
  obtain ⟨names, hnames, hargs⟩ := @arguments_eq _ (eval ctx) _ _ _ args _ hl hp
  exact ⟨names, hnames, (eval_call hend hn hb).trans (callWith_congr hargs)⟩

theorem ignoresArguments_of_resolveParams {callee : Name} {args : NodeId}
    (hend : (eval ctx id s).state? = some t) (hn : ctx.nodes.get? id = some (.call callee args))
    (hb : s.env.resolveFunction callee = some body) (hl : s.env.resolveParams callee = none) :
    IgnoresArguments ctx callee body (id, s) := by
  have heval : eval ctx id s = callWith ctx (eval ctx) callee body (pure ([], [])) s :=
    (eval_call hend hn hb).trans (callWith_congr (arguments_eq_nil hl))
  have hvisits : visits ctx (eval ctx) id s = bodyVisit [] [] body s := by
    unfold visits
    rw [hn]
    dsimp only
    unfold callVisits callArgumentVisits
    rw [hb, hl]
    dsimp only
    rw [arguments_eq_nil hl]
    rfl
  refine ⟨heval, hvisits, fun e t he => ?_⟩
  rw [heval] at he
  rw [hvisits]
  exact callWith_failed he

/-- A body belongs to one definition of a program. -/
theorem eq_of_body {tr : Tree} {p : Program} {settings : Settings}
    (h : Program.ofTree tr = .ok p) (hd : Defines (p.context settings) id name list body params)
    {id' list' : NodeId} {name' : Name}
    (hn : (p.context settings).nodes.get? id' = some (.funcDef name' list' body)) : id' = id := by
  obtain ⟨trBody, hbody⟩ := hd.body
  have hne : body ≠ .empty := by
    intro he
    have hempty : p.nodes.isEmpty body = true :=
      (Program.sound_of_ofTree h).nodes.isEmpty_iff.mpr he
    cases hempty.symm.trans hbody.isEmpty_eq
  have hmem (n : Name) (l : NodeId) : body ∈ (Node.funcDef n l body).children := by
    simp [Node.children]
  exact NodeStore.eq_of_mem_children (Program.count_references_le h hne) hn hd.node
    (hmem name' list') (hmem name list)

/-- **The parameter list of a call.**  In the course of a run, the body that a call evaluates
belongs to one definition, which is that of the nearest frame that has the function.  If the
definition declares parameters, the call checks its arguments against these and binds them.
If it declares none, the lists of lower frames are visible, and the call goes by the first
that one of them has.  If there is none either, the call does nothing with its arguments. -/
theorem parameters_of_call {tr : Tree} {p : Program} {settings : Settings} {printer : Printer}
    (h : Program.ofTree tr = .ok p) {v : Visit} (hv : v ∈ p.course settings printer)
    {callee : Name} {args body : NodeId}
    (hn : (p.context settings).nodes.get? v.1 = some (.call callee args))
    (hbody : v.2.env.resolveFunction callee = some body) :
    ∃ above f below id list params, v.2.env.frames = above ++ f :: below ∧
      (∀ g ∈ above, g.functions[callee]? = none) ∧ f.functions[callee]? = some body ∧
      Defines (p.context settings) id callee list body params ∧
      (∀ id' name' list', (p.context settings).nodes.get? id' = some (.funcDef name' list' body) →
        id' = id) ∧
      (∀ ps, params = some ps → BindsTo (p.context settings) callee args body ps v) ∧
      (params = none → below.findSome? (·.params[callee]?) = none →
        IgnoresArguments (p.context settings) callee body v) ∧
      (params = none → ∀ list', below.findSome? (·.params[callee]?) = some list' →
        ∃ id' body' ps, Defines (p.context settings) id' callee list' body' (some ps) ∧
          BindsTo (p.context settings) callee args body ps v) := by
  obtain ⟨t, hend⟩ := Program.ends_of_mem_course h hv
  have hroot : Stands (p.context settings) p.root := ⟨some tr, Program.holds_of_ofTree h⟩
  obtain ⟨-, hstep⟩ := frameInvariant_inStep.course h hroot v hv
  obtain ⟨above, f, below, id, list, params, hframes, habove, hf, hd, hparams⟩ :=
    resolveParams_eq hstep hbody
  refine ⟨above, f, below, id, list, params, hframes, habove, hf, hd,
    fun _ _ _ hn' => eq_of_body h hd hn', ?_, ?_, ?_⟩
  · rintro ps rfl
    exact bindsTo_of_resolveParams hend hn hbody hparams hd.params
  · rintro rfl hnone
    rw [hnone] at hparams
    exact ignoresArguments_of_resolveParams hend hn hbody hparams
  · rintro rfl list' hlist'
    rw [hlist'] at hparams
    obtain ⟨g, hg, hgl⟩ := List.exists_of_findSome?_eq_some hlist'
    have hgstep : InStep (p.context settings) g := by
      refine hstep g ?_
      rw [hframes]
      exact List.mem_append_right _ (List.mem_cons_of_mem _ hg)
    obtain ⟨id', body', ps, hd'⟩ := hgstep.exists_defines_of_params hgl
    exact ⟨id', body', ps, hd', bindsTo_of_resolveParams hend hn hbody hparams hd'.params⟩

/-- A function with a parameter, and a function that defines one of the same name without a
parameter list and calls it. -/
def shadowedList : Tree :=
  .suite [.funcDef "f" (some ["a"]) (.suite []),
    .funcDef "g" none (.suite [.funcDef "f" none (.suite [.ret (some (.int 1))]),
      .ret (some (.call "f" none))]),
    .print (some (.call "g" none))]

/-- The program of `shadowedList`.  The call of the inner function is the node with index 9,
and the definition of the function that with index 8. -/
def shadowedListProgram : Program where
  names := (shadowedList.lower .fresh).2.names
  nodes := ⟨#[.empty, .suite ⟨0, 0⟩, .ident ⟨1⟩, .paramList ⟨0, 1⟩, .funcDef ⟨2⟩ ⟨3⟩ ⟨1⟩, .int 1,
    .ret ⟨5⟩, .suite ⟨1, 1⟩, .funcDef ⟨2⟩ ⟨0⟩ ⟨7⟩, .call ⟨2⟩ ⟨0⟩, .ret ⟨9⟩, .suite ⟨2, 2⟩,
    .funcDef ⟨3⟩ ⟨0⟩ ⟨11⟩, .call ⟨3⟩ ⟨0⟩, .print ⟨13⟩, .suite ⟨4, 3⟩],
    #[⟨2⟩, ⟨6⟩, ⟨8⟩, ⟨10⟩, ⟨4⟩, ⟨12⟩, ⟨14⟩]⟩
  root := ⟨15⟩

theorem ofTree_shadowedList : Program.ofTree shadowedList = .ok shadowedListProgram := by
  have hkind : shadowedList.kind = .suite := by decide
  have hroot : shadowedListProgram.root = (shadowedList.lower .fresh).1 := by decide +kernel
  have hnames : shadowedListProgram.names = (shadowedList.lower .fresh).2.names := by
    unfold shadowedListProgram
    dsimp only
  have hnodes : shadowedListProgram.nodes = (shadowedList.lower .fresh).2.nodes := by
    decide +kernel
  exact Program.ofTree_eq_ok_iff.mpr ⟨hkind, hroot, Program.layout_eq hnames hnodes⟩

/-- The inner function is called in the course of a run, and goes by the outer list. -/
theorem parameters_of_call_shadowedList :
    ∃ s, Program.ofTree shadowedList = .ok shadowedListProgram ∧
      (⟨9⟩, s) ∈ shadowedListProgram.course .default .silent ∧
      (shadowedListProgram.context .default).nodes.get? ⟨9⟩ = some (.call ⟨2⟩ ⟨0⟩) ∧
      s.env.resolveFunction ⟨2⟩ = some ⟨7⟩ ∧
      ∃ above f below id list params, s.env.frames = above ++ f :: below ∧
        Defines (shadowedListProgram.context .default) id ⟨2⟩ list ⟨7⟩ params ∧
        (params = none → ∀ list', below.findSome? (·.params[(⟨2⟩ : Name)]?) = some list' →
          ∃ id' body' ps,
            Defines (shadowedListProgram.context .default) id' ⟨2⟩ list' body' (some ps) ∧
            BindsTo (shadowedListProgram.context .default) ⟨2⟩ ⟨0⟩ ⟨7⟩ ps (⟨9⟩, s)) := by
  have hcall : (shadowedListProgram.context .default).nodes.get? ⟨9⟩ = some (.call ⟨2⟩ ⟨0⟩) := rfl
  have hvisit : (⟨9⟩, some ⟨7⟩) ∈ (shadowedListProgram.course .default .silent).map
        fun v => (v.1, v.2.env.resolveFunction ⟨2⟩) :=
    List.mem_of_getElem? (i := 3) (by decide +kernel)
  obtain ⟨⟨_, s⟩, hv, heq⟩ := List.mem_map.mp hvisit
  obtain ⟨rfl, hbody⟩ := Prod.mk.inj heq
  obtain ⟨above, f, below, id, list, params, hframes, -, -, hd, -, -, -, hbelow⟩ :=
    parameters_of_call ofTree_shadowedList hv hcall hbody
  exact ⟨s, ofTree_shadowedList, hv, hcall, hbody, above, f, below, id, list, params, hframes, hd,
    hbelow⟩

/-- The definition of the inner function declares no list, and yet a call without arguments
fails, since the outer list asks for one. -/
theorem shadowedList_arityMismatch :
    ∃ s t, Program.ofTree shadowedList = .ok shadowedListProgram ∧
      (⟨9⟩, s) ∈ shadowedListProgram.course .default .silent ∧
      (shadowedListProgram.context .default).nodes.get? ⟨9⟩ = some (.call ⟨2⟩ ⟨0⟩) ∧
      s.env.resolveFunction ⟨2⟩ = some ⟨7⟩ ∧
      Defines (shadowedListProgram.context .default) ⟨8⟩ ⟨2⟩ .empty ⟨7⟩ none ∧
      eval (shadowedListProgram.context .default) ⟨9⟩ s = .failed (.arityMismatch "f" 1 0) t := by
  have hvisit : (⟨9⟩, some ⟨7⟩, some (.error (.arityMismatch "f" 1 0))) ∈
      (shadowedListProgram.course .default .silent).map fun v =>
        (v.1, v.2.env.resolveFunction ⟨2⟩,
          (eval (shadowedListProgram.context .default) v.1 v.2).ending?.map Prod.fst) :=
    List.mem_of_getElem? (i := 3) (by decide +kernel)
  obtain ⟨⟨_, s⟩, hv, heq⟩ := List.mem_map.mp hvisit
  obtain ⟨rfl, heq⟩ := Prod.mk.inj heq
  obtain ⟨hbody, hending⟩ := Prod.mk.inj heq
  have hdefines : Defines (shadowedListProgram.context .default) ⟨8⟩ ⟨2⟩ .empty ⟨7⟩ none :=
    ⟨rfl, rfl, .suite [.ret (some (.int 1))], _, _, rfl, rfl, ⟨⟨5⟩, rfl, rfl⟩, trivial⟩
  dsimp only at hending
  generalize heval : eval (shadowedListProgram.context .default) ⟨9⟩ s = o at hending
  cases o with
  | failed e t =>
    cases hending
    exact ⟨s, t, ofTree_shadowedList, hv, rfl, hbody, hdefines, heval⟩
  | _ => cases hending

end Eval

end TreeWalk
