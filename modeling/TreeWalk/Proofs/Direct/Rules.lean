import TreeWalk.Proofs.Direct.Follows

/-!
# Rules that come to the same

Each rule of the evaluation of nodes follows the rule of direct evaluation for the tree
that the node stands for, provided that the children are evaluated alike and that calls
enter bodies alike.  Those are `Alike` and `EntersAlike`, and which evaluation of children
is meant is left open, so nothing here recurses.
-/

namespace TreeWalk

namespace Direct

variable {ctx : Context} {limit room : Nat} {rec : NodeId → TreeWalk.Eval TreeWalk.Flow}
  {id : NodeId} {m : Eval Flow} {binding : ResultBinding} {enter : Entry}

/-- The evaluation of a node and a direct evaluation come to the same in any states that
match. -/
def Alike (ctx : Context) (limit room : Nat) (rec : NodeId → TreeWalk.Eval TreeWalk.Flow)
    (id : NodeId) (m : Eval Flow) : Prop :=
  ∀ ⦃s : TreeWalk.State⦄ ⦃d : State⦄, Matches ctx.layout limit room s d →
    Follows ctx.layout limit room s.values FlowMatches (rec id s) (m d)

/-- Bodies are entered alike: in a frame of its own with the parameters bound, a body
follows the tree that it stands for. -/
def EntersAlike (ctx : Context) (limit room : Nat) (rec : NodeId → TreeWalk.Eval TreeWalk.Flow)
    (enter : Entry) : Prop :=
  ∀ ⦃s : TreeWalk.State⦄ ⦃d : State⦄ ⦃ns : List Name⦄ ⦃ss : List String⦄ ⦃ids : List ValueId⦄
    ⦃values : List Value⦄ ⦃body : NodeId⦄ ⦃t : Tree⦄,
    Matches ctx.layout limit room s d → List.Forall₂ ctx.names.Holds ns ss →
    HandlesMatch s.values ids values → ctx.layout.Holds t body →
    Follows ctx.layout limit room s.values (fun vs r v => vs.Holds (r.getD ValueId.nil) v)
      (Eval.inFrame ns ids (rec body) s) (enter (ss.zip values) t d)

/-! ## Rules without calls -/

section Rules

variable {s : TreeWalk.State} {d : State}

theorem get_bind {α : Type} (f : State → Eval α) (d : State) : (get >>= f) d = f d d := rfl

/-- A value and its handle, where `nil` stands for no value. -/
theorem holds_getD {vs : ValueStore} (hnil : vs.Holds ValueId.nil .nil) {o : Option ValueId}
    {p : Option Value} (h : Option.Rel vs.Holds o p) : vs.Holds (o.getD .nil) (p.getD .nil) := by
  rcases h with h | _
  · exact h
  · exact hnil

theorem follows_ident (hm : Matches ctx.layout limit room s d) {n : Name} {name : String}
    (hn : ctx.names.Holds n name) :
    Follows ctx.layout limit room s.values FlowMatches (Eval.ident ctx n s) (ident name d) := by
  have hr := hm.resolve hn
  have hname := hn.lookup_eq
  unfold Eval.ident ident
  rw [Eval.state_bind, get_bind, hname]
  generalize s.env.resolve n = o at hr
  generalize d.find? name = o' at hr
  match o, o', hr with
  | .ok _, some (.bound _), hr => exact follows_pure hm (Option.Rel.some hr)
  | .error .unbound, some .unbound, _ => exact follows_fail hm _
  | .error .notDefined, none, _ => exact follows_fail hm _

theorem follows_unary (hm : Matches ctx.layout limit room s d) {i : NodeId}
    (hi : ctx.nodes.isEmpty i = false) (h : Alike ctx limit room rec i m) (op : UnaryOp) :
    Follows ctx.layout limit room s.values FlowMatches (Eval.unary ctx rec op i s)
      ((do
        let v ← operand op.symbol (← m)
        return .normal (some (← ofExcept (Arithmetic.unary op v))) : Eval Flow) d) := by
  unfold Eval.unary
  refine follows_operand_bind hi op.symbol (h hm) fun v t e ht _ => ?_
  refine (follows_ofExcept ht _).bind fun w _ t e ht _ hw => ?_
  obtain rfl := hw
  exact follows_produce ht w

theorem follows_binary (hm : Matches ctx.layout limit room s d) {i j : NodeId} {m' : Eval Flow}
    (hi : ctx.nodes.isEmpty i = false) (h : Alike ctx limit room rec i m)
    (hj : ctx.nodes.isEmpty j = false) (h' : Alike ctx limit room rec j m') (op : BinaryOp) :
    Follows ctx.layout limit room s.values FlowMatches (Eval.binary ctx rec op i j s)
      ((do
        let v ← operand op.symbol (← m)
        let w ← operand op.symbol (← m')
        return .normal (some (← ofExcept (Arithmetic.binary op v w))) : Eval Flow) d) := by
  unfold Eval.binary
  refine follows_operand_bind hi op.symbol (h hm) fun v t e ht _ => ?_
  refine follows_operand_bind hj op.symbol (h' ht) fun w t e ht _ => ?_
  refine (follows_ofExcept ht _).bind fun r _ t e ht _ hr => ?_
  obtain rfl := hr
  exact follows_produce ht r

theorem follows_assign (hm : Matches ctx.layout limit room s d) (hc : ctx.names.Consistent)
    {i j : NodeId} {target : String} (ht : ctx.layout.IsIdent i target)
    (hj : ctx.nodes.isEmpty j = false) (h : Alike ctx limit room rec j m) :
    Follows ctx.layout limit room s.values FlowMatches (Eval.assign ctx rec i j s)
      ((do
        let v ← required .assignedValue (← m)
        modify (·.onTop (·.bind target v))
        return .normal (some v) : Eval Flow) d) := by
  obtain ⟨n, hi, hn⟩ := ht
  unfold Eval.assign
  rw [Eval.node_of_get? hi, pure_bind]
  refine follows_required_bind hj _ (h hm) fun v w t e ht _ hv => ?_
  exact .done (ht.onTop (ht.top.bind hc hn hv)) (.refl _) (Option.Rel.some hv)

theorem follows_print (hm : Matches ctx.layout limit room s d) {i : NodeId}
    (hi : ctx.nodes.isEmpty i = false) (h : Alike ctx limit room rec i m) :
    Follows ctx.layout limit room s.values FlowMatches (Eval.print ctx rec i s)
      ((do
        let v ← required .printArgument (← m)
        emit v.text
        return .normal none : Eval Flow) d) := by
  unfold Eval.print
  rw [hi, if_neg (by decide)]
  refine follows_required_bind hi _ (h hm) fun v w t e ht _ hv => ?_
  rw [Eval.value_bind hv]
  refine (follows_emit ht w.text).bind fun _ _ t e ht _ _ => ?_
  exact follows_pure ht Option.Rel.none

theorem follows_cond (hm : Matches ctx.layout limit room s d) {i j k : NodeId}
    {m' m'' : Eval Flow} (hi : ctx.nodes.isEmpty i = false) (h : Alike ctx limit room rec i m)
    (h' : Alike ctx limit room rec j m') (h'' : Alike ctx limit room rec k m'') :
    Follows ctx.layout limit room s.values FlowMatches (Eval.cond ctx rec i j k s)
      ((do
        let v ← required .ifCondition (← m)
        if v.truthy then m' else m'') d) := by
  unfold Eval.cond
  refine follows_required_bind hi _ (h hm) fun v w t e ht _ hv => ?_
  rw [Eval.value_bind hv]
  by_cases hw : w.truthy = true
  · rw [if_pos hw, if_pos hw]
    exact h' ht
  · rw [if_neg hw, if_neg hw]
    exact h'' ht

theorem markAssigned_of_ne {t : Tree} (h : t.kind ≠ .assignment) : markAssigned t = pure () := by
  cases t with
  | assign target value => exact absurd rfl h
  | _ => rfl

/-- Before a block runs, the same names are marked. -/
theorem follows_markAssigned (hc : ctx.names.Consistent) {ts : List Tree} {ids : List NodeId}
    (h : ctx.layout.HoldsList ts ids) (hm : Matches ctx.layout limit room s d) :
    Follows ctx.layout limit room s.values Same (Eval.markAssigned ctx ids s)
      (ts.forM markAssigned d) := by
  induction ts generalizing ids s d with
  | nil =>
    cases ids with
    | nil => exact follows_pure hm rfl
    | cons _ _ => exact h.elim
  | cons t rest ih =>
    cases ids with
    | nil => exact h.elim
    | cons id ids =>
      obtain ⟨ht, hrest⟩ := h
      show Follows _ _ _ _ _ _ ((markAssigned t >>= fun _ => rest.forM markAssigned) d)
      by_cases hk : t.kind = .assignment
      · cases t with
        | assign target value =>
          obtain ⟨i, j, hid, ⟨n, hi, hn⟩, -⟩ := ht
          rw [Eval.markAssigned_cons_assign hid hi]
          exact ih hrest (hm.onTop (hm.top.markUnbound hc hn))
        | _ => cases hk
      · obtain ⟨node, hid, hkind⟩ := ht.exists_node
        rw [Eval.markAssigned_cons_of_ne hid (hkind ▸ hk), markAssigned_of_ne hk, pure_bind]
        exact ih hrest hm

/-- Nodes are evaluated like trees, one by one, and none of them is empty. -/
def AllAlike (ctx : Context) (limit room : Nat) (rec : NodeId → TreeWalk.Eval TreeWalk.Flow)
    (binding : ResultBinding) (enter : Entry) : List NodeId → List Tree → Prop :=
  List.Forall₂ fun id t =>
    ctx.nodes.isEmpty id = false ∧ Alike ctx limit room rec id (evaluate binding enter t)

theorem follows_statements {ids : List NodeId} {ts : List Tree}
    (h : AllAlike ctx limit room rec binding enter ids ts)
    (hm : Matches ctx.layout limit room s d) :
    Follows ctx.layout limit room s.values FlowMatches (Eval.statements rec ids s)
      (evaluateStatements binding enter ts d) := by
  induction h generalizing s d with
  | nil => exact follows_pure hm Option.Rel.none
  | @cons id t ids ts ht _ ih =>
    rw [Eval.statements, evaluateStatements]
    refine (ht.2 hm).bind fun flow flow' s' d' hm' _ hq => ?_
    match flow, flow', hq with
    | .normal _, .normal _, _ => exact ih hm'
    | .ret v, .ret v', hv => exact follows_pure hm' hv

theorem follows_suite (hm : Matches ctx.layout limit room s d) (hc : ctx.names.Consistent)
    {r : NodeRange} {ids : List NodeId} {ts : List Tree} (hr : ctx.nodes.list? r = some ids)
    (hs : ctx.layout.HoldsList ts ids) (h : AllAlike ctx limit room rec binding enter ids ts) :
    Follows ctx.layout limit room s.values FlowMatches (Eval.suite ctx rec r s)
      ((do
        ts.forM markAssigned
        evaluateStatements binding enter ts : Eval Flow) d) := by
  unfold Eval.suite
  rw [Eval.items_of_list? hr, pure_bind]
  refine (follows_markAssigned hc hs hm).bind fun _ _ t e ht _ _ => ?_
  exact follows_statements h ht

theorem follows_funcDef (hm : Matches ctx.layout limit room s d) (hc : ctx.names.Consistent)
    {n : Name} {name : String} {i j : NodeId} {params : Option (List String)} {body : Tree}
    (hn : ctx.names.Holds n name) (hp : ctx.layout.HoldsParams i params)
    (hb : ctx.layout.Holds body j) :
    Follows ctx.layout limit room s.values FlowMatches (Eval.funcDef ctx n i j s)
      ((do
        modify (·.onTop (·.define name params body))
        return .normal none : Eval Flow) d) := by
  unfold Eval.funcDef
  cases params with
  | none =>
    rw [Eval.node_of_get? hp, pure_bind]
    exact .done (hm.onTop (hm.top.defineWithout hc hn hb)) (.refl _) Option.Rel.none
  | some ps =>
    have hlist := hp
    obtain ⟨r, ids, hi, -, -⟩ := hlist
    rw [Eval.node_of_get? hi, pure_bind]
    exact .done (hm.onTop (hm.top.defineWith hc hn hp hb)) (.refl _) Option.Rel.none

/-- Leaving the value of a `return`. -/
theorem follows_leave (hm : Matches ctx.layout limit room s d) {i : ValueId} {v : Value}
    (hv : s.values.Holds i v) :
    Follows ctx.layout limit room s.values FlowMatches
      ((do
        Eval.modifyEnv (·.signalReturn i)
        return .ret i : TreeWalk.Eval TreeWalk.Flow) s) (leave v d) :=
  .done (hm.onTop (hm.top.signalReturn hv)) (.refl _) hv

theorem follows_ret_empty (hm : Matches ctx.layout limit room s d) {i : NodeId}
    (hi : ctx.nodes.isEmpty i = true) :
    Follows ctx.layout limit room s.values FlowMatches (Eval.ret ctx rec i s) (leave .nil d) := by
  unfold Eval.ret
  rw [if_pos hi, pure_bind]
  exact follows_leave hm hm.nil

theorem follows_ret (hm : Matches ctx.layout limit room s d) {i : NodeId}
    (hi : ctx.nodes.isEmpty i = false) (h : Alike ctx limit room rec i m) :
    Follows ctx.layout limit room s.values FlowMatches (Eval.ret ctx rec i s)
      ((do
        let flow ← m
        leave (flow.value?.getD .nil) : Eval Flow) d) := by
  unfold Eval.ret
  rw [hi, if_neg (by decide)]
  refine (h hm).bind fun flow flow' t e ht _ hq => ?_
  exact follows_leave ht (holds_getD ht.nil hq.value?)

end Rules

/-! ## Calls -/

section Calls

variable {l : Layout} {s : TreeWalk.State} {d : State}

theorem matches_bindAll {ns : List Name} {ss : List String} {ids : List ValueId}
    {values : List Value} (hc : l.names.Consistent) (hns : List.Forall₂ l.names.Holds ns ss)
    (hm : Matches l limit room s d) (hids : HandlesMatch s.values ids values) :
    Matches l limit room { s with env := s.env.bindAll ns ids }
      { d with top := d.top.bindAll (ss.zip values) } := by
  induction hns generalizing s d ids values with
  | nil => exact hm
  | @cons n name _ _ hn _ ih =>
    cases hids with
    | nil => exact hm
    | cons hid hrest => exact ih (hm.onTop (hm.top.bind hc hn hid)) hrest

/-- Popping the frame of a call leaves room for one more. -/
theorem Matches.pop (h : Matches l limit room s d) (hroom : room < limit) :
    Matches l limit (room + 1) { s with env := s.env.pop } d.pop := by
  obtain ⟨hnil, -, hbelow, hprint, hlimit, hdepth⟩ := h
  obtain ⟨⟨top, below, _⟩, _, _, _⟩ := s
  obtain ⟨top', below', _⟩ := d
  cases hbelow with
  | nil =>
    have hzero : (0 : Nat) + room = limit := hdepth
    omega
  | @cons f g fs gs hfg hrest =>
    refine ⟨hnil, hfg, hrest, hprint, hlimit, ?_⟩
    have hlen : fs.length + 1 + room = limit := hdepth
    show fs.length + (room + 1) = limit
    omega

/-- The bindings of a call, once its function is known. -/
def bindings (binding : ResultBinding) (enter : Entry) (callee : String)
    (args : Option (List Tree)) : Eval (List (String × Value)) := do
  match (← get).params? callee with
  | none => pure []
  | some params => do
    let values ← evaluateArgs binding enter callee args
    if params.length = values.length then pure (params.zip values)
    else throw (.arityMismatch callee params.length values.length)

theorem evaluate_call (binding : ResultBinding) (enter : Entry) (callee : String)
    (args : Option (List Tree)) :
    evaluate binding enter (.call callee args) = (do
      match (← get).function? callee with
      | none => throw (.nameNotDefined callee)
      | some body => do
        let result ← bindings binding enter callee args >>= fun bs => enter bs body
        if binding = .enabled then modify (·.onTop (·.bind callee result))
        return .normal (some result)) := by
  rw [evaluate]
  refine bind_congr fun d => ?_
  cases d.function? callee with
  | none => rfl
  | some body =>
    unfold bindings
    simp only [bind_assoc]
    refine bind_congr fun e => ?_
    cases e.params? callee with
    | none => simp only [pure_bind]
    | some params =>
      simp only [bind_assoc]
      refine bind_congr fun values => ?_
      by_cases hlen : params.length = values.length
      · simp only [if_pos hlen, pure_bind]
      · simp only [if_neg hlen]

/-- The names that a parameter list declares stand for the parameters. -/
theorem paramNames_of_holds {list : NodeId} {ps : List String}
    (h : ctx.layout.HoldsParams list (some ps)) :
    ∃ ns, Eval.paramNames ctx list = pure ns ∧ List.Forall₂ ctx.names.Holds ns ps := by
  obtain ⟨r, ids, hlist, hr, hids⟩ := h
  have hnames : ∃ ns, Eval.identNames ctx ids = pure ns ∧ List.Forall₂ ctx.names.Holds ns ps := by
    clear hr
    induction hids with
    | nil => exact ⟨[], rfl, List.Forall₂.nil⟩
    | @cons id p ids ps hid _ ih =>
      obtain ⟨n, hn, hp⟩ := hid
      obtain ⟨ns, hns, hps⟩ := ih
      refine ⟨n :: ns, ?_, List.Forall₂.cons hp hps⟩
      rw [Eval.identNames, Eval.node_of_get? hn, pure_bind]
      show (Eval.identNames ctx ids >>= fun ns => pure (n :: ns)) = _
      rw [hns, pure_bind]
  obtain ⟨ns, hns, hps⟩ := hnames
  refine ⟨ns, ?_, hps⟩
  unfold Eval.paramNames Eval.listItems
  rw [Eval.node_of_get? hlist, pure_bind]
  dsimp only
  rw [Eval.items_of_list? hr, pure_bind, hns]

theorem evaluateArgs_eq (binding : ResultBinding) (enter : Entry) (callee : String)
    (args : Option (List Tree)) :
    evaluateArgs binding enter callee args =
      evaluateArguments binding enter callee 0 (args.getD []) := by
  cases args with
  | none => rw [evaluateArgs, Option.getD_none, evaluateArguments]
  | some ts => rw [evaluateArgs, Option.getD_some]

theorem follows_argumentValues {callee : String} {position : Nat} {ids : List NodeId}
    {ts : List Tree} (h : AllAlike ctx limit room rec binding enter ids ts)
    (hm : Matches ctx.layout limit room s d) :
    Follows ctx.layout limit room s.values HandlesMatch
      (Eval.argumentValues ctx rec callee position ids s)
      (evaluateArguments binding enter callee position ts d) := by
  induction h generalizing s d position with
  | nil =>
    rw [Eval.argumentValues, evaluateArguments]
    exact follows_pure hm List.Forall₂.nil
  | @cons id t ids ts ht _ ih =>
    rw [Eval.argumentValues, evaluateArguments]
    refine follows_required_bind ht.1 _ (ht.2 hm) fun i v s' d' hm' _ hv => ?_
    refine (ih hm').bind fun is vs s'' d'' hm'' hg hvs => ?_
    exact follows_pure hm'' (List.Forall₂.cons (hg hv) hvs)

/-- The names and handles that a call binds mean the strings and values that it binds. -/
def BindingsMatch (ctx : Context) (vs : ValueStore) (p : List Name × List ValueId)
    (bs : List (String × Value)) : Prop :=
  ∃ ss values, List.Forall₂ ctx.names.Holds p.1 ss ∧ HandlesMatch vs p.2 values ∧
    bs = ss.zip values

theorem follows_arguments (hm : Matches ctx.layout limit room s d) {n : Name} {callee : String}
    (hn : ctx.names.Holds n callee) {i : NodeId} {ids : List NodeId} {args : Option (List Tree)}
    (hi : Eval.listItems ctx .badArguments i = pure ids)
    (h : AllAlike ctx limit room rec binding enter ids (args.getD [])) :
    Follows ctx.layout limit room s.values (BindingsMatch ctx) (Eval.arguments ctx rec n i s)
      (bindings binding enter callee args d) := by
  have hp := hm.resolveParams hn
  unfold Eval.arguments bindings
  rw [Eval.state_bind, get_bind]
  generalize s.env.resolveParams n = o at hp
  generalize d.params? callee = o' at hp
  cases hp with
  | none => exact follows_pure hm ⟨[], [], List.Forall₂.nil, List.Forall₂.nil, rfl⟩
  | @some list ps hlist =>
    obtain ⟨ns, hns, hps⟩ := paramNames_of_holds hlist
    have hlen : ns.length = ps.length := hps.length_eq
    have hname : ctx.names.lookup n = callee := hn.lookup_eq
    dsimp only
    rw [hns, pure_bind, hi, pure_bind, evaluateArgs_eq, hname]
    refine (follows_argumentValues h hm).bind fun is vs t e ht _ hvs => ?_
    have hlen' : is.length = vs.length := hvs.length_eq
    rw [hlen, hlen']
    by_cases heq : ps.length = vs.length
    · rw [if_pos heq, if_pos heq]
      exact follows_pure ht ⟨ps, vs, hps, hvs, rfl⟩
    · rw [if_neg heq, if_neg heq]
      exact follows_fail ht _

theorem follows_call (hm : Matches ctx.layout limit room s d) (hc : ctx.names.Consistent)
    (he : EntersAlike ctx limit room rec enter) {n : Name} {callee : String}
    (hn : ctx.names.Holds n callee) {i : NodeId} {ids : List NodeId} {args : Option (List Tree)}
    (hi : Eval.listItems ctx .badArguments i = pure ids)
    (h : AllAlike ctx limit room rec ctx.resultBinding enter ids (args.getD [])) :
    Follows ctx.layout limit room s.values FlowMatches (Eval.call ctx rec n i s)
      (evaluate ctx.resultBinding enter (.call callee args) d) := by
  have hf := hm.resolveFunction hn
  have hname : ctx.names.lookup n = callee := hn.lookup_eq
  rw [evaluate_call]
  unfold Eval.call
  rw [Eval.state_bind, get_bind, hname]
  generalize s.env.resolveFunction n = o at hf
  generalize d.function? callee = o' at hf
  cases hf with
  | none => exact follows_fail hm _
  | @some body t hbody =>
    dsimp only
    rw [bind_assoc]
    refine (follows_arguments hm hn hi h).bind fun p bs s' d' hm' _ hq => ?_
    obtain ⟨ss, vs, hss, hvs, rfl⟩ := hq
    refine (he hm' hss hvs hbody).bind fun r v s'' d'' hm'' _ hv => ?_
    by_cases hb : ctx.resultBinding = .enabled
    · rw [if_pos hb, if_pos hb]
      exact .done (hm''.onTop (hm''.top.bind hc hn hv)) (.refl _) (Option.Rel.some hv)
    · rw [if_neg hb, if_neg hb]
      exact .done hm'' (.refl _) (Option.Rel.some hv)

end Calls

end Direct

end TreeWalk
