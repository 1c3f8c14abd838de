import TreeWalk.Proofs.Direct.Rules
import TreeWalk.Proofs.Eval.Machine

/-!
# Evaluating nodes comes to the same as direct evaluation

The main statement is `ending_run`: laying a program out and evaluating its nodes prints the
same and ends the same way as evaluating its tree.

## Two recursions

Direct evaluation recurses on the tree, and for calls on the number of frames that may
still be pushed.  Evaluation of nodes recurses on a bound, of which `room * size + index` is
enough for a node: children have smaller numbers, and a body may have any number, but is
entered with less room.  So the induction on the tree is `alike_evaluate` and knows of
calls only that they enter bodies alike, and the induction on the room is `entersAlike`.
-/

namespace TreeWalk

namespace Direct

variable {ctx : Context} {limit room : Nat} {id : NodeId} {enter : Entry}

/-! ## The induction on the tree -/

section Trees

variable {k bound : Nat} {node : Node}

/-- What is enough for a node leaves enough for its children. -/
theorem bound_of_child (hl : ctx.layout.Sound) (hn : ctx.nodes.get? id = some node) {c : NodeId}
    (hc : c ∈ node.children) (hlt : bound + id.index < k + 1) : bound + c.index < k := by
  have hci : c.index < id.index := hl.nodes.children_lt hn c hc
  omega

/-- What is enough for a node leaves enough for the items of its list. -/
theorem bound_of_item (hl : ctx.layout.Sound) (hn : ctx.nodes.get? id = some node) {r : NodeRange}
    (hr : node.range? = some r) {ids : List NodeId} (hids : ctx.nodes.list? r = some ids)
    (hlt : bound + id.index < k + 1) : ∀ i ∈ ids, bound + i.index < k := by
  obtain ⟨is, his, hlt'⟩ := hl.nodes.items_lt hn hr
  have heq : is = ids := Option.some.inj (his.symm.trans hids)
  intro i hi
  have hii : i.index < id.index := hlt' i (heq ▸ hi)
  omega

mutual

/-- A node that stands for a tree is evaluated like the tree, if bodies are entered alike. -/
theorem alike_evaluate (hl : ctx.layout.Sound)
    (he : ∀ ⦃k⦄, room * ctx.nodes.size ≤ k → EntersAlike ctx limit room (Eval.nested ctx k) enter) :
    ∀ {t : Tree} {id : NodeId} {fuel : Nat}, ctx.layout.Holds t id →
      room * ctx.nodes.size + id.index < fuel →
      Alike ctx limit room (Eval.nested ctx fuel) id (evaluate ctx.resultBinding enter t)
  | .ident name, id, fuel, ⟨n, hn, hname⟩, hlt => by
    obtain ⟨k, rfl, hk⟩ := Eval.nested_of_lt hlt
    intro s d hm
    rw [hk, Eval.step_of_get? hn, evaluate]
    exact follows_ident hm hname
  | .int n, id, fuel, hn, hlt => by
    obtain ⟨k, rfl, hk⟩ := Eval.nested_of_lt hlt
    intro s d hm
    rw [hk, Eval.step_of_get? hn, evaluate]
    exact follows_produce hm (.int n)
  | .float x, id, fuel, hn, hlt => by
    obtain ⟨k, rfl, hk⟩ := Eval.nested_of_lt hlt
    intro s d hm
    rw [hk, Eval.step_of_get? hn, evaluate]
    exact follows_produce hm (.float x.value)
  | .nil, id, fuel, hn, hlt => by
    obtain ⟨k, rfl, hk⟩ := Eval.nested_of_lt hlt
    intro s d hm
    rw [hk, Eval.step_of_get? hn, evaluate]
    exact follows_pure hm (Option.Rel.some hm.nil)
  | .unary op a, id, fuel, ⟨i, hn, ha⟩, hlt => by
    obtain ⟨k, rfl, hk⟩ := Eval.nested_of_lt hlt
    intro s d hm
    rw [hk, Eval.step_of_get? hn, evaluate]
    exact follows_unary hm ha.isEmpty_eq
      (alike_evaluate hl he ha (bound_of_child hl hn (by simp [Node.children]) hlt)) op
  | .binary op a b, id, fuel, ⟨i, j, hn, ha, hb⟩, hlt => by
    obtain ⟨k, rfl, hk⟩ := Eval.nested_of_lt hlt
    intro s d hm
    rw [hk, Eval.step_of_get? hn, evaluate]
    exact follows_binary hm
      ha.isEmpty_eq (alike_evaluate hl he ha (bound_of_child hl hn (by simp [Node.children]) hlt))
      hb.isEmpty_eq (alike_evaluate hl he hb (bound_of_child hl hn (by simp [Node.children]) hlt))
      op
  | .assign target value, id, fuel, ⟨i, j, hn, ht, hv⟩, hlt => by
    obtain ⟨k, rfl, hk⟩ := Eval.nested_of_lt hlt
    intro s d hm
    rw [hk, Eval.step_of_get? hn, evaluate]
    exact follows_assign hm hl.names ht hv.isEmpty_eq
      (alike_evaluate hl he hv (bound_of_child hl hn (by simp [Node.children]) hlt))
  | .print none, id, fuel, ⟨i, hn, hi⟩, hlt => by
    obtain ⟨k, rfl, hk⟩ := Eval.nested_of_lt hlt
    have hempty : ctx.nodes.isEmpty i = true := NodeStore.isEmpty_of_get? hi
    intro s d hm
    rw [hk, Eval.step_of_get? hn, evaluate, Eval.rule, Eval.print, if_pos hempty]
    exact (follows_emit hm "").bind fun _ _ _ _ ht _ _ => follows_pure ht Option.Rel.none
  | .print (some a), id, fuel, ⟨i, hn, ha⟩, hlt => by
    obtain ⟨k, rfl, hk⟩ := Eval.nested_of_lt hlt
    have ha : ctx.layout.Holds a i := ha
    intro s d hm
    rw [hk, Eval.step_of_get? hn, evaluate]
    exact follows_print hm ha.isEmpty_eq
      (alike_evaluate hl he ha (bound_of_child hl hn (by simp [Node.children]) hlt))
  | .cond test thenBranch elseBranch, id, fuel, ⟨i, j, m, hn, hc, ht, ho⟩, hlt => by
    obtain ⟨k, rfl, hk⟩ := Eval.nested_of_lt hlt
    intro s d hm
    rw [hk, Eval.step_of_get? hn, evaluate]
    exact follows_cond hm hc.isEmpty_eq
      (alike_evaluate hl he hc (bound_of_child hl hn (by simp [Node.children]) hlt))
      (alike_evaluate hl he ht (bound_of_child hl hn (by simp [Node.children]) hlt))
      (alike_evaluateElse hl he ho (bound_of_child hl hn (by simp [Node.children]) hlt))
  | .suite ts, id, fuel, ⟨r, ids, hn, hr, hs⟩, hlt => by
    obtain ⟨k, rfl, hk⟩ := Eval.nested_of_lt hlt
    intro s d hm
    rw [hk, Eval.step_of_get? hn, evaluate]
    exact follows_suite hm hl.names hr hs (allAlike hl he hs (bound_of_item hl hn rfl hr hlt))
  | .funcDef name params body, id, fuel, ⟨n, i, j, hn, hname, hp, hb⟩, hlt => by
    obtain ⟨k, rfl, hk⟩ := Eval.nested_of_lt hlt
    intro s d hm
    rw [hk, Eval.step_of_get? hn, evaluate]
    exact follows_funcDef hm hl.names hname hp hb
  | .call callee none, id, fuel, ⟨n, i, hn, hname, hi⟩, hlt => by
    obtain ⟨k, rfl, hk⟩ := Eval.nested_of_lt hlt
    have hitems : Eval.listItems ctx .badArguments i = pure [] := by
      unfold Eval.listItems
      rw [Eval.node_of_get? hi, pure_bind]
    intro s d hm
    rw [hk, Eval.step_of_get? hn]
    exact follows_call hm hl.names (he (by omega)) hname hitems List.Forall₂.nil
  | .call callee (some ts), id, fuel, ⟨n, i, hn, hname, r, ids, hi, hr, hs⟩, hlt => by
    obtain ⟨k, rfl, hk⟩ := Eval.nested_of_lt hlt
    have hitems : Eval.listItems ctx .badArguments i = pure ids := by
      unfold Eval.listItems
      rw [Eval.node_of_get? hi, pure_bind]
      exact Eval.items_of_list? hr
    have hargs := bound_of_child hl hn (c := i) (by simp [Node.children]) hlt
    intro s d hm
    rw [hk, Eval.step_of_get? hn]
    refine follows_call hm hl.names (he (by omega)) hname hitems ?_
    exact allAlike hl he hs (bound_of_item hl hi rfl hr (by omega))
  | .ret none, id, fuel, ⟨i, hn, hi⟩, hlt => by
    obtain ⟨k, rfl, hk⟩ := Eval.nested_of_lt hlt
    intro s d hm
    rw [hk, Eval.step_of_get? hn, evaluate]
    exact follows_ret_empty hm (NodeStore.isEmpty_of_get? hi)
  | .ret (some value), id, fuel, ⟨i, hn, hv⟩, hlt => by
    obtain ⟨k, rfl, hk⟩ := Eval.nested_of_lt hlt
    have hv : ctx.layout.Holds value i := hv
    intro s d hm
    rw [hk, Eval.step_of_get? hn, evaluate]
    exact follows_ret hm hv.isEmpty_eq
      (alike_evaluate hl he hv (bound_of_child hl hn (by simp [Node.children]) hlt))

theorem alike_evaluateElse (hl : ctx.layout.Sound)
    (he : ∀ ⦃k⦄, room * ctx.nodes.size ≤ k → EntersAlike ctx limit room (Eval.nested ctx k) enter) :
    ∀ {o : Option Tree} {id : NodeId} {fuel : Nat}, ctx.layout.HoldsOption o id →
      room * ctx.nodes.size + id.index < fuel →
      Alike ctx limit room (Eval.nested ctx fuel) id (evaluateElse ctx.resultBinding enter o)
  | none, id, fuel, hn, hlt => by
    obtain ⟨k, rfl, hk⟩ := Eval.nested_of_lt hlt
    intro s d hm
    rw [hk, Eval.step_of_get? hn, evaluateElse]
    exact follows_pure hm Option.Rel.none
  | some t, id, fuel, ht, hlt => by
    rw [evaluateElse]
    exact alike_evaluate hl he ht hlt

theorem allAlike (hl : ctx.layout.Sound)
    (he : ∀ ⦃k⦄, room * ctx.nodes.size ≤ k → EntersAlike ctx limit room (Eval.nested ctx k) enter) :
    ∀ {ts : List Tree} {ids : List NodeId} {fuel : Nat}, ctx.layout.HoldsList ts ids →
      (∀ i ∈ ids, room * ctx.nodes.size + i.index < fuel) →
      AllAlike ctx limit room (Eval.nested ctx fuel) ctx.resultBinding enter ids ts
  | [], [], _, _, _ => List.Forall₂.nil
  | _ :: _, _ :: _, _, ⟨ht, hts⟩, hlt =>
    List.Forall₂.cons
      ⟨ht.isEmpty_eq, alike_evaluate hl he ht (hlt _ (List.mem_cons_self ..))⟩
      (allAlike hl he hts fun i hi => hlt i (List.mem_cons_of_mem _ hi))

end

end Trees

/-! ## The induction on the room -/

/-- How bodies are run when so many more frames may be pushed. -/
def entry (settings : Settings) : Nat → Entry
  | 0 => refuse settings.limit
  | frames + 1 => inFrame (evaluateWithin settings frames)

theorem evaluateWithin_eq (settings : Settings) (frames : Nat) :
    evaluateWithin settings frames = evaluate settings.resultBinding (entry settings frames) := by
  cases frames <;> rfl

/-- A frame was pushed in both states, and the parameters are bound in it. -/
theorem matches_push (hl : ctx.layout.Sound) {s : TreeWalk.State} {d : State} {ns : List Name}
    {ss : List String} {ids : List ValueId} {values : List Value}
    (hm : Matches ctx.layout limit (room + 1) s d) (hns : List.Forall₂ ctx.names.Holds ns ss)
    (hids : HandlesMatch s.values ids values) :
    ∃ env, s.env.push = .ok env ∧ ∀ peak,
      Matches ctx.layout limit room { s with env := env.bindAll ns ids, peak := peak }
        (d.push (Frame.fresh.bindAll (ss.zip values))) := by
  have hlimit : s.env.limit = limit := hm.limit_eq
  have hdepth : s.env.depth + (room + 1) = limit := hm.depth_add
  refine ⟨_, if_pos (by omega), fun peak => ?_⟩
  have hpushed : Matches ctx.layout limit room
      { s with
        env := { s.env with top := .fresh, below := s.env.top :: s.env.below }
        peak := peak }
      (d.push .fresh) :=
    { hm with
      top := frameMatches_fresh
      below := hm.frames
      depth_add := by
        show s.env.below.length + 1 + room = limit
        change s.env.below.length + (room + 1) = limit at hdepth
        omega }
  exact matches_bindAll hl.names hns hpushed hids

@[simp] theorem printer_pop (d : State) : d.pop.printer = d.printer := by
  unfold State.pop
  split <;> rfl

/-- Bodies are entered alike whatever room there is, since one frame less is left for the
calls in a body than for the call of it. -/
theorem entersAlike (hl : ctx.layout.Sound) (settings : Settings)
    (hb : ctx.resultBinding = settings.resultBinding) :
    ∀ (room : Nat) ⦃k : Nat⦄, room * ctx.nodes.size ≤ k →
      EntersAlike ctx settings.limit room (Eval.nested ctx k) (entry settings room)
  | 0, k, _, s, d, ns, ss, ids, values, body, t, hm, _, _, _ => by
    have hdepth : s.env.depth + 0 = settings.limit := hm.depth_add
    have hlimit : s.env.limit = settings.limit := hm.limit_eq
    have hpush : s.env.push = .error (.recursionLimitExceeded settings.limit) := by
      unfold Env.push
      rw [if_neg (by omega), hlimit]
    unfold Eval.inFrame
    rw [hpush]
    exact .failed _ hm.printer
  | room + 1, k, hk, s, d, ns, ss, ids, values, body, t, hm, hns, hids, ht => by
    have hsize : (room + 1) * ctx.nodes.size = room * ctx.nodes.size + ctx.nodes.size :=
      Nat.succ_mul room ctx.nodes.size
    have hlt : room * ctx.nodes.size + body.index < k := by
      have hbody : body.index < ctx.nodes.size := ht.index_lt
      omega
    have hroom : room < settings.limit := by
      have hdepth : s.env.depth + (room + 1) = settings.limit := hm.depth_add
      omega
    have halike := alike_evaluate hl (entersAlike hl settings hb room) ht hlt
    rw [hb, ← evaluateWithin_eq] at halike
    obtain ⟨env, hpush, hmatch⟩ := matches_push hl hm hns hids
    have h := halike (hmatch (max s.peak env.depth))
    unfold Eval.inFrame entry inFrame
    rw [hpush]
    dsimp only
    generalize Eval.nested ctx k body _ = o at h
    generalize evaluateWithin settings room t _ = r at h
    cases h with
    | done hm' hg hq => exact .done (hm'.pop hroom) hg (holds_getD hm'.nil hm'.top.returned)
    | failed e hp => exact .failed e (hp.trans (printer_pop _).symm)

/-! ## Runs -/

/-- The value of a run is the value of the flow. -/
theorem result_of_matches {vs : ValueStore} {flow : TreeWalk.Flow} {flow' : Flow}
    {s : TreeWalk.State} (hv : s.values = vs) (h : FlowMatches vs flow flow') :
    Eval.result flow s = .done flow'.value? s := by
  have hval := h.value?
  unfold Eval.result
  generalize flow.value? = o at hval
  generalize flow'.value? = o' at hval
  rcases hval with hid | _
  · exact Eval.value_bind (hv ▸ hid) _
  · rfl

/-- Whatever room there is, the bound of an evaluation is enough for every node. -/
theorem follows_eval (hl : ctx.layout.Sound) (settings : Settings)
    (hb : ctx.resultBinding = settings.resultBinding) {t : Tree} (ht : ctx.layout.Holds t id)
    {s : TreeWalk.State} {d : State} (hm : Matches ctx.layout settings.limit room s d) :
    Follows ctx.layout settings.limit room s.values FlowMatches (eval ctx id s)
      (evaluateWithin settings room t d) := by
  have hlimit : s.env.limit = settings.limit := hm.limit_eq
  have hid : id.index < ctx.nodes.size := ht.index_lt
  have hroom : room ≤ settings.limit := Nat.le_of_add_left_le (Nat.le_of_eq hm.depth_add)
  have hframes : room * ctx.nodes.size ≤ settings.limit * ctx.nodes.size :=
    Nat.mul_le_mul_right _ hroom
  have hsize : (settings.limit + 1) * ctx.nodes.size =
      settings.limit * ctx.nodes.size + ctx.nodes.size := Nat.succ_mul settings.limit ctx.nodes.size
  have hlt : room * ctx.nodes.size + id.index < Eval.fuel ctx s.env.limit := by
    unfold Eval.fuel
    rw [hlimit, hsize]
    omega
  rw [evaluateWithin_eq, ← hb]
  exact alike_evaluate hl (entersAlike hl settings hb room) ht hlt hm

/-- The run of a program looks from outside like the direct evaluation of its tree. -/
theorem ending_run {t : Tree} {p : Program} (h : Program.ofTree t = .ok p) (settings : Settings)
    (printer : Printer) : (p.run settings printer).ending? = some (run t settings printer) := by
  have hl : (p.context settings).layout.Sound := Program.sound_of_ofTree h
  have ht : (p.context settings).layout.Holds t p.root := Program.holds_of_ofTree h
  have hrun := follows_eval hl settings rfl ht (matches_fresh printer)
  unfold Program.run Eval.run run
  generalize eval (p.context settings) p.root _ = o at hrun ⊢
  generalize evaluateWithin settings settings.limit t _ = r at hrun ⊢
  cases hrun with
  | done hm _ hq =>
    dsimp only [Eval.finish]
    rw [result_of_matches rfl hq]
    exact congrArg some (Prod.ext rfl hm.printer)
  | failed e hp => exact congrArg some (Prod.ext rfl hp)

/-- **Laying a program out changes nothing.**  Every block is a program, whose run prints
what the direct evaluation of the block prints and ends in the same way, with the same value
or with the same error.  So does the run on a machine, unless it is given up because there are
more values than handles. -/
theorem run_ofTree_eq_run (ts : List Tree) (settings : Settings) (printer : Printer) :
    ∃ p, Program.ofTree (.suite ts) = .ok p ∧
      (p.run settings printer).ending? = some (run (.suite ts) settings printer) ∧
      (p.execute settings printer).OnMachine (p.run settings printer) := by
  obtain ⟨p, hp⟩ : ∃ p, Program.ofTree (.suite ts) = .ok p := ⟨_, rfl⟩
  exact ⟨p, hp, ending_run hp settings printer, p.onMachine_execute settings printer⟩

end Direct

end TreeWalk
