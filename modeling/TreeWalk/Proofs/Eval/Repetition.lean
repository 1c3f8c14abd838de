import TreeWalk.Proofs.Direct.Reflection
import TreeWalk.Proofs.Direct.Renaming
import TreeWalk.Tree.Position

/-!
# Calls can be repeated

A function has no state of its own.  If the arguments of a call only compute, and results are not
bound, the call can be made any number of times in a row: it yields the same value each time, or
fails with the same error, it prints the same lines, and it leaves the environment as it was
(`call_repeats`).

## What is not the same

Between two calls the store of values grows, so the second call yields another handle, and on the
way it binds other handles than the first.  And the printer has moved on.  The first is settled by
direct evaluation, which knows no handles: the state before each call matches the same state of
direct evaluation, since values that are stored stay where they are, and whatever an interpreter
comes through matches some such state (`Direct.Readable.exists_matches`).  The second is settled by
comparing a direct evaluation with itself, as one compares it with that of a renamed tree: two
evaluations from states that differ in their printers alone print the same lines
(`Direct.exists_lines`).
-/

namespace TreeWalk

/-! ## What was printed before does not matter -/

namespace Direct

/-- How a piece of direct evaluation looks from outside. -/
def ending {α : Type} : EStateM.Result EvalError State α → Except EvalError α × Printer
  | .ok a s => (.ok a, s.printer)
  | .error e s => (.error e, s.printer)

namespace Likeness

variable {b : ResultBinding} {first second : Printer}

/-- The likeness of a program and itself, from two printers. -/
def same (b : ResultBinding) (first second : Printer) : Likeness :=
  renamed Function.injective_id (fun _ => True) b b first second

theorem discreet_same (parts : List Tree) : Discreet (fun _ => True) b b parts :=
  ⟨fun _ _ => trivial, fun _ _ _ => Or.inl rfl⟩

theorem frames_same (f : Frame) : (same b first second).Frames f f where
  values _ _ := rfl
  functions x := by
    show Option.Rel _ f.functions[x]? f.functions[x]?
    cases f.functions[x]? with
    | none => exact .none
    | some t => exact .some ⟨(Tree.rename_id t).symm, discreet_same _⟩
  params x := by
    show f.params[x]? = f.params[x]?.map (·.map id)
    cases f.params[x]? with
    | none => rfl
    | some ps => rw [Option.map_some, List.map_id]
  returned := rfl

theorem states_same (d : State) :
    (same b first second).States { d with printer := first } { d with printer := second } where
  top := frames_same d.top
  below := List.forall₂_same.mpr fun f _ => frames_same f
  printer := ⟨[], rfl, rfl⟩

end Likeness

/-- Two evaluations from states that differ in their printers alone. -/
theorem ending_evaluateWithin (settings : Settings) (room : Nat) (t : Tree) (d : State)
    (first second : Printer) :
    ∃ r lines,
      ending (evaluateWithin settings room t { d with printer := first }) =
        (r, first.printAll lines) ∧
      ending (evaluateWithin settings room t { d with printer := second }) =
        (r, second.printAll lines) := by
  have h := Likeness.agree_evaluateWithin (b := settings.resultBinding) Function.injective_id first
    second (Likeness.discreet_same t.subtrees) settings.limit room (Likeness.states_same d)
  rw [Tree.rename_id] at h
  generalize evaluateWithin settings room t { d with printer := first } = o at h ⊢
  generalize evaluateWithin settings room t { d with printer := second } = o' at h ⊢
  cases h with
  | @ok a b s s' hst hab =>
    obtain rfl : a = b := hab
    obtain ⟨lines, hs, hs'⟩ := hst.printer
    exact ⟨.ok a, lines, Prod.ext rfl hs, Prod.ext rfl hs'⟩
  | error e hst =>
    obtain ⟨lines, hs, hs'⟩ := hst.printer
    exact ⟨.error e, lines, Prod.ext rfl hs,
      Prod.ext (congrArg Except.error (EvalError.rename_id e)) hs'⟩

/-- **What is printed does not depend on what was printed before.**  It is what a buffer keeps that
was empty. -/
theorem exists_lines (settings : Settings) (room : Nat) (t : Tree) (d : State) :
    ∃ r lines, ∀ printer,
      ending (evaluateWithin settings room t { d with printer := printer }) =
        (r, printer.printAll lines) := by
  obtain ⟨r, lines, hbuffer, -⟩ :=
    ending_evaluateWithin settings room t d (.buffer #[]) (.buffer #[])
  refine ⟨r, lines, fun printer => ?_⟩
  obtain ⟨r', lines', hbuffer', hprinter⟩ :=
    ending_evaluateWithin settings room t d (.buffer #[]) printer
  obtain ⟨rfl, hlines⟩ := Prod.mk.inj (hbuffer.symm.trans hbuffer')
  rw [Printer.printAll_buffer, Printer.printAll_buffer] at hlines
  obtain rfl : lines = lines' := by simpa using hlines
  exact hprinter

end Direct

/-! ## Calls and operations leave the environment alone -/

/-- An operation, or a call with operations for arguments. -/
def Tree.Calm : Tree → Prop
  | .call _ args => ∀ a ∈ args.getD [], a.isOperation = true
  | t => t.isOperation = true

theorem Tree.calm_of_isOperation {t : Tree} (h : t.isOperation = true) : t.Calm := by
  cases t with
  | call callee args => cases h
  | _ => exact h

/-- What is evaluated for a calm tree is calm. -/
theorem Tree.Calm.of_mem_asked {t : Tree} (h : t.Calm) {o : Option Tree} (ho : o ∈ t.asked) :
    ∃ u, o = some u ∧ u.Calm := by
  cases t with
  | unary op a =>
    obtain rfl := List.mem_singleton.mp ho
    exact ⟨a, rfl, calm_of_isOperation h⟩
  | binary op a b =>
    obtain ⟨ha, hb⟩ := Bool.and_eq_true_iff.mp (show (a.isOperation && b.isOperation) = true from h)
    rcases List.mem_pair.mp ho with rfl | rfl
    · exact ⟨a, rfl, calm_of_isOperation ha⟩
    · exact ⟨b, rfl, calm_of_isOperation hb⟩
  | call callee args =>
    obtain ⟨a, ha, rfl⟩ := List.mem_map.mp ho
    exact ⟨a, rfl, calm_of_isOperation (h a ha)⟩
  | ident _ => cases ho
  | int _ => cases ho
  | float _ => cases ho
  | nil => cases ho
  | _ => cases h

namespace Eval

variable {ctx : Context} {rec : NodeId → Eval Flow} {s₀ s t u : State} {vs : List Visit}
  {id : NodeId} {n : Node} {o : Outcome Flow}

/-- The kinds of node of which calm trees are made. -/
def CalmNode (n : Node) : Prop :=
  n.kind ∉ [.assignment, .print, .suite, .functionDefinition, .ret]

theorem calmNode_of_holds {tr : Tree} (h : tr.Calm) (htr : ctx.layout.Holds tr id)
    (hn : ctx.nodes.get? id = some n) : CalmNode n := by
  obtain ⟨m, hm, hkind⟩ := htr.exists_node
  obtain rfl : n = m := Option.some.inj (hn.symm.trans hm)
  unfold CalmNode
  rw [hkind]
  cases tr with
  | assign _ _ => cases h
  | print _ => cases h
  | cond _ _ _ => cases h
  | suite _ => cases h
  | funcDef _ _ _ => cases h
  | ret _ => cases h
  | _ => simp [Tree.kind]

theorem CalmNode.env_eq_of_change (hn : CalmNode n) (hb : ctx.resultBinding = .disabled)
    (h : Change ctx n s t) : t.env = s.env := by
  cases h with
  | alloc _ v => rfl
  | result _ i henabled => cases hb.symm.trans henabled
  | _ => exact absurd hn (by simp [CalmNode, Node.kind])

theorem CalmNode.env_eq_of_closes (hn : CalmNode n) (h : Closes n t o) (hu : o.state? = some u) :
    u.env = t.env := by
  cases h with
  | same _ _ =>
    cases hu
    rfl
  | failed e =>
    cases hu
    rfl
  | _ => exact absurd hn (by simp [CalmNode, Node.kind])

/-- Between its visits a calm node does nothing to the environment, and a body is left with the
environment in which it was entered. -/
theorem Threads.env_eq (hn : CalmNode n) (hb : ctx.resultBinding = .disabled)
    (hasked : ∀ v ∈ vs, v.1 ∈ ctx.asked n → ∀ t, (rec v.1 v.2).state? = some t → t.env = v.2.env)
    (hkeeps : ∀ id s t, (rec id s).state? = some t → KeepsFrames s t)
    (h : Threads ctx rec n s₀ s vs u) : u.env = s.env := by
  induction h with
  | refl s => rfl
  | change hc _ ih => exact (ih hasked).trans (hn.env_eq_of_change hb hc)
  | visit hid hend _ ih =>
    have hfirst := hasked _ (List.mem_cons_self ..) hid _ hend
    exact (ih fun v hv => hasked v (List.mem_cons_of_mem _ hv)).trans hfirst
  | enter _ _ hpush hend _ ih =>
    have hbody := left_env_eq hpush (hkeeps _ _ _ hend)
    exact (ih fun v hv => hasked v (List.mem_cons_of_mem _ hv)).trans hbody

/-- What is calm leaves the environment as it was, whether it goes through or fails. -/
theorem env_eq_of_calm (hb : ctx.resultBinding = .disabled) {tr : Tree} (htr : tr.Calm)
    (hid : ctx.layout.Holds tr id) (hend : (eval ctx id s).state? = some t) : t.env = s.env := by
  refine eval_induction (P := fun id s t => ∀ tr : Tree, tr.Calm → ctx.layout.Holds tr id →
    t.env = s.env) (fun id s t hend ih tr htr hid => ?_) hend tr htr hid
  obtain ⟨n, u, hn, hthreads, hcloses⟩ := exists_threads hend
  have hcalm : CalmNode n := calmNode_of_holds htr hid hn
  refine (hcalm.env_eq_of_closes hcloses hend).trans ?_
  refine hthreads.env_eq hcalm hb (fun v hv hasked w hw => ?_) fun _ _ _ => kept_keepsFrames.eval
  obtain ⟨_, ⟨⟩, o, ho, hv'⟩ := exists_child_of_mem_asked (o := some tr) hid hn hasked
  obtain ⟨child, rfl, hchild⟩ := htr.of_mem_asked ho
  exact ih v hv w hw child hchild hv'

/-! ## Calls in a row -/

/-- The state after a node was evaluated so many times in a row, whether the evaluations went
through or failed. -/
def again (ctx : Context) (id : NodeId) : Nat → State → Option State
  | 0, s => some s
  | k + 1, s => (again ctx id k s).bind fun t => (eval ctx id t).state?

/-- An evaluation ends in a state with a handle of a value, or with an error. -/
def Yields (o : Outcome Flow) (u : State) : Except EvalError Value → Prop
  | .ok v => ∃ i, o = .done (.normal (some i)) u ∧ u.values.Holds i v
  | .error e => o = .failed e u

theorem Yields.state? {r : Except EvalError Value} (h : Yields o u r) : o.state? = some u := by
  cases r with
  | ok v =>
    obtain ⟨i, rfl, -⟩ := h
    rfl
  | error e =>
    obtain rfl := h
    rfl

/-- A call that is done yields a value. -/
theorem exists_value_of_call {callee : Name} {args : NodeId} {flow : Flow}
    (hn : ctx.nodes.get? id = some (.call callee args)) (h : eval ctx id s = .done flow t) :
    ∃ i, flow = .normal (some i) := by
  obtain ⟨body, hbody⟩ := exists_body_of_call_done hn h
  rw [eval_call (state?_of_done h) hn hbody] at h
  obtain ⟨_, _, _, _, _, w, -, -, -, hflow⟩ := callWith_done h
  exact ⟨_, hflow⟩

variable {limit room : Nat} {d : Direct.State} {callee : String} {args : Option (List Tree)}

/-- More values and another printer make no difference to what a state says, but for the lines that
were printed. -/
theorem matches_of_env_eq (hm : Direct.Matches ctx.layout limit room s d) (henv : u.env = s.env)
    (hgrow : s.values.Grows u.values) :
    Direct.Matches ctx.layout limit room u { d with printer := u.printer } where
  nil := hgrow hm.nil
  top := by
    rw [henv]
    exact hm.top.of_grows hgrow
  below := by
    rw [henv]
    exact hm.below.imp fun _ _ => Direct.FrameMatches.of_grows hgrow
  printer := rfl
  limit_eq := henv ▸ hm.limit_eq
  depth_add := henv ▸ hm.depth_add

/-- **One call.**  From a state that differs from another in its values and its printer, a call
yields what its direct evaluation yields, prints the same lines, and leaves the environment. -/
theorem exists_yields_call (hl : ctx.layout.Sound) (hb : ctx.resultBinding = .disabled)
    (hid : ctx.layout.Holds (.call callee args) id) (hcalm : (Tree.call callee args).Calm)
    (hm : Direct.Matches ctx.layout limit room s d) {r : Except EvalError Direct.Flow}
    {lines : List String}
    (hlines : ∀ printer, Direct.ending (Direct.evaluateWithin ⟨limit, .disabled⟩ room
      (.call callee args) { d with printer := printer }) = (r, printer.printAll lines))
    (henv : u.env = s.env) (hgrow : s.values.Grows u.values) :
    ∃ w, Yields (eval ctx id u) w (r.map fun flow => flow.value?.getD .nil) ∧
      w.env = s.env ∧ w.printer = u.printer.printAll lines ∧ s.values.Grows w.values := by
  have hmatches := matches_of_env_eq hm henv hgrow
  have hfollows := Direct.follows_eval hl ⟨limit, .disabled⟩ hb hid hmatches
  have hending := hlines u.printer
  generalize heval : eval ctx id u = o at hfollows ⊢
  generalize Direct.evaluateWithin _ room _ _ = result at hfollows hending
  cases hfollows with
  | @done flow flow' w e hw hg hq =>
    obtain ⟨rfl, hprinter⟩ := Prod.mk.inj hending
    obtain ⟨i, rfl⟩ : ∃ i, flow = .normal (some i) := by
      obtain ⟨n, a, hn, -⟩ := hid
      exact exists_value_of_call hn heval
    have hvalue : w.values.Holds i (flow'.value?.getD .nil) := by
      match flow', hq with
      | .normal _, .some hv => exact hv
    have hwenv : w.env = u.env := env_eq_of_calm hb hcalm hid (state?_of_done heval)
    exact ⟨w, ⟨i, rfl, hvalue⟩, hwenv.trans henv, hw.printer.trans hprinter, hgrow.trans hg⟩
  | @failed err w e hp =>
    obtain ⟨rfl, hprinter⟩ := Prod.mk.inj hending
    have hend : (eval ctx id u).state? = some w := state?_of_failed heval
    have hwenv : w.env = u.env := env_eq_of_calm hb hcalm hid hend
    exact ⟨w, rfl, hwenv.trans henv, hp.trans hprinter, hgrow.trans (kept_grows.eval hend)⟩

/-- From a state in which everything can be read, a call of a calm tree can be repeated. -/
theorem exists_repeated (hl : ctx.layout.Sound) (hb : ctx.resultBinding = .disabled)
    (hid : ctx.layout.Holds (.call callee args) id) (hcalm : (Tree.call callee args).Calm)
    (hread : Direct.Readable ctx limit s) :
    ∃ r lines, ∀ k, ∃ u w, again ctx id k s = some u ∧
      u.env = s.env ∧ u.printer = s.printer.printAll (List.replicate k lines).flatten ∧
      Yields (eval ctx id u) w r ∧ w.env = s.env ∧ w.printer = u.printer.printAll lines := by
  obtain ⟨d, hd⟩ := hread.exists_matches hl.names
  obtain ⟨r, lines, hlines⟩ := Direct.exists_lines ⟨limit, .disabled⟩ (limit - s.env.depth)
    (.call callee args) d
  refine ⟨r.map fun flow => flow.value?.getD .nil, lines, fun k => ?_⟩
  have hstep {u : State} (henv : u.env = s.env) (hgrow : s.values.Grows u.values) :=
    exists_yields_call hl hb hid hcalm hd hlines henv hgrow
  -- the values of `s` are still there after `k` calls
  suffices hk : ∃ u, again ctx id k s = some u ∧ u.env = s.env ∧
      u.printer = s.printer.printAll (List.replicate k lines).flatten ∧
      s.values.Grows u.values by
    obtain ⟨u, hu, henv, hprinter, hgrow⟩ := hk
    obtain ⟨w, hw, hwenv, hwprinter, -⟩ := hstep henv hgrow
    exact ⟨u, w, hu, henv, hprinter, hw, hwenv, hwprinter⟩
  induction k with
  | zero => exact ⟨s, rfl, rfl, rfl, .refl _⟩
  | succ k ih =>
    obtain ⟨u, hu, henv, hprinter, hgrow⟩ := ih
    obtain ⟨w, hw, hwenv, hwprinter, hwgrow⟩ := hstep henv hgrow
    refine ⟨w, ?_, hwenv, ?_, hwgrow⟩
    · rw [again, hu, Option.bind_some, hw.state?]
    · rw [hwprinter, hprinter, ← Printer.printAll_append, List.replicate_succ', List.flatten_concat]

/-- A node that calls something stands for a call. -/
theorem exists_call_of_node {tr : Tree} {p : Program} (h : Program.ofTree tr = .ok p)
    {n : Name} {list : NodeId} (hn : p.nodes.get? id = some (.call n list)) :
    ∃ name args, p.layout.Holds (.call name args) id := by
  obtain ⟨o, ho⟩ := (Program.covered_of_ofTree h hn).resolve_left nofun
  cases o with
  | none => cases hn.symm.trans ho
  | some t =>
    obtain ⟨m, hm, hkind⟩ := Layout.Holds.exists_node ho
    cases hn.symm.trans hm
    cases t with
    | call name args => exact ⟨name, args, ho⟩
    | _ => cases hkind

/-- **Calls can be repeated.**  Where results are not bound, every call in a program whose arguments
are built from literals, variables and operators alone has a result and lines, in every state
through which an interpreter of the program comes: made any number of times in a row, the call
yields the same value each time, by some handle, or fails with the same error, prints the same
lines, and leaves the environment as it was before the first call.  A call is made in the same way
on a machine that has a handle for each value it leaves behind. -/
theorem call_repeats {tr : Tree} {p : Program} (h : Program.ofTree tr = .ok p) {printer : Printer}
    (hs : State.Met (p.context ⟨limit, .disabled⟩) limit printer s) {n : Name} {list : NodeId}
    (hn : p.nodes.get? id = some (.call n list)) :
    (∃ name args, p.layout.Holds (.call name args) id) ∧
    ∀ name args, p.layout.Holds (.call name args) id →
      (∀ a ∈ args.getD [], a.isOperation = true) →
      ∃ r lines, ∀ k, ∃ u w, again (p.context ⟨limit, .disabled⟩) id k s = some u ∧
        u.env = s.env ∧ u.printer = s.printer.printAll (List.replicate k lines).flatten ∧
        Yields (eval (p.context ⟨limit, .disabled⟩) id u) w r ∧
        w.env = s.env ∧ w.printer = u.printer.printAll lines ∧
        (w.Fits → Yields (Machine.eval (p.context ⟨limit, .disabled⟩) id u) w r) := by
  have hl : (p.context ⟨limit, .disabled⟩).layout.Sound := Program.sound_of_ofTree h
  have hread : Direct.Readable (p.context ⟨limit, .disabled⟩) limit s :=
    Direct.readable_of_met (Program.covered_of_ofTree h) hl.nodes.descends hs
  refine ⟨exists_call_of_node h hn, fun name args hcall hcalm => ?_⟩
  obtain ⟨r, lines, hrepeated⟩ := exists_repeated hl rfl hcall hcalm hread
  refine ⟨r, lines, fun k => ?_⟩
  obtain ⟨u, w, hu, henv, hprinter, hyields, hwenv, hwprinter⟩ := hrepeated k
  refine ⟨u, w, hu, henv, hprinter, hyields, hwenv, hwprinter, fun hfits => ?_⟩
  rw [(Machine.onMachine_eval _ id u).eq_of_fits hyields.state? hfits]
  exact hyields

/-- A function that prints its argument, assigns a variable and returns it, and a call. -/
def keeping : Tree :=
  .suite [.funcDef "f" (some ["n"]) (.suite [.print (some (.ident "n")),
    .assign "x" (.ident "n"), .ret (some (.ident "x"))]), .call "f" (some [.int 3])]

/-- The program of `keeping`.  The definition is the node with index 11, and the call is the one
with index 14. -/
def keepingProgram : Program where
  names := (keeping.lower .fresh).2.names
  nodes := ⟨#[.empty, .ident ⟨1⟩, .print ⟨1⟩, .ident ⟨1⟩, .ident ⟨2⟩, .assign ⟨4⟩ ⟨3⟩, .ident ⟨2⟩,
    .ret ⟨6⟩, .suite ⟨0, 3⟩, .ident ⟨1⟩, .paramList ⟨3, 1⟩, .funcDef ⟨3⟩ ⟨10⟩ ⟨8⟩, .int 3,
    .paramList ⟨4, 1⟩, .call ⟨3⟩ ⟨13⟩, .suite ⟨5, 2⟩],
    #[⟨2⟩, ⟨5⟩, ⟨7⟩, ⟨9⟩, ⟨12⟩, ⟨11⟩, ⟨14⟩]⟩
  root := ⟨15⟩

/-- The state in which the function of `keeping` is defined. -/
def afterDefinition : State :=
  (State.fresh 1 (.buffer #[])).write (.defineWith ⟨3⟩ ⟨10⟩ ⟨8⟩)

/-- The third of three calls has printed the same line and yields the same value as the first, also
on the machine. -/
theorem call_repeats_keeping :
    Program.ofTree keeping = .ok keepingProgram ∧
    State.Met (keepingProgram.context ⟨1, .disabled⟩) 1 (.buffer #[]) afterDefinition ∧
    ∃ u w, again (keepingProgram.context ⟨1, .disabled⟩) ⟨14⟩ 2 afterDefinition = some u ∧
      Yields (eval (keepingProgram.context ⟨1, .disabled⟩) ⟨14⟩ u) w (.ok (.int 3)) ∧
      w.env = afterDefinition.env ∧ w.printer = .buffer #["3", "3", "3"] ∧
      Yields (Machine.eval (keepingProgram.context ⟨1, .disabled⟩) ⟨14⟩ u) w (.ok (.int 3)) := by
  have hp : Program.ofTree keeping = .ok keepingProgram :=
    Program.ofTree_eq_of_nodes rfl (by decide +kernel) (by decide +kernel)
  have hmet : State.Met (keepingProgram.context ⟨1, .disabled⟩) 1 (.buffer #[]) afterDefinition :=
    .eval ⟨11⟩ .fresh rfl
  have hname : keepingProgram.layout.names.Holds ⟨3⟩ "f" := by
    unfold NameTable.Holds
    decide +kernel
  have hcall : keepingProgram.layout.Holds (.call "f" (some [.int 3])) ⟨14⟩ :=
    ⟨⟨3⟩, ⟨13⟩, rfl, hname, _, _, rfl, rfl, rfl, trivial⟩
  have hn : keepingProgram.nodes.get? ⟨14⟩ = some (.call ⟨3⟩ ⟨13⟩) := rfl
  obtain ⟨-, hrepeats⟩ := call_repeats hp hmet hn
  obtain ⟨r, lines, hall⟩ := hrepeats _ _ hcall (by decide)
  obtain ⟨_, w₀, ⟨⟩, -, -, hyields₀, -, hprinter₀, -⟩ := hall 0
  obtain ⟨u, w, hu, -, hprinter, hyields, hwenv, hwprinter, hmachine⟩ := hall 2
  -- the first call tells what there is to be repeated
  have hfirst : (eval (keepingProgram.context ⟨1, .disabled⟩) ⟨14⟩ afterDefinition).ending? =
      some (.ok (.normal (some ⟨1⟩)), .buffer #["3"]) := by decide +kernel
  have hvalue : ((eval (keepingProgram.context ⟨1, .disabled⟩) ⟨14⟩ afterDefinition).state?.bind
      (·.values.get? ⟨1⟩)) = some (.int 3) := by decide +kernel
  cases r with
  | error e =>
    rw [show eval _ _ _ = _ from hyields₀] at hfirst
    cases hfirst
  | ok v =>
    obtain ⟨i, heval, hv⟩ := hyields₀
    rw [heval] at hfirst hvalue
    obtain ⟨hi, hw₀⟩ := Prod.mk.inj (Option.some.inj hfirst)
    obtain rfl : i = ⟨1⟩ := Option.some.inj (Flow.normal.inj (Except.ok.inj hi))
    obtain rfl : v = .int 3 := Option.some.inj (hv.symm.trans hvalue)
    have hbuffer : afterDefinition.printer = .buffer #[] := rfl
    rw [hw₀, hbuffer, Printer.printAll_buffer] at hprinter₀
    obtain rfl : lines = ["3"] := by simpa using hprinter₀.symm
    have hfits : ∀ u ∈ again (keepingProgram.context ⟨1, .disabled⟩) ⟨14⟩ 2 afterDefinition,
        ∀ w ∈ (eval (keepingProgram.context ⟨1, .disabled⟩) ⟨14⟩ u).state?, w.Fits := by
      decide +kernel
    refine ⟨hp, hmet, u, w, hu, hyields, hwenv, ?_, hmachine (hfits u hu w hyields.state?)⟩
    rw [hwprinter, hprinter]
    rfl

end Eval

end TreeWalk
