import TreeWalk.Proofs.Arithmetic
import TreeWalk.Proofs.Eval.Handles
import TreeWalk.Proofs.Eval.ParameterLists
import TreeWalk.Proofs.Eval.Raising
import TreeWalk.Tree.Position

/-!
# Programs are well formed

A store of nodes can be put together in ways that no evaluation can make sense of.  Programs
are laid out from trees, and a tree leaves only one thing to complain about: a child that must
have a value may turn out to have none.

## The argument

An error is raised by a node that is visited, so it is enough to know two things of visits.
What is visited stands for something (`Stands`), so its slots hold what its kind asks for.
And what the frames hold comes from definitions (`InStep`), so parameter lists are lists of
identifiers.  What remains of the ways to raise a complaint about shape is `Raises.missing`.

If every child that must have a value is an expression, this way is closed too: what is
visited is a part of the tree (`PartOf`), and an expression that is done has a value
(`exists_value`), no matter what happened inside.
-/

namespace TreeWalk

/-- The errors that complain about the shape of a program: a node is malformed, or an operand
has no value. -/
def EvalError.AboutShape : EvalError → Prop
  | malformedNode _ => True
  | typeMismatch _ .missing => True
  | _ => False

/-- Operators that find their operands do not complain about shape. -/
theorem EvalError.OfOperation.not_aboutShape {e : EvalError} (h : e.OfOperation) :
    ¬ e.AboutShape := by
  cases e with
  | typeMismatch symbol operands =>
    cases operands with
    | missing => cases h
    | _ => exact id
  | malformedNode d => cases h
  | _ => exact id

/-- The parts of a child are parts of the tree. -/
theorem Tree.subtrees_subset_of_mem_asked {tr : Tree} {o : Option Tree} (h : o ∈ tr.asked) :
    Tree.subtreesOption o ⊆ tr.subtrees := by
  cases tr with
  | unary op operand =>
    obtain rfl := List.mem_singleton.mp h
    exact List.subset_cons_self _ _
  | binary op left right =>
    simp only [asked, List.mem_cons, List.not_mem_nil, or_false] at h
    rcases h with rfl | rfl <;> simp [subtrees, subtreesOption]
  | assign target value =>
    obtain rfl := List.mem_singleton.mp h
    exact List.subset_cons_self _ _
  | print argument =>
    obtain rfl := List.mem_singleton.mp h
    exact List.subset_cons_self _ _
  | cond test thenBranch elseBranch =>
    simp only [asked, List.mem_cons, List.not_mem_nil, or_false] at h
    refine fun v hv => List.mem_cons_of_mem _ ?_
    rw [List.mem_append, List.mem_append]
    rcases h with rfl | rfl | rfl
    · exact Or.inl (Or.inl hv)
    · exact Or.inl (Or.inr hv)
    · exact Or.inr hv
  | suite statements =>
    obtain ⟨u, hu, rfl⟩ := List.mem_map.mp h
    intro v hv
    refine List.mem_cons_of_mem _ ?_
    rw [subtreesList_eq]
    exact List.mem_flatMap.mpr ⟨u, hu, hv⟩
  | call callee args =>
    obtain ⟨u, hu, rfl⟩ := List.mem_map.mp h
    cases args with
    | none => cases hu
    | some ts =>
      intro v hv
      refine List.mem_cons_of_mem _ ?_
      rw [subtreesArgs, subtreesList_eq]
      exact List.mem_flatMap.mpr ⟨u, hu, hv⟩
  | ret value =>
    obtain rfl := List.mem_singleton.mp h
    exact List.subset_cons_self _ _
  | _ => cases h

namespace Eval

variable {α : Type} {ctx : Context} {rec : NodeId → Eval Flow} {s t : State} {id a c : NodeId}
  {n : Node} {tr u : Tree} {e : EvalError} {place : Place}

/-! ## Slots -/

/-- The arguments of a call that stands for a tree are a list. -/
theorem listItems_of_holdsArgs {args : Option (List Tree)} (h : ctx.layout.HoldsArgs args id) :
    ∃ ids, listItems ctx .badArguments id = pure ids := by
  unfold listItems
  cases args with
  | none =>
    rw [node_of_get? (show ctx.nodes.get? id = some .empty from h), pure_bind]
    exact ⟨[], rfl⟩
  | some ts =>
    obtain ⟨r, ids, hr, hids, -⟩ := h
    rw [node_of_get? (show ctx.nodes.get? id = some (.paramList r) from hr), pure_bind]
    exact ⟨ids, items_of_list? hids⟩

/-- A child that must have a value stands for a tree that must have one. -/
theorem exists_demanded (h : ctx.layout.Holds tr id) (hn : ctx.nodes.get? id = some n)
    (hneeds : Needs ctx n place a) : ∃ u ∈ tr.demands, ctx.layout.Holds u a := by
  have hpairs := holds_asked h hn
  cases tr with
  | ident name =>
    obtain ⟨k, hk, -⟩ := h
    cases hn.symm.trans hk
    cases hneeds
  | int i =>
    cases hn.symm.trans h
    cases hneeds
  | float x =>
    cases hn.symm.trans h
    cases hneeds
  | nil =>
    cases hn.symm.trans h
    cases hneeds
  | unary op operand =>
    obtain ⟨i, hk, hi⟩ := h
    cases hn.symm.trans hk
    cases hneeds
    exact ⟨operand, by simp [Tree.demands], hi⟩
  | binary op left right =>
    obtain ⟨i, j, hk, hi, hj⟩ := h
    cases hn.symm.trans hk
    cases hneeds with
    | left => exact ⟨left, by simp [Tree.demands], hi⟩
    | right => exact ⟨right, by simp [Tree.demands], hj⟩
  | assign target value =>
    obtain ⟨i, j, hk, -, hj⟩ := h
    cases hn.symm.trans hk
    cases hneeds
    exact ⟨value, by simp [Tree.demands], hj⟩
  | print argument =>
    obtain ⟨i, hk, hi⟩ := h
    cases hn.symm.trans hk
    cases hneeds with
    | printed hpresent =>
      cases argument with
      | none => cases hpresent.symm.trans (NodeStore.isEmpty_of_get? hi)
      | some value => exact ⟨value, by simp [Tree.demands], hi⟩
  | cond test thenBranch elseBranch =>
    obtain ⟨i, j, k, hk, hi, -⟩ := h
    cases hn.symm.trans hk
    cases hneeds
    exact ⟨test, by simp [Tree.demands], hi⟩
  | suite statements =>
    obtain ⟨r, ids, hk, -⟩ := h
    cases hn.symm.trans hk
    cases hneeds
  | funcDef name params body =>
    obtain ⟨k, i, j, hk, -⟩ := h
    cases hn.symm.trans hk
    cases hneeds
  | call callee args =>
    obtain ⟨k, i, hk, -⟩ := h
    cases hn.symm.trans hk
    cases hneeds with
    | argument hget =>
      obtain ⟨hlt, heq⟩ := List.getElem?_eq_some_iff.mp hget
      have hlt' : _ < (Tree.call callee args).asked.length := hpairs.length_eq ▸ hlt
      have hchild := hpairs.get hlt' hlt
      obtain ⟨u, hu, hsome⟩ := List.mem_map.mp (List.getElem_mem hlt')
      rw [List.get_eq_getElem, List.get_eq_getElem, heq, ← hsome] at hchild
      cases args with
      | none => cases hu
      | some ts => exact ⟨u, hu, hchild⟩
  | ret value =>
    obtain ⟨i, hk, -⟩ := h
    cases hn.symm.trans hk
    cases hneeds

/-- The parameter lists that a name can be resolved to are lists of identifiers. -/
theorem paramNames_of_resolveParams {callee : Name} {list : NodeId}
    (hs : ∀ f ∈ s.env.frames, InStep ctx f) (hl : s.env.resolveParams callee = some list) :
    ∃ names, paramNames ctx list = pure names := by
  obtain ⟨f, hf, hfl⟩ := List.exists_of_findSome?_eq_some hl
  obtain ⟨_, _, ps, hd⟩ := (hs f hf).exists_defines_of_params hfl
  obtain ⟨names, hnames, -⟩ := Direct.paramNames_of_holds hd.params
  exact ⟨names, hnames⟩

/-- **What a program can complain about.**  A node that stands for a tree and complains about
shape has a child that must have a value, was evaluated, and has none. -/
theorem missing_of_aboutShape (hp : Stands ctx id) (hs : ∀ f ∈ s.env.frames, InStep ctx f)
    (hn : ctx.nodes.get? id = some n) (h : Raises ctx n s e) (he : e.AboutShape) :
    ∃ place a t flow u, Needs ctx n place a ∧ e = place.missingError ∧
      eval ctx a t = .done flow u ∧ flow.value? = none := by
  obtain ⟨o, ho⟩ := hp
  have htree (hne : n ≠ .empty) := exists_tree_of_ne_empty ho hn hne
  cases h with
  | notDefined _ => exact he.elim
  | unbound _ => exact he.elim
  | empty hneeds hempty =>
    obtain ⟨tr, -, htr, -⟩ := htree (by rintro rfl; cases hneeds)
    obtain ⟨u, -, hu⟩ := exists_demanded htr hn hneeds
    cases hempty.symm.trans hu.isEmpty_eq
  | missing hneeds heval hnone => exact ⟨_, _, _, _, _, hneeds, rfl, heval, hnone⟩
  | unary herr => exact absurd he (Arithmetic.ofOperation_of_unary herr).not_aboutShape
  | binary herr => exact absurd he (Arithmetic.ofOperation_of_binary herr).not_aboutShape
  | target hm hk =>
    obtain ⟨tr, -, htr, hkind⟩ := htree nofun
    cases tr with
    | assign target value =>
      obtain ⟨i, j, hk', ⟨k, hi, -⟩, -⟩ := htr
      cases hn.symm.trans hk'
      cases hm.symm.trans hi
      exact absurd rfl hk
    | _ => cases hkind
  | callee _ => exact he.elim
  | parameters hl hfail =>
    obtain ⟨names, hnames⟩ := paramNames_of_resolveParams hs hl
    rw [hnames] at hfail
    cases hfail
  | arguments hfail =>
    obtain ⟨tr, -, htr, hkind⟩ := htree nofun
    cases tr with
    | call callee args =>
      obtain ⟨k, i, hk, -, hargs⟩ := htr
      cases hn.symm.trans hk
      obtain ⟨ids, hids⟩ := listItems_of_holdsArgs hargs
      rw [hids] at hfail
      cases hfail
    | _ => cases hkind
  | arity _ _ _ => exact he.elim
  | limit _ => exact he.elim

/-! ## Expressions -/

/-- A piece of evaluation that has a value whenever it is done. -/
def Valued (m : Eval Flow) : Prop := ∀ ⦃s flow t⦄, m s = .done flow t → ∃ v, flow = .normal (some v)

theorem valued_pure (v : ValueId) : Valued (pure (.normal (some v))) := by
  intro s flow t h
  cases h
  exact ⟨v, rfl⟩

theorem valued_fail (e : EvalError) : Valued (fail e) := by
  intro s flow t h
  cases h

theorem valued_produce (v : Value) : Valued (produce v) := by
  intro s flow t h
  cases h
  exact ⟨_, rfl⟩

theorem valued_bind {m : Eval α} {f : α → Eval Flow} (h : ∀ a, Valued (f a)) :
    Valued (m >>= f) := by
  intro s flow u hu
  obtain ⟨a, t, -, hf⟩ := done_bind hu
  exact h a hf

theorem valued_ident (name : Name) : Valued (ident ctx name) := by
  refine valued_bind fun s => ?_
  cases s.env.resolve name with
  | ok id => exact valued_pure id
  | error e => cases e <;> exact valued_fail _

theorem valued_assign (target a : NodeId) : Valued (assign ctx rec target a) := by
  refine valued_bind fun m => ?_
  cases m with
  | ident name => exact valued_bind fun v => valued_bind fun _ => valued_pure v
  | _ => exact valued_fail _

theorem valued_call (callee : Name) (args : NodeId) : Valued (call ctx rec callee args) := by
  refine valued_bind fun s => ?_
  cases s.env.resolveFunction callee with
  | none => exact valued_fail _
  | some body =>
    refine valued_bind fun bindings => valued_bind fun r => ?_
    dsimp only
    by_cases hb : ctx.resultBinding = .enabled
    · rw [if_pos hb]
      exact valued_bind fun _ => valued_pure _
    · rw [if_neg hb]
      exact valued_pure _

/-- An expression that is evaluated to the end has a value. -/
theorem exists_value {flow : Flow} (hu : ctx.layout.Holds u a) (hexp : u.isExpression = true)
    (h : eval ctx a s = .done flow t) : ∃ v, flow = .normal (some v) := by
  obtain ⟨n, hn, hkind⟩ := hu.exists_node
  have hn : ctx.nodes.get? a = some n := hn
  rw [eval_eq_step (state?_of_done h), step_of_get? hn] at h
  suffices hvalued : Valued (rule ctx (eval ctx) n) from hvalued h
  cases n with
  | ident name => exact valued_ident name
  | int i => exact valued_produce _
  | float x => exact valued_produce _
  | nil => exact valued_pure _
  | unary op i => exact valued_bind fun _ => valued_bind fun w => valued_produce w
  | binary op i j =>
    exact valued_bind fun _ => valued_bind fun _ => valued_bind fun w => valued_produce w
  | assign target i => exact valued_assign target i
  | call callee args => exact valued_call callee args
  | _ => cases u <;> simp [Node.kind, Tree.kind, Tree.isExpression] at hkind hexp

/-! ## Parts -/

/-- A node stands for a part of a tree, or for a child that is absent. -/
def PartOf (ctx : Context) (tr : Tree) (id : NodeId) : Prop :=
  ∃ o, ctx.layout.HoldsOption o id ∧ Tree.subtreesOption o ⊆ tr.subtrees

/-- What stands for a tree stands for a part of it. -/
theorem partOf_self (h : ctx.layout.Holds tr id) : PartOf ctx tr id :=
  ⟨some tr, h, List.Subset.refl _⟩

/-- A node that stands for a part of a tree and is not the empty node stands for a tree of its
kind. -/
theorem PartOf.exists_tree (hp : PartOf ctx tr id) (hn : ctx.nodes.get? id = some n)
    (hne : n ≠ .empty) :
    ∃ u, ctx.layout.Holds u id ∧ n.kind = u.kind ∧ u.subtrees ⊆ tr.subtrees := by
  obtain ⟨o, ho, hsub⟩ := hp
  obtain ⟨u, rfl, hu, hkind⟩ := exists_tree_of_ne_empty ho hn hne
  exact ⟨u, hu, hkind, hsub⟩

/-- Whatever a part of a tree asks for is a part of the tree. -/
theorem PartOf.of_mem_asked (hp : PartOf ctx tr id) (hn : ctx.nodes.get? id = some n)
    (hc : c ∈ ctx.asked n) : PartOf ctx tr c := by
  obtain ⟨o, ho, hsub⟩ := hp
  obtain ⟨u, rfl, o', ho', hchild⟩ := exists_child_of_mem_asked ho hn hc
  exact ⟨o', hchild, List.Subset.trans (Tree.subtrees_subset_of_mem_asked ho') hsub⟩

/-- The body of a function that a part of a tree defines is a part of the tree. -/
theorem PartOf.body {name : Name} {params body : NodeId} (hp : PartOf ctx tr id)
    (hn : ctx.nodes.get? id = some (.funcDef name params body)) : PartOf ctx tr body := by
  obtain ⟨u, hu, hkind, hsub⟩ := hp.exists_tree hn nofun
  cases u with
  | funcDef _ _ trBody =>
    obtain ⟨_, _, _, hk, -, -, hbody⟩ := hu
    cases hn.symm.trans hk
    exact ⟨some trBody, hbody, List.Subset.trans (List.subset_cons_self _ _) hsub⟩
  | _ => cases hkind

/-- Parts of a tree define functions whose bodies are parts of the tree. -/
theorem frameInvariant_partOf (tr : Tree) :
    FrameInvariant ctx (PartOf ctx tr) fun f => Entries (PartOf ctx tr) f.functions where
  asked := PartOf.of_mem_asked
  body hf hb := hf hb
  fresh := entries_empty
  bind _ _ hf := hf
  markUnbound _ hf := hf
  signal _ hf := hf
  defineWith hp hn _ _ hf := hf.insert _ (hp.body hn)
  defineWithout hp hn _ hf := hf.insert _ (hp.body hn)

/-- Where every child that must have a value is an expression, none goes without. -/
theorem value?_ne_none_of_needs {flow : Flow} (hp : PartOf ctx tr id)
    (hdemands : tr.DemandsExpressions) (hn : ctx.nodes.get? id = some n)
    (hneeds : Needs ctx n place a) (h : eval ctx a s = .done flow t) : flow.value? ≠ none := by
  obtain ⟨u, hu, -, hsub⟩ := hp.exists_tree hn (by rintro rfl; cases hneeds)
  obtain ⟨w, hw, ha⟩ := exists_demanded hu hn hneeds
  have hexp := hdemands u (hsub u.self_mem_subtrees) w hw
  obtain ⟨v, rfl⟩ := exists_value ha hexp h
  exact nofun

/-- Runs fail where the evaluation of the root does. -/
theorem exists_eval_failed_of_run {root : NodeId} (h : run ctx root s = .failed e t) :
    ∃ u, eval ctx root s = .failed e u := by
  unfold run finish at h
  cases heval : eval ctx root s with
  | done flow u =>
    rw [heval] at h
    unfold result at h
    cases hv : flow.value? with
    | none =>
      simp only [hv] at h
      cases h
    | some i =>
      simp only [hv] at h
      rcases failed_bind h with hvalue | ⟨v, u', -, hpure⟩
      · exact (smooth_value i hvalue).elim
      · cases hpure
  | failed e' u =>
    rw [heval] at h
    cases h
    exact ⟨u, rfl⟩
  | dangling =>
    rw [heval] at h
    cases h
  | exhausted =>
    rw [heval] at h
    cases h
  | full _ =>
    rw [heval] at h
    cases h

end Eval

namespace Program

open Eval Outcome

variable {t : Tree} {p : Program} {settings : Settings} {printer : Printer} {e : EvalError}
  {s : State}

/-- A run that complains about shape came through a child that must have a value, was
evaluated, and has none. -/
theorem exists_missing_of_run (h : ofTree t = .ok p) (hrun : p.run settings printer = .failed e s)
    (he : e.AboutShape) :
    ∃ id n place a u flow w, PartOf (p.context settings) t id ∧
      (p.context settings).nodes.get? id = some n ∧ Needs (p.context settings) n place a ∧
      e = place.missingError ∧ eval (p.context settings) a u = .done flow w ∧
      flow.value? = none := by
  have hroot : (p.context settings).layout.Holds t p.root := holds_of_ofTree h
  obtain ⟨u, hu⟩ := exists_eval_failed_of_run hrun
  obtain ⟨v, hv, n, hn, hraise⟩ := exists_raises hu
  obtain ⟨hstands, hframes⟩ := frameInvariant_inStep.course h ⟨some t, hroot⟩ v hv
  obtain ⟨hpart, -⟩ := (frameInvariant_partOf t).course h (partOf_self hroot) v hv
  obtain ⟨place, a, u', flow, w, hneeds, heq, heval, hnone⟩ :=
    missing_of_aboutShape hstands hframes hn hraise he
  exact ⟨v.1, n, place, a, u', flow, w, hpart, hn, hneeds, heq, heval, hnone⟩

/-- **Loaded programs are well formed.**  If a run fails because of a malformed node, then a
child that must have a value was evaluated and has none.  There is no empty slot, no target
that is not an identifier, no parameter list of the wrong kind, and no parameter that is not an
identifier.  If moreover every child that must have a value is an expression, then no run fails
because of a malformed node or an operand without a value. -/
theorem run_wellFormed (h : ofTree t = .ok p) (settings : Settings) (printer : Printer) :
    (∀ d s, p.run settings printer = .failed (.malformedNode d) s →
        ∃ slot, d = .noValue slot) ∧
      (t.DemandsExpressions → ∀ e s, p.run settings printer = .failed e s →
        (∀ d, e ≠ .malformedNode d) ∧ ∀ symbol, e ≠ .typeMismatch symbol .missing) := by
  constructor
  · intro d s hrun
    obtain ⟨_, _, place, _, _, _, _, -, -, -, heq, -⟩ := exists_missing_of_run h hrun trivial
    cases place with
    | operand symbol => cases heq
    | slot slot =>
      cases heq
      exact ⟨slot, rfl⟩
  · intro hdemands e s hrun
    have hshape : ¬ e.AboutShape := fun he => by
      obtain ⟨_, _, _, _, _, _, _, hpart, hn, hneeds, -, heval, hnone⟩ :=
        exists_missing_of_run h hrun he
      exact value?_ne_none_of_needs hpart hdemands hn hneeds heval hnone
    constructor
    · rintro d rfl
      exact hshape trivial
    · rintro symbol rfl
      exact hshape trivial

/-- A function that assigns the outcome of a choice between blocks, and a call of it. -/
def assignedChoice : Tree :=
  .suite [.funcDef "f" (some ["a"]) (.suite [.assign "x" (.cond (.ident "a") (.suite []) none)]),
    .call "f" (some [.int 1])]

/-- The program of `assignedChoice`. -/
def assignedChoiceProgram : Program where
  names := (assignedChoice.lower .fresh).2.names
  nodes := ⟨#[.empty, .ident ⟨1⟩, .suite ⟨0, 0⟩, .cond ⟨1⟩ ⟨2⟩ ⟨0⟩, .ident ⟨2⟩, .assign ⟨4⟩ ⟨3⟩,
    .suite ⟨0, 1⟩, .ident ⟨1⟩, .paramList ⟨1, 1⟩, .funcDef ⟨3⟩ ⟨8⟩ ⟨6⟩, .int 1, .paramList ⟨2, 1⟩,
    .call ⟨3⟩ ⟨11⟩, .suite ⟨3, 2⟩], #[⟨5⟩, ⟨7⟩, ⟨10⟩, ⟨9⟩, ⟨12⟩]⟩
  root := ⟨13⟩

/-- A function that adds nothing to its argument, and a call of it that is printed. -/
def addedNothing : Tree :=
  .suite [.funcDef "f" (some ["a"]) (.suite [.ret (some (.binary .add (.ident "a") .nil))]),
    .print (some (.call "f" (some [.int 1])))]

/-- The program of `addedNothing`. -/
def addedNothingProgram : Program where
  names := (addedNothing.lower .fresh).2.names
  nodes := ⟨#[.empty, .ident ⟨1⟩, .nil, .binary .add ⟨1⟩ ⟨2⟩, .ret ⟨3⟩, .suite ⟨0, 1⟩, .ident ⟨1⟩,
    .paramList ⟨1, 1⟩, .funcDef ⟨2⟩ ⟨7⟩ ⟨5⟩, .int 1, .paramList ⟨2, 1⟩, .call ⟨2⟩ ⟨10⟩, .print ⟨11⟩,
    .suite ⟨3, 2⟩], #[⟨4⟩, ⟨6⟩, ⟨9⟩, ⟨8⟩, ⟨12⟩]⟩
  root := ⟨13⟩

theorem ofTree_assignedChoice : ofTree assignedChoice = .ok assignedChoiceProgram :=
  ofTree_eq_of_nodes rfl (by decide +kernel) (by decide +kernel)

theorem ofTree_addedNothing : ofTree addedNothing = .ok addedNothingProgram :=
  ofTree_eq_of_nodes rfl (by decide +kernel) (by decide +kernel)

/-- A choice is no expression, and to assign its outcome fails for want of a value.  Where only
expressions are used, a run may still fail, but not because of the shape of the program. -/
theorem run_wellFormed_examples :
    ofTree assignedChoice = .ok assignedChoiceProgram ∧
      (∃ d s slot, assignedChoiceProgram.run .default .silent = .failed (.malformedNode d) s ∧
        d = .noValue slot) ∧
      ofTree addedNothing = .ok addedNothingProgram ∧ addedNothing.DemandsExpressions ∧
      ∃ e s, addedNothingProgram.run .default .silent = .failed e s ∧
        (∀ d, e ≠ .malformedNode d) ∧ ∀ symbol, e ≠ .typeMismatch symbol .missing := by
  have hchoice : (assignedChoiceProgram.run .default .silent).ending? =
      some (.error (.malformedNode (.noValue .assignedValue)), .silent) := by decide +kernel
  have hadded : (addedNothingProgram.run .default .silent).ending? =
      some (.error (.typeMismatch "+" (.binary .int .nil)), .silent) := by decide +kernel
  have hdemands : addedNothing.DemandsExpressions := by
    unfold Tree.DemandsExpressions
    decide
  refine ⟨ofTree_assignedChoice, ?_, ofTree_addedNothing, hdemands, ?_⟩
  · obtain ⟨s, hs⟩ := exists_failed_of_ending? hchoice
    obtain ⟨slot, hslot⟩ := (run_wellFormed ofTree_assignedChoice .default .silent).1 _ s hs
    exact ⟨_, s, slot, hs, hslot⟩
  · obtain ⟨s, hs⟩ := exists_failed_of_ending? hadded
    exact ⟨_, s, hs, (run_wellFormed ofTree_addedNothing .default .silent).2 hdemands _ s hs⟩

end Program

end TreeWalk
