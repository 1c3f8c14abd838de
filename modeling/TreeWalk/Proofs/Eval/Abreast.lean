import TreeWalk.Proofs.Eval.Marking
import TreeWalk.Proofs.Eval.Threads

/-!
# Two evaluations abreast

One piece of evaluation is run twice, from two states that are related.  As long as the
relation answers alike whatever evaluation asks of a state, and survives whatever evaluation
writes into both states at once, the two runs stay abreast: they end in the same way, with
the same result or the same error, in related states.  `Pace` is what there is to choose in
a statement of this kind, `Pace.Lawful` is what the choice has to satisfy, and the main
statement, `steady_step`, carries it through the rule of every node.  What happens when a body
gets a frame of its own is not laid down there, because it depends on the pace: `Enters` says
what is needed for it.

## Running alone

The first run may fail where the second goes on, as it does when its limit is smaller.  From
there on the second runs alone, and all that can be said of it is how a state moves under
evaluation whatever happens.  That is why a pace has a relation for the moves of a single
state, and why `Steady` speaks of both.

## One run

Two runs from the same state are one run.  A pace that relates each state of some kind to
itself speaks of single evaluations: of what they need in order not to ask for something
that does not exist, and not to run out of their bound.
-/

namespace TreeWalk

/-! ## Writes -/

/-- Something that a rule writes into a state by itself. -/
inductive Write where
  /-- A value is stored. -/
  | alloc (v : Value)
  /-- A value is bound. -/
  | bind (name : Name) (i : ValueId)
  /-- A name is marked as unbound. -/
  | mark (name : Name)
  /-- A function with a parameter list is defined. -/
  | defineWith (name : Name) (params body : NodeId)
  /-- A function without a parameter list is defined. -/
  | defineWithout (name : Name) (body : NodeId)
  /-- The value of a `return` is left. -/
  | signal (i : ValueId)
  /-- A line is printed. -/
  | println (line : String)

namespace State

/-- The state after something is written. -/
def write (s : State) : Write → State
  | .alloc v => { s with values := (s.values.alloc v).2 }
  | .bind name i => { s with env := s.env.bind name i }
  | .mark name => { s with env := s.env.markUnbound name }
  | .defineWith name params body =>
    { s with env := (s.env.bindFunction name body).bindParams name params }
  | .defineWithout name body =>
    { s with env := (s.env.bindFunction name body).clearParams name }
  | .signal i => { s with env := s.env.signalReturn i }
  | .println line => { s with printer := s.printer.println line }

@[simp] theorem limit_write (s : State) (w : Write) : (s.write w).env.limit = s.env.limit := by
  cases w <;> rfl

@[simp] theorem depth_write (s : State) (w : Write) : (s.write w).env.depth = s.env.depth := by
  cases w <;> rfl

@[simp] theorem peak_write (s : State) (w : Write) : (s.write w).peak = s.peak := by
  cases w <;> rfl

/-- What is written goes into the top frame in the same way. -/
theorem top_write_congr {s t : State} (h : s.env.top = t.env.top) (w : Write) :
    (s.write w).env.top = (t.write w).env.top := by
  cases w with
  | alloc _ => exact h
  | println _ => exact h
  | bind name i => exact congrArg (·.bind name i) h
  | mark name => exact congrArg (·.markUnbound name) h
  | defineWith name params body =>
    exact congrArg (fun f => (f.bindFunction name body).bindParams name params) h
  | defineWithout name body =>
    exact congrArg (fun f => (f.bindFunction name body).clearParams name) h
  | signal i => exact congrArg (·.signalReturn i) h

theorem below_write (s : State) (w : Write) : (s.write w).env.below = s.env.below := by
  cases w <;> rfl

instance : Inhabited State := ⟨fresh Env.defaultLimit .silent⟩

end State

/-- Every node to which a node refers is there, and every list and its items are. -/
structure NodeStore.Closed (s : NodeStore) : Prop where
  /-- Children are there. -/
  child : ∀ ⦃id n⦄, s.get? id = some n → ∀ c ∈ n.children, ∃ m, s.get? c = some m
  /-- Lists are there with their items. -/
  items : ∀ ⦃id n r⦄, s.get? id = some n → n.range? = some r →
    ∃ ids, s.list? r = some ids ∧ ∀ c ∈ ids, ∃ m, s.get? c = some m

/-! ## Paces -/

/-- What is kept of two runs while they are abreast, and what becomes of them when not. -/
structure Pace where
  /-- How the two states are related. -/
  rel : State → State → Prop
  /-- The handles that results may be, in the second state. -/
  good : ValueId → State → Prop
  /-- How the second state moves, abreast or alone. -/
  moves : State → State → Prop
  /-- The first run fails while the second goes on alone from a state. -/
  parts : EvalError → State → State → Prop
  /-- The runs may ask for something that does not exist. -/
  dangles : Prop
  /-- The runs may run out of their bound. -/
  stalls : Prop
  /-- The states in which the runs may be given up. -/
  fills : State → State → Prop := fun _ _ => False

namespace Pace

/-- What may be written: bindings of good handles, functions that a definition defines, and lines
that are empty or the text of a value. -/
def Permits (P : Pace) (ctx : Context) (t : State) : Write → Prop
  | .bind _ i => P.good i t
  | .signal i => P.good i t
  | .defineWith name params body =>
    ∃ id, ctx.nodes.get? id = some (.funcDef name params body)
  | .defineWithout name body =>
    ∃ id params, ctx.nodes.get? id = some (.funcDef name params body)
  | .println line => line = "" ∨ ∃ v : Value, line = v.text
  | _ => True

/-- What a pace has to satisfy for evaluation to keep it. -/
structure Lawful (ctx : Context) (P : Pace) : Prop where
  /-- A state that stays moves. -/
  refl : ∀ t, P.moves t t
  /-- A state moves step by step. -/
  trans : ∀ {t u v}, P.moves t u → P.moves u v → P.moves t v
  /-- What is written moves a state. -/
  moves_write : ∀ t w, P.moves t (t.write w)
  /-- Entering a body moves a state. -/
  moves_entered : ∀ {t env} params values, t.env.push = .ok env →
    P.moves t (Eval.entered t env params values)
  /-- Leaving a body moves a state. -/
  moves_left : ∀ t, P.moves t (Eval.left t)
  /-- A run that has failed leaves bodies. -/
  parts_left : ∀ {e s t}, P.parts e s t → P.parts e (Eval.left s) t
  /-- Good handles stay good. -/
  good_of_moves : ∀ {i t u}, P.good i t → P.moves t u → P.good i u
  /-- Related states have the same values. -/
  values_eq : ∀ {s t}, P.rel s t → s.values = t.values
  /-- What is written into both states keeps them related. -/
  rel_write : ∀ {s t w}, P.rel s t → P.Permits ctx t w → P.rel (s.write w) (t.write w)
  /-- The handle of a value that is stored is good. -/
  good_alloc : ∀ {s t} v, P.rel s t → P.good (t.values.alloc v).1 (t.write (.alloc v))
  /-- The handle of `nil` is good. -/
  good_nil : ∀ {s t}, P.rel s t → P.good .nil t
  /-- A good handle belongs to a value. -/
  exists_value : ∀ {s t i}, P.rel s t → P.good i t → P.dangles ∨ ∃ v, t.values.get? i = some v
  /-- Variables that evaluation reads mean the same. -/
  resolve_eq : ∀ {s t} name, P.rel s t → s.env.resolve name = t.env.resolve name
  /-- Variables mean good handles. -/
  good_resolve : ∀ {s t name i}, P.rel s t → t.env.resolve name = .ok i → P.good i t
  /-- Functions mean the same. -/
  resolveFunction_eq : ∀ {s t} name, P.rel s t →
    s.env.resolveFunction name = t.env.resolveFunction name
  /-- Parameter lists mean the same. -/
  resolveParams_eq : ∀ {s t} name, P.rel s t →
    s.env.resolveParams name = t.env.resolveParams name
  /-- Parameter lists are there. -/
  exists_params : ∀ {s t name list}, P.rel s t → t.env.resolveParams name = some list →
    P.dangles ∨ ∃ m, ctx.nodes.get? list = some m
  /-- So are the nodes to which nodes refer. -/
  closed : P.dangles ∨ ctx.nodes.Closed

/-- A body that some function has in related states. -/
def Callable (P : Pace) (body : NodeId) : Prop :=
  ∃ s t name, P.rel s t ∧ t.env.resolveFunction name = some body

/-- The value of a flow, if it has one, is a good handle. -/
def GoodFlow (P : Pace) (flow : Flow) (t : State) : Prop :=
  ∀ i, flow.value? = some i → P.good i t

/-- Each of several handles is good. -/
def GoodAll (P : Pace) (is : List ValueId) (t : State) : Prop := ∀ i ∈ is, P.good i t

/-- A handle that a body may have returned is good. -/
def GoodReturn (P : Pace) (r : Option ValueId) (t : State) : Prop := ∀ i, r = some i → P.good i t

/-- The same pace with another relation, as it is needed inside a body. -/
def withRel (P : Pace) (R : State → State → Prop) : Pace := { P with rel := R }

variable {ctx : Context} {P : Pace} {s t : State}

/-- A handle that may be missing is replaced by a good one. -/
theorem Lawful.good_getD (hP : P.Lawful ctx) (hr : P.rel s t) {o : Option ValueId}
    (ho : ∀ i, o = some i → P.good i t) : P.good (o.getD .nil) t := by
  cases o with
  | none => exact hP.good_nil hr
  | some i => exact ho i rfl

end Pace

namespace Eval

variable {α β : Type} {ctx : Context} {rec : NodeId → Eval Flow} {P : Pace}
  {s t u : State} {id : NodeId} {n : Node}

/-- Two outcomes of runs that were abreast. -/
inductive Abreast (P : Pace) (post : α → State → Prop) : Outcome α → Outcome α → Prop where
  /-- Both are done, with the same result. -/
  | done {a : α} {s t : State} : P.rel s t → post a t → Abreast P post (.done a s) (.done a t)
  /-- Both have failed, with the same error. -/
  | failed {e : EvalError} {s t : State} : P.rel s t →
    Abreast P post (.failed e s) (.failed e t)
  | dangling : P.dangles → Abreast P post .dangling .dangling
  | exhausted : P.stalls → Abreast P post .exhausted .exhausted
  /-- Both were given up. -/
  | full {s t : State} : P.fills s t → Abreast P post (.full s) (.full t)
  /-- The first has failed, and the second went on alone. -/
  | parted {e : EvalError} {s t : State} {o : Outcome α} : P.parts e s t →
    (∀ u, o.state? = some u → P.moves t u) → Abreast P post (.failed e s) o

/-- A piece of evaluation whose runs from related states stay abreast.  The second state
satisfies `pre` before it, and the result and the second state satisfy `post` after it. -/
structure Steady (P : Pace) (pre : State → Prop) (post : α → State → Prop) (m : Eval α) :
    Prop where
  /-- Two runs are abreast. -/
  abreast : ∀ ⦃s t⦄, P.rel s t → pre t → Abreast P post (m s) (m t)
  /-- A run moves the state, from wherever it begins. -/
  moves : ∀ ⦃t u⦄, (m t).state? = some u → P.moves t u

/-- What is true of every result. -/
abbrev anyResult : α → State → Prop := fun _ _ => True

/-! ## Combining pieces -/

section Combining

variable {pre pre' F : State → Prop} {post post' : α → State → Prop} {post₂ : β → State → Prop}
  {m : Eval α} {f : α → Eval β}

theorem Abreast.imp {o o' : Outcome α} (h : Abreast P post o o')
    (hpost : ∀ a s t, o = .done a s → o' = .done a t → P.rel s t → post a t → post' a t) :
    Abreast P post' o o' := by
  cases h with
  | done hr hp => exact .done hr (hpost _ _ _ rfl rfl hr hp)
  | failed hr => exact .failed hr
  | dangling hd => exact .dangling hd
  | exhausted hs => exact .exhausted hs
  | full hf => exact .full hf
  | parted hp hm => exact .parted hp hm

/-- Runs that cannot part end in related states. -/
theorem Abreast.rel {o o' : Outcome α} (h : Abreast P post o o')
    (hparts : ∀ e s t, ¬ P.parts e s t) (hs : o.state? = some s) (ht : o'.state? = some t) :
    P.rel s t := by
  cases h with
  | done hr _ =>
    cases hs
    cases ht
    exact hr
  | failed hr =>
    cases hs
    cases ht
    exact hr
  | dangling _ => cases hs
  | exhausted _ => cases hs
  | full _ => cases hs
  | parted hp _ => exact absurd hp (hparts _ _ _)

/-- What is known of related states need not be asked for. -/
theorem Steady.weaken_of_rel (h : Steady P pre post m)
    (hpre : ∀ ⦃s t⦄, P.rel s t → pre' t → pre t) : Steady P pre' post m where
  abreast _ _ hr hp := h.abreast hr (hpre hr hp)
  moves := h.moves

theorem Steady.weaken (h : Steady P pre post m) (hpre : ∀ t, pre' t → pre t) :
    Steady P pre' post m := h.weaken_of_rel fun _ t _ => hpre t

/-- What does not depend on the state may be assumed, as long as the piece moves states
without it. -/
theorem Steady.of_prop {p : Prop} (hm : ∀ ⦃t u⦄, (m t).state? = some u → P.moves t u)
    (h : p → Steady P pre post m) : Steady P (fun t => p ∧ pre t) post m where
  abreast _ _ hr hp := (h hp.1).abreast hr hp.2
  moves := hm

/-- What survives every move may be kept beside a piece. -/
theorem Steady.frame (h : Steady P pre post m) (hF : ∀ t u, F t → P.moves t u → F u) :
    Steady P (fun t => F t ∧ pre t) (fun a t => F t ∧ post a t) m where
  abreast _ t hr hp := (h.abreast hr hp.2).imp fun _ _ u _ hu _ hq =>
    ⟨hF t u hp.1 (h.moves (state?_of_done hu)), hq⟩
  moves := h.moves

theorem Steady.bind (hP : P.Lawful ctx) (hm : Steady P pre post m)
    (hf : ∀ a, Steady P (post a) post₂ (f a)) : Steady P pre post₂ (m >>= f) where
  abreast s t hr hp := by
    have h := hm.abreast hr hp
    rw [bind_apply, bind_apply]
    generalize m s = o at h
    generalize m t = o' at h
    cases h with
    | done hr' hp' => exact (hf _).abreast hr' hp'
    | failed hr' => exact .failed hr'
    | dangling hd => exact .dangling hd
    | exhausted hs => exact .exhausted hs
    | full hf => exact .full hf
    | parted hparts hmoves =>
      refine .parted hparts fun v hv => ?_
      cases o' with
      | done a w => exact hP.trans (hmoves w rfl) ((hf a).moves hv)
      | failed e w => exact hmoves v hv
      | dangling => cases hv
      | exhausted => cases hv
      | full _ => cases hv
  moves t v hv := by
    rcases state?_bind hv with ⟨e, he⟩ | ⟨a, u, hu, hend⟩
    · exact hm.moves (state?_of_failed he)
    · exact hP.trans (hm.moves (state?_of_done hu)) ((hf a).moves hend)

/-- A piece that first reads something in which related states agree, and depends on nothing
else of the state from which it goes on. -/
theorem Steady.observe {g : State → β} {f : State → Eval α}
    (hg : ∀ {s t}, P.rel s t → g s = g t)
    (hf : ∀ b, ∃ m, (∀ t, g t = b → f t = m) ∧
      Steady P (fun t => pre t ∧ (∃ s, P.rel s t) ∧ g t = b) post m) :
    Steady P pre post (state >>= f) where
  abreast s t hr hp := by
    obtain ⟨m, hm, hsteady⟩ := hf (g t)
    rw [state_bind, state_bind, hm s (hg hr), hm t rfl]
    exact hsteady.abreast hr ⟨hp, ⟨s, hr⟩, rfl⟩
  moves t _ hu := by
    obtain ⟨m, hm, hsteady⟩ := hf (g t)
    rw [state_bind, hm t rfl] at hu
    exact hsteady.moves hu

end Combining

/-! ## Single pieces -/

section Pieces

variable {post : α → State → Prop}

theorem steady_pure (hP : P.Lawful ctx) (a : α) : Steady P (post a) post (pure a) where
  abreast _ _ hr hp := .done hr hp
  moves t _ hu := by
    cases hu
    exact hP.refl t

theorem steady_fail (hP : P.Lawful ctx) (e : EvalError) :
    Steady P (fun _ => True) post (fail e : Eval α) where
  abreast _ _ hr _ := .failed hr
  moves t _ hu := by
    cases hu
    exact hP.refl t

theorem steady_dangling : Steady P (fun _ => P.dangles) post (dangling : Eval α) where
  abreast _ _ _ hd := .dangling hd
  moves _ _ hu := by cases hu

theorem steady_ofExcept (hP : P.Lawful ctx) (r : Except EvalError α) :
    Steady P (fun _ => True) anyResult (ofExcept r) := by
  cases r with
  | ok a => exact (steady_pure hP a).weaken fun _ _ => trivial
  | error e => exact steady_fail hP e

theorem steady_value (hP : P.Lawful ctx) (i : ValueId) :
    Steady P (P.good i) anyResult (value i) where
  abreast s t hr hi := by
    unfold value
    rw [hP.values_eq hr]
    cases hv : t.values.get? i with
    | some v => exact .done hr trivial
    | none =>
      rcases hP.exists_value hr hi with hd | ⟨v, hv'⟩
      · exact .dangling hd
      · cases hv.symm.trans hv'
  moves t u hu := by
    rw [quiet_value i hu]
    exact hP.refl t

theorem steady_produce (hP : P.Lawful ctx) (v : Value) :
    Steady P (fun _ => True) P.GoodFlow (produce v) where
  abreast s t hr _ := by
    have hid : (s.values.alloc v).1 = (t.values.alloc v).1 := by rw [hP.values_eq hr]
    unfold produce
    dsimp only
    rw [hid]
    refine .done (hP.rel_write (w := .alloc v) hr trivial) ?_
    rintro i ⟨⟩
    exact hP.good_alloc v hr
  moves t _ hu := by
    cases hu
    exact hP.moves_write t (.alloc v)

/-- Something is written. -/
theorem steady_write (hP : P.Lawful ctx) (w : Write) :
    Steady P (fun t => P.Permits ctx t w) anyResult fun s => .done () (s.write w) where
  abreast _ _ hr hp := .done (hP.rel_write hr hp) trivial
  moves t _ hu := by
    cases hu
    exact hP.moves_write t w

theorem steady_emit (hP : P.Lawful ctx) {line : String}
    (hline : line = "" ∨ ∃ v : Value, line = v.text) :
    Steady P (fun _ => True) anyResult (emit line) :=
  (steady_write hP (.println line)).weaken fun _ _ => hline

/-- A handle that is written is a good result afterwards. -/
theorem steady_writeHandle (hP : P.Lawful ctx) (w : Write) (i : ValueId)
    (hw : ∀ t, P.good i t → P.Permits ctx t w) {flow : Flow} (hflow : flow.value? = some i) :
    Steady P (P.good i) P.GoodFlow
      ((fun s => .done () (s.write w) : Eval Unit) >>= fun _ => pure flow) := by
  have hwrite := (steady_write hP w).frame (F := P.good i) fun _ _ => hP.good_of_moves
  refine (hwrite.bind hP fun _ => ?_).weaken fun t hi => ⟨hi, hw t hi⟩
  refine (steady_pure hP flow).weaken fun t h => ?_
  intro j hj
  obtain rfl : i = j := Option.some.inj (hflow.symm.trans hj)
  exact h.1

end Pieces

/-! ## Looking at the program -/

/-- Looking at the program comes to the same in every state. -/
inductive Settled (d : Prop) : Eval α → Prop where
  | pure (a : α) : Settled d (pure a)
  | fail (e : EvalError) : Settled d (fail e)
  /-- Something is not there. -/
  | dangling : d → Settled d dangling

theorem Settled.bind {d : Prop} {m : Eval α} {f : α → Eval β} (hm : Settled d m)
    (hf : ∀ a, m = Pure.pure a → Settled d (f a)) : Settled d (m >>= f) := by
  cases hm with
  | pure a => exact hf a rfl
  | fail e => exact .fail e
  | dangling hd => exact .dangling hd

/-- What was found in the program is known when the rest is run. -/
theorem Settled.steady_bind (hP : P.Lawful ctx) {m : Eval α} {f : α → Eval β} {pre : State → Prop}
    {post : β → State → Prop} (hm : Settled P.dangles m)
    (hf : ∀ a, m = Pure.pure a → Steady P pre post (f a)) : Steady P pre post (m >>= f) := by
  cases hm with
  | pure a => exact hf a rfl
  | fail e => exact (steady_fail hP e).weaken fun _ _ => trivial
  | dangling hd => exact steady_dangling.weaken fun _ _ => hd

theorem settled_node {d : Prop} {c : NodeId} (hc : d ∨ ∃ m, ctx.nodes.get? c = some m) :
    Settled d (node ctx c) := by
  unfold node
  cases hm : ctx.nodes.get? c with
  | some m => exact .pure m
  | none =>
    refine .dangling (hc.resolve_right ?_)
    rintro ⟨m, hm'⟩
    cases hm.symm.trans hm'

theorem settled_items {d : Prop} {r : NodeRange} (hr : d ∨ ∃ ids, ctx.nodes.list? r = some ids) :
    Settled d (items ctx r) := by
  unfold items
  cases hids : ctx.nodes.list? r with
  | some ids => exact .pure ids
  | none =>
    refine .dangling (hr.resolve_right ?_)
    rintro ⟨ids, hids'⟩
    cases hids.symm.trans hids'

/-- A lookup that has found something has found it in every state. -/
theorem get?_of_node_eq {c : NodeId} {m : Node} (h : node ctx c = pure m) :
    ctx.nodes.get? c = some m := get?_of_node (congrFun h default)

theorem settled_listItems {d : Prop} (hcl : d ∨ ctx.nodes.Closed) (defect : NodeKind → Defect)
    {c : NodeId} (hc : d ∨ ∃ m, ctx.nodes.get? c = some m) :
    Settled d (listItems ctx defect c) := by
  refine (settled_node hc).bind fun m hm => ?_
  cases m with
  | empty => exact .pure []
  | paramList r =>
    refine settled_items (hcl.imp_right fun h => ?_)
    obtain ⟨ids, hids, -⟩ := h.items (get?_of_node_eq hm) rfl
    exact ⟨ids, hids⟩
  | _ => exact .fail _

theorem settled_identNames {d : Prop} {ids : List NodeId}
    (hids : d ∨ ∀ i ∈ ids, ∃ m, ctx.nodes.get? i = some m) : Settled d (identNames ctx ids) := by
  induction ids with
  | nil => exact .pure []
  | cons id rest ih =>
    have hid := hids.imp_right fun h => h id (List.mem_cons_self ..)
    have hrest := ih (hids.imp_right fun h i hi => h i (List.mem_cons_of_mem _ hi))
    refine (settled_node hid).bind fun m _ => ?_
    cases m with
    | ident name => exact hrest.bind fun names _ => .pure (name :: names)
    | _ => exact .fail _

/-- The items of a list that was found are there. -/
theorem exists_of_listItems (hc : ctx.nodes.Closed) {defect : NodeKind → Defect} {c : NodeId}
    {ids : List NodeId} (h : listItems ctx defect c = pure ids) :
    ∀ i ∈ ids, ∃ m, ctx.nodes.get? i = some m := by
  unfold listItems node at h
  cases hm : ctx.nodes.get? c with
  | none =>
    rw [hm] at h
    cases congrFun h default
  | some m =>
    rw [hm, pure_bind] at h
    cases m with
    | empty =>
      cases congrFun h default
      exact List.forall_mem_nil _
    | paramList r =>
      obtain ⟨ids', hids, hthere⟩ := hc.items hm rfl
      dsimp only at h
      rw [items_of_list? hids] at h
      cases congrFun h default
      exact hthere
    | _ => cases congrFun h default

theorem settled_paramNames {d : Prop} (hcl : d ∨ ctx.nodes.Closed) {list : NodeId}
    (hlist : d ∨ ∃ m, ctx.nodes.get? list = some m) : Settled d (paramNames ctx list) :=
  (settled_listItems hcl _ hlist).bind fun _ hids =>
    settled_identNames (hcl.imp_right fun hc => exists_of_listItems hc hids)

/-! ## Operands and required children -/

theorem steady_operand (hP : P.Lawful ctx) (symbol : String)
    (hrec : Steady P (fun _ => True) P.GoodFlow (rec id)) :
    Steady P (fun _ => True) anyResult (operand ctx rec symbol id) := by
  unfold operand
  by_cases he : ctx.nodes.isEmpty id = true
  · rw [if_pos he]
    exact steady_fail hP _
  · rw [if_neg he]
    refine hrec.bind hP fun flow => ?_
    cases hv : flow.value? with
    | some v => exact (steady_value hP v).weaken fun t h => h v hv
    | none => exact (steady_fail hP _).weaken fun _ _ => trivial

theorem steady_required (hP : P.Lawful ctx) (slot : Slot)
    (hrec : Steady P (fun _ => True) P.GoodFlow (rec id)) :
    Steady P (fun _ => True) P.good (required ctx rec slot id) := by
  unfold required
  by_cases he : ctx.nodes.isEmpty id = true
  · rw [if_pos he]
    exact steady_fail hP _
  · rw [if_neg he]
    refine hrec.bind hP fun flow => ?_
    cases hv : flow.value? with
    | some v => exact (steady_pure hP v).weaken fun t h => h v hv
    | none => exact (steady_fail hP _).weaken fun _ _ => trivial

/-! ## Rules without calls -/

theorem steady_ident (hP : P.Lawful ctx) (name : Name) :
    Steady P (fun _ => True) P.GoodFlow (ident ctx name) := by
  refine Steady.observe (g := fun s => s.env.resolve name) (hP.resolve_eq name) fun r => ?_
  cases r with
  | ok i =>
    refine ⟨pure (.normal (some i)), fun t ht => by rw [ht], ?_⟩
    refine (steady_pure hP _).weaken fun t h => ?_
    obtain ⟨-, ⟨s, hr⟩, hi⟩ := h
    rintro j ⟨⟩
    exact hP.good_resolve hr hi
  | error e =>
    cases e with
    | notDefined =>
      exact ⟨fail (.nameNotDefined (ctx.names.lookup name)), fun t ht => by rw [ht],
        (steady_fail hP _).weaken fun _ _ => trivial⟩
    | unbound =>
      exact ⟨fail (.localVariableUnbound (ctx.names.lookup name)), fun t ht => by rw [ht],
        (steady_fail hP _).weaken fun _ _ => trivial⟩

theorem steady_unary (hP : P.Lawful ctx) (op : UnaryOp)
    (hrec : Steady P (fun _ => True) P.GoodFlow (rec id)) :
    Steady P (fun _ => True) P.GoodFlow (unary ctx rec op id) :=
  (steady_operand hP op.symbol hrec).bind hP fun _ =>
    (steady_ofExcept hP _).bind hP fun w => steady_produce hP w

theorem steady_binary (hP : P.Lawful ctx) (op : BinaryOp) {left right : NodeId}
    (hleft : Steady P (fun _ => True) P.GoodFlow (rec left))
    (hright : Steady P (fun _ => True) P.GoodFlow (rec right)) :
    Steady P (fun _ => True) P.GoodFlow (binary ctx rec op left right) :=
  (steady_operand hP op.symbol hleft).bind hP fun _ =>
    (steady_operand hP op.symbol hright).bind hP fun _ =>
      (steady_ofExcept hP _).bind hP fun w => steady_produce hP w

theorem steady_assign (hP : P.Lawful ctx) {target : NodeId}
    (htarget : P.dangles ∨ ∃ m, ctx.nodes.get? target = some m)
    (hrec : Steady P (fun _ => True) P.GoodFlow (rec id)) :
    Steady P (fun _ => True) P.GoodFlow (assign ctx rec target id) := by
  refine (settled_node htarget).steady_bind hP fun m _ => ?_
  cases m with
  | ident name =>
    refine (steady_required hP _ hrec).bind hP fun v => ?_
    exact steady_writeHandle hP (.bind name v) v (fun _ hi => hi) rfl
  | _ => exact steady_fail hP _

theorem steady_print (hP : P.Lawful ctx)
    (hrec : Steady P (fun _ => True) P.GoodFlow (rec id)) :
    Steady P (fun _ => True) P.GoodFlow (print ctx rec id) := by
  have hnone : Steady P (fun _ => True) P.GoodFlow (pure (.normal none)) :=
    (steady_pure hP _).weaken fun _ _ => nofun
  by_cases he : ctx.nodes.isEmpty id = true
  · unfold print
    rw [if_pos he]
    exact (steady_emit hP (Or.inl rfl)).bind hP fun _ => hnone
  · rw [print_of_not_isEmpty (Bool.eq_false_iff.mpr he)]
    refine ((steady_required hP _ hrec).bind hP fun v => steady_value hP v).bind hP fun v => ?_
    exact (steady_emit hP (Or.inr ⟨v, rfl⟩)).bind hP fun _ => hnone

theorem steady_cond (hP : P.Lawful ctx) {test thenBranch elseBranch : NodeId}
    (htest : Steady P (fun _ => True) P.GoodFlow (rec test))
    (hthen : Steady P (fun _ => True) P.GoodFlow (rec thenBranch))
    (helse : Steady P (fun _ => True) P.GoodFlow (rec elseBranch)) :
    Steady P (fun _ => True) P.GoodFlow (cond ctx rec test thenBranch elseBranch) := by
  refine (steady_required hP _ htest).bind hP fun v => ?_
  refine (steady_value hP v).bind hP fun w => ?_
  by_cases hw : w.truthy = true
  · rw [if_pos hw]
    exact hthen
  · rw [if_neg hw]
    exact helse

/-- Marking a list of names is marking one after another. -/
theorem steady_markAll (hP : P.Lawful ctx) (names : List Name) :
    Steady P (fun _ => True) anyResult (modifyEnv (·.markAll names)) := by
  induction names with
  | nil => exact (steady_pure hP ()).weaken fun _ _ => trivial
  | cons n rest ih =>
    have hmark : Steady P (fun _ => True) anyResult (modifyEnv (·.markUnbound n)) :=
      steady_write hP (.mark n)
    exact hmark.bind hP fun _ => ih

theorem steady_markAssigned (hP : P.Lawful ctx) {ids : List NodeId}
    (hids : P.dangles ∨ ∀ i ∈ ids, ¬ Unmarkable ctx i) :
    Steady P (fun _ => True) anyResult (markAssigned ctx ids) := by
  rcases markAssigned_eq ctx ids with ⟨⟨i, hi, hmiss⟩, heq⟩ | ⟨names, -, heq⟩
  · rw [heq]
    exact steady_dangling.weaken fun _ _ => hids.resolve_right fun h => h i hi hmiss
  · rw [heq]
    exact steady_markAll hP names

theorem steady_statements (hP : P.Lawful ctx) {ids : List NodeId}
    (hrec : ∀ i ∈ ids, Steady P (fun _ => True) P.GoodFlow (rec i)) :
    Steady P (fun _ => True) P.GoodFlow (statements rec ids) := by
  induction ids with
  | nil => exact (steady_pure hP _).weaken fun _ _ => nofun
  | cons id rest ih =>
    refine (hrec id (List.mem_cons_self ..)).bind hP fun flow => ?_
    cases flow with
    | ret v => exact steady_pure hP (Flow.ret v)
    | normal v =>
      exact (ih fun i hi => hrec i (List.mem_cons_of_mem _ hi)).weaken fun _ _ => trivial

/-- A node of a store that is closed is not unmarkable. -/
theorem not_unmarkable (hc : ctx.nodes.Closed) {i : NodeId} (hi : ∃ m, ctx.nodes.get? i = some m) :
    ¬ Unmarkable ctx i := by
  rintro (hnone | ⟨target, a, hn, ht⟩)
  · obtain ⟨m, hm⟩ := hi
    cases hnone.symm.trans hm
  · obtain ⟨m, hm⟩ := hc.child hn target (List.mem_cons_self ..)
    cases ht.symm.trans hm

theorem steady_suite (hP : P.Lawful ctx) {r : NodeRange}
    (hn : ctx.nodes.get? id = some (.suite r))
    (hrec : ∀ i ∈ ctx.asked (.suite r), Steady P (fun _ => True) P.GoodFlow (rec i)) :
    Steady P (fun _ => True) P.GoodFlow (suite ctx rec r) := by
  unfold suite
  cases hids : ctx.nodes.list? r with
  | none =>
    have hd : P.dangles := hP.closed.resolve_right fun hc => by
      obtain ⟨ids, hids', -⟩ := hc.items hn rfl
      cases hids.symm.trans hids'
    unfold items
    rw [hids]
    exact steady_dangling.weaken fun _ _ => hd
  | some ids =>
    have hmark : P.dangles ∨ ∀ i ∈ ids, ¬ Unmarkable ctx i := by
      refine hP.closed.imp_right fun hc i hi => ?_
      obtain ⟨ids', hids', hthere⟩ := hc.items hn rfl
      cases hids.symm.trans hids'
      exact not_unmarkable hc (hthere i hi)
    rw [items_of_list? hids, pure_bind]
    refine (steady_markAssigned hP hmark).bind hP fun _ => ?_
    refine (steady_statements hP fun i hi => hrec i ?_).weaken fun _ _ => trivial
    simpa only [Context.asked, hids, Option.getD_some] using hi

theorem steady_funcDef (hP : P.Lawful ctx) {name : Name} {params body : NodeId}
    (hn : ctx.nodes.get? id = some (.funcDef name params body)) :
    Steady P (fun _ => True) P.GoodFlow (funcDef ctx name params body) := by
  have hnone : Steady P (fun _ => True) P.GoodFlow (pure (.normal none)) :=
    (steady_pure hP _).weaken fun _ _ => nofun
  have hparams : P.dangles ∨ ∃ m, ctx.nodes.get? params = some m :=
    hP.closed.imp_right fun hc => hc.child hn params (List.mem_cons_self ..)
  have hwith := (steady_write hP (.defineWith name params body)).bind hP fun _ => hnone
  have hwithout := (steady_write hP (.defineWithout name body)).bind hP fun _ => hnone
  refine (settled_node hparams).steady_bind hP fun m _ => ?_
  cases m with
  | empty => exact hwithout.weaken fun _ _ => ⟨id, params, hn⟩
  | _ => exact hwith.weaken fun _ _ => ⟨id, hn⟩

theorem steady_ret (hP : P.Lawful ctx) (hrec : Steady P (fun _ => True) P.GoodFlow (rec id)) :
    Steady P (fun _ => True) P.GoodFlow (ret ctx rec id) := by
  have hsignal (i : ValueId) : Steady P (P.good i) P.GoodFlow
      (modifyEnv (·.signalReturn i) >>= fun _ => pure (.ret i)) :=
    steady_writeHandle hP (.signal i) i (fun _ hi => hi) rfl
  by_cases he : ctx.nodes.isEmpty id = true
  · unfold ret
    rw [if_pos he]
    exact (hsignal .nil).weaken_of_rel fun _ _ hr _ => hP.good_nil hr
  · rw [ret_of_not_isEmpty (Bool.eq_false_iff.mpr he)]
    refine hrec.bind hP fun flow => ?_
    exact (hsignal _).weaken_of_rel fun _ _ hr hflow => hP.good_getD hr hflow

/-! ## Calls -/

theorem steady_argumentValues (hP : P.Lawful ctx) {callee : String} {ids : List NodeId}
    {position : Nat} (hrec : ∀ i ∈ ids, Steady P (fun _ => True) P.GoodFlow (rec i)) :
    Steady P (fun _ => True) P.GoodAll (argumentValues ctx rec callee position ids) := by
  induction ids generalizing position with
  | nil => exact (steady_pure hP []).weaken fun _ _ => List.forall_mem_nil _
  | cons id rest ih =>
    refine (steady_required hP _ (hrec id (List.mem_cons_self ..))).bind hP fun v => ?_
    have hrest : Steady P (fun _ => True) P.GoodAll
        (argumentValues ctx rec callee (position + 1) rest) :=
      ih fun i hi => hrec i (List.mem_cons_of_mem _ hi)
    -- the first handle is still good when the others have been evaluated
    have hboth := hrest.frame (F := P.good v) fun _ _ => hP.good_of_moves
    refine (hboth.bind hP fun vs => ?_).weaken fun _ hv => ⟨hv, trivial⟩
    exact (steady_pure hP (v :: vs)).weaken fun _ h => List.forall_mem_cons.mpr h

theorem steady_arguments (hP : P.Lawful ctx) {callee : Name} {args : NodeId}
    (hn : ctx.nodes.get? id = some (.call callee args))
    (hrec : ∀ i ∈ ctx.asked (.call callee args), Steady P (fun _ => True) P.GoodFlow (rec i)) :
    Steady P (fun _ => True) (fun b t => P.GoodAll b.2 t) (arguments ctx rec callee args) := by
  have hargs : P.dangles ∨ ∃ m, ctx.nodes.get? args = some m :=
    hP.closed.imp_right fun hc => hc.child hn args (List.mem_cons_self ..)
  refine Steady.observe (g := fun s => s.env.resolveParams callee) (hP.resolveParams_eq callee)
    fun r => ?_
  cases r with
  | none =>
    exact ⟨pure ([], []), fun t ht => by rw [ht],
      (steady_pure hP ([], [])).weaken fun _ _ => List.forall_mem_nil _⟩
  | some list =>
    refine ⟨_, fun t ht => by rw [ht], ?_⟩
    cases hlist : ctx.nodes.get? list with
    | none =>
      dsimp only [paramNames, listItems]
      rw [node_of_get?_eq_none hlist]
      refine steady_dangling.weaken fun t h => ?_
      obtain ⟨-, ⟨s, hr⟩, hres⟩ := h
      refine (hP.exists_params hr hres).resolve_right ?_
      rintro ⟨m, hm⟩
      cases hlist.symm.trans hm
    | some m =>
      refine (settled_paramNames hP.closed (Or.inr ⟨m, hlist⟩)).steady_bind hP fun params _ => ?_
      refine (settled_listItems hP.closed _ hargs).steady_bind hP fun ids hids => ?_
      have hvalues : Steady P (fun _ => True) P.GoodAll
          (argumentValues ctx rec (ctx.names.lookup callee) 0 ids) :=
        steady_argumentValues hP fun i hi => hrec i (mem_asked_call (congrFun hids default) hi)
      refine (hvalues.bind hP fun values => ?_).weaken fun _ _ => trivial
      by_cases hlen : params.length = values.length
      · rw [if_pos hlen]
        exact (steady_pure hP (params, values)).weaken fun _ h => h
      · rw [if_neg hlen]
        exact (steady_fail hP _).weaken fun _ _ => trivial

/-- How a body ends, seen from the frame of the call. -/
def leave : Outcome Flow → Outcome (Option ValueId)
  | .done _ s => .done s.env.top.returned (left s)
  | .failed e s => .failed e (left s)
  | .dangling => .dangling
  | .exhausted => .exhausted
  | .full s => .full s

theorem inFrame_of_push {params : List Name} {values : List ValueId} {env : Env} {m : Eval Flow}
    (h : s.env.push = .ok env) :
    inFrame params values m s = leave (m (entered s env params values)) := by
  unfold inFrame
  rw [h]
  dsimp only
  unfold entered
  cases m _ <;> rfl

theorem inFrame_of_error {params : List Name} {values : List ValueId} {e : EvalError}
    {m : Eval Flow} (h : s.env.push = .error e) :
    inFrame params values m s = .failed e s := by
  unfold inFrame
  rw [h]

theorem state?_leave {o : Outcome Flow} (h : (leave o).state? = some u) :
    ∃ w, o.state? = some w ∧ u = left w := by
  cases o with
  | done flow w => exact ⟨w, rfl, (Option.some.inj h).symm⟩
  | failed e w => exact ⟨w, rfl, (Option.some.inj h).symm⟩
  | dangling => cases h
  | exhausted => cases h
  | full _ => cases h

/-- What two bodies and their callers need in order to stay abreast.  The relation `R` holds
of the states in which the bodies run. -/
structure Enters (P : Pace) (R : State → State → Prop) (params : List Name)
    (values : List ValueId) (body : Eval Flow) : Prop where
  /-- There is a frame for both bodies, or for none of them, or the first run fails. -/
  enter : ∀ {s t}, P.rel s t → P.GoodAll values t →
    (∃ e, s.env.push = .error e ∧ t.env.push = .error e) ∨
    (∃ es et, s.env.push = .ok es ∧ t.env.push = .ok et ∧
      R (entered s es params values) (entered t et params values)) ∨
    ∃ e et, s.env.push = .error e ∧ t.env.push = .ok et ∧
      P.parts e s (entered t et params values)
  /-- When the bodies are left, the callers are abreast again. -/
  leave : ∀ {s t es et u w}, P.rel s t → s.env.push = .ok es → t.env.push = .ok et →
    (body (entered s es params values)).state? = some u →
    (body (entered t et params values)).state? = some w → R u w →
    P.rel (left u) (left w) ∧ u.env.top.returned = w.env.top.returned ∧
      P.GoodReturn w.env.top.returned (left w)

/-- A body in a frame of its own moves the state as it does in the frame. -/
theorem moves_inFrame (hP : P.Lawful ctx) {params : List Name} {values : List ValueId}
    {body : Eval Flow} (hbody : ∀ ⦃t u⦄, (body t).state? = some u → P.moves t u) ⦃t u : State⦄
    (hu : (inFrame params values body t).state? = some u) : P.moves t u := by
  cases ht : t.env.push with
  | error e =>
    rw [inFrame_of_error ht] at hu
    cases hu
    exact hP.refl t
  | ok env =>
    rw [inFrame_of_push ht] at hu
    obtain ⟨w, hw, rfl⟩ := state?_leave hu
    exact hP.trans (hP.moves_entered params values ht)
      (hP.trans (hbody hw) (hP.moves_left w))

/-- A body in a frame of its own goes as it goes in the frame. -/
theorem steady_inFrame (hP : P.Lawful ctx) {R : State → State → Prop} {params : List Name}
    {values : List ValueId} {body : Eval Flow}
    (hbody : Steady (P.withRel R) (fun _ => True) P.GoodFlow body)
    (henters : Enters P R params values body) :
    Steady P (P.GoodAll values) P.GoodReturn (inFrame params values body) where
  abreast s t hr hgood := by
    rcases henters.enter hr hgood with ⟨e, hs, ht⟩ | ⟨es, et, hs, ht, hR⟩ | ⟨e, et, hs, ht, hparts⟩
    · rw [inFrame_of_error hs, inFrame_of_error ht]
      exact .failed hr
    · rw [inFrame_of_push hs, inFrame_of_push ht]
      have h := hbody.abreast hR trivial
      have hleave {u w : State} := henters.leave (u := u) (w := w) hr hs ht
      generalize body (entered s es params values) = o at h hleave
      generalize body (entered t et params values) = o' at h hleave
      cases h with
      | done hR' _ =>
        obtain ⟨hr', heq, hret⟩ := hleave rfl rfl hR'
        dsimp only [Eval.leave]
        rw [heq]
        exact .done hr' hret
      | failed hR' => exact .failed (hleave rfl rfl hR').1
      | dangling hd => exact .dangling hd
      | exhausted hs => exact .exhausted hs
      | full hf => exact .full hf
      | parted hparts hmoves =>
        refine .parted (hP.parts_left hparts) fun v hv => ?_
        obtain ⟨w, hw, rfl⟩ := state?_leave hv
        exact hP.trans (hmoves w hw) (hP.moves_left w)
    · rw [inFrame_of_error hs, inFrame_of_push ht]
      refine .parted hparts fun v hv => ?_
      obtain ⟨w, hw, rfl⟩ := state?_leave hv
      exact hP.trans (hbody.moves hw) (hP.moves_left w)
  moves := moves_inFrame hP hbody.moves

theorem steady_call (hP : P.Lawful ctx) {callee : Name} {args : NodeId}
    (hn : ctx.nodes.get? id = some (.call callee args))
    (hrec : ∀ i ∈ ctx.asked (.call callee args), Steady P (fun _ => True) P.GoodFlow (rec i))
    (hframe : ∀ body params values, Steady P (fun t => P.Callable body ∧ P.GoodAll values t)
      P.GoodReturn (inFrame params values (rec body))) :
    Steady P (fun _ => True) P.GoodFlow (call ctx rec callee args) := by
  let bound (r : Option ValueId) : Eval Flow := do
    let result := r.getD .nil
    if ctx.resultBinding = .enabled then modifyEnv (·.bind callee result)
    pure (.normal (some result))
  have hbound (r : Option ValueId) : Steady P (P.GoodReturn r) P.GoodFlow (bound r) := by
    have hgood : ∀ ⦃s t⦄, P.rel s t → P.GoodReturn r t → P.good (r.getD .nil) t :=
      fun _ _ hr h => hP.good_getD hr h
    dsimp only [bound]
    by_cases hb : ctx.resultBinding = .enabled
    · rw [if_pos hb]
      exact (steady_writeHandle hP (.bind callee (r.getD .nil)) _ (fun _ hi => hi)
        rfl).weaken_of_rel hgood
    · rw [if_neg hb]
      refine (steady_pure hP _).weaken_of_rel fun s t hr h => ?_
      rintro j ⟨⟩
      exact hgood hr h
  refine Steady.observe (g := fun s => s.env.resolveFunction callee)
    (hP.resolveFunction_eq callee) fun r => ?_
  cases r with
  | none =>
    exact ⟨fail (.nameNotDefined (ctx.names.lookup callee)), fun t ht => by rw [ht],
      (steady_fail hP _).weaken fun _ _ => trivial⟩
  | some body =>
    refine ⟨_, fun t ht => by rw [ht], ?_⟩
    -- that the body may be called is known from here on
    have hargs := (steady_arguments hP hn hrec).frame (F := fun _ => P.Callable body)
      fun _ _ h _ => h
    refine (hargs.bind hP fun b => ?_).weaken fun t h => ?_
    · exact (hframe body b.1 b.2).bind hP hbound
    · obtain ⟨-, ⟨s, hr⟩, hbody⟩ := h
      exact ⟨⟨s, t, callee, hr, hbody⟩, trivial⟩

/-! ## Nodes -/

/-- **Evaluation keeps a pace.**  Two evaluations of a node from related states stay abreast if
those do for which the node asks, and if bodies do in frames of their own. -/
theorem steady_step (hP : P.Lawful ctx)
    (hthere : P.dangles ∨ ∃ n, ctx.nodes.get? id = some n)
    (hrec : ∀ n, ctx.nodes.get? id = some n → ∀ i ∈ ctx.asked n,
      Steady P (fun _ => True) P.GoodFlow (rec i))
    (hframe : ∀ callee args, ctx.nodes.get? id = some (.call callee args) →
      ∀ body params values, Steady P (fun t => P.Callable body ∧ P.GoodAll values t)
        P.GoodReturn (inFrame params values (rec body))) :
    Steady P (fun _ => True) P.GoodFlow (step ctx rec id) := by
  rw [step_eq]
  refine (settled_node hthere).steady_bind hP fun n h => ?_
  have hn := get?_of_node_eq h
  have hnone : Steady P (fun _ => True) P.GoodFlow (pure (.normal none)) :=
    (steady_pure hP _).weaken fun _ _ => nofun
  have hasked := hrec n hn
  cases n with
  | empty => exact hnone
  | paramList r => exact hnone
  | ident name => exact steady_ident hP name
  | int i => exact steady_produce hP (.int i)
  | float x => exact steady_produce hP (.float x.value)
  | nil =>
    refine (steady_pure hP _).weaken_of_rel fun s t hr _ => ?_
    rintro i ⟨⟩
    exact hP.good_nil hr
  | unary op a => exact steady_unary hP op (hasked a (by simp [Context.asked]))
  | binary op a b =>
    exact steady_binary hP op (hasked a (by simp [Context.asked]))
      (hasked b (by simp [Context.asked]))
  | assign target a =>
    have htarget := hP.closed.imp_right fun hc => hc.child hn target (List.mem_cons_self ..)
    exact steady_assign hP htarget (hasked a (by simp [Context.asked]))
  | print a => exact steady_print hP (hasked a (by simp [Context.asked]))
  | cond a b c =>
    exact steady_cond hP (hasked a (by simp [Context.asked]))
      (hasked b (by simp [Context.asked])) (hasked c (by simp [Context.asked]))
  | suite r => exact steady_suite hP hn hasked
  | funcDef name params body => exact steady_funcDef hP hn
  | call callee args => exact steady_call hP hn hasked (hframe callee args hn)
  | ret a => exact steady_ret hP (hasked a (by simp [Context.asked]))

/-- **Nested evaluations keep a pace.**  There is a pace for each number of frames, and a body
that keeps the next one keeps the present one when it runs in a frame of its own.  Where runs
may ask for what does not exist and may run out of their bound, nothing else is needed. -/
theorem steady_nested_of_inFrame {P : Nat → Pace} (hP : ∀ k, (P k).Lawful ctx)
    (hdangles : ∀ k, (P k).dangles) (hstalls : ∀ k, (P k).stalls)
    (hframe : ∀ k (body : Eval Flow), Steady (P (k + 1)) (fun _ => True) (P (k + 1)).GoodFlow body →
      ∀ params values,
        Steady (P k) ((P k).GoodAll values) (P k).GoodReturn (inFrame params values body))
    (fuel k : Nat) (id : NodeId) :
    Steady (P k) (fun _ => True) (P k).GoodFlow (nested ctx fuel id) := by
  induction fuel generalizing k id with
  | zero => exact ⟨fun _ _ _ _ => .exhausted (hstalls k), nofun⟩
  | succ fuel ih =>
    refine steady_step (hP k) (Or.inl (hdangles k)) (fun _ _ c _ => ih k c) ?_
    intro _ _ _ body params values
    exact (hframe k _ (ih (k + 1) body) params values).weaken fun _ h => h.2

end Eval

end TreeWalk
