import TreeWalk.Proofs.Arithmetic
import TreeWalk.Proofs.Direct.SideBySide
import TreeWalk.Tree.Subtree

/-!
# What a run is founded on

A run does nothing that is not in its program.  Every function that a frame knows is defined by a
part of the tree, every name that a frame marks is assigned by a statement of one of the blocks,
and every error is about something that the tree has: a name that it mentions, an operator that it
uses, a function that it defines and calls.

## Frames are what has to be looked at

Whether an error has its cause in the tree is not seen at the node that raises it.  A variable that
is unbound when it is read was marked by some block that is still open, perhaps many calls ago, and
the number of arguments that a function expects was written down where the function was defined.
So the invariant is one of frames, `Grounds.OfFrame`, and the errors are read off it.

## One evaluation at a time

`Grounds.Keeps` says of a piece of evaluation that it leads from states with the invariant to states
with the invariant, and that its error, if it ends with one, has a cause in the tree.  Pieces that
keep their grounds are put in a row by `Keeps.bind`, and the induction on the tree,
`keeps_evaluate`, has one case for each kind of tree.
-/

namespace TreeWalk

/-- What, among the parts of a tree and under a limit on nested calls, an error is about.  Nothing
is said here of malformed nodes. -/
def EvalError.CausedBy (parts : List Tree) (limit : Nat) : EvalError → Prop
  | nameNotDefined x => .ident x ∈ parts ∨ ∃ args, .call x args ∈ parts
  | localVariableUnbound x =>
    .ident x ∈ parts ∧ ∃ ts value, .suite ts ∈ parts ∧ .assign x value ∈ ts
  | typeMismatch symbol _ =>
    (∃ op a, .unary op a ∈ parts ∧ op.symbol = symbol) ∨
      ∃ op a b, .binary op a b ∈ parts ∧ op.symbol = symbol
  | divisionByZero cause => ∃ a b, .binary cause.operator a b ∈ parts
  | integerOverflow operation =>
    (operation = .negation ∧ ∃ a, .unary .neg a ∈ parts) ∨
      ∃ op a b, operation.operator? = some op ∧ .binary op a b ∈ parts
  | arityMismatch f expected got =>
    expected ≠ got ∧ (∃ ps body, .funcDef f (some ps) body ∈ parts ∧ ps.length = expected) ∧
      ∃ args, .call f args ∈ parts ∧ (args.getD []).length = got
  | recursionLimitExceeded l => l = limit ∧ ∃ f args, .call f args ∈ parts
  | malformedNode _ => True

namespace Direct

/-- What a run is founded on. -/
structure Grounds where
  /-- The parts of its program. -/
  parts : List Tree
  /-- How many calls may nest. -/
  limit : Nat

namespace Grounds

variable {G : Grounds} {α β : Type} {f : Frame} {s : State} {x : String}

/-! ## Frames and states -/

/-- A name that some block of the program assigns by one of its own statements. -/
def Assigned (G : Grounds) (x : String) : Prop :=
  ∃ ts value, .suite ts ∈ G.parts ∧ .assign x value ∈ ts

/-- What a frame knows comes from the program. -/
structure OfFrame (G : Grounds) (f : Frame) : Prop where
  /-- Names that are marked are assigned by a block. -/
  marked : ∀ x : String, f.values[x]? = some .unbound → G.Assigned x
  /-- Bodies are parts of the program. -/
  functions : ∀ (x : String) (body : Tree), f.functions[x]? = some body → body.subtrees ⊆ G.parts
  /-- Parameter lists are declared for the name that they are kept for. -/
  params : ∀ (x : String) (ps : List String), f.params[x]? = some ps →
    ∃ body, .funcDef x (some ps) body ∈ G.parts

/-- What all frames know comes from the program. -/
structure OfState (G : Grounds) (s : State) : Prop where
  frames : ∀ f ∈ s.frames, G.OfFrame f

theorem ofFrame_fresh (G : Grounds) : G.OfFrame .fresh where
  marked x h := by
    rw [Frame.fresh, Std.ExtTreeMap.getElem?_empty] at h
    cases h
  functions x body h := by
    rw [Frame.fresh, Std.ExtTreeMap.getElem?_empty] at h
    cases h
  params x ps h := by
    rw [Frame.fresh, Std.ExtTreeMap.getElem?_empty] at h
    cases h

/-- What an insertion leaves is what was inserted or what was there. -/
theorem of_getElem?_insert {m : Std.ExtTreeMap String α} {y : String} {a b : α}
    (h : (m.insert x a)[y]? = some b) : (x = y ∧ a = b) ∨ m[y]? = some b := by
  rw [Std.ExtTreeMap.getElem?_insert] at h
  split_ifs at h with hxy
  · exact Or.inl ⟨Std.LawfulEqOrd.compare_eq_iff_eq.mp hxy, Option.some.inj h⟩
  · exact Or.inr h

theorem OfFrame.bind (h : G.OfFrame f) (x : String) (v : Value) : G.OfFrame (f.bind x v) := by
  refine { h with marked := fun y hy => ?_ }
  obtain ⟨-, hne⟩ | hy := of_getElem?_insert hy
  · cases hne
  · exact h.marked y hy

theorem OfFrame.markUnbound (h : G.OfFrame f) (hx : G.Assigned x) :
    G.OfFrame (f.markUnbound x) := by
  refine { h with marked := fun y hy => ?_ }
  obtain ⟨rfl, -⟩ | hy := of_getElem?_insert hy
  · exact hx
  · exact h.marked y hy

theorem OfFrame.bindAll (h : G.OfFrame f) (bs : List (String × Value)) :
    G.OfFrame (f.bindAll bs) := by
  induction bs generalizing f with
  | nil => exact h
  | cons b rest ih => exact ih (h.bind b.1 b.2)

theorem OfFrame.returned_some (h : G.OfFrame f) (v : Value) :
    G.OfFrame { f with returned := some v } := ⟨h.marked, h.functions, h.params⟩

/-- A definition that is part of the program. -/
theorem OfFrame.define (h : G.OfFrame f) {params : Option (List String)} {body : Tree}
    (hpart : (Tree.funcDef x params body).subtrees ⊆ G.parts) :
    G.OfFrame (f.define x params body) := by
  refine { h with functions := fun y b hy => ?_, params := fun y ps hy => ?_ }
  · obtain ⟨-, rfl⟩ | hy := of_getElem?_insert hy
    · exact List.Subset.trans (List.subset_cons_self _ _) hpart
    · exact h.functions y b hy
  · cases params with
    | none =>
      simp only [Frame.define, Std.ExtTreeMap.getElem?_erase] at hy
      split_ifs at hy
      exact h.params y ps hy
    | some qs =>
      obtain ⟨rfl, rfl⟩ | hy := of_getElem?_insert hy
      · exact ⟨body, hpart (Tree.self_mem_subtrees _)⟩
      · exact h.params y ps hy

theorem ofState_fresh (G : Grounds) (printer : Printer) : G.OfState (.fresh printer) where
  frames f hf := by
    obtain rfl : f = .fresh := List.mem_singleton.mp hf
    exact G.ofFrame_fresh

theorem OfState.top (h : G.OfState s) : G.OfFrame s.top := h.frames _ (List.mem_cons_self ..)

theorem OfState.push (h : G.OfState s) (hf : G.OfFrame f) : G.OfState (s.push f) where
  frames := List.forall_mem_cons.mpr ⟨hf, h.frames⟩

theorem OfState.onTop (h : G.OfState s) {w : Frame → Frame} (hw : G.OfFrame (w s.top)) :
    G.OfState (s.onTop w) where
  frames := List.forall_mem_cons.mpr ⟨hw, fun f hf => h.frames f (List.mem_cons_of_mem _ hf)⟩

theorem OfState.pop (h : G.OfState s) : G.OfState s.pop := by
  obtain ⟨top, below, printer⟩ := s
  cases below with
  | nil => exact h
  | cons caller rest => exact ⟨fun f hf => h.frames f (List.mem_cons_of_mem _ hf)⟩

/-- What a search along the frames finds is in one of them. -/
theorem OfState.exists_of_findSome? (h : G.OfState s) {look : Frame → Option α} {a : α}
    (hfind : s.frames.findSome? look = some a) : ∃ f, G.OfFrame f ∧ look f = some a := by
  obtain ⟨f, hf, hlook⟩ := List.exists_of_findSome?_eq_some hfind
  exact ⟨f, h.frames f hf, hlook⟩

theorem OfState.find? (h : G.OfState s) (hx : s.find? x = some .unbound) : G.Assigned x := by
  obtain ⟨f, hf, hlook⟩ := h.exists_of_findSome? hx
  exact hf.marked x hlook

theorem OfState.function? (h : G.OfState s) {body : Tree} (hx : s.function? x = some body) :
    body.subtrees ⊆ G.parts := by
  obtain ⟨f, hf, hlook⟩ := h.exists_of_findSome? hx
  exact hf.functions x body hlook

theorem OfState.params? (h : G.OfState s) {ps : List String} (hx : s.params? x = some ps) :
    ∃ body, .funcDef x (some ps) body ∈ G.parts := by
  obtain ⟨f, hf, hlook⟩ := h.exists_of_findSome? hx
  exact hf.params x ps hlook

/-! ## Pieces of evaluation -/

/-- An evaluation ends on its grounds: with a result as required, or with an error that has a
cause. -/
inductive Results (G : Grounds) (Q : α → Prop) : EStateM.Result EvalError State α → Prop where
  | ok {a : α} {s : State} : G.OfState s → Q a → Results G Q (.ok a s)
  | error {e : EvalError} {s : State} :
    G.OfState s → e.CausedBy G.parts G.limit → Results G Q (.error e s)

/-- A piece of evaluation keeps its grounds. -/
def Keeps (G : Grounds) (Q : α → Prop) (m : Eval α) : Prop :=
  ∀ ⦃s⦄, G.OfState s → G.Results Q (m s)

/-- Nothing is required of a result. -/
def Any (_ : α) : Prop := True

section Pieces

variable {Q : α → Prop} {P : β → Prop} {m : Eval α}

theorem keeps_pure {a : α} (h : Q a) : G.Keeps Q (pure a) := fun _ hs => .ok hs h

theorem keeps_throw {e : EvalError} (h : e.CausedBy G.parts G.limit) :
    G.Keeps Q (throw e : Eval α) := fun _ hs => .error hs h

/-- Pieces in a row. -/
theorem Keeps.bind {k : α → Eval β} (h : G.Keeps Q m) (hk : ∀ a, Q a → G.Keeps P (k a)) :
    G.Keeps P (m >>= k) := by
  intro s hs
  have hr := h hs
  generalize hm : m s = o at hr
  cases hr with
  | ok ht hq =>
    rw [bind_ok hm]
    exact hk _ hq ht
  | error ht he =>
    rw [bind_error hm]
    exact .error ht he

/-- Pieces in a row, of which the first may have any result. -/
theorem Keeps.then {k : α → Eval β} (h : G.Keeps Any m) (hk : ∀ a, G.Keeps P (k a)) :
    G.Keeps P (m >>= k) := h.bind fun a _ => hk a

/-- Writing into the top frame. -/
theorem keeps_onTop {w : Frame → Frame} (h : ∀ f, G.OfFrame f → G.OfFrame (w f)) :
    G.Keeps Any (modify (·.onTop w)) := fun _ hs => .ok (hs.onTop (h _ hs.top)) trivial

theorem keeps_emit (line : String) : G.Keeps Any (emit line) :=
  fun _ hs => .ok ⟨hs.frames⟩ trivial

theorem keeps_ofExcept {r : Except EvalError α}
    (h : ∀ e, r = .error e → e.CausedBy G.parts G.limit) : G.Keeps Any (ofExcept r) := by
  cases r with
  | ok a => exact keeps_pure trivial
  | error e => exact keeps_throw (h e rfl)

theorem keeps_operand {symbol : String} {flow : Flow}
    (h : (EvalError.typeMismatch symbol .missing).CausedBy G.parts G.limit) :
    G.Keeps Any (operand symbol flow) := by
  unfold operand
  cases flow.value? with
  | some v => exact keeps_pure trivial
  | none => exact keeps_throw h

theorem keeps_required (slot : Slot) (flow : Flow) : G.Keeps Any (required slot flow) := by
  unfold required
  cases flow.value? with
  | some v => exact keeps_pure trivial
  | none => exact keeps_throw trivial

/-- A variable is read.  If it is marked, some block assigns it. -/
theorem keeps_ident (h : .ident x ∈ G.parts) : G.Keeps Any (ident x) := by
  intro s hs
  unfold ident
  rw [get_bind]
  match hfind : s.find? x with
  | some (.bound v) => exact keeps_pure trivial hs
  | some .unbound =>
    have hcause : (EvalError.localVariableUnbound x).CausedBy G.parts G.limit :=
      ⟨h, hs.find? hfind⟩
    exact keeps_throw hcause hs
  | none =>
    have hcause : (EvalError.nameNotDefined x).CausedBy G.parts G.limit := Or.inl h
    exact keeps_throw hcause hs

theorem keeps_leave (v : Value) : G.Keeps Any (leave v) :=
  Keeps.then (keeps_onTop fun _ hf => hf.returned_some v) fun _ => keeps_pure trivial

theorem causedBy_ofUnary {op : UnaryOp} {a : Tree} {e : EvalError} (h : .unary op a ∈ G.parts)
    (he : e.OfUnary op) : e.CausedBy G.parts G.limit := by
  cases e with
  | typeMismatch symbol operands =>
    cases operands with
    | unary operand => exact Or.inl ⟨op, a, h, he.symm⟩
    | binary left right => cases he
    | missing => cases he
  | integerOverflow operation =>
    obtain ⟨rfl, rfl⟩ := he
    exact Or.inl ⟨rfl, a, h⟩
  | _ => cases he

theorem causedBy_ofBinary {op : BinaryOp} {a b : Tree} {e : EvalError}
    (h : .binary op a b ∈ G.parts) (he : e.OfBinary op) : e.CausedBy G.parts G.limit := by
  cases e with
  | typeMismatch symbol operands =>
    cases operands with
    | binary left right => exact Or.inr ⟨op, a, b, h, he.symm⟩
    | unary operand => cases he
    | missing => cases he
  | divisionByZero cause =>
    obtain rfl : cause.operator = op := he
    exact ⟨a, b, h⟩
  | integerOverflow operation => exact Or.inr ⟨op, a, b, he, h⟩
  | _ => cases he

end Pieces

/-! ## Calls -/

/-- Bodies that are parts of the program keep their grounds when a call enters them. -/
def Enters (G : Grounds) (enter : Entry) : Prop :=
  ∀ ⦃body : Tree⦄, body.subtrees ⊆ G.parts → (∃ f args, .call f args ∈ G.parts) →
    ∀ bs : List (String × Value), G.Keeps Any (enter bs body)

theorem enters_refuse (G : Grounds) : G.Enters (refuse G.limit) :=
  fun _ _ hcall _ => keeps_throw ⟨rfl, hcall⟩

theorem enters_inFrame {m : Tree → Eval Flow}
    (h : ∀ ⦃body⦄, body.subtrees ⊆ G.parts → G.Keeps Any (m body)) : G.Enters (inFrame m) := by
  intro body hbody _ bs s hs
  have hr := h hbody (hs.push (G.ofFrame_fresh.bindAll bs))
  unfold inFrame
  generalize m body _ = o at hr
  cases hr with
  | ok ht _ => exact .ok ht.pop trivial
  | error ht he => exact .error ht.pop he

section Calls

variable {binding : ResultBinding} {enter : Entry} {callee : String} {args : Option (List Tree)}

/-- What a call binds to the parameters.  The parameters are those of a definition, and if there
are more or fewer of them than arguments, that is the cause of the error. -/
theorem keeps_bindings (hpart : .call callee args ∈ G.parts)
    (hargs : G.Keeps (·.length = (args.getD []).length)
      (evaluateArgs binding enter callee args)) :
    G.Keeps Any (bindings binding enter callee args) := by
  intro s hs
  unfold bindings
  rw [get_bind]
  match hparams : s.params? callee with
  | none => exact .ok hs trivial
  | some params =>
    obtain ⟨body, hdef⟩ := hs.params? hparams
    refine hargs.bind (fun values hvalues => ?_) hs
    by_cases hlen : params.length = values.length
    · rw [if_pos hlen]
      exact keeps_pure trivial
    · rw [if_neg hlen]
      exact keeps_throw ⟨hlen, ⟨params, body, hdef, rfl⟩, args, hpart, hvalues.symm⟩

/-- A call keeps its grounds if its arguments do. -/
theorem keeps_call (he : G.Enters enter) (hpart : .call callee args ∈ G.parts)
    (hargs : G.Keeps (·.length = (args.getD []).length)
      (evaluateArgs binding enter callee args)) :
    G.Keeps Any (evaluate binding enter (.call callee args)) := by
  intro s hs
  rw [evaluate_call, get_bind]
  match hfunction : s.function? callee with
  | none =>
    have hcause : (EvalError.nameNotDefined callee).CausedBy G.parts G.limit :=
      Or.inr ⟨args, hpart⟩
    exact keeps_throw hcause hs
  | some body =>
    have hresult : G.Keeps Any
        (bindings binding enter callee args >>= fun bs => enter bs body) :=
      (keeps_bindings hpart hargs).then
        fun bs => he (hs.function? hfunction) ⟨callee, args, hpart⟩ bs
    refine hresult.then (fun v => ?_) hs
    by_cases hb : binding = .enabled
    · rw [if_pos hb]
      exact (keeps_onTop fun _ hf => hf.bind callee v).then fun _ => keeps_pure trivial
    · rw [if_neg hb]
      exact keeps_pure trivial

end Calls

/-! ## The induction on the tree -/

/-- Before a block runs, the names that it assigns are marked. -/
theorem keeps_markAll {all : List Tree} (hpart : .suite all ∈ G.parts) {ts : List Tree}
    (hts : ts ⊆ all) : G.Keeps Any (ts.forM markAssigned) := by
  induction ts with
  | nil => exact keeps_pure trivial
  | cons t rest ih =>
    obtain ⟨ht, hrest⟩ := List.cons_subset.mp hts
    refine Keeps.then (m := markAssigned t) ?_ fun _ => ih hrest
    cases t with
    | assign target value =>
      exact keeps_onTop fun _ hf => hf.markUnbound ⟨all, value, hpart, ht⟩
    | _ => exact keeps_pure trivial

section Trees

variable {binding : ResultBinding} {enter : Entry}

mutual

/-- **A part of the program keeps its grounds**, if bodies do when they are entered. -/
theorem keeps_evaluate (he : G.Enters enter) :
    ∀ {t : Tree}, t.subtrees ⊆ G.parts → G.Keeps Any (evaluate binding enter t)
  | .ident x, h => by
    rw [evaluate]
    exact keeps_ident (h (List.mem_singleton_self _))
  | .int _, _ | .float _, _ | .nil, _ => by
    rw [evaluate]
    exact keeps_pure trivial
  | .unary op a, h => by
    obtain ⟨hpart, ha⟩ := List.cons_subset.mp h
    rw [evaluate]
    refine (keeps_evaluate he ha).then fun flow => ?_
    refine (keeps_operand (Or.inl ⟨op, a, hpart, rfl⟩)).then fun v => ?_
    refine (keeps_ofExcept fun e herr => ?_).then fun w => keeps_pure trivial
    exact causedBy_ofUnary hpart (Arithmetic.ofUnary_of_unary herr)
  | .binary op a b, h => by
    obtain ⟨hpart, hab⟩ := List.cons_subset.mp h
    obtain ⟨ha, hb⟩ := List.append_subset.mp hab
    have hmissing : (EvalError.typeMismatch op.symbol .missing).CausedBy G.parts G.limit :=
      Or.inr ⟨op, a, b, hpart, rfl⟩
    rw [evaluate]
    refine (keeps_evaluate he ha).then fun flow => (keeps_operand hmissing).then fun v => ?_
    refine (keeps_evaluate he hb).then fun flow => (keeps_operand hmissing).then fun w => ?_
    refine (keeps_ofExcept fun e herr => ?_).then fun u => keeps_pure trivial
    exact causedBy_ofBinary hpart (Arithmetic.ofBinary_of_binary herr)
  | .assign target value, h => by
    obtain ⟨-, hvalue⟩ := List.cons_subset.mp h
    rw [evaluate]
    refine (keeps_evaluate he hvalue).then fun flow => (keeps_required _ flow).then fun v => ?_
    exact (keeps_onTop fun _ hf => hf.bind target v).then fun _ => keeps_pure trivial
  | .print none, _ => by
    rw [evaluate]
    exact (keeps_emit _).then fun _ => keeps_pure trivial
  | .print (some a), h => by
    obtain ⟨-, ha⟩ := List.cons_subset.mp h
    rw [evaluate]
    refine (keeps_evaluate he ha).then fun flow => (keeps_required _ flow).then fun v => ?_
    exact (keeps_emit _).then fun _ => keeps_pure trivial
  | .cond test thenBranch elseBranch, h => by
    obtain ⟨-, hparts⟩ := List.cons_subset.mp h
    obtain ⟨hboth, helse⟩ := List.append_subset.mp hparts
    obtain ⟨htest, hthen⟩ := List.append_subset.mp hboth
    rw [evaluate]
    refine (keeps_evaluate he htest).then fun flow => (keeps_required _ flow).then fun v => ?_
    by_cases hv : v.truthy = true
    · rw [if_pos hv]
      exact keeps_evaluate he hthen
    · rw [if_neg hv]
      exact keeps_evaluateElse he helse
  | .suite ts, h => by
    obtain ⟨hpart, hts⟩ := List.cons_subset.mp h
    rw [evaluate]
    exact (keeps_markAll hpart (List.Subset.refl ts)).then fun _ =>
      keeps_evaluateStatements he hts
  | .funcDef name params body, h => by
    rw [evaluate]
    exact (keeps_onTop fun _ hf => hf.define h).then fun _ => keeps_pure trivial
  | .call callee none, h => by
    refine keeps_call he (h (List.mem_cons_self ..)) ?_
    rw [evaluateArgs]
    exact keeps_pure rfl
  | .call callee (some ts), h => by
    obtain ⟨hpart, hts⟩ := List.cons_subset.mp h
    refine keeps_call he hpart ?_
    rw [evaluateArgs]
    exact keeps_evaluateArguments he hts
  | .ret none, _ => by
    rw [evaluate]
    exact keeps_leave .nil
  | .ret (some value), h => by
    obtain ⟨-, hvalue⟩ := List.cons_subset.mp h
    rw [evaluate]
    exact (keeps_evaluate he hvalue).then fun flow => keeps_leave _

theorem keeps_evaluateElse (he : G.Enters enter) :
    ∀ {o : Option Tree}, Tree.subtreesOption o ⊆ G.parts →
      G.Keeps Any (evaluateElse binding enter o)
  | none, _ => by
    rw [evaluateElse]
    exact keeps_pure trivial
  | some t, h => by
    rw [evaluateElse]
    exact keeps_evaluate he h

theorem keeps_evaluateStatements (he : G.Enters enter) :
    ∀ {ts : List Tree}, Tree.subtreesList ts ⊆ G.parts →
      G.Keeps Any (evaluateStatements binding enter ts)
  | [], _ => by
    rw [evaluateStatements]
    exact keeps_pure trivial
  | t :: rest, h => by
    obtain ⟨ht, hrest⟩ := List.append_subset.mp h
    rw [evaluateStatements]
    refine (keeps_evaluate he ht).then fun flow => ?_
    cases flow with
    | normal v => exact keeps_evaluateStatements he hrest
    | ret v => exact keeps_pure trivial

/-- There are as many values as arguments. -/
theorem keeps_evaluateArguments (he : G.Enters enter) :
    ∀ {callee : String} {position : Nat} {ts : List Tree}, Tree.subtreesList ts ⊆ G.parts →
      G.Keeps (·.length = ts.length) (evaluateArguments binding enter callee position ts)
  | callee, position, [], _ => by
    rw [evaluateArguments]
    exact keeps_pure rfl
  | callee, position, t :: rest, h => by
    obtain ⟨ht, hrest⟩ := List.append_subset.mp h
    rw [evaluateArguments]
    refine (keeps_evaluate he ht).then fun flow => (keeps_required _ flow).then fun v => ?_
    refine (keeps_evaluateArguments he hrest).bind fun vs hvs => keeps_pure ?_
    exact congrArg (· + 1) hvs

end

end Trees

/-! ## The induction on the frames -/

/-- Bodies keep their grounds whatever number of frames may still be pushed. -/
theorem enters_entry (G : Grounds) (binding : ResultBinding) :
    ∀ frames : Nat, G.Enters (entry ⟨G.limit, binding⟩ frames)
  | 0 => G.enters_refuse
  | frames + 1 => by
    refine enters_inFrame fun body hbody => ?_
    rw [evaluateWithin_eq]
    exact keeps_evaluate (enters_entry G binding frames) hbody

/-- A tree keeps its grounds, which are its own parts. -/
theorem keeps_evaluateWithin (t : Tree) (settings : Settings) :
    Keeps ⟨t.subtrees, settings.limit⟩ Any
      (evaluateWithin settings settings.limit t) := by
  rw [evaluateWithin_eq]
  exact keeps_evaluate (enters_entry _ settings.resultBinding settings.limit) (List.Subset.refl _)

end Grounds

/-! ## Runs -/

/-- A run fails for a cause in its tree. -/
theorem causedBy_of_run {t : Tree} {settings : Settings} {printer : Printer} {e : EvalError}
    (h : (run t settings printer).1 = .error e) : e.CausedBy t.subtrees settings.limit := by
  have hkeeps := Grounds.keeps_evaluateWithin t settings (Grounds.ofState_fresh _ printer)
  unfold run at h
  generalize evaluateWithin settings settings.limit t _ = o at hkeeps h
  cases hkeeps with
  | ok _ _ => cases h
  | error _ hcause =>
    cases h
    exact hcause

end Direct

namespace Program

variable {t : Tree} {p : Program} {settings : Settings} {printer : Printer} {e : EvalError}

/-- **Errors have causes in the program.**  If the run of a program fails, then its tree has
something that the error is about: the name that is not defined is read or called; the variable
that is not bound is read, and assigned by a statement of a block; an operator has the symbol, the
zero division or the overflow that is complained about; a function is declared with as many
parameters, and called with as many arguments, as the error says; or the limit is the one that the
run was given, and there is a call. -/
theorem error_has_cause (h : ofTree t = .ok p) {s : State}
    (hrun : p.run settings printer = .failed e s) : e.CausedBy t.subtrees settings.limit := by
  have hending := Direct.ending_run h settings printer
  rw [hrun] at hending
  have hfails : (Direct.run t settings printer).1 = .error e := by
    rw [← Option.some.inj hending]
  exact Direct.causedBy_of_run hfails

/-- A function that reads a variable, and another that calls the first before it assigns the
variable, which has a value when both are called. -/
def callersBlock : List Tree :=
  [.funcDef "g" none (.suite [.print (some (.ident "x"))]),
    .funcDef "f" none (.suite [.call "g" none, .assign "x" (.int 1)]),
    .assign "x" (.int 2),
    .call "f" none]

/-- The variable is unbound because of a block in which it is not read. -/
theorem error_has_cause_callersBlock :
    ∃ p s, ofTree (.suite callersBlock) = .ok p ∧
      p.run .default .silent = .failed (.localVariableUnbound "x") s ∧
      .ident "x" ∈ (Tree.suite callersBlock).subtrees ∧
      ∃ ts value, .suite ts ∈ (Tree.suite callersBlock).subtrees ∧ .assign "x" value ∈ ts := by
  obtain ⟨p, hp⟩ := exists_ofTree callersBlock
  have hrun : Direct.run (.suite callersBlock) .default .silent =
      (.error (.localVariableUnbound "x"), .silent) := by decide +kernel
  have hending := Direct.ending_run hp .default .silent
  rw [hrun] at hending
  obtain ⟨s, hs⟩ := Outcome.exists_failed_of_ending? hending
  exact ⟨p, s, hp, hs, error_has_cause hp hs⟩

end Program

end TreeWalk
