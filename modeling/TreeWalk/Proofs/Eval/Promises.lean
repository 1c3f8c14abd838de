import TreeWalk.Proofs.Eval.Globals
import TreeWalk.Proofs.Eval.InPlace
import TreeWalk.Proofs.Eval.Stops
import TreeWalk.Proofs.Layout.Coverage

/-!
# Blocks that go through keep their promises

A block that assigns a name promises to bind it.  It may break the promise in two ways.  It may
stop before the assignment, and a block inside it may mark the name again behind the assignment
and stop before its own.  What stops a block is a failure or a return.

A failure ends everything around it.  A return ends the blocks and choices around it, as long
as it stands in place.  So if the returns of a program stand in place, then a block that goes
through contains no block of the same frame that was stopped (`goesThrough_of_mem_trail`).  None
of its names is lost then, and the promise is kept (`bound_of_blockAssigns`).

Where a return stands as an operand this is different.  It stops the blocks inside the operand,
but the block around it goes on.
-/

namespace TreeWalk

namespace Tree

/-! ## Parts of trees whose returns stand in place -/

mutual

/-- In each part of a tree whose returns stand in place they stand in place. -/
theorem returnsInPlace_of_mem_subtrees : ∀ {t : Tree} {b : Bool}, t.returnsInPlace b = true →
    ∀ u ∈ t.subtrees, ∃ b, u.returnsInPlace b = true
  | ident s, b, h => List.forall_mem_singleton.mpr ⟨b, h⟩
  | int n, b, h => List.forall_mem_singleton.mpr ⟨b, h⟩
  | float x, b, h => List.forall_mem_singleton.mpr ⟨b, h⟩
  | nil, b, h => List.forall_mem_singleton.mpr ⟨b, h⟩
  | unary op operand, b, h =>
    List.forall_mem_cons.mpr ⟨⟨b, h⟩, returnsInPlace_of_mem_subtrees (t := operand) h⟩
  | binary op left right, b, h => by
    obtain ⟨hleft, hright⟩ := Bool.and_eq_true_iff.mp h
    exact List.forall_mem_cons.mpr ⟨⟨b, h⟩, List.forall_mem_append.mpr
      ⟨returnsInPlace_of_mem_subtrees hleft, returnsInPlace_of_mem_subtrees hright⟩⟩
  | assign target value, b, h =>
    List.forall_mem_cons.mpr ⟨⟨b, h⟩, returnsInPlace_of_mem_subtrees (t := value) h⟩
  | print argument, b, h =>
    List.forall_mem_cons.mpr ⟨⟨b, h⟩, returnsInPlace_of_mem_subtreesOption (o := argument) h⟩
  | cond test thenBranch elseBranch, b, h => by
    obtain ⟨hthen, helse⟩ := Bool.and_eq_true_iff.mp h
    obtain ⟨htest, hthen⟩ := Bool.and_eq_true_iff.mp hthen
    exact List.forall_mem_cons.mpr ⟨⟨b, h⟩, List.forall_mem_append.mpr
      ⟨List.forall_mem_append.mpr
        ⟨returnsInPlace_of_mem_subtrees htest, returnsInPlace_of_mem_subtrees hthen⟩,
        returnsInPlace_of_mem_subtreesOption helse⟩⟩
  | suite statements, b, h =>
    List.forall_mem_cons.mpr ⟨⟨b, h⟩, returnsInPlace_of_mem_subtreesList (l := statements) h⟩
  | funcDef name params body, b, h =>
    List.forall_mem_cons.mpr ⟨⟨b, h⟩, returnsInPlace_of_mem_subtrees (t := body) h⟩
  | call callee none, b, h => List.forall_mem_singleton.mpr ⟨b, h⟩
  | call callee (some args), b, h =>
    List.forall_mem_cons.mpr ⟨⟨b, h⟩, returnsInPlace_of_mem_subtreesList (l := args) h⟩
  | ret value, b, h => by
    obtain ⟨-, hvalue⟩ := Bool.and_eq_true_iff.mp h
    exact List.forall_mem_cons.mpr ⟨⟨b, h⟩, returnsInPlace_of_mem_subtreesOption hvalue⟩

theorem returnsInPlace_of_mem_subtreesOption : ∀ {o : Option Tree} {b : Bool},
    returnsInPlaceOption b o = true →
      ∀ u ∈ subtreesOption o, ∃ b, u.returnsInPlace b = true
  | none, _, _ => List.forall_mem_nil _
  | some _, _, h => returnsInPlace_of_mem_subtrees h

theorem returnsInPlace_of_mem_subtreesList : ∀ {l : List Tree} {b : Bool},
    returnsInPlaceList b l = true → ∀ u ∈ subtreesList l, ∃ b, u.returnsInPlace b = true
  | [], _, _ => List.forall_mem_nil _
  | _ :: _, _, h => by
    obtain ⟨hfirst, hrest⟩ := Bool.and_eq_true_iff.mp h
    exact List.forall_mem_append.mpr
      ⟨returnsInPlace_of_mem_subtrees hfirst, returnsInPlace_of_mem_subtreesList hrest⟩

end

end Tree

namespace Eval

variable {ctx : Context} {s t : State} {id : NodeId} {x : Name} {b : Bool} {v : Visit}
  {value : Option ValueId}

/-! ## Blocks that go through -/

/-- An evaluation goes through, with or without a value, and is no return. -/
def GoesThrough (ctx : Context) (v : Visit) : Prop :=
  ∃ value t, eval ctx v.1 v.2 = .done (.normal value) t

/-- The visits of an evaluation that is done are done. -/
theorem done_of_mem_visits {flow : Flow} (h : eval ctx id s = .done flow t)
    (hv : v ∈ visits ctx (eval ctx) id s) : ∃ flow u, eval ctx v.1 v.2 = .done flow u := by
  rw [eval_eq_step (state?_of_done h)] at h
  exact (stopsBy_step ctx (eval ctx) id s).done h hv

/-- What stands where no statement stands does not return. -/
theorem not_ret_of_inPlace (hp : InPlace ctx false id) (i : ValueId) :
    eval ctx id s ≠ .done (.ret i) t := by
  intro h
  revert hp
  refine eval_induction (P := fun id s t => eval ctx id s = .done (.ret i) t →
    ¬ InPlace ctx false id) (fun id s t hend ih h hp => ?_) (state?_of_done h) h
  obtain ⟨n, u, hn, hthreads, -⟩ := exists_threads hend
  have hr : n.kind ≠ .ret := by
    intro hk
    cases n with
    | ret a => cases eq_true_of_inPlace_ret hp hn
    | _ => cases hk
  have hstep : step ctx (eval ctx) id s = .done (.ret i) t := (eval_eq_step hend).symm.trans h
  obtain ⟨hcall, w, hw, hret⟩ := exists_visit_of_ret hn hr hstep
  refine ih w hw t (state?_of_done hret) hret ?_
  rcases inPlace_of_mem_visits hend hp hn hw (hthreads.mem_asked hcall w hw) with h | h
  · exact h
  · exact h.1

/-- What an evaluation that goes through visits in its own frame goes through too. -/
theorem goesThrough_of_mem_visits (h : GoesThrough ctx (id, s)) (hp : InPlace ctx b id)
    (hv : v ∈ visits ctx (eval ctx) id s) (hdepth : v.2.env.depth = s.env.depth) :
    GoesThrough ctx v ∧ ∃ b, InPlace ctx b v.1 := by
  obtain ⟨value, t, hdone⟩ := h
  have hend : (eval ctx id s).state? = some t := state?_of_done hdone
  obtain ⟨n, u, hn, hthreads, -⟩ := exists_threads hend
  have hasked : v.1 ∈ ctx.asked n := by
    rcases hthreads.asked_or_above (fun _ _ _ => kept_keepsFrames.eval) v hv with h | h
    · exact h.1
    · omega
  obtain ⟨flow, w, hvdone⟩ := done_of_mem_visits hdone hv
  rcases inPlace_of_mem_visits hend hp hn hv hasked with hv' | ⟨hv', hpass⟩
  · cases flow with
    | normal value => exact ⟨⟨value, w, hvdone⟩, false, hv'⟩
    | ret i => exact absurd hvdone (not_ret_of_inPlace hv' i)
  · cases flow with
    | normal value => exact ⟨⟨value, w, hvdone⟩, b, hv'⟩
    | ret i => cases hdone.symm.trans (hpass i w hvdone)

/-- **Everything goes through in the frame of an evaluation that goes through.** -/
theorem goesThrough_of_mem_trail (h : GoesThrough ctx (id, s)) (hp : InPlace ctx b id) :
    ∀ v ∈ trail ctx id s, v.2.env.depth = s.env.depth → GoesThrough ctx v := by
  obtain ⟨value, t, hdone⟩ := h
  have hstart : GoesThrough ctx (id, s) ∧ ∃ b, InPlace ctx b id := ⟨⟨value, t, hdone⟩, b, hp⟩
  suffices htrail : ∀ v ∈ trail ctx id s, s.env.depth ≤ v.2.env.depth ∧
      (v.2.env.depth = s.env.depth → GoesThrough ctx v ∧ ∃ b, InPlace ctx b v.1) from
    fun v hv hdepth => ((htrail v hv).2 hdepth).1
  refine trail_induction (Q := fun i r => s.env.depth ≤ r.env.depth ∧
      (r.env.depth = s.env.depth → GoesThrough ctx (i, r) ∧ ∃ b, InPlace ctx b i))
    (fun i r w hend hQ v hv => ?_) (state?_of_done hdone) ⟨Nat.le_refl _, fun _ => hstart⟩
  -- a visit in the frame of the evaluation is made in that frame, and not above it
  obtain ⟨hle, hthrough⟩ := hQ
  obtain ⟨n, u, hn, hthreads, -⟩ := exists_threads hend
  have hup := hthreads.depth_le (fun _ _ _ => kept_keepsFrames.eval) v hv
  refine ⟨Nat.le_trans hle hup, fun hdepth => ?_⟩
  have hsame : r.env.depth = s.env.depth := Nat.le_antisymm (hdepth ▸ hup) hle
  obtain ⟨hi, b, hpi⟩ := hthrough hsame
  exact goesThrough_of_mem_visits hi hpi hv (hdepth.trans hsame.symm)

/-- Nothing is lost by an evaluation that goes through. -/
theorem not_lost_of_goesThrough (h : GoesThrough ctx (id, s)) (hp : InPlace ctx b id) :
    ¬ Lost ctx (fuel ctx s.env.limit) x (id, s) := by
  rintro ⟨v, hv, hdepth, n, hcut⟩
  obtain ⟨value, t, hdone⟩ := goesThrough_of_mem_trail h hp v hv hdepth
  -- the block comes to the same under the bound of `eval` and under the one at which it was cut
  obtain ⟨u, hu⟩ := hcut.ends
  exact hcut.stopped value t ((nested_eq_of_ends (state?_of_done hdone) hu).trans hdone)

/-! ## Promises -/

/-- A block that goes through has bound the names that it assigns. -/
theorem bound_of_blockAssigns (hp : InPlace ctx b id) (hblock : BlockAssigns ctx id x)
    (h : eval ctx id s = .done (.normal value) t) : Bound x t :=
  (bound_or_lost_block hblock (state?_of_done h) fun _ _ _ => bound_or_lost).resolve_right
    (not_lost_of_goesThrough ⟨value, t, h⟩ hp)

/-- The top frame does not mark a name as unbound. -/
def Unmarked (x : Name) (s : State) : Prop := s.env.local? x ≠ some .unbound

theorem Bound.unmarked (h : Bound x s) : Unmarked x s := by
  obtain ⟨i, hi⟩ := h
  intro hmarked
  cases hi.symm.trans hmarked

theorem unmarked_of_keptOrBound (h : KeptOrBound x s t) (hs : Unmarked x s) : Unmarked x t := by
  rcases h with h | h
  · unfold Unmarked
    rw [h]
    exact hs
  · exact h.unmarked

/-- A name that is not marked before an evaluation is not marked after it, unless it is lost. -/
theorem unmarked_or_lost {n : Nat} (h : (nested ctx n id s).state? = some t) (hs : Unmarked x s) :
    Unmarked x t ∨ Lost ctx n x (id, s) := by
  induction n generalizing id s t with
  | zero => cases h
  | succ n ih =>
    by_cases hblock : BlockAssigns ctx id x
    · have hbound := bound_or_lost_block hblock h fun _ _ _ => bound_or_lost
      exact hbound.imp_left Bound.unmarked
    · exact or_lost_of_not_blockAssigns unmarked_of_keptOrBound hblock h (fun _ _ _ => ih) hs

end Eval

namespace Program

variable {tr : Tree} {p : Program}

/-- Every block of a program whose returns stand in place stands in place. -/
theorem inPlace_of_blockAssigns (h : ofTree tr = .ok p) (hplace : tr.returnsInPlace true = true)
    (settings : Settings) {id : NodeId} {x : Name}
    (hblock : Eval.BlockAssigns (p.context settings) id x) :
    ∃ b, Eval.InPlace (p.context settings) b id := by
  obtain ⟨r, -, hn, -, -⟩ := hblock
  have hcovered := coveredBy_of_ofTree h (fun _ => ⟨true, rfl⟩)
    (Tree.returnsInPlace_of_mem_subtrees hplace)
  rcases hcovered hn with hlist | ⟨o, ho, hin⟩
  · cases hlist
  · cases o with
    | none => exact ⟨true, none, ho, rfl⟩
    | some u =>
      obtain ⟨b, hb⟩ := hin u rfl
      exact ⟨b, some u, ho, hb⟩

/-- **Blocks that go through keep their promises.**  Let all returns of a program stand in
place.  Whatever the state is in which a block of the program is evaluated, if the block goes
through, then every name that it assigns by a statement of its own is bound in the top frame
afterwards.  And if a run goes through that begins in a frame which marks no name as unbound,
then the frame marks none afterwards. -/
theorem completed_blocks_bind (h : ofTree tr = .ok p) (hplace : tr.returnsInPlace true = true)
    (settings : Settings) :
    (∀ (id : NodeId) (s t : State) (value : Option ValueId) (x : Name),
      Eval.BlockAssigns (p.context settings) id x →
      eval (p.context settings) id s = .done (.normal value) t →
        ∃ i, t.env.local? x = some (.bound i)) ∧
    ∀ (s t : State) (value : Option ValueId), (∀ x, s.env.local? x ≠ some .unbound) →
      eval (p.context settings) p.root s = .done (.normal value) t →
        ∀ x, t.env.local? x ≠ some .unbound := by
  constructor
  · intro id s t value x hblock heval
    obtain ⟨b, hp⟩ := inPlace_of_blockAssigns h hplace settings hblock
    exact Eval.bound_of_blockAssigns hp hblock heval
  · intro s t value hs heval x
    have hp : Eval.InPlace (p.context settings) true p.root :=
      Eval.inPlace_of_holds (holds_of_ofTree h) hplace
    exact (Eval.unmarked_or_lost (Eval.state?_of_done heval) (hs x)).resolve_right
      (Eval.not_lost_of_goesThrough ⟨value, t, heval⟩ hp)

/-- A block that assigns a variable, in which a block behind the assignment assigns it again, and
a function whose body returns before it has assigned another one. -/
def assignedTwice : Tree :=
  .suite [.assign "x" (.int 1), .cond (.ident "x") (.suite [.assign "x" (.int 2)]) none,
    .funcDef "f" none (.suite [.cond (.int 1) (.ret none) none, .assign "y" (.int 3)]),
    .call "f" none]

/-- The program of `assignedTwice`. -/
def assignedTwiceProgram : Program where
  names := (assignedTwice.lower .fresh).2.names
  nodes := ⟨#[.empty, .int 1, .ident ⟨1⟩, .assign ⟨2⟩ ⟨1⟩, .ident ⟨1⟩, .int 2, .ident ⟨1⟩,
    .assign ⟨6⟩ ⟨5⟩, .suite ⟨0, 1⟩, .cond ⟨4⟩ ⟨8⟩ ⟨0⟩, .int 1, .ret ⟨0⟩, .cond ⟨10⟩ ⟨11⟩ ⟨0⟩,
    .int 3, .ident ⟨2⟩, .assign ⟨14⟩ ⟨13⟩, .suite ⟨1, 2⟩, .funcDef ⟨3⟩ ⟨0⟩ ⟨16⟩, .call ⟨3⟩ ⟨0⟩,
    .suite ⟨3, 4⟩], #[⟨7⟩, ⟨12⟩, ⟨15⟩, ⟨3⟩, ⟨9⟩, ⟨17⟩, ⟨18⟩]⟩
  root := ⟨19⟩

/-- The body of the function breaks its promise, and the two blocks of the global frame keep
theirs. -/
theorem completed_blocks_bind_assignedTwice :
    ofTree assignedTwice = .ok assignedTwiceProgram ∧
      assignedTwice.returnsInPlace true = true ∧
      ∃ t, eval (assignedTwiceProgram.context ⟨1, .enabled⟩) ⟨19⟩ (.fresh 1 .silent) =
          .done (.normal none) t ∧
        (∃ i, t.env.local? ⟨1⟩ = some (.bound i)) ∧ ∀ x, t.env.local? x ≠ some .unbound := by
  have hp : ofTree assignedTwice = .ok assignedTwiceProgram :=
    ofTree_eq_of_nodes rfl (by decide +kernel) (by decide +kernel)
  have hplace : assignedTwice.returnsInPlace true = true := by decide
  obtain ⟨hblocks, hruns⟩ := completed_blocks_bind hp hplace ⟨1, .enabled⟩
  have hend : (eval (assignedTwiceProgram.context ⟨1, .enabled⟩) ⟨19⟩
      (.fresh 1 .silent)).ending? = some (.ok (.normal none), .silent) := by decide +kernel
  obtain ⟨t, ht⟩ := Outcome.exists_done_of_ending? hend
  have hassigns : Eval.BlockAssigns (assignedTwiceProgram.context ⟨1, .enabled⟩) ⟨19⟩ ⟨1⟩ :=
    ⟨⟨3, 4⟩, _, rfl, rfl, ⟨3⟩, List.mem_cons_self .., ⟨2⟩, ⟨1⟩, rfl, rfl⟩
  have hfresh : ∀ x, (State.fresh 1 .silent).env.local? x ≠ some .unbound := nofun
  exact ⟨hp, hplace, t, ht, hblocks _ _ t none _ hassigns ht, hruns _ t none hfresh ht⟩

end Program

end TreeWalk
