import TreeWalk.Proofs.Eval.Stops
import TreeWalk.Proofs.Eval.Termination

/-!
# Nothing is read that is not there

A store of nodes may be put together in any way: nodes of any kind in any slot, and nodes that
have themselves below them.  As long as the store is closed, no evaluation over it asks for a
node, a list or a value that does not exist, whatever was run before and however that ended.

## Without a bound

Where nodes go round in circles evaluation need not end, and the bound of `eval` says nothing
then.  So the statements here are about evaluation under any bound.  An evaluation that
asked for something that does not exist would do so after finitely many steps, and hence
under some bound.

## In the course of an evaluation

That an evaluation begins and ends in a sound state is known (`steady_nested`).  The states
in between are those of its visits, and here the same fact is used once more, in another way.
`guarded` refuses to evaluate anything that is not in order.  A rule dangles if one of its
visits does (`stopsBy_step`), and it does not dangle under `guarded`, since every visit from
a sound state is in order.  So nothing is ever refused, and `guarded` visits what evaluation
visits.
-/

namespace TreeWalk

namespace Eval

variable {α β : Type} {ctx : Context} {rec : NodeId → Eval Flow} {s t u : State} {vs : List Visit}
  {id : NodeId} {n : Node} {fuel limit depth : Nat}

/-! ## What is in range -/

/-- A node that is there, in a sound state that has no more frames than the limit allows. -/
structure InRange (ctx : Context) (limit : Nat) (id : NodeId) (s : State) : Prop where
  /-- The node is there. -/
  node : ctx.nodes.Has id
  /-- Everything to which the state refers is there. -/
  sound : s.Sound ctx.nodes
  /-- The limit of the state. -/
  limit_eq : s.env.limit = limit
  /-- There are at most as many frames above the global one. -/
  depth_le : s.env.depth ≤ limit

open Classical in
/-- Evaluation that dangles as soon as it is to evaluate something that is not in range. -/
noncomputable def guarded (ctx : Context) (limit fuel : Nat) (id : NodeId) : Eval Flow := fun s =>
  if InRange ctx limit id s then nested ctx fuel id s else .dangling

theorem guarded_of_inRange (h : InRange ctx limit id s) :
    guarded ctx limit fuel id s = nested ctx fuel id s := if_pos h

theorem size_le_of_guarded (h : (guarded ctx limit fuel id s).state? = some t) :
    s.values.size ≤ t.values.size := by
  by_cases hin : InRange ctx limit id s
  · rw [guarded_of_inRange hin] at h
    exact kept_size.nested h
  · rw [show guarded ctx limit fuel id s = .dangling from if_neg hin] at h
    cases h

/-- What is in range is related to itself. -/
theorem InRange.rel (h : InRange ctx limit id s) (dangles stalls : Prop) :
    (Pace.sound ctx.nodes dangles stalls limit s.env.depth).rel s s :=
  ⟨rfl, h.limit_eq, rfl, Or.inr h.sound⟩

/-- From sound states nothing is refused. -/
theorem steady_guarded (hc : ctx.nodes.Closed) (hid : ctx.nodes.Has id) (hle : depth ≤ limit) :
    Steady (Pace.sound ctx.nodes False True limit depth) (fun _ => True)
      (Pace.sound ctx.nodes False True limit depth).GoodFlow (guarded ctx limit fuel id) where
  abreast := by
    rintro s t ⟨rfl, hlimit, hdepth, hs⟩ -
    have hin : InRange ctx limit id s :=
      ⟨hid, hs.resolve_left not_false, hlimit, hdepth ▸ hle⟩
    rw [guarded_of_inRange hin]
    exact (steady_nested (Or.inr hc) (Or.inr hid) (Or.inl trivial)).abreast
      ⟨rfl, hlimit, hdepth, hs⟩ trivial
  moves _ _ h := size_le_of_guarded h

theorem steady_step_guarded (hc : ctx.nodes.Closed) (hid : ctx.nodes.Has id)
    (hle : depth ≤ limit) :
    Steady (Pace.sound ctx.nodes False True limit depth) (fun _ => True)
      (Pace.sound ctx.nodes False True limit depth).GoodFlow
      (step ctx (guarded ctx limit fuel) id) := by
  refine steady_step (lawful_sound (Or.inr hc)) (Or.inr hid) ?_ ?_
  · exact fun n hn c hcn => steady_guarded hc (hc.asked hn hcn) hle
  · intro callee args hn
    refine steady_inFrame_sound (Or.inr hc) (fun _ _ _ => size_le_of_guarded) ?_
    exact fun hlt body hbody => steady_guarded hc (hbody.resolve_left not_false) hlt

/-- Runs that are beside themselves and may not dangle do not. -/
theorem Abreast.ne_dangling {P : Pace} {post : α → State → Prop} {o : Outcome α}
    (h : Abreast P post o o) (hd : ¬ P.dangles) : o ≠ .dangling := by
  rintro rfl
  cases h with
  | dangling h => exact hd h

/-- What `guarded` visits from a sound state is in range. -/
theorem inRange_of_mem_visits_guarded (hc : ctx.nodes.Closed) (h : InRange ctx limit id s) :
    ∀ v ∈ visits ctx (guarded ctx limit fuel) id s, InRange ctx limit v.1 v.2 := by
  intro v hv
  by_contra hout
  have hdangling : step ctx (guarded ctx limit fuel) id s = .dangling :=
    (stopsBy_step ctx (guarded ctx limit fuel) id s).dangling hv (if_neg hout)
  have hstep : Steady (Pace.sound ctx.nodes False True limit s.env.depth) _ _
      (step ctx (guarded ctx limit fuel) id) := steady_step_guarded hc h.node h.depth_le
  exact (hstep.abreast (h.rel False True) trivial).ne_dangling not_false hdangling

/-- **What is visited is in range.** -/
theorem inRange_of_mem_visits (hc : ctx.nodes.Closed) (h : InRange ctx limit id s) :
    ∀ v ∈ visits ctx (nested ctx fuel) id s, InRange ctx limit v.1 v.2 := by
  have hguarded : ∀ v ∈ visits ctx (guarded ctx limit fuel) id s, InRange ctx limit v.1 v.2 :=
    inRange_of_mem_visits_guarded hc h
  have hagree : AgreeAt (guarded ctx limit fuel) (nested ctx fuel)
      (visits ctx (guarded ctx limit fuel) id s) :=
    fun v hv => (guarded_of_inRange (hguarded v hv)).symm
  rw [visits_congr hagree]
  exact hguarded

/-- Everything that is evaluated on the way is in range. -/
theorem inRange_of_mem_nestedTrail (hc : ctx.nodes.Closed) (h : InRange ctx limit id s) :
    ∀ v ∈ nestedTrail ctx fuel id s, InRange ctx limit v.1 v.2 := by
  induction fuel generalizing id s with
  | zero =>
    intro v hv
    cases hv
  | succ fuel ih =>
    intro v hv
    rcases List.mem_append.mp hv with hv | hv
    · obtain ⟨w, hw, hvw⟩ := List.mem_flatMap.mp hv
      exact ih (inRange_of_mem_visits hc h w hw) v hvw
    · rw [List.mem_singleton.mp hv]
      exact h

/-! ## Reading -/

/-- Whatever is evaluated from here, under any bound, nothing is read that is not there. -/
structure ReadsInRange (ctx : Context) (limit : Nat) (id : NodeId) (s : State) : Prop
    extends InRange ctx limit id s where
  /-- Nothing is asked for that does not exist. -/
  ne_dangling : ∀ fuel, nested ctx fuel id s ≠ .dangling
  /-- What is left behind, by a failure too, is in range. -/
  left : ∀ fuel t, (nested ctx fuel id s).state? = some t → InRange ctx limit id t
  /-- The value of a flow is there. -/
  flow : ∀ fuel flow t, nested ctx fuel id s = .done flow t →
    ∀ i, flow.value? = some i → i.index < t.values.size

theorem InRange.abreast (hc : ctx.nodes.Closed) (h : InRange ctx limit id s) (fuel : Nat) :
    Abreast (Pace.sound ctx.nodes False True limit s.env.depth)
      (Pace.sound ctx.nodes False True limit s.env.depth).GoodFlow (nested ctx fuel id s)
      (nested ctx fuel id s) :=
  (steady_nested (Or.inr hc) (Or.inr h.node) (Or.inl trivial)).abreast (h.rel False True) trivial

/-- Whatever is in range is read in range. -/
theorem InRange.reads (hc : ctx.nodes.Closed) (h : InRange ctx limit id s) :
    ReadsInRange ctx limit id s where
  toInRange := h
  ne_dangling fuel := (h.abreast hc fuel).ne_dangling not_false
  left fuel t ht := by
    obtain ⟨-, hlimit, hdepth, hs⟩ := (h.abreast hc fuel).rel (fun _ _ _ hp => hp) ht ht
    exact ⟨h.node, hs.resolve_left not_false, hlimit, hdepth ▸ h.depth_le⟩
  flow fuel flow t ht i hi := by
    have habreast := h.abreast hc fuel
    rw [ht] at habreast
    cases habreast with
    | done _ hgood => exact (hgood i hi).resolve_left not_false

/-- A run of what is in range asks for nothing that does not exist, its result included. -/
theorem runWithin_ne_dangling (h : ReadsInRange ctx limit id s) (fuel : Nat) :
    runWithin ctx fuel id s ≠ .dangling := by
  unfold runWithin
  cases hnested : nested ctx fuel id s with
  | done flow t =>
    dsimp only [finish]
    unfold result
    cases hv : flow.value? with
    | none => exact nofun
    | some i =>
      have hi : i.index < t.values.size := h.flow fuel flow t hnested i hv
      have hholds : t.values.Holds i t.values.values[i.index] := Array.getElem?_eq_getElem hi
      dsimp only
      rw [value_bind hholds]
      exact nofun
  | failed e t => exact nofun
  | dangling => exact absurd hnested (h.ne_dangling fuel)
  | exhausted => exact nofun
  | full _ => exact nofun

end Eval

/-! ## Interpreters -/

namespace Eval

variable {ctx : Context} {s t u : State} {id : NodeId} {limit fuel : Nat} {printer : Printer}

/-- A node that is evaluated to an end under some bound is there. -/
theorem has_of_ends (h : (nested ctx fuel id s).state? = some t) : ctx.nodes.Has id := by
  cases fuel with
  | zero => cases h
  | succ fuel => exact exists_node_of_ends h

/-- What an interpreter has whenever it is between two runs. -/
structure AtRest (ctx : Context) (limit : Nat) (s : State) : Prop where
  /-- Everything to which the state refers is there. -/
  sound : s.Sound ctx.nodes
  /-- The limit is the one with which it began. -/
  limit_eq : s.env.limit = limit
  /-- There is the global frame alone. -/
  depth_eq : s.env.depth = 0

theorem AtRest.inRange (h : AtRest ctx limit s) (hid : ctx.nodes.Has id) :
    InRange ctx limit id s where
  node := hid
  sound := h.sound
  limit_eq := h.limit_eq
  depth_le := by
    rw [h.depth_eq]
    exact Nat.zero_le limit

/-- Evaluation leaves what an interpreter has. -/
theorem AtRest.nested (hc : ctx.nodes.Closed) (h : AtRest ctx limit s)
    (hend : (nested ctx fuel id s).state? = some t) : AtRest ctx limit t where
  sound := (((h.inRange (has_of_ends hend)).reads hc).left fuel t hend).sound
  limit_eq := (kept_keepsFrames.nested hend).limit_eq.trans h.limit_eq
  depth_eq := (kept_keepsFrames.nested hend).depth_eq.trans h.depth_eq

/-- Unwinding does as well. -/
theorem AtRest.unwind (h : AtRest ctx limit s) :
    AtRest ctx limit { s with env := s.env.unwind } where
  sound := h.sound.of_frames fun _ => Env.mem_frames_of_mem_unwind
  limit_eq := h.limit_eq
  depth_eq := rfl

/-- Every state in which an interpreter can be is one at rest. -/
theorem atRest_of_arrived (hc : ctx.nodes.Closed) (h : State.Arrived ctx limit printer s) :
    AtRest ctx limit s := by
  induction h with
  | fresh => exact ⟨.fresh limit printer, rfl, rfl⟩
  | run fuel root _ hrun ih =>
    obtain ⟨t, ht, rfl | ⟨-, rfl⟩⟩ := state?_runWithin hrun
    · exact ih.nested hc ht
    · exact (ih.nested hc ht).unwind
  | eval fuel id _ heval ih => exact ih.nested hc heval

/-- The frames above the global one, and the global one. -/
theorem InRange.length_frames_le (h : InRange ctx limit id s) :
    s.env.frames.length ≤ limit + 1 := Nat.succ_le_succ h.depth_le

/-! ## No evaluation reads what is not there -/

/-- **Everything that is read is there.**  Over a closed store an interpreter is always in a
state whose frames refer to values and nodes that there are, and it has the global frame and
at most as many more as the limit allows.  Whatever it evaluates or runs next, under whatever
bound, nothing is asked for that does not exist, and the same holds of each evaluation on the
way, with what it yields and what it leaves behind.  Nodes may be of any kind in any slot and
may have themselves below them, and earlier runs may have failed. -/
theorem reads_in_range (hc : ctx.nodes.Closed) (limit : Nat) (printer : Printer) :
    (∀ s, State.Reached ctx limit printer s → State.Arrived ctx limit printer s) ∧
    ∀ s, State.Arrived ctx limit printer s →
      s.Sound ctx.nodes ∧ 1 ≤ s.env.frames.length ∧ s.env.frames.length ≤ limit + 1 ∧
      ∀ id, ctx.nodes.Has id → ∀ fuel,
        nested ctx fuel id s ≠ .dangling ∧ runWithin ctx fuel id s ≠ .dangling ∧
        ∀ v ∈ nestedTrail ctx fuel id s,
          1 ≤ v.2.env.frames.length ∧ v.2.env.frames.length ≤ limit + 1 ∧
          ReadsInRange ctx limit v.1 v.2 := by
  refine ⟨fun s => arrived_of_reached, fun s hs => ?_⟩
  have hrest : AtRest ctx limit s := atRest_of_arrived hc hs
  have hframes : s.env.frames.length = 1 := congrArg (· + 1) hrest.depth_eq
  refine ⟨hrest.sound, Nat.le_of_eq hframes.symm, by omega, fun id hid fuel => ?_⟩
  have hreads : ReadsInRange ctx limit id s := (hrest.inRange hid).reads hc
  refine ⟨hreads.ne_dangling fuel, runWithin_ne_dangling hreads fuel, fun v hv => ?_⟩
  have hin : InRange ctx limit v.1 v.2 :=
    inRange_of_mem_nestedTrail hc (hrest.inRange hid) v hv
  exact ⟨Nat.succ_pos _, hin.length_frames_le, hin.reads hc⟩

/-- A literal as a target and as the parameter list of a function, and a block that is the
second of its own statements and the body of that function. -/
def tangled : Context where
  names := ⟨#["", "f"], ∅⟩
  nodes := ⟨#[.empty, .int 7, .assign ⟨1⟩ ⟨1⟩, .suite ⟨0, 2⟩, .funcDef ⟨1⟩ ⟨1⟩ ⟨3⟩, .call ⟨1⟩ ⟨2⟩],
    #[⟨1⟩, ⟨3⟩]⟩
  resultBinding := .enabled

/-- After the definition, a call fails.  Then the block is evaluated beyond the bound of `eval`,
and finds under every bound what it asks for. -/
theorem reads_in_range_tangled :
    ∃ s t, tangled.nodes.Closed ∧ State.Reached tangled 1 .silent s ∧
      run tangled ⟨5⟩ s = .failed (.malformedNode (.badParameters .literal)) t ∧
      t.Sound tangled.nodes ∧ (eval tangled ⟨3⟩ t).state?.isNone ∧
      ∀ fuel, runWithin tangled fuel ⟨3⟩ t ≠ .dangling := by
  have hc : tangled.nodes.Closed := by decide +kernel
  obtain ⟨harrived, hreads⟩ := reads_in_range hc 1 .silent
  let s : State := (State.fresh 1 .silent).write (.defineWith ⟨1⟩ ⟨1⟩ ⟨3⟩)
  have hs : State.Reached tangled 1 .silent s := .eval ⟨4⟩ .fresh rfl
  have hrun : run tangled ⟨5⟩ s = .failed (.malformedNode (.badParameters .literal)) s := rfl
  have ht : State.Reached tangled 1 .silent s := .run ⟨5⟩ hs (congrArg Outcome.state? hrun)
  obtain ⟨hsound, -, -, hnext⟩ := hreads s (harrived s ht)
  have hbound : (eval tangled ⟨3⟩ s).state?.isNone := by decide +kernel
  exact ⟨s, s, hc, hs, hrun, hsound, hbound, fun fuel => (hnext ⟨3⟩ ⟨_, rfl⟩ fuel).2.1⟩

end Eval

end TreeWalk
