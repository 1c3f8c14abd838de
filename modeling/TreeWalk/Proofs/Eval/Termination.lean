import TreeWalk.Proofs.Course
import TreeWalk.Proofs.Eval.Handles
import TreeWalk.Proofs.Eval.Machine

/-!
# Evaluation ends

In a store whose nodes come after everything to which they refer, `NodeStore.Descends`, every
evaluation ends.  Within one frame evaluation only goes down to smaller numbers.  A call goes
to a body, which may have any number, but it takes a frame, and there is a limit on those.
So a node needs at most as many nested evaluations as there are frames left times nodes, and
its own number on top (`Enough`).  Frames are counted by the depth of the environment, which
is known at every node because bodies give their frames back.

That the bound is never reached does not depend on what the state refers to.  That nothing
is asked for that does not exist does, and for this the state has to be sound.  The states of
an interpreter are (`sound_of_arrived`).

## Giving up

All of this is about evaluations that have room for their values.  On a machine an evaluation has
one more way to come to an end: it is given up when there is no handle for another value.  By
`Outcome.OnMachine` that happens only if the evaluation would end with more values than there are
handles, so the statement for the machine follows.
-/

namespace TreeWalk

namespace NodeStore

variable {ns : NodeStore} {id c : NodeId} {n : Node}

/-- Every node comes after the nodes and the items to which it refers, and its list is
there. -/
structure Descends (ns : NodeStore) : Prop where
  /-- Children come before their parents. -/
  children_lt : ∀ ⦃id n⦄, ns.get? id = some n → ∀ c ∈ n.children, c.index < id.index
  /-- Lists are there, and their items come before the nodes that have the lists. -/
  items_lt : ∀ ⦃id n r⦄, ns.get? id = some n → n.range? = some r →
    ∃ ids, ns.list? r = some ids ∧ ∀ c ∈ ids, c.index < id.index

theorem Ordered.descends (h : ns.Ordered) : ns.Descends := ⟨h.children_lt, h.items_lt⟩

/-- What comes before a node is there. -/
theorem has_of_lt (hn : ns.get? id = some n) (h : c.index < id.index) : ns.Has c :=
  has_iff.mpr (Nat.lt_trans h (index_lt_of_get? hn))

theorem Descends.closed (h : ns.Descends) : ns.Closed where
  child _ _ hn c hc := has_of_lt hn (h.children_lt hn c hc)
  items _ _ _ hn hr := by
    obtain ⟨ids, hids, hlt⟩ := h.items_lt hn hr
    exact ⟨ids, hids, fun c hc => has_of_lt hn (hlt c hc)⟩

/-- A rule asks for nodes that come before its own. -/
theorem Descends.asked_lt {ctx : Context} (h : ctx.nodes.Descends)
    (hn : ctx.nodes.get? id = some n) (hc : c ∈ ctx.asked n) : c.index < id.index := by
  have hitems {a : NodeId} {m : Node} {r : NodeRange} {ids : List NodeId}
      (ha : ctx.nodes.get? a = some m) (hr : m.range? = some r)
      (hids : ctx.nodes.list? r = some ids) (hci : c ∈ ids) : c.index < a.index := by
    obtain ⟨ids', hids', hlt⟩ := h.items_lt ha hr
    cases hids.symm.trans hids'
    exact hlt c hci
  rcases mem_asked hc with hch | ⟨r, ids, hr, hids, hci⟩ | ⟨a, hac, m, r, ids, ha, hr, hids, hci⟩
  · exact h.children_lt hn c hch
  · exact hitems hn hr hids hci
  · exact Nat.lt_trans (hitems ha hr hids hci) (h.children_lt hn a hac)

end NodeStore

/-- A node could be evaluated with so many nested evaluations: one for each node in each
frame that may still be pushed, and one for each node up to this one.  A node that is not
there counts as the last. -/
def Enough (ns : NodeStore) (limit depth fuel : Nat) (id : NodeId) : Prop :=
  (limit - depth) * ns.size + min id.index (ns.size - 1) < fuel

namespace Enough

variable {ns : NodeStore} {limit depth fuel : Nat} {id c : NodeId} {n : Node}

/-- What is enough for a node is enough for what comes before it. -/
theorem of_lt (h : Enough ns limit depth (fuel + 1) id) (hn : ns.get? id = some n)
    (hlt : c.index < id.index) : Enough ns limit depth fuel c := by
  have hid := NodeStore.index_lt_of_get? hn
  unfold Enough at h ⊢
  omega

/-- What is enough for a call is enough for the body, which takes a frame. -/
theorem body (h : Enough ns limit depth (fuel + 1) id) (hn : ns.get? id = some n)
    (hlt : depth < limit) (b : NodeId) : Enough ns limit (depth + 1) fuel b := by
  have hid := NodeStore.index_lt_of_get? hn
  have hframes : (limit - depth) * ns.size = (limit - (depth + 1)) * ns.size + ns.size := by
    rw [show limit - depth = limit - (depth + 1) + 1 by omega, Nat.succ_mul]
  unfold Enough at h ⊢
  omega

end Enough

/-- The bound of evaluation is enough for every node. -/
theorem enough_fuel (ctx : Context) (limit depth : Nat) (id : NodeId) :
    Enough ctx.nodes limit depth (Eval.fuel ctx limit) id := by
  have hframes : (limit - depth) * ctx.nodes.size ≤ limit * ctx.nodes.size :=
    Nat.mul_le_mul_right _ (Nat.sub_le ..)
  unfold Enough Eval.fuel
  rw [Nat.succ_mul]
  omega

namespace Eval

variable {ctx : Context} {dangles stalls : Prop} {limit depth fuel : Nat} {s t u : State}
  {id : NodeId}

/-- At the limit no body is entered. -/
theorem steady_inFrame_of_le (hc : dangles ∨ ctx.nodes.Closed) (hle : limit ≤ depth)
    (params : List Name) (values : List ValueId) {body : Eval Flow}
    (hbody : ∀ ⦃t u⦄, (body t).state? = some u → t.values.size ≤ u.values.size)
    {pre : State → Prop} {post : Option ValueId → State → Prop} :
    Steady (Pace.sound ctx.nodes dangles stalls limit depth) pre post
      (inFrame params values body) where
  abreast := by
    rintro s t ⟨rfl, hlimit, hdepth, hs⟩ -
    have hpush : s.env.push = .error (.recursionLimitExceeded s.env.limit) :=
      Env.push_of_le (by rw [hlimit, hdepth]; exact hle)
    rw [inFrame_of_error hpush]
    exact .failed ⟨rfl, hlimit, hdepth, hs⟩
  moves := moves_inFrame (lawful_sound hc) hbody

/-- A body that may be called is evaluated in a frame of its own, if there is one for it. -/
theorem steady_inFrame_sound (hc : dangles ∨ ctx.nodes.Closed) {rec : NodeId → Eval Flow}
    (hmoves : ∀ ⦃id t u⦄, (rec id t).state? = some u → t.values.size ≤ u.values.size)
    (hrec : depth < limit → ∀ body, dangles ∨ ctx.nodes.Has body →
      Steady (Pace.sound ctx.nodes dangles stalls limit (depth + 1)) (fun _ => True)
        (Pace.sound ctx.nodes dangles stalls limit (depth + 1)).GoodFlow (rec body))
    (body : NodeId) (params : List Name) (values : List ValueId) :
    Steady (Pace.sound ctx.nodes dangles stalls limit depth)
      (fun t => (Pace.sound ctx.nodes dangles stalls limit depth).Callable body ∧
        (Pace.sound ctx.nodes dangles stalls limit depth).GoodAll values t)
      (Pace.sound ctx.nodes dangles stalls limit depth).GoodReturn
      (inFrame params values (rec body)) := by
  refine .of_prop (moves_inFrame (lawful_sound hc) fun _ _ h => hmoves h) fun hcall => ?_
  by_cases hlt : depth < limit
  · exact steady_inFrame (lawful_sound hc) (hrec hlt body (has_of_callable hcall))
      (enters_sound params values _)
  · exact steady_inFrame_of_le hc (Nat.not_lt.mp hlt) params values fun _ _ h => hmoves h

/-- **Evaluation from a sound state.**  If nothing may be asked for that does not exist, the
store is closed and the node is there; if the bound may not be reached, nodes come after what
they refer to and the bound is enough.  Then a sound state stays sound, and nothing else
happens than what may happen. -/
theorem steady_nested (hc : dangles ∨ ctx.nodes.Closed) (hid : dangles ∨ ctx.nodes.Has id)
    (hfuel : stalls ∨ ctx.nodes.Descends ∧ Enough ctx.nodes limit depth fuel id) :
    Steady (Pace.sound ctx.nodes dangles stalls limit depth) (fun _ => True)
      (Pace.sound ctx.nodes dangles stalls limit depth).GoodFlow (nested ctx fuel id) := by
  induction fuel generalizing id depth with
  | zero =>
    refine ⟨fun s t _ _ => .exhausted (hfuel.resolve_right ?_), nofun⟩
    rintro ⟨-, h⟩
    exact Nat.not_lt_zero _ h
  | succ fuel ih =>
    refine steady_step (lawful_sound hc) hid ?_ ?_
    · intro n hn c hcn
      refine ih (hc.imp_right fun hc => hc.asked hn hcn) ?_
      exact hfuel.imp_right fun ⟨hd, he⟩ => ⟨hd, he.of_lt hn (hd.asked_lt hn hcn)⟩
    · intro callee args hn
      refine steady_inFrame_sound hc (fun _ _ _ => kept_size.nested) fun hlt body hbody => ?_
      exact ih hbody (hfuel.imp_right fun ⟨hd, he⟩ => ⟨hd, he.body hn hlt body⟩)

/-! ## Single evaluations -/

/-- An evaluation does not reach its bound, whatever the state refers to. -/
theorem eval_ne_exhausted (hd : ctx.nodes.Descends) (id : NodeId) (s : State) :
    eval ctx id s ≠ .exhausted := by
  have hsteady := @steady_nested ctx True False s.env.limit s.env.depth _ id (Or.inl trivial)
    (Or.inl trivial) (Or.inr ⟨hd, enough_fuel ctx s.env.limit s.env.depth id⟩)
  have h := hsteady.abreast ⟨rfl, rfl, rfl, Or.inl trivial⟩ trivial
  intro hex
  rw [show nested ctx (Eval.fuel ctx s.env.limit) id s = .exhausted from hex] at h
  cases h with
  | exhausted hstalls => exact hstalls

/-- On the machine an evaluation does not reach its bound either. -/
theorem machine_eval_ne_exhausted (hd : ctx.nodes.Descends) (id : NodeId) (s : State) :
    Machine.eval ctx id s ≠ .exhausted := by
  have hmachine := Machine.onMachine_eval ctx id s
  intro hex
  rw [hex] at hmachine
  generalize ho : eval ctx id s = o at hmachine
  cases hmachine with
  | same _ => exact eval_ne_exhausted hd id s ho

/-- An evaluation that ends leaves a sound state behind if it began in one. -/
theorem sound_of_ends (hc : ctx.nodes.Closed) (hs : s.Sound ctx.nodes)
    (h : (nested ctx fuel id s).state? = some t) : t.Sound ctx.nodes := by
  have hid : ctx.nodes.Has id := by
    cases fuel with
    | zero => cases h
    | succ fuel =>
      have hstep : (step ctx (nested ctx fuel) id s).state? = some t := h
      exact exists_node_of_ends hstep
  have hsteady := @steady_nested ctx False True s.env.limit s.env.depth fuel id (Or.inr hc)
    (Or.inr hid) (Or.inl trivial)
  obtain ⟨-, -, -, ht⟩ := (hsteady.abreast ⟨rfl, rfl, rfl, Or.inr hs⟩ trivial).rel
    (fun _ _ _ hp => hp) h h
  exact ht.resolve_left not_false

/-- Interpreters are in a sound state whenever they are between two runs. -/
theorem sound_of_arrived (hc : ctx.nodes.Closed) {printer : Printer}
    (h : State.Arrived ctx limit printer s) : s.Sound ctx.nodes := by
  induction h with
  | fresh => exact .fresh limit printer
  | run _ root _ hrun ih =>
    obtain ⟨t, ht, rfl | ⟨-, rfl⟩⟩ := state?_runWithin hrun
    · exact sound_of_ends hc ih ht
    · exact (sound_of_ends hc ih ht).of_frames fun _ => Env.mem_frames_of_mem_unwind
  | eval _ id _ heval ih => exact sound_of_ends hc ih heval

/-- The evaluation of a node beside itself. -/
theorem abreast_eval (hd : ctx.nodes.Descends) (hid : ctx.nodes.Has id) (hs : s.Sound ctx.nodes) :
    Abreast (Pace.sound ctx.nodes False False s.env.limit s.env.depth)
      (Pace.sound ctx.nodes False False s.env.limit s.env.depth).GoodFlow (eval ctx id s)
      (eval ctx id s) :=
  (steady_nested (Or.inr hd.closed) (Or.inr hid)
    (Or.inr ⟨hd, enough_fuel ctx s.env.limit s.env.depth id⟩)).abreast
    ⟨rfl, rfl, rfl, Or.inr hs⟩ trivial

/-- An evaluation from a sound state ends. -/
theorem eval_ends (hd : ctx.nodes.Descends) (hid : ctx.nodes.Has id) (hs : s.Sound ctx.nodes) :
    ∃ u, (eval ctx id s).state? = some u := by
  have h := abreast_eval hd hid hs
  generalize eval ctx id s = o at h
  cases h with
  | done _ _ => exact ⟨_, rfl⟩
  | failed _ => exact ⟨_, rfl⟩
  | dangling hdangles => exact hdangles.elim
  | exhausted hstalls => exact hstalls.elim
  | full hfills => exact hfills.elim
  | parted hparts _ => exact hparts.elim

/-- A run from a sound state ends. -/
theorem run_ends (hd : ctx.nodes.Descends) (hid : ctx.nodes.Has id) (hs : s.Sound ctx.nodes) :
    ∃ u, (run ctx id s).state? = some u := by
  have h := abreast_eval hd hid hs
  unfold run
  generalize eval ctx id s = o at h
  cases h with
  | @done flow t _ _ hflow =>
    dsimp only [finish]
    unfold result
    cases hv : flow.value? with
    | none => exact ⟨t, rfl⟩
    | some i =>
      have hi : i.index < t.values.size := (hflow i hv).resolve_left not_false
      have hholds : t.values.Holds i t.values.values[i.index] := Array.getElem?_eq_getElem hi
      exact ⟨t, congrArg Outcome.state? (value_bind hholds _)⟩
  | failed _ => exact ⟨_, rfl⟩
  | dangling hdangles => exact hdangles.elim
  | exhausted hstalls => exact hstalls.elim
  | full hfills => exact hfills.elim
  | parted hparts _ => exact hparts.elim

end Eval

/-- Every program runs to an end. -/
theorem Program.run_ends {t : Tree} {p : Program} (h : ofTree t = .ok p) (settings : Settings)
    (printer : Printer) : ∃ u, (p.run settings printer).state? = some u := by
  have hd : (p.context settings).nodes.Descends := (sound_of_ofTree h).nodes.descends
  have hroot : (p.context settings).nodes.Has p.root :=
    NodeStore.has_iff.mpr (holds_of_ofTree h).index_lt
  exact Eval.run_ends hd hroot (.fresh settings.limit printer)

namespace Eval

/-! ## Every run ends -/

/-- **Every evaluation ends.**  In a store whose nodes come after what they refer to, the bound
on nested evaluations is reached by no evaluation, whatever the state, the limit and the
setting for results.  From a sound state, as all states of an interpreter are, an evaluation
goes through or fails.  So every program that was loaded runs to an end, however its functions
call themselves and one another.

On the machine it is the same, unless there are more values in the end than there are handles.
Then, and only then, the evaluation or the run is given up. -/
theorem evaluation_ends :
    (∀ ctx : Context, ctx.nodes.Descends →
      (∀ id s, eval ctx id s ≠ .exhausted ∧ Machine.eval ctx id s ≠ .exhausted) ∧
      (∀ id s, ctx.nodes.Has id → s.Sound ctx.nodes →
        ∃ u, (eval ctx id s).state? = some u ∧
          (Machine.eval ctx id s = eval ctx id s ∧ u.Fits ∨
            ∃ t, Machine.eval ctx id s = .full t ∧ ¬ t.Fits ∧ ¬ u.Fits)) ∧
      ∀ limit printer s, State.Arrived ctx limit printer s → s.Sound ctx.nodes) ∧
    ∀ (t : Tree) (p : Program) (settings : Settings) (printer : Printer),
      Program.ofTree t = .ok p →
        ∃ u, (p.run settings printer).state? = some u ∧
          (p.execute settings printer = p.run settings printer ∧ u.Fits ∨
            ∃ t, p.execute settings printer = .full t ∧ ¬ t.Fits ∧ ¬ u.Fits) := by
  refine ⟨fun ctx hd => ⟨?_, ?_, fun _ _ _ => sound_of_arrived hd.closed⟩, ?_⟩
  · exact fun id s => ⟨eval_ne_exhausted hd id s, machine_eval_ne_exhausted hd id s⟩
  · intro id s hid hs
    obtain ⟨u, hu⟩ := eval_ends hd hid hs
    exact ⟨u, hu, (Machine.onMachine_eval ctx id s).eq_or_full hu⟩
  · intro t p settings printer h
    obtain ⟨u, hu⟩ := Program.run_ends h settings printer
    exact ⟨u, hu, (p.onMachine_execute settings printer).eq_or_full hu⟩

/-- Two functions that call each other, and a call of one of them. -/
def mutualCalls : Tree :=
  .suite [.funcDef "even" none (.suite [.call "odd" none]),
    .funcDef "odd" none (.suite [.call "even" none]), .call "even" none]

/-- The program of `mutualCalls`.  The body of the first function is the node with index 2. -/
def mutualCallsProgram : Program where
  names := (mutualCalls.lower .fresh).2.names
  nodes := ⟨#[.empty, .call ⟨1⟩ ⟨0⟩, .suite ⟨0, 1⟩, .funcDef ⟨2⟩ ⟨0⟩ ⟨2⟩, .call ⟨2⟩ ⟨0⟩,
    .suite ⟨1, 1⟩, .funcDef ⟨1⟩ ⟨0⟩ ⟨5⟩, .call ⟨2⟩ ⟨0⟩, .suite ⟨2, 3⟩],
    #[⟨1⟩, ⟨4⟩, ⟨3⟩, ⟨6⟩, ⟨7⟩]⟩
  root := ⟨8⟩

theorem ofTree_mutualCalls : Program.ofTree mutualCalls = .ok mutualCallsProgram :=
  Program.ofTree_eq_of_nodes rfl (by decide +kernel) (by decide +kernel)

/-- The run ends at the limit, also on the machine, and from the state that it leaves behind the
body of a function is evaluated to an end. -/
theorem evaluation_ends_mutualCalls :
    ∃ s u, Program.ofTree mutualCalls = .ok mutualCallsProgram ∧
      mutualCallsProgram.nodes.Descends ∧
      mutualCallsProgram.execute ⟨2, .enabled⟩ .silent = .failed (.recursionLimitExceeded 2) s ∧
      s.Sound mutualCallsProgram.nodes ∧
      (eval (mutualCallsProgram.context ⟨2, .enabled⟩) ⟨2⟩ s).state? = some u := by
  have hd : mutualCallsProgram.nodes.Descends :=
    (Program.sound_of_ofTree ofTree_mutualCalls).nodes.descends
  obtain ⟨-, hends, hsound⟩ := evaluation_ends.1 (mutualCallsProgram.context ⟨2, .enabled⟩) hd
  obtain ⟨s, hs, hrun⟩ := evaluation_ends.2 _ _ ⟨2, .enabled⟩ .silent ofTree_mutualCalls
  have hreached : s.Sound mutualCallsProgram.nodes :=
    hsound 2 .silent s (.run _ ⟨8⟩ .fresh hs)
  obtain ⟨u, hu, -⟩ := hends ⟨2⟩ s ⟨_, rfl⟩ hreached
  refine ⟨s, u, ofTree_mutualCalls, hd, ?_, hreached, hu⟩
  obtain rfl := Option.some.inj hs
  rcases hrun with ⟨hrun, -⟩ | ⟨-, -, -, hfull⟩
  · exact hrun
  · exact absurd (by decide +kernel) hfull

end Eval

end TreeWalk
