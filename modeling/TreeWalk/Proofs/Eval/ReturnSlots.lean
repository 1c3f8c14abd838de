import TreeWalk.Proofs.Eval.Alike
import TreeWalk.Proofs.Eval.Returns

/-!
# The slot of a frame

Every frame has a slot for the value of a `return`, and evaluation only ever writes there: a
`return` that goes through leaves its value in the slot of the top frame, and nothing takes it
away again.  A call looks at the slot of the callee's frame, which began empty, and the slot
disappears with the frame.

So whatever an earlier return has left in a slot, in the global frame for instance, is never
looked at (`return_slots`).  Two states that differ only in the slots of their frames cannot be
told apart by anything that is evaluated in them.

## Frames that were there before

A frame that is pushed in both states has the same slot in both, and that is the only slot at
which a call looks.  The relation between the two states therefore distinguishes the frames that
were pushed since from those that were there before: the former are the same, and of the latter
only the slots may differ.
-/

namespace TreeWalk

/-- Two frames differ at most in the value of a `return`. -/
structure Frame.AgreeButReturn (f g : Frame) : Prop where
  values : f.values = g.values
  functions : f.functions = g.functions
  params : f.params = g.params

/-- Two states differ at most in the values of returns that their frames have. -/
structure State.AgreeButReturns (s t : State) : Prop where
  frames : List.Forall₂ Frame.AgreeButReturn s.env.frames t.env.frames
  limit : s.env.limit = t.env.limit
  values : s.values = t.values
  printer : s.printer = t.printer
  peak : s.peak = t.peak

namespace Frame

theorem AgreeButReturn.refl (f : Frame) : f.AgreeButReturn f := ⟨rfl, rfl, rfl⟩

/-- In frames that agree but for their slots, names mean the same. -/
theorem resolveIn_eq_of_agreeButReturn {fs gs : List Frame}
    (h : List.Forall₂ AgreeButReturn fs gs) (name : Name) :
    Env.resolveIn name fs = Env.resolveIn name gs := by
  induction h with
  | nil => rfl
  | cons hfg _ ih =>
    unfold Env.resolveIn
    rw [hfg.values, ih]

/-- Stacks that agree but for their slots have global frames that do. -/
theorem agreeButReturn_getLast {f g : Frame} {fs gs : List Frame} (hfg : f.AgreeButReturn g)
    (h : List.Forall₂ AgreeButReturn fs gs) :
    ((f :: fs).getLast (List.cons_ne_nil f fs)).AgreeButReturn
      ((g :: gs).getLast (List.cons_ne_nil g gs)) := by
  induction h generalizing f g with
  | nil => exact hfg
  | cons hcaller _ ih => exact ih hcaller

end Frame

namespace State

variable {s t : State} {k : Nat}

theorem AgreeButReturns.top (h : s.AgreeButReturns t) : s.env.top.AgreeButReturn t.env.top :=
  (List.forall₂_cons.mp h.frames).1

theorem AgreeButReturns.below (h : s.AgreeButReturns t) :
    List.Forall₂ Frame.AgreeButReturn s.env.below t.env.below :=
  (List.forall₂_cons.mp h.frames).2

theorem AgreeButReturns.depth_eq (h : s.AgreeButReturns t) : s.env.depth = t.env.depth :=
  h.below.length_eq

/-- What is written into frames that agree but for their slots keeps them so. -/
theorem top_write_agree (h : s.env.top.AgreeButReturn t.env.top) (w : Write) :
    (s.write w).env.top.AgreeButReturn (t.write w).env.top := by
  cases w with
  | alloc _ => exact h
  | println _ => exact h
  | bind name i => exact ⟨congrArg (·.insert name (.bound i)) h.values, h.functions, h.params⟩
  | mark name => exact ⟨congrArg (·.insert name .unbound) h.values, h.functions, h.params⟩
  | defineWith name params body =>
    exact ⟨h.values, congrArg (·.insert name body) h.functions,
      congrArg (·.insert name params) h.params⟩
  | defineWithout name body =>
    exact ⟨h.values, congrArg (·.insert name body) h.functions, congrArg (·.erase name) h.params⟩
  | signal i => exact ⟨h.values, h.functions, h.params⟩

theorem AgreeButReturns.write (h : s.AgreeButReturns t) (w : Write) :
    (s.write w).AgreeButReturns (t.write w) where
  frames := by
    refine List.forall₂_cons.mpr ⟨top_write_agree h.top w, ?_⟩
    rw [below_write, below_write]
    exact h.below
  limit := by rw [limit_write, limit_write, h.limit]
  values := by
    cases w with
    | alloc v => exact congrArg (fun values => (values.alloc v).2) h.values
    | _ => exact h.values
  printer := by
    cases w with
    | println line => exact congrArg (·.println line) h.printer
    | _ => exact h.printer
  peak := by rw [peak_write, peak_write, h.peak]

/-- Unwinding leaves the global frames, which agree. -/
theorem AgreeButReturns.unwind (h : s.AgreeButReturns t) :
    ({ s with env := s.env.unwind } : State).AgreeButReturns { t with env := t.env.unwind } :=
  ⟨.cons (Frame.agreeButReturn_getLast h.top h.below) .nil, h.limit, h.values, h.printer, h.peak⟩

/-- Two states differ at most in the slots of frames that have so many frames above them. -/
structure AgreeAbove (k : Nat) (s t : State) : Prop extends AgreeButReturns s t where
  /-- The frames above are the same. -/
  above : s.env.frames.take k = t.env.frames.take k
  /-- They lie on another frame. -/
  le_depth : k ≤ s.env.depth

theorem agreeAbove_zero_iff : s.AgreeAbove 0 t ↔ s.AgreeButReturns t :=
  ⟨fun h => h.toAgreeButReturns, fun h => ⟨h, rfl, Nat.zero_le _⟩⟩

/-- Where there are frames above, the top frames are the same. -/
theorem agreeAbove_succ_iff : s.AgreeAbove (k + 1) t ↔ s.AgreeButReturns t ∧
    s.env.top = t.env.top ∧ s.env.below.take k = t.env.below.take k ∧ k + 1 ≤ s.env.depth := by
  constructor
  · rintro ⟨hagree, habove, hle⟩
    obtain ⟨htop, hbelow⟩ := List.cons.inj habove
    exact ⟨hagree, htop, hbelow, hle⟩
  · rintro ⟨hagree, htop, hbelow, hle⟩
    exact ⟨hagree, List.cons_eq_cons.mpr ⟨htop, hbelow⟩, hle⟩

theorem AgreeAbove.write (h : s.AgreeAbove k t) (w : Write) :
    (s.write w).AgreeAbove k (t.write w) := by
  cases k with
  | zero => exact agreeAbove_zero_iff.mpr (h.toAgreeButReturns.write w)
  | succ k =>
    obtain ⟨hagree, htop, hbelow, hle⟩ := agreeAbove_succ_iff.mp h
    refine agreeAbove_succ_iff.mpr ⟨hagree.write w, top_write_congr htop w, ?_, ?_⟩
    · rwa [below_write, below_write]
    · rwa [depth_write]

/-- A frame that is pushed is the same in both states. -/
theorem AgreeAbove.push (h : s.AgreeAbove k t) : s.pushed.AgreeAbove (k + 1) t.pushed where
  frames := .cons (.refl _) h.frames
  limit := h.limit
  values := h.values
  printer := h.printer
  peak := by
    unfold pushed
    rw [h.peak, h.depth_eq]
  above := congrArg (Frame.fresh :: ·) h.above
  le_depth := Nat.succ_le_succ h.le_depth

theorem AgreeAbove.pop (h : s.AgreeAbove (k + 1) t) : (Eval.left s).AgreeAbove k (Eval.left t) := by
  obtain ⟨⟨hframes, hlimit, hvalues, hprinter, hpeak⟩, -, habove, hle⟩ := agreeAbove_succ_iff.mp h
  obtain ⟨⟨top, below, limit⟩, values, printer, peak⟩ := s
  obtain ⟨⟨top', below', limit'⟩, values', printer', peak'⟩ := t
  cases hframes with
  | cons _ hbelow =>
    cases hbelow with
    | nil => cases hle
    | cons hcaller hrest =>
      exact ⟨⟨.cons hcaller hrest, hlimit, hvalues, hprinter, hpeak⟩, habove,
        Nat.le_of_succ_le_succ hle⟩

end State

namespace Eval

variable {ctx : Context} {s t : State} {id : NodeId} {fuel : Nat}

/-- Evaluation does not notice what the slots of the callers hold. -/
theorem unnoticed_returns : Unnoticed State.AgreeAbove where
  depth_eq h := h.depth_eq
  limit_eq h := h.limit
  values_eq h := h.values
  resolve_eq name h := Frame.resolveIn_eq_of_agreeButReturn h.frames name
  resolveFunction_eq name h := Env.findSome?_congr h.frames fun _ _ hfg => by rw [hfg.functions]
  resolveParams_eq name h := Env.findSome?_congr h.frames fun _ _ hfg => by rw [hfg.params]
  write w h := h.write w
  push h := h.push
  returned_eq h := congrArg Frame.returned (State.agreeAbove_succ_iff.mp h).2.1
  pop h := h.pop

/-- The slot after an evaluation is what it was, or holds the value of a return that was brought
to its end in the same frame. -/
theorem returned_eq_or_exists (h : (nested ctx fuel id s).state? = some t) :
    t.env.top.returned = s.env.top.returned ∨
      ∃ v ∈ nestedTrail ctx fuel id s, v.2.env.depth = s.env.depth ∧
        ∃ a i u, ctx.nodes.get? v.1 = some (.ret a) ∧ nested ctx fuel v.1 v.2 = .done (.ret i) u ∧
          t.env.top.returned = some i := by
  have hslot := nested_returned_eq h (Nat.le_refl fuel)
  cases hlast : ((nestedTrail ctx fuel id s).filterMap
      (returnedBy ctx (nested ctx fuel) s.env.depth)).getLast? with
  | none =>
    rw [hlast] at hslot
    exact Or.inl hslot
  | some i =>
    rw [hlast] at hslot
    obtain ⟨v, hv, hvi⟩ := List.mem_filterMap.mp (List.mem_of_getLast? hlast)
    refine Or.inr ⟨v, hv, ?_⟩
    unfold returnedBy at hvi
    split at hvi
    · rename_i hdepth
      split at hvi
      · rename_i a j u hn hdone
        cases hvi
        exact ⟨hdepth, a, i, u, hn, hdone, hslot⟩
      · cases hvi
    · cases hvi

/-- **Discipline of the slots.**  Whatever is evaluated, in whatever state and under whatever
bound:

* if the flow is a return, its value is in the slot of the top frame;
* the slot is what it was before, or holds the value of a return that was brought to its end in
  the same frame on the way, so nothing that it holds is ever cleared;
* from two states that differ at most in the slots of their frames, evaluations and runs end in
  the same way, with the same flow or the same error, the same lines printed and the same
  values, in states that again differ at most in slots. -/
theorem return_slots (ctx : Context) :
    (∀ (fuel : Nat) (id : NodeId) (s t : State) (v : ValueId),
      nested ctx fuel id s = .done (.ret v) t → t.env.top.returned = some v) ∧
    (∀ (fuel : Nat) (id : NodeId) (s t : State), (nested ctx fuel id s).state? = some t →
      t.env.top.returned = s.env.top.returned ∨
        ∃ v ∈ nestedTrail ctx fuel id s, v.2.env.depth = s.env.depth ∧
          ∃ a i u, ctx.nodes.get? v.1 = some (.ret a) ∧
            nested ctx fuel v.1 v.2 = .done (.ret i) u ∧ t.env.top.returned = some i) ∧
    ∀ s t : State, s.AgreeButReturns t →
      (∀ (fuel : Nat) (id : NodeId),
        (nested ctx fuel id s).Alike State.AgreeButReturns (nested ctx fuel id t)) ∧
      ∀ (fuel : Nat) (root : NodeId),
        (runWithin ctx fuel root s).Alike State.AgreeButReturns (runWithin ctx fuel root t) := by
  refine ⟨fun _ _ _ _ _ => nested_returned_of_ret, fun _ _ _ _ => returned_eq_or_exists, ?_⟩
  intro s t h
  have habove : s.AgreeAbove 0 t := State.agreeAbove_zero_iff.mpr h
  have hzero (u w : State) : u.AgreeAbove 0 w → u.AgreeButReturns w :=
    State.agreeAbove_zero_iff.mp
  have hunwind {u w : State} (huw : u.AgreeAbove 0 w) :
      State.AgreeAbove 0 { u with env := u.env.unwind } { w with env := w.env.unwind } :=
    State.agreeAbove_zero_iff.mpr huw.toAgreeButReturns.unwind
  exact ⟨fun fuel id => (unnoticed_returns.nested habove fuel id).imp hzero,
    fun fuel root => (unnoticed_returns.runWithin hunwind habove fuel root).imp hzero⟩

/-- Two blocks.  The first, which is the node with index 3, returns a number.  The second, with
index 7, defines a function whose body returns nothing and prints the result of calling it. -/
def pendingReturn : Context where
  names := ⟨#["", "f"], ∅⟩
  nodes := ⟨#[.empty, .int 5, .ret ⟨1⟩, .suite ⟨0, 1⟩, .funcDef ⟨1⟩ ⟨0⟩ ⟨1⟩, .call ⟨1⟩ ⟨0⟩,
    .print ⟨5⟩, .suite ⟨1, 2⟩], #[⟨2⟩, ⟨4⟩, ⟨6⟩]⟩
  resultBinding := .enabled

/-- What the first block of `pendingReturn` leaves. -/
def withPendingReturn : State where
  env := (Env.fresh 1).signalReturn ⟨1⟩
  values := ⟨#[.nil, .int 5]⟩
  printer := .buffer #[]
  peak := 0

/-- The value that the first block leaves in the global frame is not what the call in the second
block yields, and clearing it beforehand makes no difference. -/
theorem return_slots_pendingReturn :
    ∃ u w, nested pendingReturn 3 ⟨3⟩ (.fresh 1 (.buffer #[])) =
        .done (.ret ⟨1⟩) withPendingReturn ∧
      withPendingReturn.env.top.returned = some ⟨1⟩ ∧
      runWithin pendingReturn 4 ⟨7⟩ withPendingReturn = .done none u ∧
      u.printer = .buffer #["None"] ∧
      runWithin pendingReturn 4 ⟨7⟩
        { withPendingReturn with env := withPendingReturn.env.takeReturned.2 } = .done none w ∧
      u.AgreeButReturns w := by
  obtain ⟨hret, -, hagree⟩ := return_slots pendingReturn
  have hfirst : nested pendingReturn 3 ⟨3⟩ (.fresh 1 (.buffer #[])) =
      .done (.ret ⟨1⟩) withPendingReturn := rfl
  obtain ⟨-, hruns⟩ := hagree withPendingReturn
    { withPendingReturn with env := withPendingReturn.env.takeReturned.2 }
    ⟨.cons ⟨rfl, rfl, rfl⟩ .nil, rfl, rfl, rfl, rfl⟩
  have hrun := hruns 4 ⟨7⟩
  obtain ⟨u, hu, hprinted⟩ : ∃ u, runWithin pendingReturn 4 ⟨7⟩ withPendingReturn = .done none u ∧
      u.printer = .buffer #["None"] := ⟨_, rfl, rfl⟩
  rw [hu] at hrun
  obtain ⟨w, hw⟩ : ∃ w, runWithin pendingReturn 4 ⟨7⟩
      { withPendingReturn with env := withPendingReturn.env.takeReturned.2 } = .done none w :=
    ⟨_, rfl⟩
  rw [hw] at hrun
  cases hrun with
  | done huw => exact ⟨u, w, hfirst, hret 3 ⟨3⟩ _ _ _ hfirst, hu, hprinted, hw, huw⟩

end Eval

end TreeWalk
