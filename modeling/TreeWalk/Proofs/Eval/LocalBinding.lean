import Mathlib.Data.List.Forall2
import TreeWalk.Proofs.Eval.Alike

/-!
# What a block hides

A block that assigns a name hides whatever the name meant before.  If two states differ only
in what their frames know of the name, the block does the same in both: it ends in the same
way, prints the same lines and produces the same values, and leaves the same frame behind
(`block_hides`).

## Why nothing is seen

Before its first statement the block marks the name in its frame, so from then on the frame
mentions it.  A search along the stack stops there at the latest, be it for a statement of
the block or for a body that the block calls: bodies run in frames above.  Frames below the
block's own are left as they are, and what they know of other names is the same.

`Shadowed` says this of two stacks.  It counts the frames above that of the block, because a
body pops only the frame that was pushed for it.
-/

namespace TreeWalk

variable {x : Name}

/-! ## Agreeing except for a name -/

/-- Two frames differ at most in what they know of a value name. -/
structure Frame.AgreeExcept (x : Name) (f g : Frame) : Prop where
  /-- What is known of other names. -/
  values : ∀ n, n ≠ x → f.values[n]? = g.values[n]?
  /-- Functions. -/
  functions : f.functions = g.functions
  /-- Parameter lists. -/
  params : f.params = g.params
  /-- The value of a `return`. -/
  returned : f.returned = g.returned

theorem Frame.AgreeExcept.refl (f : Frame) : f.AgreeExcept x f := ⟨fun _ _ => rfl, rfl, rfl, rfl⟩

/-- Two states differ at most in what their frames know of a value name. -/
structure State.AgreeExcept (x : Name) (s t : State) : Prop where
  /-- The top frames. -/
  top : s.env.top.AgreeExcept x t.env.top
  /-- The frames below. -/
  below : List.Forall₂ (Frame.AgreeExcept x) s.env.below t.env.below
  limit : s.env.limit = t.env.limit
  values : s.values = t.values
  printer : s.printer = t.printer
  peak : s.peak = t.peak

/-- Two states differ at most in what the frames below the top one know of a value name. -/
structure State.AgreeOnTop (x : Name) (s t : State) : Prop extends State.AgreeExcept x s t where
  /-- The top frames are the same. -/
  top_eq : s.env.top = t.env.top

/-- Two evaluations end in the same way, with the same flow or the same error, in states that
differ at most in what the frames below the top one know of a value name. -/
inductive Outcome.SameExcept {α : Type} (x : Name) : Outcome α → Outcome α → Prop where
  | done {a : α} {s t : State} : s.AgreeOnTop x t → SameExcept x (.done a s) (.done a t)
  | failed {e : EvalError} {s t : State} :
    s.AgreeOnTop x t → SameExcept x (.failed e s) (.failed e t)
  | dangling : SameExcept x .dangling .dangling
  | exhausted : SameExcept x .exhausted .exhausted

/-! ## Stacks in which a name is shadowed -/

/-- Two stacks are the same down to a frame that mentions a name, which has so many frames
above it, and agree below it except for the name. -/
inductive Shadowed (x : Name) : Nat → List Frame → List Frame → Prop where
  /-- The frame is on top. -/
  | here {f : Frame} {fs gs : List Frame} : x ∈ f.values →
    List.Forall₂ (Frame.AgreeExcept x) fs gs → Shadowed x 0 (f :: fs) (f :: gs)
  /-- There is another frame above. -/
  | above {k : Nat} {f : Frame} {fs gs : List Frame} : Shadowed x k fs gs →
    Shadowed x (k + 1) (f :: fs) (f :: gs)

/-- In frames that agree except for a name, other names mean the same. -/
theorem resolveIn_congr {fs gs : List Frame} (h : List.Forall₂ (Frame.AgreeExcept x) fs gs)
    {n : Name} (hn : n ≠ x) : Env.resolveIn n fs = Env.resolveIn n gs := by
  induction h with
  | nil => rfl
  | cons hfg _ ih =>
    unfold Env.resolveIn
    rw [hfg.values n hn, ih]

namespace Shadowed

variable {k : Nat} {f g : Frame} {fs gs : List Frame}

theorem cons_iff : Shadowed x k (f :: fs) (g :: gs) ↔
    f = g ∧ (k = 0 ∧ x ∈ f.values ∧ List.Forall₂ (Frame.AgreeExcept x) fs gs ∨
      ∃ j, k = j + 1 ∧ Shadowed x j fs gs) := by
  constructor
  · intro h
    cases h with
    | here hx hrest => exact ⟨rfl, Or.inl ⟨rfl, hx, hrest⟩⟩
    | above hrest => exact ⟨rfl, Or.inr ⟨_, rfl, hrest⟩⟩
  · rintro ⟨rfl, ⟨rfl, hx, hrest⟩ | ⟨j, rfl, hrest⟩⟩
    · exact .here hx hrest
    · exact .above hrest

/-- Stacks in which a name is shadowed agree except for the name. -/
theorem forall₂ (h : Shadowed x k fs gs) : List.Forall₂ (Frame.AgreeExcept x) fs gs := by
  induction h with
  | here _ hrest => exact .cons (.refl _) hrest
  | above _ ih => exact .cons (.refl _) ih

/-- Every name means the same, the shadowed one included. -/
theorem resolveIn_eq (h : Shadowed x k fs gs) (n : Name) :
    Env.resolveIn n fs = Env.resolveIn n gs := by
  induction h with
  | @here f fs gs hx hrest =>
    unfold Env.resolveIn
    cases hv : f.values[n]? with
    | some b => cases b <;> rfl
    | none =>
      -- the search goes on, so the name is not the one that the frame mentions
      have hn : n ≠ x := by
        rintro rfl
        rw [Std.ExtTreeMap.mem_iff_isSome_getElem?, hv] at hx
        cases hx
      exact resolveIn_congr hrest hn
  | above _ ih =>
    unfold Env.resolveIn
    rw [ih]

end Shadowed

namespace State

/-- Two states are the same but for a name that is shadowed in them. -/
structure Shadowed (x : Name) (k : Nat) (s t : State) : Prop where
  frames : TreeWalk.Shadowed x k s.env.frames t.env.frames
  limit : s.env.limit = t.env.limit
  values : s.values = t.values
  printer : s.printer = t.printer
  peak : s.peak = t.peak

variable {s t : State} {k : Nat}

theorem Shadowed.top_eq (h : s.Shadowed x k t) : s.env.top = t.env.top :=
  (Shadowed.cons_iff.mp h.frames).1

theorem Shadowed.depth_eq (h : s.Shadowed x k t) : s.env.depth = t.env.depth :=
  Nat.succ.inj h.frames.forall₂.length_eq

/-- No name is forgotten when something is written. -/
theorem mem_values_write (h : x ∈ s.env.top.values) (w : Write) :
    x ∈ (s.write w).env.top.values := by
  cases w with
  | bind name i => exact Std.ExtTreeMap.mem_insert.mpr (Or.inr h)
  | mark name => exact Std.ExtTreeMap.mem_insert.mpr (Or.inr h)
  | _ => exact h

/-- What is written into two states keeps them the same. -/
theorem Shadowed.write (h : s.Shadowed x k t) (w : Write) :
    (s.write w).Shadowed x k (t.write w) where
  frames := by
    obtain ⟨htop, hrest⟩ := Shadowed.cons_iff.mp h.frames
    refine Shadowed.cons_iff.mpr ⟨top_write_congr htop w, ?_⟩
    rw [below_write, below_write]
    exact hrest.imp_left fun ⟨hk, hx, hagree⟩ => ⟨hk, mem_values_write hx w, hagree⟩
  limit := by rw [limit_write, limit_write, h.limit]
  values := by
    cases w with
    | alloc v => exact congrArg (fun values => (values.alloc v).2) h.values
    | _ => exact h.values
  printer := by
    cases w with
    | println line => exact congrArg (·.println line) h.printer
    | _ => exact h.printer
  peak := by rw [peak_write, peak_write, h.peak]

end State

/-- The pace of two states that are the same but for a name that is shadowed. -/
def Pace.shadowed (x : Name) (k : Nat) : Pace where
  rel := State.Shadowed x k
  good _ _ := True
  moves _ _ := True
  parts _ _ _ := False
  dangles := True
  stalls := True

namespace Env

variable {e e' : Env} {k : Nat}

/-- A frame that was pushed on both stacks is popped from both. -/
theorem shadowed_pop (h : Shadowed x (k + 1) e.frames e'.frames) :
    Shadowed x k e.pop.frames e'.pop.frames := by
  obtain ⟨top, below, limit⟩ := e
  obtain ⟨top', below', limit'⟩ := e'
  obtain ⟨-, ⟨hk, -⟩ | ⟨j, hj, hbelow⟩⟩ := Shadowed.cons_iff.mp h
  · exact absurd hk (Nat.succ_ne_zero k)
  · cases hj
    cases hbelow with
    | here hx hrest => exact .here hx hrest
    | above hrest => exact .above hrest

end Env

namespace Eval

variable {ctx : Context} {s t : State} {id : NodeId} {k : Nat}

/-- Evaluation does not notice a difference that is shadowed. -/
theorem unnoticed_shadowed : Unnoticed (State.Shadowed x) where
  depth_eq h := h.depth_eq
  limit_eq h := h.limit
  values_eq h := h.values
  resolve_eq name h := h.frames.resolveIn_eq name
  resolveFunction_eq name h := Env.findSome?_congr h.frames.forall₂ fun _ _ hfg => by
    rw [hfg.functions]
  resolveParams_eq name h := Env.findSome?_congr h.frames.forall₂ fun _ _ hfg => by rw [hfg.params]
  write w h := h.write w
  push h := ⟨.above h.frames, h.limit, h.values, h.printer, by
    unfold State.pushed
    rw [h.peak, h.depth_eq]⟩
  returned_eq h := congrArg Frame.returned h.top_eq
  pop h := ⟨Env.shadowed_pop h.frames,
    (Env.limit_pop _).trans (h.limit.trans (Env.limit_pop _).symm), h.values, h.printer, h.peak⟩

theorem lawful_shadowed : (Pace.shadowed x k).Lawful ctx := unnoticed_shadowed.lawful k

theorem steady_shadowed (fuel k : Nat) (id : NodeId) :
    Steady (Pace.shadowed x k) (fun _ => True) (Pace.shadowed x k).GoodFlow
      (nested ctx fuel id) := unnoticed_shadowed.steady fuel k id

/-! ## Blocks -/

/-- Marking a name makes two states the same but for the name. -/
theorem shadowed_markAll {names : List Name} (hx : x ∈ names) (h : s.AgreeExcept x t) :
    State.Shadowed x 0 { s with env := s.env.markAll names }
      { t with env := t.env.markAll names } := by
  have hvalues : (s.env.markAll names).top.values = (t.env.markAll names).top.values := by
    refine Std.ExtTreeMap.ext_getElem? fun n => ?_
    rw [Env.values_markAll, Env.values_markAll]
    by_cases hn : n ∈ names
    · rw [if_pos hn, if_pos hn]
    · rw [if_neg hn, if_neg hn]
      exact h.top.values n fun hnx => hn (hnx ▸ hx)
  have htop : (s.env.markAll names).top = (t.env.markAll names).top := by
    rw [Env.top_markAll, Env.top_markAll t.env, hvalues]
    dsimp only
    rw [h.top.functions, h.top.params, h.top.returned]
  have hmem : x ∈ (s.env.markAll names).top.values := by
    rw [Std.ExtTreeMap.mem_iff_isSome_getElem?, Env.values_markAll, if_pos hx]
    rfl
  refine ⟨Shadowed.cons_iff.mpr ⟨htop, Or.inl ⟨rfl, hmem, ?_⟩⟩, ?_, h.values, h.printer, h.peak⟩
  · rw [Env.below_markAll, Env.below_markAll]
    exact h.below
  · rw [Env.limit_markAll, Env.limit_markAll, h.limit]

/-- States that are the same but for a name that the top frame mentions. -/
theorem agreeOnTop_of_shadowed (h : s.Shadowed x 0 t) : s.AgreeOnTop x t := by
  obtain ⟨htop, ⟨-, -, hbelow⟩ | ⟨j, hj, -⟩⟩ := Shadowed.cons_iff.mp h.frames
  · refine ⟨⟨?_, hbelow, h.limit, h.values, h.printer, h.peak⟩, htop⟩
    rw [htop]
    exact .refl _
  · cases hj

theorem Abreast.sameExcept {post : Flow → State → Prop} {o o' : Outcome Flow}
    (h : Abreast (Pace.shadowed x 0) post o o') : o.SameExcept x o' := by
  cases h with
  | done hr _ => exact .done (agreeOnTop_of_shadowed hr)
  | failed hr => exact .failed (agreeOnTop_of_shadowed hr)
  | dangling _ => exact .dangling
  | exhausted _ => exact .exhausted
  | full hfills => exact hfills.elim
  | parted hparts _ => exact hparts.elim

/-- **A block hides the names that it assigns.**  If two states differ at most in what their
frames know of a name, and a statement of a block assigns the name, then the block ends in the
same way from both, with the same flow or the same error, with the same lines printed and the
same values, and in environments that differ at most in what the frames below the top one know
of the name.  That holds under every bound, so wherever the block ends from one of the states,
and however deep it nests, it ends from the other. -/
theorem block_hides (fuel : Nat) (hblock : BlockAssigns ctx id x) (h : s.AgreeExcept x t) :
    (nested ctx fuel id s).SameExcept x (nested ctx fuel id t) := by
  obtain ⟨r, ids, hn, hids, hassigns⟩ := hblock
  cases fuel with
  | zero => exact .exhausted
  | succ fuel =>
    rw [nested, step_of_get? hn]
    unfold rule suite
    dsimp only
    rw [items_of_list? hids, pure_bind]
    rcases markAssigned_eq ctx ids with ⟨-, heq⟩ | ⟨names, hnames, heq⟩
    · rw [heq]
      exact .dangling
    · rw [heq]
      have hP : (Pace.shadowed x 0).Lawful ctx := lawful_shadowed
      have hsteady : Steady (Pace.shadowed x 0) (fun _ => True) (Pace.shadowed x 0).GoodFlow
          (statements (nested ctx fuel) ids) :=
        steady_statements hP fun i _ => steady_shadowed fuel 0 i
      exact (hsteady.abreast (shadowed_markAll ((hnames x).mpr hassigns) h) trivial).sameExcept

/-- A block that calls a function, whose body reads a variable, and then assigns the variable. -/
def readBeforeAssigned : Context where
  names := ⟨#["", "x", "g"], ∅⟩
  nodes := ⟨#[.empty, .ident ⟨1⟩, .call ⟨2⟩ ⟨0⟩, .int 1, .ident ⟨1⟩, .assign ⟨4⟩ ⟨3⟩,
    .suite ⟨0, 2⟩], #[⟨2⟩, ⟨5⟩]⟩
  resultBinding := .enabled

/-- A state that has the function of `readBeforeAssigned`. -/
def withReader : State :=
  { State.fresh 1 .silent with env := (Env.fresh 1).bindFunction ⟨2⟩ ⟨1⟩ }

/-- The body does not find the value that the variable has below the block. -/
theorem block_hides_readBeforeAssigned :
    ∃ u v, nested readBeforeAssigned 3 ⟨6⟩ withReader = .failed (.localVariableUnbound "x") u ∧
      (withReader.write (.bind ⟨1⟩ .nil)).env.resolve ⟨1⟩ = .ok .nil ∧
      nested readBeforeAssigned 3 ⟨6⟩ (withReader.write (.bind ⟨1⟩ .nil)) =
        .failed (.localVariableUnbound "x") v ∧ u.AgreeOnTop ⟨1⟩ v := by
  have hblock : BlockAssigns readBeforeAssigned ⟨6⟩ ⟨1⟩ :=
    ⟨⟨0, 2⟩, [⟨2⟩, ⟨5⟩], rfl, rfl, ⟨5⟩, by decide, ⟨4⟩, ⟨3⟩, rfl, rfl⟩
  have hagree : withReader.AgreeExcept ⟨1⟩ (withReader.write (.bind ⟨1⟩ .nil)) := by
    refine ⟨⟨fun n hn => ?_, rfl, rfl, rfl⟩, .nil, rfl, rfl, rfl, rfl⟩
    refine (Std.ExtTreeMap.getElem?_insert.trans (if_neg ?_)).symm
    rw [Std.LawfulEqOrd.compare_eq_iff_eq]
    exact hn.symm
  have hsame := block_hides 3 hblock hagree
  obtain ⟨u, hu⟩ : ∃ u, nested readBeforeAssigned 3 ⟨6⟩ withReader =
      .failed (.localVariableUnbound "x") u := ⟨_, rfl⟩
  rw [hu] at hsame
  generalize nested readBeforeAssigned 3 ⟨6⟩ (withReader.write (.bind ⟨1⟩ .nil)) = o at hsame
  cases hsame with
  | failed huv => exact ⟨u, _, hu, rfl, rfl, huv⟩

end Eval

end TreeWalk
