import TreeWalk.Interpreter
import TreeWalk.Proofs.Eval.Induction

/-!
# Evaluation keeps the stack of frames

Whatever is evaluated, and whether it goes through or fails, the frames are in the end as
many as before.  Those below the top one are not touched, and the top one loses no name.
This is the relation `KeepsFrames`, and the main statement is that it is kept: a body runs
on a stack whose second frame is the caller's, so popping gives the caller's stack back.

Interpreters begin with the global frame alone.  So every run ends with it alone, and
unwinding after a failed run finds nothing to pop.
-/

namespace TreeWalk

/-- The second state has the frames of the first, and its top frame has more names at most. -/
structure KeepsFrames (s t : State) : Prop where
  /-- The number of frames. -/
  depth_eq : t.env.depth = s.env.depth
  /-- The limit. -/
  limit_eq : t.env.limit = s.env.limit
  /-- The frames below the top one, with everything in them. -/
  below_eq : t.env.below = s.env.below
  /-- Names of values and markers. -/
  values : ∀ n ∈ s.env.top.values, n ∈ t.env.top.values
  /-- Names of functions. -/
  functions : ∀ n ∈ s.env.top.functions, n ∈ t.env.top.functions

namespace Env

@[simp] theorem limit_bindAll (env : Env) (names : List Name) (ids : List ValueId) :
    (env.bindAll names ids).limit = env.limit := by
  induction names generalizing env ids with
  | nil => rfl
  | cons n ns ih =>
    cases ids with
    | nil => rfl
    | cons i is => exact ih (env.bind n i) is

@[simp] theorem below_bindAll (env : Env) (names : List Name) (ids : List ValueId) :
    (env.bindAll names ids).below = env.below := by
  induction names generalizing env ids with
  | nil => rfl
  | cons n ns ih =>
    cases ids with
    | nil => rfl
    | cons i is => exact ih (env.bind n i) is

/-- What pushing a frame leaves. -/
theorem push_eq_ok_iff {env pushed : Env} :
    env.push = .ok pushed ↔ env.depth < env.limit ∧
      pushed = { env with top := .fresh, below := env.top :: env.below } := by
  unfold push
  by_cases hlt : env.depth < env.limit
  · rw [if_pos hlt]
    constructor
    · intro h
      cases h
      exact ⟨hlt, rfl⟩
    · rintro ⟨-, rfl⟩
      rfl
  · rw [if_neg hlt]
    constructor
    · intro h
      cases h
    · rintro ⟨h, -⟩
      exact absurd h hlt

/-- At the limit no frame can be pushed. -/
theorem push_of_le {env : Env} (h : env.limit ≤ env.depth) :
    env.push = .error (.recursionLimitExceeded env.limit) := if_neg (Nat.not_lt.mpr h)

/-- Popping takes one frame away, if it can. -/
theorem depth_pop (env : Env) : env.pop.depth = env.depth - 1 := by
  unfold pop depth
  cases hb : env.below with
  | nil =>
    rw [hb]
    rfl
  | cons caller rest => rfl

/-- An environment whose frames below the top one are those of a pushed frame pops to the
environment from before. -/
theorem pop_eq_of_below {env env' : Env} (hbelow : env'.below = env.top :: env.below)
    (hlimit : env'.limit = env.limit) : env'.pop = env := by
  obtain ⟨top, below, limit⟩ := env
  obtain ⟨top', below', limit'⟩ := env'
  obtain rfl : below' = top :: below := hbelow
  obtain rfl : limit' = limit := hlimit
  rfl

/-- With the global frame alone there is nothing to unwind. -/
theorem unwind_of_depth_eq_zero {env : Env} (h : env.depth = 0) : env.unwind = env := by
  obtain ⟨top, below, limit⟩ := env
  obtain rfl : below = [] := List.length_eq_zero_iff.mp h
  rfl

end Env

namespace Eval

variable {ctx : Context} {s t u : State} {id : NodeId} {fuel : Nat}

theorem keepsFrames_change {n : Node} (h : Change ctx n s t) : KeepsFrames s t := by
  cases h with
  | alloc _ _ => exact ⟨rfl, rfl, rfl, fun _ hn => hn, fun _ hn => hn⟩
  | assign _ _ _ =>
    refine ⟨rfl, rfl, rfl, fun n hn => ?_, fun _ hn => hn⟩
    exact Std.ExtTreeMap.mem_insert.mpr (Or.inr hn)
  | result _ _ _ =>
    refine ⟨rfl, rfl, rfl, fun n hn => ?_, fun _ hn => hn⟩
    exact Std.ExtTreeMap.mem_insert.mpr (Or.inr hn)
  | mark _ _ _ _ _ =>
    refine ⟨rfl, rfl, rfl, fun n hn => ?_, fun _ hn => hn⟩
    exact Std.ExtTreeMap.mem_insert.mpr (Or.inr hn)
  | defineWith _ _ _ =>
    refine ⟨rfl, rfl, rfl, fun _ hn => hn, fun n hn => ?_⟩
    exact Std.ExtTreeMap.mem_insert.mpr (Or.inr hn)
  | defineWithout _ _ =>
    refine ⟨rfl, rfl, rfl, fun _ hn => hn, fun n hn => ?_⟩
    exact Std.ExtTreeMap.mem_insert.mpr (Or.inr hn)

/-- A body is entered with one frame more. -/
theorem depth_entered {env : Env} (hpush : s.env.push = .ok env) (params : List Name)
    (values : List ValueId) : (entered s env params values).env.depth = s.env.depth + 1 := by
  obtain ⟨-, rfl⟩ := Env.push_eq_ok_iff.mp hpush
  unfold Env.depth entered
  rw [Env.below_bindAll]
  rfl

/-- Entering a body records its depth. -/
theorem peak_entered {env : Env} (hpush : s.env.push = .ok env) (params : List Name)
    (values : List ValueId) :
    (entered s env params values).peak = max s.peak (s.env.depth + 1) := by
  obtain ⟨-, rfl⟩ := Env.push_eq_ok_iff.mp hpush
  rfl

/-- A body is entered with the same limit. -/
theorem limit_entered {env : Env} (hpush : s.env.push = .ok env) (params : List Name)
    (values : List ValueId) : (entered s env params values).env.limit = s.env.limit := by
  obtain ⟨-, rfl⟩ := Env.push_eq_ok_iff.mp hpush
  exact Env.limit_bindAll ..

/-- **After a call the environment is the caller's again.** -/
theorem left_env_eq {env : Env} {params : List Name} {values : List ValueId}
    (hpush : s.env.push = .ok env) (h : KeepsFrames (entered s env params values) t) :
    (left t).env = s.env := by
  obtain ⟨-, rfl⟩ := Env.push_eq_ok_iff.mp hpush
  refine Env.pop_eq_of_below ?_ ?_
  · rw [h.below_eq]
    exact Env.below_bindAll ..
  · rw [h.limit_eq]
    exact Env.limit_bindAll ..

theorem keepsFrames_of_env_eq (h : t.env = s.env) : KeepsFrames s t := by
  refine ⟨?_, ?_, ?_, ?_, ?_⟩ <;> rw [h]
  · exact fun _ hn => hn
  · exact fun _ hn => hn

/-- Every evaluation keeps the frames. -/
theorem kept_keepsFrames : Kept ctx KeepsFrames where
  refl _ := keepsFrames_of_env_eq rfl
  trans h h' :=
    ⟨h'.depth_eq.trans h.depth_eq, h'.limit_eq.trans h.limit_eq, h'.below_eq.trans h.below_eq,
      fun n hn => h'.values n (h.values n hn), fun n hn => h'.functions n (h.functions n hn)⟩
  change := keepsFrames_change
  println _ _ := keepsFrames_of_env_eq rfl
  signal _ _ := ⟨rfl, rfl, rfl, fun _ hn => hn, fun _ hn => hn⟩
  call hpush h := keepsFrames_of_env_eq (left_env_eq hpush h)

theorem quiet_result (flow : Flow) : Quiet (result flow) := by
  unfold result
  cases flow.value? with
  | none => exact quiet_pure none
  | some i => exact (quiet_value i).bind fun _ => quiet_pure _

/-- A run leaves the state of the evaluation of its root, up to unwinding. -/
theorem state?_runWithin {root : NodeId} (h : (runWithin ctx fuel root s).state? = some u) :
    ∃ t, (nested ctx fuel root s).state? = some t ∧
      (u = t ∨ (∃ e, nested ctx fuel root s = .failed e t) ∧
        u = { t with env := t.env.unwind }) := by
  unfold runWithin finish at h
  cases he : nested ctx fuel root s with
  | done flow t =>
    rw [he] at h
    exact ⟨t, rfl, Or.inl (quiet_result flow h)⟩
  | failed e t =>
    rw [he] at h
    exact ⟨t, rfl, Or.inr ⟨⟨e, rfl⟩, (Option.some.inj h).symm⟩⟩
  | dangling =>
    rw [he] at h
    cases h
  | exhausted =>
    rw [he] at h
    cases h
  | full _ =>
    rw [he] at h
    cases h

theorem state?_run {root : NodeId} (h : (run ctx root s).state? = some u) :
    ∃ t, (eval ctx root s).state? = some t ∧
      (u = t ∨ (∃ e, eval ctx root s = .failed e t) ∧ u = { t with env := t.env.unwind }) :=
  state?_runWithin h

/-- The states that are reached under the bound of `eval` are among those that are reached under
any bound. -/
theorem arrived_of_reached {limit : Nat} {printer : Printer}
    (h : State.Reached ctx limit printer s) : State.Arrived ctx limit printer s := by
  induction h with
  | fresh => exact .fresh
  | run root _ hrun ih => exact .run _ root ih hrun
  | eval id _ heval ih => exact .eval _ id ih heval

/-- Interpreters have the global frame alone whenever they are between two runs. -/
theorem depth_of_arrived {limit : Nat} {printer : Printer}
    (h : State.Arrived ctx limit printer s) : s.env.depth = 0 := by
  induction h with
  | fresh => rfl
  | run fuel root _ hrun ih =>
    obtain ⟨t, ht, hu | ⟨-, hu⟩⟩ := state?_runWithin hrun
    · rw [hu, (kept_keepsFrames.nested ht).depth_eq, ih]
    · rw [hu]
      rfl
  | eval fuel id _ heval ih => rw [(kept_keepsFrames.nested heval).depth_eq, ih]

/-- **Frame discipline.**  An evaluation that ends, with a value or with a failure, leaves
as many frames, the same limit and the same frames below the top one, and takes no name
away from the top one.  So whatever was run before, a run ends with the global frame alone,
and when it fails, that frame is all that unwinding finds. -/
theorem frame_discipline (ctx : Context) :
    (∀ (fuel : Nat) (id : NodeId) (s t : State), (nested ctx fuel id s).state? = some t →
      KeepsFrames s t) ∧
    ∀ (limit : Nat) (printer : Printer) (s : State), State.Arrived ctx limit printer s →
      ∀ (fuel : Nat) (root : NodeId) (t : State),
        ((runWithin ctx fuel root s).state? = some t → t.env.depth = 0) ∧
        ∀ e, nested ctx fuel root s = .failed e t → t.env.depth = 0 ∧ t.env.unwind = t.env := by
  refine ⟨fun fuel id s t h => kept_keepsFrames.nested h, ?_⟩
  intro limit printer s hs fuel root t
  refine ⟨fun hrun => depth_of_arrived (.run fuel root hs hrun), fun e he => ?_⟩
  have hend : (nested ctx fuel root s).state? = some t := state?_of_failed he
  have hdepth : t.env.depth = 0 := depth_of_arrived (.eval fuel root hs hend)
  exact ⟨hdepth, Env.unwind_of_depth_eq_zero hdepth⟩

/-- A program that defines a function without parameters and calls it.  The body reads a
variable that is nowhere bound. -/
def failingCall : Context where
  names := ⟨#["", "f", "x"], ∅⟩
  nodes := ⟨#[.empty, .ident ⟨2⟩, .funcDef ⟨1⟩ ⟨0⟩ ⟨1⟩, .call ⟨1⟩ ⟨0⟩, .suite ⟨0, 2⟩], #[⟨2⟩, ⟨3⟩]⟩
  resultBinding := .enabled

/-- The call fails while its frame is on the stack, and the global frame is left. -/
theorem frame_discipline_failingCall :
    ∃ t u, nested failingCall 4 ⟨4⟩ (.fresh 1 .silent) = .failed (.nameNotDefined "x") t ∧
      t.peak = 1 ∧ KeepsFrames (.fresh 1 .silent) t ∧ t.env.unwind = t.env ∧
      (runWithin failingCall 4 ⟨4⟩ (.fresh 1 .silent)).state? = some u ∧ u.env.depth = 0 := by
  have hkept := (frame_discipline failingCall).1
  have hruns := (frame_discipline failingCall).2 1 .silent (.fresh 1 .silent) .fresh 4 ⟨4⟩
  refine ⟨_, _, rfl, rfl, hkept 4 ⟨4⟩ _ _ rfl, ?_, rfl, ?_⟩
  · exact ((hruns _).2 _ rfl).2
  · exact (hruns _).1 rfl

end Eval

end TreeWalk
