import TreeWalk.Proofs.Eval.Termination

/-!
# The limit on calls

A run under a smaller limit goes as the run under a larger one until the first call for which
there is no frame, and there it fails.  So the limit has no influence on a run but to cut it
off, and it does so exactly when calls nest more deeply than it allows.

## Depth

`deepest` is the greatest depth among visits.  A state records the greatest depth that calls
have reached, and what an evaluation leaves there is the greatest depth of its trail
(`peak_eq`).

## Two limits

The pace `limited` keeps two runs abreast as long as depths stay within the smaller limit.
When the run under the smaller limit finds no frame, the other one has gone beyond it, and
nothing that it does from there on lowers its greatest depth or takes printed lines back.
-/

namespace TreeWalk

/-- The greatest depth among visits. -/
def deepest (vs : List Visit) : Nat := vs.foldr (fun v d => max v.2.env.depth d) 0

@[simp] theorem deepest_nil : deepest [] = 0 := rfl

@[simp] theorem deepest_cons (v : Visit) (vs : List Visit) :
    deepest (v :: vs) = max v.2.env.depth (deepest vs) := rfl

@[simp] theorem deepest_append (vs ws : List Visit) :
    deepest (vs ++ ws) = max (deepest vs) (deepest ws) := by
  induction vs with
  | nil => exact (Nat.zero_max _).symm
  | cons v rest ih => rw [List.cons_append, deepest_cons, deepest_cons, ih, Nat.max_assoc]

namespace Eval

variable {ctx : Context} {s₀ s t u : State} {vs : List Visit} {id : NodeId} {n : Node}
  {low high : Nat}

/-! ## Depth -/

/-- What a rule writes leaves the depth and the greatest depth alone. -/
theorem depth_of_change (h : Change ctx n s t) :
    t.env.depth = s.env.depth ∧ t.peak = s.peak := by
  cases h <;> exact ⟨rfl, rfl⟩

theorem Closes.peak_eq {o : Outcome Flow} (h : Closes n t o) (hu : o.state? = some u) :
    u.peak = t.peak := by
  cases h <;> cases hu <;> rfl

/-- The deepest of a trail is at least as deep as the evaluation itself. -/
theorem depth_le_deepest_trail (h : (eval ctx id s).state? = some t) :
    s.env.depth ≤ deepest (trail ctx id s) := by
  rw [trail_eq h, deepest_append, deepest_cons]
  exact Nat.le_trans (Nat.le_max_left ..) (Nat.le_max_right ..)

/-- Along a thread the greatest depth becomes that of the trails of the visits, if it does of
each of them. -/
theorem Threads.peak_eq (h : Threads ctx (eval ctx) n s₀ s vs u)
    (hrec : ∀ v ∈ vs, v.2.env.depth ≤ v.2.peak → ∀ t, (eval ctx v.1 v.2).state? = some t →
      t.peak = max v.2.peak (deepest (trail ctx v.1 v.2)))
    (hs : s.env.depth ≤ s.peak) :
    u.peak = max s.peak (deepest (vs.flatMap fun v => trail ctx v.1 v.2)) := by
  induction h with
  | refl s => exact (Nat.max_eq_left (Nat.zero_le _)).symm
  | change hc _ ih =>
    obtain ⟨hdepth, hpeak⟩ := depth_of_change hc
    rw [hdepth, hpeak] at ih
    exact ih hrec hs
  | @visit s t u vs c _ hend _ ih =>
    have ht : t.peak = max s.peak (deepest (trail ctx c s)) :=
      hrec (c, s) (List.mem_cons_self ..) hs t hend
    have hdepth : t.env.depth = s.env.depth := (kept_keepsFrames.eval hend).depth_eq
    have hrest := ih (fun v hv => hrec v (List.mem_cons_of_mem _ hv)) (by omega)
    rw [List.flatMap_cons, deepest_append, hrest, ht, Nat.max_assoc]
  | @enter s t u vs callee args body env params values _ _ hpush hend _ ih =>
    have hentered := depth_entered hpush params values
    have hpeak := peak_entered hpush params values
    have ht : t.peak = max (entered s env params values).peak
        (deepest (trail ctx body (entered s env params values))) :=
      hrec (body, entered s env params values) (List.mem_cons_self ..)
        (by dsimp only; omega) t hend
    -- the depth of the body is that of the last visit on its trail
    have hle := depth_le_deepest_trail hend
    have hleft : (left t).env.depth = s.env.depth := by
      rw [left_env_eq hpush (kept_keepsFrames.eval hend)]
    have hrest : u.peak = max t.peak _ := ih (fun v hv => hrec v (List.mem_cons_of_mem _ hv))
      (show (left t).env.depth ≤ t.peak by omega)
    rw [List.flatMap_cons, deepest_append, hrest]
    dsimp only
    omega

/-- **The greatest depth of an evaluation.**  What the state records is the greatest depth of
the trail, unless more was recorded before. -/
theorem peak_eq (h : (eval ctx id s).state? = some t) (hs : s.env.depth ≤ s.peak) :
    t.peak = max s.peak (deepest (trail ctx id s)) := by
  revert hs
  refine eval_induction (P := fun id s t => s.env.depth ≤ s.peak →
    t.peak = max s.peak (deepest (trail ctx id s))) (fun id s t hend ih hs => ?_) h
  obtain ⟨n, u, -, hu, hclose⟩ := exists_threads hend
  have hpeak := hu.peak_eq (fun v hv hle t ht => ih v hv t ht hle) hs
  rw [hclose.peak_eq hend, hpeak, trail_eq hend, deepest_append, deepest_cons, deepest_nil]
  dsimp only
  omega

end Eval

/-! ## Printed lines -/

namespace Printer

variable {p q r : Printer}

/-- The second printer is the first after some more lines. -/
def Continues (p q : Printer) : Prop := ∃ lines : List String, q = lines.foldl println p

theorem Continues.refl (p : Printer) : p.Continues p := ⟨[], rfl⟩

theorem Continues.trans (hpq : p.Continues q) (hqr : q.Continues r) : p.Continues r := by
  obtain ⟨ls, rfl⟩ := hpq
  obtain ⟨ms, rfl⟩ := hqr
  exact ⟨ls ++ ms, (List.foldl_append ..).symm⟩

theorem continues_println (p : Printer) (line : String) : p.Continues (p.println line) :=
  ⟨[line], rfl⟩

/-- A text to which printing only adds is a prefix of what it becomes. -/
theorem Continues.exists_append {text : Printer → String}
    (htext : ∀ p line, ∃ rest, text (p.println line) = text p ++ rest) (h : p.Continues q) :
    ∃ rest, text q = text p ++ rest := by
  obtain ⟨lines, rfl⟩ := h
  induction lines generalizing p with
  | nil => exact ⟨"", String.append_empty.symm⟩
  | cons line lines ih =>
    obtain ⟨rest, hrest⟩ := htext p line
    obtain ⟨more, hmore⟩ := ih (p := p.println line)
    refine ⟨rest ++ more, ?_⟩
    rw [List.foldl_cons, hmore, hrest, String.append_assoc]

/-- What can be read back is a prefix of what can be read back later. -/
theorem Continues.output (h : p.Continues q) : ∃ rest, q.output = p.output ++ rest := by
  refine h.exists_append fun p line => ?_
  cases p with
  | buffer kept => exact ⟨line ++ "\n", by rw [output_buffer_println, String.append_assoc]⟩
  | console shown => exact ⟨"", rfl⟩
  | silent => exact ⟨"", rfl⟩

/-- What is shown is a prefix of what is shown later. -/
theorem Continues.shown (h : p.Continues q) : ∃ rest, q.shown = p.shown ++ rest := by
  refine h.exists_append fun p line => ?_
  cases p with
  | console shown => exact ⟨line ++ "\n", by rw [shown_console_println, String.append_assoc]⟩
  | buffer kept => exact ⟨"", rfl⟩
  | silent => exact ⟨"", rfl⟩

end Printer

/-! ## The pace of two limits -/

namespace Env

variable {env pushed : Env} {limit : Nat}

/-- The same environment under another limit. -/
def withLimit (env : Env) (limit : Nat) : Env := { env with limit := limit }

theorem pop_withLimit (env : Env) (limit : Nat) :
    (env.withLimit limit).pop = env.pop.withLimit limit := by
  obtain ⟨top, below, _⟩ := env
  cases below <;> rfl

theorem bindAll_withLimit (env : Env) (limit : Nat) (names : List Name) (ids : List ValueId) :
    (env.withLimit limit).bindAll names ids = (env.bindAll names ids).withLimit limit := by
  induction names generalizing env ids with
  | nil => rfl
  | cons n rest ih =>
    cases ids with
    | nil => rfl
    | cons i is => exact ih (env.bind n i) is

/-- A frame that was pushed is pushed under another limit that has room for it. -/
theorem push_withLimit (h : env.push = .ok pushed) (hlt : env.depth < limit) :
    (env.withLimit limit).push = .ok (pushed.withLimit limit) := by
  obtain ⟨-, rfl⟩ := push_eq_ok_iff.mp h
  exact push_eq_ok_iff.mpr ⟨hlt, rfl⟩

end Env

namespace State

/-- The same state under another limit. -/
def withLimit (s : State) (limit : Nat) : State := { s with env := s.env.withLimit limit }

theorem write_withLimit (s : State) (limit : Nat) (w : Write) :
    (s.withLimit limit).write w = (s.write w).withLimit limit := by
  cases w <;> rfl

theorem left_withLimit (s : State) (limit : Nat) :
    Eval.left (s.withLimit limit) = (Eval.left s).withLimit limit := by
  unfold Eval.left withLimit
  rw [Env.pop_withLimit]

theorem entered_withLimit (s : State) (limit : Nat) (env : Env) (params : List Name)
    (values : List ValueId) : Eval.entered (s.withLimit limit) (env.withLimit limit) params values =
      (Eval.entered s env params values).withLimit limit := by
  unfold Eval.entered withLimit
  rw [Env.bindAll_withLimit]
  rfl

end State

/-- The second state differs from the first in a limit that is at least as large, and the
greatest depth is within the smaller limit. -/
def Pace.limited (low high : Nat) : Pace where
  rel s t := s = t.withLimit low ∧ t.env.limit = high ∧ t.env.depth ≤ t.peak ∧ t.peak ≤ low
  good _ _ := True
  moves t u := t.peak ≤ u.peak ∧ t.printer.Continues u.printer
  parts e s t := e = .recursionLimitExceeded low ∧ s.peak = low ∧ low < t.peak ∧
    s.printer.Continues t.printer
  dangles := True
  stalls := True

namespace Eval

variable {ctx : Context} {s t u : State} {id : NodeId} {low high : Nat}

theorem lawful_limited : (Pace.limited low high).Lawful ctx where
  refl t := ⟨Nat.le_refl _, .refl _⟩
  trans h h' := ⟨Nat.le_trans h.1 h'.1, h.2.trans h'.2⟩
  moves_write t w := by
    refine ⟨Nat.le_of_eq (t.peak_write w).symm, ?_⟩
    cases w with
    | println line => exact t.printer.continues_println line
    | _ => exact .refl _
  moves_entered _ _ _ := ⟨Nat.le_max_left .., .refl _⟩
  moves_left _ := ⟨Nat.le_refl _, .refl _⟩
  parts_left h := h
  good_of_moves _ _ := trivial
  values_eq h := by rw [h.1]; rfl
  rel_write := by
    rintro s t w ⟨rfl, hlimit, hdepth, hpeak⟩ -
    refine ⟨t.write_withLimit low w, ?_, ?_, ?_⟩
    · rw [State.limit_write, hlimit]
    · rwa [State.depth_write, State.peak_write]
    · rwa [State.peak_write]
  good_alloc _ _ := trivial
  good_nil _ := trivial
  exists_value _ _ := Or.inl trivial
  resolve_eq name h := by rw [h.1]; rfl
  good_resolve _ _ := trivial
  resolveFunction_eq name h := by rw [h.1]; rfl
  resolveParams_eq name h := by rw [h.1]; rfl
  exists_params _ _ := Or.inl trivial
  closed := Or.inl trivial

/-- Bodies are entered in both states, or in none of them if the limits are the same, or in the
second state alone if the first is at its limit. -/
theorem enters_limited (hle : low ≤ high) (params : List Name) (values : List ValueId)
    (body : Eval Flow) :
    Enters (Pace.limited low high) (Pace.limited low high).rel params values body where
  enter := by
    rintro s t ⟨rfl, hlimit, hdepth, hpeak⟩ -
    rcases Nat.lt_or_ge t.env.depth high with hhigh | hhigh
    · obtain ⟨env, ht⟩ : ∃ env, t.env.push = .ok env :=
        ⟨_, Env.push_eq_ok_iff.mpr ⟨by omega, rfl⟩⟩
      have hentered := depth_entered ht params values
      have hrecord := peak_entered ht params values
      rcases Nat.lt_or_ge t.env.depth low with hlow | hlow
      · refine Or.inr (Or.inl ⟨_, env, Env.push_withLimit ht hlow, ht, ?_, ?_, ?_, ?_⟩)
        · exact t.entered_withLimit low env params values
        · rw [limit_entered ht, hlimit]
        · omega
        · omega
      · have hs : (t.withLimit low).env.push = .error (.recursionLimitExceeded low) :=
          Env.push_of_le hlow
        refine Or.inr (Or.inr ⟨_, env, hs, ht, rfl, ?_, ?_, .refl _⟩)
        · show t.peak = low
          omega
        · omega
    · have hs : (t.withLimit low).env.push = .error (.recursionLimitExceeded low) :=
        Env.push_of_le (Nat.le_trans hle hhigh)
      have ht : t.env.push = .error (.recursionLimitExceeded t.env.limit) :=
        Env.push_of_le (hlimit ▸ hhigh)
      have heq : t.env.limit = low := by omega
      refine Or.inl ⟨_, hs, ?_⟩
      rw [ht, heq]
  leave := by
    rintro s t es et u w - - - - - ⟨rfl, hlimit, hdepth, hpeak⟩
    refine ⟨⟨w.left_withLimit low, (Env.limit_pop _).trans hlimit, ?_, hpeak⟩, rfl,
      fun _ _ => trivial⟩
    show w.env.pop.depth ≤ w.peak
    rw [Env.depth_pop]
    omega

theorem steady_limited (hle : low ≤ high) (fuel : Nat) (id : NodeId) :
    Steady (Pace.limited low high) (fun _ => True) (Pace.limited low high).GoodFlow
      (nested ctx fuel id) := by
  have hP : (Pace.limited low high).Lawful ctx := lawful_limited
  -- the pace is the same in every frame
  refine steady_nested_of_inFrame (P := fun _ => Pace.limited low high) (fun _ => hP)
    (fun _ => trivial) (fun _ => trivial) ?_ fuel 0 id
  intro _ body hbody params values
  exact steady_inFrame hP hbody (enters_limited hle params values body)

/-- Under a larger limit there is more room for nested evaluations. -/
theorem fuel_le_fuel (ctx : Context) (hle : low ≤ high) : fuel ctx low ≤ fuel ctx high :=
  Nat.succ_le_succ (Nat.mul_le_mul_right _ (Nat.succ_le_succ hle))

/-- An evaluation under the smaller limit, beside the same under the larger one. -/
theorem abreast_limited (hle : low ≤ high) (hs : s.env.limit = high)
    (hdepth : s.env.depth ≤ s.peak) (hpeak : s.peak ≤ low)
    (hend : (eval ctx id (s.withLimit low)).state? = some u) :
    Abreast (Pace.limited low high) (Pace.limited low high).GoodFlow
      (eval ctx id (s.withLimit low)) (eval ctx id s) := by
  have hfuel : nested ctx (fuel ctx high) id (s.withLimit low) = eval ctx id (s.withLimit low) :=
    nested_mono hend (fuel_le_fuel ctx hle)
  have hsteady : Steady (Pace.limited low high) _ _ (nested ctx (fuel ctx high) id) :=
    steady_limited hle (fuel ctx high) id
  rw [← hfuel]
  unfold eval
  rw [hs]
  exact hsteady.abreast ⟨rfl, hs, hdepth, hpeak⟩ trivial

end Eval

/-! ## Runs -/

/-- The same outcome with a state under another limit. -/
def Outcome.withLimit {α : Type} (limit : Nat) : Outcome α → Outcome α
  | .done a s => .done a (s.withLimit limit)
  | .failed e s => .failed e (s.withLimit limit)
  | .dangling => .dangling
  | .exhausted => .exhausted
  | .full s => .full (s.withLimit limit)

namespace Eval

variable {ctx : Context} {root : NodeId} {s t v : State} {low high : Nat}

/-- The value of a result does not depend on the limit. -/
theorem result_withLimit (flow : Flow) (s : State) (limit : Nat) :
    result flow (s.withLimit limit) = (result flow s).withLimit limit := by
  unfold result
  cases flow.value? with
  | none => rfl
  | some i =>
    dsimp only
    rw [bind_apply, bind_apply]
    unfold value
    rw [show (s.withLimit limit).values = s.values from rfl]
    cases s.values.get? i <;> rfl

/-- A run prints and records what the evaluation of its root does. -/
theorem exists_eval_of_run (h : (run ctx root t).state? = some v) :
    ∃ w, (eval ctx root t).state? = some w ∧ v.printer = w.printer ∧ v.peak = w.peak := by
  obtain ⟨w, hw, rfl | ⟨-, rfl⟩⟩ := state?_run h
  · exact ⟨v, hw, rfl, rfl⟩
  · exact ⟨w, hw, rfl, rfl⟩

/-- Runs whose roots are evaluated abreast are the same but for the limit, or the first is cut
off at its limit. -/
theorem run_limited {post : Flow → State → Prop}
    (h : Abreast (Pace.limited low high) post (eval ctx root s) (eval ctx root t))
    (hv : (run ctx root t).state? = some v) :
    (v.peak ≤ low ∧ run ctx root s = (run ctx root t).withLimit low) ∨
      low < v.peak ∧ ∃ u, run ctx root s = .failed (.recursionLimitExceeded low) u ∧
        u.peak = low ∧ u.printer.Continues v.printer := by
  obtain ⟨w, hw, hprinter, hpeak⟩ := exists_eval_of_run hv
  rw [hprinter, hpeak]
  unfold run
  generalize eval ctx root s = o at h
  generalize eval ctx root t = o' at h hw
  cases h with
  | done hr _ =>
    cases hw
    obtain ⟨rfl, -, -, hle⟩ := hr
    exact Or.inl ⟨hle, result_withLimit ..⟩
  | failed hr =>
    cases hw
    obtain ⟨rfl, -, -, hle⟩ := hr
    exact Or.inl ⟨hle, rfl⟩
  | dangling _ => cases hw
  | exhausted _ => cases hw
  | full hfills => exact hfills.elim
  | parted hparts hmoves =>
    obtain ⟨rfl, hlow, hlt, hprinted⟩ := hparts
    obtain ⟨hpeaks, hmore⟩ := hmoves w hw
    exact Or.inr ⟨Nat.lt_of_lt_of_le hlt hpeaks, _, rfl, hlow, hprinted.trans hmore⟩

end Eval

namespace Program

variable {t : Tree} {p : Program} {settings : Settings} {printer : Printer} {v : State}

/-- The greatest depth that a run records is that of its course. -/
theorem peak_eq_deepest (h : (p.run settings printer).state? = some v) :
    v.peak = deepest (p.course settings printer) := by
  obtain ⟨w, hw, -, hpeak⟩ := Eval.exists_eval_of_run h
  rw [hpeak, Eval.peak_eq hw (Nat.le_refl _)]
  exact Nat.max_eq_right (Nat.zero_le _)

/-- **The limit cuts runs off, at the limit.**  Let a program be run under two limits, and let
calls nest under the larger one to some greatest depth.  If this is beyond the smaller limit,
the run under the smaller one fails for want of a frame, its greatest depth is the limit, and
what it prints is a prefix of what the other prints.  Otherwise the two runs are the same but
for the limit itself: results and errors, printed lines, frames and values. -/
theorem run_limit (h : ofTree t = .ok p) (binding : ResultBinding) (printer : Printer)
    {low high : Nat} (hle : low ≤ high) :
    (low < deepest (p.course ⟨high, binding⟩ printer) →
      ∃ u v, p.run ⟨low, binding⟩ printer = .failed (.recursionLimitExceeded low) u ∧
        (p.run ⟨high, binding⟩ printer).state? = some v ∧
        deepest (p.course ⟨low, binding⟩ printer) = low ∧
        u.printer.Continues v.printer ∧
        (∃ rest, v.printer.output = u.printer.output ++ rest) ∧
        ∃ rest, v.printer.shown = u.printer.shown ++ rest) ∧
    (deepest (p.course ⟨high, binding⟩ printer) ≤ low →
      (∃ v, (p.run ⟨high, binding⟩ printer).state? = some v) ∧
      p.run ⟨low, binding⟩ printer = (p.run ⟨high, binding⟩ printer).withLimit low) := by
  obtain ⟨v, hv⟩ := run_ends h ⟨high, binding⟩ printer
  obtain ⟨w, hw⟩ := root_ends h ⟨low, binding⟩ printer
  have habreast := Eval.abreast_limited (s := .fresh high printer) hle rfl (Nat.le_refl _)
    (Nat.zero_le _) hw
  rw [← peak_eq_deepest hv]
  rcases Eval.run_limited habreast hv with ⟨hpeak, hrun⟩ | ⟨hpeak, u, hrun, hlow, hprinted⟩
  · exact ⟨fun hlt => absurd hpeak (Nat.not_le.mpr hlt), fun _ => ⟨⟨v, hv⟩, hrun⟩⟩
  · have hu : (p.run ⟨low, binding⟩ printer).state? = some u := congrArg Outcome.state? hrun
    refine ⟨fun _ => ⟨u, v, hrun, hv, (peak_eq_deepest hu).symm.trans hlow, hprinted,
      hprinted.output, hprinted.shown⟩, fun hle => absurd hpeak (Nat.not_lt.mpr hle)⟩

/-- A function that prints its argument and calls itself with one less, down to zero. -/
def countdown : Tree :=
  .suite [.funcDef "f" (some ["n"]) (.suite [.print (some (.ident "n")),
      .cond (.ident "n") (.call "f" (some [.binary .sub (.ident "n") (.int 1)])) none]),
    .call "f" (some [.int 2])]

/-- The program of `countdown`. -/
def countdownProgram : Program where
  names := (countdown.lower .fresh).2.names
  nodes := ⟨#[.empty, .ident ⟨1⟩, .print ⟨1⟩, .ident ⟨1⟩, .ident ⟨1⟩, .int 1, .binary .sub ⟨4⟩ ⟨5⟩,
    .paramList ⟨0, 1⟩, .call ⟨2⟩ ⟨7⟩, .cond ⟨3⟩ ⟨8⟩ ⟨0⟩, .suite ⟨1, 2⟩, .ident ⟨1⟩, .paramList ⟨3, 1⟩,
    .funcDef ⟨2⟩ ⟨12⟩ ⟨10⟩, .int 2, .paramList ⟨4, 1⟩, .call ⟨2⟩ ⟨15⟩, .suite ⟨5, 2⟩],
    #[⟨6⟩, ⟨2⟩, ⟨9⟩, ⟨11⟩, ⟨14⟩, ⟨13⟩, ⟨16⟩]⟩
  root := ⟨17⟩

theorem ofTree_countdown : ofTree countdown = .ok countdownProgram :=
  ofTree_eq_of_nodes rfl (by decide +kernel) (by decide +kernel)

/-- Counting down from two takes three frames.  With one the run is cut off, and with three
it is the run with five. -/
theorem run_limit_countdown :
    ofTree countdown = .ok countdownProgram ∧
      deepest (countdownProgram.course ⟨5, .enabled⟩ (.buffer #[])) = 3 ∧
      (∃ u, countdownProgram.run ⟨1, .enabled⟩ (.buffer #[]) =
        .failed (.recursionLimitExceeded 1) u) ∧
      countdownProgram.run ⟨3, .enabled⟩ (.buffer #[]) =
        (countdownProgram.run ⟨5, .enabled⟩ (.buffer #[])).withLimit 3 := by
  have hdeepest : deepest (countdownProgram.course ⟨5, .enabled⟩ (.buffer #[])) = 3 := by
    decide +kernel
  obtain ⟨hcut, -⟩ := run_limit ofTree_countdown .enabled (.buffer #[]) (show 1 ≤ 5 by decide)
  obtain ⟨-, hsame⟩ := run_limit ofTree_countdown .enabled (.buffer #[]) (show 3 ≤ 5 by decide)
  obtain ⟨u, -, hu, -⟩ := hcut (Nat.lt_of_lt_of_eq (by decide) hdeepest.symm)
  obtain ⟨-, hrun⟩ := hsame (Nat.le_of_eq hdeepest)
  exact ⟨ofTree_countdown, hdeepest, ⟨u, hu⟩, hrun⟩

end Program

end TreeWalk
