import Mathlib.Data.List.Basic
import TreeWalk.Proofs.Eval.Frames

/-!
# Evaluation without its bound

The bound on nested evaluations only decides whether an evaluation ends, not how: an
evaluation that ends comes to the same under every larger bound (`nested_mono`), and so
does its trail.

So about an evaluation that ends one can argue with `eval` alone.  It is the rule of its
node over `eval` (`eval_eq_step`), its trail is made of the trails of its visits
(`trail_eq`), and `eval_induction` is induction along the visits.

## Why visits keep the limit

`eval` takes its bound from the limit of the state, and an evaluation is entered with the
bound of another.  The two are the same number because the limit never changes.
-/

namespace TreeWalk

namespace Eval

variable {ctx : Context} {rec rec' : NodeId → Eval Flow} {s t u : State} {id : NodeId}
  {m n : Nat}

/-! ## Visits are local to visits -/

theorem statementVisits_congr {ids : List NodeId}
    (h : AgreeAt rec rec' (statementVisits rec ids s)) :
    statementVisits rec' ids s = statementVisits rec ids s := by
  induction ids generalizing s with
  | nil => rfl
  | cons id rest ih =>
    rw [statementVisits] at h
    obtain ⟨h₁, h₂⟩ := agreeAt_cons.1 h
    rw [statementVisits, statementVisits, h₁]
    cases hr : rec id s with
    | done flow t =>
      rw [hr] at h₂
      cases flow with
      | ret v => rfl
      | normal v => exact congrArg _ (ih h₂)
    | _ => rfl

theorem argumentVisits_congr {callee : String} {ids : List NodeId} {position : Nat}
    (h : AgreeAt rec rec' (argumentVisits ctx rec callee position ids s)) :
    argumentVisits ctx rec' callee position ids s =
      argumentVisits ctx rec callee position ids s := by
  induction ids generalizing position s with
  | nil => rfl
  | cons id rest ih =>
    rw [argumentVisits] at h
    obtain ⟨h₁, h₂⟩ := agreeAt_append.1 h
    rw [argumentVisits, argumentVisits, required_congr h₁]
    cases hr : required ctx rec (.argument position callee) id s with
    | done v t =>
      rw [hr] at h₂
      exact congrArg _ (ih h₂)
    | _ => rfl

theorem callArgumentVisits_congr {callee : Name} {args : NodeId}
    (h : AgreeAt rec rec' (callArgumentVisits ctx rec callee args s)) :
    callArgumentVisits ctx rec' callee args s = callArgumentVisits ctx rec callee args s := by
  unfold callArgumentVisits at h ⊢
  cases hl : s.env.resolveParams callee with
  | none => rfl
  | some list =>
    rw [hl] at h
    dsimp only at h ⊢
    generalize (paramNames ctx list >>= fun _ => listItems ctx .badArguments args : Eval _) s = o
      at h ⊢
    cases o with
    | done ids t => exact argumentVisits_congr h
    | _ => rfl

theorem callVisits_congr {callee : Name} {args : NodeId}
    (h : AgreeAt rec rec' (callVisits ctx rec callee args s)) :
    callVisits ctx rec' callee args s = callVisits ctx rec callee args s := by
  unfold callVisits at h ⊢
  cases hb : s.env.resolveFunction callee with
  | none => rfl
  | some body =>
    rw [hb] at h
    obtain ⟨h₁, -⟩ := agreeAt_append.1 h
    dsimp only
    rw [callArgumentVisits_congr h₁, arguments_congr h₁]

/-- What the rule of a node visits depends on nothing but what comes of the visits. -/
theorem visits_congr (h : AgreeAt rec rec' (visits ctx rec id s)) :
    visits ctx rec' id s = visits ctx rec id s := by
  unfold visits at h ⊢
  cases hg : ctx.nodes.get? id with
  | none => rfl
  | some n =>
    rw [hg] at h
    cases n with
    | binary op a b =>
      obtain ⟨h₁, -⟩ := agreeAt_append.1 h
      dsimp only
      rw [operand_congr h₁]
    | cond test thenBranch elseBranch =>
      obtain ⟨h₁, -⟩ := agreeAt_append.1 h
      dsimp only
      rw [bind_apply, bind_apply, required_congr h₁]
    | suite r =>
      dsimp only at h ⊢
      generalize (do let ids ← items ctx r; markAssigned ctx ids; return ids : Eval _) s = o at h ⊢
      cases o with
      | done ids t => exact statementVisits_congr h
      | _ => rfl
    | call callee args => exact callVisits_congr h
    | _ => rfl

/-! ## Larger bounds -/

/-- **More fuel changes nothing.**  An evaluation that ends comes to the same with a larger
bound. -/
theorem nested_mono (h : (nested ctx n id s).state? = some t) (hnm : n ≤ m) :
    nested ctx m id s = nested ctx n id s := by
  induction n generalizing m id s t with
  | zero => cases h
  | succ n ih =>
    obtain ⟨m, rfl⟩ : ∃ k, m = k + 1 := ⟨m - 1, by omega⟩
    refine step_congr fun v hv => ?_
    obtain ⟨u, hu⟩ := visits_end h v hv
    exact ih hu (by omega)

/-- Under two bounds under which an evaluation ends it comes to the same. -/
theorem nested_eq_of_ends (hn : (nested ctx n id s).state? = some t)
    (hm : (nested ctx m id s).state? = some u) : nested ctx m id s = nested ctx n id s := by
  rcases Nat.le_total n m with hnm | hmn
  · exact nested_mono hn hnm
  · exact (nested_mono hm hmn).symm

/-- The visits of an evaluation that ends agree with those under a larger bound. -/
theorem agreeAt_of_le (h : (nested ctx (n + 1) id s).state? = some t) (hnm : n ≤ m) :
    AgreeAt (nested ctx n) (nested ctx m) (visits ctx (nested ctx n) id s) := by
  intro v hv
  obtain ⟨u, hu⟩ := visits_end h v hv
  exact nested_mono hu hnm

/-- The trail of an evaluation that ends is the same with a larger bound. -/
theorem nestedTrail_mono (h : (nested ctx n id s).state? = some t) (hnm : n ≤ m) :
    nestedTrail ctx m id s = nestedTrail ctx n id s := by
  induction n generalizing m id s t with
  | zero => cases h
  | succ n ih =>
    obtain ⟨m, rfl⟩ : ∃ k, m = k + 1 := ⟨m - 1, by omega⟩
    have hle : n ≤ m := by omega
    rw [nestedTrail, nestedTrail, visits_congr (agreeAt_of_le h hle)]
    congr 1
    refine List.flatMap_congr fun v hv => ?_
    obtain ⟨u, hu⟩ := visits_end h v hv
    exact ih hu hle

/-! ## Evaluation under its own bound -/

/-- The limit never changes. -/
theorem invariant_limit (limit : Nat) :
    Invariant ctx (fun _ => True) fun s => s.env.limit = limit where
  asked _ _ _ := trivial
  body _ _ := trivial
  change _ _ h hs := (keepsFrames_change h).limit_eq.trans hs
  println _ hs := hs
  signal _ hs := hs
  enter params values hpush hs := by
    obtain ⟨-, rfl⟩ := Env.push_eq_ok_iff.mp hpush
    exact (Env.limit_bindAll ..).trans hs
  leave hs := (Env.limit_pop _).trans hs

/-- Visits are made with the limit of the evaluation that makes them. -/
theorem limit_of_mem_visits (h : (step ctx rec id s).state? = some t)
    (hrec : ∀ v ∈ visits ctx rec id s, ∀ t, (rec v.1 v.2).state? = some t →
      t.env.limit = v.2.env.limit) :
    ∀ v ∈ visits ctx rec id s, v.2.env.limit = s.env.limit := by
  have hvisits := (invariant_limit s.env.limit).visits h trivial rfl
    fun v hv _ hlimit t hend => (hrec v hv t hend).trans hlimit
  exact fun v hv => (hvisits v hv).2

/-- An evaluation that ends under a bound no larger than its own is the evaluation under
its own bound. -/
theorem eval_eq_nested (h : (nested ctx n id s).state? = some t)
    (hle : n ≤ fuel ctx s.env.limit) : eval ctx id s = nested ctx n id s :=
  nested_mono h hle

/-- At the visits of an evaluation, evaluation under the remaining bound is evaluation. -/
theorem agreeAt_eval (h : (nested ctx (n + 1) id s).state? = some t)
    (hle : n + 1 ≤ fuel ctx s.env.limit) :
    AgreeAt (nested ctx n) (eval ctx) (visits ctx (nested ctx n) id s) := by
  intro v hv
  obtain ⟨u, hu⟩ := visits_end h v hv
  have hlimit : v.2.env.limit = s.env.limit :=
    limit_of_mem_visits h (fun _ _ _ hend => (kept_keepsFrames.nested hend).limit_eq) v hv
  refine eval_eq_nested hu ?_
  rw [hlimit]
  omega

theorem fuel_eq_succ (ctx : Context) (limit : Nat) :
    fuel ctx limit = (limit + 1) * ctx.nodes.size + 1 := rfl

/-- An evaluation that ends is the rule of its node over evaluation. -/
theorem eval_eq_step (h : (eval ctx id s).state? = some t) :
    eval ctx id s = step ctx (eval ctx) id s :=
  (step_congr (agreeAt_eval h (Nat.le_refl _))).symm

/-- The visits of an evaluation that ends, without the bound. -/
theorem visits_eval (h : (eval ctx id s).state? = some t) :
    visits ctx (eval ctx) id s =
      visits ctx (nested ctx ((s.env.limit + 1) * ctx.nodes.size)) id s :=
  visits_congr (agreeAt_eval h (Nat.le_refl _))

/-- The visits of an evaluation that ends make a thread. -/
theorem exists_threads (h : (eval ctx id s).state? = some t) :
    ∃ n u, ctx.nodes.get? id = some n ∧
      Threads ctx (eval ctx) n s s (visits ctx (eval ctx) id s) u ∧
      Closes n u (eval ctx id s) := by
  have hstep := eval_eq_step h
  rw [hstep] at h ⊢
  obtain ⟨n, hn⟩ := exists_node_of_ends h
  obtain ⟨u, hu, hclose⟩ := runs_step hn s h
  exact ⟨n, u, hn, hu, hclose⟩

/-- Visits of an evaluation that ends are evaluated to an end. -/
theorem eval_ends_of_mem_visits (h : (eval ctx id s).state? = some t) {v : Visit}
    (hv : v ∈ visits ctx (eval ctx) id s) : ∃ u, (eval ctx v.1 v.2).state? = some u := by
  rw [eval_eq_step h] at h
  exact visits_end h v hv

/-- Visits are made with the limit of the evaluation that makes them. -/
theorem limit_of_mem_eval_visits (h : (eval ctx id s).state? = some t) {v : Visit}
    (hv : v ∈ visits ctx (eval ctx) id s) : v.2.env.limit = s.env.limit := by
  rw [eval_eq_step h] at h
  exact limit_of_mem_visits h (fun _ _ _ hend => (kept_keepsFrames.eval hend).limit_eq) v hv

/-- The trail of an evaluation is made of the trails of its visits. -/
theorem trail_eq (h : (eval ctx id s).state? = some t) :
    trail ctx id s =
      (visits ctx (eval ctx) id s).flatMap (fun v => trail ctx v.1 v.2) ++ [(id, s)] := by
  have hvisits := visits_eval h
  unfold trail
  rw [fuel_eq_succ, nestedTrail, ← hvisits]
  congr 1
  refine List.flatMap_congr fun v hv => ?_
  have hlimit := limit_of_mem_eval_visits h hv
  rw [hvisits] at hv
  obtain ⟨u, hu⟩ := visits_end h v hv
  rw [hlimit]
  exact (nestedTrail_mono hu (Nat.le_succ _)).symm

/-- **Induction along visits.**  What is true of an evaluation that ends as soon as it is true
of its visits is true of every evaluation that ends. -/
theorem eval_induction {P : NodeId → State → State → Prop}
    (step : ∀ id s t, (eval ctx id s).state? = some t →
      (∀ v ∈ visits ctx (eval ctx) id s, ∀ u, (eval ctx v.1 v.2).state? = some u → P v.1 v.2 u) →
      P id s t)
    (h : (eval ctx id s).state? = some t) : P id s t := by
  -- the induction is on the bound, which is smaller for every visit while the limit stays
  suffices hnested : ∀ n id s t, (nested ctx n id s).state? = some t →
      n ≤ fuel ctx s.env.limit → P id s t from
    hnested _ id s t h (Nat.le_refl _)
  intro n
  induction n with
  | zero =>
    intro id s t hend
    cases hend
  | succ n ih =>
    intro id s t hend hle
    have heval : eval ctx id s = nested ctx (n + 1) id s := eval_eq_nested hend hle
    have hagree := agreeAt_eval hend hle
    refine step id s t (by rw [heval]; exact hend) fun v hv u hu => ?_
    rw [visits_congr hagree] at hv
    have hlimit : v.2.env.limit = s.env.limit :=
      limit_of_mem_visits hend (fun _ _ _ hend => (kept_keepsFrames.nested hend).limit_eq) v hv
    rw [hagree v hv] at hu
    refine ih v.1 v.2 u hu ?_
    rw [hlimit]
    omega

/-- **Induction along a trail.**  What is true of an evaluation, and of everything on the
trail of a visit as soon as it is true of the visit, is true of everything on the trail. -/
theorem trail_induction {Q : NodeId → State → Prop}
    (step : ∀ id s t, (eval ctx id s).state? = some t → Q id s →
      ∀ v ∈ visits ctx (eval ctx) id s, Q v.1 v.2)
    (h : (eval ctx id s).state? = some t) (hs : Q id s) : ∀ v ∈ trail ctx id s, Q v.1 v.2 := by
  revert hs
  refine eval_induction (P := fun id s _ => Q id s → ∀ v ∈ trail ctx id s, Q v.1 v.2)
    (fun id s t hend ih hs v hv => ?_) h
  rw [trail_eq hend] at hv
  rcases List.mem_append.mp hv with hv | hv
  · obtain ⟨w, hw, hvw⟩ := List.mem_flatMap.mp hv
    obtain ⟨u, hu⟩ := eval_ends_of_mem_visits hend hw
    exact ih w hw u hu (step id s t hend hs w hw) v hvw
  · rw [List.mem_singleton.mp hv]
    exact hs

/-- Everything on the trail of an evaluation that ends has the invariants of the evaluation. -/
theorem Invariant.trail {P : NodeId → Prop} {I : State → Prop} (hI : Invariant ctx P I)
    (h : (eval ctx id s).state? = some t) (hid : P id) (hs : I s) :
    ∀ v ∈ trail ctx id s, P v.1 ∧ I v.2 := by
  refine trail_induction (Q := fun id s => P id ∧ I s) (fun id s t hend hQ => ?_) h ⟨hid, hs⟩
  rw [eval_eq_step hend] at hend
  exact hI.visits hend hQ.1 hQ.2 fun _ _ hv hvs _ hend => hI.nested hend hv hvs

/-- What is on the trail of an evaluation that ends is evaluated to an end. -/
theorem eval_ends_of_mem_trail {v : Visit} (h : (eval ctx id s).state? = some t)
    (hv : v ∈ trail ctx id s) : ∃ u, (eval ctx v.1 v.2).state? = some u :=
  trail_induction (Q := fun id s => ∃ u, (eval ctx id s).state? = some u)
    (fun _ _ _ hend _ _ hw => eval_ends_of_mem_visits hend hw) h ⟨t, h⟩ v hv

end Eval

end TreeWalk
