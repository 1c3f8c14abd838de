import Mathlib.Data.List.Infix
import TreeWalk.Proofs.Eval.Frames

/-!
# Environments are stacks

Here an environment is looked at from outside, as something that operations are performed on in any
order: frames are pushed and popped, whether this is possible or not, names are bound and marked,
returns are signalled and taken, and questions are asked in between.  Whatever is done between a
push that succeeds and the pop that belongs to it, the environment is the same as before then, with
everything that it answers (`stack_discipline`).

## Which pop belongs to a push

Pushes may fail and pops may find nothing to pop, so the two cannot be paired by counting them.
The depth tells: the pop that belongs to a push is the first that brings the depth back to what it
was.  If the depth ever falls to that again, there is such a pop (`exists_matchedBy`), since nothing
but a pop makes it fall, and then by one.

Until then the frames from before the push all lie below the top one (`Buried`), where no operation
reaches them.  This is what each single operation preserves.
-/

namespace TreeWalk

namespace Env

/-! ## Operations -/

/-- Something that is done to an environment or asked of it. -/
inductive Operation where
  | push
  | pop
  | bind (name : Name) (id : ValueId)
  | markUnbound (name : Name)
  | bindFunction (name : Name) (body : NodeId)
  | bindParams (name : Name) (list : NodeId)
  | clearParams (name : Name)
  | signalReturn (id : ValueId)
  | takeReturned
  | hasReturned
  | resolve (name : Name)
  | resolveFunction (name : Name)
  | resolveParams (name : Name)
  | local? (name : Name)
  | depth

/-- What comes back from an operation. -/
inductive Answer where
  | done
  | refused (e : EvalError)
  | value (found : Except ResolveError ValueId)
  | node (found : Option NodeId)
  | binding (found : Option Binding)
  | handle (found : Option ValueId)
  | flag (holds : Bool)
  | number (n : Nat)

/-- The answer to an operation, and the environment after it. -/
def perform (env : Env) : Operation → Answer × Env
  | .push =>
    match env.push with
    | .ok pushed => (.done, pushed)
    | .error e => (.refused e, env)
  | .pop => (.done, env.pop)
  | .bind name id => (.done, env.bind name id)
  | .markUnbound name => (.done, env.markUnbound name)
  | .bindFunction name body => (.done, env.bindFunction name body)
  | .bindParams name list => (.done, env.bindParams name list)
  | .clearParams name => (.done, env.clearParams name)
  | .signalReturn id => (.done, env.signalReturn id)
  | .takeReturned => (.handle env.takeReturned.1, env.takeReturned.2)
  | .hasReturned => (.flag env.hasReturned, env)
  | .resolve name => (.value (env.resolve name), env)
  | .resolveFunction name => (.node (env.resolveFunction name), env)
  | .resolveParams name => (.node (env.resolveParams name), env)
  | .local? name => (.binding (env.local? name), env)
  | .depth => (.number env.depth, env)

/-- The environment after operations, one after another. -/
def performAll (env : Env) : List Operation → Env
  | [] => env
  | op :: rest => (env.perform op).2.performAll rest

variable {env s t pushed : Env} {op : Operation} {ops mid : List Operation}

theorem performAll_append (env : Env) (ops more : List Operation) :
    env.performAll (ops ++ more) = (env.performAll ops).performAll more := by
  induction ops generalizing env with
  | nil => rfl
  | cons op rest ih => exact ih _

/-- What an operation does to the stack. -/
inductive Turn (env : Env) : Operation → Env → Prop
  | push {pushed : Env} (h : env.push = .ok pushed) : Turn env .push pushed
  | pop : Turn env .pop env.pop
  /-- A push that fails is of this kind, too. -/
  | inPlace {op : Operation} {t : Env} (hbelow : t.below = env.below)
      (hlimit : t.limit = env.limit) : Turn env op t

theorem turn_perform (env : Env) (op : Operation) : Turn env op (env.perform op).2 := by
  cases op with
  | push =>
    unfold perform
    cases hpush : env.push with
    | ok pushed => exact .push hpush
    | error e => exact .inPlace rfl rfl
  | pop => exact .pop
  | bind | markUnbound | bindFunction | bindParams | clearParams | signalReturn | takeReturned
  | hasReturned | resolve | resolveFunction | resolveParams | local? | depth =>
    exact .inPlace rfl rfl

theorem Turn.limit_eq (h : Turn s op t) : t.limit = s.limit := by
  cases h with
  | push h =>
    obtain ⟨-, rfl⟩ := push_eq_ok_iff.mp h
    rfl
  | pop => exact limit_pop s
  | inPlace _ hlimit => exact hlimit

theorem Turn.depth_le (h : Turn s op t) (hs : s.depth ≤ s.limit) : t.depth ≤ t.limit := by
  rw [h.limit_eq]
  cases h with
  | push h =>
    obtain ⟨hlt, rfl⟩ := push_eq_ok_iff.mp h
    exact hlt
  | pop =>
    rw [depth_pop]
    omega
  | inPlace hbelow _ =>
    unfold depth at hs ⊢
    rwa [hbelow]

theorem limit_performAll (env : Env) (ops : List Operation) :
    (env.performAll ops).limit = env.limit := by
  induction ops generalizing env with
  | nil => rfl
  | cons op rest ih => exact (ih _).trans (turn_perform env op).limit_eq

theorem depth_performAll_le (h : env.depth ≤ env.limit) (ops : List Operation) :
    (env.performAll ops).depth ≤ env.limit := by
  induction ops generalizing env with
  | nil => exact h
  | cons op rest ih =>
    have hturn := turn_perform env op
    exact hturn.limit_eq ▸ ih (hturn.depth_le h)

/-! ## Frames below others -/

/-- The frames of the first environment all lie below the top one of the second. -/
structure Buried (env s : Env) : Prop where
  frames : env.frames <:+ s.below
  limit_eq : s.limit = env.limit

theorem buried_of_push (h : env.push = .ok pushed) : Buried env pushed := by
  obtain ⟨-, rfl⟩ := push_eq_ok_iff.mp h
  exact ⟨List.suffix_refl _, rfl⟩

theorem Buried.depth_lt (h : Buried env s) : env.depth < s.depth :=
  h.frames.length_le

theorem below_pop (env : Env) : env.pop.below = env.below.tail := by
  unfold pop
  split
  · next h => rw [h]; rfl
  · next h => rw [h]; rfl

/-- Frames stay below the top one as long as the depth does not fall to what it was. -/
theorem Buried.turn (h : Buried env s) (hturn : Turn s op t) (hdepth : env.depth < t.depth) :
    Buried env t := by
  refine ⟨?_, hturn.limit_eq.trans h.limit_eq⟩
  cases hturn with
  | push hpush =>
    obtain ⟨-, rfl⟩ := push_eq_ok_iff.mp hpush
    exact h.frames.trans (List.suffix_cons _ _)
  | pop =>
    -- both are ends of the frames before the pop, and the ones looked for are no more
    refine List.suffix_of_suffix_length_le h.frames ?_ hdepth
    rw [below_pop]
    exact List.tail_suffix _
  | inPlace hbelow _ =>
    rw [hbelow]
    exact h.frames

theorem Buried.performAll (h : Buried env s)
    (hdepth : ∀ part, part <+: ops → env.depth < (s.performAll part).depth) :
    Buried env (s.performAll ops) := by
  induction ops generalizing s with
  | nil => exact h
  | cons op rest ih =>
    refine ih (h.turn (turn_perform s op) (hdepth [op] (by simp))) fun part hpart => ?_
    exact hdepth (op :: part) ((List.prefix_cons_inj op).mpr hpart)

/-- A pop that brings the depth back brings back everything. -/
theorem Buried.pop_eq (h : Buried env s) (hdepth : s.pop.depth = env.depth) : s.pop = env := by
  have hlt := h.depth_lt
  rw [depth_pop] at hdepth
  have hlength : env.frames.length = s.below.length := by
    rw [Env.frames, List.length_cons]
    unfold depth at hdepth hlt
    omega
  exact pop_eq_of_below (h.frames.eq_of_length hlength).symm h.limit_eq

/-! ## Pushes and pops -/

/-- Pushing succeeds, the operations keep the frame that was pushed, and the pop after them takes
it away. -/
structure MatchedBy (env : Env) (mid : List Operation) : Prop where
  pushed : (env.perform .push).1 = .done
  kept : ∀ part, part <+: mid → env.depth < (env.performAll (.push :: part)).depth
  popped : (env.performAll (.push :: mid ++ [.pop])).depth = env.depth

theorem perform_push_of_done (h : (env.perform .push).1 = .done) :
    env.push = .ok (env.perform .push).2 := by
  unfold perform at h ⊢
  cases hpush : env.push with
  | ok pushed => rfl
  | error e =>
    rw [hpush] at h
    cases h

theorem MatchedBy.eq (h : MatchedBy env mid) : env.performAll (.push :: mid ++ [.pop]) = env := by
  have hburied := buried_of_push (perform_push_of_done h.pushed)
  have hpopped := h.popped
  rw [performAll_append] at hpopped ⊢
  exact (hburied.performAll h.kept).pop_eq hpopped

theorem Buried.exists_pop (h : Buried env s) (hops : (s.performAll ops).depth ≤ env.depth) :
    ∃ mid rest, ops = mid ++ .pop :: rest ∧
      (∀ part, part <+: mid → env.depth < (s.performAll part).depth) ∧
      (s.performAll (mid ++ [.pop])).depth = env.depth := by
  have hlt := h.depth_lt
  induction ops generalizing s with
  | nil => exact absurd hlt (Nat.not_lt.mpr hops)
  | cons op rest ih =>
    have hturn := turn_perform s op
    by_cases hdepth : env.depth < (s.perform op).2.depth
    · obtain ⟨mid, rest, rfl, hmid, hpop⟩ := ih (h.turn hturn hdepth) hops hdepth
      refine ⟨op :: mid, rest, rfl, fun part hpart => ?_, hpop⟩
      rcases List.prefix_cons_iff.mp hpart with rfl | ⟨later, rfl, hlater⟩
      · exact hlt
      · exact hmid later hlater
    · -- only a pop makes the depth fall
      generalize hafter : (s.perform op).2 = t at hturn hdepth
      cases hturn with
      | push hpush =>
        obtain ⟨-, rfl⟩ := push_eq_ok_iff.mp hpush
        exact absurd (Nat.lt_succ_of_lt hlt) hdepth
      | pop =>
        refine ⟨[], rest, rfl, fun part hpart => ?_, ?_⟩
        · obtain rfl := List.prefix_nil.mp hpart
          exact hlt
        · rw [depth_pop] at hdepth
          show s.pop.depth = env.depth
          rw [depth_pop]
          omega
      | inPlace hbelow _ =>
        unfold depth at hdepth hlt
        rw [hbelow] at hdepth
        exact absurd hlt hdepth

/-- If the depth falls back to what it was before a push, some pop belongs to the push. -/
theorem exists_matchedBy (hpush : (env.perform .push).1 = .done)
    (hops : (env.performAll (.push :: ops)).depth ≤ env.depth) :
    ∃ mid rest, ops = mid ++ .pop :: rest ∧ MatchedBy env mid := by
  obtain ⟨mid, rest, hsplit, hkept, hpopped⟩ :=
    (buried_of_push (perform_push_of_done hpush)).exists_pop hops
  exact ⟨mid, rest, hsplit, hpush, hkept, hpopped⟩

/-! ## From the beginning -/

theorem perform_push_of_lt (h : env.depth < env.limit) : (env.perform .push).1 = .done := by
  unfold perform
  rw [push_eq_ok_iff.mpr ⟨h, rfl⟩]

theorem perform_push_of_le (h : env.limit ≤ env.depth) :
    env.perform .push = (.refused (.recursionLimitExceeded env.limit), env) := by
  unfold perform
  rw [push_of_le h]

theorem pop_of_depth_eq_zero (h : env.depth = 0) : env.pop = env := by
  unfold pop
  rw [List.length_eq_zero_iff.mp h]

/-- An environment that starts with the global frame alone never has more frames above it than the
limit.  A push fails at the limit and only there, and then it changes nothing, nor does a pop where
there is nothing to pop.  If the depth falls back to what it was before a push, some pop belongs to
the push, and after that pop the environment is the one from before the push, and everything is
answered as it was then. -/
theorem stack_discipline {limit : Nat} {ops : List Operation} {env : Env}
    (h : (fresh limit).performAll ops = env) :
    env.depth ≤ limit ∧
    ((∃ e, (env.perform .push).1 = .refused e) ↔ env.depth = limit) ∧
    (env.depth = limit →
      env.perform .push = (.refused (.recursionLimitExceeded limit), env)) ∧
    (env.depth = 0 → env.perform .pop = (.done, env)) ∧
    (∀ later, (env.perform .push).1 = .done →
      (env.performAll (.push :: later)).depth ≤ env.depth →
      ∃ mid rest, later = mid ++ .pop :: rest ∧ MatchedBy env mid) ∧
    ∀ mid, MatchedBy env mid →
      env.performAll (.push :: mid ++ [.pop]) = env ∧
      ∀ op, ((env.performAll (.push :: mid ++ [.pop])).perform op).1 = (env.perform op).1 := by
  have hlimit : env.limit = limit := h ▸ limit_performAll (fresh limit) ops
  have hfresh : (fresh limit).depth ≤ (fresh limit).limit := Nat.zero_le limit
  have hle : env.depth ≤ limit := h ▸ depth_performAll_le hfresh ops
  have hrefused (hfull : env.depth = limit) :
      env.perform .push = (.refused (.recursionLimitExceeded limit), env) := by
    have hpush := perform_push_of_le (Nat.le_of_eq (hlimit.trans hfull.symm))
    rwa [hlimit] at hpush
  refine ⟨hle, ⟨?_, ?_⟩, hrefused, ?_, fun _ => exists_matchedBy, ?_⟩
  · rintro ⟨e, he⟩
    by_contra hne
    have hroom : env.depth < env.limit := hlimit ▸ Nat.lt_of_le_of_ne hle hne
    rw [perform_push_of_lt hroom] at he
    cases he
  · intro hfull
    exact ⟨_, congrArg Prod.fst (hrefused hfull)⟩
  · intro hzero
    exact congrArg (Prod.mk Answer.done) (pop_of_depth_eq_zero hzero)
  · intro mid hmid
    rw [hmid.eq]
    exact ⟨rfl, fun _ => rfl⟩

/-- In the frame that is pushed another one is pushed and popped, and a third would be too many. -/
theorem stack_discipline_nested :
    let env := (fresh 2).performAll [.pop, .bind ⟨0⟩ ⟨1⟩, .bindParams ⟨0⟩ ⟨7⟩]
    let mid : List Operation := [.markUnbound ⟨0⟩, .push, .push, .bind ⟨0⟩ ⟨2⟩, .signalReturn ⟨2⟩,
      .pop, .clearParams ⟨0⟩, .hasReturned]
    MatchedBy env mid ∧ env.performAll (.push :: mid ++ [.pop]) = env := by
  intro env mid
  have hkept : ∀ part ∈ mid.inits, env.depth < (env.performAll (.push :: part)).depth := by decide
  have hmid : MatchedBy env mid :=
    ⟨rfl, fun part hpart => hkept part ((List.mem_inits part mid).mpr hpart), rfl⟩
  exact ⟨hmid, ((stack_discipline rfl).2.2.2.2.2 mid hmid).1⟩

end Env

end TreeWalk
