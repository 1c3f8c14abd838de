import TreeWalk.Proofs.Eval.Abreast

/-!
# What is visited keeps a pace

`steady_step` tells of the states before and after an evaluation.  Statements about the states in
between are statements about visits, and here it is shown that the states in which the rule of a
node visits others are in order if the one is in which it begins (`meets_visits`).

A pace relates two runs, and so "in order" means to be related to oneself: one run is two runs from
the same state.

## Why the pieces are gone through again

The list of changes that joins two states does not do.  It has the handles that are bound, but not
where they come from, so it cannot tell that they belong to values.  What comes before a visit is
however a piece of a rule, or several, and if it was done, it was steady, and what it left behind
is in order.
-/

namespace TreeWalk

namespace Pace

variable {P : Pace} {s : State} {vs ws : List Visit}

/-- The visits are all made in states that are related to themselves. -/
def Meets (P : Pace) (vs : List Visit) : Prop := ∀ v ∈ vs, P.rel v.2 v.2

theorem meets_nil : P.Meets [] := List.forall_mem_nil _

theorem meets_single (hs : P.rel s s) (id : NodeId) : P.Meets [(id, s)] := by
  intro v hv
  rwa [List.mem_singleton.mp hv]

theorem Meets.append (hv : P.Meets vs) (hw : P.Meets ws) : P.Meets (vs ++ ws) :=
  List.forall_mem_append.mpr ⟨hv, hw⟩

end Pace

namespace Eval

open Pace (meets_nil meets_single)

variable {α : Type} {ctx : Context} {rec : NodeId → Eval Flow} {P : Pace} {s : State}

/-- Looking at the program keeps every pace. -/
theorem Settled.steady (hP : P.Lawful ctx) {m : Eval α} (h : Settled P.dangles m) :
    Steady P (fun _ => True) anyResult m := by
  cases h with
  | pure a => exact (steady_pure hP a).weaken fun _ _ => trivial
  | fail e => exact steady_fail hP e
  | dangling hd => exact steady_dangling.weaken fun _ _ => hd

/-- What comes after a piece that is done begins where the piece has ended. -/
theorem meets_afterDone {m : Eval α} {pre : State → Prop} {post : α → State → Prop}
    {next : α → State → List Visit} (hm : Steady P pre post m) (hs : P.rel s s) (hpre : pre s)
    (hnext : ∀ a t, P.rel t t → post a t → P.Meets (next a t)) :
    P.Meets (afterDone (m s) next) := by
  have h := hm.abreast hs hpre
  cases ho : m s with
  | done a t =>
    rw [ho] at h
    cases h with
    | done hrel hpost => exact hnext a t hrel hpost
  | _ => exact meets_nil

theorem meets_childVisit (hs : P.rel s s) (id : NodeId) : P.Meets (childVisit ctx id s) := by
  unfold childVisit
  by_cases he : ctx.nodes.isEmpty id = true
  · rw [if_pos he]
    exact meets_nil
  · rw [if_neg he]
    exact meets_single hs id

/-! ## Rules

Every evaluation for which a rule asks is steady, and whatever the store of nodes lacks may be
asked for. -/

section Rules

variable (hP : P.Lawful ctx) (hd : P.dangles)
  (hrec : ∀ i, Steady P (fun _ => True) P.GoodFlow (rec i))

include hrec in
theorem meets_statementVisits (ids : List NodeId) (hs : P.rel s s) :
    P.Meets (statementVisits rec ids s) := by
  induction ids generalizing s with
  | nil => exact meets_nil
  | cons id rest ih =>
    refine (meets_single hs id).append (meets_afterDone (hrec id) hs trivial fun flow t ht _ => ?_)
    cases flow with
    | ret i => exact meets_nil
    | normal i => exact ih ht

include hP hrec in
theorem meets_argumentVisits (callee : String) (position : Nat) (ids : List NodeId)
    (hs : P.rel s s) : P.Meets (argumentVisits ctx rec callee position ids s) := by
  induction ids generalizing position s with
  | nil => exact meets_nil
  | cons id rest ih =>
    refine (meets_childVisit hs id).append ?_
    exact meets_afterDone (steady_required hP _ (hrec id)) hs trivial fun _ t ht _ => ih _ ht

include hP hd hrec in
theorem meets_callArgumentVisits (callee : Name) (args : NodeId) (hs : P.rel s s) :
    P.Meets (callArgumentVisits ctx rec callee args s) := by
  unfold callArgumentVisits
  cases s.env.resolveParams callee with
  | none => exact meets_nil
  | some list =>
    have hlook : Settled P.dangles (do
        let _ ← paramNames ctx list
        listItems ctx .badArguments args) :=
      (settled_paramNames (Or.inl hd) (Or.inl hd)).bind fun _ _ =>
        settled_listItems (Or.inl hd) _ (Or.inl hd)
    exact meets_afterDone (hlook.steady hP) hs trivial fun ids t ht _ =>
      meets_argumentVisits hP hrec _ 0 ids ht

/-- The body is visited in a frame of its own, if there may be one. -/
theorem meets_bodyVisit {params : List Name} {values : List ValueId}
    (henter : ∀ ⦃env⦄, s.env.push = .ok env →
      P.rel (entered s env params values) (entered s env params values)) (body : NodeId) :
    P.Meets (bodyVisit params values body s) := by
  unfold bodyVisit
  cases hpush : s.env.push with
  | error e => exact meets_nil
  | ok env => exact meets_single (henter hpush) body

include hP hd hrec in
theorem meets_suiteVisits (r : NodeRange) (hs : P.rel s s) :
    P.Meets (afterDone ((do
      let ids ← items ctx r
      markAssigned ctx ids
      return ids) s) fun ids s => statementVisits rec ids s) := by
  have hmark : Steady P (fun _ => True) anyResult (do
      let ids ← items ctx r
      markAssigned ctx ids
      return ids) := by
    refine (settled_items (Or.inl hd)).steady_bind hP fun ids _ => ?_
    exact (steady_markAssigned hP (Or.inl hd)).bind hP fun _ =>
      (steady_pure hP ids).weaken fun _ _ => trivial
  exact meets_afterDone hmark hs trivial fun ids t ht _ => meets_statementVisits hrec ids ht

include hP hd hrec in
/-- **What a rule visits is in order.**  This is so if its node is visited in a state that is, and
bodies are entered in order with handles that are good. -/
theorem meets_visits
    (henter : ∀ ⦃s env⦄ params values, P.rel s s → P.GoodAll values s → s.env.push = .ok env →
      P.rel (entered s env params values) (entered s env params values))
    (hs : P.rel s s) (id : NodeId) : P.Meets (visits ctx rec id s) := by
  unfold visits
  cases hn : ctx.nodes.get? id with
  | none => exact meets_nil
  | some n =>
    cases n with
    | unary op a => exact meets_childVisit hs a
    | print a => exact meets_childVisit hs a
    | ret a => exact meets_childVisit hs a
    | binary op a b =>
      refine (meets_childVisit hs a).append ?_
      exact meets_afterDone (steady_operand hP _ (hrec a)) hs trivial fun _ t ht _ =>
        meets_childVisit ht b
    | assign target a =>
      dsimp only
      split
      · exact meets_childVisit hs a
      · exact meets_nil
    | cond test a b =>
      have htest := (steady_required hP .ifCondition (hrec test)).bind hP (steady_value hP)
      refine (meets_childVisit hs test).append ?_
      exact meets_afterDone htest hs trivial fun _ t ht _ => meets_single ht _
    | suite r => exact meets_suiteVisits hP hd hrec r hs
    | call callee args =>
      dsimp only
      unfold callVisits
      cases s.env.resolveFunction callee with
      | none => exact meets_nil
      | some body =>
        refine (meets_callArgumentVisits hP hd hrec callee args hs).append ?_
        exact meets_afterDone (steady_arguments hP hn fun i _ => hrec i) hs trivial
          fun bindings t ht hgood => meets_bodyVisit (fun _ => henter _ _ ht hgood) body
    | _ => exact meets_nil

end Rules

end Eval

end TreeWalk
