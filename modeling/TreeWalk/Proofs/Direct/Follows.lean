import TreeWalk.Proofs.Direct.Matching
import TreeWalk.Proofs.Eval.Rules

/-!
# Outcomes that follow results

Both evaluations are sequences of the same pieces.  `Follows` relates an outcome of the one
to a result of the other, and `Follows.bind` puts related pieces in a row, so that rules can
be compared piece by piece and a failure anywhere stops both.

What a piece yields is compared in the store that the piece leaves behind: a handle is
stored before it is yielded, and means its value only from then on.
-/

namespace TreeWalk

namespace Direct

variable {α β γ δ : Type} {l : Layout} {limit room : Nat} {vs ws : ValueStore}
  {s : TreeWalk.State} {d : State}

theorem bind_ok {m : Eval α} {a : α} {e : State} (h : m d = .ok a e) (f : α → Eval β) :
    (m >>= f) d = f a e := by
  show EStateM.bind m f d = _
  unfold EStateM.bind
  rw [h]

theorem bind_error {m : Eval α} {err : EvalError} {e : State} (h : m d = .error err e)
    (f : α → Eval β) : (m >>= f) d = .error err e := by
  show EStateM.bind m f d = _
  unfold EStateM.bind
  rw [h]

/-! ## Outcomes and results -/

/-- An outcome follows a result: both end, in matching states and with related results, or
fail with the same error and the same output. -/
inductive Follows (l : Layout) (limit room : Nat) (vs : ValueStore)
    (Q : ValueStore → α → β → Prop) : Outcome α → EStateM.Result EvalError State β → Prop where
  | done {a : α} {b : β} {s : TreeWalk.State} {d : State} :
    Matches l limit room s d → vs.Grows s.values → Q s.values a b →
    Follows l limit room vs Q (.done a s) (.ok b d)
  | failed (e : EvalError) {s : TreeWalk.State} {d : State} :
    s.printer = d.printer → Follows l limit room vs Q (.failed e s) (.error e d)

/-- Equal results, whatever is stored. -/
def Same (_ : ValueStore) (a b : α) : Prop := a = b

/-- Handles of values, one by one. -/
def HandlesMatch (vs : ValueStore) (ids : List ValueId) (values : List Value) : Prop :=
  List.Forall₂ vs.Holds ids values

/-- Both evaluations go on, or both return, with the same value. -/
def FlowMatches (vs : ValueStore) : TreeWalk.Flow → Flow → Prop
  | .normal o, .normal p => Option.Rel vs.Holds o p
  | .ret id, .ret v => vs.Holds id v
  | _, _ => False

theorem FlowMatches.value? {vs : ValueStore} {flow : TreeWalk.Flow} {flow' : Flow}
    (h : FlowMatches vs flow flow') : Option.Rel vs.Holds flow.value? flow'.value? := by
  match flow, flow', h with
  | .normal _, .normal _, h => exact h
  | .ret _, .ret _, h => exact Option.Rel.some h

theorem Follows.of_grows {Q : ValueStore → α → β → Prop} {o : Outcome α}
    {r : EStateM.Result EvalError State β} (hv : ws.Grows vs) (h : Follows l limit room vs Q o r) :
    Follows l limit room ws Q o r := by
  cases h with
  | done hm hg hq => exact .done hm (hv.trans hg) hq
  | failed e hp => exact .failed e hp

/-- Pieces that follow each other, in a row. -/
theorem Follows.bind {Q : ValueStore → α → β → Prop} {P : ValueStore → γ → δ → Prop}
    {m : TreeWalk.Eval α} {f : α → TreeWalk.Eval γ} {m' : Eval β} {f' : β → Eval δ}
    (h : Follows l limit room vs Q (m s) (m' d))
    (hf : ∀ a b t e, Matches l limit room t e → vs.Grows t.values → Q t.values a b →
      Follows l limit room t.values P (f a t) (f' b e)) :
    Follows l limit room vs P ((m >>= f) s) ((m' >>= f') d) := by
  rw [TreeWalk.Eval.bind_apply]
  generalize m s = o at h
  generalize hr : m' d = r at h
  cases h with
  | done hm hg hq =>
    rw [bind_ok hr]
    exact (hf _ _ _ _ hm hg hq).of_grows hg
  | failed e hp =>
    rw [bind_error hr]
    exact .failed e hp

theorem follows_pure {Q : ValueStore → α → β → Prop} (hm : Matches l limit room s d) {a : α} {b : β}
    (hq : Q s.values a b) :
    Follows l limit room s.values Q ((pure a : TreeWalk.Eval α) s) ((pure b : Eval β) d) :=
  .done hm (.refl _) hq

theorem follows_fail {Q : ValueStore → α → β → Prop} (hm : Matches l limit room s d)
    (e : EvalError) :
    Follows l limit room s.values Q ((TreeWalk.Eval.fail e : TreeWalk.Eval α) s)
      ((throw e : Eval β) d) :=
  .failed e hm.printer

theorem follows_produce (hm : Matches l limit room s d) (v : Value) :
    Follows l limit room s.values FlowMatches (TreeWalk.Eval.produce v s)
      ((pure (.normal (some v)) : Eval Flow) d) :=
  .done (hm.alloc v) (s.values.grows_alloc v) (Option.Rel.some (ValueStore.holds_alloc hm.nil v))

theorem follows_emit (hm : Matches l limit room s d) (line : String) :
    Follows l limit room s.values Same (TreeWalk.Eval.emit line s) (emit line d) :=
  .done (hm.println line) (.refl _) rfl

/-- The result of an operation that needs no state is the same. -/
theorem follows_ofExcept (hm : Matches l limit room s d) (r : Except EvalError α) :
    Follows l limit room s.values Same (TreeWalk.Eval.ofExcept r s) (ofExcept r d) := by
  cases r with
  | ok a => exact follows_pure hm rfl
  | error e => exact follows_fail hm e

variable {ctx : Context} {rec : NodeId → TreeWalk.Eval TreeWalk.Flow} {id : NodeId}
  {m : Eval Flow}

/-- An operand that follows has the same value. -/
theorem follows_operand (hid : ctx.nodes.isEmpty id = false) (symbol : String)
    (h : Follows l limit room s.values FlowMatches (rec id s) (m d)) :
    Follows l limit room s.values Same (Eval.operand ctx rec symbol id s)
      ((m >>= operand symbol) d) := by
  rw [Eval.operand_of_not_isEmpty hid]
  refine h.bind fun flow flow' t e hm _ hq => ?_
  have hv := hq.value?
  unfold operand
  generalize flow.value? = o at hv
  generalize flow'.value? = p at hv
  rcases hv with hv | _
  · have hval := Eval.value_of_holds hv
    dsimp only
    rw [hval]
    exact follows_pure hm rfl
  · exact follows_fail hm _

/-- A child that must have a value and follows has a handle of the same value. -/
theorem follows_required (hid : ctx.nodes.isEmpty id = false) (slot : Slot)
    (h : Follows l limit room s.values FlowMatches (rec id s) (m d)) :
    Follows l limit room s.values ValueStore.Holds (Eval.required ctx rec slot id s)
      ((m >>= required slot) d) := by
  rw [Eval.required_of_not_isEmpty hid]
  refine h.bind fun flow flow' t e hm _ hq => ?_
  have hv := hq.value?
  unfold required
  generalize flow.value? = o at hv
  generalize flow'.value? = p at hv
  rcases hv with hv | _
  · exact follows_pure hm hv
  · exact follows_fail hm _

/-- An operand and what comes after it. -/
theorem follows_operand_bind {Q : ValueStore → γ → δ → Prop} (hid : ctx.nodes.isEmpty id = false)
    (symbol : String) (h : Follows l limit room s.values FlowMatches (rec id s) (m d))
    {f : Value → TreeWalk.Eval γ} {f' : Value → Eval δ}
    (hf : ∀ v t e, Matches l limit room t e → s.values.Grows t.values →
      Follows l limit room t.values Q (f v t) (f' v e)) :
    Follows l limit room s.values Q ((Eval.operand ctx rec symbol id >>= f) s)
      ((m >>= fun flow => operand symbol flow >>= f') d) := by
  rw [← bind_assoc]
  refine (follows_operand hid symbol h).bind fun v w t e ht hg hv => ?_
  obtain rfl : v = w := hv
  exact hf v t e ht hg

/-- A child that must have a value and what comes after it. -/
theorem follows_required_bind {Q : ValueStore → γ → δ → Prop}
    (hid : ctx.nodes.isEmpty id = false) (slot : Slot)
    (h : Follows l limit room s.values FlowMatches (rec id s) (m d))
    {f : ValueId → TreeWalk.Eval γ} {f' : Value → Eval δ}
    (hf : ∀ i v t e, Matches l limit room t e → s.values.Grows t.values → t.values.Holds i v →
      Follows l limit room t.values Q (f i t) (f' v e)) :
    Follows l limit room s.values Q ((Eval.required ctx rec slot id >>= f) s)
      ((m >>= fun flow => required slot flow >>= f') d) := by
  rw [← bind_assoc]
  exact (follows_required hid slot h).bind hf

end Direct

end TreeWalk
