import TreeWalk.Proofs.Eval.Fuel
import TreeWalk.Proofs.Eval.Returns
import TreeWalk.Proofs.Eval.Standing
import TreeWalk.Tree.Position

/-!
# Returns that stand in place

Where every return stands as a statement, nobody takes its value and goes on: a return that
is brought to its end ends the blocks and choices around it too, up to the body.  So an
evaluation in which returns stand in place either is a return itself or leaves the slot of
the frame alone (`returned_eq_of_inPlace`).

`InPlace` is the property of nodes that is used in the induction.  Choices and blocks pass
it on to their branches and statements, and all other nodes pass it on with the requirement
that no return stands below them at all.
-/

namespace TreeWalk

namespace Tree

variable {tr : Tree} {b : Bool}

theorem returnsInPlaceList_iff {ts : List Tree} :
    returnsInPlaceList b ts = true ↔ ∀ t ∈ ts, t.returnsInPlace b = true := by
  induction ts with
  | nil => simp [returnsInPlaceList]
  | cons t rest ih => simp [returnsInPlaceList, ih]

/-- No return of the same frame stands below a tree that is neither a choice nor a block. -/
theorem returnsInPlace_asked (h : tr.returnsInPlace b = true) (hcond : tr.kind ≠ .conditional)
    (hsuite : tr.kind ≠ .suite) : ∀ o ∈ tr.asked, returnsInPlaceOption false o = true := by
  cases tr with
  | unary op operand => simpa [asked, returnsInPlaceOption, returnsInPlace] using h
  | binary op left right => simpa [asked, returnsInPlaceOption, returnsInPlace] using h
  | assign target value => simpa [asked, returnsInPlaceOption, returnsInPlace] using h
  | print argument => simpa [asked, returnsInPlace] using h
  | cond test thenBranch elseBranch => exact absurd rfl hcond
  | suite statements => exact absurd rfl hsuite
  | call callee args =>
    cases args with
    | none => simp [asked]
    | some ts => simpa [asked, returnsInPlaceOption] using returnsInPlaceList_iff.mp h
  | ret value =>
    obtain ⟨-, hvalue⟩ := Bool.and_eq_true_iff.mp h
    simpa [asked] using hvalue
  | _ => simp [asked]

/-- The statements of a block stand where the block stands. -/
theorem returnsInPlace_statements {ts : List Tree} (h : (suite ts).returnsInPlace b = true) :
    ∀ o ∈ (suite ts).asked, returnsInPlaceOption b o = true := by
  simpa [asked, returnsInPlaceOption] using returnsInPlaceList_iff.mp h

end Tree

namespace Eval

variable {ctx : Context} {s t u : State} {id c : NodeId} {n : Node} {b : Bool}

/-! ## Nodes in place -/

/-- A node stands for a tree whose returns stand in place, or for a child that is absent. -/
def InPlace (ctx : Context) (statement : Bool) (id : NodeId) : Prop :=
  ∃ o, ctx.layout.HoldsOption o id ∧ Tree.returnsInPlaceOption statement o = true

theorem inPlace_of_holds {tr : Tree} (h : ctx.layout.Holds tr id)
    (hb : tr.returnsInPlace b = true) : InPlace ctx b id := ⟨some tr, h, hb⟩

/-- A node that is in place and not the empty node stands for a tree of its kind. -/
theorem exists_tree_of_inPlace (hp : InPlace ctx b id) (hn : ctx.nodes.get? id = some n)
    (hne : n ≠ .empty) :
    ∃ tr, ctx.layout.Holds tr id ∧ tr.returnsInPlace b = true ∧ n.kind = tr.kind := by
  obtain ⟨o, ho, hb⟩ := hp
  obtain ⟨tr, rfl, htr, hkind⟩ := exists_tree_of_ne_empty ho hn hne
  exact ⟨tr, htr, hb, hkind⟩

/-- The branches of a choice stand where the choice stands. -/
theorem inPlace_cond {i j k : NodeId} (hp : InPlace ctx b id)
    (hn : ctx.nodes.get? id = some (.cond i j k)) :
    InPlace ctx false i ∧ InPlace ctx b j ∧ InPlace ctx b k := by
  obtain ⟨tr, ho, hb, hkind⟩ := exists_tree_of_inPlace hp hn nofun
  cases tr with
  | cond test thenBranch elseBranch =>
    obtain ⟨i', j', k', hk, hi, hj, hk'⟩ := ho
    cases hn.symm.trans hk
    obtain ⟨hb, helse⟩ := Bool.and_eq_true_iff.mp hb
    obtain ⟨htest, hthen⟩ := Bool.and_eq_true_iff.mp hb
    exact ⟨inPlace_of_holds hi htest, inPlace_of_holds hj hthen, elseBranch, hk', helse⟩
  | _ => cases hkind

/-- The statements of a block stand where the block stands. -/
theorem inPlace_suite {r : NodeRange} (hp : InPlace ctx b id)
    (hn : ctx.nodes.get? id = some (.suite r)) (hc : c ∈ ctx.asked (.suite r)) :
    InPlace ctx b c := by
  obtain ⟨o, ho, hb⟩ := hp
  obtain ⟨tr, rfl, o', ho', hchild⟩ := exists_child_of_mem_asked ho hn hc
  obtain ⟨m, hm, hkind⟩ := Layout.Holds.exists_node ho
  cases hn.symm.trans hm
  cases tr with
  | suite statements => exact ⟨o', hchild, Tree.returnsInPlace_statements hb o' ho'⟩
  | _ => cases hkind

/-- The body of a function stands where a statement stands. -/
theorem inPlace_funcDef {name : Name} {params body : NodeId} (hp : InPlace ctx b id)
    (hn : ctx.nodes.get? id = some (.funcDef name params body)) : InPlace ctx true body := by
  obtain ⟨tr, ho, hb, hkind⟩ := exists_tree_of_inPlace hp hn nofun
  cases tr with
  | funcDef _ _ _ =>
    obtain ⟨_, _, _, hk, -, -, hbody⟩ := ho
    cases hn.symm.trans hk
    exact inPlace_of_holds hbody hb
  | _ => cases hkind

/-- A `return` that is in place stands where a statement stands. -/
theorem eq_true_of_inPlace_ret {a : NodeId} (hp : InPlace ctx b id)
    (hn : ctx.nodes.get? id = some (.ret a)) : b = true := by
  obtain ⟨tr, -, hb, hkind⟩ := exists_tree_of_inPlace hp hn nofun
  cases tr with
  | ret value => exact (Bool.and_eq_true_iff.mp hb).1
  | _ => cases hkind

/-- No return of the same frame stands below a node that is neither a choice nor a block. -/
theorem inPlace_asked (hp : InPlace ctx b id) (hn : ctx.nodes.get? id = some n)
    (hcond : n.kind ≠ .conditional) (hsuite : n.kind ≠ .suite) (hc : c ∈ ctx.asked n) :
    InPlace ctx false c := by
  obtain ⟨o, ho, hb⟩ := hp
  obtain ⟨tr, rfl, o', ho', hchild⟩ := exists_child_of_mem_asked ho hn hc
  obtain ⟨m, hm, hkind⟩ := Layout.Holds.exists_node ho
  obtain rfl : n = m := Option.some.inj (hn.symm.trans hm)
  rw [hkind] at hcond hsuite
  exact ⟨o', hchild, Tree.returnsInPlace_asked hb hcond hsuite o' ho'⟩

/-- Whatever a node in place asks for is in place. -/
theorem exists_inPlace_of_mem_asked (hp : InPlace ctx b id) (hn : ctx.nodes.get? id = some n)
    (hc : c ∈ ctx.asked n) : ∃ b, InPlace ctx b c := by
  by_cases hcond : n.kind = .conditional
  · cases n with
    | cond i j k =>
      obtain ⟨hi, hj, hk⟩ := inPlace_cond hp hn
      simp only [Context.asked, List.mem_cons, List.not_mem_nil, or_false] at hc
      rcases hc with rfl | rfl | rfl
      · exact ⟨false, hi⟩
      · exact ⟨b, hj⟩
      · exact ⟨b, hk⟩
    | _ => cases hcond
  · by_cases hsuite : n.kind = .suite
    · cases n with
      | suite r => exact ⟨b, inPlace_suite hp hn hc⟩
      | _ => cases hsuite
    · exact ⟨false, inPlace_asked hp hn hcond hsuite hc⟩

/-! ## What the slot holds -/

/-- A thread leaves the slot alone if its visits in the same frame do. -/
theorem Threads.returned_eq_of_asked {s₀ : State} {vs : List Visit}
    (h : Threads ctx (eval ctx) n s₀ s vs u)
    (hrec : ∀ v ∈ vs, v.1 ∈ ctx.asked n → ∀ t, (eval ctx v.1 v.2).state? = some t →
      t.env.top.returned = v.2.env.top.returned) :
    u.env.top.returned = s.env.top.returned := by
  induction h with
  | refl s => rfl
  | change hc _ ih => exact (ih hrec).trans (returned_of_change hc)
  | @visit s t u vs id hid hend _ ih =>
    have hfirst := hrec (id, s) (List.mem_cons_self ..) hid t hend
    exact (ih fun v hv => hrec v (List.mem_cons_of_mem _ hv)).trans hfirst
  | @enter s t u vs callee args body env params values _ _ hpush hend _ ih =>
    rw [ih fun v hv => hrec v (List.mem_cons_of_mem _ hv),
      left_env_eq hpush (kept_keepsFrames.eval hend)]

/-- The visits that a node makes in its own frame are in place.  If one of them stands where a
statement stands and is a return, then the node is a return too. -/
theorem inPlace_of_mem_visits (h : (eval ctx id s).state? = some t) (hp : InPlace ctx b id)
    (hn : ctx.nodes.get? id = some n) {v : Visit} (hv : v ∈ visits ctx (eval ctx) id s)
    (hasked : v.1 ∈ ctx.asked n) :
    InPlace ctx false v.1 ∨ InPlace ctx b v.1 ∧
      ∀ x u, eval ctx v.1 v.2 = .done (.ret x) u → eval ctx id s = .done (.ret x) u := by
  rw [eval_eq_step h]
  by_cases hcond : n.kind = .conditional
  · cases n with
    | cond i j k =>
      obtain ⟨hi, hj, hk⟩ := inPlace_cond hp hn
      rcases cond_visits hn hv with rfl | ⟨hbranch, heq⟩
      · exact Or.inl hi
      · refine Or.inr ⟨?_, fun x u hx => heq.trans hx⟩
        rcases hbranch with hbranch | hbranch
        · rw [hbranch]
          exact hj
        · rw [hbranch]
          exact hk
    | _ => cases hcond
  · by_cases hsuite : n.kind = .suite
    · cases n with
      | suite r =>
        refine Or.inr ⟨inPlace_suite hp hn hasked, fun x u hx => ?_⟩
        exact (suite_eq_ret_iff hn).mpr ⟨v, hv, hx⟩
      | _ => cases hsuite
    · exact Or.inl (inPlace_asked hp hn hcond hsuite hasked)

/-- **Returns in place are not passed over.**  An evaluation in which returns stand in place
leaves the slot of its frame alone unless it is a return itself. -/
theorem returned_eq_of_inPlace (h : (eval ctx id s).state? = some t) (hp : InPlace ctx b id)
    (hret : b = true → ∀ v, eval ctx id s ≠ .done (.ret v) t) :
    t.env.top.returned = s.env.top.returned := by
  revert b
  refine eval_induction (P := fun id s t => ∀ {b : Bool}, InPlace ctx b id →
    (b = true → ∀ v, eval ctx id s ≠ .done (.ret v) t) →
      t.env.top.returned = s.env.top.returned) (fun id s t hend ih b hp hret => ?_) h
  obtain ⟨n, u, hn, hu, hclose⟩ := exists_threads hend
  have hvisits : u.env.top.returned = s.env.top.returned := by
    refine hu.returned_eq_of_asked fun v hv hasked w hw => ?_
    rcases inPlace_of_mem_visits hend hp hn hv hasked with hv' | ⟨hv', hpass⟩
    · exact ih v hv w hw hv' nofun
    · refine ih v hv w hw hv' fun hb x hx => ?_
      -- a statement that returns makes the node return, in the same state
      have heval := hpass x w hx
      obtain rfl : w = t := by
        rw [heval] at hend
        exact Option.some.inj hend
      exact hret hb x heval
  rw [← hvisits]
  generalize he : eval ctx id s = o at hclose hend hret
  cases hclose with
  | same _ _ =>
    obtain rfl : u = t := Option.some.inj hend
    rfl
  | failed e =>
    obtain rfl : u = t := Option.some.inj hend
    rfl
  | print line =>
    obtain rfl := Option.some.inj hend
    rfl
  | ret v =>
    obtain rfl := Option.some.inj hend
    exact absurd rfl (hret (eq_true_of_inPlace_ret hp hn) v)

/-- A frame whose functions have bodies in place. -/
def BodiesInPlace (ctx : Context) (f : Frame) : Prop :=
  ∀ (name : Name) (body : NodeId), f.functions[name]? = some body → InPlace ctx true body

theorem bodiesInPlace_bindFunction {f : Frame} {name : Name} {body : NodeId}
    (h : BodiesInPlace ctx f) (hbody : InPlace ctx true body) :
    BodiesInPlace ctx (f.bindFunction name body) := by
  intro name' body' hb
  rw [Frame.bindFunction, Std.ExtTreeMap.getElem?_insert] at hb
  split at hb
  · cases hb
    exact hbody
  · exact h name' body' hb

/-- Functions that are defined in place have bodies in place. -/
theorem frameInvariant_inPlace :
    FrameInvariant ctx (fun id => ∃ b, InPlace ctx b id) (BodiesInPlace ctx) where
  asked := fun ⟨_, hp⟩ hn hc => exists_inPlace_of_mem_asked hp hn hc
  body hf hb := ⟨true, hf _ _ hb⟩
  fresh := fun name body hb => by
    rw [Frame.fresh, Std.ExtTreeMap.getElem?_empty] at hb
    cases hb
  bind _ _ hf := hf
  markUnbound _ hf := hf
  signal _ hf := hf
  defineWith := fun ⟨_, hp⟩ hn _ _ hf => bodiesInPlace_bindFunction hf (inPlace_funcDef hp hn)
  defineWithout := fun ⟨_, hp⟩ hn _ hf => bodiesInPlace_bindFunction hf (inPlace_funcDef hp hn)

end Eval

end TreeWalk
