import TreeWalk.Proofs.Course
import TreeWalk.Proofs.Eval.Calls
import TreeWalk.Proofs.Eval.InPlace

/-!
# What a call yields

A call knows nothing of the flow of the body that it evaluates.  It looks at the slot of the
frame when the body has ended, and if the slot is empty it yields `nil`.

## Flow and slot

If the flow of the body is a return, then the slot holds its value and the call yields it.
The converse fails.  A return may stand where a value is wanted, as the argument of a
`print`, say; then the value is taken, the body goes on to its end, and the call still
yields the value that the return left behind (`printedReturn`).  So a body whose flow is
normal is one whose call yields the value of the last return that was evaluated in its
frame, and `nil` if there was none.

In a program whose returns stand in place there is none, and the call yields `nil`.
-/

namespace TreeWalk

namespace Eval

variable {ctx : Context} {rec : NodeId → Eval Flow} {s t : State} {id : NodeId}

/-- What a call yields when its body has ended. -/
theorem call_value {callee : Name} {args : NodeId} {flow : Flow}
    (hn : ctx.nodes.get? id = some (.call callee args)) (h : eval ctx id s = .done flow t) :
    ∃ body u bodyFlow w, s.env.resolveFunction callee = some body ∧
      (visits ctx (eval ctx) id s).getLast? = some (body, u) ∧
      u.env.depth = s.env.depth + 1 ∧ u.env.top.returned = none ∧
      eval ctx body u = .done bodyFlow w ∧
      flow = .normal (some (w.env.top.returned.getD .nil)) := by
  have hend : (eval ctx id s).state? = some t := state?_of_done h
  obtain ⟨body, hbody⟩ := exists_body_of_call_done hn h
  rw [eval_call hend hn hbody] at h
  obtain ⟨names, values, u, env, bodyFlow, w, hargs, hpush, hw, hflow⟩ := callWith_done h
  have hkeeps : KeepsFrames s u := keepsFrames_arguments (state?_of_done hargs)
  refine ⟨body, entered u env names values, bodyFlow, w, hbody, ?_, ?_, ?_, hw, hflow⟩
  · unfold visits
    rw [hn]
    exact getLast?_callVisits hbody hargs hpush
  · rw [depth_entered hpush, hkeeps.depth_eq]
  · exact returned_entered hpush names values

/-- The body of a function of a program whose returns stand in place has its returns in
place. -/
theorem inPlace_body {tr : Tree} {p : Program} {settings : Settings} {printer : Printer} {v : Visit}
    (h : Program.ofTree tr = .ok p) (hplace : tr.returnsInPlace true = true)
    (hv : v ∈ p.course settings printer) {name : Name} {body : NodeId}
    (hbody : v.2.env.resolveFunction name = some body) :
    InPlace (p.context settings) true body := by
  have hroot : ∃ b, InPlace (p.context settings) b p.root :=
    ⟨true, inPlace_of_holds (Program.holds_of_ofTree h) hplace⟩
  obtain ⟨-, hframes⟩ := frameInvariant_inPlace.course h hroot v hv
  obtain ⟨f, hf, hname⟩ := List.exists_of_findSome?_eq_some hbody
  exact hframes f hf name body hname

/-- **What a call yields.**  In the course of a run, a call that is done has evaluated the
body of the function in a frame of its own.  If the flow of the body is a return, then the
call yields its value.  If it is normal, then the call yields the value of the last return
that was evaluated in that frame, and `nil` if there was none.  There is none if the returns
of the body stand in place, as they do for every body of a program in which they do. -/
theorem call_yields {tr : Tree} {p : Program} {settings : Settings} {printer : Printer}
    (h : Program.ofTree tr = .ok p) {v : Visit} (hv : v ∈ p.course settings printer)
    {callee : Name} {args : NodeId} {flow : Flow} {t : State}
    (hn : (p.context settings).nodes.get? v.1 = some (.call callee args))
    (hdone : eval (p.context settings) v.1 v.2 = .done flow t) :
    ∃ body u bodyFlow w, v.2.env.resolveFunction callee = some body ∧
      (visits (p.context settings) (eval (p.context settings)) v.1 v.2).getLast? = some (body, u) ∧
      u.env.depth = v.2.env.depth + 1 ∧
      eval (p.context settings) body u = .done bodyFlow w ∧
      (∀ x, bodyFlow = .ret x → flow = .normal (some x)) ∧
      (∀ o, bodyFlow = .normal o →
        flow = .normal (some ((lastReturn (p.context settings) body u).getD .nil))) ∧
      (InPlace (p.context settings) true body → ∀ o, bodyFlow = .normal o →
        flow = .normal (some .nil)) ∧
      (tr.returnsInPlace true = true → InPlace (p.context settings) true body) := by
  obtain ⟨body, u, bodyFlow, w, hbody, hlast, hdepth, hempty, hw, hflow⟩ := call_value hn hdone
  have hend : (eval (p.context settings) body u).state? = some w := state?_of_done hw
  refine ⟨body, u, bodyFlow, w, hbody, hlast, hdepth, hw, ?_, ?_, ?_, ?_⟩
  · rintro x rfl
    rw [hflow, returned_of_ret hw]
    rfl
  · rintro o rfl
    rw [hflow, returned_eq hend, hempty, Option.or_none]
  · rintro hplace o rfl
    have hslot : w.env.top.returned = u.env.top.returned := by
      refine returned_eq_of_inPlace hend hplace fun _ x hx => ?_
      rw [hw] at hx
      cases hx
    rw [hflow, hslot, hempty]
    rfl
  · exact fun hplace => inPlace_body h hplace hv hbody

/-- A function that prints what it returns, and a call of it that is printed. -/
def printedReturn : Tree :=
  .suite [.funcDef "f" none (.suite [.print (some (.ret (some (.int 5))))]),
    .print (some (.call "f" none))]

/-- The program of `printedReturn`.  The call is the node with index 6, and the body that it
evaluates the one with index 4. -/
def printedReturnProgram : Program where
  names := (NameTable.fresh.intern "f").2
  nodes := ⟨#[.empty, .int 5, .ret ⟨1⟩, .print ⟨2⟩, .suite ⟨0, 1⟩, .funcDef ⟨1⟩ ⟨0⟩ ⟨4⟩,
    .call ⟨1⟩ ⟨0⟩, .print ⟨6⟩, .suite ⟨1, 2⟩], #[⟨3⟩, ⟨5⟩, ⟨7⟩]⟩
  root := ⟨8⟩

/-- The call is made in the course of a run, and its value is that of the last return. -/
theorem call_yields_printedReturn :
    ∃ s flow t, Program.ofTree printedReturn = .ok printedReturnProgram ∧
      (⟨6⟩, s) ∈ printedReturnProgram.course .default .silent ∧
      (printedReturnProgram.context .default).nodes.get? ⟨6⟩ = some (.call ⟨1⟩ ⟨0⟩) ∧
      eval (printedReturnProgram.context .default) ⟨6⟩ s = .done flow t ∧
      ∃ body u bodyFlow w, s.env.resolveFunction ⟨1⟩ = some body ∧
        eval (printedReturnProgram.context .default) body u = .done bodyFlow w ∧
        ∀ o, bodyFlow = .normal o → flow = .normal
          (some ((lastReturn (printedReturnProgram.context .default) body u).getD .nil)) := by
  have hprogram : Program.ofTree printedReturn = .ok printedReturnProgram := rfl
  have hcall : (printedReturnProgram.context .default).nodes.get? ⟨6⟩ = some (.call ⟨1⟩ ⟨0⟩) := rfl
  obtain ⟨s, flow, t, hv, hdone⟩ : ∃ s flow t,
      (⟨6⟩, s) ∈ printedReturnProgram.course .default .silent ∧
        eval (printedReturnProgram.context .default) ⟨6⟩ s = .done flow t :=
    ⟨_, _, _, List.mem_of_getElem? (i := 5) rfl, rfl⟩
  obtain ⟨body, u, bodyFlow, w, hbody, -, -, hw, -, hlast, -⟩ :=
    call_yields hprogram hv hcall hdone
  exact ⟨s, flow, t, hprogram, hv, hcall, hdone, body, u, bodyFlow, w, hbody, hw, hlast⟩

/-- The flow of the body is normal, and the call does not yield `nil` but what was printed. -/
theorem printedReturn_yields_five :
    ∃ s t u w, Program.ofTree printedReturn = .ok printedReturnProgram ∧
      (⟨6⟩, s) ∈ printedReturnProgram.course .default .silent ∧
      (printedReturnProgram.context .default).nodes.get? ⟨6⟩ = some (.call ⟨1⟩ ⟨0⟩) ∧
      s.env.resolveFunction ⟨1⟩ = some ⟨4⟩ ∧
      (⟨4⟩, u) ∈ visits (printedReturnProgram.context .default)
        (eval (printedReturnProgram.context .default)) ⟨6⟩ s ∧
      eval (printedReturnProgram.context .default) ⟨4⟩ u = .done (.normal none) w ∧
      eval (printedReturnProgram.context .default) ⟨6⟩ s = .done (.normal (some ⟨1⟩)) t ∧
      t.values.get? ⟨1⟩ = some (.int 5) :=
  ⟨_, _, _, _, rfl, List.mem_of_getElem? (i := 5) rfl, rfl, rfl,
    List.mem_of_getElem? (i := 0) rfl, rfl, rfl, rfl⟩

end Eval

end TreeWalk
