import TreeWalk.Proofs.Direct.Simulation
import TreeWalk.Proofs.Eval.Fuel

/-!
# The course of a run

A run evaluates the root of its program in a fresh state.  Its *course* is everything that
is evaluated on the way, and a statement about every state that a run comes through, or
about every call that it makes, is a statement about its course.

Running a program comes to an end, so an invariant of evaluation that the fresh state and
the root have is had by the whole course (`Eval.Invariant.course`).  An invariant of frames
need only be had by a frame without bindings (`Eval.FrameInvariant.course`).
-/

namespace TreeWalk

variable {t : Tree} {p : Program} {settings : Settings} {printer : Printer} {v : Visit}

namespace Program

/-- Everything that a run of a program evaluates. -/
def course (p : Program) (settings : Settings) (printer : Printer) : List Visit :=
  trail (p.context settings) p.root (.fresh settings.limit printer)

/-- The evaluation of the root of a program ends. -/
theorem root_ends (h : ofTree t = .ok p) (settings : Settings) (printer : Printer) :
    ∃ u, (eval (p.context settings) p.root (.fresh settings.limit printer)).state? = some u := by
  have hrun := Direct.ending_run h settings printer
  unfold Program.run Eval.run at hrun
  generalize eval (p.context settings) p.root _ = o at hrun ⊢
  cases o with
  | done flow u => exact ⟨u, rfl⟩
  | failed e u => exact ⟨u, rfl⟩
  | dangling => cases hrun
  | exhausted => cases hrun
  | full _ => cases hrun

/-- Everything in the course of a run is evaluated to an end. -/
theorem ends_of_mem_course (h : ofTree t = .ok p) (hv : v ∈ p.course settings printer) :
    ∃ u, (eval (p.context settings) v.1 v.2).state? = some u := by
  obtain ⟨u, hu⟩ := root_ends h settings printer
  exact Eval.eval_ends_of_mem_trail hu hv

end Program

namespace Eval

variable {P : NodeId → Prop}

/-- The course of a run has every invariant that the run begins with. -/
theorem Invariant.course {I : State → Prop} (hI : Invariant (p.context settings) P I)
    (h : Program.ofTree t = .ok p) (hroot : P p.root) (hfresh : I (.fresh settings.limit printer)) :
    ∀ v ∈ p.course settings printer, P v.1 ∧ I v.2 := by
  obtain ⟨u, hu⟩ := Program.root_ends h settings printer
  exact hI.trail hu hroot hfresh

/-- In the course of a run all frames have every invariant of frames. -/
theorem FrameInvariant.course {J : Frame → Prop} (hJ : FrameInvariant (p.context settings) P J)
    (h : Program.ofTree t = .ok p) (hroot : P p.root) :
    ∀ v ∈ p.course settings printer, P v.1 ∧ ∀ f ∈ v.2.env.frames, J f := by
  refine hJ.invariant.course h hroot ?_
  intro f hf
  obtain rfl : f = .fresh := List.mem_singleton.mp hf
  exact hJ.fresh

end Eval

end TreeWalk
