import TreeWalk.Program
import TreeWalk.Proofs.Eval.Stops
import TreeWalk.Proofs.Printing

/-!
# What a machine makes of an evaluation

On a machine an evaluation is either the same as it is where there is room for all values, or it
is given up, and then there are more values than handles.  `Outcome.OnMachine` says so of two
outcomes, and the main statement, `onMachine_nested`, says it of evaluations under every bound.
Hence nothing is different for an evaluation whose values have handles when it ends
(`Outcome.OnMachine.eq_of_fits`), and one that ends is given up for no other reason
(`Outcome.OnMachine.eq_or_full`).

## Why the end decides

Whether a value has a handle is looked at after each visit, and whether all values have handles in
the end is a question about one state.  The two agree because a store never shrinks: what fits in
the end has fitted after every visit.

## What has been printed

A run that is given up has printed something too, and where it was given up is not seen in the run
without the machine.  So what is printed is followed through the evaluations of the machine itself,
at the pace `Pace.printing`: it is empty lines and the texts of values, however the run comes to its
end (`Machine.prints_of_run`).
-/

namespace TreeWalk

/-- What a machine makes of an outcome: the first is the machine's. -/
inductive Outcome.OnMachine {α : Type} : Outcome α → Outcome α → Prop where
  /-- Each value has a handle, and nothing is different. -/
  | same {o : Outcome α} : (∀ s, o.state? = some s → s.Fits) → OnMachine o o
  /-- There is a value without a handle. -/
  | full {o : Outcome α} {t : State} : ¬ t.Fits → (∀ s, o.state? = some s → ¬ s.Fits) →
    OnMachine (.full t) o

namespace Outcome.OnMachine

variable {α : Type} {o o' : Outcome α} {s : State}

/-- Nothing is different where everything fits in the end. -/
theorem eq_of_fits (h : OnMachine o' o) (hs : o.state? = some s) (hfits : s.Fits) : o' = o := by
  cases h with
  | same _ => rfl
  | full _ hfull => exact absurd hfits (hfull s hs)

/-- What ends where there is room for all values is the same on the machine, or it is given up. -/
theorem eq_or_full (h : OnMachine o' o) (hs : o.state? = some s) :
    o' = o ∧ s.Fits ∨ ∃ t, o' = .full t ∧ ¬ t.Fits ∧ ¬ s.Fits := by
  cases h with
  | same hfits => exact Or.inl ⟨rfl, hfits s hs⟩
  | full ht hfull => exact Or.inr ⟨_, rfl, ht, hfull s hs⟩

end Outcome.OnMachine

namespace Machine

open Eval

variable {α : Type} {ctx : Context} {fuel : Nat} {id : NodeId} {s t u : State} {v : Visit}

theorem onMachine_checked (o : Outcome α) : (checked o).OnMachine o := by
  unfold checked
  cases ho : o.state? with
  | none => exact .same fun s hs => by cases ho.symm.trans hs
  | some t =>
    have heq : ∀ s, o.state? = some s → t = s := fun s hs => Option.some.inj (ho.symm.trans hs)
    dsimp only
    by_cases hfits : t.Fits
    · rw [if_pos hfits]
      exact .same fun s hs => heq s hs ▸ hfits
    · rw [if_neg hfits]
      exact .full hfits fun s hs => heq s hs ▸ hfits

/-- There are at least as many values in the end as after a visit. -/
theorem size_le_of_mem_visits (h : (step ctx (Eval.nested ctx fuel) id s).state? = some u)
    (hv : v ∈ visits ctx (Eval.nested ctx fuel) id s)
    (ht : (Eval.nested ctx fuel v.1 v.2).state? = some t) : t.values.size ≤ u.values.size := by
  have hsize : Kept ctx fun s t => s.values.size ≤ t.values.size := kept_size
  obtain ⟨n, hn⟩ := exists_node_of_ends h
  obtain ⟨w, hw, hclose⟩ := runs_step hn s h
  have hle : t.values.size ≤ w.values.size :=
    values_of_mem_threads (R := fun s t => s.size ≤ t.size) hsize
      (fun v _ t hend => hsize.nested hend) hw v hv t ht
  exact Nat.le_trans hle (hsize.closes hclose h)

/-- If a rule ends and everything fits, then the visits are the same on the machine. -/
theorem agreeAt_of_fits
    (ih : ∀ id s, (nested ctx fuel id s).OnMachine (Eval.nested ctx fuel id s))
    (h : (step ctx (Eval.nested ctx fuel) id s).state? = some u) (hfits : u.Fits) :
    AgreeAt (Eval.nested ctx fuel) (nested ctx fuel) (visits ctx (Eval.nested ctx fuel) id s) := by
  intro v hv
  obtain ⟨t, ht⟩ := visits_end h v hv
  exact (ih v.1 v.2).eq_of_fits ht (Nat.le_trans (size_le_of_mem_visits h hv ht) hfits)

/-- **What a machine makes of an evaluation.**  Either nothing is different, or it is given up, and
the evaluation leaves more values than there are handles, if it ends at all. -/
theorem onMachine_nested (ctx : Context) (fuel : Nat) (id : NodeId) (s : State) :
    (nested ctx fuel id s).OnMachine (Eval.nested ctx fuel id s) := by
  induction fuel generalizing id s with
  | zero => exact .same fun _ h => by cases h
  | succ fuel ih =>
    show (checked (step ctx (nested ctx fuel) id s)).OnMachine
      (step ctx (Eval.nested ctx fuel) id s)
    by_cases hfull : ∃ v ∈ visits ctx (nested ctx fuel) id s, ∃ t, ¬ t.Fits ∧
        nested ctx fuel v.1 v.2 = .full t
    · -- a visit is given up, and so is the rule
      obtain ⟨v, hv, t, ht, hvisit⟩ := hfull
      rw [(stopsBy_step ctx (nested ctx fuel) id s).full hv hvisit]
      refine .full ht fun u hu hfits => ?_
      have hagree := agreeAt_of_fits ih hu hfits
      rw [visits_congr hagree] at hv
      obtain ⟨w, hw⟩ := visits_end hu v hv
      rw [← hagree v hv, hvisit] at hw
      cases hw
    · -- every visit is the same on the machine, so the rule is too, up to what it stores itself
      have hagree : AgreeAt (nested ctx fuel) (Eval.nested ctx fuel)
          (visits ctx (nested ctx fuel) id s) := by
        intro v hv
        have hvisit := ih v.1 v.2
        generalize ho : nested ctx fuel v.1 v.2 = o at hvisit ⊢
        cases hvisit with
        | same _ => rfl
        | full ht _ => exact absurd ⟨v, hv, _, ht, ho⟩ hfull
      rw [step_congr hagree]
      exact onMachine_checked _

theorem onMachine_eval (ctx : Context) (id : NodeId) (s : State) :
    (eval ctx id s).OnMachine (TreeWalk.eval ctx id s) := onMachine_nested ctx _ id s

/-- What is made of the evaluation of a root keeps its values. -/
theorem onMachine_finish {o o' : Outcome Flow} (h : o'.OnMachine o) :
    (finish o').OnMachine (finish o) := by
  have hvalues : ∀ u, (finish o).state? = some u →
      ∃ t, o.state? = some t ∧ u.values = t.values := by
    intro u hu
    cases o with
    | done flow t => exact ⟨t, rfl, congrArg State.values (quiet_result flow hu)⟩
    | failed e t =>
      obtain rfl := Option.some.inj hu
      exact ⟨t, rfl, rfl⟩
    | _ => cases hu
  cases h with
  | same hfits =>
    refine .same fun u hu => ?_
    obtain ⟨t, ht, heq⟩ := hvalues u hu
    unfold State.Fits
    rw [heq]
    exact hfits t ht
  | full ht hfull =>
    refine .full ht fun u hu => ?_
    obtain ⟨t, ht, heq⟩ := hvalues u hu
    unfold State.Fits
    rw [heq]
    exact hfull t ht

theorem onMachine_run (ctx : Context) (root : NodeId) (s : State) :
    (run ctx root s).OnMachine (Eval.run ctx root s) := onMachine_finish (onMachine_eval ctx root s)

end Machine

/-! ## What has been printed -/

/-- A printer has printed empty lines and texts of values since another. -/
def Printer.Prints (p q : Printer) : Prop :=
  ∃ lines, q = p.printAll lines ∧ ∀ line ∈ lines, Printed line

namespace Printer.Prints

variable {p q : Printer} {line : String}

theorem refl (p : Printer) : p.Prints p := ⟨[], rfl, List.forall_mem_nil _⟩

theorem println (h : p.Prints q) (hline : Printed line) : p.Prints (q.println line) := by
  obtain ⟨lines, rfl, hlines⟩ := h
  refine ⟨lines ++ [line], (p.printAll_concat lines line).symm, ?_⟩
  exact List.forall_mem_append.mpr ⟨hlines, List.forall_mem_singleton.mpr hline⟩

end Printer.Prints

/-- What was printed before an outcome, if the outcome tells. -/
def Outcome.printer? {α : Type} : Outcome α → Option Printer
  | .done _ s | .failed _ s | .full s => some s.printer
  | .dangling | .exhausted => none

/-- One run that prints empty lines and texts of values, also until it is given up. -/
def Pace.printing (p : Printer) : Pace where
  rel s t := s = t ∧ p.Prints t.printer
  good _ _ := True
  moves _ _ := True
  parts _ _ _ := False
  dangles := True
  stalls := True
  fills _ t := p.Prints t.printer

namespace Eval

variable {ctx : Context} {p : Printer}

theorem lawful_printing : (Pace.printing p).Lawful ctx where
  refl _ := trivial
  trans _ _ := trivial
  moves_write _ _ := trivial
  moves_entered _ _ _ := trivial
  moves_left _ := trivial
  parts_left := False.elim
  good_of_moves _ _ := trivial
  values_eq h := congrArg State.values h.1
  rel_write := by
    rintro s t w ⟨rfl, hs⟩ hw
    refine ⟨rfl, ?_⟩
    cases w with
    | println line => exact hs.println hw
    | _ => exact hs
  good_alloc _ _ := trivial
  good_nil _ := trivial
  exists_value _ _ := Or.inl trivial
  resolve_eq name h := by rw [h.1]
  good_resolve _ _ := trivial
  resolveFunction_eq name h := by rw [h.1]
  resolveParams_eq name h := by rw [h.1]
  exists_params _ _ := Or.inl trivial
  closed := Or.inl trivial

theorem enters_printing (params : List Name) (values : List ValueId) (body : Eval Flow) :
    Enters (Pace.printing p) (Pace.printing p).rel params values body where
  enter := by
    rintro s t ⟨rfl, hs⟩ -
    cases hpush : s.env.push with
    | error e => exact Or.inl ⟨e, rfl, rfl⟩
    | ok env => exact Or.inr (Or.inl ⟨env, env, rfl, rfl, rfl, hs⟩)
  leave := by
    rintro s t es et u w - - - - - ⟨rfl, hu⟩
    exact ⟨⟨rfl, hu⟩, rfl, fun _ _ => trivial⟩

/-- What a run makes of the evaluation of its root prints nothing. -/
theorem printer?_finish {o : Outcome Flow} {q : Printer} (h : (finish o).printer? = some q) :
    o.printer? = some q := by
  cases o with
  | done flow t =>
    unfold finish result at h
    cases hv : flow.value? with
    | none =>
      simp only [hv] at h
      exact h
    | some i =>
      simp only [hv, bind_apply] at h
      unfold value at h
      cases hi : t.values.get? i with
      | none => simp only [hi, Outcome.printer?, reduceCtorEq] at h
      | some v =>
        simp only [hi] at h
        exact h
  | _ => exact h

theorem prints_of_abreast {post : Flow → State → Prop} {o : Outcome Flow} {q : Printer}
    (h : Abreast (Pace.printing p) post o o) (hq : o.printer? = some q) : p.Prints q := by
  cases o with
  | done flow t =>
    cases hq
    exact (h.rel (fun _ _ _ hp => hp) rfl rfl).2
  | failed e t =>
    cases hq
    exact (h.rel (fun _ _ _ hp => hp) rfl rfl).2
  | full t =>
    cases hq
    cases h with
    | full hprints => exact hprints
  | dangling => cases hq
  | exhausted => cases hq

end Eval

namespace Machine

open Eval

variable {ctx : Context} {p : Printer} {s t : State} {root : NodeId}

/-- Looking at the values keeps what has been printed. -/
theorem abreast_checked {post : Flow → State → Prop} {o : Outcome Flow}
    (h : Abreast (Pace.printing p) post o o) :
    Abreast (Pace.printing p) post (checked o) (checked o) := by
  have hprints : ∀ s, o.state? = some s → p.Prints s.printer := fun s hs =>
    (h.rel (fun _ _ _ hp => hp) hs hs).2
  unfold checked
  cases ho : o.state? with
  | none => exact h
  | some s =>
    dsimp only
    by_cases hfits : s.Fits
    · rw [if_pos hfits]
      exact h
    · rw [if_neg hfits]
      exact .full (hprints s ho)

theorem steady_printing (fuel : Nat) (id : NodeId) :
    Steady (Pace.printing p) (fun _ => True) (Pace.printing p).GoodFlow (nested ctx fuel id) := by
  have hP : (Pace.printing p).Lawful ctx := lawful_printing
  induction fuel generalizing id with
  | zero => exact ⟨fun _ _ _ _ => .exhausted trivial, nofun⟩
  | succ fuel ih =>
    have hstep : Steady (Pace.printing p) (fun _ => True) (Pace.printing p).GoodFlow
        (step ctx (nested ctx fuel) id) := by
      refine steady_step hP (Or.inl trivial) (fun _ _ c _ => ih c) ?_
      intro _ _ _ body params values
      exact (steady_inFrame hP (ih body) (enters_printing params values _)).weaken fun _ h => h.2
    refine ⟨?_, fun _ _ _ => trivial⟩
    rintro s t ⟨rfl, hs⟩ -
    exact abreast_checked (hstep.abreast ⟨rfl, hs⟩ trivial)

/-- What a run on the machine has printed are empty lines and texts of values, whether it has a
value, has failed or was given up. -/
theorem prints_of_run {q : Printer} (h : (run ctx root s).printer? = some q) :
    s.printer.Prints q := by
  have hsteady : Steady (Pace.printing s.printer) _ _
      (nested ctx (Eval.fuel ctx s.env.limit) root) := steady_printing _ root
  exact prints_of_abreast (hsteady.abreast ⟨rfl, .refl s.printer⟩ trivial) (printer?_finish h)

end Machine

/-! ## Programs -/

/-- What the machine makes of the run of a program. -/
theorem Program.onMachine_execute (p : Program) (settings : Settings) (printer : Printer) :
    (p.execute settings printer).OnMachine (p.run settings printer) :=
  Machine.onMachine_run (p.context settings) p.root (.fresh settings.limit printer)

/-- What a program has printed on the machine, also until it was given up. -/
theorem Program.prints_of_execute {p : Program} {settings : Settings} {printer q : Printer}
    (h : (p.execute settings printer).printer? = some q) : printer.Prints q :=
  Machine.prints_of_run h

end TreeWalk
