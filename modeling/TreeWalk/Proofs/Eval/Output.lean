import TreeWalk.Proofs.Eval.Alike
import TreeWalk.Proofs.Eval.Fuel
import TreeWalk.Proofs.Printing

/-!
# What a run prints

Printing adds a line and never takes one back, and only `print` does it.  So what an evaluation
has printed, whether it went through or failed, are the lines of the prints that it brought to
their end, in the order in which they ended (`nested_prints`).  A print inside the argument of
another ends first and so comes first, and a print that fails in its argument prints nothing.

`Prints` says what the line of a print is.  It is the text of a value, which has no line breaks,
or empty, and so whoever reads the output line by line finds one line for each print
(`lines_of_session`).

## Who reads the output

Evaluation does not.  With a printer that drops its lines everything else is the same
(`unnoticed_silence`).
-/

namespace TreeWalk

namespace Printer

/-- What can be read back after printing some lines. -/
theorem output_printAll_buffer (kept : Array String) (lines : List String) :
    ((buffer kept).printAll lines).output =
      (buffer kept).output ++ String.join (lines.map (· ++ "\n")) := by
  induction lines using List.reverseRecOn with
  | nil => exact String.append_empty.symm
  | append_singleton lines line ih =>
    rw [printAll_concat, printAll_buffer, output_buffer_println, ← printAll_buffer, ih,
      List.map_append, List.map_singleton]
    simp only [String.join_append, String.append_assoc]
    rfl

end Printer

namespace Eval

variable {ctx : Context} {s₀ s t u : State} {vs : List Visit} {id a : NodeId} {n : Node}
  {rec : NodeId → Eval Flow} {fuel m : Nat} {flow : Flow}

/-! ## Prints -/

/-- A `print` that goes through prints a line: nothing if there is no argument, and the text of
the value of its argument otherwise. -/
inductive Prints (ctx : Context) (v : Visit) : String → Prop where
  | empty {a : NodeId} :
    ctx.nodes.get? v.1 = some (.print a) → ctx.nodes.isEmpty a = true → Prints ctx v ""
  | value {a : NodeId} {fuel : Nat} {flow : Flow} {t : State} {i : ValueId} {w : Value} :
    ctx.nodes.get? v.1 = some (.print a) → ctx.nodes.isEmpty a = false →
    nested ctx fuel a v.2 = .done flow t → flow.value? = some i → t.values.get? i = some w →
    Prints ctx v w.text

theorem Prints.printed {v : Visit} {line : String} (h : Prints ctx v line) : Printed line := by
  cases h with
  | empty _ _ => exact Or.inl rfl
  | value _ _ _ _ _ => exact Or.inr ⟨_, rfl⟩

/-- Lines of prints are lines of a program. -/
theorem printed_of_prints {lines : List String} (h : List.Forall₂ (Prints ctx) vs lines) :
    ∀ line ∈ lines, Printed line := by
  induction h with
  | nil => exact List.forall_mem_nil _
  | cons hv _ ih => exact List.forall_mem_cons.mpr ⟨hv.printed, ih⟩

/-- Whether a visit is a `print` that goes through. -/
def isCompletedPrint (ctx : Context) (fuel : Nat) (v : Visit) : Bool :=
  match ctx.nodes.get? v.1, nested ctx fuel v.1 v.2 with
  | some (.print _), .done _ _ => true
  | _, _ => false

/-- The prints that an evaluation brings to their end, in the order in which they end. -/
def completedPrints (ctx : Context) (fuel : Nat) (id : NodeId) (s : State) : List Visit :=
  (nestedTrail ctx fuel id s).filter (isCompletedPrint ctx fuel)

/-- A print that is done has printed a line after everything that its argument printed. -/
theorem print_done (h : print ctx rec a s = .done flow t) :
    ctx.nodes.isEmpty a = true ∧ t.printer = s.printer.println "" ∨
      ctx.nodes.isEmpty a = false ∧ ∃ flow u i w, rec a s = .done flow u ∧
        flow.value? = some i ∧ u.values.get? i = some w ∧
        t.printer = u.printer.println w.text := by
  cases he : ctx.nodes.isEmpty a with
  | true =>
    unfold print at h
    rw [if_pos he] at h
    cases h
    exact Or.inl ⟨rfl, rfl⟩
  | false =>
    rw [print_of_not_isEmpty he] at h
    obtain ⟨w, v, hw, hline⟩ := done_bind h
    obtain ⟨i, v', hi, hvalue⟩ := done_bind hw
    rw [required_of_not_isEmpty he] at hi
    obtain ⟨argument, u, hu, hflow⟩ := done_bind hi
    obtain rfl : v = v' := quiet_value i (state?_of_done hvalue)
    cases hline
    refine Or.inr ⟨rfl, argument, u, i, w, hu, ?_⟩
    cases ha : argument.value? with
    | none =>
      rw [ha] at hflow
      cases hflow
    | some j =>
      rw [ha] at hflow
      cases hflow
      unfold value at hvalue
      cases hget : v.values.get? i with
      | none =>
        rw [hget] at hvalue
        cases hvalue
      | some w' =>
        rw [hget] at hvalue
        cases hvalue
        exact ⟨rfl, rfl, rfl⟩

/-- A node that is no `print`, or that fails, prints nothing by itself. -/
theorem Closes.printer_eq {o : Outcome Flow} (h : Closes n t o) (hu : o.state? = some u)
    (hprint : n.kind = .print → ∀ flow w, o ≠ .done flow w) : u.printer = t.printer := by
  cases h with
  | same _ _ =>
    cases hu
    rfl
  | failed _ =>
    cases hu
    rfl
  | print line => exact absurd rfl (hprint rfl _ _)
  | ret v =>
    cases hu
    rfl

/-- A change that a rule makes prints nothing. -/
theorem printer_of_change (h : Change ctx n s t) : t.printer = s.printer := by
  cases h <;> rfl

/-! ## Evaluations -/

/-- The second printer is the first after some lines, which are those of the given prints. -/
def PrintsAll (ctx : Context) (vs : List Visit) (p q : Printer) : Prop :=
  ∃ lines, List.Forall₂ (Prints ctx) vs lines ∧ q = p.printAll lines

namespace PrintsAll

variable {p q r : Printer} {vs ws : List Visit}

theorem refl (p : Printer) : PrintsAll ctx [] p p := ⟨[], .nil, rfl⟩

theorem append (h : PrintsAll ctx vs p q) (h' : PrintsAll ctx ws q r) :
    PrintsAll ctx (vs ++ ws) p r := by
  obtain ⟨lines, hlines, rfl⟩ := h
  obtain ⟨more, hmore, rfl⟩ := h'
  exact ⟨lines ++ more, List.rel_append hlines hmore, (p.printAll_append lines more).symm⟩

theorem single {v : Visit} {line : String} (h : Prints ctx v line) (p : Printer) :
    PrintsAll ctx [v] p (p.println line) := ⟨[line], .cons h .nil, rfl⟩

end PrintsAll

/-- Along a thread the lines of the visits are printed. -/
theorem Threads.printsAll (h : Threads ctx (nested ctx fuel) n s₀ s vs u)
    (hrec : ∀ v ∈ vs, ∀ t, (nested ctx fuel v.1 v.2).state? = some t →
      PrintsAll ctx ((nestedTrail ctx fuel v.1 v.2).filter (isCompletedPrint ctx m)) v.2.printer
        t.printer) :
    PrintsAll ctx
      ((vs.flatMap fun v => nestedTrail ctx fuel v.1 v.2).filter (isCompletedPrint ctx m))
      s.printer u.printer := by
  induction h with
  | refl s => exact .refl _
  | change hc _ ih =>
    rw [printer_of_change hc] at ih
    exact ih hrec
  | @visit s t u vs id _ hend _ ih =>
    have hfirst := hrec (id, s) (List.mem_cons_self ..) t hend
    rw [List.flatMap_cons, List.filter_append]
    exact hfirst.append (ih fun v hv => hrec v (List.mem_cons_of_mem _ hv))
  | @enter s t u vs callee args body env params values _ _ _ hend _ ih =>
    have hfirst := hrec (body, entered s env params values) (List.mem_cons_self ..) t hend
    rw [List.flatMap_cons, List.filter_append]
    exact hfirst.append (ih fun v hv => hrec v (List.mem_cons_of_mem _ hv))

/-- **What an evaluation prints.**  An evaluation that ends, with a value or with a failure, has
printed one line for each print that it brought to its end, in the order in which they ended.
This is so under every bound, and the prints come to the same under every larger one. -/
theorem nested_prints (h : (nested ctx fuel id s).state? = some t) (hle : fuel ≤ m) :
    PrintsAll ctx ((nestedTrail ctx fuel id s).filter (isCompletedPrint ctx m))
      s.printer t.printer := by
  induction fuel generalizing id s t with
  | zero => cases h
  | succ fuel ih =>
    have hmono : nested ctx m id s = nested ctx (fuel + 1) id s := nested_mono h hle
    have hstep : nested ctx (fuel + 1) id s = step ctx (nested ctx fuel) id s := rfl
    obtain ⟨n, hn⟩ := exists_node_of_ends h
    rw [nestedTrail, List.filter_append]
    by_cases hdone : n.kind = .print ∧ ∃ flow w, nested ctx (fuel + 1) id s = .done flow w
    · -- the line of the node itself comes behind those of its argument
      obtain ⟨hkind, flow, w, hw⟩ := hdone
      cases n with
      | print a =>
        have hself : [(id, s)].filter (isCompletedPrint ctx m) = [(id, s)] := by
          refine List.filter_eq_self.mpr fun v hv => ?_
          obtain rfl := List.mem_singleton.mp hv
          unfold isCompletedPrint
          rw [hn, hmono, hw]
        obtain rfl : w = t := by
          rw [hw] at h
          exact Option.some.inj h
        rw [hself]
        rw [hstep, step_of_get? hn] at hw
        rcases print_done hw with ⟨he, hline⟩ | ⟨he, argument, u, i, v, hu, hi, hv, hline⟩
        · have hvisits : visits ctx (nested ctx fuel) id s = [] := by
            unfold visits
            rw [hn]
            exact if_pos he
          rw [hvisits, hline]
          exact .single (.empty hn he) s.printer
        · have hvisits : visits ctx (nested ctx fuel) id s = [(a, s)] := by
            unfold visits
            rw [hn]
            exact if_neg (Bool.eq_false_iff.mp he)
          rw [hvisits, List.flatMap_singleton, hline]
          exact (ih (state?_of_done hu) (Nat.le_of_succ_le hle)).append
            (.single (.value hn he hu hi hv) u.printer)
      | _ => cases hkind
    · have hself : [(id, s)].filter (isCompletedPrint ctx m) = [] := by
        refine List.filter_eq_nil_iff.mpr fun v hv hthrough => hdone ?_
        obtain rfl := List.mem_singleton.mp hv
        unfold isCompletedPrint at hthrough
        rw [hn, hmono] at hthrough
        split at hthrough
        · rename_i a flow w hprint hend
          cases hprint
          exact ⟨rfl, flow, w, hend⟩
        · cases hthrough
      obtain ⟨u, hu, hclose⟩ := runs_step hn s h
      have hvisits := hu.printsAll fun v _ t ht => ih ht (Nat.le_of_succ_le hle)
      have hprinter : t.printer = u.printer :=
        hclose.printer_eq h fun hkind flow w hw => hdone ⟨hkind, flow, w, hw⟩
      rw [hself, List.append_nil, hprinter]
      exact hvisits

/-! ## Sessions -/

/-- Runs and evaluations one after another lead from one state to another, and bring the given
prints to their end. -/
inductive Session (ctx : Context) (s : State) : List Visit → State → Prop where
  | start : Session ctx s [] s
  | run {vs : List Visit} {t u : State} {fuel : Nat} {root : NodeId} :
    Session ctx s vs t → (runWithin ctx fuel root t).state? = some u →
    Session ctx s (vs ++ completedPrints ctx fuel root t) u
  | eval {vs : List Visit} {t u : State} {fuel : Nat} {id : NodeId} :
    Session ctx s vs t → (nested ctx fuel id t).state? = some u →
    Session ctx s (vs ++ completedPrints ctx fuel id t) u

/-- A session has printed one line for each of its prints. -/
theorem Session.printsAll (h : Session ctx s vs t) : PrintsAll ctx vs s.printer t.printer := by
  induction h with
  | start => exact .refl _
  | run _ hrun ih =>
    obtain ⟨w, hw, hu⟩ := state?_runWithin hrun
    have hprints := ih.append (nested_prints hw (Nat.le_refl _))
    rcases hu with rfl | ⟨-, rfl⟩ <;> exact hprints
  | eval _ heval ih => exact ih.append (nested_prints heval (Nat.le_refl _))

/-- Whoever reads the output of a session line by line finds the lines of its prints. -/
theorem lines_of_session (h : Session ctx s vs t) (hs : s.printer = .buffer #[]) :
    List.Forall₂ (Prints ctx) vs t.printer.lines := by
  obtain ⟨lines, hlines, hprinter⟩ := h.printsAll
  rw [hs, Printer.printAll_buffer, List.toArray_appendList, List.nil_append] at hprinter
  have hread : t.printer.lines = lines := by
    rw [hprinter]
    exact Printer.read_join (printed_of_prints hlines)
  rw [hread]
  exact hlines

end Eval

/-! ## Silence -/

namespace State

/-- The state with a printer that drops its lines. -/
def silenced (s : State) : State := { s with printer := .silent }

end State

/-- The same outcome with a printer that drops its lines. -/
def Outcome.silenced {α : Type} : Outcome α → Outcome α
  | .done a s => .done a s.silenced
  | .failed e s => .failed e s.silenced
  | .dangling => .dangling
  | .exhausted => .exhausted
  | .full s => .full s.silenced

namespace Eval

variable {α : Type} {ctx : Context} {s t : State}

theorem eq_silenced_of_alike {o o' : Outcome α} (h : o.Alike (fun s t => t = s.silenced) o') :
    o' = o.silenced := by
  cases h with
  | done hr => exact congrArg _ hr
  | failed hr => exact congrArg _ hr
  | dangling => rfl
  | exhausted => rfl

/-- Evaluation does not notice what becomes of the lines. -/
theorem unnoticed_silence : Unnoticed fun _ s t => t = s.silenced where
  depth_eq h := by rw [h]; rfl
  limit_eq h := by rw [h]; rfl
  values_eq h := by rw [h]; rfl
  resolve_eq _ h := by rw [h]; rfl
  resolveFunction_eq _ h := by rw [h]; rfl
  resolveParams_eq _ h := by rw [h]; rfl
  write w h := by rw [h]; cases w <;> rfl
  push h := by rw [h]; rfl
  returned_eq h := by rw [h]; rfl
  pop h := by rw [h]; rfl

/-- **The output of evaluation.**  Whatever is evaluated, in whatever state whose printer is a
buffer:

* what can be read back afterwards, be it after a value or after a failure, is what could be
  read back before, followed by one line for each print that was brought to its end, in the
  order in which they ended, and a line feed behind each;
* no text of a value has a line break, so after any runs and evaluations since the buffer was
  cleared, what is read back line by line are the lines of all prints that were brought to their
  end;
* with a printer that drops its lines, evaluations and runs come to the same. -/
theorem output_appends (ctx : Context) :
    (∀ (fuel : Nat) (id : NodeId) (s t : State) (kept : Array String), s.printer = .buffer kept →
      (nested ctx fuel id s).state? = some t →
        ∃ lines, List.Forall₂ (Prints ctx) (completedPrints ctx fuel id s) lines ∧
          t.printer = .buffer (kept ++ lines) ∧
          t.printer.output = s.printer.output ++ String.join (lines.map (· ++ "\n"))) ∧
    (∀ v : Value, '\n' ∉ v.text.toList ∧ '\r' ∉ v.text.toList) ∧
    (∀ (s t : State) (kept : Array String) (vs : List Visit),
      s.printer = (Printer.buffer kept).clear → Session ctx s vs t →
        List.Forall₂ (Prints ctx) vs t.printer.lines) ∧
    ∀ s : State,
      (∀ (fuel : Nat) (id : NodeId),
        nested ctx fuel id s.silenced = (nested ctx fuel id s).silenced) ∧
      ∀ (fuel : Nat) (root : NodeId),
        runWithin ctx fuel root s.silenced = (runWithin ctx fuel root s).silenced := by
  refine ⟨fun fuel id s t kept hs ht => ?_, fun v => ?_, fun s t kept vs hs h => ?_, fun s => ?_⟩
  · obtain ⟨lines, hlines, hprinter⟩ := nested_prints ht (Nat.le_refl fuel)
    refine ⟨lines, hlines, ?_, ?_⟩
    · rw [hprinter, hs, Printer.printAll_buffer]
    · rw [hprinter, hs, Printer.output_printAll_buffer]
  · exact Printed.not_mem_breaks (Or.inr ⟨v, rfl⟩)
  · exact lines_of_session h hs
  · refine ⟨fun fuel id => ?_, fun fuel root => ?_⟩
    · exact eq_silenced_of_alike (unnoticed_silence.nested (k := 0) rfl fuel id)
    · refine eq_silenced_of_alike (unnoticed_silence.runWithin (k := 0) (fun h => ?_) rfl fuel root)
      rw [h]
      rfl

/-- A block that prints the result of calling a function, which prints a number and returns
another, then an empty line, and then a variable that is nowhere bound. -/
def printsThenFails : Context where
  names := ⟨#["", "f", "y"], ∅⟩
  nodes := ⟨#[.empty, .int 1, .print ⟨1⟩, .int 2, .ret ⟨3⟩, .suite ⟨0, 2⟩, .funcDef ⟨1⟩ ⟨0⟩ ⟨5⟩,
    .call ⟨1⟩ ⟨0⟩, .print ⟨7⟩, .print ⟨0⟩, .ident ⟨2⟩, .print ⟨10⟩, .suite ⟨2, 4⟩],
    #[⟨2⟩, ⟨4⟩, ⟨6⟩, ⟨8⟩, ⟨9⟩, ⟨11⟩]⟩
  resultBinding := .enabled

/-- Three of the four prints go through.  The one in the body ends before the one whose argument
is the call. -/
theorem output_appends_printsThenFails :
    ∃ t, nested printsThenFails 6 ⟨12⟩ (.fresh 1 (.buffer #[])) =
        .failed (.nameNotDefined "y") t ∧
      t.printer = .buffer #["1", "2", ""] ∧
      (completedPrints printsThenFails 6 ⟨12⟩ (.fresh 1 (.buffer #[]))).map Prod.fst =
        [⟨2⟩, ⟨8⟩, ⟨9⟩] ∧
      List.Forall₂ (Prints printsThenFails)
        (completedPrints printsThenFails 6 ⟨12⟩ (.fresh 1 (.buffer #[]))) t.printer.lines := by
  obtain ⟨-, -, hlines, -⟩ := output_appends printsThenFails
  have hend : (nested printsThenFails 6 ⟨12⟩ (.fresh 1 (.buffer #[]))).ending? =
      some (.error (.nameNotDefined "y"), .buffer #["1", "2", ""]) := by decide +kernel
  obtain ⟨t, ht⟩ := Outcome.exists_failed_of_ending? hend
  have hprinter : t.printer = .buffer #["1", "2", ""] := by
    rw [ht] at hend
    exact congrArg Prod.snd (Option.some.inj hend)
  have hsession : Session printsThenFails (.fresh 1 (.buffer #[]))
      ([] ++ completedPrints printsThenFails 6 ⟨12⟩ (.fresh 1 (.buffer #[]))) t :=
    .eval .start (state?_of_failed ht)
  exact ⟨t, ht, hprinter, by decide +kernel, hlines _ t #[] _ rfl hsession⟩

end Eval

end TreeWalk
