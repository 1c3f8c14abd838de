import TreeWalk.Proofs.Arithmetic
import TreeWalk.Proofs.Direct.SideBySide
import TreeWalk.Tree.Subtree

/-!
# Identifiers matter only up to renaming

A tree and the same tree with its identifiers renamed are evaluated side by side.  If different
identifiers are renamed differently, the two evaluations print the same lines and end alike, and
an error of the one is an error of the other about the renamed identifier (`run_rename`).

## On the tree and not on its layout

Names are numbered in the order in which lowering meets them, and a renaming may identify none of
them, but it may give away the one string that has its number from the beginning, the empty one.
So the numbers of the two programs need not agree.  Nothing of this is seen by direct evaluation,
which binds strings.  Since running a program comes to the same as evaluating its tree
(`ending_run`), it is enough to compare the evaluations of two trees.

## What is compared at once

The induction on the tree, `agree_evaluate`, is said for a tree of which only some identifiers are
read, and for two evaluations of which one may bind the results of calls and the other not, as long
as callees are not read then.  `Discreet` is this condition on the parts of a tree.
-/

namespace TreeWalk

/-- The errors of operators name no identifier. -/
theorem EvalError.OfOperation.rename_eq {e : EvalError} (h : e.OfOperation) (r : String → String) :
    e.rename r = e := by
  cases e with
  | nameNotDefined x => cases h
  | localVariableUnbound x => cases h
  | arityMismatch x m n => cases h
  | malformedNode d => cases h
  | _ => rfl

namespace Direct

/-- Of the given parts of a tree, variables are read only if they are seen, and functions are
called only if their results are bound in both of two evaluations or in none, or are not seen. -/
structure Discreet (seen : String → Prop) (b b' : ResultBinding) (parts : List Tree) : Prop where
  reads : ∀ x, .ident x ∈ parts → seen x
  calls : ∀ x args, .call x args ∈ parts → b = b' ∨ ¬ seen x

theorem Discreet.mono {seen : String → Prop} {b b' : ResultBinding} {parts more : List Tree}
    (h : Discreet seen b b' more) (hsub : parts ⊆ more) : Discreet seen b b' parts :=
  ⟨fun x hx => h.reads x (hsub hx), fun x args hx => h.calls x args (hsub hx)⟩

namespace Likeness

/-- Two programs are alike that differ in the names of their identifiers. -/
def renamed {r : String → String} (hr : Function.Injective r) (seen : String → Prop)
    (b b' : ResultBinding) (first second : Printer) : Likeness where
  rename := r
  injective := hr
  seen := seen
  body t t' := t' = t.rename r ∧ Discreet seen b b' t.subtrees
  first := first
  second := second

variable {r : String → String} {hr : Function.Injective r} {seen : String → Prop}
  {b b' : ResultBinding} {first second : Printer} {enter enter' : Entry}

/-! ## The induction on the tree -/

theorem agree_markAssigned (t : Tree) :
    (renamed hr seen b b' first second).Agree (· = ·) (markAssigned t)
      (markAssigned (t.rename r)) := by
  cases t with
  | assign target value => exact agree_onTop fun _ _ hfg => hfg.markUnbound target
  | _ => exact agree_pure rfl

theorem agree_markAll (ts : List Tree) :
    (renamed hr seen b b' first second).Agree (· = ·) (ts.forM markAssigned)
      ((Tree.renameList r ts).forM markAssigned) := by
  induction ts with
  | nil => exact agree_pure rfl
  | cons t rest ih => exact (agree_markAssigned t).bind_eq fun _ => ih

mutual

/-- **A tree and its renaming agree**, if bodies are entered alike. -/
theorem agree_evaluate (he : (renamed hr seen b b' first second).EntersAlike enter enter') :
    ∀ {t : Tree}, Discreet seen b b' t.subtrees →
      (renamed hr seen b b' first second).Agree (· = ·) (evaluate b enter t)
        (evaluate b' enter' (t.rename r))
  | .ident x, h => by
    rw [Tree.rename, evaluate, evaluate]
    exact agree_ident (h.reads x (List.mem_singleton_self _))
  | .int n, _ => by
    rw [Tree.rename, evaluate, evaluate]
    exact agree_pure rfl
  | .float x, _ => by
    rw [Tree.rename, evaluate, evaluate]
    exact agree_pure rfl
  | .nil, _ => by
    rw [Tree.rename, evaluate, evaluate]
    exact agree_pure rfl
  | .unary op a, h => by
    have ha := agree_evaluate he (h.mono (List.subset_cons_self _ _))
    rw [Tree.rename, evaluate, evaluate]
    refine ha.bind_eq fun flow => (agree_operand op.symbol flow).bind_eq fun v => ?_
    refine (agree_ofExcept fun e herr => ?_).bind_eq fun w => agree_pure rfl
    exact (Arithmetic.ofOperation_of_unary herr).rename_eq r
  | .binary op a c, h => by
    have ha := agree_evaluate he (t := a) (h.mono fun u hu => by simp [Tree.subtrees, hu])
    have hc := agree_evaluate he (t := c) (h.mono fun u hu => by simp [Tree.subtrees, hu])
    rw [Tree.rename, evaluate, evaluate]
    refine ha.bind_eq fun flow => (agree_operand op.symbol flow).bind_eq fun v => ?_
    refine hc.bind_eq fun flow => (agree_operand op.symbol flow).bind_eq fun w => ?_
    refine (agree_ofExcept fun e herr => ?_).bind_eq fun u => agree_pure rfl
    exact (Arithmetic.ofOperation_of_binary herr).rename_eq r
  | .assign target value, h => by
    have hv := agree_evaluate he (h.mono (List.subset_cons_self _ _))
    rw [Tree.rename, evaluate, evaluate]
    refine hv.bind_eq fun flow => (agree_required .assignedValue flow).bind_eq fun v => ?_
    exact (agree_onTop fun _ _ hfg => hfg.bind target v).bind_eq fun _ => agree_pure rfl
  | .print none, _ => by
    rw [Tree.rename, Tree.renameOption, evaluate, evaluate]
    exact (agree_emit "").bind_eq fun _ => agree_pure rfl
  | .print (some a), h => by
    have ha := agree_evaluate he (t := a) (h.mono (List.subset_cons_self _ _))
    rw [Tree.rename, Tree.renameOption, evaluate, evaluate]
    refine ha.bind_eq fun flow => (agree_required .printArgument flow).bind_eq fun v => ?_
    exact (agree_emit v.text).bind_eq fun _ => agree_pure rfl
  | .cond test thenBranch elseBranch, h => by
    have htest := agree_evaluate he (t := test) (h.mono fun u hu => by simp [Tree.subtrees, hu])
    have hthen := agree_evaluate he (t := thenBranch)
      (h.mono fun u hu => by simp [Tree.subtrees, hu])
    have helse := agree_evaluateElse he (o := elseBranch)
      (h.mono fun u hu => by simp [Tree.subtrees, hu])
    rw [Tree.rename, evaluate, evaluate]
    refine htest.bind_eq fun flow => (agree_required .ifCondition flow).bind_eq fun v => ?_
    by_cases hv : v.truthy = true
    · rw [if_pos hv, if_pos hv]
      exact hthen
    · rw [if_neg hv, if_neg hv]
      exact helse
  | .suite ts, h => by
    have hts := agree_evaluateStatements he (h.mono (List.subset_cons_self _ _))
    rw [Tree.rename, evaluate, evaluate]
    exact (agree_markAll ts).bind_eq fun _ => hts
  | .funcDef name params body, h => by
    have hbody : (renamed hr seen b b' first second).body body (body.rename r) :=
      ⟨rfl, h.mono (List.subset_cons_self _ _)⟩
    rw [Tree.rename, evaluate, evaluate]
    exact (agree_onTop fun _ _ hfg => hfg.define name params hbody).bind_eq fun _ => agree_pure rfl
  | .call callee none, h => by
    rw [Tree.rename, Tree.renameArgs]
    refine agree_call he (h.calls callee none (List.mem_cons_self ..)) ?_
    rw [evaluateArgs, evaluateArgs]
    exact agree_pure rfl
  | .call callee (some ts), h => by
    rw [Tree.rename, Tree.renameArgs]
    refine agree_call he (h.calls callee (some ts) (List.mem_cons_self ..)) ?_
    rw [evaluateArgs, evaluateArgs]
    exact agree_evaluateArguments he (h.mono (List.subset_cons_self _ _))
  | .ret none, _ => by
    rw [Tree.rename, Tree.renameOption, evaluate, evaluate]
    exact agree_leave .nil
  | .ret (some value), h => by
    have hv := agree_evaluate he (t := value) (h.mono (List.subset_cons_self _ _))
    rw [Tree.rename, Tree.renameOption, evaluate, evaluate]
    exact hv.bind_eq fun flow => agree_leave _

theorem agree_evaluateElse (he : (renamed hr seen b b' first second).EntersAlike enter enter') :
    ∀ {o : Option Tree}, Discreet seen b b' (Tree.subtreesOption o) →
      (renamed hr seen b b' first second).Agree (· = ·) (evaluateElse b enter o)
        (evaluateElse b' enter' (Tree.renameOption r o))
  | none, _ => by
    rw [Tree.renameOption, evaluateElse, evaluateElse]
    exact agree_pure rfl
  | some t, h => by
    rw [Tree.renameOption, evaluateElse, evaluateElse]
    exact agree_evaluate he h

theorem agree_evaluateStatements
    (he : (renamed hr seen b b' first second).EntersAlike enter enter') :
    ∀ {ts : List Tree}, Discreet seen b b' (Tree.subtreesList ts) →
      (renamed hr seen b b' first second).Agree (· = ·) (evaluateStatements b enter ts)
        (evaluateStatements b' enter' (Tree.renameList r ts))
  | [], _ => by
    rw [Tree.renameList, evaluateStatements, evaluateStatements]
    exact agree_pure rfl
  | t :: rest, h => by
    have ht := agree_evaluate he (h.mono (List.subset_append_left t.subtrees _))
    have hrest := agree_evaluateStatements he
      (h.mono (List.subset_append_right _ (Tree.subtreesList rest)))
    rw [Tree.renameList, evaluateStatements, evaluateStatements]
    refine ht.bind_eq fun flow => ?_
    cases flow with
    | normal v => exact hrest
    | ret v => exact agree_pure rfl

theorem agree_evaluateArguments
    (he : (renamed hr seen b b' first second).EntersAlike enter enter') :
    ∀ {callee : String} {position : Nat} {ts : List Tree},
      Discreet seen b b' (Tree.subtreesList ts) →
      (renamed hr seen b b' first second).Agree (· = ·)
        (evaluateArguments b enter callee position ts)
        (evaluateArguments b' enter' (r callee) position (Tree.renameList r ts))
  | callee, position, [], _ => by
    rw [Tree.renameList, evaluateArguments, evaluateArguments]
    exact agree_pure rfl
  | callee, position, t :: rest, h => by
    have ht := agree_evaluate he (h.mono (List.subset_append_left t.subtrees _))
    have hparts := h.mono (List.subset_append_right _ (Tree.subtreesList rest))
    rw [Tree.renameList, evaluateArguments, evaluateArguments]
    refine ht.bind_eq fun flow => ?_
    refine (agree_required (.argument position callee) flow).bind_eq fun v => ?_
    exact (agree_evaluateArguments he hparts).bind_eq fun vs => agree_pure rfl

end

/-! ## The induction on the frames -/

/-- Bodies are entered alike whatever number of frames may still be pushed. -/
theorem entersAlike_entry (limit : Nat) : ∀ frames : Nat,
    (renamed hr seen b b' first second).EntersAlike (entry ⟨limit, b⟩ frames)
      (entry ⟨limit, b'⟩ frames)
  | 0 => entersAlike_refuse limit
  | frames + 1 => by
    refine entersAlike_inFrame ?_
    rintro t _ ⟨rfl, ht⟩
    rw [evaluateWithin_eq, evaluateWithin_eq]
    exact agree_evaluate (entersAlike_entry limit frames) ht

/-- A tree and its renaming agree when so many more frames may be pushed. -/
theorem agree_evaluateWithin (hr : Function.Injective r) (first second : Printer) {t : Tree}
    (h : Discreet seen b b' t.subtrees) (limit frames : Nat) :
    (renamed hr seen b b' first second).Agree (· = ·) (evaluateWithin ⟨limit, b⟩ frames t)
      (evaluateWithin ⟨limit, b'⟩ frames (t.rename r)) := by
  rw [evaluateWithin_eq, evaluateWithin_eq]
  exact agree_evaluate (entersAlike_entry limit frames) h

end Likeness

/-! ## Runs -/

/-- The direct evaluation of a renamed tree, in which results may be bound where they were not. -/
theorem run_rename_of_discreet {r : String → String} (hr : Function.Injective r)
    {seen : String → Prop} {b b' : ResultBinding} {t : Tree} (h : Discreet seen b b' t.subtrees)
    (limit : Nat) (printer : Printer) :
    run (t.rename r) ⟨limit, b'⟩ printer = renameEnding r (run t ⟨limit, b⟩ printer) :=
  Likeness.run_eq_of_agree rfl rfl
    (Likeness.agree_evaluateWithin hr printer printer h limit limit)

end Direct

namespace Program

/-- **Identifiers matter only up to renaming.**  If different identifiers are renamed differently,
every block and its renaming are programs that print the same lines and end alike, with the same
value or with errors of the same kind: the error of the renamed program is the error of the other
with its identifier renamed, and the same in everything else. -/
theorem run_rename {r : String → String} (hr : Function.Injective r) (ts : List Tree) :
    ∃ p q, ofTree (.suite ts) = .ok p ∧ ofTree ((Tree.suite ts).rename r) = .ok q ∧
      ∀ settings printer, ∃ ending, (p.run settings printer).ending? = some ending ∧
        (q.run settings printer).ending? = some (renameEnding r ending) := by
  obtain ⟨p, hp⟩ : ∃ p, ofTree (.suite ts) = .ok p := ⟨_, rfl⟩
  obtain ⟨q, hq⟩ : ∃ q, ofTree ((Tree.suite ts).rename r) = .ok q := ⟨_, rfl⟩
  refine ⟨p, q, hp, hq, fun settings printer => ⟨_, Direct.ending_run hp settings printer, ?_⟩⟩
  have hdiscreet : Direct.Discreet (fun _ => True) settings.resultBinding settings.resultBinding
      (Tree.suite ts).subtrees := ⟨fun _ _ => trivial, fun _ _ _ => Or.inl rfl⟩
  rw [Direct.ending_run hq settings printer]
  exact congrArg some (Direct.run_rename_of_discreet hr hdiscreet settings.limit printer)

/-- A block that assigns a variable with an empty name, prints it, and calls a function that does
not exist. -/
def emptyName : List Tree :=
  [.assign "" (.int 1), .print (some (.ident "")), .call "f" (some [])]

/-- With a letter in front of every identifier, the same line is printed, and the function that
does not exist has another name. -/
theorem run_rename_emptyName :
    ∃ p q, ofTree (.suite emptyName) = .ok p ∧
      ofTree ((Tree.suite emptyName).rename ("v" ++ ·)) = .ok q ∧
      (p.run .default (.buffer #[])).ending? =
        some (.error (.nameNotDefined "f"), .buffer #["1"]) ∧
      (q.run .default (.buffer #[])).ending? =
        some (.error (.nameNotDefined "vf"), .buffer #["1"]) := by
  have hinjective : Function.Injective ("v" ++ · : String → String) :=
    fun _ _ h => (String.append_right_inj _).mp h
  obtain ⟨p, q, hp, hq, hruns⟩ := run_rename hinjective emptyName
  obtain ⟨ending, hending, hrenamed⟩ := hruns .default (.buffer #[])
  have hrun : Direct.run (.suite emptyName) .default (.buffer #[]) =
      (.error (.nameNotDefined "f"), .buffer #["1"]) := by decide +kernel
  rw [Direct.ending_run hp, hrun] at hending
  cases hending
  refine ⟨p, q, hp, hq, ?_, hrenamed⟩
  rw [Direct.ending_run hp, hrun]

end Program

end TreeWalk
