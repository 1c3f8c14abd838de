import TreeWalk.Proofs.Direct.Renaming

/-!
# Who sees the results of calls

A call may bind its result to the name of the function.  Values and functions are kept apart, so a
variable of that name is all that can tell whether it did.  If a program reads no variable that has
the name of a function it calls, it does the same with results bound and without
(`run_resultBinding`).  It may assign such variables, and have parameters of such names: after the
first call the frames of the two runs differ, but only in what they know of names that are never
read.

This is the comparison of a tree with itself in which the names of callees are not seen.
-/

namespace TreeWalk

namespace Direct

/-- A tree goes by the same name in both evaluations, and reads only what is seen. -/
theorem run_eq_of_discreet {seen : String → Prop} {b b' : ResultBinding} {t : Tree}
    (h : Discreet seen b b' t.subtrees) (limit : Nat) (printer : Printer) :
    run t ⟨limit, b'⟩ printer = run t ⟨limit, b⟩ printer := by
  have hrun := run_rename_of_discreet Function.injective_id h limit printer
  rw [Tree.rename_id] at hrun
  rw [hrun, renameEnding_id]

end Direct

namespace Program

/-- **The results of calls are seen by variables with the name of a function.**  If no part of a
block reads a variable with the name of a function that a part of it calls, then the program prints
the same lines and ends in the same way, with the same value or the same error, whether calls bind
their results or not. -/
theorem run_resultBinding {ts : List Tree}
    (h : ∀ x, .ident x ∈ (Tree.suite ts).subtrees →
      ∀ args, .call x args ∉ (Tree.suite ts).subtrees) :
    ∃ p, ofTree (.suite ts) = .ok p ∧ ∀ limit printer, ∃ ending,
      (p.run ⟨limit, .enabled⟩ printer).ending? = some ending ∧
      (p.run ⟨limit, .disabled⟩ printer).ending? = some ending := by
  obtain ⟨p, hp⟩ : ∃ p, ofTree (.suite ts) = .ok p := ⟨_, rfl⟩
  refine ⟨p, hp, fun limit printer => ⟨_, Direct.ending_run hp _ printer, ?_⟩⟩
  -- what is seen are the names that nothing calls
  have hdiscreet : Direct.Discreet (fun x => ∀ args, .call x args ∉ (Tree.suite ts).subtrees)
      .enabled .disabled (Tree.suite ts).subtrees :=
    ⟨h, fun _ args hcall => Or.inr fun hseen => hseen args hcall⟩
  rw [Direct.ending_run hp]
  exact congrArg some (Direct.run_eq_of_discreet hdiscreet limit printer)

/-- A function that has a parameter with its own name and assigns it, a call of the function in an
argument of another call of it, and a variable with its name that is assigned and never read. -/
def ownName : List Tree :=
  [.funcDef "f" (some ["a", "f"]) (.suite [.assign "f" (.int 3), .ret (some (.ident "a"))]),
    .assign "f" (.int 5),
    .print (some (.call "f" (some [.call "f" (some [.int 1, .int 2]), .int 2]))),
    .print (some (.call "f" none))]

/-- The first call prints what the inner one returns, and the second has no arguments. -/
theorem run_resultBinding_ownName :
    (∀ x, .ident x ∈ (Tree.suite ownName).subtrees →
      ∀ args, .call x args ∉ (Tree.suite ownName).subtrees) ∧
    ∃ p, ofTree (.suite ownName) = .ok p ∧
      (p.run ⟨1, .enabled⟩ (.buffer #[])).ending? =
        some (.error (.arityMismatch "f" 2 0), .buffer #["1"]) ∧
      (p.run ⟨1, .disabled⟩ (.buffer #[])).ending? =
        some (.error (.arityMismatch "f" 2 0), .buffer #["1"]) := by
  have hnames : ∀ x, .ident x ∈ (Tree.suite ownName).subtrees →
      ∀ args, .call x args ∉ (Tree.suite ownName).subtrees := by
    intro x hread args hcall
    obtain rfl : x = "a" := by simpa [ownName, Tree.subtrees, Tree.subtreesList,
      Tree.subtreesOption, Tree.subtreesArgs] using hread
    simp [ownName, Tree.subtrees, Tree.subtreesList, Tree.subtreesOption,
      Tree.subtreesArgs] at hcall
  obtain ⟨p, hp, hruns⟩ := run_resultBinding hnames
  obtain ⟨ending, henabled, hdisabled⟩ := hruns 1 (.buffer #[])
  have hrun : Direct.run (.suite ownName) ⟨1, .enabled⟩ (.buffer #[]) =
      (.error (.arityMismatch "f" 2 0), .buffer #["1"]) := by decide +kernel
  rw [Direct.ending_run hp, hrun] at henabled
  cases henabled
  refine ⟨hnames, p, hp, ?_, hdisabled⟩
  rw [Direct.ending_run hp, hrun]

end Program

end TreeWalk
