import TreeWalk.Proofs.Direct.SideBySide
import TreeWalk.Tree.Completion

/-!
# Absent children mean their explicit forms

A tree and the same tree with some absent children written out are evaluated side by side: a missing
`else` is an empty block, missing arguments are an empty list, and a bare `return` returns the
literal `None`.  The two programs print the same lines and end in the same way (`run_completes`).

## Why the bodies of functions are related

The children that are written out may stand in the body of a function, which is evaluated when it
is called and from anywhere.  So the frames of the two evaluations hold different bodies, and a body
of the one is a completion of the body that the other has for the same name.  Nothing else in the
frames differs, and the same identifiers are in use.

## Reading a completion off a tree

A tree of which nothing is changed is a completion of itself, whatever its kind.  So that this is
no case of its own everywhere, there is one lemma for each kind of tree that says what its
completions look like, and the induction on the tree uses these.
-/

namespace TreeWalk

namespace Tree

/-! ## The completions of each kind of tree -/

/-- A child that may be absent, and its completion, which may be the explicit form. -/
inductive CompletesOption (form : Tree) : Option Tree → Option Tree → Prop where
  | absent : CompletesOption form none none
  | written : CompletesOption form none (some form)
  | present {t t' : Tree} : Completes t t' → CompletesOption form (some t) (some t')

theorem CompletesOption.refl (form : Tree) (o : Option Tree) : CompletesOption form o o := by
  cases o with
  | none => exact .absent
  | some t => exact .present (.refl t)

section Shapes

variable {a b c e t u : Tree} {x : String} {o : Option Tree} {ts : List Tree}

theorem Completes.exists_of_unary {op : UnaryOp} (h : Completes (.unary op a) u) :
    ∃ a', u = .unary op a' ∧ Completes a a' := by
  cases h with
  | refl => exact ⟨a, rfl, .refl a⟩
  | unary _ ha => exact ⟨_, rfl, ha⟩

theorem Completes.exists_of_binary {op : BinaryOp} (h : Completes (.binary op a b) u) :
    ∃ a' b', u = .binary op a' b' ∧ Completes a a' ∧ Completes b b' := by
  cases h with
  | refl => exact ⟨a, b, rfl, .refl a, .refl b⟩
  | binary _ ha hb => exact ⟨_, _, rfl, ha, hb⟩

theorem Completes.exists_of_assign (h : Completes (.assign x a) u) :
    ∃ a', u = .assign x a' ∧ Completes a a' := by
  cases h with
  | refl => exact ⟨a, rfl, .refl a⟩
  | assign _ ha => exact ⟨_, rfl, ha⟩

theorem Completes.exists_of_print (h : Completes (.print (some a)) u) :
    ∃ a', u = .print (some a') ∧ Completes a a' := by
  cases h with
  | refl => exact ⟨a, rfl, .refl a⟩
  | print ha => exact ⟨_, rfl, ha⟩

/-- A missing `else` may become an empty block. -/
theorem Completes.exists_of_cond (h : Completes (.cond c t o) u) :
    ∃ c' t' o', u = .cond c' t' o' ∧ Completes c c' ∧ Completes t t' ∧
      CompletesOption (.suite []) o o' := by
  cases h with
  | refl => exact ⟨c, t, o, rfl, .refl c, .refl t, .refl _ o⟩
  | cond hc ht => exact ⟨_, _, _, rfl, hc, ht, .absent⟩
  | condElse hc ht he => exact ⟨_, _, _, rfl, hc, ht, .present he⟩
  | emptyElse hc ht => exact ⟨_, _, _, rfl, hc, ht, .written⟩

theorem Completes.exists_of_suite (h : Completes (.suite ts) u) :
    ∃ ts', u = .suite ts' ∧ CompletesAll ts ts' := by
  cases h with
  | refl => exact ⟨ts, rfl, .refl ts⟩
  | suite hts => exact ⟨_, rfl, hts⟩

theorem Completes.exists_of_funcDef {params : Option (List String)}
    (h : Completes (.funcDef x params b) u) : ∃ b', u = .funcDef x params b' ∧ Completes b b' := by
  cases h with
  | refl => exact ⟨b, rfl, .refl b⟩
  | funcDef _ _ hb => exact ⟨_, rfl, hb⟩

/-- Missing arguments may become an empty list. -/
theorem Completes.exists_of_callNone (h : Completes (.call x none) u) :
    ∃ args, u = .call x args ∧ args.getD [] = [] := by
  cases h with
  | refl => exact ⟨none, rfl, rfl⟩
  | emptyArgs => exact ⟨some [], rfl, rfl⟩

theorem Completes.exists_of_call (h : Completes (.call x (some ts)) u) :
    ∃ ts', u = .call x (some ts') ∧ CompletesAll ts ts' := by
  cases h with
  | refl => exact ⟨ts, rfl, .refl ts⟩
  | call _ hts => exact ⟨_, rfl, hts⟩

/-- A bare `return` may become one of the literal `None`. -/
theorem Completes.exists_of_ret (h : Completes (.ret o) u) :
    ∃ o', u = .ret o' ∧ CompletesOption .nil o o' := by
  cases h with
  | refl => exact ⟨o, rfl, .refl _ o⟩
  | ret ha => exact ⟨_, rfl, .present ha⟩
  | retNil => exact ⟨_, rfl, .written⟩

end Shapes

end Tree

namespace Direct

namespace Likeness

open TreeWalk.Tree

/-- Two programs are alike of which the second has some absent children of the first written
out. -/
def completed (printer : Printer) : Likeness where
  rename := id
  injective := Function.injective_id
  seen _ := True
  body := Completes
  first := printer
  second := printer

variable {printer : Printer} {binding : ResultBinding} {enter enter' : Entry}

/-! ## The induction on the tree -/

/-- A tree and its completion are assignments to the same name, or neither is an assignment. -/
theorem agree_markAssigned_completes {t u : Tree} (h : Completes t u) :
    (completed printer).Agree (· = ·) (markAssigned t) (markAssigned u) := by
  cases t with
  | assign target value =>
    obtain ⟨value', rfl, -⟩ := h.exists_of_assign
    exact agree_onTop fun _ _ hfg => hfg.markUnbound target
  | _ => cases h <;> exact agree_pure rfl

theorem agree_markAll_completes {ts us : List Tree} (h : CompletesAll ts us) :
    (completed printer).Agree (· = ·) (ts.forM markAssigned) (us.forM markAssigned) := by
  induction ts generalizing us with
  | nil =>
    cases h
    exact agree_pure rfl
  | cons t rest ih =>
    cases h with
    | cons ht hrest => exact (agree_markAssigned_completes ht).bind_eq fun _ => ih hrest

theorem agree_ofExcept_completed {α : Type} (r : Except EvalError α) :
    (completed printer).Agree (· = ·) (ofExcept r) (ofExcept r) :=
  agree_ofExcept fun e _ => e.rename_id

mutual

/-- **A tree and its completion agree**, if bodies are entered alike. -/
theorem agree_completes (he : (completed printer).EntersAlike enter enter') :
    ∀ {t u : Tree}, Completes t u →
      (completed printer).Agree (· = ·) (evaluate binding enter t) (evaluate binding enter' u)
  | .ident x, u, h => by
    cases h
    rw [evaluate, evaluate]
    exact agree_ident trivial
  | .int _, u, h | .float _, u, h | .nil, u, h => by
    cases h
    rw [evaluate, evaluate]
    exact agree_pure rfl
  | .unary op a, u, h => by
    obtain ⟨a', rfl, ha⟩ := h.exists_of_unary
    rw [evaluate, evaluate]
    refine (agree_completes he ha).bind_eq fun flow => ?_
    refine (agree_operand op.symbol flow).bind_eq fun v => ?_
    exact (agree_ofExcept_completed _).bind_eq fun w => agree_pure rfl
  | .binary op a b, u, h => by
    obtain ⟨a', b', rfl, ha, hb⟩ := h.exists_of_binary
    rw [evaluate, evaluate]
    refine (agree_completes he ha).bind_eq fun flow => ?_
    refine (agree_operand op.symbol flow).bind_eq fun v => ?_
    refine (agree_completes he hb).bind_eq fun flow => ?_
    refine (agree_operand op.symbol flow).bind_eq fun w => ?_
    exact (agree_ofExcept_completed _).bind_eq fun r => agree_pure rfl
  | .assign target value, u, h => by
    obtain ⟨value', rfl, hvalue⟩ := h.exists_of_assign
    rw [evaluate, evaluate]
    refine (agree_completes he hvalue).bind_eq fun flow => ?_
    refine (agree_required .assignedValue flow).bind_eq fun v => ?_
    exact (agree_onTop fun _ _ hfg => hfg.bind target v).bind_eq fun _ => agree_pure rfl
  | .print none, u, h => by
    cases h
    rw [evaluate, evaluate]
    exact (agree_emit "").bind_eq fun _ => agree_pure rfl
  | .print (some a), u, h => by
    obtain ⟨a', rfl, ha⟩ := h.exists_of_print
    rw [evaluate, evaluate]
    refine (agree_completes he ha).bind_eq fun flow => ?_
    refine (agree_required .printArgument flow).bind_eq fun v => ?_
    exact (agree_emit v.text).bind_eq fun _ => agree_pure rfl
  | .cond test thenBranch elseBranch, u, h => by
    obtain ⟨test', thenBranch', elseBranch', rfl, htest, hthen, helse⟩ := h.exists_of_cond
    rw [evaluate, evaluate]
    refine (agree_completes he htest).bind_eq fun flow => ?_
    refine (agree_required .ifCondition flow).bind_eq fun v => ?_
    by_cases hv : v.truthy = true
    · rw [if_pos hv, if_pos hv]
      exact agree_completes he hthen
    · rw [if_neg hv, if_neg hv]
      exact agree_completesElse he helse
  | .suite ts, u, h => by
    obtain ⟨ts', rfl, hts⟩ := h.exists_of_suite
    rw [evaluate, evaluate]
    exact (agree_markAll_completes hts).bind_eq fun _ => agree_completesStatements he hts
  | .funcDef name params body, u, h => by
    obtain ⟨body', rfl, hbody⟩ := h.exists_of_funcDef
    rw [evaluate, evaluate]
    refine (agree_onTop fun _ _ hfg => ?_).bind_eq fun _ => agree_pure rfl
    have hdef := hfg.define name params hbody
    rwa [show params.map (·.map (completed printer).rename) = params by simp [completed]] at hdef
  | .call callee none, u, h => by
    obtain ⟨args, rfl, hargs⟩ := h.exists_of_callNone
    refine agree_call he (Or.inl rfl) ?_
    rw [evaluateArgs]
    cases args with
    | none => exact agree_pure rfl
    | some ts =>
      obtain rfl : ts = [] := hargs
      rw [evaluateArgs, evaluateArguments]
      exact agree_pure rfl
  | .call callee (some ts), u, h => by
    obtain ⟨ts', rfl, hts⟩ := h.exists_of_call
    refine agree_call he (Or.inl rfl) ?_
    rw [evaluateArgs, evaluateArgs]
    exact agree_completesArguments he hts
  | .ret none, u, h => by
    obtain ⟨o, rfl, ho⟩ := h.exists_of_ret
    cases ho with
    | absent =>
      rw [evaluate, evaluate]
      exact agree_leave .nil
    | written =>
      rw [evaluate, evaluate, evaluate, pure_bind]
      exact agree_leave .nil
  | .ret (some value), u, h => by
    obtain ⟨o, rfl, ho⟩ := h.exists_of_ret
    cases ho with
    | present hvalue =>
      rw [evaluate, evaluate]
      exact (agree_completes he hvalue).bind_eq fun flow => agree_leave _
termination_by structural t => t

/-- Nothing happens in an empty block. -/
theorem agree_completesElse (he : (completed printer).EntersAlike enter enter') :
    ∀ {o o' : Option Tree}, CompletesOption (.suite []) o o' →
      (completed printer).Agree (· = ·) (evaluateElse binding enter o)
        (evaluateElse binding enter' o')
  | none, o', h => by
    cases h with
    | absent =>
      rw [evaluateElse, evaluateElse]
      exact agree_pure rfl
    | written =>
      rw [evaluateElse, evaluateElse, evaluate, evaluateStatements]
      exact agree_pure rfl
  | some t, o', h => by
    cases h with
    | present ht =>
      rw [evaluateElse, evaluateElse]
      exact agree_completes he ht
termination_by structural o => o

theorem agree_completesStatements (he : (completed printer).EntersAlike enter enter') :
    ∀ {ts us : List Tree}, CompletesAll ts us →
      (completed printer).Agree (· = ·) (evaluateStatements binding enter ts)
        (evaluateStatements binding enter' us)
  | [], us, h => by
    cases h
    rw [evaluateStatements, evaluateStatements]
    exact agree_pure rfl
  | t :: rest, us, h => by
    cases h with
    | cons ht hrest =>
      rw [evaluateStatements, evaluateStatements]
      refine (agree_completes he ht).bind_eq fun flow => ?_
      cases flow with
      | normal v => exact agree_completesStatements he hrest
      | ret v => exact agree_pure rfl
termination_by structural ts => ts

theorem agree_completesArguments (he : (completed printer).EntersAlike enter enter') :
    ∀ {callee : String} {position : Nat} {ts us : List Tree}, CompletesAll ts us →
      (completed printer).Agree (· = ·) (evaluateArguments binding enter callee position ts)
        (evaluateArguments binding enter' callee position us)
  | callee, position, [], us, h => by
    cases h
    rw [evaluateArguments, evaluateArguments]
    exact agree_pure rfl
  | callee, position, t :: rest, us, h => by
    cases h with
    | cons ht hrest =>
      rw [evaluateArguments, evaluateArguments]
      refine (agree_completes he ht).bind_eq fun flow => ?_
      refine (agree_required (.argument position callee) flow).bind_eq fun v => ?_
      exact (agree_completesArguments he hrest).bind_eq fun vs => agree_pure rfl
termination_by structural _ _ ts => ts

end

/-! ## The induction on the frames -/

/-- Bodies and their completions are entered alike whatever number of frames may be pushed. -/
theorem entersAlike_completed (settings : Settings) : ∀ frames : Nat,
    (completed printer).EntersAlike (entry settings frames) (entry settings frames)
  | 0 => entersAlike_refuse settings.limit
  | frames + 1 => by
    refine entersAlike_inFrame fun b b' hb => ?_
    rw [evaluateWithin_eq]
    exact agree_completes (entersAlike_completed settings frames) hb

end Likeness

/-- The direct evaluation of a tree of which absent children are written out. -/
theorem run_eq_of_completes {t u : Tree} (h : Tree.Completes t u) (settings : Settings)
    (printer : Printer) : run u settings printer = run t settings printer := by
  have hagree : (Likeness.completed printer).Agree (· = ·)
      (evaluateWithin settings settings.limit t) (evaluateWithin settings settings.limit u) := by
    rw [evaluateWithin_eq]
    exact Likeness.agree_completes (Likeness.entersAlike_completed settings settings.limit) h
  exact (Likeness.run_eq_of_agree rfl rfl hagree).trans (renameEnding_id _)

end Direct

namespace Program

/-- **Absent children mean their explicit forms.**  Every block and every tree that is the block
with some absent children written out are programs that print the same lines and end in the same
way, with the same value or the same error, under every limit and whether or not calls bind their
results. -/
theorem run_completes {ts : List Tree} {u : Tree} (h : Tree.Completes (.suite ts) u) :
    ∃ p q, ofTree (.suite ts) = .ok p ∧ ofTree u = .ok q ∧
      ∀ settings printer, ∃ ending, (p.run settings printer).ending? = some ending ∧
        (q.run settings printer).ending? = some ending := by
  obtain ⟨us, rfl, -⟩ := h.exists_of_suite
  obtain ⟨p, hp⟩ := exists_ofTree ts
  obtain ⟨q, hq⟩ := exists_ofTree us
  refine ⟨p, q, hp, hq, fun settings printer => ⟨_, Direct.ending_run hp settings printer, ?_⟩⟩
  rw [Direct.ending_run hq, Direct.run_eq_of_completes h]

/-- A function that returns early if a call of another has a value, and prints what it returns
otherwise.  It is called twice, the second time with too many arguments. -/
def leftOut : List Tree :=
  [.funcDef "g" (some []) (.suite [.ret none]),
    .funcDef "f" (some [])
      (.suite [.cond (.call "g" none) (.ret none) none, .print (some (.call "g" none))]),
    .print (some (.call "f" none)),
    .call "f" (some [.nil])]

/-- The same functions, with absent children written out in their bodies and in one call. -/
def writtenOut : List Tree :=
  [.funcDef "g" (some []) (.suite [.ret (some .nil)]),
    .funcDef "f" (some [])
      (.suite [.cond (.call "g" (some [])) (.ret none) (some (.suite [])),
        .print (some (.call "g" none))]),
    .print (some (.call "f" (some []))),
    .call "f" (some [.nil])]

theorem completes_writtenOut : Tree.Completes (.suite leftOut) (.suite writtenOut) := by
  refine .suite (.cons (.funcDef _ _ ?_) (.cons (.funcDef _ _ ?_) (.cons ?_ (.refl _))))
  · exact .suite (.cons .retNil .nil)
  · exact .suite (.cons (.emptyElse (.emptyArgs _) (.refl _)) (.refl _))
  · exact .print (.emptyArgs _)

/-- Both programs print two lines before the last call fails. -/
theorem run_completes_writtenOut :
    Tree.Completes (.suite leftOut) (.suite writtenOut) ∧
    ∃ p q, ofTree (.suite leftOut) = .ok p ∧ ofTree (.suite writtenOut) = .ok q ∧
      (p.run .default (.buffer #[])).ending? =
        some (.error (.arityMismatch "f" 0 1), .buffer #["None", "None"]) ∧
      (q.run .default (.buffer #[])).ending? =
        some (.error (.arityMismatch "f" 0 1), .buffer #["None", "None"]) := by
  obtain ⟨p, q, hp, hq, hruns⟩ := run_completes completes_writtenOut
  obtain ⟨ending, hending, hcompleted⟩ := hruns .default (.buffer #[])
  have hrun : Direct.run (.suite leftOut) .default (.buffer #[]) =
      (.error (.arityMismatch "f" 0 1), .buffer #["None", "None"]) := by decide +kernel
  rw [Direct.ending_run hp, hrun] at hending
  cases hending
  refine ⟨completes_writtenOut, p, q, hp, hq, ?_, hcompleted⟩
  rw [Direct.ending_run hp, hrun]

end Program

end TreeWalk
