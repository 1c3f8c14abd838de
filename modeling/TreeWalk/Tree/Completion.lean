import TreeWalk.Tree

/-!
# Writing out absent children

A tree may leave things out for which there is an explicit form: a missing `else` is an
empty block, missing arguments are an empty list, and a bare `return` returns the literal
`None`.  `Completes t u` says that `u` is `t` with some of them written out, at any places
and at any depth, inside function bodies too.

A missing parameter list is not among them, since a function without one is not the same
as a function without parameters, and neither is a bare `print`.
-/

namespace TreeWalk

namespace Tree

mutual

/-- A tree with some absent children written out. -/
inductive Completes : Tree → Tree → Prop where
  | refl (t : Tree) : Completes t t
  | unary (op : UnaryOp) {a a' : Tree} :
    Completes a a' → Completes (unary op a) (unary op a')
  | binary (op : BinaryOp) {a a' b b' : Tree} :
    Completes a a' → Completes b b' → Completes (binary op a b) (binary op a' b')
  | assign (target : String) {a a' : Tree} :
    Completes a a' → Completes (assign target a) (assign target a')
  | print {a a' : Tree} :
    Completes a a' → Completes (print (some a)) (print (some a'))
  | cond {c c' t t' : Tree} :
    Completes c c' → Completes t t' → Completes (cond c t none) (cond c' t' none)
  | condElse {c c' t t' e e' : Tree} :
    Completes c c' → Completes t t' → Completes e e' →
    Completes (cond c t (some e)) (cond c' t' (some e'))
  | suite {ss ss' : List Tree} :
    CompletesAll ss ss' → Completes (suite ss) (suite ss')
  | funcDef (name : String) (params : Option (List String)) {b b' : Tree} :
    Completes b b' → Completes (funcDef name params b) (funcDef name params b')
  | call (callee : String) {as as' : List Tree} :
    CompletesAll as as' → Completes (call callee (some as)) (call callee (some as'))
  | ret {a a' : Tree} :
    Completes a a' → Completes (ret (some a)) (ret (some a'))
  /-- A missing `else` is an empty block. -/
  | emptyElse {c c' t t' : Tree} :
    Completes c c' → Completes t t' →
    Completes (cond c t none) (cond c' t' (some (suite [])))
  /-- Missing arguments are an empty list. -/
  | emptyArgs (callee : String) : Completes (call callee none) (call callee (some []))
  /-- A bare `return` returns the literal `None`. -/
  | retNil : Completes (ret none) (ret (some nil))

/-- Trees of which each has some absent children written out. -/
inductive CompletesAll : List Tree → List Tree → Prop where
  | nil : CompletesAll [] []
  | cons {t t' : Tree} {ts ts' : List Tree} :
    Completes t t' → CompletesAll ts ts' → CompletesAll (t :: ts) (t' :: ts')

end

/-- Trees of which none is changed. -/
theorem CompletesAll.refl : ∀ ts : List Tree, CompletesAll ts ts
  | [] => .nil
  | t :: ts => .cons (.refl t) (CompletesAll.refl ts)

end Tree

end TreeWalk
