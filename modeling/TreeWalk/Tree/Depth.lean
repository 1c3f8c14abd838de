import TreeWalk.Tree.Lowering
import TreeWalk.Tree.Subtree

/-!
# How deep a tree is

A tree is deep where a path leads far down, from a tree to one of its children, to a child
of the child, and so on.  `nesting` counts the trees on the longest path.  Two other
numbers go with it, one before a tree is read and one after.

* `opens` counts the containers of a program file that are open at a time where the tree
  is written down with as few as possible.  Most kinds of node take one or two, a list of
  arguments or parameters takes another, and the bare name of the literal `None` takes
  none.
* `lowerNested` lays a tree out as `lower` does, but gives up when more than so many trees
  would be underway at a time, one inside another.
-/

namespace TreeWalk

namespace Tree

/-- The trees right below a tree. -/
def children : Tree → List Tree
  | unary _ operand => [operand]
  | binary _ left right => [left, right]
  | assign _ value => [value]
  | print argument => argument.toList
  | cond test thenBranch elseBranch => test :: thenBranch :: elseBranch.toList
  | suite statements => statements
  | funcDef _ _ body => [body]
  | call _ args => args.getD []
  | ret value => value.toList
  | _ => []

/-- A path down from a tree, which may end anywhere. -/
inductive IsPath : Tree → List Tree → Prop where
  | stop (t : Tree) : IsPath t [t]
  | step {t child : Tree} {path : List Tree} :
    child ∈ t.children → IsPath child path → IsPath t (t :: path)

/-- The containers that are open at a time in a list of names that may be absent. -/
def opensNames : Option (List String) → Nat
  | none => 0
  | some _ => 1

mutual

/-- The number of containers that are open at a time where a tree is written down with as
few as possible. -/
def opens : Tree → Nat
  | ident _ => 1
  | int _ => 1
  | float _ => 1
  | nil => 0
  | unary _ operand => operand.opens + 2
  | binary _ left right => max left.opens right.opens + 2
  | assign _ value => value.opens + 2
  | print argument => opensOption argument + 1
  | cond test thenBranch elseBranch =>
    max (max test.opens thenBranch.opens) (opensOption elseBranch) + 2
  | suite statements => opensList statements + 2
  | funcDef _ params body => max (opensNames params) body.opens + 2
  | call _ args => opensArgs args + 2
  | ret value => opensOption value + 1

/-- The containers that are open at a time in a child that may be absent. -/
def opensOption : Option Tree → Nat
  | none => 0
  | some t => t.opens

/-- The containers that are open at a time inside a list of trees. -/
def opensList : List Tree → Nat
  | [] => 0
  | t :: rest => max t.opens (opensList rest)

/-- The containers that are open at a time in arguments that may be absent. -/
def opensArgs : Option (List Tree) → Nat
  | none => 0
  | some ts => opensList ts + 1

end

/-! ## Lowering with a bound -/

section

variable (low : Tree → Layout → Option (NodeId × Layout))

/-- Lay out a child that may be absent, for which the empty node stands. -/
def lowerOptionBy : Option Tree → Layout → Option (NodeId × Layout)
  | none, l => some (.empty, l)
  | some t, l => low t l

/-- Lay out trees from left to right. -/
def lowerListBy : List Tree → Layout → Option (List NodeId × Layout)
  | [], l => some ([], l)
  | t :: rest, l => do
    let (id, l) ← low t l
    let (ids, l) ← lowerListBy rest l
    return (id :: ids, l)

/-- Lay out arguments, if there are any. -/
def lowerArgsBy : Option (List Tree) → Layout → Option (Option (List NodeId) × Layout)
  | none, l => some (none, l)
  | some ts, l => do
    let (ids, l) ← lowerListBy low ts l
    return (some ids, l)

end

/-- Lay out a tree with at most so many trees underway at a time. -/
def lowerNested : Nat → Tree → Layout → Option (NodeId × Layout)
  | 0, _, _ => none
  | levels + 1, t, l =>
    let low := lowerNested levels
    match t with
    | ident name =>
      let (n, l) := l.intern name
      some (l.build (·.add (.ident n)))
    | int n => some (l.build (·.add (.int n)))
    | float x => some (l.build (·.add (.float x)))
    | nil => some (l.build (·.add .nil))
    | unary op operand => do
      let (a, l) ← low operand l
      return l.build (·.add (.unary op a))
    | binary op left right => do
      let (a, l) ← low left l
      let (b, l) ← low right l
      return l.build (·.add (.binary op a b))
    | assign target value => do
      let (v, l) ← low value l
      let (n, l) := l.intern target
      return l.build (·.addAssign n v)
    | print argument => do
      let (a, l) ← lowerOptionBy low argument l
      return l.build (·.add (.print a))
    | cond test thenBranch elseBranch => do
      let (c, l) ← low test l
      let (t, l) ← low thenBranch l
      let (e, l) ← lowerOptionBy low elseBranch l
      return l.build (·.add (.cond c t e))
    | suite statements => do
      let (ids, l) ← lowerListBy low statements l
      return l.build (·.addSuite ids)
    | funcDef name params body => do
      let (b, l) ← low body l
      let (ps, l) := l.internParams params
      let (n, l) := l.intern name
      return l.build (·.addFuncDef n ps b)
    | call callee args => do
      let (ids, l) ← lowerArgsBy low args l
      let (n, l) := l.intern callee
      return l.build (·.addCall n ids)
    | ret value => do
      let (v, l) ← lowerOptionBy low value l
      return l.build (·.add (.ret v))

end Tree

end TreeWalk
