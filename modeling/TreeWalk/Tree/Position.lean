import TreeWalk.Tree.Subtree

/-!
# Where the parts of a tree stand

The format of trees lets any node stand anywhere, so a `return` may stand inside an
operand and a block may be printed.  The predicates here single out the trees in which
nodes stand where a programmer would put them.

* `returnsInPlace`: every `return` is a statement of a block or a branch of a choice, and
  these stand where statements stand.
* `demands`: the children of a node that must have a value.
* `isExpression`: the kinds of node that have a value whenever they are evaluated to the
  end.  `DemandsExpressions` says that all children that must have a value are of them.
* `isOperation`: the trees that only compute, without calls and assignments.
-/

namespace TreeWalk

namespace Tree

mutual

/-- Every `return` stands where a statement stands.  `statement` says whether the tree
itself does. -/
def returnsInPlace (statement : Bool) : Tree → Bool
  | ident _ => true
  | int _ => true
  | float _ => true
  | nil => true
  | unary _ operand => operand.returnsInPlace false
  | binary _ left right => left.returnsInPlace false && right.returnsInPlace false
  | assign _ value => value.returnsInPlace false
  | print argument => returnsInPlaceOption false argument
  | cond test thenBranch elseBranch =>
    test.returnsInPlace false && thenBranch.returnsInPlace statement &&
      returnsInPlaceOption statement elseBranch
  | suite statements => returnsInPlaceList statement statements
  | funcDef _ _ body => body.returnsInPlace true
  | call _ args => returnsInPlaceArgs args
  | ret value => statement && returnsInPlaceOption false value

/-- Every `return` of a child that may be absent stands where a statement stands. -/
def returnsInPlaceOption (statement : Bool) : Option Tree → Bool
  | none => true
  | some t => t.returnsInPlace statement

/-- Every `return` of a list stands where a statement stands. -/
def returnsInPlaceList (statement : Bool) : List Tree → Bool
  | [] => true
  | t :: rest => t.returnsInPlace statement && returnsInPlaceList statement rest

/-- Every `return` inside arguments stands where a statement stands. -/
def returnsInPlaceArgs : Option (List Tree) → Bool
  | none => true
  | some ts => returnsInPlaceList false ts

end

/-- The children that must have a value for the tree to be evaluated to the end. -/
def demands : Tree → List Tree
  | unary _ operand => [operand]
  | binary _ left right => [left, right]
  | assign _ value => [value]
  | print (some argument) => [argument]
  | cond test _ _ => [test]
  | call _ (some args) => args
  | _ => []

/-- The kinds of node that have a value. -/
def isExpression : Tree → Bool
  | ident _ => true
  | int _ => true
  | float _ => true
  | nil => true
  | unary .. => true
  | binary .. => true
  | assign .. => true
  | call .. => true
  | _ => false

/-- Every child that must have a value is of a kind that has one. -/
def DemandsExpressions (t : Tree) : Prop :=
  ∀ u ∈ t.subtrees, ∀ v ∈ u.demands, v.isExpression = true

/-- The tree is built from literals, variables and operators alone. -/
def isOperation : Tree → Bool
  | ident _ => true
  | int _ => true
  | float _ => true
  | nil => true
  | unary _ operand => operand.isOperation
  | binary _ left right => left.isOperation && right.isOperation
  | _ => false

end Tree

end TreeWalk
