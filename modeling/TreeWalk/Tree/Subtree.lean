import TreeWalk.Tree

/-!
# The parts of a tree

The subtrees of a tree are the tree itself and everything below it, and its nesting is
the number of trees on the longest path downwards.  Both see through the lists and the
optional children of a node.
-/

namespace TreeWalk

namespace Tree

mutual

/-- A tree and all trees below it, each before those below it. -/
def subtrees : Tree → List Tree
  | ident name => [ident name]
  | int n => [int n]
  | float x => [float x]
  | nil => [nil]
  | unary op operand => unary op operand :: operand.subtrees
  | binary op left right => binary op left right :: (left.subtrees ++ right.subtrees)
  | assign target value => assign target value :: value.subtrees
  | print argument => print argument :: subtreesOption argument
  | cond test thenBranch elseBranch =>
    cond test thenBranch elseBranch ::
      (test.subtrees ++ thenBranch.subtrees ++ subtreesOption elseBranch)
  | suite statements => suite statements :: subtreesList statements
  | funcDef name params body => funcDef name params body :: body.subtrees
  | call callee args => call callee args :: subtreesArgs args
  | ret value => ret value :: subtreesOption value

/-- The subtrees of a child that may be absent. -/
def subtreesOption : Option Tree → List Tree
  | none => []
  | some t => t.subtrees

/-- The subtrees of all trees of a list. -/
def subtreesList : List Tree → List Tree
  | [] => []
  | t :: rest => t.subtrees ++ subtreesList rest

/-- The subtrees of arguments that may be absent. -/
def subtreesArgs : Option (List Tree) → List Tree
  | none => []
  | some ts => subtreesList ts

end

mutual

/-- The number of trees on the longest path from a tree downwards. -/
def nesting : Tree → Nat
  | ident _ => 1
  | int _ => 1
  | float _ => 1
  | nil => 1
  | unary _ operand => operand.nesting + 1
  | binary _ left right => max left.nesting right.nesting + 1
  | assign _ value => value.nesting + 1
  | print argument => nestingOption argument + 1
  | cond test thenBranch elseBranch =>
    max (max test.nesting thenBranch.nesting) (nestingOption elseBranch) + 1
  | suite statements => nestingList statements + 1
  | funcDef _ _ body => body.nesting + 1
  | call _ args => nestingArgs args + 1
  | ret value => nestingOption value + 1

/-- The nesting of a child, which is zero if it is absent. -/
def nestingOption : Option Tree → Nat
  | none => 0
  | some t => t.nesting

/-- The greatest nesting in a list. -/
def nestingList : List Tree → Nat
  | [] => 0
  | t :: rest => max t.nesting (nestingList rest)

/-- The greatest nesting among arguments that may be absent. -/
def nestingArgs : Option (List Tree) → Nat
  | none => 0
  | some ts => nestingList ts

end

theorem subtreesList_eq (ts : List Tree) : subtreesList ts = ts.flatMap subtrees := by
  induction ts with
  | nil => rfl
  | cons t rest ih => rw [subtreesList, ih, List.flatMap_cons]

/-- A tree is one of its subtrees. -/
theorem self_mem_subtrees (t : Tree) : t ∈ t.subtrees := by
  cases t <;> simp [subtrees]

end Tree

end TreeWalk
