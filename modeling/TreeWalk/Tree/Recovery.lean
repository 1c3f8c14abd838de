import TreeWalk.Tree.Lowering

/-!
# From stores back to trees

A layout is read back from the number of a root.  Names are looked up in the table of
names, the empty node in the slot of an optional child is an absent child, and a
parameter list gives its items, which may be none at all.  Where the nodes do not have
the shape of a tree, there is nothing to read back.

A node is read back with a bound on how deeply nodes nest.  In a layout of a tree
children have smaller numbers than their parents, so the number of the root is bound
enough.
-/

namespace TreeWalk

namespace Layout

/-- Whether a slot holds the empty node. -/
def isAbsent (l : Layout) (id : NodeId) : Bool := l.nodes.isEmpty id

/-- The string of an identifier node. -/
def identString? (l : Layout) (id : NodeId) : Option String :=
  match l.nodes.get? id with
  | some (.ident n) => some (l.names.lookup n)
  | _ => none

/-- The items of a parameter list. -/
def paramItems? (l : Layout) (id : NodeId) : Option (List NodeId) :=
  match l.nodes.get? id with
  | some (.paramList r) => l.nodes.list? r
  | _ => none

/-- The parameters of a function definition, if it declares any list of them. -/
def params? (l : Layout) (id : NodeId) : Option (Option (List String)) :=
  if l.isAbsent id then some none
  else do return some (← (← l.paramItems? id).mapM l.identString?)

/-- What a reader of nodes makes of a child that may be absent. -/
def optional? (l : Layout) (read : NodeId → Option Tree) (id : NodeId) : Option (Option Tree) :=
  if l.isAbsent id then some none else do return some (← read id)

/-- What a reader of nodes makes of arguments that may be absent. -/
def args? (l : Layout) (read : NodeId → Option Tree) (id : NodeId) :
    Option (Option (List Tree)) :=
  if l.isAbsent id then some none
  else do return some (← (← l.paramItems? id).mapM read)

/-- The tree at a node, with at most `fuel` nodes nested in one another. -/
def recoverNested (l : Layout) : Nat → NodeId → Option Tree
  | 0, _ => none
  | fuel + 1, id => do
    let read := l.recoverNested fuel
    match ← l.nodes.get? id with
    | .empty => none
    | .paramList _ => none
    | .ident n => return .ident (l.names.lookup n)
    | .int n => return .int n
    | .float x => return .float x
    | .nil => return .nil
    | .unary op operand => return .unary op (← read operand)
    | .binary op left right => return .binary op (← read left) (← read right)
    | .assign target value => return .assign (← l.identString? target) (← read value)
    | .print argument => return .print (← l.optional? read argument)
    | .cond test thenBranch elseBranch =>
      return .cond (← read test) (← read thenBranch) (← l.optional? read elseBranch)
    | .suite r => return .suite (← (← l.nodes.list? r).mapM read)
    | .funcDef n params body =>
      return .funcDef (l.names.lookup n) (← l.params? params) (← read body)
    | .call n args => return .call (l.names.lookup n) (← l.args? read args)
    | .ret value => return .ret (← l.optional? read value)

/-- The tree whose root is at a node. -/
def recover (l : Layout) (root : NodeId) : Option Tree := l.recoverNested (root.index + 1) root

end Layout

end TreeWalk
