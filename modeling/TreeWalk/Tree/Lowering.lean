import TreeWalk.Tree
import TreeWalk.NodeStore

/-!
# From trees to stores

Lowering lays a tree out in a table of names and a store of nodes.  Children are laid
out before the node that has them, so the number of a child is smaller than that of
its parent, and the root is the last node.

The order in which names are met decides their numbers: an assignment names its
target after its value is laid out, a definition names its parameters and then itself
after its body, and a call names its callee after its arguments.
-/

namespace TreeWalk

/-- A program that is being laid out. -/
structure Layout where
  /-- The identifiers met so far. -/
  names : NameTable
  /-- The nodes laid out so far. -/
  nodes : NodeStore

namespace Layout

/-- A layout without a program. -/
def fresh : Layout := ⟨.fresh, .fresh⟩

instance : Inhabited Layout := ⟨fresh⟩

/-- Name a string. -/
def intern (l : Layout) (s : String) : Name × Layout :=
  let (n, names) := l.names.intern s
  (n, { l with names })

/-- Name each string of a list. -/
def internAll (l : Layout) (ss : List String) : List Name × Layout :=
  let (ns, names) := l.names.internAll ss
  (ns, { l with names })

/-- Name the strings of a list, if there is a list. -/
def internParams (l : Layout) : Option (List String) → Option (List Name) × Layout
  | none => (none, l)
  | some ss =>
    let (ns, l) := l.internAll ss
    (some ns, l)

/-- Lay out a node by one of the constructors of stores. -/
def build (l : Layout) (make : NodeStore → NodeId × NodeStore) : NodeId × Layout :=
  let (id, nodes) := make l.nodes
  (id, { l with nodes })

end Layout

namespace Tree

mutual

/-- Lay out a tree and answer with the number of its root. -/
def lower : Tree → Layout → NodeId × Layout
  | ident name, l =>
    let (n, l) := l.intern name
    l.build (·.add (.ident n))
  | int n, l => l.build (·.add (.int n))
  | float x, l => l.build (·.add (.float x))
  | nil, l => l.build (·.add .nil)
  | unary op operand, l =>
    let (a, l) := operand.lower l
    l.build (·.add (.unary op a))
  | binary op left right, l =>
    let (a, l) := left.lower l
    let (b, l) := right.lower l
    l.build (·.add (.binary op a b))
  | assign target value, l =>
    let (v, l) := value.lower l
    let (n, l) := l.intern target
    l.build (·.addAssign n v)
  | print argument, l =>
    let (a, l) := lowerOption argument l
    l.build (·.add (.print a))
  | cond test thenBranch elseBranch, l =>
    let (c, l) := test.lower l
    let (t, l) := thenBranch.lower l
    let (e, l) := lowerOption elseBranch l
    l.build (·.add (.cond c t e))
  | suite statements, l =>
    let (ids, l) := lowerList statements l
    l.build (·.addSuite ids)
  | funcDef name params body, l =>
    let (b, l) := body.lower l
    let (ps, l) := l.internParams params
    let (n, l) := l.intern name
    l.build (·.addFuncDef n ps b)
  | call callee args, l =>
    let (ids, l) := lowerArgs args l
    let (n, l) := l.intern callee
    l.build (·.addCall n ids)
  | ret value, l =>
    let (v, l) := lowerOption value l
    l.build (·.add (.ret v))

/-- Lay out a child that may be absent, for which the empty node stands. -/
def lowerOption : Option Tree → Layout → NodeId × Layout
  | none, l => (.empty, l)
  | some t, l => t.lower l

/-- Lay out trees from left to right. -/
def lowerList : List Tree → Layout → List NodeId × Layout
  | [], l => ([], l)
  | t :: rest, l =>
    let (id, l) := t.lower l
    let (ids, l) := lowerList rest l
    (id :: ids, l)

/-- Lay out arguments, if there are any. -/
def lowerArgs : Option (List Tree) → Layout → Option (List NodeId) × Layout
  | none, l => (none, l)
  | some ts, l =>
    let (ids, l) := lowerList ts l
    (some ids, l)

end

/-- The kind of the node that a tree is laid out as. -/
def kind : Tree → NodeKind
  | ident _ => .identifier
  | int _ => .literal
  | float _ => .literal
  | nil => .literal
  | unary .. => .unaryExpression
  | binary .. => .binaryExpression
  | assign .. => .assignment
  | print _ => .print
  | cond .. => .conditional
  | suite _ => .suite
  | funcDef .. => .functionDefinition
  | call .. => .call
  | ret _ => .ret

end Tree

end TreeWalk
