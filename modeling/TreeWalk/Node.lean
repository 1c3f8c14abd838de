import TreeWalk.Binary64
import TreeWalk.Name
import TreeWalk.Operator

/-!
# Nodes

A program is a tree of nodes, but no node contains another: it holds the number of
the other node, a `NodeId`, and a list of nodes is a `NodeRange` in storage that all
lists share.  Where a program may leave a child out --- a bare `print`, a missing
`else`, a function without a parameter list --- the slot holds the number of the
empty node, which is always `NodeId.empty`.

Statements and expressions are nodes of one type.  Evaluating any node yields at
most one value, and statements are the nodes that usually yield none.
-/

namespace TreeWalk

/-- The number of a node in its store. -/
structure NodeId where
  /-- The position of the node. -/
  index : Nat
  deriving DecidableEq, Repr

namespace NodeId

/-- The number of the empty node, which every store holds first. -/
def empty : NodeId := ⟨0⟩

instance : Inhabited NodeId := ⟨empty⟩

/-- Whether a number is that of the empty node. -/
def isEmpty (id : NodeId) : Bool := id.index == 0

/-- A number as listings show it. -/
def text (id : NodeId) : String :=
  if id.isEmpty then "ExprId::EMPTY" else s!"ExprId({id.index})"

end NodeId

/-- A stretch of the storage that all lists of nodes share. -/
structure NodeRange where
  /-- Where the list begins. -/
  start : Nat
  /-- How many items it has. -/
  size : Nat
  deriving DecidableEq, Repr

namespace NodeRange

/-- The range of no items at the very beginning. -/
def empty : NodeRange := ⟨0, 0⟩

instance : Inhabited NodeRange := ⟨empty⟩

/-- Whether a range has no items. -/
def isEmpty (r : NodeRange) : Bool := r.size == 0

/-- A range as listings show it. -/
def text (r : NodeRange) : String := s!"ExprRange({r.start}..{r.start + r.size})"

end NodeRange

/-- The kinds of node, as error messages tell them apart. -/
inductive NodeKind where
  | empty
  | identifier
  | literal
  | unaryExpression
  | binaryExpression
  | assignment
  | print
  | conditional
  | suite
  | functionDefinition
  | call
  | ret
  | parameterList
  deriving DecidableEq, Repr

namespace NodeKind

/-- The name of a kind in an error message. -/
def name : NodeKind → String
  | empty => "empty"
  | identifier => "identifier"
  | literal => "literal"
  | unaryExpression => "unary expression"
  | binaryExpression => "binary expression"
  | assignment => "assignment"
  | print => "print"
  | conditional => "if"
  | suite => "suite"
  | functionDefinition => "function definition"
  | call => "call"
  | ret => "return"
  | parameterList => "parameter list"

end NodeKind

/-- A node, with its children given by number. -/
inductive Node where
  /-- Nothing: what the slot of an absent child refers to. -/
  | empty
  /-- A variable that is read. -/
  | ident (name : Name)
  /-- An integer literal. -/
  | int (n : Int64)
  /-- A float literal. -/
  | float (x : FloatBits)
  /-- The literal `None`. -/
  | nil
  /-- An operator before its operand. -/
  | unary (op : UnaryOp) (operand : NodeId)
  /-- An operator between its operands. -/
  | binary (op : BinaryOp) (left right : NodeId)
  /-- An assignment; the target is meant to be an identifier. -/
  | assign (target value : NodeId)
  /-- A line of output; the empty node prints an empty line. -/
  | print (argument : NodeId)
  /-- A choice between two branches; the second may be the empty node. -/
  | cond (test thenBranch elseBranch : NodeId)
  /-- A block of statements. -/
  | suite (statements : NodeRange)
  /-- A function definition; `params` is a parameter list or the empty node. -/
  | funcDef (name : Name) (params body : NodeId)
  /-- A call of a function by name; `args` is a parameter list or the empty node. -/
  | call (callee : Name) (args : NodeId)
  /-- A return; the empty node returns `nil`. -/
  | ret (value : NodeId)
  /-- The parameters of a definition or the arguments of a call. -/
  | paramList (items : NodeRange)
  deriving DecidableEq

namespace Node

instance : Inhabited Node := ⟨empty⟩

/-- The kind of a node. -/
def kind : Node → NodeKind
  | empty => .empty
  | ident _ => .identifier
  | int _ => .literal
  | float _ => .literal
  | nil => .literal
  | unary .. => .unaryExpression
  | binary .. => .binaryExpression
  | assign .. => .assignment
  | print _ => .print
  | cond .. => .conditional
  | suite _ => .suite
  | funcDef .. => .functionDefinition
  | call .. => .call
  | ret _ => .ret
  | paramList _ => .parameterList

/-- The nodes to which a node refers directly. -/
def children : Node → List NodeId
  | unary _ operand => [operand]
  | binary _ left right => [left, right]
  | assign target value => [target, value]
  | print argument => [argument]
  | cond test thenBranch elseBranch => [test, thenBranch, elseBranch]
  | funcDef _ params body => [params, body]
  | call _ args => [args]
  | ret value => [value]
  | _ => []

/-- The list to which a node refers. -/
def range? : Node → Option NodeRange
  | suite statements => some statements
  | paramList items => some items
  | _ => none

end Node

end TreeWalk
