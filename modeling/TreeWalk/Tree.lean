import TreeWalk.Binary64
import TreeWalk.Operator

/-!
# Program trees

A `Tree` is a program as it is written in a program file: an owned tree, with
identifiers as strings and absent children as `none`.  An absent parameter list and
an empty one are different things, since a function without a parameter list ignores
its arguments.
-/

namespace TreeWalk

/-- A program, or a part of one. -/
inductive Tree where
  /-- A variable that is read. -/
  | ident (name : String)
  /-- An integer literal. -/
  | int (n : Int64)
  /-- A float literal. -/
  | float (x : FloatBits)
  /-- The literal `None`. -/
  | nil
  /-- An operator before its operand. -/
  | unary (op : UnaryOp) (operand : Tree)
  /-- An operator between its operands. -/
  | binary (op : BinaryOp) (left right : Tree)
  /-- An assignment. -/
  | assign (target : String) (value : Tree)
  /-- A line of output, which is empty if there is nothing to print. -/
  | print (argument : Option Tree)
  /-- A choice. -/
  | cond (test thenBranch : Tree) (elseBranch : Option Tree)
  /-- A block of statements. -/
  | suite (statements : List Tree)
  /-- A function definition, with its parameters if it declares any list of them. -/
  | funcDef (name : String) (params : Option (List String)) (body : Tree)
  /-- A call, with its arguments if it has any list of them. -/
  | call (callee : String) (args : Option (List Tree))
  /-- A return, of `nil` if no value is given. -/
  | ret (value : Option Tree)

namespace Tree

instance : Inhabited Tree := ⟨nil⟩

end Tree

end TreeWalk
