import TreeWalk.Tree.Field

/-!
# Reading a program tree

In a program file every node is an object with one key, the name of the kind of node,
whose value is the content of the node.  The literal `None` has no content and may be
written as its bare name; the other kinds may not, but it takes their names to say so.

## Depth

Two counts bound a tree.  The text may not nest its containers too deeply, which is a
rule of program files, and nodes may not nest too deeply, which follows from it, because
every node but a bare name is a container.  The second count is the one the reader
recurses on, so a tree that was read is never deeper than `Tree.maxDepth`.
-/

namespace TreeWalk

open Json (Reader)

/-- The kinds of node in a program file. -/
inductive Tag where
  | ident | int | float | nil | unary | binary | assign | print | cond | suite | funcDef | call | ret
  deriving DecidableEq, Repr

namespace Tag

/-- Every kind, in the order in which they are listed. -/
def all : List Tag :=
  [ident, int, float, nil, unary, binary, assign, print, cond, suite, funcDef, call, ret]

/-- The name of a kind in a program file. -/
def keyword : Tag → String
  | ident => "ident"
  | int => "int"
  | float => "float"
  | nil => "none"
  | unary => "unary"
  | binary => "binary"
  | assign => "assign"
  | print => "print"
  | cond => "if"
  | suite => "suite"
  | funcDef => "func_def"
  | call => "call"
  | ret => "return"

/-- The kind with a given name. -/
def ofKeyword? (s : String) : Option Tag := all.find? (·.keyword == s)

@[simp] theorem ofKeyword?_keyword (t : Tag) : ofKeyword? t.keyword = some t := by
  cases t <;> rfl

/-- The fields of a kind whose content is a record. -/
def fields : Tag → List Field
  | unary => [⟨"op", .unaryOp⟩, ⟨"operand", .tree⟩]
  | binary => [⟨"op", .binaryOp⟩, ⟨"left", .tree⟩, ⟨"right", .tree⟩]
  | assign => [⟨"target", .name⟩, ⟨"value", .tree⟩]
  | cond => [⟨"cond", .tree⟩, ⟨"then", .tree⟩, ⟨"else", .treeOption⟩]
  | funcDef => [⟨"name", .name⟩, ⟨"params", .nameListOption⟩, ⟨"body", .tree⟩]
  | call => [⟨"callee", .name⟩, ⟨"args", .treeListOption⟩]
  | _ => []

/-- The name by which complaints refer to a kind whose content is a record. -/
def label : Tag → String
  | unary => "Unary"
  | binary => "Binary"
  | assign => "Assign"
  | cond => "If"
  | funcDef => "FuncDef"
  | call => "Call"
  | _ => ""

/-- What the content of a kind is, for the complaint that there is none. -/
def contentPhrase : Tag → String
  | ident | int | float | print | suite | ret => "newtype variant"
  | _ => "struct variant"

end Tag

namespace Tree

/-- The greatest number of nodes on a path from the root of a tree that was read. -/
def maxDepth : Nat := 128

/-- Take a bare name. -/
def bare : Tag → Reader Tree
  | .nil => pure nil
  | t => Reader.fail (.invalidType .unitVariant t.contentPhrase)

/-- Take the content of a node, in which trees are taken by a given reader. -/
def content (tree : Reader Tree) : Tag → Reader Tree
  | .ident => do return ident (← Json.string)
  | .int => do return int (← Json.int64)
  | .float => do return float (.ofFloat (← Json.float64))
  | .nil => do
    Json.null
    return nil
  | .unary => do
    let (op, operand, ()) ← Fields.read tree Tag.unary.label Tag.unary.fields
    return unary op operand
  | .binary => do
    let (op, left, right, ()) ← Fields.read tree Tag.binary.label Tag.binary.fields
    return binary op left right
  | .assign => do
    let (target, value, ()) ← Fields.read tree Tag.assign.label Tag.assign.fields
    return assign target value
  | .print => do return print (← Json.optional tree)
  | .cond => do
    let (test, thenBranch, elseBranch, ()) ← Fields.read tree Tag.cond.label Tag.cond.fields
    return cond test thenBranch elseBranch
  | .suite => do return suite (← Json.array tree)
  | .funcDef => do
    let (name, params, body, ()) ← Fields.read tree Tag.funcDef.label Tag.funcDef.fields
    return funcDef name params body
  | .call => do
    let (callee, args, ()) ← Fields.read tree Tag.call.label Tag.call.fields
    return call callee args
  | .ret => do return ret (← Json.optional tree)

/-- Take a tree with at most `levels` nodes on a path. -/
def reader : Nat → Reader Tree
  | 0 => Reader.fail .tooDeep
  | levels + 1 =>
    Json.tagged Tag.ofKeyword? (Tag.all.map Tag.keyword) bare (content (reader levels))

/-- The tree that a text spells. -/
def ofText (text : String) : Except Json.Error Tree :=
  Json.whole (reader maxDepth) maxDepth text

end Tree

end TreeWalk
