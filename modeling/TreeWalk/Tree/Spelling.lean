import TreeWalk.Json.Spelling
import TreeWalk.Tree

/-!
# The spellings of a tree

The format of program files, said from the side of the writer.  Every node is an object
with one key, the name of its kind; the literal `None` may be written as its bare name,
and so may an operator.  Absent children are written as `null`, and where they are fields
of a record they may be left out.

`Tree.Spells t text` says that a text is one of the spellings of a tree.
-/

namespace TreeWalk

open Json (Spelling)

namespace Tree

/-- The ways to write a float literal: those of a double that has its bits. -/
def floatSpelling (x : FloatBits) : Spelling :=
  fun room ts => ∃ y : Float, x = .ofFloat y ∧ Spelling.float64 y room ts

/-- The ways to write a list of names that may be absent. -/
def nameSpelling : Option (List String) → Spelling
  | none => .null
  | some names => .array (names.map .string)

mutual

/-- The ways to write a tree. -/
def spelling : Tree → Spelling
  | ident name => .tagged "ident" (.string name)
  | int n => .tagged "int" (.int64 n)
  | float x => .tagged "float" (floatSpelling x)
  | nil => .word "none"
  | unary op operand => .tagged "unary" (.record
      [.given "op" (.word op.keyword), .given "operand" operand.spelling])
  | binary op left right => .tagged "binary" (.record
      [.given "op" (.word op.keyword), .given "left" left.spelling,
        .given "right" right.spelling])
  | assign target value => .tagged "assign" (.record
      [.given "target" (.string target), .given "value" value.spelling])
  | print argument => .tagged "print" (spellingOption argument)
  | cond test thenBranch elseBranch => .tagged "if" (.record
      [.given "cond" test.spelling, .given "then" thenBranch.spelling,
        ⟨"else", spellingOption elseBranch, elseBranch.isNone⟩])
  | suite statements => .tagged "suite" (.array (spellingList statements))
  | funcDef name params body => .tagged "func_def" (.record
      [.given "name" (.string name), ⟨"params", nameSpelling params, params.isNone⟩,
        .given "body" body.spelling])
  | call callee args => .tagged "call" (.record
      [.given "callee" (.string callee), ⟨"args", spellingArgs args, args.isNone⟩])
  | ret value => .tagged "return" (spellingOption value)

/-- The ways to write a child that may be absent. -/
def spellingOption : Option Tree → Spelling
  | none => .null
  | some t => t.spelling

/-- The ways to write each tree of a list. -/
def spellingList : List Tree → List Spelling
  | [] => []
  | t :: rest => t.spelling :: spellingList rest

/-- The ways to write arguments that may be absent. -/
def spellingArgs : Option (List Tree) → Spelling
  | none => .null
  | some ts => .array (spellingList ts)

end

/-- The greatest number of containers that are open at a time in a program file, not
counting those in values that mean nothing. -/
def maxOpen : Nat := 127

/-- A text spells a tree. -/
def Spells (t : Tree) (text : String) : Prop :=
  ∃ tokens, t.spelling maxOpen tokens ∧ Json.Spaced tokens text.toList

end Tree

end TreeWalk
