import TreeWalk.Node
import TreeWalk.Decimal.Style

/-!
# Listing nodes

A listing shows one node on one line: its constructor and, in brackets, what it
holds, with children as numbers.  It is meant for people who debug a program tree,
so a whole float is not marked as a float here.
-/

namespace TreeWalk

namespace Node

/-- How a float literal is listed: the fewest digits, without an exponent, and a whole
number without a point. -/
def floatStyle : Style where
  tie := .up
  wholeExact := false
  pointZero := false
  positional := none
  notANumber := "NaN"
  infinity := "inf"

/-- A name and the parts of a node, in the form of a call. -/
def listed (constructor : String) (parts : List String) : String :=
  constructor ++ "(" ++ ", ".intercalate parts ++ ")"

/-- A node as listings show it. -/
def text : Node → String
  | empty => "Empty"
  | ident name => listed "Ident" [name.text]
  | int n => listed "Int" [toString n.toInt]
  | float x => listed "Float" [floatStyle.write x.value]
  | nil => "None"
  | unary op operand => listed "Unary" [op.label, operand.text]
  | binary op left right => listed "Binary" [op.label, left.text, right.text]
  | assign target value => listed "Assign" [target.text, value.text]
  | print argument => listed "Print" [argument.text]
  | cond test thenBranch elseBranch =>
    listed "If" [test.text, thenBranch.text, elseBranch.text]
  | suite statements => listed "Suite" [statements.text]
  | funcDef name params body => listed "FuncDef" [name.text, params.text, body.text]
  | call callee args => listed "Call" [callee.text, args.text]
  | ret value => listed "Return" [value.text]
  | paramList items => listed "ParamList" [items.text]

end Node

end TreeWalk
