/-!
# Operators

Twelve binary and three unary operators.  Each has three spellings: the `symbol`
that error messages show, the `keyword` by which a program file names it, and the
`label` under which a listing of nodes shows it.  Keywords and labels follow one
fixed order, `all`, and that is the order in which a reader of program files lists
what it expected.
-/

namespace TreeWalk

/-- The operators between two operands. -/
inductive BinaryOp where
  | add | sub | mul | div | floorDiv | mod | pow
  | lt | gt | eq | ge | le
  deriving DecidableEq, Repr

namespace BinaryOp

/-- Every binary operator, in the order in which they are listed. -/
def all : List BinaryOp :=
  [add, sub, mul, div, floorDiv, mod, pow, lt, gt, eq, ge, le]

/-- The symbol of an operator in error messages. -/
def symbol : BinaryOp → String
  | add => "+"
  | sub => "-"
  | mul => "*"
  | div => "/"
  | floorDiv => "//"
  | mod => "%"
  | pow => "**"
  | lt => "<"
  | gt => ">"
  | eq => "=="
  | ge => ">="
  | le => "<="

/-- The name of an operator in a program file. -/
def keyword : BinaryOp → String
  | add => "add"
  | sub => "sub"
  | mul => "mul"
  | div => "div"
  | floorDiv => "floor_div"
  | mod => "mod"
  | pow => "pow"
  | lt => "lt"
  | gt => "gt"
  | eq => "eq"
  | ge => "ge"
  | le => "le"

/-- The name of an operator in a listing of nodes. -/
def label : BinaryOp → String
  | add => "Add"
  | sub => "Sub"
  | mul => "Mul"
  | div => "Div"
  | floorDiv => "FloorDiv"
  | mod => "Mod"
  | pow => "Pow"
  | lt => "Lt"
  | gt => "Gt"
  | eq => "Eq"
  | ge => "GtEq"
  | le => "LtEq"

/-- The operator with a given keyword. -/
def ofKeyword? (s : String) : Option BinaryOp :=
  all.find? (·.keyword == s)

@[simp] theorem ofKeyword?_keyword (op : BinaryOp) : ofKeyword? op.keyword = some op := by
  cases op <;> rfl

end BinaryOp

/-- The operators on one operand. -/
inductive UnaryOp where
  | neg | pos | invert
  deriving DecidableEq, Repr

namespace UnaryOp

/-- Every unary operator, in the order in which they are listed. -/
def all : List UnaryOp := [neg, pos, invert]

/-- The symbol of an operator in error messages. -/
def symbol : UnaryOp → String
  | neg => "-"
  | pos => "+"
  | invert => "~"

/-- The name of an operator in a program file. -/
def keyword : UnaryOp → String
  | neg => "neg"
  | pos => "pos"
  | invert => "invert"

/-- The name of an operator in a listing of nodes. -/
def label : UnaryOp → String
  | neg => "Neg"
  | pos => "Pos"
  | invert => "Invert"

/-- The operator with a given keyword. -/
def ofKeyword? (s : String) : Option UnaryOp :=
  all.find? (·.keyword == s)

@[simp] theorem ofKeyword?_keyword (op : UnaryOp) : ofKeyword? op.keyword = some op := by
  cases op <;> rfl

end UnaryOp

end TreeWalk
