import TreeWalk.Value
import TreeWalk.Decimal.Style

/-!
# The text of a value

This is what a program prints.  Integers are written in decimal and `nil` as `None`.
A float never shows an exponent and always shows a point: a whole float has every
digit of its exact value and then `.0`, so that no float reads like an integer, and
any other float has the fewest digits that tell it from its neighbours.
-/

namespace TreeWalk

namespace Value

/-- How a float is printed: never with an exponent, and whole floats exactly. -/
def floatStyle : Style where
  tie := .up
  wholeExact := true
  pointZero := true
  positional := none
  notANumber := "nan"
  infinity := "inf"

/-- The printed form of a value. -/
def text : Value → String
  | int n => toString n.toInt
  | float x => floatStyle.write x
  | nil => "None"

@[simp] theorem text_nil : nil.text = "None" := rfl

end Value

end TreeWalk
