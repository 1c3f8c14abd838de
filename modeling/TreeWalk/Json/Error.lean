import TreeWalk.Decimal.Style
import TreeWalk.Text.Printable
import TreeWalk.Text.Quoted

/-!
# What reading a JSON text fails with

A text is read in a single pass from left to right, and the first problem met is the
one reported.  There are three categories of problem.  The text may end too early, it
may not be JSON, or it may be JSON of another shape than the reader expects.
-/

namespace TreeWalk

namespace Json

/-- What was found in place of something else. -/
inductive Found where
  | null
  | boolean (b : Bool)
  | integer (n : Int)
  | float (x : Float)
  | string (s : String)
  | sequence
  | map
  /-- A bare name, which stands for a variant without content. -/
  | unitVariant
  deriving DecidableEq

namespace Found

/-- How a complaint shows a float: the fewest digits, with `.0` for a whole number, and
an exponent for numbers that are very large or very small. -/
def floatStyle : Style where
  tie := .even
  wholeExact := false
  pointZero := true
  positional := some (-5, 15)
  notANumber := "NaN"
  infinity := "inf"

/-- The wording of what was found. -/
def phrase : Found → String
  | null => "null"
  | boolean b => s!"boolean `{b}`"
  | integer n => s!"integer `{n}`"
  | float x => "floating point `" ++ floatStyle.write x ++ "`"
  | string s => "string " ++ Quoted.quote isPrintable s
  | sequence => "sequence"
  | map => "map"
  | unitVariant => "unit variant"

end Found

/-- The categories of problem. -/
inductive Category where
  /-- The text is not JSON. -/
  | malformed
  /-- The text is JSON of an unexpected shape. -/
  | data
  /-- The text ends too early. -/
  | ended
  deriving DecidableEq, Repr

/-- Why a text could not be read. -/
inductive Error where
  | valueEnded
  | listEnded
  | objectEnded
  | stringEnded
  | expectedColon
  | expectedListCommaOrEnd
  | expectedObjectCommaOrEnd
  | expectedIdent
  | expectedValue
  | invalidEscape
  | invalidNumber
  | numberOutOfRange
  | loneSurrogate
  | unfinishedSurrogate
  | controlCharacter
  | keyMustBeString
  | trailingComma
  | trailingCharacters
  /-- Containers nest too deeply. -/
  | tooDeep
  /-- Something else was found than what the reader expects here. -/
  | invalidType (found : Found) (expected : String)
  /-- An integer beyond the 64-bit range. -/
  | invalidInteger (n : Nat)
  /-- An array ends before its required items. -/
  | invalidLength (length : Nat) (expected : String)
  | unknownVariant (name : String) (expected : List String)
  | missingField (name : String)
  | duplicateField (name : String)
  deriving DecidableEq

namespace Error

/-- Names in backquotes, with commas between them. -/
def listed (names : List String) : String :=
  ", ".intercalate (names.map fun name => "`" ++ name ++ "`")

/-- The category of a problem. -/
def category : Error → Category
  | valueEnded | listEnded | objectEnded | stringEnded => .ended
  | invalidType .. | invalidInteger .. | invalidLength .. | unknownVariant ..
  | missingField .. | duplicateField .. => .data
  | _ => .malformed

/-- The wording of a problem. -/
def message : Error → String
  | valueEnded => "EOF while parsing a value"
  | listEnded => "EOF while parsing a list"
  | objectEnded => "EOF while parsing an object"
  | stringEnded => "EOF while parsing a string"
  | expectedColon => "expected `:`"
  | expectedListCommaOrEnd => "expected `,` or `]`"
  | expectedObjectCommaOrEnd => "expected `,` or `\x7d`"
  | expectedIdent => "expected ident"
  | expectedValue => "expected value"
  | invalidEscape => "invalid escape"
  | invalidNumber => "invalid number"
  | numberOutOfRange => "number out of range"
  | loneSurrogate => "lone leading surrogate in hex escape"
  | unfinishedSurrogate => "unexpected end of hex escape"
  | controlCharacter => "control character (\\u0000-\\u001F) found while parsing a string"
  | keyMustBeString => "key must be a string"
  | trailingComma => "trailing comma"
  | trailingCharacters => "trailing characters"
  | tooDeep => "recursion limit exceeded"
  | invalidType found expected => s!"invalid type: {found.phrase}, expected {expected}"
  | invalidInteger n => s!"invalid value: integer `{n}`, expected i64"
  | invalidLength length expected => s!"invalid length {length}, expected {expected}"
  | unknownVariant name expected =>
    "unknown variant `" ++ name ++ "`, expected one of " ++ listed expected
  | missingField name => s!"missing field `{name}`"
  | duplicateField name => s!"duplicate field `{name}`"

end Error

end Json

end TreeWalk
