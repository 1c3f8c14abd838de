import TreeWalk.Json.Number
import TreeWalk.Json.Text

/-!
# Skipping a value

A value that nobody looks at is checked for being JSON and otherwise left alone.  Its
containers may nest to any depth: the ones that are open are kept in a list, innermost
first, so skipping needs no room that grows with the nesting.
-/

namespace TreeWalk

namespace Json

/-- The two kinds of container. -/
inductive Container where
  | array
  | object
  deriving DecidableEq, Repr

namespace Container

/-- The character that closes a container. -/
def closing : Container → Char
  | array => ']'
  | object => '}'

/-- The complaint about a text that ends inside a container. -/
def ended : Container → Error
  | array => .listEnded
  | object => .objectEnded

/-- The complaint about an item that is followed by something else than a comma or the
end of its container. -/
def badSeparator : Container → Error
  | array => .expectedListCommaOrEnd
  | object => .expectedObjectCommaOrEnd

end Container

/-- Where a skipping reader stands. -/
inductive SkipState where
  /-- A value must follow. -/
  | value
  /-- A container was just opened. -/
  | opened
  /-- A value just ended. -/
  | closed
  deriving DecidableEq, Repr

/-- Skip one value that is not a container, which begins with the given character. -/
def skipScalar (limits : Limits) (c : Char) (rest : List Char) : Except Error (List Char) :=
  if c = 'n' then (word ['u', 'l', 'l'] limits rest).map (·.2)
  else if c = 't' then (word ['r', 'u', 'e'] limits rest).map (·.2)
  else if c = 'f' then (word ['a', 'l', 's', 'e'] limits rest).map (·.2)
  else if c = '-' then skipUnsigned rest
  else if (digit? c).isSome then skipUnsigned (c :: rest)
  else if c = '"' then skipStringRest limits.rounds rest
  else .error .expectedValue

/-- Skip the key of an item, and its colon. -/
def skipKey (limits : Limits) (cs : List Char) : Except Error (List Char) :=
  match skipBlank cs with
  | [] => .error .objectEnded
  | c :: rest =>
    if c = '"' then
      match skipStringRest limits.rounds rest with
      | .error e => .error e
      | .ok rest => (colon limits rest).map (·.2)
    else .error .keyMustBeString

/-- Skip what stands before the value of an item. -/
def skipItemStart (limits : Limits) : Container → List Char → Except Error (List Char)
  | .array, cs => .ok cs
  | .object, cs => skipKey limits cs

/-- Skip the rest of a value, the containers in `open` being open around it. -/
def skipRounds (limits : Limits) :
    Nat → SkipState → List Container → List Char → Except Error (List Char)
  | 0, _, _, _ => .error .valueEnded
  | rounds + 1, .value, enclosing, cs =>
    match skipBlank cs with
    | [] => .error .valueEnded
    | c :: rest =>
      if c = '[' then skipRounds limits rounds .opened (.array :: enclosing) rest
      else if c = '{' then skipRounds limits rounds .opened (.object :: enclosing) rest
      else
        match skipScalar limits c rest with
        | .error e => .error e
        | .ok rest => skipRounds limits rounds .closed enclosing rest
  | rounds + 1, .opened, enclosing, cs =>
    match enclosing with
    | [] => .ok cs
    | innermost :: outer =>
      match skipBlank cs with
      | [] => .error innermost.ended
      | c :: rest =>
        if c = innermost.closing then skipRounds limits rounds .closed outer rest
        else
          match skipItemStart limits innermost (c :: rest) with
          | .error e => .error e
          | .ok rest => skipRounds limits rounds .value enclosing rest
  | rounds + 1, .closed, enclosing, cs =>
    match enclosing with
    | [] => .ok cs
    | innermost :: outer =>
      match skipBlank cs with
      | [] => .error innermost.ended
      | c :: rest =>
        if c = ',' then
          match skipItemStart limits innermost rest with
          | .error e => .error e
          | .ok rest => skipRounds limits rounds .value enclosing rest
        else if c = innermost.closing then skipRounds limits rounds .closed outer rest
        else .error innermost.badSeparator

/-- Skip one value. -/
def skipValue : Reader Unit := fun limits cs =>
  match skipRounds limits (2 * limits.rounds) .value [] cs with
  | .ok rest => .ok ((), rest)
  | .error e => .error e

end Json

end TreeWalk
